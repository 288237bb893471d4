import TensorDiagram.Proofs.CrossingSymmetry
import TensorDiagram.Proofs.FittingStrands
import TensorDiagram.Proofs.ProductValues

/-!
# Constructed braidings that fit

The braidings of an assignment are constructed before it is run.  The spaces of their strands are
read off the objects that the other references are bound to.

Let there be some spaces for the strands with which all legs of the assignment fit.  Then the
constructed braidings exist, and they fit to the other references exactly if strands are joined end
to beginning, or at least get their spaces at legs where two of them begin
(`constructed_legs_fit_iff`).  If two strands are joined end to end, or beginning to beginning
without legs at the other ends, then one of them gets the dual of the space that it needs
(`joined_beginnings_do_not_fit`).
-/

namespace TensorDiagram

variable {t : TensorRef} {ts : List TensorRef} {s : Strand × Strand} {spaceOf : Strand → Space}

/-- The object is a braiding that some plan constructs. -/
def ObjectRef.IsConstructed : ObjectRef → Prop
  | .name _ => False
  | .handle k => k.kind = .braiding

/-- The legs of the braiding of two strands. -/
def Legs.crossing (v w : Space) : Legs :=
  ⟨[w, v], [v, w]⟩

/-- The legs are checked before a contraction, and some of the legs that fit always pass. -/
theorem Fits.checkLabels_eq_ok {legs : Multiset LabelledLeg} (h : Fits legs)
    {part : List LabelledLeg} (hle : (part : Multiset LabelledLeg) ≤ legs) :
    checkLabels part = .ok () :=
  checkLabels_eq_ok_iff_spacesAt.mpr (h.mono hle)

namespace TensorRef

variable {braidingName : String}
variable {spaces : TensorRef → Space × Space}

/-- The legs of a reference to a braiding whose strands have given spaces. -/
def crossingLegs (t : TensorRef) (spaces : Space × Space) : List LabelledLeg :=
  t.indices.zip (if t.isAdjoint then (Legs.crossing spaces.1 spaces.2).adjoint
    else .crossing spaces.1 spaces.2).spaces

/-- The legs of a reference to a braiding are those of its strands. -/
theorem coe_crossingLegs (hs : t.strands braidingName = .ok s) (spaces : Space × Space) :
    (t.crossingLegs spaces : Multiset LabelledLeg) = strandLegs (s.1, spaces.1) + strandLegs (s.2,
      spaces.2) := by
  rw [strands] at hs
  split at hs
  · rename_i l₁ l₂ r₁ r₂ hl hr
    rw [crossingLegs, indices, hl, hr]
    split_ifs at hs ⊢ with hadjoint
    · obtain rfl := Except.ok.inj hs
      change ({(l₁, spaces.1), (l₂, spaces.2), (r₁, spaces.2.dual), (r₂, spaces.1.dual)} :
        Multiset LabelledLeg) = ({(r₂, spaces.1.dual)} + {(l₁, spaces.1)}) +
        ({(r₁, spaces.2.dual)} + {(l₂, spaces.2)})
      simp only [Multiset.insert_eq_cons, ← Multiset.singleton_add]
      abel
    · obtain rfl := Except.ok.inj hs
      change ({(l₁, spaces.2), (l₂, spaces.1), (r₁, spaces.1.dual), (r₂, spaces.2.dual)} :
        Multiset LabelledLeg) = ({(r₁, spaces.1.dual)} + {(l₂, spaces.1)}) +
        ({(r₂, spaces.2.dual)} + {(l₁, spaces.2)})
      simp only [Multiset.insert_eq_cons, ← Multiset.singleton_add]
      abel
  · cases hs

/-- The strands of some braidings with their spaces. -/
def net (braidingName : String) (spaces : TensorRef → Space × Space) (ts : List TensorRef) :
    List (Strand × Space) :=
  ts.flatMap fun t =>
    match t.strands braidingName with
    | .ok s => [(s.1, (spaces t).1), (s.2, (spaces t).2)]
    | .error _ => []

theorem net_cons (hs : t.strands braidingName = .ok s) (spaces : TensorRef → Space × Space)
    (ts : List TensorRef) :
    net braidingName spaces (t :: ts) =
      (s.1, (spaces t).1) :: (s.2, (spaces t).2) :: net braidingName spaces ts := by
  rw [net, List.flatMap_cons, hs]
  rfl

theorem map_fst_net {strands : List Strand} (h : allStrands braidingName ts = .ok strands)
    (spaces : TensorRef → Space × Space) : (net braidingName spaces ts).map Prod.fst = strands := by
  rw [allStrands] at h
  obtain ⟨pairs, hpairs, hflat⟩ := bind_eq_ok_iff.mp h
  obtain rfl := Except.ok.inj hflat
  have hall := mapM_eq_ok_iff.mp hpairs
  clear h hpairs hflat
  induction hall with
  | nil => rfl
  | cons hs _ ih =>
    rw [net_cons hs, List.map_cons, List.map_cons, ih]
    rfl

theorem mem_net (ht : t ∈ ts) (hs : t.strands braidingName = .ok s) :
    (s.1, (spaces t).1) ∈ net braidingName spaces ts ∧
      (s.2, (spaces t).2) ∈ net braidingName spaces ts := by
  constructor <;> refine List.mem_flatMap.mpr ⟨t, ht, ?_⟩ <;> rw [hs] <;> simp

/-- If spaces belong to strands, then so they do in the list of strands with their spaces. -/
theorem net_eq_map {strands : List Strand} (h : allStrands braidingName ts = .ok strands)
    (hspaces : ∀ t ∈ ts, ∀ s, t.strands braidingName = .ok s →
      spaces t = (spaceOf s.1, spaceOf s.2)) :
    net braidingName spaces ts = strands.map fun x => (x, spaceOf x) := by
  have hmem : ∀ x ∈ net braidingName spaces ts, x = (x.1, spaceOf x.1) := by
    intro x hx
    obtain ⟨t, ht, hx⟩ := List.mem_flatMap.mp hx
    rcases hs : t.strands braidingName with e | s
    · rw [hs] at hx
      cases hx
    · rw [hs, hspaces t ht s hs] at hx
      rcases List.mem_pair.mp hx with rfl | rfl <;> rfl
  rw [← map_fst_net h spaces, List.map_map]
  exact (List.map_id' _).symm.trans (List.map_congr_left hmem)

/-- The legs of some references are those of the strands and all others. -/
theorem coe_flatMap_legs {legs : TensorRef → List LabelledLeg}
    (h : ∀ t ∈ ts, t.isBraiding braidingName = true →
      ∃ s, t.strands braidingName = .ok s ∧
        (legs t : Multiset LabelledLeg) = strandLegs (s.1, (spaces t).1) + strandLegs (s.2,
          (spaces t).2)) :
    (ts.flatMap legs : Multiset LabelledLeg) =
      ((ts.filter fun t => !t.isBraiding braidingName).flatMap legs : List LabelledLeg) +
        netLegs (net braidingName spaces (ts.filter fun t => t.isBraiding braidingName)) := by
  induction ts with
  | nil => rfl
  | cons t ts ih =>
    obtain ⟨ht, hts⟩ := List.forall_mem_cons.mp h
    rw [List.flatMap_cons, ← Multiset.coe_add, ih hts]
    by_cases hbraiding : t.isBraiding braidingName = true
    · obtain ⟨s, hs, hlegs⟩ := ht hbraiding
      rw [List.filter_cons_of_neg (by simp [hbraiding]), List.filter_cons_of_pos hbraiding,
        net_cons hs, hlegs, netLegs, netLegs, ← Multiset.cons_coe, ← Multiset.cons_coe,
        Multiset.map_cons, Multiset.map_cons, Multiset.sum_cons, Multiset.sum_cons]
      ac_rfl
    · rw [List.filter_cons_of_pos (by simpa using hbraiding), List.filter_cons_of_neg hbraiding,
        List.flatMap_cons, ← Multiset.coe_add, add_assoc]

end TensorRef

namespace Machine

open Diagram

variable {R : Type} [Arithmetic R]
variable {m m' : Machine R} {v w : Space}

/-! ## References and their legs -/

/-- The reference is to a tensor with as many legs as it has indices. -/
def Bears (m : Machine R) (t : TensorRef) : Prop :=
  ∃ s, m.referent t.object t.isAdjoint = .ok (.tensor s) ∧ t.indices.length = s.legs.count

/-- The legs of the tensor that a reference is to. -/
def refLegs (m : Machine R) (t : TensorRef) : List LabelledLeg :=
  match m.referent t.object t.isAdjoint with
  | .ok (.tensor s) => s.labelledLegs t.indices
  | _ => []

/-- The legs of a reference, if the strands of braidings have given spaces. -/
def legsWith (m : Machine R) (braidingName : String) (spaces : TensorRef → Space × Space)
    (t : TensorRef) : List LabelledLeg :=
  if t.isBraiding braidingName then t.crossingLegs (spaces t) else m.refLegs t

theorem referent_congr {object : ObjectRef} (h : m'.lookup object = m.lookup object)
    (isAdjoint : Bool) : m'.referent object isAdjoint = m.referent object isAdjoint := by
  rw [referent, referent, h]

theorem spaceOf_congr {space : LegSpace} (h : m'.lookup space.object = m.lookup space.object) :
    m'.spaceOf space = m.spaceOf space := by
  rw [spaceOf, spaceOf, referent_congr h]

theorem refLegs_congr (h : m'.lookup t.object = m.lookup t.object) :
    m'.refLegs t = m.refLegs t := by
  rw [refLegs, refLegs, referent_congr h]

theorem Bears.congr (h : m'.lookup t.object = m.lookup t.object) (ht : m.Bears t) : m'.Bears t := by
  rwa [Bears, referent_congr h]

omit [Arithmetic R] in
theorem lookup_bind_self (m : Machine R) (object : ObjectRef) (value : Value R) :
    (m.bind object value).lookup object = .ok value := by
  simp only [lookup, Machine.bind, Table.find?_put_self]

omit [Arithmetic R] in
theorem lookup_bind_of_ne (m : Machine R) {object other : ObjectRef} (value : Value R)
    (h : other ≠ object) : (m.bind object value).lookup other = m.lookup other := by
  simp only [lookup, Machine.bind, Table.find?_put_of_ne _ _ h]

/-- The space of a leg can be read off. -/
theorem Bears.exists_spaceOf (h : m.Bears t) {i : Index} (hi : i ∈ t.indices) :
    ∃ v, (i, v) ∈ m.refLegs t ∧ 0 ≤ v.dim ∧
      ∀ isDual, m.spaceOf ⟨t.object, t.indices.idxOf i, t.isAdjoint, isDual⟩ =
        .ok (if isDual then v.dual else v) := by
  obtain ⟨s, hs, hcount⟩ := h
  have hlt : t.indices.idxOf i < t.indices.length := List.idxOf_lt_length_of_mem hi
  have hlt' : t.indices.idxOf i < s.legs.spaces.length := by rwa [Legs.length_spaces, ← hcount]
  refine ⟨s.legs.spaces.get ⟨_, hlt'⟩, ?_, Tensor.dim_nonneg (List.get_mem _ _), fun isDual => ?_⟩
  · rw [refLegs, hs]
    refine List.mem_iff_get.mpr ⟨⟨t.indices.idxOf i, ?_⟩, ?_⟩
    · change _ < (t.indices.zip s.legs.spaces).length
      rw [List.length_zip]
      exact lt_min hlt hlt'
    · simp [Tensor.labelledLegs]
  · have hspace : s.space (t.indices.idxOf i : ℤ) = .ok (s.legs.spaces.get ⟨_, hlt'⟩) := by
      rw [Tensor.space, if_neg (by omega), Int.toNat_natCast, List.getElem?_eq_getElem hlt']
      rfl
    rw [spaceOf, hs, ok_bind, Value.toTensor, ok_bind, hspace]
    rfl

/-! ## Running constructions -/

theorem exists_braiding (hv : 0 ≤ v.dim) (hw : 0 ≤ w.dim) :
    ∃ u : Tensor R, Tensor.braiding v w = .ok u ∧ u.legs = .crossing v w := by
  rw [Tensor.braiding, if_neg (by omega), Tensor.ofGrid,
    dif_pos (by simp [Grid.ofFn, Legs.shape, hv, hw])]
  exact ⟨_, rfl, rfl⟩

/-- The braiding of two spaces is bound to its handle. -/
theorem exists_execute_braid (handle : Handle) {first second : LegSpace}
    (hfirst : m.spaceOf first = .ok v) (hsecond : m.spaceOf second = .ok w) (hv : 0 ≤ v.dim)
    (hw : 0 ≤ w.dim) :
    ∃ u : Tensor R, u.legs = .crossing v w ∧
      m.execute (.braid handle first second) = .ok (m.bind (.handle handle) (.tensor u)) := by
  obtain ⟨u, hu, hlegs⟩ := exists_braiding (R := R) hv hw
  refine ⟨u, hlegs, ?_⟩
  have hstep : m.step (.braid handle first second) = .ok (m.bind (.handle handle) (.tensor u)) := by
    rw [step, hfirst, ok_bind, hsecond, ok_bind, hu, ok_bind]
    rfl
  simp only [execute, hstep]

/-- The space that is found somewhere, or one without dimension. -/
def spaceAt (m : Machine R) (space : Option LegSpace) : Space :=
  match space.map m.spaceOf with
  | some (.ok v) => v
  | _ => ⟨0, false⟩

theorem spaceAt_eq {space : LegSpace} (h : m.spaceOf space = .ok v) :
    m.spaceAt (some space) = v := by
  rw [spaceAt, Option.map_some, h]

/-- All spaces that are found can be read off objects that are there already. -/
def CanRead (m : Machine R) (spaces : Table Index LegSpace) : Prop :=
  ∀ i space, spaces.find? i = some space →
    ¬ space.object.IsConstructed ∧ ∃ v, m.spaceOf space = .ok v ∧ 0 ≤ v.dim

/-- All spaces come from the objects of neighbours. -/
theorem canRead_of_assigned {neighbours : List TensorRef} {done : List Strand}
    {spaces : Table Index LegSpace} (h : StrandSpaces.Assigned neighbours done spaces)
    (hm : ∀ t ∈ neighbours, ¬ t.object.IsConstructed ∧ m.Bears t) : m.CanRead spaces := by
  refine h.holds (P := fun _ space => ¬ space.object.IsConstructed ∧
    ∃ v, m.spaceOf space = .ok v ∧ 0 ≤ v.dim) (fun x _ space hspace => ?_)
    fun x _ _ space hspace => ?_
  · obtain ⟨t, ht, ⟨hindex, rfl⟩ | ⟨hindex, rfl⟩⟩ := StrandSpaces.exists_of_legSpace? hspace
    all_goals
      obtain ⟨v, -, hdim, hv⟩ := (hm t ht).2.exists_spaceOf hindex
      exact ⟨⟨(hm t ht).1, _, hv _, hdim⟩, (hm t ht).1, _, hv _, hdim⟩
  · exact ⟨hspace.elim id id, hspace.elim id id⟩

/-- The objects that the machine has are still there, and the handles are bound to the braidings of
spaces. -/
structure Constructed (braidingName : String) (m m' : Machine R) (spaces : Table Index LegSpace)
    (table : HandleTable) (ts : List TensorRef) (handles : Table TensorRef Handle) : Prop where
  /-- Objects that are not constructed stay. -/
  other : ∀ object : ObjectRef, ¬ object.IsConstructed → m'.lookup object = m.lookup object
  /-- So do the braidings that were constructed before. -/
  before : ∀ k < (table.handlesOf .braiding).length,
    m'.lookup (.handle ⟨.braiding, k⟩) = m.lookup (.handle ⟨.braiding, k⟩)
  /-- The braidings have the spaces of their strands. -/
  braiding : ∀ t ∈ ts, ∃ handle s u, handles.find? t = some handle ∧
    t.strands braidingName = .ok s ∧ m'.lookup (.handle handle) = .ok (.tensor u) ∧
    u.legs = .crossing (m.spaceAt (spaces.find? s.1.2)) (m.spaceAt (spaces.find? s.2.2))

/-- Where spaces can be read off, it does not matter which braidings have been constructed. -/
theorem CanRead.spaceAt_congr {spaces : Table Index LegSpace} (h : m.CanRead spaces)
    (hm : ∀ object : ObjectRef, ¬ object.IsConstructed → m'.lookup object = m.lookup object)
    (i : Index) : m'.spaceAt (spaces.find? i) = m.spaceAt (spaces.find? i) := by
  rcases hfind : spaces.find? i with _ | space
  · rfl
  · rw [spaceAt, spaceAt, Option.map_some, Option.map_some,
      spaceOf_congr (hm _ (h i space hfind).1)]

/-- Braidings can be constructed if their spaces can be read off. -/
theorem exists_executeAll_constructions {braidingName : String} {spaces : StrandSpaces}
    {table table' : HandleTable} {statements : List Diagram} {handles : Table TensorRef Handle}
    (h : constructions braidingName spaces table ts = .ok (statements, handles, table'))
    (hm : m.CanRead spaces.spaces) :
    ∃ m', m.executeAll statements = .ok m' ∧
      Constructed braidingName m m' spaces.spaces table ts handles := by
  induction ts generalizing table table' statements handles m with
  | nil =>
    obtain ⟨rfl, htable⟩ := Prod.mk.inj (Except.ok.inj h)
    exact ⟨m, by rw [executeAll], fun _ _ => rfl, fun _ _ => rfl, by simp⟩
  | cons t ts ih =>
    obtain ⟨s, first, second, rest, others, hs, hfirst, hsecond, hrest, rfl, rfl⟩ :=
      exists_of_constructions_cons h
    obtain ⟨-, v, hv, hdim₁⟩ := hm _ _ hfirst
    obtain ⟨-, w, hw, hdim₂⟩ := hm _ _ hsecond
    obtain ⟨u, hlegs, hexecute⟩ := exists_execute_braid table.freshBraiding.1 hv hw hdim₁ hdim₂
    have hne : ∀ object : ObjectRef, ¬ object.IsConstructed →
        object ≠ .handle table.freshBraiding.1 := by
      rintro object hobject rfl
      exact hobject rfl
    have hstay : ∀ object : ObjectRef, ¬ object.IsConstructed →
        (m.bind (.handle table.freshBraiding.1) (.tensor u)).lookup object = m.lookup object :=
      fun object hobject => lookup_bind_of_ne m _ (hne object hobject)
    have hlength : (table.freshBraiding.2.handlesOf .braiding).length =
        (table.handlesOf .braiding).length + 1 := by
      simp [HandleTable.freshBraiding, HandleTable.create, HandleTable.handlesOf,
        HandleTable.handles, HandleTable.next]
    obtain ⟨m', hm', hconstructed⟩ :=
      ih hrest (m := m.bind (.handle table.freshBraiding.1) (.tensor u))
      fun i space hspace => by
        rw [spaceOf_congr (hstay _ (hm i space hspace).1)]
        exact hm i space hspace
    refine ⟨m', by simp only [executeAll, hexecute, hm'], fun object hobject => ?_, fun k hk => ?_,
      fun t' ht' => ?_⟩
    · rw [hconstructed.other object hobject, hstay object hobject]
    · rw [hconstructed.before k (by omega)]
      refine lookup_bind_of_ne m _ fun heq => ?_
      have hindex : k = (table.handlesOf .braiding).length :=
        congrArg Handle.index (ObjectRef.handle.inj heq)
      omega
    · by_cases heq : t = t'
      · subst heq
        refine ⟨table.freshBraiding.1, _, u, by rw [Table.find?, if_pos rfl], hs, ?_, ?_⟩
        · have hbefore := hconstructed.before (table.handlesOf .braiding).length (by omega)
          exact hbefore.trans (lookup_bind_self m _ _)
        · rw [hlegs, hfirst, hsecond, spaceAt_eq hv, spaceAt_eq hw]
      · obtain ⟨handle, s, u', hhandle, hs', hlookup, hlegs'⟩ :=
          hconstructed.braiding t' ((List.mem_cons.mp ht').resolve_left (Ne.symm heq))
        refine ⟨handle, s, u', by rw [Table.find?, if_neg heq, hhandle], hs', hlookup, ?_⟩
        rw [hlegs', hm.spaceAt_congr hstay, hm.spaceAt_congr hstay]

/-- The legs of a constructed braiding are those of its strands. -/
theorem bears_of_lookup {braidingName : String} {handle : Handle} {u : Tensor R}
    (hlookup : m.lookup (.handle handle) = .ok (.tensor u)) (hlegs : u.legs = .crossing v w)
    (hs : t.strands braidingName = .ok s) :
    m.Bears (t.withObject (.handle handle)) ∧ m.refLegs (t.withObject (.handle handle)) =
      t.crossingLegs (v, w) := by
  have hreferent : m.referent (.handle handle) t.isAdjoint =
      .ok (.tensor (if t.isAdjoint then u.adjoint else u)) := by
    rw [referent, hlookup]
    cases t.isAdjoint <;> rfl
  have hshown : (if t.isAdjoint then u.adjoint else u).legs =
      if t.isAdjoint then (Legs.crossing v w).adjoint else .crossing v w := by
    rw [← hlegs]
    split_ifs <;> rfl
  refine ⟨⟨_, hreferent, ?_⟩, ?_⟩
  · have hfour : t.indices.length = 4 := by
      rw [TensorRef.strands] at hs
      split at hs
      · rename_i hl hr
        rw [TensorRef.indices, hl, hr]
        rfl
      · cases hs
    change t.indices.length = _
    rw [hfour, hshown]
    split_ifs <;> rfl
  · change (match m.referent (.handle handle) t.isAdjoint with
      | .ok (.tensor s) => s.labelledLegs t.indices
      | _ => []) = _
    rw [hreferent]
    change t.indices.zip _ = _
    rw [hshown]
    rfl

end Machine

namespace Diagram

open Machine

/-! ## Assignments -/

section

variable {R : Type} [Arithmetic R] {braidingName : String} {table table' : HandleTable}
  {lhs rhs constructed : Diagram} {isDefinition : Bool} {strands : List Strand} {m : Machine R}
  {spaces : TensorRef → Space × Space} {terms : List TensorRef}

/-- The references of an assignment, and those that give spaces to its strands. -/
theorem neighbourTerms?_getD (isDefinition : Bool) (hrhs : rhs.HasNoSum)
    (hlhs : ∀ t ∈ lhs.tensors, ¬ t.isBraiding braidingName = true) :
    ∃ others, (assign lhs rhs isDefinition).neighbourTerms?.getD [] = rhs.tensors ++ others ∧
      ∀ t ∈ others, ¬ t.isBraiding braidingName = true := by
  by_cases htensor : rhs.isTensor = true
  · obtain ⟨others, hterms, hothers⟩ := neighbourTerms?_assign lhs isDefinition htensor
    refine ⟨others, by rw [hterms, Option.getD_some], fun u hu => ?_⟩
    obtain ⟨t, rfl, -, rfl⟩ := hothers u hu
    exact hlhs t (List.mem_singleton_self t)
  · have hnone : rhs.tensors = [] :=
      List.eq_nil_iff_forall_not_mem.mpr fun t ht => htensor (hrhs.isTensor_of_mem ht)
    refine ⟨[], ?_, by simp⟩
    rw [hnone]
    cases lhs <;> cases isDefinition <;> simp [neighbourTerms?, statementTerms?, htensor]

/-- After braidings have been constructed, all references have legs: those of braidings have the
spaces of their strands, all others the legs that they had before. -/
structure ResolvesTo (braidingName : String) (m m' : Machine R) (rhs rhs' : Diagram)
    (f : TensorRef → TensorRef) (spaceOf : Strand → Space) : Prop where
  /-- The references are replaced. -/
  tensors_eq : rhs'.tensors = rhs.tensors.map f
  /-- References to other objects. -/
  other : ∀ t ∈ rhs.tensors, ¬ t.isBraiding braidingName = true → m'.Bears (f t) ∧
    m'.refLegs (f t) = m.refLegs t
  /-- References to braidings. -/
  braiding : ∀ t ∈ rhs.tensors, t.isBraiding braidingName = true →
    ∃ s, t.strands braidingName = .ok s ∧ m'.Bears (f t) ∧
    m'.refLegs (f t) = t.crossingLegs (spaceOf s.1, spaceOf s.2)

/-- All references have legs. -/
theorem ResolvesTo.bears {m' : Machine R} {rhs' : Diagram} {f : TensorRef → TensorRef}
    (h : ResolvesTo braidingName m m' rhs rhs' f spaceOf) : ∀ t ∈ rhs'.tensors, m'.Bears t := by
  intro t' ht'
  rw [h.tensors_eq] at ht'
  obtain ⟨t, ht, rfl⟩ := List.mem_map.mp ht'
  by_cases hbraiding : t.isBraiding braidingName = true
  · obtain ⟨s, -, hbears, -⟩ := h.braiding t ht hbraiding
    exact hbears
  · exact (h.other t ht hbraiding).1

/-- The legs are those of strands and of other objects. -/
theorem ResolvesTo.coe_legs {m' : Machine R} {rhs' : Diagram} {f : TensorRef → TensorRef}
    (h : ResolvesTo braidingName m m' rhs rhs' f spaceOf)
    (hstrands : TensorRef.allStrands braidingName (rhs.tensors.filter fun t =>
      t.isBraiding braidingName) = .ok strands) :
    (rhs'.tensors.flatMap m'.refLegs : Multiset LabelledLeg) =
      ((rhs.tensors.filter fun t => !t.isBraiding braidingName).flatMap m.refLegs :
        List LabelledLeg) + netLegs (strands.map fun x => (x, spaceOf x)) := by
  obtain ⟨spaces, hspaces⟩ : ∃ spaces : TensorRef → Space × Space, ∀ t s,
      t.strands braidingName = .ok s → spaces t = (spaceOf s.1, spaceOf s.2) :=
    ⟨fun t => match t.strands braidingName with
      | .ok s => (spaceOf s.1, spaceOf s.2)
      | .error _ => (⟨0, false⟩, ⟨0, false⟩), fun t s hs => by simp only [hs]⟩
  have hlegs : ∀ t ∈ rhs.tensors, t.isBraiding braidingName = true →
      ∃ s, t.strands braidingName = .ok s ∧ (m'.refLegs (f t) : Multiset LabelledLeg) =
        strandLegs (s.1, (spaces t).1) + strandLegs (s.2, (spaces t).2) := by
    intro t ht hbraiding
    obtain ⟨s, hs, -, hlegs⟩ := h.braiding t ht hbraiding
    rw [hspaces t s hs, hlegs]
    exact ⟨s, hs, TensorRef.coe_crossingLegs hs _⟩
  have hother : ∀ t ∈ rhs.tensors.filter fun t => !t.isBraiding braidingName, m'.refLegs (f t) =
      m.refLegs t := by
    intro t ht
    obtain ⟨ht, hother⟩ := List.mem_filter.mp ht
    exact (h.other t ht (by simpa using hother)).2
  rw [h.tensors_eq, List.flatMap_map, TensorRef.coe_flatMap_legs hlegs,
    TensorRef.net_eq_map hstrands fun t _ s => hspaces t s, List.flatMap_congr hother]

/-- The braidings of an assignment are constructed with the spaces that its strands get one after
another. -/
theorem exists_resolvesTo
    (h : (assign lhs rhs isDefinition).constructBraidings braidingName table =
      .ok (constructed, table'))
    {others : List TensorRef}
    (hterms : (assign lhs rhs isDefinition).neighbourTerms?.getD [] = rhs.tensors ++ others)
    (hothers : ∀ t ∈ others, ¬ t.isBraiding braidingName = true)
    (hstrands : TensorRef.allStrands braidingName (rhs.tensors.filter fun t =>
      t.isBraiding braidingName) = .ok strands)
    (hobjects : ∀ t ∈ rhs.tensors ++ others, ¬ t.object.IsConstructed)
    (hbears : ∀ t ∈ rhs.tensors ++ others, ¬ t.isBraiding braidingName = true → m.Bears t) :
    ∃ statements lhs' rhs' m' f done spaces,
      constructed.flatten = statements ++ [assign lhs' rhs' isDefinition] ∧
        m.executeAll statements = .ok m' ∧
      (∀ x, x ∈ strands ↔ x ∈ done) ∧
      StrandSpaces.Assigned ((rhs.tensors ++ others).filter fun t =>
        !t.isBraiding braidingName) done spaces ∧
      ResolvesTo braidingName m m' rhs rhs' f fun x => m.spaceAt (spaces.find? x.2) := by
  have hfilter : ((rhs.tensors ++ others).filter fun t => t.isBraiding braidingName) =
      rhs.tensors.filter fun t => t.isBraiding braidingName := by
    rw [List.filter_append, List.filter_eq_nil_iff.mpr hothers, List.append_nil]
  have hcases := constructStatement_cases hterms h
  rw [hfilter] at hcases
  rcases hcases with ⟨hnone, rfl, -⟩ | ⟨strands', statements, handles, hstrands', hresolved,
    hconstructions, rfl⟩
  · have hnone : ∀ t ∈ rhs.tensors, ¬ t.isBraiding braidingName = true := by
      intro t ht hbraiding
      have hmem := mem_distinct.mpr (List.mem_filter.mpr ⟨ht, hbraiding⟩)
      rw [hnone] at hmem
      cases hmem
    have hempty : strands = [] := by
      rw [List.filter_eq_nil_iff.mpr hnone] at hstrands
      exact (Except.ok.inj hstrands).symm
    refine ⟨[], lhs, rhs, m, id, [], [], rfl, by rw [executeAll], by simp [hempty], .nil,
      ⟨by simp, ?_, ?_⟩⟩
    · exact fun t ht hother => ⟨hbears t (List.mem_append_left _ ht) hother, rfl⟩
    · exact fun t ht hbraiding => absurd hbraiding (hnone t ht)
  · obtain ⟨done, hdone, hassigned⟩ := StrandSpaces.exists_assigned hresolved
    have hmem : ∀ x, x ∈ strands ↔ x ∈ strands' := by
      intro x
      rw [TensorRef.mem_iff_of_allStrands_eq_ok hstrands,
        TensorRef.mem_iff_of_allStrands_eq_ok hstrands']
      simp only [TensorRef.IsStrandOf, mem_distinct]
    have hread : m.CanRead (StrandSpaces.ofStrands _ strands').spaces :=
      canRead_of_assigned hassigned fun t ht => by
      obtain ⟨ht, hother⟩ := List.mem_filter.mp ht
      exact ⟨hobjects t ht, hbears t ht (by simpa using hother)⟩
    obtain ⟨m', hm', hconstructed⟩ := exists_executeAll_constructions hconstructions hread
    obtain ⟨hkeys, hconstructs, -⟩ := constructions_spec hconstructions
    refine ⟨statements, lhs.mapRefs (resolveRef handles), _, m', resolveRef handles,
      done, _, ?_, hm', fun x => (hmem x).trans (hdone x), hassigned, tensors_mapRefs _ _,
      fun t ht hother => ?_, fun t ht hbraiding => ?_⟩
    · rw [flatten, flattenList, flatten, flattenList_constructs hconstructs, flattenList,
        flattenList, List.append_nil]
      rfl
    · have hlookup := hconstructed.other t.object (hobjects t (List.mem_append_left _ ht))
      rw [resolveRef_eq_self hkeys hother]
      exact ⟨(hbears t (List.mem_append_left _ ht) hother).congr hlookup, refLegs_congr hlookup⟩
    · obtain ⟨handle, s, u, hhandle, hs, hlookup, hlegs⟩ :=
        hconstructed.braiding t (mem_distinct.mpr (List.mem_filter.mpr ⟨ht, hbraiding⟩))
      refine ⟨s, hs, ?_⟩
      rw [resolveRef, hhandle]
      exact bears_of_lookup hlookup hlegs hs

/-- The legs of the references of an assignment, if the strands of its braidings have given
spaces. -/
theorem coe_flatMap_legsWith
    (hfilter : (terms.filter fun t => t.isBraiding braidingName) =
      rhs.tensors.filter fun t => t.isBraiding braidingName)
    (hstrands : TensorRef.allStrands braidingName (rhs.tensors.filter fun t =>
      t.isBraiding braidingName) = .ok strands) :
    (terms.flatMap (m.legsWith braidingName spaces) : Multiset LabelledLeg) =
      ((terms.filter fun t => !t.isBraiding braidingName).flatMap m.refLegs : List LabelledLeg) +
        netLegs (TensorRef.net braidingName spaces (rhs.tensors.filter fun t =>
          t.isBraiding braidingName)) := by
  have hcrossings : ∀ t ∈ terms, t.isBraiding braidingName = true →
      ∃ s, t.strands braidingName = .ok s ∧
      (m.legsWith braidingName spaces t : Multiset LabelledLeg) =
        strandLegs (s.1, (spaces t).1) + strandLegs (s.2, (spaces t).2) := by
    intro t ht hbraiding
    obtain ⟨s, hs⟩ :=
      TensorRef.exists_strands_of_allStrands hstrands
        (hfilter ▸ List.mem_filter.mpr ⟨ht, hbraiding⟩)
    rw [legsWith, if_pos hbraiding]
    exact ⟨s, hs, TensorRef.coe_crossingLegs hs _⟩
  have hothers : ∀ t ∈ terms.filter fun t => !t.isBraiding braidingName,
      m.legsWith braidingName spaces t = m.refLegs t := by
    intro t ht
    rw [legsWith, if_neg (by simpa using (List.mem_filter.mp ht).2)]
  rw [TensorRef.coe_flatMap_legs hcrossings, hfilter, List.flatMap_congr hothers]

/-- For an assignment whose references have legs that fit if strands have suitable spaces, the
braidings can be constructed.  The legs fit then exactly if spaces are handed on from the ends to
the beginnings of strands, and legs that fit pass the check of every contraction. -/
theorem constructed_legs_fit_iff (hrhs : rhs.HasNoSum)
    (hlhs : ∀ t ∈ lhs.tensors, ¬ t.isBraiding braidingName = true)
    (h : (assign lhs rhs isDefinition).constructBraidings braidingName table =
      .ok (constructed, table'))
    (hterms : (assign lhs rhs isDefinition).neighbourTerms?.getD [] = terms)
    (hstrands : TensorRef.allStrands braidingName (rhs.tensors.filter fun t =>
      t.isBraiding braidingName) = .ok strands)
    (hobjects : ∀ t ∈ terms, ¬ t.object.IsConstructed)
    (hbears : ∀ t ∈ terms, ¬ t.isBraiding braidingName = true → m.Bears t)
    (hfits : Fits (terms.flatMap (m.legsWith braidingName spaces))) :
    ∃ statements lhs' rhs' m', constructed.flatten = statements ++ [assign lhs' rhs' isDefinition] ∧
      m.executeAll statements = .ok m' ∧ (∀ t ∈ rhs'.tensors, m'.Bears t) ∧
      (Fits (rhs'.tensors.flatMap m'.refLegs) ↔
        HandsOn (terms.filter fun t => !t.isBraiding braidingName) strands) ∧
      (HandsOn (terms.filter fun t => !t.isBraiding braidingName) strands →
        ∀ part : List LabelledLeg, (part : Multiset LabelledLeg) ≤ rhs'.tensors.flatMap m'.refLegs →
          checkLabels part = .ok ()) := by
  obtain ⟨others, hgetD, hothers⟩ := neighbourTerms?_getD isDefinition hrhs hlhs
  obtain rfl := hterms.symm.trans hgetD
  obtain ⟨statements, lhs', rhs', m', f, done, table, hflatten, hexecute, hdone,
      hassigned, hresolves⟩ :=
    exists_resolvesTo h hgetD hothers hstrands hobjects hbears
  have hfilter : ((rhs.tensors ++ others).filter fun t => t.isBraiding braidingName) =
      rhs.tensors.filter fun t => t.isBraiding braidingName := by
    rw [List.filter_append, List.filter_eq_nil_iff.mpr hothers, List.append_nil]
  rw [coe_flatMap_legsWith hfilter hstrands] at hfits
  have hlegs : ∀ t ∈ (rhs.tensors ++ others).filter fun t => !t.isBraiding braidingName,
      ∀ i ∈ t.indices, ∃ v,
      (i, v) ∈
      (((rhs.tensors ++ others).filter fun t => !t.isBraiding braidingName).flatMap m.refLegs :
        Multiset LabelledLeg) ∧
        ∀ isDual, m.spaceOf ⟨t.object, t.indices.idxOf i, t.isAdjoint, isDual⟩ =
          .ok (if isDual then v.dual else v) := by
    intro t ht i hi
    obtain ⟨hmem, hother⟩ := List.mem_filter.mp ht
    obtain ⟨v, hv, -, hspace⟩ := (hbears t hmem (by simpa using hother)).exists_spaceOf hi
    exact ⟨v, Multiset.mem_coe.mpr (List.mem_flatMap.mpr ⟨t, ht, hv⟩), hspace⟩
  have hnet := TensorRef.map_fst_net hstrands spaces
  rw [← hnet] at hdone
  have hright : HandsOn ((rhs.tensors ++ others).filter fun t =>
      !t.isBraiding braidingName) strands → Fits (rhs'.tensors.flatMap m'.refLegs) := by
    intro hhands
    -- every strand has got the space with which it fits
    have hspace : ∀ x ∈ TensorRef.net braidingName spaces (rhs.tensors.filter fun t =>
        t.isBraiding braidingName), m.spaceAt (table.find? x.1.2) = x.2 := by
      intro x hx
      obtain ⟨-, space, hspace⟩ :=
        hassigned.exists_find? x.1 ((hdone x.1).mp (List.mem_map_of_mem hx))
      rw [hspace]
      exact spaceAt_eq ((hnet ▸ hhands).spaceOf_eq hassigned hdone hfits hlegs hx hspace)
    have hspaces : ∀ t ∈ rhs.tensors.filter fun t => t.isBraiding braidingName, ∀ s,
        t.strands braidingName = .ok s →
        spaces t = (m.spaceAt (table.find? s.1.2), m.spaceAt (table.find? s.2.2)) := by
      intro t ht s hs
      obtain ⟨hfirst, hsecond⟩ := TensorRef.mem_net ht hs
      exact Prod.ext (hspace _ hfirst).symm (hspace _ hsecond).symm
    rw [hresolves.coe_legs hstrands, ← TensorRef.net_eq_map hstrands hspaces]
    refine hfits.mono (add_le_add_left ?_ _)
    rw [List.filter_append, List.flatMap_append, ← Multiset.coe_add]
    exact Multiset.le_add_right _ _
  refine ⟨statements, lhs', rhs', m', hflatten, hexecute, hresolves.bears, ⟨fun hfit => ?_, hright⟩,
    fun hhands part => (hright hhands).checkLabels_eq_ok⟩
  rw [hresolves.coe_legs hstrands, ← hnet] at hfit
  rw [← hnet]
  exact handsOn_of_fits hassigned hdone hfits hlegs m.spaceAt hfit

end

/-- Two braidings with a common input and outputs at legs, followed by one more braiding. -/
def crossedPairs : Diagram :=
  product (ref ⟨.name "A", [.name "b", .name "q", .name "c", .name "d"], [], false⟩)
    (ref ⟨.name "τ", [.name "u", .name "b"], [.name "i", .name "c"], false⟩)
    [ref ⟨.name "τ", [.name "w", .name "q"], [.name "i", .name "d"], false⟩,
      ref ⟨.name "τ", [.name "y", .name "x"], [.name "u", .name "w"], false⟩]

/-- The tensor of the crossed pairs. -/
def crossedPairsObjects : Table String (Value ℤ) :=
  [("A", .tensor (numberedTensor [true, false, false, false] []))]

/-- Spaces with which the crossed pairs fit: of two strands with a common beginning, the second one
has the dual. -/
def crossedPairsSpaces (t : TensorRef) : Space × Space :=
  (⟨2, t.left = [.name "w", .name "q"]⟩, ⟨2, false⟩)

/-- The constructed braidings of the crossed pairs fit. -/
theorem constructed_legs_fit_crossedPairs : ∃ constructed table' statements lhs' rhs' m',
    (assign (ref ⟨.name "E", [.name "x", .name "y"], [], false⟩) crossedPairs
      true).constructBraidings "τ" .empty = .ok (constructed, table') ∧
    constructed.flatten = statements ++ [assign lhs' rhs' true] ∧
    (Machine.start crossedPairsObjects).executeAll statements = .ok m' ∧
    Fits (rhs'.tensors.flatMap m'.refLegs) := by
  have hrhs : crossedPairs.HasNoSum :=
    .product (.ref _) (.ref _)
      (List.forall_mem_cons.mpr ⟨.ref _, List.forall_mem_singleton.mpr (.ref _)⟩)
  have hlhs : ∀ t ∈ (ref ⟨.name "E", [.name "x", .name "y"], [], false⟩).tensors,
      ¬ t.isBraiding "τ" = true := by
    decide
  have hterms : (assign (ref ⟨.name "E", [.name "x", .name "y"], [], false⟩) crossedPairs
      true).neighbourTerms?.getD [] = crossedPairs.tensors := rfl
  have hstrands : TensorRef.allStrands "τ" (crossedPairs.tensors.filter fun t => t.isBraiding "τ") =
      .ok [(.name "i", .name "b"), (.name "c", .name "u"), (.name "i", .name "q"),
        (.name "d", .name "w"), (.name "u", .name "x"), (.name "w", .name "y")] := rfl
  have hobjects : ∀ t ∈ crossedPairs.tensors, ¬ t.object.IsConstructed := by
    simp [crossedPairs, tensors, listTensors, ObjectRef.IsConstructed]
  have hbears : ∀ t ∈ crossedPairs.tensors, ¬ t.isBraiding "τ" = true →
      (Machine.start crossedPairsObjects).Bears t := by
    refine List.forall_mem_cons.mpr ⟨fun _ => ⟨_, rfl, rfl⟩, fun t ht hother => absurd ?_ hother⟩
    revert t
    decide
  have hfits : Fits (crossedPairs.tensors.flatMap
      ((Machine.start crossedPairsObjects).legsWith "τ" crossedPairsSpaces)) :=
    checkLabels_eq_ok_iff_spacesAt.mp rfl
  obtain ⟨statements, lhs', rhs', m', hflatten, hexecute, -, hfit, -⟩ :=
    constructed_legs_fit_iff hrhs hlhs rfl hterms hstrands hobjects hbears hfits
  refine ⟨_, _, statements, lhs', rhs', m', rfl, hflatten, hexecute, hfit.mpr ⟨by decide, ?_⟩⟩
  decide

/-- Two braidings with a common input, of which only one has its output at a leg. -/
def joinedInputs : Diagram :=
  product (ref ⟨.name "A", [.name "u", .name "b", .name "w"], [], false⟩)
    (ref ⟨.name "τ", [.name "x", .name "b"], [.name "i", .name "u"], false⟩)
    [ref ⟨.name "τ", [.name "q", .name "z"], [.name "w", .name "i"], false⟩]

/-- The joined inputs with handles in place of the braidings. -/
def joinedInputsResolved : Diagram :=
  product (ref ⟨.name "A", [.name "u", .name "b", .name "w"], [], false⟩)
    (ref ⟨.handle ⟨.braiding, 0⟩, [.name "x", .name "b"], [.name "i", .name "u"], false⟩)
    [ref ⟨.handle ⟨.braiding, 1⟩, [.name "q", .name "z"], [.name "w", .name "i"], false⟩]

/-- The tensor of the joined inputs. -/
def joinedInputsObjects : Table String (Value ℤ) :=
  [("A", .tensor (numberedTensor [false, false, false] []))]

/-- Spaces with which the joined inputs fit. -/
def joinedInputsSpaces (t : TensorRef) : Space × Space :=
  (⟨2, t.left = [.name "x", .name "b"]⟩, ⟨2, false⟩)

/-- There are spaces with which the joined inputs fit, but the constructed braidings have others:
their legs do not fit, and a run of the plan fails at the common input. -/
theorem joined_beginnings_do_not_fit :
    Fits (joinedInputs.tensors.flatMap
      ((Machine.start joinedInputsObjects).legsWith "τ" joinedInputsSpaces)) ∧
    (∃ constructed table' statements lhs' rhs' m',
      (assign (ref ⟨.name "E", [.name "x", .name "q", .name "z"], [], false⟩) joinedInputs
        true).constructBraidings "τ" .empty = .ok (constructed, table') ∧
      constructed.flatten = statements ++ [assign lhs' rhs' true] ∧
      (Machine.start joinedInputsObjects).executeAll statements = .ok m' ∧
      ¬ Fits (rhs'.tensors.flatMap m'.refLegs)) ∧
    ∃ p v w m,
      Plan.forBraided {} none
        (assign (ref ⟨.name "E", [.name "x", .name "q", .name "z"], [], false⟩) joinedInputs
        true) = .ok p ∧
      p.run (.start joinedInputsObjects) = .error (.incompatibleLegs v w (.name "i"), m) := by
  refine ⟨checkLabels_eq_ok_iff_spacesAt.mp rfl, ?_, ?_⟩
  · -- both strands at the common input get the space that is found at the output of the first one
    have hexecute : (match (Machine.start joinedInputsObjects).executeAll
        [braid ⟨.braiding, 0⟩ ⟨.name "A", 1, false, true⟩ ⟨.name "A", 0, false, false⟩,
          braid ⟨.braiding, 1⟩ ⟨.name "A", 2, false, false⟩ ⟨.name "A", 1, false, true⟩] with
        | .ok m' => !(checkLabels (joinedInputsResolved.tensors.flatMap m'.refLegs)).isOk
        | .error _ => false) = true := by
      decide +kernel
    split at hexecute
    · rename_i m' hm'
      refine ⟨_, _, _, _, joinedInputsResolved, m', rfl, rfl, hm', fun hfits => ?_⟩
      rw [checkLabels_eq_ok_iff_spacesAt.mpr hfits] at hexecute
      cases hexecute
    · cases hexecute
  · have hrun :
        (match Plan.forBraided {} none
          (assign (ref ⟨.name "E", [.name "x", .name "q", .name "z"], [], false⟩)
        joinedInputs true) with
        | .ok p => match p.run (.start joinedInputsObjects) with
          | .error (.incompatibleLegs _ _ (.name "i"), _) => true
          | _ => false
        | .error _ => false) = true := by
      decide +kernel
    split at hrun
    · rename_i p hp
      split at hrun
      · rename_i v w m hm
        exact ⟨p, v, w, m, hp, hm⟩
      · cases hrun
    · cases hrun

end Diagram

end TensorDiagram
