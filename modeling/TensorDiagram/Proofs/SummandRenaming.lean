import TensorDiagram.Proofs.StrandIdentification

/-!
# Summands with other indices

The braidings of an assignment are removed with one map for the indices of all summands.  So a
strand of one summand can capture an index over which another summand is contracted, and then the
names of contracted indices matter (`Plan.captured_index_changes_results`).

They do not matter as long as no two indices of one summand that strands connect come apart by the
new names (`Plan.renamed_summand_results_eq`).  The representatives of the indices of a summand then
differ by a permutation, which fixes the left hand side, and what remains of the summand has the
same value.  If indices of the left hand side are connected, then neither assignment can be run.
-/

namespace TensorDiagram

variable {braidingName : String}
variable {x x' lhs rhs : Diagram} {outer : List Index} {r : Index → Index}

/-! ## Removing the braidings of a sum -/

namespace Diagram

/-- The braidings of a sum are dropped from its terms. -/
theorem wholeOf_sumOf (terms : List (Sign × Diagram)) :
    wholeOf braidingName (sumOf terms) ((sumOf terms).remainder braidingName) =
      (terms.mapM fun z => wholeOf braidingName z.2 (z.2.remainder braidingName) >>= fun d =>
        .ok (z.1, d)) >>= fun rest => .ok (sumOf rest) := by
  cases terms with
  | nil => rfl
  | cons z rest =>
    rw [sumOf, wholeOf, if_neg (by simp [braidingTerm?]), remainder, termRemainders_eq,
      List.mapM_cons]
    rcases wholeOf braidingName z.2 (z.2.remainder braidingName) with e | d
    · rfl
    · simp only [ok_bind]
      generalize (rest.mapM fun z => wholeOf braidingName z.2 (z.2.remainder braidingName) >>=
          fun d =>
        Except.ok (z.1, d)) = rest'
      cases rest' <;> rfl

theorem isTensor_sumOf_iff {terms : List (Sign × Diagram)} :
    (sumOf terms).isTensor = true ↔ terms ≠ [] ∧ ∀ z ∈ terms, z.2.isTensor = true := by
  cases terms with
  | nil => simp [sumOf, isTensor]
  | cons z rest => rw [sumOf, isTensor_sum_iff, List.forall_mem_cons]; simp

/-- Some braidings are to be removed from an expression. -/
def IsRemovable (braidingName : String) (d : Diagram) : Prop :=
  d.isTensor = true ∧ ∃ t ∈ d.tensors, t.isBraiding braidingName = true

theorem removeStatement_of_not_isRemovable (lhs : Diagram) (isDefinition : Bool)
    (h : ¬ rhs.IsRemovable braidingName) :
    (assign lhs rhs isDefinition).removeStatement braidingName =
      .ok (assign lhs rhs isDefinition) := by
  by_cases htensor : rhs.isTensor = true
  · exact removeStatement_of_none lhs isDefinition fun t ht hbraiding =>
      h ⟨htensor, t, ht, hbraiding⟩
  · rw [removeStatement, statementTerms?, if_neg htensor]
    rfl

/-- Other indices of the terms do not change whether there are braidings to be removed. -/
theorem RenamedSum.isRemovable (h : RenamedSum braidingName IsMonomial outer x x')
    (hx : x.IsRemovable braidingName) : x'.IsRemovable braidingName := by
  obtain ⟨terms, terms', rfl, rfl, hterms⟩ := h
  obtain ⟨htensor, t, ht, hbraiding⟩ := hx
  constructor
  · rw [isTensor_sumOf_iff] at htensor ⊢
    refine ⟨fun hnil => htensor.1 (List.forall₂_nil_right_iff.mp (hnil ▸ hterms)), ?_⟩
    refine (forall_mem_iff_of_forall₂ (P := fun z : Sign × Diagram => z.2.isTensor = true)
      (hterms.imp fun z z' hz => ?_)).mpr htensor.2
    obtain ⟨hz, f, -, rfl, -⟩ := hz
    exact iff_of_eq (congrArg (· = true) (isTensor_mapRefs _ _))
  · rw [tensors_sumOf] at ht ⊢
    obtain ⟨z, hz, ht⟩ := List.mem_flatMap.mp ht
    obtain ⟨z', hz', hmonomial, f, -, rfl, -⟩ := exists_mem_of_forall₂ hterms hz
    refine ⟨t.mapIndices f, List.mem_flatMap.mpr ⟨_, hz', ?_⟩, hbraiding⟩
    rw [mapIndices, tensors_mapRefs]
    exact List.mem_map_of_mem ht

theorem RenamedSum.connected_outer (h : RenamedSum braidingName IsMonomial outer x x')
    (hx : x.isTensor = true) :
    ∀ i ∈ outer, ∀ j ∈ outer, Connected braidingName x i j ↔ Connected braidingName x' i j := by
  intro i hi j hj
  obtain ⟨terms, terms', rfl, rfl, hterms⟩ := h
  obtain ⟨z, hz⟩ := List.exists_mem_of_ne_nil _ (isTensor_sumOf_iff.mp hx).1
  obtain ⟨z', -, -, f, hstays, -, hconnected⟩ := exists_mem_of_forall₂ hterms hz
  rw [hconnected i (List.mem_append_right _ hi) j (List.mem_append_right _ hj),
    hstays i hi, hstays j hj]

theorem RenamedSum.exists_strands (h : RenamedSum braidingName IsMonomial outer x x')
    (hx : ∀ t ∈ x.tensors, t.isBraiding braidingName = true → ∃ s, t.strands braidingName = .ok s) :
    ∀ t ∈ x'.tensors, t.isBraiding braidingName = true → ∃ s, t.strands braidingName = .ok s := by
  obtain ⟨terms, terms', rfl, rfl, hterms⟩ := h
  intro t' ht' hbraiding
  rw [tensors_sumOf] at ht'
  obtain ⟨z', hz', ht'⟩ := List.mem_flatMap.mp ht'
  obtain ⟨z, hz, hmonomial, f, -, rfl, -⟩ := exists_mem_of_forall₂ hterms.flip hz'
  rw [mapIndices, tensors_mapRefs] at ht'
  obtain ⟨t, ht, rfl⟩ := List.mem_map.mp ht'
  obtain ⟨s, hs⟩ := hx t (by rw [tensors_sumOf]; exact List.mem_flatMap.mpr ⟨z, hz, ht⟩) hbraiding
  exact ⟨_, TensorRef.strands_mapIndices hs f⟩

/-- What remains of a term with other indices, once the indices of both sums are identified, differs
in its indices. -/
theorem RenamedAlong.wholeOf {r' : Index → Index} (hr : Identifies braidingName lhs x r)
    (hr' : Identifies braidingName lhs x' r') {z z' : Sign × Diagram} (hz : z.2.IsMonomial)
    (h : RenamedAlong (Connected braidingName x) (Connected braidingName x') outer z z') :
    SameOutcome (fun y y' => y.2.IsMonomial ∧
      ∃ f : Equiv.Perm Index, (∀ l ∈ outer, f (r l) = r' l) ∧
        y' = (y.1, y.2.mapIndices f))
      (Diagram.wholeOf braidingName (z.2.mapIndices r)
        ((z.2.mapIndices r).remainder braidingName) >>= fun d =>
        .ok (z.1, d))
      (Diagram.wholeOf braidingName (z'.2.mapIndices r')
        ((z'.2.mapIndices r').remainder braidingName) >>= fun d =>
        .ok (z'.1, d)) := by
  obtain ⟨g, hstays, rfl, hconnected⟩ := h
  obtain ⟨f, hf⟩ : ∃ f : Equiv.Perm Index, ∀ i ∈ z.2.indices ++ outer, f (r i) = r' (g i) :=
    exists_perm_of_eq_iff fun i hi j hj => by rw [hr.eq_iff, hr'.eq_iff, hconnected i hi j hj]
  have hterm : (z.2.mapIndices g).mapIndices r' = z.2.mapIndices (f ∘ r) := by
    rw [mapIndices_mapIndices]
    exact hz.hasNoSum.mapIndices_congr fun i hi => (hf i (List.mem_append_left _ hi)).symm
  have hcomp : ∀ t : TensorRef, (t.mapIndices r).mapIndices f = t.mapIndices (f ∘ r) := fun t => by
    simp [TensorRef.mapIndices]
  dsimp only
  rw [hterm]
  have hkeeps : ∀ (k : Index → Index) (t : TensorRef),
      (t.mapIndices k).isBraiding braidingName = t.isBraiding braidingName := fun _ _ => rfl
  have hremainder := remainder_mapRefs (hkeeps r) (hkeeps (f ∘ r)) hz.hasNoSum.isFormula
    (fun t _ _ => hcomp t ▸ checkRemovable_mapIndices f.injective (t.mapIndices r))
    fun t _ => hcomp t
  refine (wholeOf_mapRefs (hkeeps r) (hkeeps (f ∘ r)) hremainder).eq_ok.bind fun d d' hd =>
    .ok ⟨?_, f, fun l hl => ?_, ?_⟩
  · exact ((hz.mapRefs _).remainder_spec (wholeOf_eq_ok hd.2.1)).1 d rfl
  · rw [hf l (List.mem_append_right _ hl), hstays l hl]
  · rw [← hd.1, mapIndices]

end Diagram

section

variable {R : Type} [CommRing R] [StarRing R] [Arithmetic R] [Arithmetic.IsExact R]
  {m m' : Machine R} {isDefinition : Bool}
variable {options : Options} {order : Option ContractionOrder}

omit [CommRing R] [StarRing R] [Arithmetic.IsExact R] in
/-- Nothing can be assigned to a tensor with an index that appears twice. -/
theorem Machine.nodup_of_assign {t : TensorRef} (h : m.assign (.ref t) rhs isDefinition = .ok m') :
    t.indices.Nodup := by
  obtain ⟨w, hw, -⟩ := bind_eq_ok_iff.mp h
  obtain ⟨operands, -, hcontract⟩ := arrangedValue_eq_ok_iff.mp hw
  exact (Tensor.legs_of_contractAll hcontract).2.2

namespace Diagram

theorem Identifies.mem_indices (hlhs : lhs.IsAssignable) (hr : Identifies braidingName lhs rhs r)
    {i : Index} (hi : i ∈ lhs.indices) : r i ∈ lhs.indices := by
  cases hlhs with
  | scalar s => cases hi
  | ref t =>
    simp only [indices, tensors, List.flatMap_singleton] at hi ⊢
    exact hr.outgoing t rfl i hi

omit [CommRing R] [StarRing R] [Arithmetic.IsExact R] in
/-- If two indices of the left hand side are identified, then the assignment can not be run. -/
theorem Identifies.eq_self {rhs' : Diagram} (hlhs : lhs.IsAssignable)
    (hr : Identifies braidingName lhs rhs r)
    (h : m.assign (lhs.mapIndices r) rhs' isDefinition = .ok m') : ∀ i ∈ lhs.indices, r i = i := by
  intro i hi
  have hmem := hr.mem_indices hlhs hi
  cases hlhs with
  | scalar s => cases hi
  | ref t =>
    have hnd := Machine.nodup_of_assign h
    have hindices : (t.mapIndices r).indices = (ref t).indices.map r := by
      simp [TensorRef.indices, TensorRef.mapIndices, indices, tensors]
    rw [hindices] at hnd
    exact List.inj_on_of_nodup_map hnd hmem hi (hr.identified r hr.constant i)

/-- Removing the braidings of two assignments of sums that differ in the indices of their terms: if
the first one can be done, then so can the second one, and it does the same. -/
theorem RenamedSum.exists_removed {s : Diagram} (hlhs : lhs.IsAssignable)
    (h : RenamedSum braidingName IsMonomial lhs.indices x x')
    (hs : (assign lhs x isDefinition).removeStatement braidingName = .ok s) :
    ∃ s', (assign lhs x' isDefinition).removeStatement braidingName = .ok s' ∧
      ∀ m m' : Machine R, m.execute s = .ok m' → m.execute s' = .ok m' := by
  by_cases hx : x.IsRemovable braidingName
  · obtain ⟨_, _, hremoves⟩ := exists_removesTo hx.1 hx.2 hs
    have hx' := h.isRemovable hx
    obtain ⟨r, hr, heq⟩ := exists_identifies lhs isDefinition hx.1 hx.2 hremoves.well
    obtain ⟨r', hr', heq'⟩ :=
      exists_identifies lhs isDefinition hx'.1 hx'.2 (h.exists_strands hremoves.well)
    have houter := h.connected_outer hx.1
    obtain ⟨terms, terms', rfl, rfl, hterms⟩ := h
    rw [heq, mapIndices, mapRefs_sumOf, wholeOf_sumOf, List.mapM_map] at hs
    rw [heq', mapIndices, mapRefs_sumOf, wholeOf_sumOf, List.mapM_map]
    obtain ⟨y, hy, hs⟩ := bind_eq_ok_iff.mp hs
    obtain ⟨remaining, hremaining, hy⟩ := bind_eq_ok_iff.mp hy
    obtain rfl := Except.ok.inj hy
    obtain rfl := Except.ok.inj hs
    obtain ⟨remaining', hremaining', hrest⟩ :=
      (SameOutcome.mapM (hterms.imp fun z z' hz => hz.2.wholeOf hr hr' hz.1)).exists_ok hremaining
    refine ⟨_, bind_eq_ok_iff.mpr ⟨_, bind_eq_ok_iff.mpr ⟨remaining', hremaining', rfl⟩, rfl⟩,
      fun m m' hm => ?_⟩
    rw [Machine.execute_assign_eq_ok_iff] at hm ⊢
    have hself := hr.eq_self hlhs hm
    have hself' : ∀ i ∈ lhs.indices, r' i = i := by
      intro i hi
      have hmem := hr'.mem_indices hlhs hi
      have hconnected :=
        (houter _ hmem i hi).mpr ((hr'.eq_iff _ _).mp (hr'.identified r' hr'.constant i))
      rw [← hr.eq_iff, hself _ hmem, hself i hi] at hconnected
      exact hconnected
    rw [hlhs.mapIndices_eq_iff.mpr hself] at hm
    rw [hlhs.mapIndices_eq_iff.mpr hself']
    refine Machine.assign_sumOf_congr hlhs (hrest.imp fun z z' hz => ?_) hm
    obtain ⟨hz, f, hstays, rfl⟩ := hz
    refine ⟨hz, f, fun l hl => ?_, rfl⟩
    have hl' := hstays l hl
    rwa [hself l hl, hself' l hl] at hl'
  · have hx' : ¬ x'.IsRemovable braidingName := fun hx' =>
      hx (isRemovable (h.symm fun _ _ hd => hd.mapRefs _) hx')
    rw [removeStatement_of_not_isRemovable lhs isDefinition hx] at hs
    obtain rfl := Except.ok.inj hs
    refine ⟨_, removeStatement_of_not_isRemovable lhs isDefinition hx', fun m m' hm => ?_⟩
    obtain ⟨terms, terms', rfl, rfl, hterms⟩ := h
    rw [Machine.execute_assign_eq_ok_iff] at hm ⊢
    refine Machine.assign_sumOf_congr hlhs (hterms.imp fun z z' hz => ?_) hm
    obtain ⟨hmonomial, f, hstays, rfl, -⟩ := hz
    exact ⟨hmonomial, f, hstays, rfl⟩

end Diagram

/-! ## Plans -/

/-- What is handed back for a diagram whose crossings are the same over and under, if it can be
compiled and run. -/
def Plan.symmetricResults (options : Options) (order : Option ContractionOrder)
    (objects : Table String (Value R)) (d : Diagram) : Option (Table ResultName (Value R)) :=
  match Plan.forSymmetric options order d with
  | .error _ => none
  | .ok p =>
    match p.run (.start objects) with
    | .error _ => none
    | .ok m => some m.results

omit [CommRing R] [StarRing R] [Arithmetic.IsExact R] in
theorem Plan.symmetricResults_eq_some_iff {objects : Table String (Value R)} {d : Diagram}
    {results : Table ResultName (Value R)} :
    Plan.symmetricResults options order objects d = some results ↔
      ∃ p m, Plan.forSymmetric options order d = .ok p ∧ p.run (.start objects) = .ok m ∧
        m.results = results := by
  rw [symmetricResults]
  rcases Plan.forSymmetric options order d with e | p
  · simp
  · rcases hrun : p.run (.start objects) with e | m <;> simp [hrun]

namespace Diagram

theorem RenamedSum.isNormal (h : RenamedSum braidingName IsMonomial outer x x') : x.IsNormal := by
  obtain ⟨terms, terms', rfl, -, hterms⟩ := h
  obtain ⟨hmonomial, -⟩ := forall_mem_of_renamedAlong (fun d f hd => hd.mapRefs _) hterms
  cases terms with
  | nil => exact .scalar _
  | cons z rest =>
    obtain ⟨hz, hrest⟩ := List.forall_mem_cons.mp hmonomial
    exact .sum hz.isNormal fun y hy => (hrest y hy).isNormal

theorem RenamedSum.sameShape (h : RenamedSum braidingName IsMonomial outer x x') :
    List.Forall₂ TensorRef.SameShape x.tensors x'.tensors := by
  obtain ⟨terms, terms', rfl, rfl, hterms⟩ := h
  rw [tensors_sumOf, tensors_sumOf]
  refine List.rel_flatMap hterms fun z z' hz => ?_
  obtain ⟨hz, f, -, rfl, -⟩ := hz
  rw [mapIndices, tensors_mapRefs, List.forall₂_map_right_iff]
  exact List.forall₂_same.mpr fun t _ => t.sameShape_mapIndices

/-- Assignments of sums that differ in the indices of their terms are bound in the same way. -/
theorem RenamedSum.exists_bound (hlhs : lhs.IsAssignable)
    (h : RenamedSum options.braidingName HasNoSum lhs.indices x x') {binding : Binding}
    {table : HandleTable}
    (hbound : Plan.bound options order (assign lhs x isDefinition) = .ok (binding, table)) :
    ∃ lhs' y y', binding.body = assign lhs' y isDefinition ∧ lhs'.IsAssignable ∧
      RenamedSum options.braidingName IsMonomial lhs'.indices y y' ∧
      Plan.bound options order (assign lhs x' isDefinition) =
        .ok ({ binding with body := assign lhs' y' isDefinition }, table) := by
  obtain ⟨d, hd, hbind⟩ := bind_eq_ok_iff.mp hbound
  obtain ⟨tree, hleaves, htree⟩ := exists_tree_of_binarize hd
  rw [htree] at hd
  obtain ⟨y, hy, rfl⟩ := nestProducts_assign_eq_ok_iff.mp hd
  obtain ⟨y', hy', hnested⟩ := (h.nestProducts hleaves).exists_ok hy
  have hd' : (assign lhs x' isDefinition).pushConj.binarize order =
      .ok (assign lhs y' isDefinition) := by
    rw [htree]
    exact nestProducts_assign_eq_ok_iff.mpr ⟨y', hy', rfl⟩
  have hnested' := hnested.symm fun _ _ hd => hd.mapRefs _
  obtain ⟨⟨binding', table'⟩, hbind', htable, handles, hbody, hbinding'⟩ :=
    (bindNames_congr options options.checkArity .empty isDefinition hnested.isNormal
      hnested'.isNormal hnested.sameShape).exists_ok hbind
  dsimp only at htable hbody hbinding'
  subst htable hbinding'
  have hbindRef : Binding.bindRef options.braidingName handles =
      fun t => t.withObject (Binding.boundObject options.braidingName handles t.object) :=
    funext fun t => Binding.bindRef_eq _ _ t
  rw [hbindRef] at hbody hbind'
  refine ⟨lhs.mapObjects _, y.mapObjects _, y'.mapObjects _, hbody, ?_, ?_,
    bind_eq_ok_iff.mpr ⟨_, hd', hbind'⟩⟩
  · cases hlhs with
    | ref t => exact .ref _
    | scalar s => exact .scalar s
  · have hindices : (lhs.mapObjects (Binding.boundObject options.braidingName handles)).indices =
        lhs.indices := by
      cases hlhs <;> rfl
    rw [hindices]
    exact hnested.mapObjects (Binding.boundObject_eq_iff options.braidingName handles)

/-- Assignments of sums that differ in the indices of their terms hand back the same. -/
theorem RenamedSum.results_of_some (hlhs : lhs.IsAssignable)
    (h : RenamedSum options.braidingName HasNoSum lhs.indices x x')
    {objects : Table String (Value R)} {results : Table ResultName (Value R)}
    (hresults : Plan.symmetricResults options order objects (assign lhs x isDefinition) =
      some results) :
    Plan.symmetricResults options order objects (assign lhs x' isDefinition) = some results := by
  obtain ⟨p, m, hp, hm, rfl⟩ := Plan.symmetricResults_eq_some_iff.mp hresults
  obtain ⟨binding, table, body, hbound, hremove, rfl⟩ := Plan.forSymmetric_spec hp
  obtain ⟨lhs', y, y', hbody, hlhs', hsum, hbound'⟩ := h.exists_bound hlhs hbound
  rw [hbody, removeBraidings_assign] at hremove
  obtain ⟨body', hremove', hsame⟩ := hsum.exists_removed (R := R) hlhs' hremove
  obtain ⟨m₀, m₁, hframe, hrun, hexports⟩ := Binding.run_eq_ok_iff.mp hm
  refine Plan.symmetricResults_eq_some_iff.mpr
    ⟨.ofDiagram { binding with body := body' }.toBlock table, m, ?_,
    Binding.run_eq_ok_iff.mpr ⟨m₀, m₁, hframe, hsame _ _ hrun, hexports⟩, rfl⟩
  refine bind_eq_ok_iff.mpr ⟨_, hbound', bind_eq_ok_iff.mpr ⟨body', ?_, rfl⟩⟩
  rw [removeBraidings_assign, hremove']

/-- Assignments of sums that differ in the indices of their terms hand back the same, or both can
not be run. -/
theorem RenamedSum.results_eq (hlhs : lhs.IsAssignable)
    (h : RenamedSum options.braidingName HasNoSum lhs.indices x x')
    (objects : Table String (Value R)) :
    Plan.symmetricResults options order objects (assign lhs x' isDefinition) =
      Plan.symmetricResults options order objects (assign lhs x isDefinition) :=
  Option.ext fun _ =>
    ⟨(h.symm fun _ _ hd => hd.mapRefs _).results_of_some hlhs, h.results_of_some hlhs⟩

/-! ## One term with other indices -/

section

variable {lhs t : Diagram} {before after : List (Sign × Diagram)} {sign : Sign} {g : Index → Index}

/-- One term of a sum gets other indices: different ones for different ones, and none that stands on
the left hand side or in another term.  The indices of the left hand side stay. -/
structure RenamesTerm (lhs t : Diagram) (before after : List (Sign × Diagram)) (g : Index → Index) :
    Prop where
  injective : ∀ i ∈ t.indices, ∀ j ∈ t.indices, g i = g j → i = j
  stays : ∀ i ∈ lhs.indices, g i = i
  fresh : ∀ i ∈ t.indices, g i ≠ i → g i ∉ lhs.indices ∧ ∀ z ∈ before ++ after, g i ∉ z.2.indices

/-- No two indices of one term, or of the left hand side, that the strands of a sum connect come
apart if one term gets other indices. -/
structure KeepsConnected (braidingName : String) (lhs t : Diagram)
    (before after : List (Sign × Diagram)) (sign : Sign) (g : Index → Index) : Prop where
  /-- In the term that gets other indices. -/
  renamed : ∀ i ∈ t.indices ++ lhs.indices, ∀ j ∈ t.indices ++ lhs.indices,
    Connected braidingName (sumOf (before ++ (sign, t) :: after)) i j →
      Connected braidingName (sumOf (before ++ (sign, t.mapIndices g) :: after)) (g i) (g j)
  /-- In the other terms. -/
  others : ∀ z ∈ before ++ after, ∀ i ∈ z.2.indices ++ lhs.indices,
    ∀ j ∈ z.2.indices ++ lhs.indices,
    Connected braidingName (sumOf (before ++ (sign, t) :: after)) i j →
      Connected braidingName (sumOf (before ++ (sign, t.mapIndices g) :: after)) i j

/-- The other indices can be taken back. -/
theorem RenamesTerm.exists_back (hg : RenamesTerm lhs t before after g) : ∃ back : Index → Index,
    (∀ i ∈ t.indices, back (g i) = i) ∧ (∀ i ∈ lhs.indices, back i = i) ∧
      ∀ z ∈ before ++ after, ∀ i ∈ z.2.indices, back i = i := by
  classical
  let back (x : Index) : Index := if h : ∃ i ∈ t.indices, g i = x then h.choose else x
  have hback : ∀ x, (∀ i ∈ t.indices, g i = x → g i = i) → back x = x := by
    intro x hx
    by_cases h : ∃ i ∈ t.indices, g i = x
    · have hspec := h.choose_spec
      rw [show back x = h.choose from dif_pos h, ← hx _ hspec.1 hspec.2, hspec.2]
    · exact dif_neg h
  refine ⟨back, fun i hi => ?_, fun x hx => hback x fun i hi hix => ?_, fun z hz x hx =>
    hback x fun i hi hix => ?_⟩
  · have h : ∃ j ∈ t.indices, g j = g i := ⟨i, hi, rfl⟩
    rw [show back (g i) = h.choose from dif_pos h]
    exact hg.injective _ h.choose_spec.1 i hi h.choose_spec.2
  · by_contra hne
    exact (hg.fresh i hi hne).1 (hix ▸ hx)
  · by_contra hne
    exact (hg.fresh i hi hne).2 z hz (hix ▸ hx)

theorem mem_tensors_sumOf_split {u : TensorRef} :
    u ∈ (sumOf (before ++ (sign, t) :: after)).tensors ↔
    u ∈ t.tensors ∨ ∃ z ∈ before ++ after, u ∈ z.2.tensors := by
  simp only [tensors_sumOf, List.flatMap_append, List.flatMap_cons, List.mem_append,
    List.mem_flatMap, or_and_right, exists_or]
  exact or_left_comm

/-- What is connected with the other indices was connected before. -/
theorem connected_of_renamed {back : Index → Index} (hback : ∀ i ∈ t.indices, back (g i) = i)
    (hothers : ∀ z ∈ before ++ after, ∀ i ∈ z.2.indices, back i = i) {i j : Index}
    (hij : Connected braidingName (sumOf (before ++ (sign, t.mapIndices g) :: after)) i j) :
    Connected braidingName (sumOf (before ++ (sign, t) :: after)) (back i) (back j) := by
  have hmem : ∀ {d : Diagram} {u : TensorRef}, u ∈ d.tensors → ∀ i ∈ u.indices, i ∈ d.indices :=
    fun hu i hi => List.mem_flatMap.mpr ⟨_, hu, hi⟩
  refine hij.map back fun u hu hbraiding s hs => ?_
  rcases mem_tensors_sumOf_split.mp hu with hu | ⟨z, hz, hu⟩
  · rw [mapIndices, tensors_mapRefs] at hu
    obtain ⟨v, hv, rfl⟩ := List.mem_map.mp hu
    obtain ⟨s₀, hs₀, rfl⟩ := TensorRef.exists_strands_of_mapIndices hs
    have hends := fun i hi => hback i (hmem hv i (TensorRef.ends_mem_indices hs₀ i hi))
    simp only [List.forall_mem_cons, List.not_mem_nil, IsEmpty.forall_iff, implies_true,
      and_true] at hends
    simp only [Prod.map_fst, Prod.map_snd, hends.1, hends.2.1, hends.2.2.1, hends.2.2.2]
    exact connected_of_mem (mem_tensors_sumOf_split.mpr (Or.inl hv)) hbraiding hs₀
  · have hends := fun i hi => hothers z hz i (hmem hu i (TensorRef.ends_mem_indices hs i hi))
    simp only [List.forall_mem_cons, List.not_mem_nil, IsEmpty.forall_iff, implies_true,
      and_true] at hends
    rw [hends.1, hends.2.1, hends.2.2.1, hends.2.2.2]
    exact connected_of_mem (mem_tensors_sumOf_split.mpr (Or.inr ⟨z, hz, hu⟩)) hbraiding hs

/-- Both sums differ in the indices of their terms, if nothing comes apart. -/
theorem RenamesTerm.renamedSum (hg : RenamesTerm lhs t before after g)
    (hterms : ∀ z ∈ before ++ (sign, t) :: after, z.2.HasNoSum)
    (hconnected : KeepsConnected braidingName lhs t before after sign g) :
    RenamedSum braidingName HasNoSum lhs.indices (sumOf (before ++ (sign, t) :: after))
      (sumOf (before ++ (sign, t.mapIndices g) :: after)) := by
  obtain ⟨hbefore, ht, hafter⟩ : (∀ z ∈ before, z.2.HasNoSum) ∧ t.HasNoSum ∧
      ∀ z ∈ after, z.2.HasNoSum := by
    simpa only [List.forall_mem_append, List.forall_mem_cons] using hterms
  obtain ⟨back, hback, hlhs, hothers⟩ := hg.exists_back
  have hother : ∀ z ∈ before ++ after, RenamedAlong
      (Connected braidingName (sumOf (before ++ (sign, t) :: after)))
      (Connected braidingName (sumOf (before ++ (sign, t.mapIndices g) :: after)))
      lhs.indices z z := by
    intro z hz
    have hstays : ∀ i ∈ z.2.indices ++ lhs.indices, back i = i :=
      List.forall_mem_append.mpr ⟨hothers z hz, hlhs⟩
    refine ⟨Equiv.refl _, fun _ _ => rfl, ?_, fun i hi j hj =>
      ⟨hconnected.others z hz i hi j hj, fun hij => ?_⟩⟩
    · rw [Equiv.coe_refl, mapIndices_id]
    · have h := connected_of_renamed hback hothers hij
      rwa [Equiv.refl_apply, Equiv.refl_apply, hstays i hi, hstays j hj] at h
  have hrenamed : RenamedAlong (Connected braidingName (sumOf (before ++ (sign, t) :: after)))
      (Connected braidingName (sumOf (before ++ (sign, t.mapIndices g) :: after)))
      lhs.indices (sign, t) (sign, t.mapIndices g) := by
    have hinverse : ∀ i ∈ t.indices ++ lhs.indices, back (g i) = i :=
      List.forall_mem_append.mpr ⟨hback, fun i hi => by rw [hg.stays i hi, hlhs i hi]⟩
    obtain ⟨f, hf⟩ : ∃ f : Equiv.Perm Index, ∀ i ∈ t.indices ++ lhs.indices, f (id i) = g i :=
      exists_perm_of_eq_iff fun i hi j hj =>
        ⟨congrArg g, fun h => by rw [← hinverse i hi, h, hinverse j hj]⟩
    refine ⟨f, fun l hl => (hf l (List.mem_append_right _ hl)).trans (hg.stays l hl), ?_,
      fun i hi j hj => ?_⟩
    · rw [ht.mapIndices_congr fun i hi => (hf i (List.mem_append_left _ hi)).symm]
      rfl
    · rw [show f i = g i from hf i hi, show f j = g j from hf j hj]
      refine ⟨hconnected.renamed i hi j hj, fun hij => ?_⟩
      have h := connected_of_renamed hback hothers hij
      rwa [hinverse i hi, hinverse j hj] at h
  refine ⟨_, _, rfl, rfl, List.rel_append (List.forall₂_same.mpr fun z hz => ?_)
    (.cons ⟨ht, hrenamed⟩ (List.forall₂_same.mpr fun z hz => ?_))⟩
  · exact ⟨hbefore z hz, hother z (List.mem_append_left _ hz)⟩
  · exact ⟨hafter z hz, hother z (List.mem_append_right _ hz)⟩

/-- The strands of a sum connect no two indices of one term, or of the left hand side, that the
strands of this term do not connect themselves. -/
def HasNoCapture (braidingName : String) (lhs : Diagram) (terms : List (Sign × Diagram)) : Prop :=
  ∀ z ∈ terms, ∀ i ∈ z.2.indices ++ lhs.indices, ∀ j ∈ z.2.indices ++ lhs.indices,
    Connected braidingName (sumOf terms) i j → Connected braidingName z.2 i j

/-- Nothing comes apart if no term captures indices of another one. -/
theorem HasNoCapture.keepsConnected
    (h : HasNoCapture braidingName lhs (before ++ (sign, t) :: after)) (g : Index → Index) :
    KeepsConnected braidingName lhs t before after sign g where
  renamed := by
    intro i hi j hj hij
    refine (h (sign, t) (by simp) i hi j hj hij).map g fun u hu hbraiding s hs => ?_
    refine connected_of_mem (t := u.mapIndices g) ?_ hbraiding (TensorRef.strands_mapIndices hs g)
    refine mem_tensors_sumOf_split.mpr (Or.inl ?_)
    rw [mapIndices, tensors_mapRefs]
    exact List.mem_map_of_mem hu
  others := by
    intro z hz i hi j hj hij
    have hmem : z ∈ before ++ (sign, t) :: after := by
      rw [List.mem_append] at hz
      simp only [List.mem_append, List.mem_cons]
      exact hz.imp_right Or.inr
    refine (h z hmem i hi j hj hij).map id fun u hu hbraiding s hs => ?_
    exact connected_of_mem (mem_tensors_sumOf_split.mpr (Or.inr ⟨z, hz, hu⟩)) hbraiding hs

end

end Diagram

/-- One summand of an assignment may get other indices without any effect on what is compiled, run
and handed back, if no two indices of a summand come apart that strands connect. -/
theorem Plan.renamed_summand_results_eq (options : Options) (order : Option ContractionOrder)
    {lhs t : Diagram} {before after : List (Sign × Diagram)} {sign : Sign} {g : Index → Index}
    (hlhs : lhs.IsAssignable) (hterms : ∀ z ∈ before ++ (sign, t) :: after, z.2.HasNoSum)
    (hg : Diagram.RenamesTerm lhs t before after g)
    (hconnected : Diagram.KeepsConnected options.braidingName lhs t before after sign g)
    (objects : Table String (Value R)) :
    Plan.symmetricResults options order objects
        (.assign lhs (Diagram.sumOf (before ++ (sign, t.mapIndices g) :: after)) isDefinition) =
      Plan.symmetricResults options order objects
        (.assign lhs (Diagram.sumOf (before ++ (sign, t) :: after)) isDefinition) :=
  (hg.renamedSum hterms hconnected).results_eq hlhs objects

end

/-! ## Examples -/

/-- The entries of a tensor that is handed back. -/
def resultEntries (name : String) (results : Option (Table ResultName (Value ℤ))) :
    Option (List ℤ) :=
  match results.bind fun table => table.find? (.object (.name name)) with
  | some (.tensor t) => some t.grid.entries.toList
  | _ => none

namespace Diagram

/-- A tensor with two legs that a sum is assigned to. -/
def exchangeTarget : Diagram :=
  ref ⟨.name "E", [.name "c", .name "d"], [], false⟩

/-- The two legs of a tensor, exchanged. -/
def exchangedTensor : Diagram :=
  pair (ref ⟨.name "A", [.name "a", .name "b"], [], false⟩)
    (ref ⟨.name "τ", [.name "d", .name "c"], [.name "a", .name "b"], false⟩)

/-- The two legs of a product, exchanged in the same way. -/
def exchangedProduct : Diagram :=
  product (ref ⟨.name "B", [.name "a"], [.name "e"], false⟩)
    (ref ⟨.name "C", [.name "e", .name "b"], [], false⟩)
    [ref ⟨.name "τ", [.name "d", .name "c"], [.name "a", .name "b"], false⟩]

/-- A product that is contracted over an index of the exchanged tensor. -/
def matrixProduct : Diagram :=
  pair (ref ⟨.name "B", [.name "c"], [.name "a"], false⟩)
    (ref ⟨.name "C", [.name "a"], [.name "d"], false⟩)

/-- Two indices get other names. -/
def freshNames (i : Index) : Index :=
  if i = .name "a" then .name "x" else if i = .name "b" then .name "y" else i

/-- The tensors of the exchanged product. -/
def exchangeObjects : Table String (Value ℤ) :=
  [("A", .tensor (tensorFrom 1 [false, false] [])), ("B", .tensor (tensorFrom 5 [false] [false])),
    ("C", .tensor (tensorFrom 9 [false, false] []))]

/-- The tensors of the product of matrices. -/
def matrixObjects : Table String (Value ℤ) :=
  [("A", .tensor (tensorFrom 1 [false, false] [])), ("B", .tensor (tensorFrom 5 [false] [false])),
    ("C", .tensor (tensorFrom 9 [false] [true]))]

end Diagram

open Diagram

/-- Two summands share contracted indices and the strands at them.  One of them can get other
indices. -/
theorem Plan.renamed_summand_results_eq_exchangedProduct :
    Plan.symmetricResults {} none exchangeObjects (assign exchangeTarget
        (sumOf ([(.plus, exchangedTensor)] ++ (.minus, exchangedProduct.mapIndices freshNames) ::
          [])) true) =
      Plan.symmetricResults {} none exchangeObjects (assign exchangeTarget
        (sumOf ([(.plus, exchangedTensor)] ++ (.minus, exchangedProduct) :: [])) true) ∧
    resultEntries "E" (Plan.symmetricResults {} none exchangeObjects (assign exchangeTarget
      (sumOf ([(.plus, exchangedTensor)] ++ (.minus, exchangedProduct) :: [])) true)) =
        some [-110, -120, -148, -162] := by
  have hterms : ∀ z ∈ [(Sign.plus, exchangedTensor)] ++ (.minus, exchangedProduct) :: [],
      z.2.HasNoSum := by
    refine List.forall_mem_cons.mpr ⟨?_, List.forall_mem_singleton.mpr ?_⟩
    · exact .product (.ref _) (.ref _) (by simp)
    · exact .product (.ref _) (.ref _) (by simpa using .ref _)
  have hg : RenamesTerm exchangeTarget exchangedProduct [(.plus, exchangedTensor)] [] freshNames :=
    ⟨by decide, by decide, by decide⟩
  -- every braiding of the sum stands in both summands
  have hbraidings : ∀ z ∈ [(Sign.plus, exchangedTensor)] ++ (.minus, exchangedProduct) :: [],
      ∀ u ∈ (sumOf ([(.plus, exchangedTensor)] ++ (.minus, exchangedProduct) :: [])).tensors,
        u.isBraiding "τ" = true → u ∈ z.2.tensors := by
    decide
  have hcapture :
      HasNoCapture "τ" exchangeTarget
      ([(.plus, exchangedTensor)] ++ (.minus, exchangedProduct) :: []) :=
    fun z hz i _ j _ hij => hij.map id fun u hu hbraiding s hs =>
      connected_of_mem (hbraidings z hz u hu hbraiding) hbraiding hs
  refine ⟨Plan.renamed_summand_results_eq {} none (.ref _) hterms hg (hcapture.keepsConnected _)
    exchangeObjects, ?_⟩
  decide +kernel

/-- The strands of one summand capture an index over which another one is contracted.  So the
results change if the other one gets an index that occurs nowhere else. -/
theorem Plan.captured_index_changes_results :
    (∀ z ∈ [(Sign.plus, exchangedTensor), (.plus, matrixProduct)], z.2.HasNoSum ∧
      ∀ i, z.2.indexBag.count i ≤ 2) ∧
    RenamesTerm exchangeTarget matrixProduct [(.plus, exchangedTensor)] [] freshNames ∧
    resultEntries "E" (Plan.symmetricResults {} none matrixObjects (assign exchangeTarget
      (sumOf [(.plus, exchangedTensor), (.plus, matrixProduct)]) true)) =
      some [118, 132, 146, 160] ∧
    resultEntries "E" (Plan.symmetricResults {} none matrixObjects (assign exchangeTarget
      (sumOf [(.plus, exchangedTensor), (.plus, matrixProduct.mapIndices freshNames)]) true)) =
        some [112, 124, 154, 170] := by
  refine ⟨List.forall_mem_cons.mpr ⟨⟨?_, ?_⟩, List.forall_mem_singleton.mpr ⟨?_, ?_⟩⟩,
    ⟨?_, ?_, ?_⟩, ?_, ?_⟩
  · exact .product (.ref _) (.ref _) (by simp)
  · exact count_indexBag_le (by decide)
  · exact .product (.ref _) (.ref _) (by simp)
  · exact count_indexBag_le (by decide)
  · decide
  · decide
  · decide
  · decide +kernel
  · decide +kernel

end TensorDiagram
