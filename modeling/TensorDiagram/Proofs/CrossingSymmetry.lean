import TensorDiagram.Proofs.PlanarPlans
import TensorDiagram.Proofs.Removal

/-!
# Crossing symmetry

If over- and under-crossings are the same, then a program with braidings can be compiled in two
ways.  One plan constructs the braidings as tensors and lowers every assignment to planar binary
contractions, the other one identifies the indices at the ends of strands and drops the braidings.

What the planar plan does for one assignment is looked at first: it binds the handles of braidings
to tensors (`executeAll_constructs`) and leaves all objects as they are, so both plans assign the
same (`IsBraidedAssignment.keepsAgreement`).  If both plans can be run to their end, then they hand
back the same values (`crossing_run_agrees`).
-/

namespace TensorDiagram

variable {statements : List Diagram} {handles : List Handle} {table table' : HandleTable}
  {braidingName : String} {s : Diagram}

namespace Diagram

/-! ## Constructed braidings -/

section

variable {handles : Table TensorRef Handle} {braidingName : String} {terms : List TensorRef}
  {t : TensorRef} (hkeys : handles.keys =
    distinct (terms.filter fun t => t.isBraiding braidingName))

include hkeys

/-- References that are no braidings stay as they are. -/
theorem resolveRef_eq_self (ht : ¬ t.isBraiding braidingName = true) :
    resolveRef handles t = t := by
  have hnone : handles.find? t = none := by
    rw [Table.find?_eq_none_iff, hkeys, mem_distinct, List.mem_filter]
    exact fun hmem => ht hmem.2
  rw [resolveRef, hnone]

theorem exists_resolveRef_eq (ht : t ∈ terms) (hbraiding : t.isBraiding braidingName = true) :
    ∃ handle, (t, handle) ∈ handles ∧ resolveRef handles t = t.withObject (.handle handle) := by
  have hkey : t ∈ handles.keys := hkeys ▸ mem_distinct.mpr (List.mem_filter.mpr ⟨ht, hbraiding⟩)
  rcases hfind : handles.find? t with _ | handle
  · exact absurd hkey ((Table.find?_eq_none_iff _ _).mp hfind)
  · exact ⟨handle, Table.mem_of_find?_eq_some hfind, by rw [resolveRef, hfind]⟩

end

/-- The statement constructs the braiding of a handle. -/
def Constructs (s : Diagram) (handle : Handle) : Prop :=
  handle.kind = .braiding ∧ ∃ first second, s = braid handle first second

/-- Constructions stand in no blocks. -/
theorem flattenList_constructs (h : List.Forall₂ Constructs statements handles) :
    flattenList statements = statements := by
  induction h with
  | nil => rfl
  | cons hs _ ih =>
    obtain ⟨-, first, second, rfl⟩ := hs
    rw [flattenList, ih]
    rfl

/-- What is constructed for some braidings. -/
theorem constructions_spec {spaces : StrandSpaces} {ts : List TensorRef}
    {handles : Table TensorRef Handle}
    (h : constructions braidingName spaces table ts = .ok (statements, handles, table')) :
    handles.keys = ts ∧ List.Forall₂ Constructs statements (handles.map Prod.snd) ∧
      ∀ t ∈ ts, ∃ s, t.strands braidingName = .ok s := by
  induction ts generalizing table table' statements handles with
  | nil =>
    obtain ⟨rfl, htable⟩ := Prod.mk.inj (Except.ok.inj h)
    obtain ⟨rfl, -⟩ := Prod.mk.inj htable
    exact ⟨rfl, .nil, by simp⟩
  | cons t ts ih =>
    obtain ⟨s, first, second, rest, others, hs, -, -, hrest, rfl, rfl⟩ :=
      exists_of_constructions_cons h
    obtain ⟨hkeys, hconstructs, hstrands⟩ := ih hrest
    refine ⟨congrArg (t :: ·) hkeys, .cons ⟨rfl, first, second, rfl⟩ hconstructs, ?_⟩
    exact List.forall_mem_cons.mpr ⟨⟨_, hs⟩, hstrands⟩

end Diagram

namespace Machine

open Diagram

variable {R : Type} [CommRing R] [StarRing R] [Arithmetic R] [Arithmetic.IsExact R]
variable {m m' : Machine R}

omit [CommRing R] [StarRing R] [Arithmetic.IsExact R] in
/-- A run of some statements begins with a run of the first one. -/
theorem exists_of_executeAll_cons (h : m.executeAll (s :: statements) = .ok m') :
    ∃ m₁, m.execute s = .ok m₁ ∧ m₁.executeAll statements = .ok m' := by
  simp only [executeAll] at h
  rcases hs : m.execute s with e | m₁
  · rw [hs] at h
    cases h
  · rw [hs] at h
    exact ⟨m₁, rfl, h⟩

/-- A constructed braiding is bound to its handle. -/
theorem exists_of_execute_braid {handle : Handle} {first second : LegSpace}
    (h : m.execute (.braid handle first second) = .ok m') :
    ∃ v w t, t.IsCrossing v w ∧ m' = m.bind (.handle handle) (.tensor t) := by
  have hstep : m.step (.braid handle first second) = .ok m' := by
    simp only [execute] at h
    rcases hstep : m.step (.braid handle first second) with e | m₁
    · rw [hstep] at h
      cases h
    · rw [hstep] at h
      rw [Except.ok.inj h]
  rw [step] at hstep
  obtain ⟨v, -, hstep⟩ := bind_eq_ok_iff.mp hstep
  obtain ⟨w, -, hstep⟩ := bind_eq_ok_iff.mp hstep
  obtain ⟨t, ht, hstep⟩ := bind_eq_ok_iff.mp hstep
  exact ⟨v, w, t, Tensor.isCrossing_of_braiding ht, (Except.ok.inj hstep).symm⟩

omit [StarRing R] [Arithmetic.IsExact R] in
/-- After a braiding is bound, all handles of braidings are still bound to braidings. -/
theorem HasCrossing.bind {handle k : Handle} (h : m.HasCrossing k) {v w : Space} {t : Tensor R}
    (ht : t.IsCrossing v w) : (m.bind (.handle handle) (.tensor t)).HasCrossing k := by
  by_cases hk : handle = k
  · subst hk
    exact ⟨v, w, t, Table.find?_put_self _ _ _, ht⟩
  · obtain ⟨v', w', t', hfind, ht'⟩ := h
    refine ⟨v', w', t', ?_, ht'⟩
    rw [Machine.bind, Table.find?_put_of_ne _ _ (fun heq => hk (ObjectRef.handle.inj heq).symm),
      hfind]

/-- After braidings are constructed, their handles are bound to braidings, and nothing else has
changed. -/
theorem executeAll_constructs (h : List.Forall₂ Constructs statements handles)
    (hm : m.executeAll statements = .ok m') :
    m.AgreesOn IsBoundObject m' ∧ (∀ k ∈ handles, m'.HasCrossing k) ∧
      ∀ k, m.HasCrossing k → m'.HasCrossing k := by
  induction h generalizing m with
  | nil =>
    simp only [executeAll] at hm
    obtain rfl := Except.ok.inj hm
    exact ⟨.refl m, by simp, fun k hk => hk⟩
  | @cons s handle statements handles hs _ ih =>
    obtain ⟨hkind, first, second, rfl⟩ := hs
    obtain ⟨m₁, hfirst, hm⟩ := exists_of_executeAll_cons hm
    obtain ⟨v, w, t, ht, rfl⟩ := exists_of_execute_braid hfirst
    obtain ⟨hagrees, hhandles, hkeeps⟩ := ih hm
    refine ⟨.trans (.bind_other m ?_ _) hagrees, ?_, fun k hk => hkeeps k (hk.bind ht)⟩
    · intro hobject
      have hobject : handle.kind = .object := hobject
      rw [hkind] at hobject
      cases hobject
    · exact List.forall_mem_cons.mpr ⟨hkeeps handle ⟨v, w, t, Table.find?_put_self _ _ _, ht⟩,
        hhandles⟩

end Machine

namespace Diagram

variable {isDefinition : Bool} {lhs rhs constructed : Diagram} {f : TensorRef → TensorRef}

/-! ## Bound assignments with braidings -/

/-- All indices of an expression, from its objects and their indices. -/
theorem indexBag_eq_sum (d : Diagram) : d.indexBag = (d.occurrences.map Prod.snd).sum := by
  rw [indexBag, occurrences, Multiset.map_coe, List.map_map, Multiset.sum_coe]
  induction d.tensors with
  | nil => rfl
  | cons t ts ih =>
    rw [List.flatMap_cons, ← Multiset.coe_add, ih, List.map_cons, List.sum_cons]; rfl

theorem indexBag_le_of_occurrences_le {d d' : Diagram} (h : d.occurrences ≤ d'.occurrences) :
    d.indexBag ≤ d'.indexBag := by
  obtain ⟨t, ht⟩ := Multiset.le_iff_exists_add.mp h
  rw [indexBag_eq_sum, indexBag_eq_sum, ht, Multiset.map_add, Multiset.sum_add]
  exact Multiset.le_add_right _ _

/-- A product in which no index appears more than twice, and whose references are to braidings and
to handles of objects. -/
structure IsBraidedProduct (braidingName : String) (d : Diagram) : Prop where
  /-- The product. -/
  isMonomial : d.IsMonomial
  /-- No index appears more than twice. -/
  count_le : ∀ i, d.indexBag.count i ≤ 2
  /-- Its other factors. -/
  uses : ∀ t ∈ d.tensors, ¬ t.isBraiding braidingName = true → IsBoundObject t.object

/-- A bound assignment with braidings. -/
abbrev IsBraidedAssignment (braidingName : String) : Diagram → Prop :=
  IsAssignment (fun lhs => lhs.IsAssignable ∧
    lhs.Uses IsBoundObject) (IsBraidedProduct braidingName)

/-- The program with braidings, once it is bound. -/
theorem BoundAs.isBraidedAssignment {order : Option ContractionTree} {s' : Diagram}
    (h : BoundAs braidingName order f s s')
    (hs : s.IsAssignment IsAssignable fun rhs => rhs.HasNoSum ∧ ∀ i, rhs.indexBag.count i ≤ 2) :
    s'.IsBraidedAssignment braidingName := by
  cases h with
  | @mk lhs rhs rhs' isDefinition hnot hnest hbinds =>
    cases hs with
    | mk hlhs hrhs =>
      have hmonomial := hrhs.1.isMonomial hnest
      have hnormal := hmonomial.isNormal
      have hmem : ∀ t ∈ rhs'.tensors, t ∈ (assign lhs rhs' isDefinition).allRefs := fun t ht => by
        rw [allRefs, hnormal.allRefs_eq]
        exact List.mem_append_right _ ht
      refine .mk (BoundAs.lhs hlhs hnot hbinds) ⟨hmonomial.mapRefs f, fun i => ?_, ?_⟩
      · have hbag : (rhs'.mapRefs f).indexBag = rhs'.indexBag := by
          refine indexBag_mapRefs fun t ht => ?_
          by_cases hbraiding : t.isBraiding braidingName = true
          · rw [hbinds.braiding t hbraiding]
          · obtain ⟨handle, -, heq⟩ := hbinds.object t (hmem t ht) hbraiding
            rw [heq]
            rfl
        rw [hbag]
        exact (Multiset.count_le_of_le i
          (indexBag_le_of_occurrences_le (hrhs.1.isFormula.nested hnest).2)).trans (hrhs.2 i)
      · intro t' ht' hbraiding
        rw [tensors_mapRefs] at ht'
        obtain ⟨t, ht, rfl⟩ := List.mem_map.mp ht'
        by_cases ht' : t.isBraiding braidingName = true
        · rw [hbinds.braiding t ht'] at hbraiding
          exact absurd ht' hbraiding
        · obtain ⟨handle, hkind, heq⟩ := hbinds.object t (hmem t ht) ht'
          rw [heq]
          exact hkind

/-! ## Construction -/

/-- What becomes of an assignment with braidings once they are constructed. -/
structure ConstructsTo (braidingName : String) (lhs rhs : Diagram) (isDefinition : Bool)
    (f : TensorRef → TensorRef) (statements : List Diagram) (handles : List Handle)
    (constructed : Diagram) : Prop where
  /-- The statements that construct the braidings. -/
  constructs : List.Forall₂ Constructs statements handles
  /-- All other references stay. -/
  other : ∀ t : TensorRef, ¬ t.isBraiding braidingName = true → f t = t
  /-- The braidings become handles. -/
  braiding : ∀ t ∈ rhs.tensors, t.isBraiding braidingName = true → ∃ handle ∈ handles, ∃ s,
    f t = t.withObject (.handle handle) ∧ t.strands braidingName = .ok s
  /-- All strands lead to other factors or to the left hand side. -/
  anchored : ∀ P : Index → Prop, Machine.ConstantOnStrands braidingName rhs P →
    (∀ t ∈ rhs.tensors, ¬ t.isBraiding braidingName = true → ∀ i ∈ t.indices, P i) →
    (∀ t, lhs = .ref t → ∀ i ∈ t.indices, P i) →
    ∀ e, TensorRef.IsStrandOf braidingName (rhs.tensors.filter fun t =>
      t.isBraiding braidingName) e → P e.1
  /-- The statements stand in front of the assignment. -/
  eq_block : constructed =
    block [sealed statements, assign (lhs.mapRefs f) (rhs.mapRefs f) isDefinition]

/-- The neighbours of the strands of an assignment are the references of its right hand side and, if
it is not a definition, the left hand side. -/
theorem neighbourTerms?_assign (lhs : Diagram) (isDefinition : Bool)
    (htensor : rhs.isTensor = true) :
    ∃ others, (assign lhs rhs isDefinition).neighbourTerms? = some (rhs.tensors ++ others) ∧
      ∀ u ∈ others, ∃ t, lhs = .ref t ∧ isDefinition = false ∧ u = t.flipped := by
  have hterms : (assign lhs rhs isDefinition).statementTerms? = some rhs.tensors := by
    rw [statementTerms?, if_pos htensor]
  unfold neighbourTerms?
  split
  · rename_i t rhs' heq
    obtain ⟨rfl, rfl, rfl⟩ := Diagram.assign.inj heq
    exact ⟨[t.flipped], by rw [if_pos htensor], fun u hu => ⟨t, rfl, rfl, List.mem_singleton.mp hu⟩⟩
  · exact ⟨[], by rw [hterms, List.append_nil], by simp⟩

/-- Constructing the braidings of an assignment. -/
theorem exists_constructsTo (hlhs : lhs.Uses IsBoundObject) (htensor : rhs.isTensor = true)
    (hbraiding : ∃ t ∈ rhs.tensors, t.isBraiding braidingName = true)
    (h : (assign lhs rhs isDefinition).constructStatement braidingName table =
      .ok (constructed, table')) :
    ∃ f statements handles, ConstructsTo braidingName lhs rhs isDefinition f statements handles
      constructed := by
  obtain ⟨others, hterms, hothers⟩ := neighbourTerms?_assign lhs isDefinition htensor
  have hflipped : ∀ u ∈ others, ¬ u.isBraiding braidingName = true := by
    intro u hu
    obtain ⟨t, rfl, -, rfl⟩ := hothers u hu
    have hbound : IsBoundObject t.object := uses_ref.mp hlhs
    exact Bool.eq_false_iff.mp (IsBoundObject.not_isBraiding hbound braidingName)
  have hfilter : ((rhs.tensors ++ others).filter fun t => t.isBraiding braidingName) =
      rhs.tensors.filter fun t => t.isBraiding braidingName := by
    rw [List.filter_append, List.filter_eq_nil_iff.mpr hflipped, List.append_nil]
  have hmem : ∀ t, t ∈ distinct (rhs.tensors.filter fun t => t.isBraiding braidingName) ↔
      t ∈ rhs.tensors ∧ t.isBraiding braidingName = true := by
    intro t
    rw [mem_distinct, List.mem_filter]
  have hne : ¬ (distinct (rhs.tensors.filter fun t => t.isBraiding braidingName)).isEmpty =
      true := by
    obtain ⟨t, ht⟩ := hbraiding
    rw [List.isEmpty_iff]
    exact List.ne_nil_of_mem ((hmem t).mpr ht)
  rcases constructStatement_cases (by rw [hterms, Option.getD_some]) h with
    ⟨hnone, -⟩ | ⟨strands, statements, handles, hcases⟩
  · exact absurd (List.isEmpty_iff.mpr (hfilter ▸ hnone)) hne
  rw [hfilter] at hcases
  obtain ⟨hstrands, hresolved, hconstructions, rfl⟩ := hcases
  obtain ⟨hkeys, hconstructs, hwell⟩ := constructions_spec hconstructions
  refine ⟨_, statements, handles.map Prod.snd,
    ⟨hconstructs, fun t ht => ?_, fun t ht hbraiding => ?_, ?_, rfl⟩⟩
  · exact resolveRef_eq_self hkeys ht
  · obtain ⟨handle, hentry, heq⟩ := exists_resolveRef_eq hkeys ht hbraiding
    obtain ⟨s, hs⟩ := hwell t ((hmem t).mpr ⟨ht, hbraiding⟩)
    exact ⟨handle, List.mem_map_of_mem hentry, s, heq, hs⟩
  · intro P hP hlegs hlhs e he
    have hstrand : ∀ e, e ∈ strands ↔ TensorRef.IsStrandOf braidingName
        (rhs.tensors.filter fun t => t.isBraiding braidingName) e := by
      intro e
      rw [TensorRef.mem_iff_of_allStrands_eq_ok hstrands e]
      simp only [TensorRef.IsStrandOf, mem_distinct]
    refine StrandSpaces.of_unresolved_eq_nil (fun e he => hP e ((hstrand e).mp he)) ?_ hresolved e
      ((hstrand e).mpr he)
    intro t ht i hi
    obtain ⟨ht, hother⟩ := List.mem_filter.mp ht
    rcases List.mem_append.mp ht with ht | ht
    · exact hlegs t ht (by simpa using hother) i hi
    · obtain ⟨u, hu, -, rfl⟩ := hothers t ht
      exact hlhs u hu i (List.perm_append_comm.mem_iff.mp hi)

/-! ## Agreement -/

section

variable {R : Type} [CommRing R] [StarRing R] [Arithmetic R] [Arithmetic.IsExact R]
  {braidingName : String}
variable {m m' m₁ m₁' : Machine R}

/-- A bound assignment with no braidings at all. -/
theorem IsBraidedProduct.isBoundAssignment (hlhs : lhs.IsAssignable ∧ lhs.Uses IsBoundObject)
    (hrhs : rhs.IsBraidedProduct braidingName)
    (hnone : ¬ ∃ t ∈ rhs.tensors, t.isBraiding braidingName = true) :
    (assign lhs rhs isDefinition).IsBoundAssignment :=
  .mk hlhs ⟨hrhs.isMonomial.isNormal, fun t ht => hrhs.uses t ht fun h => hnone ⟨t, ht, h⟩⟩

/-- An assignment whose braidings are constructed, once it is lowered. -/
theorem ConstructsTo.exists_of_execute {lowered : Diagram}
    (h : ConstructsTo braidingName lhs rhs isDefinition f statements handles constructed)
    (hlhs : lhs.IsAssignable ∧ lhs.Uses IsBoundObject) (hrhs : rhs.IsBraidedProduct braidingName)
    (hlower : constructed.lowerStatements table = .ok (lowered, table'))
    (hrun : m.execute lowered = .ok m₁) :
    ∃ m' m₁', m.AgreesOn IsBoundObject m' ∧ m'.Resolves braidingName f rhs.tensors ∧
      m'.assign lhs (rhs.mapRefs f) isDefinition = .ok m₁' ∧ m₁'.AgreesOn IsBoundObject m₁ := by
  have hstay : lhs.mapRefs f = lhs := by
    cases hlhs.1 with
    | ref t =>
      have hbound : IsBoundObject t.object := uses_ref.mp hlhs.2
      rw [mapRefs,
        h.other t (Bool.eq_false_iff.mp (IsBoundObject.not_isBraiding hbound braidingName))]
    | scalar s => rfl
  rw [h.eq_block, hstay, lowerStatements] at hlower
  obtain ⟨⟨new, table₁⟩, hlist, hlower⟩ := bind_eq_ok_iff.mp hlower
  obtain ⟨rfl, -⟩ := Prod.mk.inj (Except.ok.inj hlower)
  rw [lowerStatementList, lowerStatements, ok_bind] at hlist
  obtain ⟨⟨rest, table₂⟩, hrest, hlist⟩ := bind_eq_ok_iff.mp hlist
  obtain ⟨rfl, -⟩ := Prod.mk.inj (Except.ok.inj hlist)
  have hforall := forall₂_of_lowerStatementList hrest
  obtain ⟨last, rest, ⟨table₃, table₄, hlast⟩, hnil, rfl⟩ := List.forall₂_cons_left_iff.mp hforall
  obtain rfl := List.forall₂_nil_left_iff.mp hnil
  rw [lowerStatements_assign] at hlast
  rw [Machine.execute_block] at hrun
  obtain ⟨m', hsealed, hrun⟩ := Machine.exists_of_executeAll_cons hrun
  rw [Machine.execute_sealed] at hsealed
  obtain ⟨hagrees, hhandles, -⟩ := Machine.executeAll_constructs h.constructs hsealed
  have hresolves : m'.Resolves braidingName f rhs.tensors := by
    refine ⟨fun t _ => h.other t, fun t ht hbraiding => ?_⟩
    obtain ⟨handle, hhandle, s, hft, hs⟩ := h.braiding t ht hbraiding
    exact ⟨handle, s, hft, hhandles handle hhandle, hs⟩
  have huses : (rhs.mapRefs f).Uses IsLasting := by
    intro t' ht'
    rw [tensors_mapRefs] at ht'
    obtain ⟨t, ht, rfl⟩ := List.mem_map.mp ht'
    by_cases hbraiding : t.isBraiding braidingName = true
    · obtain ⟨handle, hhandle, s, hft, -⟩ := h.braiding t ht hbraiding
      have hkind : handle.kind = .braiding :=
        forall_mem_of_forall₂ (h.constructs.imp fun _ _ hs => hs.1) handle hhandle
      rw [hft]
      intro htemporary
      rw [hkind] at htemporary
      cases htemporary
    · rw [h.other t hbraiding]
      exact (hrhs.uses t ht hbraiding).isLasting
  obtain ⟨m₂, hlastrun, hrun⟩ := Machine.exists_of_executeAll_cons hrun
  simp only [Machine.executeAll] at hrun
  obtain rfl := Except.ok.inj hrun
  have hsame :=
    lowerAssignment_sameOutcome hlhs.1 (hrhs.isMonomial.mapRefs f).isNormal huses hlast m'
  obtain ⟨m₁', hassign, hagrees'⟩ :=
    (hsame.symm (s := fun n n' => n'.AgreesOn IsLasting n) fun _ _ hn => hn).exists_ok hlastrun
  exact ⟨m', m₁', hagrees, hresolves, Machine.execute_assign_eq_ok_iff.mp hassign,
    hagrees'.mono fun o => IsBoundObject.isLasting⟩

/-- An assignment without its braidings, and with all of them constructed. -/
theorem IsBraidedProduct.assign_agrees {rhs' removed : Diagram} {r : Index → Index}
    (hlhs : lhs.IsAssignable) (hrhs : rhs.IsBraidedProduct braidingName)
    (hbraiding : ∃ t ∈ rhs.tensors, t.isBraiding braidingName = true)
    (hremoves : RemovesTo braidingName lhs rhs isDefinition r rhs' removed)
    (hconstructs : ConstructsTo braidingName lhs rhs isDefinition f statements handles constructed)
    (hm : m.AgreesOn IsBoundObject m') (hresolves : m'.Resolves braidingName f rhs.tensors)
    (hrun : m.assign (lhs.mapIndices r) rhs' isDefinition = .ok m₁)
    (hrun' : m'.assign lhs (rhs.mapRefs f) isDefinition = .ok m₁') :
    m₁.AgreesOn IsBoundObject m₁' := by
  have hanchored : ∀ P : Index → Prop, Machine.ConstantOnStrands braidingName rhs P →
      (∀ t ∈ rhs.tensors, ¬ t.isBraiding braidingName = true → ∀ i ∈ t.indices, P i) →
      ∀ t, lhs = .ref t → ∀ i ∈ t.indices, P i := by
    rintro P hP hlegs t rfl i hi
    obtain ⟨u, hu, hother, j, hj, hij⟩ :=
      Machine.exists_of_assign_remainder hrhs.isMonomial hremoves.remainder hrun hi
    rw [← hremoves.identified P hP i, hij, hremoves.identified P hP j]
    exact hlegs u hu hother j hj
  have huntangles : m'.Untangles braidingName rhs f r rhs' :=
    { isMonomial := hrhs.isMonomial
      count_le := hrhs.count_le
      uses := hrhs.uses
      resolves := hresolves
      remainder := hremoves.remainder
      identified := hremoves.identified
      anchored := fun P hP hlegs => hconstructs.anchored P hP hlegs (hanchored P hP hlegs) }
  cases hlhs with
  | ref t => exact huntangles.assign_ref hm hrun hrun'
  | scalar s => exact huntangles.assign_scalar hm hbraiding hrun hrun'

/-- Both ways to compile an assignment with braidings keep machines in agreement. -/
theorem IsBraidedAssignment.keepsAgreement {removed lowered : Diagram}
    {table₁ table₂ table₃ table₄ : HandleTable} (hs : s.IsBraidedAssignment braidingName)
    (hremove : s.removeBraidings braidingName = .ok removed)
    (hconstruct : s.constructBraidings braidingName table₁ = .ok (constructed, table₂))
    (hlower : constructed.lowerStatements table₃ = .ok (lowered, table₄))
    (hm : m.AgreesOn IsBoundObject m') (hrun : m.execute removed = .ok m₁)
    (hrun' : m'.execute lowered = .ok m₁') : m₁.AgreesOn IsBoundObject m₁' := by
  cases hs with
  | @mk lhs rhs isDefinition hlhs hrhs =>
    by_cases hbraiding : ∃ t ∈ rhs.tensors, t.isBraiding braidingName = true
    · obtain ⟨t, ht, -⟩ := id hbraiding
      have htensor := hrhs.isMonomial.hasNoSum.isTensor_of_mem ht
      rw [removeBraidings_assign] at hremove
      rw [constructBraidings_assign] at hconstruct
      obtain ⟨r, rhs', hremoves⟩ := exists_removesTo htensor hbraiding hremove
      obtain ⟨f, statements, handles, hconstructs⟩ :=
        exists_constructsTo hlhs.2 htensor hbraiding hconstruct
      obtain ⟨m₂, m₃, hm₂, hresolves, hassign, hm₃⟩ :=
        hconstructs.exists_of_execute hlhs hrhs hlower hrun'
      rw [hremoves.eq_assign] at hrun
      exact (hrhs.assign_agrees hlhs.1 hbraiding hremoves hconstructs (hm.trans hm₂) hresolves
        (Machine.execute_assign_eq_ok_iff.mp hrun) hassign).trans hm₃
    · have hs : (assign lhs rhs isDefinition).IsBoundAssignment :=
        hrhs.isBoundAssignment hlhs hbraiding
      obtain rfl := Except.ok.inj (hs.removeBraidings_eq braidingName ▸ hremove)
      obtain ⟨rfl, -⟩ :=
        Prod.mk.inj (Except.ok.inj (hs.constructBraidings_eq braidingName table₁ ▸ hconstruct))
      obtain ⟨m₂, hm₂, hagrees⟩ := (hs.lowerStatements_sameOutcome hlower hm).exists_ok hrun
      obtain rfl := Except.ok.inj (hm₂.symm.trans hrun')
      exact hagrees

/-- Both ways to compile a list of assignments with braidings keep machines in agreement. -/
theorem executeAll_agrees {body removed constructed lowered : List Diagram}
    {table₁ table₂ table₃ table₄ : HandleTable}
    (hbody : ∀ s ∈ body, s.IsBraidedAssignment braidingName)
    (hremove : removeBraidingsList braidingName body = .ok removed)
    (hconstruct : constructBraidingsList braidingName table₁ body = .ok (constructed, table₂))
    (hlower : lowerStatementList table₃ constructed = .ok (lowered, table₄))
    (hm : m.AgreesOn IsBoundObject m') (hrun : m.executeAll removed = .ok m₁)
    (hrun' : m'.executeAll lowered = .ok m₁') : m₁.AgreesOn IsBoundObject m₁' := by
  induction body generalizing removed constructed lowered table₁ table₂ table₃ table₄ m m' with
  | nil =>
    obtain rfl := Except.ok.inj hremove
    obtain ⟨rfl, -⟩ := Prod.mk.inj (Except.ok.inj hconstruct)
    obtain ⟨rfl, -⟩ := Prod.mk.inj (Except.ok.inj hlower)
    simp only [Machine.executeAll] at hrun hrun'
    obtain rfl := Except.ok.inj hrun
    obtain rfl := Except.ok.inj hrun'
    exact hm
  | cons s body ih =>
    obtain ⟨hs, hbody⟩ := List.forall_mem_cons.mp hbody
    rw [removeBraidingsList] at hremove
    obtain ⟨s₁, hremoves, hremove⟩ := bind_eq_ok_iff.mp hremove
    obtain ⟨removed', hremove', hremove⟩ := bind_eq_ok_iff.mp hremove
    obtain rfl := Except.ok.inj hremove
    rw [constructBraidingsList] at hconstruct
    obtain ⟨⟨s₂, table₅⟩, hconstructs, hconstruct⟩ := bind_eq_ok_iff.mp hconstruct
    obtain ⟨⟨constructed', table₆⟩, hconstruct', hconstruct⟩ := bind_eq_ok_iff.mp hconstruct
    obtain ⟨rfl, -⟩ := Prod.mk.inj (Except.ok.inj hconstruct)
    rw [lowerStatementList] at hlower
    obtain ⟨⟨s₃, table₇⟩, hlowers, hlower⟩ := bind_eq_ok_iff.mp hlower
    obtain ⟨⟨lowered', table₈⟩, hlower', hlower⟩ := bind_eq_ok_iff.mp hlower
    obtain ⟨rfl, -⟩ := Prod.mk.inj (Except.ok.inj hlower)
    obtain ⟨m₂, hfirst, hrun⟩ := Machine.exists_of_executeAll_cons hrun
    obtain ⟨m₂', hfirst', hrun'⟩ := Machine.exists_of_executeAll_cons hrun'
    exact ih hbody hremove' hconstruct' hlower'
      (hs.keepsAgreement hremoves hconstructs hlowers hm hfirst hfirst') hrun hrun'

end

end Diagram

open Diagram

/-! ## Runs -/

/-- The stages of compilation for crossings that are the same over and under. -/
theorem Plan.forSymmetric_spec {options : Options} {order : Option ContractionOrder}
    {d : Diagram} {q : Plan} (h : Plan.forSymmetric options order d = .ok q) :
    ∃ binding table body, Plan.bound options order d = .ok (binding, table) ∧
      binding.body.removeBraidings options.braidingName = .ok body ∧
      q = .ofDiagram { binding with body := body }.toBlock table := by
  rw [Plan.forSymmetric] at h
  obtain ⟨⟨binding, table⟩, hbound, h⟩ := bind_eq_ok_iff.mp h
  obtain ⟨body, hremove, h⟩ := bind_eq_ok_iff.mp h
  exact ⟨binding, table, body, hbound, hremove, (Except.ok.inj h).symm⟩

/-- The parts of a run of a bound program. -/
theorem Binding.run_eq_ok_iff {R : Type} [Arithmetic R] {binding : Binding} {body : Diagram}
    {m m' : Machine R} :
    (Plan.ofDiagram { binding with body := body }.toBlock table).run m = .ok m' ↔
      ∃ m₀ m₁, m.executeAll [.sealed binding.prologue, .sealed binding.checks] = .ok m₀ ∧
        m₀.execute body = .ok m₁ ∧ m₁.execute (.sealed binding.epilogue) = .ok m' := by
  rw [Plan.run, Plan.ofDiagram, Machine.executeAll_flatten, execute_toBlock]
  constructor
  · intro h
    obtain ⟨m₀, hm₀, h⟩ := bind_eq_ok_iff.mp h
    obtain ⟨m₁, hm₁, h⟩ := Machine.exists_of_executeAll_cons h
    rw [Machine.executeAll_singleton] at h
    exact ⟨m₀, m₁, hm₀, hm₁, h⟩
  · rintro ⟨m₀, m₁, hm₀, hm₁, h⟩
    refine bind_eq_ok_iff.mpr ⟨m₀, hm₀, ?_⟩
    simp only [Machine.executeAll, hm₁, h]

/-- Both plans of a program with braidings hand back the same, if both can be run to their end. -/
theorem Plan.crossing_run_agrees {R : Type} [CommRing R] [StarRing R] [Arithmetic R]
    [Arithmetic.IsExact R] (options : Options) (order : Option ContractionOrder)
    (statements : List Diagram)
    (hstatements : ∀ s ∈ statements, s.IsAssignment IsAssignable fun rhs =>
      rhs.HasNoSum ∧ ∀ i, rhs.indexBag.count i ≤ 2)
    {p q : Plan} (hp : Plan.forBraided options order (block statements) = .ok p)
    (hq : Plan.forSymmetric options order (block statements) = .ok q)
    {objects : Table String (Value R)} {m m' : Machine R} (hm : q.run (.start objects) = .ok m)
    (hm' : p.run (.start objects) = .ok m') : m.results.Agrees m'.results := by
  obtain ⟨binding, table, constructed, table₁, lowered, table₂, hbound, hconstruct, hlower, rfl⟩ :=
    forBraided_spec hp
  obtain ⟨binding', table', removed, hbound', hremove, rfl⟩ := forSymmetric_spec hq
  obtain ⟨rfl, rfl⟩ := Prod.mk.inj (Except.ok.inj (hbound.symm.trans hbound'))
  obtain ⟨⟨order', f, body, hbody, hsteps⟩, hepilogue⟩ := bound_spec hstatements hbound
  have hassign : ∀ s ∈ body, s.IsBraidedAssignment options.braidingName := by
    have hsteps' := (List.forall₂_and_left _ _).mpr ⟨hstatements, hsteps⟩
    exact forall_mem_of_forall₂ (hsteps'.imp fun s s' h => h.2.isBraidedAssignment h.1)
  rw [hbody, removeBraidings] at hremove
  rw [hbody, constructBraidings] at hconstruct
  obtain ⟨removed', hremove', hremove⟩ := bind_eq_ok_iff.mp hremove
  obtain rfl := Except.ok.inj hremove
  obtain ⟨⟨constructed', table₃⟩, hconstruct', hconstruct⟩ := bind_eq_ok_iff.mp hconstruct
  obtain ⟨rfl, rfl⟩ := Prod.mk.inj (Except.ok.inj hconstruct)
  rw [lowerStatements] at hlower
  obtain ⟨⟨lowered', table₄⟩, hlower', hlower⟩ := bind_eq_ok_iff.mp hlower
  obtain ⟨rfl, -⟩ := Prod.mk.inj (Except.ok.inj hlower)
  obtain ⟨m₀, m₁, hframe, hrun, hexports⟩ := Binding.run_eq_ok_iff.mp hm
  obtain ⟨m₀', m₁', hframe', hrun', hexports'⟩ := Binding.run_eq_ok_iff.mp hm'
  obtain rfl := Except.ok.inj (hframe.symm.trans hframe')
  rw [Machine.execute_block] at hrun hrun'
  have hagrees := executeAll_agrees hassign hremove' hconstruct' hlower' (.refl m₀) hrun hrun'
  obtain ⟨m₂, hm₂, hagrees⟩ := (hagrees.execute_exports hepilogue).exists_ok hexports
  obtain rfl := Except.ok.inj (hm₂.symm.trans hexports')
  exact hagrees.results

/-- The legs of a tensor are permuted by two braidings that meet each other, and the result is
paired with its conjugate across one more braiding. -/
def braidedNorm : List Diagram :=
  [assign (ref ⟨.name "E", [.name "y", .name "z", .name "w"], [], false⟩)
    (product (ref ⟨.name "τ", [.name "y", .name "x"], [.name "a", .name "b"], false⟩)
      (ref ⟨.name "τ", [.name "z", .name "w"], [.name "x", .name "c"], false⟩)
      [ref ⟨.name "A", [.name "a", .name "b", .name "c"], [], false⟩]) true,
    assign (scalar (.name "s"))
      (product (ref ⟨.name "E", [.name "p", .name "q", .name "r"], [], false⟩)
        (ref ⟨.name "τ", [.name "d", .name "c"], [.name "p", .name "q"], false⟩)
        [conj (ref ⟨.name "E", [.name "d", .name "c", .name "r"], [], false⟩)]) false]

/-- The tensor of the braided norm. -/
def braidedObjects : Table String (Value ℤ) :=
  [("A", .tensor (numberedTensor [false, false, false] []))]

/-- What is handed back for the braided norm: the scalar, and the permuted tensor. -/
def braidedEntries : List (ResultName × List ℤ) :=
  [(.object (.name "s"), [138]), (.object (.name "E"), [0, 4, 1, 5, 2, 6, 3, 7])]

/-- Both plans for the braided norm can be run, and hand back the same scalar and the same
tensor. -/
theorem crossing_run_agrees_braidedNorm : ∃ (p q : Plan) (m m' : Machine ℤ),
    Plan.forBraided {} none (block braidedNorm) = .ok p ∧
    Plan.forSymmetric {} none (block braidedNorm) = .ok q ∧
    q.run (.start braidedObjects) = .ok m ∧
    p.run (.start braidedObjects) = .ok m' ∧
    m.results.Agrees m'.results ∧ m.handedBack = braidedEntries ∧
    m'.handedBack = braidedEntries := by
  have hstatements : ∀ s ∈ braidedNorm, s.IsAssignment IsAssignable fun rhs =>
      rhs.HasNoSum ∧ ∀ i, rhs.indexBag.count i ≤ 2 := by
    rw [braidedNorm, List.forall_mem_cons, List.forall_mem_singleton]
    refine ⟨.mk (.ref _) ⟨?_, ?_⟩, .mk (.scalar _) ⟨?_, ?_⟩⟩
    · exact .product (.ref _) (.ref _) (by simpa using .ref _)
    · exact count_indexBag_le (by decide)
    · exact .product (.ref _) (.ref _) (by simpa using .conj (.ref _))
    · exact count_indexBag_le (by decide)
  obtain ⟨p, hp⟩ := exists_of_isOk
    (show (Plan.forBraided {} none (block braidedNorm)).isOk = true by decide +kernel)
  obtain ⟨q, hq⟩ := exists_of_isOk
    (show (Plan.forSymmetric {} none (block braidedNorm)).isOk = true by decide +kernel)
  obtain ⟨m, hm, hentries⟩ : ∃ m, q.run (.start braidedObjects) = .ok m ∧
      m.handedBack = braidedEntries :=
    Plan.exists_run_of_handedBack hq braidedObjects (by decide +kernel)
  obtain ⟨m', hm', hentries'⟩ : ∃ m, p.run (.start braidedObjects) = .ok m ∧
      m.handedBack = braidedEntries :=
    Plan.exists_run_of_handedBack hp braidedObjects (by decide +kernel)
  exact ⟨p, q, m, m', hp, hq, hm, hm',
    Plan.crossing_run_agrees {} none braidedNorm hstatements hp hq hm hm', hentries, hentries'⟩

end TensorDiagram
