import TensorDiagram.Proofs.NamedRuns

/-!
# The order of contractions

The tensors of a product are contracted in pairs, along a tree that is given or from left to right.
Whichever way it is done, the nested products have the same factors (`HasNoSum.factors_perm`), and
the program cites the same objects.  The plans of an assignment for two orders are then plans of
assignments whose right hand sides differ by a permutation of factors, and they hand back the same
(`Plan.contraction_order_irrelevant`).
-/

namespace TensorDiagram

/-- Lists that are found entry by entry, with the same parts of the entries up to order. -/
theorem flatMap_perm_of_mapM {ε α β γ : Type} {f g : α → Except ε β} {parts : β → List γ}
    {xs : List α} {ys zs : List β} (hperm : ∀ x ∈ xs, ∀ y z, f x = .ok y → g x = .ok z →
      (parts y).Perm (parts z)) (hf : xs.mapM f = .ok ys)
    (hg : xs.mapM g = .ok zs) : (ys.flatMap parts).Perm (zs.flatMap parts) := by
  rw [mapM_eq_ok_iff] at hf hg
  induction hf generalizing zs with
  | nil =>
    cases hg
    exact .refl _
  | @cons x y xs ys hy _ ih =>
    obtain ⟨hx, hxs⟩ := List.forall_mem_cons.mp hperm
    obtain ⟨z, zs, hz, hzs, rfl⟩ := List.forall₂_cons_left_iff.mp hg
    rw [List.flatMap_cons, List.flatMap_cons]
    exact (hx y z hy hz).append (ih hxs hzs)

namespace Diagram

/-! ## Factors of nested products -/

/-- A nested product has the factors of what it is built from. -/
theorem BuiltFrom.coe_factors {s : Multiset Diagram} {d : Diagram} (h : BuiltFrom s d) :
    (d.factors : Multiset Diagram) = s.bind fun x => (x.factors : Multiset Diagram) := by
  induction h with
  | factor d => rw [Multiset.singleton_bind]
  | pair _ _ iha ihb => rw [Multiset.add_bind, ← iha, ← ihb, factors_pair, Multiset.coe_add]

theorem factors_perm_of_nest {order : Option ContractionTree} (horder : HasDistinctLeaves order)
    {a b d : Diagram} {rest : List Diagram} (h : nest order a b rest = .ok d) :
    d.factors.Perm ((a :: b :: rest).flatMap factors) := by
  rw [← Multiset.coe_eq_coe, (nest_builtFrom_all horder h).coe_factors, Multiset.coe_bind]

/-- Whatever the orders in which the products of a formula without sums are nested, the factors are
the same. -/
theorem HasNoSum.factors_perm {order order' : Option ContractionTree}
    (horder : HasDistinctLeaves order) (horder' : HasDistinctLeaves order') {d x y : Diagram}
    {odd : Bool} (hd : d.HasNoSum) (hx : (d.adjointForm odd).nestProducts order = .ok x)
    (hy : (d.adjointForm odd).nestProducts order' = .ok y) : x.factors.Perm y.factors := by
  induction hd generalizing odd x y with
  | ref t =>
    cases odd <;> obtain rfl := Except.ok.inj hx <;> obtain rfl :=
      Except.ok.inj hy <;> exact .refl _
  | scalar s =>
    cases odd with
    | false =>
      obtain rfl := Except.ok.inj hx
      obtain rfl := Except.ok.inj hy
      exact .refl _
    | true =>
      cases s <;> obtain rfl := Except.ok.inj hx <;> obtain rfl :=
        Except.ok.inj hy <;> exact .refl _
  | conj _ ih =>
    rw [adjointForm] at hx hy
    exact ih hx hy
  | @product a b rest _ _ _ iha ihb ihrest =>
    rw [adjointForm, adjointFormList_eq, nestProducts, nestProductsList_eq] at hx hy
    obtain ⟨a₁, ha₁, hx⟩ := bind_eq_ok_iff.mp hx
    obtain ⟨b₁, hb₁, hx⟩ := bind_eq_ok_iff.mp hx
    obtain ⟨rest₁, hrest₁, hx⟩ := bind_eq_ok_iff.mp hx
    obtain ⟨a₂, ha₂, hy⟩ := bind_eq_ok_iff.mp hy
    obtain ⟨b₂, hb₂, hy⟩ := bind_eq_ok_iff.mp hy
    obtain ⟨rest₂, hrest₂, hy⟩ := bind_eq_ok_iff.mp hy
    have hrest : (rest₁.flatMap factors).Perm (rest₂.flatMap factors) :=
      flatMap_perm_of_mapM (List.forall_mem_map.mpr fun z hz z₁ z₂ hz₁ hz₂ =>
        ihrest z hz hz₁ hz₂) hrest₁ hrest₂
    refine (factors_perm_of_nest horder hx).trans
      (List.Perm.trans ?_ (factors_perm_of_nest horder' hy).symm)
    exact (iha ha₁ ha₂).append ((ihb hb₁ hb₂).append hrest)

/-- The objects of the normal form are those of the formula. -/
theorem IsFormula.exists_tensor_of_nested {order : Option ContractionTree}
    {d d' : Diagram} {odd : Bool} (hd : d.IsFormula)
    (h : (d.adjointForm odd).nestProducts order = .ok d') {t : TensorRef} (ht : t ∈ d'.tensors) :
    ∃ t' ∈ d.tensors, t'.object = t.object := by
  have hmem : (t.object, (t.indices : Multiset Index)) ∈ d'.occurrences :=
    Multiset.mem_coe.mpr (List.mem_map.mpr ⟨t, ht, rfl⟩)
  obtain ⟨t', ht', heq⟩ :=
    List.mem_map.mp (Multiset.mem_coe.mp (Multiset.mem_of_le (hd.nested h).2 hmem))
  exact ⟨t', ht', congrArg Prod.fst heq⟩

end Diagram

open Diagram

/-! ## Plans for an order -/

namespace AssignmentPlan

variable {options : Options} {lhs rhs rhs' : Diagram} {isDefinition : Bool}

/-- Without braidings there is nothing to remove from an assignment that is bound. -/
theorem removeBraidings_bound (lhs : Diagram) (isDefinition : Bool)
    (huses : ∀ t ∈ rhs.tensors, t.object ≠ .name options.braidingName)
    (handles : Table ObjectRef Handle) :
    ((assign lhs rhs isDefinition).mapRefs
      (Binding.bindRef options.braidingName handles)).removeBraidings
        options.braidingName =
      .ok ((assign lhs rhs isDefinition).mapRefs
        (Binding.bindRef options.braidingName handles)) := by
  rw [Diagram.mapRefs, removeBraidings_assign]
  refine removeStatement_of_none _ _ ?_
  rw [tensors_mapRefs, List.forall_mem_map]
  intro t ht hbraiding
  have hobject := of_decide_eq_true hbraiding
  rw [Binding.bindRef_eq] at hobject
  exact huses t ht ((Binding.boundObject_eq_iff _ _ _).mp hobject)

/-- All references of an assignment are read when its objects are bound. -/
theorem exists_reference (hlhs : lhs.IsAssignable) (hrhs : rhs.IsNormal) {t : TensorRef}
    (ht : t ∈ (assign lhs rhs isDefinition).allRefs) :
    ∃ r ∈ (assign lhs rhs isDefinition).references, r.term = t := by
  rw [references_assign]
  rw [allRefs, hrhs.allRefs_eq] at ht
  rcases List.mem_append.mp ht with ht | ht
  · cases hlhs with
    | ref t' =>
      obtain rfl := List.mem_singleton.mp ht
      exact ⟨_, List.mem_append_right _ (List.mem_singleton_self _), rfl⟩
    | scalar s => cases ht
  · exact ⟨_, List.mem_append_left _ (List.mem_map.mpr ⟨t, ht, rfl⟩), rfl⟩

variable (hlhs : lhs.IsAssignable) (hrhs : rhs.HasNoSum)
  (huses : ∀ t ∈ rhs.tensors, t.object ≠ .name options.braidingName)

include hrhs huses

/-- Nesting the products brings in no braidings. -/
theorem uses_nested {tree : Option ContractionTree}
    (h : (rhs.adjointForm false).nestProducts tree = .ok rhs') :
    ∀ t ∈ rhs'.tensors, t.object ≠ .name options.braidingName := by
  intro t ht
  obtain ⟨t', ht', heq⟩ := hrhs.isFormula.exists_tensor_of_nested h ht
  exact heq ▸ huses t' ht'

include hlhs

/-- The plan of an assignment of a product without braidings. -/
theorem of_forSymmetric {order : Option ContractionOrder} {p : Plan}
    (h : Plan.forSymmetric options order (assign lhs rhs isDefinition) = .ok p) :
    ∃ tree rhs' u, HasDistinctLeaves tree ∧ (rhs.adjointForm false).nestProducts tree = .ok rhs' ∧
      AssignmentPlan options lhs rhs' isDefinition u p := by
  obtain ⟨binding, table, body, hbound, hremove, rfl⟩ := Plan.forSymmetric_spec h
  obtain ⟨d', u, hd', hread, -, rfl, -⟩ := Plan.bound_eq_ok_iff.mp hbound
  obtain ⟨tree, hleaves, htree⟩ := exists_tree_of_binarize hd'
  rw [htree] at hd'
  obtain ⟨rhs', hrhs', rfl⟩ := nestProducts_assign_eq_ok_iff.mp hd'
  have hmonomial := hrhs.isMonomial hrhs'
  have huses' := uses_nested hrhs huses hrhs'
  obtain rfl :=
    Except.ok.inj ((removeBraidings_bound lhs isDefinition huses' u.handles).symm.trans hremove)
  exact ⟨tree, rhs', u, hleaves, hrhs', hlhs, hmonomial, huses', hread,
    u.flatten_toBlock options _ _⟩

/-- An assignment that does not write a braiding can be compiled without an order of
contractions. -/
theorem exists_forSymmetric (hname : ∀ t, lhs = .ref t → t.object ≠ .name options.braidingName) :
    ∃ q, Plan.forSymmetric options none (assign lhs rhs isDefinition) = .ok q := by
  obtain ⟨rhs', hrhs'⟩ := hrhs.isFormula.exists_nestProducts false
  have hmonomial := hrhs.isMonomial hrhs'
  have hwritten : ∀ r ∈ (assign lhs rhs' isDefinition).references, r.term.object =
      .name options.braidingName → r.role = .use := by
    rw [references_assign]
    intro r hr hobject
    rcases List.mem_append.mp hr with hr | hr
    · obtain ⟨t, -, rfl⟩ := List.mem_map.mp hr
      rfl
    · cases hlhs with
      | ref t =>
        obtain rfl := List.mem_singleton.mp hr
        exact absurd hobject (hname t rfl)
      | scalar s => cases hr
  obtain ⟨u, hread⟩ := ObjectUse.exists_foldlM hwritten ⟨[], [], []⟩
  have hhandles : ∀ t ∈ (assign lhs rhs' isDefinition).allRefs,
      ¬ t.isBraiding options.braidingName = true → u.handles.has t.object = true := by
    intro t ht hbraiding
    obtain ⟨r, hr, rfl⟩ := exists_reference hlhs hmonomial.isNormal ht
    have hobject : r.term.object ≠ .name options.braidingName :=
      fun heq => hbraiding (decide_eq_true heq)
    obtain ⟨handle, hfind, -⟩ :=
      ObjectUse.exists_handle
        (((ObjectUse.mem_of_foldlM hread).2.1 _).mpr (Or.inr ⟨r, hr, rfl, hobject⟩))
    rw [Table.has, hfind, Option.isSome_some]
  have hnormal : (assign lhs rhs isDefinition).pushConj.binarize none =
      .ok (assign lhs rhs' isDefinition) :=
    nestProducts_assign_eq_ok_iff.mpr ⟨rhs', hrhs', rfl⟩
  have hbound := Plan.bound_eq_ok_iff.mpr ⟨_, u, hnormal, hread, hhandles, rfl, rfl⟩
  have hremove := removeBraidings_bound lhs isDefinition (uses_nested hrhs huses hrhs') u.handles
  exact ⟨_, bind_eq_ok_iff.mpr ⟨_, hbound, bind_eq_ok_iff.mpr ⟨_, hremove, rfl⟩⟩⟩

end AssignmentPlan

namespace Plan

/-- If the plan of an assignment for one order of contractions can be run, so can the plan for any
other order, and both hand back the same. -/
theorem exists_run_of_run {R : Type} [CommRing R] [StarRing R] [Arithmetic R] [Arithmetic.IsExact R]
    {options : Options} {order order' : Option ContractionOrder} {lhs rhs : Diagram}
    {isDefinition : Bool} {p q : Plan} (hlhs : lhs.IsAssignable) (hrhs : rhs.HasNoSum)
    (huses : ∀ t ∈ rhs.tensors, t.object ≠ .name options.braidingName)
    (hcount : ∀ i, rhs.indexBag.count i ≤ 2)
    (hp : Plan.forSymmetric options order (assign lhs rhs isDefinition) = .ok p)
    (hq : Plan.forSymmetric options order' (assign lhs rhs isDefinition) = .ok q) {m m₁ : Machine R}
    (hm₁ : p.run m = .ok m₁) : ∃ m₂, q.run m = .ok m₂ ∧ m₁.results.Agrees m₂.results := by
  obtain ⟨tree, x, u, hleaves, hx, hplan⟩ := AssignmentPlan.of_forSymmetric hlhs hrhs huses hp
  obtain ⟨tree', y, u', hleaves', hy, hplan'⟩ := AssignmentPlan.of_forSymmetric hlhs hrhs huses hq
  have hperm : x.factors.Perm y.factors := hrhs.factors_perm hleaves hleaves' hx hy
  have hcountx : ∀ i, x.indexBag.count i ≤ 2 := fun i =>
    (Multiset.count_le_of_le i (indexBag_le_of_occurrences_le (hrhs.isFormula.nested hx).2)).trans
      (hcount i)
  have hcitations : Citation.Reorders (assign lhs x isDefinition).citations
      (assign lhs y isDefinition).citations := by
    have huse := (hrhs.isFormula.follows_nested hleaves TensorRef.asUse_flipped hx).1.symm.trans
      (hrhs.isFormula.follows_nested hleaves' TensorRef.asUse_flipped hy).1
    rw [citations_assign, citations_assign]
    exact (Citation.Reorders.of_perm huse (List.forall_mem_map.mpr fun _ _ => rfl)).append_right _
  obtain ⟨hsupports, v, hv, hresults⟩ := hplan.results_of_run hm₁
  have hsupports' := hsupports.reorders hcitations.perm fun o => (hcitations.preExists_iff o).symm
  obtain ⟨w, hw, hvw⟩ :=
    (Machine.assignedTo_sameOutcome_of_perm hplan.isMonomial hplan'.isMonomial hperm hcountx lhs
    isDefinition).exists_ok hv
  obtain ⟨m₂, hm₂, hresults'⟩ := hplan'.exists_run hsupports' hw
  exact ⟨m₂, hm₂, hresults.trans (((Table.Agrees.refl _).put _ hvw).trans hresults')⟩

/-- **The order of contractions does not matter.**  An assignment of a product of tensors and
scalars, without braidings and with every index at most twice, that can be compiled for an order of
contractions can also be compiled without one. On the same objects, both plans fail or both hand
back the same. -/
theorem contraction_order_irrelevant {R : Type} [CommRing R] [StarRing R] [Arithmetic R]
    [Arithmetic.IsExact R] {options : Options} {order : ContractionOrder} {lhs rhs : Diagram}
    {isDefinition : Bool} {p : Plan} (hlhs : lhs.IsAssignable) (hrhs : rhs.HasNoSum)
    (huses : ∀ t ∈ rhs.tensors, t.object ≠ .name options.braidingName)
    (hcount : ∀ i, rhs.indexBag.count i ≤ 2)
    (hp : Plan.forSymmetric options (some order) (assign lhs rhs isDefinition) = .ok p) :
    ∃ q, Plan.forSymmetric options none (assign lhs rhs isDefinition) = .ok q ∧
      ∀ objects : Table String (Value R), SameOutcome (fun m m' => m.results.Agrees m'.results)
        (p.run (.start objects)) (q.run (.start objects)) := by
  obtain ⟨_, _, _, -, -, hplan⟩ := AssignmentPlan.of_forSymmetric hlhs hrhs huses hp
  obtain ⟨q, hq⟩ :=
    AssignmentPlan.exists_forSymmetric hlhs hrhs huses fun _ ht => hplan.object_ne ht
  refine ⟨q, hq, fun objects => .of_exists_ok (fun m hm => ?_) fun m hm => ?_⟩
  · exact exists_run_of_run hlhs hrhs huses hcount hp hq hm
  · obtain ⟨m', hm', -⟩ := exists_run_of_run hlhs hrhs huses hcount hq hp hm
    exact ⟨m', hm'⟩

/-- A scaled chain of matrices, the last one an adjoint, times the trace of another matrix. -/
def tracedChain : Diagram :=
  .product (.ref ⟨.name "A", [.name "a"], [.name "b"], false⟩) (.scalar (.name "alpha"))
    [.ref ⟨.name "B", [.name "b"], [.name "c"], false⟩,
      .conj (.ref ⟨.name "C", [.name "d"], [.name "c"], false⟩),
      .ref ⟨.name "D", [.name "e"], [.name "e"], false⟩]

/-- The matrix that the chain is assigned to. -/
def tracedChainResult : Diagram :=
  .ref ⟨.name "N", [.name "a"], [.name "d"], false⟩

/-- The end of the chain comes first, and the trace is multiplied by a matrix that it is not joined
to. -/
def tracedChainOrder : ContractionOrder :=
  .built (.fuse (.fuse (.leaf (some "B")) (.leaf (some "C'")))
    (.fuse (.leaf (some "D")) (.leaf (some "A"))))

/-- The matrices and the scalar. -/
def tracedChainObjects : Table String (Value ℤ) :=
  [("A", .tensor (numberedTensor [false] [false])), ("B", .tensor (numberedTensor [false] [false])),
    ("C", .tensor (numberedTensor [false] [false])),
    ("D", .tensor (numberedTensor [false] [false])), ("alpha", .scalar 5)]

/-- What is handed back for the traced chain. -/
def tracedChainEntries : List (ResultName × List ℤ) :=
  [(.object (.name "N"), [45, 195, 165, 675])]

/-- The products of the traced chain are nested along the order.  Both plans for it can be run, and
hand back the same matrix. -/
theorem contraction_order_irrelevant_tracedChain :
    tracedChain.pushConj.binarize (some tracedChainOrder) = .ok (.pair (.scalar (.name "alpha"))
      (.pair
        (.pair (.ref ⟨.name "B", [.name "b"], [.name "c"], false⟩)
          (.ref ⟨.name "C", [.name "c"], [.name "d"], true⟩))
        (.pair (.ref ⟨.name "D", [.name "e"], [.name "e"], false⟩)
          (.ref ⟨.name "A", [.name "a"], [.name "b"], false⟩)))) ∧
    ∃ (p q : Plan) (m m' : Machine ℤ),
      Plan.forSymmetric {} (some tracedChainOrder)
        (assign tracedChainResult tracedChain true) = .ok p ∧
      Plan.forSymmetric {} none (assign tracedChainResult tracedChain true) = .ok q ∧
      p.run (.start tracedChainObjects) = .ok m ∧ q.run (.start tracedChainObjects) = .ok m' ∧
      m.results.Agrees m'.results ∧ m.handedBack = tracedChainEntries ∧
      m'.handedBack = tracedChainEntries := by
  refine ⟨rfl, ?_⟩
  obtain ⟨p, hp⟩ := exists_of_isOk (show (Plan.forSymmetric {} (some tracedChainOrder)
    (assign tracedChainResult tracedChain true)).isOk = true by decide +kernel)
  obtain ⟨m, hm, hentries⟩ : ∃ m, p.run (.start tracedChainObjects) = .ok m ∧
      m.handedBack = tracedChainEntries :=
    exists_run_of_handedBack hp tracedChainObjects (by decide +kernel)
  have hnosum : tracedChain.HasNoSum :=
    .product (.ref _) (.scalar _) (List.forall_mem_cons.mpr ⟨.ref _, List.forall_mem_cons.mpr
      ⟨.conj (.ref _), List.forall_mem_singleton.mpr (.ref _)⟩⟩)
  obtain ⟨q, hq, hsame⟩ :=
    contraction_order_irrelevant (R := ℤ) (.ref _) hnosum (by decide)
      (count_indexBag_le (by decide)) hp
  obtain ⟨m', hm', hagrees⟩ := (hsame tracedChainObjects).exists_ok hm
  obtain ⟨m₁, hm₁, hentries'⟩ : ∃ m, q.run (.start tracedChainObjects) = .ok m ∧
      m.handedBack = tracedChainEntries :=
    exists_run_of_handedBack hq tracedChainObjects (by decide +kernel)
  obtain rfl := Except.ok.inj (hm₁.symm.trans hm')
  exact ⟨p, q, m, m₁, hp, hq, hm, hm', hagrees, hentries, hentries'⟩

end Plan

end TensorDiagram
