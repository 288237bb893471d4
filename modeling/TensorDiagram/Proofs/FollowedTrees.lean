import TensorDiagram.Proofs.Renaming
import TensorDiagram.Proofs.StatementTrees

/-!
# Nested products that follow a tree

A factor of a product may itself contain products, which are nested first.  If the factor is a
scalar or a general tensor then these products have one general tensor at most, and the tree sets
their order only if it is a single leaf.  So they are always nested, to a scalar or to a general
tensor with the same reference (`exists_nested_of_isSimple`).

Hence a product whose tensors are those at the leaves of a tree stays of this kind
(`MatchesTree.nested`), and its nested form has the shape of the tree.
-/

namespace TensorDiagram.Diagram

variable {a b d d' : Diagram} {rest factors : List Diagram}

/-! ## References of general tensors -/

/-- The reference of a general tensor, and none for any other diagram. -/
def generalRefs (d : Diagram) : List TensorRef :=
  (d.general?.map GeneralTensor.term).toList

theorem length_generalRefs_le (d : Diagram) : d.generalRefs.length ≤ 1 := by
  unfold generalRefs
  cases d.general? with
  | none => exact Nat.zero_le 1
  | some g => exact le_rfl

theorem generalRefs_of_isScalar (h : d.isScalar = true) : d.generalRefs = [] := by
  rw [generalRefs, general?_of_isScalar d h]
  rfl

theorem factorName?_eq (d : Diagram) :
    d.factorName? = d.generalRefs.head?.map TensorRef.factorName := by
  unfold factorName? generalRefs
  cases d.general? <;> rfl

theorem IsSimple.isScalar_of_generalRefs (hd : d.IsSimple) (h : d.generalRefs = []) :
    d.isScalar = true := by
  apply hd.isScalar_of_factorName?
  rw [factorName?_eq, h]
  rfl

/-- The parts of factors: all references of those that are general tensors. -/
theorem generalFactors?_of_isSimple (h : ∀ d ∈ factors, d.IsSimple) :
    ∃ scalars : List Diagram, generalFactors? factors =
      some ⟨factors.flatMap generalRefs, scalars⟩ := by
  induction factors with
  | nil => exact ⟨[], rfl⟩
  | cons d factors ih =>
    obtain ⟨hd, hfactors⟩ := List.forall_mem_cons.mp h
    obtain ⟨scalars, hrest⟩ := ih hfactors
    rw [generalFactors?, hrest, List.flatMap_cons]
    rcases hg : d.general? with _ | g
    · have hscalar : d.isScalar = true := hd.resolve_right (by rw [isGeneral, hg]; decide)
      rw [factorParts?, if_pos hscalar, generalRefs_of_isScalar hscalar]
      exact ⟨_, rfl⟩
    · rw [factorParts?, generalRefs, hg]
      exact ⟨_, rfl⟩

theorem isSimple_of_generalFactors? {parts : FactorParts}
    (h : generalFactors? factors = some parts) : ∀ d ∈ factors, d.IsSimple := by
  induction factors generalizing parts with
  | nil => simp
  | cons d factors ih =>
    rw [generalFactors?] at h
    obtain ⟨x, hx, h⟩ := Option.bind_eq_some_iff.mp h
    obtain ⟨y, hy, -⟩ := Option.bind_eq_some_iff.mp h
    refine List.forall_mem_cons.mpr ⟨?_, ih hy⟩
    rcases hg : d.general? with _ | g
    · rw [hg, factorParts?] at hx
      exact .inl (by by_contra hscalar; rw [if_neg hscalar] at hx; cases hx)
    · exact .inr (by rw [isGeneral, hg]; rfl)

/-- A product is a scalar or a general tensor if its factors are, and at most one of them is a
tensor. -/
theorem isSimple_product_iff :
    (product a b rest).IsSimple ↔ (∀ d ∈ a :: b :: rest, d.IsSimple) ∧
      ((a :: b :: rest).flatMap generalRefs).length ≤ 1 := by
  constructor
  · rintro (h | h)
    · have hall := isScalar_product_iff.mp h
      have hrefs := List.flatMap_eq_nil_iff.mpr fun d hd => generalRefs_of_isScalar (hall d hd)
      exact ⟨fun d hd => .inl (hall d hd), by rw [hrefs]; exact Nat.zero_le 1⟩
    · rw [isGeneral, general?_product] at h
      obtain ⟨g, hg⟩ := Option.isSome_iff_exists.mp h
      obtain ⟨parts, hparts, hsingle⟩ := Option.bind_eq_some_iff.mp hg
      have hall := isSimple_of_generalFactors? hparts
      obtain ⟨scalars, hscalars⟩ := generalFactors?_of_isSimple hall
      obtain rfl := Option.some.inj (hparts.symm.trans hscalars)
      refine ⟨hall, ?_⟩
      rw [FactorParts.single?] at hsingle
      split at hsingle
      next heq => exact (congrArg List.length heq).le
      next => cases hsingle
  · rintro ⟨hall, hlength⟩
    obtain ⟨scalars, hscalars⟩ := generalFactors?_of_isSimple hall
    rcases hrefs : (a :: b :: rest).flatMap generalRefs with _ | ⟨t, _ | ⟨u, ts⟩⟩
    · refine .inl (isScalar_product_iff.mpr fun d hd => (hall d hd).isScalar_of_generalRefs ?_)
      exact List.flatMap_eq_nil_iff.mp hrefs d hd
    · rw [hrefs] at hscalars
      exact .inr (by rw [isGeneral, general?_product, hscalars]; rfl)
    · rw [hrefs] at hlength
      simp at hlength

/-- The reference of a general tensor is that of its only tensor factor. -/
theorem generalRefs_product (h : (product a b rest).IsSimple) :
    (product a b rest).generalRefs = (a :: b :: rest).flatMap generalRefs := by
  obtain ⟨hall, hlength⟩ := isSimple_product_iff.mp h
  obtain ⟨scalars, hscalars⟩ := generalFactors?_of_isSimple hall
  rw [generalRefs, general?_product, hscalars]
  generalize (a :: b :: rest).flatMap generalRefs = refs at hlength ⊢
  rcases refs with _ | ⟨t, _ | ⟨u, ts⟩⟩
  · rfl
  · rfl
  · simp at hlength

theorem isSimple_conj_iff : (conj a).IsSimple ↔ a.IsSimple := by
  unfold IsSimple isGeneral
  rw [isScalar, general?, Option.isSome_map]

theorem generalRefs_conj (a : Diagram) :
    (conj a).generalRefs = a.generalRefs.map TensorRef.flipped := by
  unfold generalRefs
  rw [general?]
  cases a.general? <;> rfl

/-- A nested product of scalars and at most one general tensor is of the same kind. -/
theorem BuiltFrom.isSimple {s : Multiset Diagram} (h : BuiltFrom s d) (hs : ∀ x ∈ s, x.IsSimple)
    (hcard : (s.bind fun x => (x.generalRefs : Multiset TensorRef)).card ≤ 1) :
    d.IsSimple ∧ (d.generalRefs : Multiset TensorRef) = s.bind fun x =>
      (x.generalRefs : Multiset TensorRef) := by
  induction h with
  | factor d => exact ⟨hs d (Multiset.mem_singleton_self d), (Multiset.singleton_bind _ _).symm⟩
  | @pair s t a b _ _ iha ihb =>
    rw [Multiset.add_bind, Multiset.card_add] at hcard
    obtain ⟨ha, hrefsa⟩ := iha (fun x hx => hs x (Multiset.mem_add.mpr (.inl hx))) (by omega)
    obtain ⟨hb, hrefsb⟩ := ihb (fun x hx => hs x (Multiset.mem_add.mpr (.inr hx))) (by omega)
    have hrefs :
        ((([a, b] : List Diagram).flatMap generalRefs : List TensorRef) : Multiset TensorRef) =
        (s + t).bind fun x => (x.generalRefs : Multiset TensorRef) := by
      rw [Multiset.add_bind, ← hrefsa, ← hrefsb, Multiset.coe_add, List.flatMap_cons,
        List.flatMap_singleton]
    have hsimple : (Diagram.pair a b).IsSimple := by
      refine isSimple_product_iff.mpr
        ⟨List.forall_mem_cons.mpr ⟨ha, List.forall_mem_singleton.mpr hb⟩, ?_⟩
      rw [← Multiset.coe_card, hrefs, Multiset.add_bind, Multiset.card_add]
      exact hcard
    refine ⟨hsimple, ?_⟩
    rw [← hrefs]
    exact congrArg _ (generalRefs_product hsimple)

/-! ## Nested scalars and general tensors -/

/-- The diagram is a scalar or a general tensor with the same reference. -/
def KeepsReference (d d' : Diagram) : Prop :=
  d'.IsSimple ∧ d'.generalRefs = d.generalRefs

theorem eq_of_coe_generalRefs_eq (h : (d'.generalRefs : Multiset TensorRef) = d.generalRefs) :
    d'.generalRefs = d.generalRefs := by
  have hperm := Multiset.coe_eq_coe.mp h
  rcases hrefs : d.generalRefs with _ | ⟨t, _ | ⟨u, ts⟩⟩
  · rw [hrefs] at hperm
    exact List.perm_nil.mp hperm
  · rw [hrefs] at hperm
    exact List.perm_singleton.mp hperm
  · have hlength := d.length_generalRefs_le
    rw [hrefs] at hlength
    simp at hlength

theorem flatMap_generalRefs_eq {ds ds' : List Diagram} (h : List.Forall₂ KeepsReference ds ds') :
    ds'.flatMap generalRefs = ds.flatMap generalRefs := by
  induction h with
  | nil => rfl
  | cons hd _ ih => rw [List.flatMap_cons, List.flatMap_cons, hd.2, ih]

theorem filterMap_factorName? (factors : List Diagram) :
    factors.filterMap factorName? = (factors.flatMap generalRefs).map TensorRef.factorName := by
  induction factors with
  | nil => rfl
  | cons d factors ih =>
    rw [List.flatMap_cons, List.map_append, ← ih]
    unfold generalRefs factorName?
    rcases hg : d.general? with _ | g
    · rw [List.filterMap_cons_none (by rw [hg]; rfl)]
      rfl
    · rw [List.filterMap_cons_some (by rw [hg]; rfl)]
      rfl

variable {tree : ContractionTree}

/-- Scalars and at most one general tensor have a nested product, whatever the tree. -/
theorem exists_nest_of_length_le (hleaves : tree.leaves.Nodup)
    (hlength : ((a :: b :: rest).flatMap generalRefs).length ≤ 1) :
    ∃ d : Diagram, nest (some tree) a b rest = .ok d := by
  by_cases hmatch : MatchesTree (a :: b :: rest) tree
  · have hle := hmatch.2.length_eq
    rw [filterMap_factorName?, List.length_map, List.length_map] at hle
    cases tree with
    | leaf name =>
      obtain ⟨d, hd⟩ := exists_nestAlong?_of_length hleaves hmatch rfl rfl
      exact ⟨d, bind_eq_ok_iff.mpr ⟨some d, hd, rfl⟩⟩
    | fuse left right =>
      rw [ContractionTree.leaves, List.length_append] at hle
      have hleft := left.length_leaves_pos
      have hright := right.length_leaves_pos
      omega
  · exact ⟨_, bind_eq_ok_iff.mpr ⟨none, nestAlong?_eq_none_of_not_matchesTree hleaves hmatch, rfl⟩⟩

/-- A product is nested after its factors. -/
theorem nestProducts_product_eq {order : Option ContractionTree} {a' b' : Diagram}
    {rest' : List Diagram} (h : List.Forall₂ (fun x x' => x.nestProducts order = .ok x')
      (a :: b :: rest) (a' :: b' :: rest')) :
    (product a b rest).nestProducts order = nest order a' b' rest' := by
  obtain ⟨ha, hall⟩ := List.forall₂_cons.mp h
  obtain ⟨hb, hrest⟩ := List.forall₂_cons.mp hall
  rw [nestProducts, ha, ok_bind, hb, ok_bind, nestProductsList_eq,
    mapM_eq_ok_iff.mpr hrest, ok_bind]

/-- The products within a scalar or a general tensor are always nested, and the reference stays. -/
theorem exists_nested_of_isSimple (hleaves : tree.leaves.Nodup) (d : Diagram) (h : d.IsSimple) :
    ∃ d' : Diagram, d.nestProducts (some tree) = .ok d' ∧ d.KeepsReference d' := by
  induction d with
  | ref t => exact ⟨ref t, rfl, h, rfl⟩
  | scalar x => exact ⟨scalar x, rfl, h, rfl⟩
  | conj a ih =>
    obtain ⟨a', ha', hsimple, hrefs⟩ := ih (isSimple_conj_iff.mp h)
    refine ⟨conj a', bind_eq_ok_iff.mpr ⟨a', ha', rfl⟩, isSimple_conj_iff.mpr hsimple, ?_⟩
    rw [generalRefs_conj, generalRefs_conj, hrefs]
  | product a b rest iha ihb ih =>
    obtain ⟨hall, hlength⟩ := isSimple_product_iff.mp h
    obtain ⟨ha, hall⟩ := List.forall_mem_cons.mp hall
    obtain ⟨hb, hrest⟩ := List.forall_mem_cons.mp hall
    obtain ⟨a', ha'⟩ := iha ha
    obtain ⟨b', hb'⟩ := ihb hb
    obtain ⟨rest', hrest'⟩ := exists_forall₂ fun d hd => ih d hd (hrest d hd)
    have hfactors : List.Forall₂ (fun d d' => d.nestProducts (some tree) = .ok d' ∧
      d.KeepsReference d') (a :: b :: rest) (a' :: b' :: rest') := .cons ha' (.cons hb' hrest')
    have hrefs := flatMap_generalRefs_eq (hfactors.imp fun _ _ h => h.2)
    rw [← hrefs] at hlength
    obtain ⟨d, hd⟩ := exists_nest_of_length_le hleaves hlength
    refine ⟨d, (nestProducts_product_eq (hfactors.imp fun _ _ h => h.1)).trans hd, ?_⟩
    have hbuilt := nest_builtFrom_all (by rintro _ ⟨⟩; exact hleaves) hd
    have hsimple : ∀ x ∈ a' :: b' :: rest', x.IsSimple :=
      forall_mem_of_forall₂ (hfactors.imp fun _ _ h => h.2.1)
    rw [← Multiset.coe_card, ← Multiset.coe_bind] at hlength
    obtain ⟨hd', hrefs'⟩ := hbuilt.isSimple hsimple hlength
    rw [Multiset.coe_bind, hrefs, ← generalRefs_product h] at hrefs'
    exact ⟨hd', eq_of_coe_generalRefs_eq hrefs'⟩
  | sum sign a rest iha ih =>
    obtain ⟨ha, hrest⟩ := isScalar_sum_iff.mp (h.resolve_right (by rintro ⟨⟩))
    -- a scalar keeps having no reference, and so stays a scalar
    have hkeeps : ∀ {d d' : Diagram}, d.isScalar = true → d.KeepsReference d' →
        d'.isScalar = true := fun hd h => h.1.isScalar_of_generalRefs
      (h.2.trans (generalRefs_of_isScalar hd))
    obtain ⟨a', ha', hkept⟩ := iha (.inl ha)
    obtain ⟨rest', hrest'⟩ := exists_forall₂ (r := fun p p' : Sign × Diagram =>
        (p.2.nestProducts (some tree) >>= fun d => .ok (p.1, d)) = .ok p' ∧ p'.2.isScalar = true)
      fun p hp => by
        obtain ⟨d', hd', hkept⟩ := ih p hp (.inl (hrest p hp))
        exact ⟨(p.1, d'), bind_eq_ok_iff.mpr ⟨d', hd', rfl⟩, hkeeps (hrest p hp) hkept⟩
    have hscalar : (sum sign a' rest').isScalar = true := isScalar_sum_iff.mpr
      ⟨hkeeps ha hkept, forall_mem_of_forall₂ (hrest'.imp fun _ _ h => h.2)⟩
    refine ⟨sum sign a' rest', ?_, .inl hscalar, rfl⟩
    rw [nestProducts, ha', ok_bind, nestProductsTerms_eq,
      mapM_eq_ok_iff.mpr (hrest'.imp fun _ _ h => h.1)]
    rfl
  | _ => rcases h with h | h <;> cases h

theorem KeepsReference.isScalar_eq (h : d.KeepsReference d') (hd : d.IsSimple) :
    d'.isScalar = d.isScalar := by
  rw [Bool.eq_iff_iff]
  constructor
  · intro hscalar
    exact hd.isScalar_of_generalRefs (h.2.symm.trans (generalRefs_of_isScalar hscalar))
  · intro hscalar
    exact h.1.isScalar_of_generalRefs (h.2.trans (generalRefs_of_isScalar hscalar))

theorem KeepsReference.factorName?_eq (h : d.KeepsReference d') :
    d'.factorName? = d.factorName? := by
  rw [Diagram.factorName?_eq, Diagram.factorName?_eq, h.2]

/-! ## Products along the tree -/

/-- With nested factors a product still matches the tree. -/
theorem MatchesTree.nested {nested : List Diagram} (h : MatchesTree factors tree)
    (hkeeps : List.Forall₂ KeepsReference factors nested) : MatchesTree nested tree := by
  refine ⟨forall_mem_of_forall₂ (hkeeps.imp fun _ _ h => h.1), ?_⟩
  rw [filterMap_factorName?, flatMap_generalRefs_eq hkeeps, ← filterMap_factorName?]
  exact h.2

theorem nest_failsWith (tree : ContractionTree) (a b : Diagram) (rest : List Diagram) :
    FailsWith (· = .missing) (nest (some tree) a b rest) := by
  refine (nestAlong?_failsWith _ tree).bind fun found => ?_
  cases found with
  | none => exact .ok _
  | some d => exact .ok d

theorem binarize_eq_nestProducts {order : ContractionOrder} (horder : order.toTree = .ok tree)
    (hleaves : tree.leaves.Nodup) (d : Diagram) :
    d.binarize (some order) = d.nestProducts (some tree) := by
  simp only [binarize, horder, ok_bind, if_pos (isEmpty_duplicates_iff.mpr hleaves)]

/-- **Nested products follow the tree.**  Let the factors of a product be scalars and general
tensors, and let the names of the tensors be those at the leaves of a tree without repeated leaves.
Then all factors can be nested, and if the product can be, then it has the scalars in front in their
order and after them a product of the shape of the tree, with every tensor at the leaf of its name;
so it uses every factor once.  Only a missing entry can prevent it, and nothing does if the names
have no brackets and commas. -/
theorem binarize_followsTree {order : ContractionOrder} {tree : ContractionTree}
    (horder : order.toTree = .ok tree) (hleaves : tree.leaves.Nodup) {a b : Diagram}
    {rest : List Diagram} (hmatch : MatchesTree (a :: b :: rest) tree) : ∃ nested : List Diagram,
      List.Forall₂ (fun x x' => x.binarize (some order) = .ok x' ∧ x'.isScalar = x.isScalar ∧
        x'.factorName? = x.factorName?) (a :: b :: rest) nested ∧
      (∀ d : Diagram, (product a b rest).binarize (some order) = .ok d →
        FollowsTree tree nested d ∧ BuiltFrom (nested : Multiset Diagram) d) ∧
      FailsWith (fun e => e = .missing ∧ e.kind = .missing)
        ((product a b rest).binarize (some order)) ∧
      (tree.HasPlainNames → ∃ d : Diagram, (product a b rest).binarize (some order) = .ok d) := by
  obtain ⟨nested, hnested⟩ := exists_forall₂ fun d hd =>
    exists_nested_of_isSimple hleaves d (hmatch.1 d hd)
  obtain ⟨a', _, -, hrest, rfl⟩ := List.forall₂_cons_left_iff.mp hnested
  obtain ⟨b', rest', -, -, rfl⟩ := List.forall₂_cons_left_iff.mp hrest
  have hmatch' := hmatch.nested (hnested.imp fun _ _ h => h.2)
  rw [binarize_eq_nestProducts horder hleaves,
    nestProducts_product_eq (hnested.imp fun _ _ h => h.1)]
  refine ⟨a' :: b' :: rest', ?_, fun d hd => ?_, ?_, fun hplain => ?_⟩
  · refine ((List.forall₂_and_left _ _).mpr ⟨hmatch.1, hnested⟩).imp fun x x' h => ?_
    rw [binarize_eq_nestProducts horder hleaves]
    exact ⟨h.2.1, h.2.2.isScalar_eq h.1, h.2.2.factorName?_eq⟩
  · obtain ⟨found, hfound, hd⟩ := bind_eq_ok_iff.mp hd
    cases found with
    | none => exact absurd hfound (nestAlong?_ne_none_of_matchesTree hleaves hmatch')
    | some x =>
      obtain rfl := Except.ok.inj hd
      have hfollows := followsTree_of_nestAlong? hleaves hfound
      exact ⟨hfollows, hfollows.builtFrom⟩
  · refine (nest_failsWith tree a' b' rest').mono ?_
    rintro _ rfl
    exact ⟨rfl, rfl⟩
  · obtain ⟨d, hd⟩ := exists_nestAlong? hleaves hmatch' hplain
    exact ⟨d, bind_eq_ok_iff.mpr ⟨some d, hd, rfl⟩⟩

/-- A matrix. -/
def outerMatrix : Diagram :=
  .ref ⟨.name "A", [.name "a"], [.name "b"], false⟩

/-- A product of two scalars. -/
def scalarProduct : Diagram :=
  .product (.scalar (.name "x")) (.scalar (.name "y")) []

/-- A scaled matrix that is conjugated, another matrix, and a scalar. -/
def scaledFactors : List Diagram :=
  [.conj (.product (.scalar (.name "z")) (.ref ⟨.name "B", [.name "c"], [.name "b"], false⟩) []),
    .ref ⟨.name "C", [.name "c"], [.name "d"], false⟩, .scalar (.name "w")]

/-- The last two matrices come first. -/
def scaledTree : ContractionTree :=
  .fuse (.fuse (.leaf (some "C")) (.leaf (some "B'"))) (.leaf (some "A"))

/-- The product of these matrices and scalars is nested along the tree. -/
theorem binarize_followsTree_scaledFactors :
    MatchesTree (outerMatrix :: scalarProduct :: scaledFactors) scaledTree ∧
      scaledTree.leaves.Nodup ∧
    ∃ (nested : List Diagram) (d : Diagram),
      List.Forall₂ (fun x x' => x.binarize (some (.built scaledTree)) = .ok x')
        (outerMatrix :: scalarProduct :: scaledFactors) nested ∧
      (product outerMatrix scalarProduct scaledFactors).binarize (some (.built scaledTree)) =
        .ok d ∧
      FollowsTree scaledTree nested d := by
  have hmatch : MatchesTree (outerMatrix :: scalarProduct :: scaledFactors) scaledTree := by
    decide +kernel
  have hleaves : scaledTree.leaves.Nodup := by decide
  have hplain : scaledTree.HasPlainNames := by
    simp [ContractionTree.HasPlainNames, ContractionTree.leafTexts, scaledTree,
      ContractionTree.leaves, leafText, ContractionTree.IsPlainChar]
  have horder : (ContractionOrder.built scaledTree).toTree = .ok scaledTree := rfl
  obtain ⟨nested, hnested, hfollows, -, hexists⟩ := binarize_followsTree horder hleaves hmatch
  obtain ⟨d, hd⟩ := hexists hplain
  exact ⟨hmatch, hleaves, nested, d, hnested.imp fun _ _ h => h.1, hd, (hfollows d hd).1⟩

/-- A tensor whose name reads like that of a product is displaced by it. -/
example : (product outerMatrix (.ref ⟨.name "B", [.name "b"], [.name "c"], false⟩)
    [.ref ⟨.name "(A, B)", [.name "c"], [.name "d"], false⟩]).binarize
      (some (.built (.fuse (.fuse (.leaf (some "A")) (.leaf (some "B"))) (.leaf (some "(A, B)")))))
        = .error .missing := by
  rfl

end TensorDiagram.Diagram
