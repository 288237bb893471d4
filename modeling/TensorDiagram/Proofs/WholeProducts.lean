import TensorDiagram.Proofs.Monomials
import TensorDiagram.Proofs.TreeProducts

/-!
# Nested products of all factors

A nested product that comes about along a contraction tree has the shape of the tree, and so it uses
every factor once. Together with products from left to right, this says that every nested product is
built from all factors (`nest_builtFrom_all`).

Hence a formula mentions the same references before and after its products are nested, up to
conjugation (`IsFormula.mentions_iff`).
-/

namespace TensorDiagram.Diagram

variable {a d : Diagram} {t : TensorRef}

/-! ## Products that use every factor -/

theorem NestsAs.builtFrom {tree : ContractionTree} {ds : List Diagram} (h : NestsAs tree ds d) :
    BuiltFrom (ds : Multiset Diagram) d := by
  induction h with
  | leaf name d => exact .factor d
  | fuse _ _ iha ihb =>
    rw [← Multiset.coe_add]
    exact iha.pair ihb

/-- A product along a tree is built from all factors. -/
theorem FollowsTree.builtFrom {tree : ContractionTree} {factors : List Diagram}
    (h : FollowsTree tree factors d) : BuiltFrom (factors : Multiset Diagram) d := by
  obtain ⟨tensors, core, hperm, -, hnests, rfl⟩ := h
  have hbuilt := hnests.builtFrom.foldr_pair (factors.filter isScalar)
  rwa [Multiset.coe_add, Multiset.coe_eq_coe.mpr ((hperm.append_left _).trans
    (List.filter_append_perm isScalar factors))] at hbuilt

/-- The leaves of the tree are distinct, if there is one. -/
def HasDistinctLeaves (order : Option ContractionTree) : Prop :=
  ∀ tree, order = some tree → tree.leaves.Nodup

/-- A nested product is built from all factors. -/
theorem nest_builtFrom_all {order : Option ContractionTree} (horder : HasDistinctLeaves order)
    {b : Diagram} {rest : List Diagram} (h : nest order a b rest = .ok d) :
    BuiltFrom ((a :: b :: rest : List Diagram) : Multiset Diagram) d := by
  cases order with
  | none =>
    obtain rfl := Except.ok.inj h
    exact nestLeft_builtFrom a b rest
  | some tree =>
    obtain ⟨found, hfound, h⟩ := bind_eq_ok_iff.mp h
    cases found with
    | none =>
      obtain rfl := Except.ok.inj h
      exact nestLeft_builtFrom a b rest
    | some x =>
      obtain rfl := Except.ok.inj h
      exact (followsTree_of_nestAlong? (horder tree rfl) hfound).builtFrom

/-! ## References of nested products -/

theorem BuiltFrom.mem_tensors_iff {s : Multiset Diagram} (h : BuiltFrom s d) : t ∈ d.tensors ↔
    ∃ x ∈ s, t ∈ x.tensors := by
  induction h with
  | factor d => simp
  | pair _ _ iha ihb =>
    simp only [tensors, listTensors, List.append_nil, List.mem_append, iha, ihb,
      Multiset.mem_add, or_and_right, exists_or]

theorem exists_mem_iff_of_forall₂ {α β : Type} {P : α → Prop} {Q : β → Prop}
    {xs : List α} {ys : List β} (h : List.Forall₂ (fun x y => Q y ↔ P x) xs ys) : (∃ y ∈ ys, Q y) ↔
      ∃ x ∈ xs, P x := by
  induction h with
  | nil => simp
  | cons hxy _ ih => rw [List.exists_mem_cons_iff, List.exists_mem_cons_iff, hxy, ih]

/-- The reference or its conjugate stands in the expression. -/
def Mentions (d : Diagram) (t : TensorRef) : Prop :=
  t ∈ d.tensors ∨ t.flipped ∈ d.tensors

theorem mentions_product {b : Diagram} {rest : List Diagram} :
    (product a b rest).Mentions t ↔ ∃ x ∈ a :: b :: rest, x.Mentions t := by
  simp only [Mentions, tensors, listTensors_eq, List.mem_append, List.mem_flatMap,
    List.exists_mem_cons_iff, and_or_left, exists_or, or_assoc]

theorem mentions_sum {sign : Sign} {rest : List (Sign × Diagram)} :
    (sum sign a rest).Mentions t ↔ a.Mentions t ∨ ∃ p ∈ rest, p.2.Mentions t := by
  simp only [Mentions, tensors, termTensors_eq, List.mem_append, List.mem_flatMap,
    and_or_left, exists_or]
  exact or_or_or_comm

theorem mentions_flipped (u t : TensorRef) : (ref u.flipped).Mentions t ↔ (ref u).Mentions t := by
  have hflip : t = u.flipped ↔ t.flipped = u := ⟨fun h => by rw [h, TensorRef.flipped_flipped],
    fun h => by rw [← h, TensorRef.flipped_flipped]⟩
  have hflip' : t.flipped = u.flipped ↔ t = u := ⟨fun h => by
    rw [← t.flipped_flipped, h, TensorRef.flipped_flipped], fun h => by rw [h]⟩
  simp only [Mentions, tensors, List.mem_singleton]
  rw [hflip, hflip', or_comm]

/-- Nesting the products of a formula keeps its references, up to conjugation. -/
theorem IsFormula.mentions_iff {order : Option ContractionTree} (horder : HasDistinctLeaves order)
    {d' : Diagram} {odd : Bool} (hd : d.IsFormula)
    (h : (d.adjointForm odd).nestProducts order = .ok d') (t : TensorRef) :
    d'.Mentions t ↔ d.Mentions t := by
  refine IsFormula.nested_induction ?ref ?scalar ?conj ?sum ?product hd h
  case ref =>
    intro odd u
    cases odd with
    | false => rfl
    | true => exact mentions_flipped u t
  case scalar => intro odd s; cases odd <;> cases s <;> rfl
  case conj => exact fun odd a d' ih => ih
  case sum =>
    intro odd sign a a' rest rest' iha hterms
    rw [mentions_sum, mentions_sum, iha,
      exists_mem_iff_of_forall₂ (P := fun p : Sign × Diagram => p.2.Mentions t) hterms]
  case product =>
    intro odd a b rest a' b' rest' d' hfactors h
    have hbuilt := nest_builtFrom_all horder h
    rw [mentions_product, Mentions, hbuilt.mem_tensors_iff, hbuilt.mem_tensors_iff, ← exists_or]
    simp only [Multiset.mem_coe, ← and_or_left]
    exact exists_mem_iff_of_forall₂ hfactors

end TensorDiagram.Diagram
