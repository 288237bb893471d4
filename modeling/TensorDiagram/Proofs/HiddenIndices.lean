import TensorDiagram.Proofs.FreeIndexOrders
import TensorDiagram.Proofs.StatementTrees

/-!
# Hidden free indices

An expression shows the legs of its references, but of a sum it shows the free indices only, each of
them once (`shownLegs`).  In a consistent expression no product shows an index more than twice and
the terms of a sum agree on their free indices.  Its free indices are those that it shows once, and
they are the indices of every admissible order, in whichever order its products are nested
(`IsConsistent.perm_freeLegs_of_mem`).

`freeIndices` counts legs of references instead.  A sum within a product has a free index on the
legs of all its terms, and its terms may use the name of a free index of another factor for a
contraction; such an index is hidden.  What `freeIndices` lists are the free indices that are not
hidden (`IsConsistent.freeIndices_eq_unhidden`), and it does miss others
(`freeIndices_misses_hidden_indices`).
-/

open scoped symmDiff

namespace TensorDiagram

/-- Two sums of which one is larger entry by entry are equal if all entries are. -/
theorem sum_map_eq_iff {α : Type} {xs : List α} {f g : α → ℕ} (h : ∀ x ∈ xs, f x ≤ g x) :
    (xs.map g).sum = (xs.map f).sum ↔ ∀ x ∈ xs, g x = f x := by
  induction xs with
  | nil => simp
  | cons x xs ih =>
    obtain ⟨hx, hxs⟩ := List.forall_mem_cons.mp h
    have hle : (xs.map f).sum ≤ (xs.map g).sum := List.sum_le_sum hxs
    rw [List.forall_mem_cons, ← ih hxs, List.map_cons, List.map_cons, List.sum_cons, List.sum_cons]
    omega

/-- Both sides count alike. -/
theorem TensorRef.oddIndices_flipped (t : TensorRef) : t.flipped.oddIndices = t.oddIndices := by
  ext i
  rw [mem_oddIndices, mem_oddIndices, indices, indices, flipped, List.count_append,
    List.count_append, Nat.add_comm]

namespace Diagram

variable {d : Diagram} {i : Index}

/-! ## Free sets of nested products -/

/-- A product has the free indices of its list of factors. -/
theorem freeSet_product (a b : Diagram) (rest : List Diagram) :
    (product a b rest).freeSet = listFreeSet (a :: b :: rest) := by
  rw [freeSet, listFreeSet, listFreeSet]

/-- Free indices of a list, in any order. -/
theorem listFreeSet_eq (ds : List Diagram) :
    listFreeSet ds = ((ds : Multiset Diagram).map freeSet).fold symmDiff ∅ := by
  induction ds with
  | nil => rfl
  | cons d ds ih =>
    rw [listFreeSet, ih, ← Multiset.cons_coe, Multiset.map_cons, Multiset.fold_cons_left]

/-- An index is free if it is so for an odd number of entries. -/
theorem mem_listFreeSet_iff {ds : List Diagram} {f : Diagram → ℕ}
    (h : ∀ d ∈ ds, i ∈ d.freeSet ↔ f d % 2 = 1) : i ∈ listFreeSet ds ↔ (ds.map f).sum % 2 = 1 := by
  induction ds with
  | nil => simp [listFreeSet]
  | cons d ds ih =>
    obtain ⟨hd, hds⟩ := List.forall_mem_cons.mp h
    rw [listFreeSet, Finset.mem_symmDiff, hd, ih hds, List.map_cons, List.sum_cons]
    omega

/-- The free indices of a nested product do not depend on how it is nested. -/
theorem BuiltFrom.freeSet_eq {s : Multiset Diagram} (h : BuiltFrom s d) :
    d.freeSet = (s.map freeSet).fold symmDiff ∅ := by
  induction h with
  | factor d =>
    rw [Multiset.map_singleton, Multiset.fold_singleton, ← Finset.bot_eq_empty, symmDiff_bot]
  | @pair s t a b _ _ iha ihb =>
    have hnil : (∅ : Finset Index) = ∅ ∆ ∅ := (symmDiff_self _).symm
    rw [freeSet_pair, iha, ihb, Multiset.map_add]
    nth_rewrite 3 [hnil]
    exact (Multiset.fold_add symmDiff ∅ ∅ (s.map freeSet) (t.map freeSet)).symm

/-- A formula keeps its free indices when conjugation is moved to references and products are
nested. -/
theorem IsFormula.freeSet_nested {order : Option ContractionTree} (horder : HasDistinctLeaves order)
    {d' : Diagram} {odd : Bool} (hd : d.IsFormula)
    (h : (d.adjointForm odd).nestProducts order = .ok d') : d'.freeSet = d.freeSet := by
  refine IsFormula.nested_induction ?ref ?scalar ?conj ?sum ?product hd h
  case ref =>
    intro odd t
    cases odd with
    | false => rfl
    | true => exact t.oddIndices_flipped
  case scalar => intro odd s; cases odd <;> cases s <;> rfl
  case conj => exact fun odd a d' ih => ih
  case sum =>
    intro odd sign a a' rest rest' iha _
    rw [freeSet, freeSet, iha]
  case product =>
    intro odd a b rest a' b' rest' d' hfactors h
    have hfree : (a' :: b' :: rest').map freeSet = (a :: b :: rest).map freeSet := by
      rw [← List.forall₂_eq_eq_eq, List.forall₂_map_left_iff, List.forall₂_map_right_iff]
      exact hfactors.flip
    rw [(nest_builtFrom_all horder h).freeSet_eq, freeSet_product, listFreeSet_eq, Multiset.map_coe,
      Multiset.map_coe, hfree]

/-! ## Legs that are shown -/

mutual
/-- The legs that an expression shows.  A sum shows the free indices of its terms. -/
def shownLegs : Diagram → List Index
  | ref t => t.indices
  | conj a => a.shownLegs
  | sum _ a _ => once a.shownLegs
  | product a b rest => a.shownLegs ++ (b.shownLegs ++ listShownLegs rest)
  | _ => []
/-- The legs that are shown by the diagrams of a list. -/
def listShownLegs : List Diagram → List Index
  | [] => []
  | d :: rest => d.shownLegs ++ listShownLegs rest
end

/-- The free indices of an expression: those that it shows once. -/
def freeLegs (d : Diagram) : List Index :=
  once d.shownLegs

/-- Free legs are shown once. -/
theorem mem_freeLegs : i ∈ d.freeLegs ↔ d.shownLegs.count i = 1 :=
  mem_once

/-- No free leg is repeated. -/
theorem nodup_freeLegs (d : Diagram) : d.freeLegs.Nodup :=
  nodup_once _

/-- A formula in which no product shows an index more than twice and the terms of a sum have the
same free indices. -/
inductive IsConsistent : Diagram → Prop
  /-- A reference. -/
  | ref {t : TensorRef} (hcount : ∀ i, t.indices.count i ≤ 2) : IsConsistent (.ref t)
  /-- A scalar. -/
  | scalar (s : Scalar) : IsConsistent (.scalar s)
  /-- A conjugate. -/
  | conj {a : Diagram} (ha : IsConsistent a) : IsConsistent (.conj a)
  /-- A sum. -/
  | sum {sign : Sign} {a : Diagram} {rest : List (Sign × Diagram)} (ha : IsConsistent a)
      (hrest : ∀ p ∈ rest, IsConsistent p.2) (hfree : ∀ p ∈ rest, ∀ i, i ∈ p.2.freeLegs ↔
        i ∈ a.freeLegs) :
      IsConsistent (.sum sign a rest)
  /-- A product. -/
  | product {a b : Diagram} {rest : List Diagram} (ha : IsConsistent a) (hb : IsConsistent b)
      (hrest : ∀ d ∈ rest, IsConsistent d) (hcount : ∀ i,
        (Diagram.product a b rest).shownLegs.count i ≤ 2) :
      IsConsistent (.product a b rest)

/-- Consistent expressions are formulas. -/
theorem IsConsistent.isFormula (hd : d.IsConsistent) : d.IsFormula := by
  induction hd with
  | ref _ => exact .ref _
  | scalar s => exact .scalar s
  | conj _ ih => exact .conj ih
  | sum _ _ _ iha ihrest => exact .sum iha ihrest
  | product _ _ _ _ iha ihb ihrest => exact .product iha ihb ihrest

/-- A product shows what its factors show. -/
theorem shownLegs_product (a b : Diagram) (rest : List Diagram) :
    (product a b rest).shownLegs = (a :: b :: rest).flatMap shownLegs := by
  have hrest : listShownLegs rest = rest.flatMap shownLegs := by
    induction rest with
    | nil => rfl
    | cons d rest ih => rw [listShownLegs, ih, List.flatMap_cons]
  rw [shownLegs, hrest, List.flatMap_cons, List.flatMap_cons]

/-- How often a product shows an index. -/
theorem count_shownLegs_product (a b : Diagram) (rest : List Diagram) (i : Index) :
    (product a b rest).shownLegs.count i =
      ((a :: b :: rest).map fun d => d.shownLegs.count i).sum := by
  rw [shownLegs_product, List.count_flatMap]
  rfl

/-- A sum shows its free indices once. -/
theorem count_shownLegs_sum (sign : Sign) (a : Diagram) (rest : List (Sign × Diagram)) (i : Index) :
    (sum sign a rest).shownLegs.count i = if i ∈ a.freeLegs then 1 else 0 := by
  simp only [shownLegs, count_once, mem_freeLegs]

/-- A sum has the free indices of its first term. -/
theorem freeLegs_sum (sign : Sign) (a : Diagram) (rest : List (Sign × Diagram)) (i : Index) :
    i ∈ (sum sign a rest).freeLegs ↔ i ∈ a.freeLegs := by
  rw [mem_freeLegs, count_shownLegs_sum]
  split_ifs with h <;> simp [h]

/-- No index is shown more than twice. -/
theorem IsConsistent.count_shownLegs_le (hd : d.IsConsistent) (i : Index) :
    d.shownLegs.count i ≤ 2 := by
  induction hd with
  | ref hcount => exact hcount i
  | scalar s => exact Nat.zero_le 2
  | conj _ ih => exact ih
  | sum _ _ _ _ _ =>
    rw [count_shownLegs_sum]
    split_ifs <;> omega
  | product _ _ _ hcount _ _ _ => exact hcount i

/-- A joined index is on two of the shown legs, and a free one on one of them. -/
theorem IsConsistent.mem_freeSet_iff (hd : d.IsConsistent) : i ∈ d.freeSet ↔ i ∈ d.freeLegs := by
  have hodd : i ∈ d.freeSet ↔ d.shownLegs.count i % 2 = 1 := by
    induction hd with
    | ref _ => exact TensorRef.mem_oddIndices
    | scalar s => simp [freeSet, shownLegs]
    | conj _ ih => exact ih
    | sum ha _ _ iha _ =>
      have hle := ha.count_shownLegs_le i
      rw [freeSet, iha, count_shownLegs_sum]
      simp only [mem_freeLegs]
      split_ifs with h
      · rw [h]
      · exact iff_of_false (by omega) not_false
    | product _ _ _ _ iha ihb ihrest =>
      rw [freeSet_product, count_shownLegs_product]
      exact mem_listFreeSet_iff (forall_mem_factors iha ihb ihrest)
  have hle := hd.count_shownLegs_le i
  rw [hodd, mem_freeLegs]
  omega

/-- In whichever order its products are nested, the admissible orders of a consistent expression
have its free indices, each of them once. -/
theorem IsConsistent.perm_freeLegs_of_mem {order : Option ContractionOrder} {b : Diagram}
    (hd : d.IsConsistent) (hb : d.pushConj.binarize order = .ok b) :
    ∃ orders : List (List Index), b.admissibleOrders = .ok orders ∧
      ∀ o ∈ orders, o.Perm d.freeLegs := by
  obtain ⟨tree, hleaves, htree⟩ := exists_tree_of_binarize hb
  rw [htree, pushConj] at hb
  have hnormal : b.IsNormal := (hd.isFormula.nested hb).1
  obtain ⟨orders, horders, hnd⟩ := hnormal.exists_orders
  refine ⟨orders, horders, fun o ho => ?_⟩
  have hfree := hnormal.toFinset_eq_of_admits ((admits_iff horders o).mpr ⟨o, ho, .refl o⟩)
  refine (List.perm_ext_iff_of_nodup (hnd o ho) d.nodup_freeLegs).mpr fun i => ?_
  rw [← List.mem_toFinset, hfree, hd.isFormula.freeSet_nested hleaves hb, hd.mem_freeSet_iff]

/-! ## Legs that are hidden -/

mutual
/-- Whether the index is on legs of references that the expression does not show: on the legs of
several terms of a sum in which it is free, or on legs that are joined within a sum. -/
def hides (i : Index) : Diagram → Bool
  | conj a => a.hides i
  | sum sign a rest =>
    if i ∈ a.freeLegs then !rest.isEmpty || a.hides i
    else i ∈ (sum sign a rest).tensors.flatMap TensorRef.indices
  | product a b rest => a.hides i || (b.hides i || listHides i rest)
  | _ => false
/-- Whether some of the diagrams of a list hide the index. -/
def listHides (i : Index) : List Diagram → Bool
  | [] => false
  | d :: rest => d.hides i || listHides i rest
end

/-- The first term of a sum, or the first term of that if it is a sum again, and so on. -/
def leadingTerm : Diagram → Diagram
  | sum _ a _ => a.leadingTerm
  | d => d

/-- A product hides what a factor hides. -/
theorem hides_product (a b : Diagram) (rest : List Diagram) (i : Index) :
    (product a b rest).hides i = false ↔ ∀ d ∈ a :: b :: rest, d.hides i = false := by
  have hrest : listHides i rest = false ↔ ∀ d ∈ rest, d.hides i = false := by
    induction rest with
    | nil => simp [listHides]
    | cons d rest ih => rw [listHides, Bool.or_eq_false_iff, ih, List.forall_mem_cons]
  rw [hides, Bool.or_eq_false_iff, Bool.or_eq_false_iff, hrest, List.forall_mem_cons,
    List.forall_mem_cons]

/-- Nothing is hidden without a sum. -/
theorem HasNoSum.hides_eq_false (hd : d.HasNoSum) (i : Index) : d.hides i = false := by
  induction hd with
  | ref _ => rfl
  | scalar _ => rfl
  | conj _ ih => exact ih
  | product _ _ _ iha ihb ihrest =>
    exact (hides_product ..).mpr (forall_mem_factors iha ihb ihrest)

/-- How often an index occurs in a list. -/
theorem count_flatMap_indices {α : Type} (f : α → Diagram) (xs : List α) (i : Index) :
    ((xs.flatMap fun x => (f x).tensors).flatMap TensorRef.indices).count i =
      (xs.map fun x => (f x).indexBag.count i).sum := by
  rw [List.flatMap_assoc, List.count_flatMap]
  refine congrArg List.sum (List.map_congr_left fun x _ => ?_)
  rw [Function.comp_apply, indexBag, Multiset.coe_count]

/-- How often an index occurs in a product. -/
theorem count_indexBag_product (a b : Diagram) (rest : List Diagram) (i : Index) :
    (product a b rest).indexBag.count i =
      ((a :: b :: rest).map fun d => d.indexBag.count i).sum := by
  rw [indexBag, tensors_product, Multiset.coe_count, count_flatMap_indices]

/-- How often an index occurs in a sum. -/
theorem count_indexBag_sum (sign : Sign) (a : Diagram) (rest : List (Sign × Diagram)) (i : Index) :
    (sum sign a rest).indexBag.count i =
      a.indexBag.count i + (rest.map fun p => p.2.indexBag.count i).sum := by
  rw [indexBag, tensors, termTensors_eq, List.flatMap_append, Multiset.coe_count, List.count_append,
    count_flatMap_indices, indexBag, Multiset.coe_count]

/-- All legs that are shown are legs of references. -/
theorem IsConsistent.count_shownLegs_le_indexBag (hd : d.IsConsistent) (i : Index) :
    d.shownLegs.count i ≤ d.indexBag.count i := by
  induction hd with
  | ref _ => simp [shownLegs, indexBag, tensors]
  | scalar s => exact Nat.zero_le _
  | conj _ ih => exact ih
  | sum _ _ _ iha _ =>
    rw [count_shownLegs_sum, count_indexBag_sum]
    simp only [mem_freeLegs]
    split_ifs <;> omega
  | product _ _ _ _ iha ihb ihrest =>
    rw [count_shownLegs_product, count_indexBag_product]
    exact List.sum_le_sum (forall_mem_factors iha ihb ihrest)

/-- The legs that are shown are all legs of references with the index, if it is not hidden. -/
theorem IsConsistent.hides_eq_false_iff (hd : d.IsConsistent) (i : Index) :
    d.hides i = false ↔ d.indexBag.count i = d.shownLegs.count i := by
  induction hd with
  | ref _ => simp [hides, shownLegs, indexBag, tensors]
  | scalar s => simp [hides, shownLegs, indexBag, tensors]
  | conj _ ih => exact ih
  | @sum sign a rest ha hrest hfree iha _ =>
    rw [hides, count_shownLegs_sum]
    by_cases hi : i ∈ a.freeLegs
    · rw [if_pos hi, if_pos hi, count_indexBag_sum, Bool.or_eq_false_iff, iha, mem_freeLegs.mp hi]
      -- every term has the index on a leg
      cases rest with
      | nil => simp
      | cons p rest =>
        have hfirst := ha.count_shownLegs_le_indexBag i
        have hnext := (hrest p (List.mem_cons_self ..)).count_shownLegs_le_indexBag i
        rw [mem_freeLegs.mp hi] at hfirst
        rw [mem_freeLegs.mp ((hfree p (List.mem_cons_self ..) i).mpr hi)] at hnext
        refine iff_of_false (by simp) ?_
        rw [List.map_cons, List.sum_cons]
        omega
    · rw [if_neg hi, if_neg hi, decide_eq_false_iff_not, indexBag, Multiset.coe_count,
        List.count_eq_zero]
  | @product a b rest ha hb hrest _ iha ihb ihrest =>
    have hfactors : ∀ d ∈ a :: b :: rest, d.IsConsistent := forall_mem_factors ha hb hrest
    have hle := fun d hd => (hfactors d hd).count_shownLegs_le_indexBag i
    rw [hides_product, count_indexBag_product, count_shownLegs_product, sum_map_eq_iff hle]
    exact forall₂_congr (forall_mem_factors iha ihb ihrest)

/-- An index that is on one leg only of all references is free. -/
theorem IsConsistent.mem_freeLegs_of_count (hd : d.IsConsistent) (h : d.indexBag.count i = 1) :
    i ∈ d.freeLegs := by
  rw [mem_freeLegs]
  induction hd with
  | ref _ => simpa [shownLegs, indexBag, tensors] using h
  | scalar s => simp [indexBag, tensors] at h
  | conj _ ih => exact ih h
  | @sum sign a rest ha hrest hfree iha ihrest =>
    rw [count_indexBag_sum] at h
    rw [count_shownLegs_sum, if_pos]
    by_contra hi
    -- the index is in no term, since it would be free in all of them
    have hnone : ∀ p ∈ rest, p.2.indexBag.count i = 0 := by
      intro p hp
      have hle : p.2.indexBag.count i ≤ (rest.map fun p => p.2.indexBag.count i).sum :=
        List.le_sum_of_mem (List.mem_map.mpr ⟨p, hp, rfl⟩)
      by_contra hne
      exact hi ((hfree p hp i).mp (mem_freeLegs.mpr (ihrest p hp (by omega))))
    have hrest0 : (rest.map fun p => p.2.indexBag.count i).sum = 0 := by
      rw [List.sum_eq_zero_iff, List.forall_mem_map]
      exact hnone
    exact hi (mem_freeLegs.mpr (iha (by omega)))
  | @product a b rest ha hb hrest _ iha ihb ihrest =>
    rw [count_shownLegs_product, ← h, count_indexBag_product]
    rw [count_indexBag_product] at h
    have hfactors : ∀ d ∈ a :: b :: rest, d.IsConsistent := forall_mem_factors ha hb hrest
    have hone : ∀ d ∈ a :: b :: rest, d.indexBag.count i = 1 → d.shownLegs.count i = 1 :=
      forall_mem_factors iha ihb ihrest
    -- a factor has the index on one leg or on none
    refine congrArg List.sum (List.map_congr_left fun d hd => ?_)
    have hle : d.indexBag.count i ≤ 1 := h ▸ List.le_sum_of_mem (List.mem_map.mpr ⟨d, hd, rfl⟩)
    have hshown := (hfactors d hd).count_shownLegs_le_indexBag i
    have hfree := hone d hd
    omega

/-! ## Legs that are counted -/

/-- Only the leading term is looked at. -/
theorem freeIndices_eq (d : Diagram) :
    d.freeIndices = once (d.leadingTerm.tensors.flatMap TensorRef.indices) := by
  fun_induction leadingTerm d with
  | case1 sign a rest ih => rw [freeIndices, ih]
  | case2 d hd => rw [freeIndices.eq_2 d hd]

/-- The leading term is consistent. -/
theorem IsConsistent.leadingTerm (hd : d.IsConsistent) : d.leadingTerm.IsConsistent := by
  induction hd with
  | ref hcount => exact .ref hcount
  | scalar s => exact .scalar s
  | conj ha _ => exact .conj ha
  | sum _ _ _ iha _ => exact iha
  | product ha hb hrest hcount _ _ _ => exact .product ha hb hrest hcount

/-- The leading term has the same free legs. -/
theorem mem_freeLegs_leadingTerm : i ∈ d.leadingTerm.freeLegs ↔
    i ∈ d.freeLegs := by
  fun_induction leadingTerm d with
  | case1 sign a rest ih => rw [ih, freeLegs_sum]
  | case2 d hd => rfl

/-- What is listed is free and not hidden. -/
theorem IsConsistent.mem_freeIndices_iff (hd : d.IsConsistent) :
    i ∈ d.freeIndices ↔ i ∈ d.freeLegs ∧ d.leadingTerm.hides i = false := by
  have hcount : i ∈ d.freeIndices ↔ d.leadingTerm.indexBag.count i = 1 := by
    rw [freeIndices_eq, mem_once, indexBag, Multiset.coe_count]
  rw [hcount, ← mem_freeLegs_leadingTerm, hd.leadingTerm.hides_eq_false_iff]
  constructor
  · intro h
    have hfree := hd.leadingTerm.mem_freeLegs_of_count h
    exact ⟨hfree, h.trans (mem_freeLegs.mp hfree).symm⟩
  · rintro ⟨hfree, h⟩
    exact h.trans (mem_freeLegs.mp hfree)

/-- For a consistent expression `freeIndices` lists the free indices that its first term does not
hide, each of them once. It is a permutation of the admissible orders exactly if none is hidden, and
so if the first term has no sum in it. -/
theorem IsConsistent.freeIndices_eq_unhidden {d : Diagram} (hd : d.IsConsistent) :
    d.freeIndices.Nodup ∧
      (∀ i, i ∈ d.freeIndices ↔ i ∈ d.freeLegs ∧ d.leadingTerm.hides i = false) ∧
    (d.leadingTerm.HasNoSum → d.freeIndices.Perm d.freeLegs) ∧
      (∃ b, d.pushConj.binarize none = .ok b) ∧
    ∀ order b, d.pushConj.binarize order = .ok b →
      ∃ orders : List (List Index), b.admissibleOrders = .ok orders ∧ ∀ o ∈ orders,
        o.Perm d.freeLegs ∧
          (o.Perm d.freeIndices ↔ ∀ i ∈ d.freeLegs, d.leadingTerm.hides i = false) := by
  have hnd : d.freeIndices.Nodup := by
    rw [freeIndices_eq]
    exact nodup_once _
  have hperm : d.freeLegs.Perm d.freeIndices ↔ ∀ i ∈ d.freeLegs, d.leadingTerm.hides i = false := by
    rw [List.perm_ext_iff_of_nodup d.nodup_freeLegs hnd]
    simp only [hd.mem_freeIndices_iff, iff_self_and]
  refine ⟨hnd, fun i => hd.mem_freeIndices_iff, ?_, hd.isFormula.exists_nestProducts false, ?_⟩
  · intro hsum
    exact (hperm.mpr fun i _ => hsum.hides_eq_false i).symm
  · intro order b hb
    obtain ⟨orders, horders, hfree⟩ := hd.perm_freeLegs_of_mem hb
    refine ⟨orders, horders, fun o ho => ⟨hfree o ho, ?_⟩⟩
    rw [← hperm]
    exact ⟨(hfree o ho).symm.trans, (hfree o ho).trans⟩

/-- Two tensors that are joined, one of them a conjugate, next to a negated one, minus a tensor with
the same free indices. -/
def negatedFactor : Diagram :=
  .sum .plus
    (.product (.ref ⟨.name "A", [.name "a", .name "c"], [], false⟩)
      (.conj (.ref ⟨.name "B", [.name "b"], [.name "c"], false⟩))
      [.sum .minus (.ref ⟨.name "C", [.name "d"], [], false⟩) []])
    [(.minus, .ref ⟨.name "D", [.name "b", .name "a"], [.name "d"], false⟩)]

/-- An index that is hidden is not listed. -/
theorem freeIndices_eq_unhidden_negatedFactor :
    negatedFactor.IsConsistent ∧ negatedFactor.freeIndices = [.name "a", .name "b", .name "d"] ∧
    ∃ (b : Diagram) (o : List Index), negatedFactor.pushConj.binarize none = .ok b ∧
      b.admissibleOrders = .ok [o] ∧ o.Perm negatedFactor.freeIndices := by
  have hd : negatedFactor.IsConsistent := by
    have hnegated :
        (Diagram.sum .minus (.ref ⟨.name "C", [.name "d"], [], false⟩) []).IsConsistent :=
      .sum (.ref (count_le_two_of_forall_mem (by decide))) (by simp) (by simp)
    refine .sum (.product (.ref ?_) (.conj (.ref ?_)) (List.forall_mem_singleton.mpr hnegated) ?_)
      (List.forall_mem_singleton.mpr (.ref ?_)) (List.forall_mem_singleton.mpr fun i =>
        List.Perm.mem_iff (by decide))
    all_goals exact count_le_two_of_forall_mem (by decide)
  obtain ⟨-, -, -, ⟨b, hb⟩, hall⟩ := hd.freeIndices_eq_unhidden
  obtain ⟨orders, horders, hperm⟩ := hall none b hb
  have horder : (negatedFactor.pushConj.binarize none >>= admissibleOrders) =
      .ok [[.name "b", .name "a", .name "d"]] := rfl
  rw [hb, ok_bind, horders] at horder
  obtain rfl := Except.ok.inj horder
  exact ⟨hd, by decide, b, _, hb, horders, (hperm _ (List.mem_singleton_self _)).2.mpr (by decide)⟩

/-- A vector times the sum of two. -/
def sumFactor : Diagram :=
  .pair (.ref ⟨.name "A", [.name "a"], [], false⟩)
    (.sum .plus (.ref ⟨.name "B", [.name "b"], [], false⟩)
      [(.plus, .ref ⟨.name "C", [.name "b"], [], false⟩)])

/-- A vector times a negated tensor with a trace, in which the index of the vector is used again. -/
def tracedFactor : Diagram :=
  .pair (.ref ⟨.name "A", [.name "c"], [], false⟩)
    (.sum .minus (.ref ⟨.name "B", [.name "b", .name "c"], [.name "c"], false⟩) [])

/-- Both ways to hide a free index: the terms of a sum have it on one leg each, or a term of a sum
has its name on legs that are joined. -/
theorem freeIndices_misses_hidden_indices :
    (sumFactor.IsConsistent ∧ sumFactor.isTensor = true ∧
      sumFactor.pushConj.binarize none = .ok sumFactor ∧
      (∃ orders : List (List Index), sumFactor.admissibleOrders = .ok orders ∧
        [.name "a", .name "b"] ∈ orders) ∧
      sumFactor.freeLegs = [.name "a", .name "b"] ∧ sumFactor.freeIndices = [.name "a"]) ∧
    (tracedFactor.IsConsistent ∧ tracedFactor.isTensor = true ∧
      tracedFactor.pushConj.binarize none = .ok tracedFactor ∧
      (∃ orders : List (List Index), tracedFactor.admissibleOrders = .ok orders ∧
        [.name "c", .name "b"] ∈ orders) ∧
      tracedFactor.freeLegs = [.name "c", .name "b"] ∧ tracedFactor.freeIndices = [.name "b"]) := by
  have hsum : sumFactor.IsConsistent := by
    refine .product (.ref ?_) (.sum (.ref ?_) (List.forall_mem_singleton.mpr (.ref ?_))
      (List.forall_mem_singleton.mpr fun i => Iff.rfl)) (by simp) ?_
    all_goals exact count_le_two_of_forall_mem (by decide)
  have htraced : tracedFactor.IsConsistent := by
    refine .product (.ref ?_) (.sum (.ref ?_) (by simp) (by simp)) (by simp) ?_
    all_goals exact count_le_two_of_forall_mem (by decide)
  refine ⟨⟨hsum, by decide, rfl, ⟨_, rfl, by decide⟩, by decide, by decide⟩,
    htraced, by decide, rfl, ⟨_, rfl, by decide⟩, by decide, by decide⟩

end Diagram

end TensorDiagram
