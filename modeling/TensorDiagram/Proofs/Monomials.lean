import TensorDiagram.Proofs.Agreement
import TensorDiagram.Proofs.Nesting
import TensorDiagram.Proofs.Wires

/-!
# Monomials

A monomial is a nested product without sums.  Its factors are references and scalars, and what it
means depends on them alone: if no index appears more than twice, a monomial means the contraction
of the product of the arrays of its factors (`Machine.exists_arrays`), however the product is
nested.

A formula without sums becomes a monomial when its products are nested (`HasNoSum.isMonomial`).
-/

namespace TensorDiagram

variable {d : Diagram} {t : TensorRef}

namespace Diagram

/-! ## Factors -/

/-- A reference or a scalar. -/
inductive IsFactor : Diagram → Prop
  /-- A reference. -/
  | ref (t : TensorRef) : IsFactor (.ref t)
  /-- A scalar. -/
  | scalar (s : Scalar) : IsFactor (.scalar s)
  /-- The conjugate of a named scalar. -/
  | conj (name : String) : IsFactor (.conj (.scalar (.name name)))

/-- A nested product of references and scalars. -/
inductive IsMonomial : Diagram → Prop
  /-- A single factor. -/
  | factor {d : Diagram} (hd : d.IsFactor) : IsMonomial d
  /-- A product of two monomials. -/
  | pair {a b : Diagram} (ha : IsMonomial a) (hb : IsMonomial b) : IsMonomial (.pair a b)

theorem IsFactor.isNormal (hd : d.IsFactor) : d.IsNormal := by
  cases hd with
  | ref t => exact .ref t
  | scalar s => exact .scalar s
  | conj name => exact .conj name

theorem IsMonomial.isNormal (hd : d.IsMonomial) : d.IsNormal := by
  induction hd with
  | factor hd => exact hd.isNormal
  | pair ha hb iha ihb => exact .pair iha ihb

/-- The factors of a nested product. -/
def factors : Diagram → List Diagram
  | product a b [] => a.factors ++ b.factors
  | d => [d]

theorem factors_pair (a b : Diagram) : (pair a b).factors = a.factors ++ b.factors := by
  rw [pair, factors]

theorem IsFactor.factors_eq (hd : d.IsFactor) : d.factors = [d] := by
  cases hd <;> rfl

/-- The factors of a monomial are references and scalars. -/
theorem IsMonomial.isFactor (hd : d.IsMonomial) : ∀ x ∈ d.factors, x.IsFactor := by
  induction hd with
  | factor hd =>
    rw [hd.factors_eq]
    exact List.forall_mem_singleton.mpr hd
  | pair ha hb iha ihb =>
    rw [factors_pair, List.forall_mem_append]
    exact ⟨iha, ihb⟩

/-- The references of a monomial are those of its factors. -/
theorem IsMonomial.tensors_eq (hd : d.IsMonomial) : d.tensors = d.factors.flatMap tensors := by
  induction hd with
  | factor hd => rw [hd.factors_eq, List.flatMap_singleton]
  | pair ha hb iha ihb =>
    rw [factors_pair, List.flatMap_append, ← iha, ← ihb, tensors, listTensors, List.append_nil]

/-- A scalar has no references. -/
theorem IsMonomial.tensors_of_isScalar (hd : d.IsMonomial) (hs : d.isScalar = true) :
    d.tensors = [] := by
  induction hd with
  | factor hd =>
    cases hd with
    | ref t => cases hs
    | scalar s => rfl
    | conj name => rfl
  | pair ha hb iha ihb =>
    simp only [isScalar, allScalar, Bool.and_true, Bool.and_eq_true] at hs
    rw [tensors, listTensors, iha hs.1, ihb hs.2]
    rfl

theorem IsFactor.mapRefs (hd : d.IsFactor) (f : TensorRef → TensorRef) :
    (d.mapRefs f).IsFactor := by
  cases hd with
  | ref t => exact .ref _
  | scalar s => exact .scalar s
  | conj name => exact .conj name

theorem IsMonomial.mapRefs (hd : d.IsMonomial) (f : TensorRef → TensorRef) :
    (d.mapRefs f).IsMonomial := by
  induction hd with
  | factor hd => exact .factor (hd.mapRefs f)
  | pair ha hb iha ihb => exact .pair iha ihb

/-- References are replaced factor by factor. -/
theorem IsMonomial.factors_mapRefs (hd : d.IsMonomial) (f : TensorRef → TensorRef) :
    (d.mapRefs f).factors = d.factors.map (Diagram.mapRefs f) := by
  induction hd with
  | factor hd => rw [(hd.mapRefs f).factors_eq, hd.factors_eq, List.map_singleton]
  | pair ha hb iha ihb =>
    rw [factors_pair, List.map_append, ← iha, ← ihb, Diagram.mapRefs, mapRefsList, factors_pair]

/-- All indices of an expression, each as often as it appears. -/
def indexBag (d : Diagram) : Multiset Index :=
  (d.tensors.flatMap TensorRef.indices : List Index)

theorem indexBag_pair (a b : Diagram) : (pair a b).indexBag = a.indexBag + b.indexBag := by
  simp [indexBag, tensors, listTensors]

/-- It is enough to count the indices that appear. -/
theorem count_le_two_of_forall_mem {xs : List Index} (h : ∀ i ∈ xs, xs.count i ≤ 2) (i : Index) :
    xs.count i ≤ 2 := by
  by_cases hi : i ∈ xs
  · exact h i hi
  · rw [List.count_eq_zero_of_not_mem hi]
    exact Nat.zero_le 2

theorem count_indexBag_le (h : ∀ i ∈ d.tensors.flatMap TensorRef.indices,
    (d.tensors.flatMap TensorRef.indices).count i ≤ 2) (i : Index) : d.indexBag.count i ≤ 2 := by
  rw [indexBag, Multiset.coe_count]
  exact count_le_two_of_forall_mem h i

/-- The open indices of a product are those that appear an odd number of times. -/
theorem IsMonomial.isOpen_iff (hd : d.IsMonomial) (i : Index) :
    d.isOpen i = true ↔ d.indexBag.count i % 2 = 1 := by
  induction hd with
  | factor hd =>
    cases hd with
    | ref t => simp [isOpen, indexBag, tensors]
    | scalar s => simp [isOpen, indexBag, tensors]
    | conj name => simp [isOpen, indexBag, tensors]
  | @pair a b ha hb iha ihb =>
    have hxor : (a.isOpen i ^^ b.isOpen i) = true ↔ ¬ (a.isOpen i = true ↔ b.isOpen i = true) := by
      cases a.isOpen i <;> cases b.isOpen i <;> decide
    rw [indexBag_pair, Multiset.count_add, isOpen, hxor, iha, ihb]
    omega

/-- A formula without sums. -/
inductive HasNoSum : Diagram → Prop
  /-- A reference. -/
  | ref (t : TensorRef) : HasNoSum (.ref t)
  /-- A scalar. -/
  | scalar (s : Scalar) : HasNoSum (.scalar s)
  /-- A conjugate. -/
  | conj {a : Diagram} (ha : HasNoSum a) : HasNoSum (.conj a)
  /-- A product. -/
  | product {a b : Diagram} {rest : List Diagram} (ha : HasNoSum a) (hb : HasNoSum b)
      (hrest : ∀ d ∈ rest, HasNoSum d) : HasNoSum (.product a b rest)

theorem HasNoSum.isFormula (hd : d.HasNoSum) : d.IsFormula := by
  induction hd with
  | ref t => exact .ref t
  | scalar s => exact .scalar s
  | conj _ ih => exact .conj ih
  | product _ _ _ iha ihb ihrest => exact .product iha ihb ihrest

/-- A formula without sums that has a reference is a tensor expression. -/
theorem HasNoSum.isTensor_of_mem (hd : d.HasNoSum) (ht : t ∈ d.tensors) : d.isTensor = true := by
  induction hd with
  | ref u => rfl
  | scalar s => cases ht
  | conj _ ih => exact ih ht
  | @product a b rest _ _ _ iha ihb ihrest =>
    have hall : ∀ d ∈ a :: b :: rest, t ∈ d.tensors → d.isTensor = true :=
      List.forall_mem_cons.mpr ⟨iha, List.forall_mem_cons.mpr ⟨ihb, ihrest⟩⟩
    obtain ⟨d, hd, ht⟩ : ∃ d ∈ a :: b :: rest, t ∈ d.tensors := by
      simpa [tensors, listTensors_eq, or_assoc] using ht
    exact isTensor_product_iff.mpr ⟨d, hd, hall d hd ht⟩

theorem IsMonomial.hasNoSum (hd : d.IsMonomial) : d.HasNoSum := by
  induction hd with
  | factor hd =>
    cases hd with
    | ref t => exact .ref t
    | scalar s => exact .scalar s
    | conj name => exact .conj (.scalar _)
  | pair ha hb iha ihb => exact .product iha ihb (by simp)

/-- A formula without sums becomes a monomial when its products are nested. -/
theorem HasNoSum.isMonomial {order : Option ContractionTree} {d' : Diagram} {odd : Bool}
    (hd : d.HasNoSum) (h : (d.adjointForm odd).nestProducts order = .ok d') : d'.IsMonomial := by
  have hformula := hd.isFormula
  revert hd
  refine IsFormula.nested_induction ?ref ?scalar ?conj ?sum ?product hformula h
  case ref => exact fun odd t _ => .factor (.ref _)
  case scalar =>
    intro odd s _
    cases odd with
    | false => exact .factor (.scalar s)
    | true =>
      cases s with
      | number x => exact .factor (.scalar _)
      | name text => exact .factor (.conj text)
  case conj =>
    intro odd a d' ih hd
    cases hd with
    | conj ha => exact ih ha
  case sum => rintro _ _ _ _ _ _ _ _ ⟨⟩
  case product =>
    intro odd a b rest a' b' rest' d' hfactors h hd
    have hall : ∀ x ∈ a' :: b' :: rest', x.IsMonomial := by
      cases hd with
      | product ha hb hrest =>
        refine forall_mem_of_forall₂ (((List.forall₂_and_left _ _).mpr ⟨?_, hfactors⟩).imp
          fun _ _ h => h.2 h.1)
        exact forall_mem_factors ha hb hrest
    obtain ⟨s, hs, hbuilt⟩ := nest_builtFrom h
    exact hbuilt.closed (fun _ _ => .pair) fun x hx => hall x (Multiset.mem_of_le hs hx)

end Diagram

/-! ## Arrays -/

theorem Tensor.mapLabels_toArray {R : Type} [CommRing R] [Arithmetic R] (t : Tensor R)
    (labels : List Index) (r : Index → Index) :
    (t.toArray labels).mapLabels r = t.toArray (labels.map r) := by
  have hlegs : t.labelledLegs (labels.map r) = (t.labelledLegs labels).map fun leg =>
      (r leg.1, leg.2) := by
    rw [labelledLegs, labelledLegs, List.zip_map_left]
    rfl
  refine LegArray.ext ?_ fun g => ?_
  · rw [LegArray.legs_mapLabels, legs_toArray, legs_toArray, hlegs, Multiset.map_coe]
  · change (if _ then _ else _) = (if _ then _ else _)
    simp only [hlegs, List.map_map, List.forall_mem_map]
    rfl

namespace Meaning

variable {R : Type} [CommRing R]

/-- The meaning as an array.  A scalar has no legs. -/
def toArray : Meaning R → LegArray R
  | scalar x => .const x
  | array N => N

/-- The product of meanings is the contraction of the product of arrays. -/
theorem mul_spec {u v w : Meaning R} (hu : u.toArray.labels.Nodup) (hv : v.toArray.labels.Nodup)
    (h : u.mul v = some w) :
    (u.toArray * v.toArray).Joinable ∧ w.toArray = (u.toArray * v.toArray).contract := by
  have hscaled : ∀ (x : R) (N : LegArray R), N.labels.Nodup →
      (.const x * N).Joinable ∧ .const x * N = (.const x * N).contract := by
    intro x N hN
    have hnd : (LegArray.const x * N).labels.Nodup := by
      rwa [LegArray.labels_mul, LegArray.labels_const, zero_add]
    exact ⟨LegArray.joinable_of_nodup hnd, (LegArray.contract_of_nodup hnd).symm⟩
  cases u with
  | scalar x =>
    cases v with
    | scalar y =>
      obtain rfl := Option.some.inj h
      have hproduct : (scalar (x * y)).toArray = .const x * .const y :=
        (LegArray.const_mul_const x y).symm
      rw [hproduct]
      exact hscaled x _ hv
    | array M =>
      obtain rfl := Option.some.inj h
      exact hscaled x M hv
  | array N =>
    cases v with
    | scalar y =>
      obtain rfl := Option.some.inj h
      rw [CommMonoid.mul_comm (array N).toArray]
      exact hscaled y N hu
    | array M =>
      rw [mul] at h
      split_ifs at h with hjoin
      obtain rfl := Option.some.inj h
      exact ⟨hjoin, rfl⟩

end Meaning

namespace LegArray

variable {R : Type} [CommRing R] {N M : LegArray R}
variable {l : Index}

/-- What is left after a contraction has distinct labels. -/
theorem Joinable.nodup_contract (h : N.Joinable) : N.contract.labels.Nodup := by
  refine Multiset.nodup_iff_count_le_one.mpr fun l => ?_
  have hle := h.count_le l
  rw [count_labels_contract]
  split_ifs <;> omega

theorem mem_labels_of_mem_contract (h : l ∈ N.contract.labels) : l ∈ N.labels := by
  rw [← Multiset.count_pos, count_labels_contract] at h
  split_ifs at h
  · exact absurd h (lt_irrefl 0)
  · exact Multiset.count_pos.mp h

/-- The legs of a label that is joined show dual spaces. -/
theorem Joinable.of_mem_joined (h : N.Joinable) (hl : l ∈ N.joined) :
    ∃ v, spacesAt N.legs l = {v, v.dual} := by
  have hcard := N.card_spacesAt l
  rw [mem_joined.mp hl] at hcard
  rcases h l with hnone | ⟨v, hone⟩ | htwo
  · rw [hnone] at hcard
    cases hcard
  · rw [hone] at hcard
    cases hcard
  · exact htwo

/-- If labels appear at most twice in a product, then a label that is joined in one factor is not
there in the other. -/
theorem notMem_labels_of_mem_joined (hcount : ∀ l, (N * M).labels.count l ≤ 2) (hl : l ∈ N.joined) :
    l ∉ M.labels := by
  have hle := hcount l
  rw [labels_mul, Multiset.count_add, mem_joined.mp hl] at hle
  exact Multiset.count_eq_zero.mp (by omega)

/-- Both factors may be contracted first. -/
theorem contract_mul_contract (hN : N.Joinable) (hM : M.Joinable)
    (hcount : ∀ l, (N * M).labels.count l ≤ 2) (hjoin : (N.contract * M.contract).Joinable) :
    (N * M).Joinable ∧ (N.contract * M.contract).contract = (N * M).contract := by
  have hNM : ∀ l ∈ N.joined, l ∉ M.labels := fun l => notMem_labels_of_mem_joined hcount
  have hMN : ∀ l ∈ M.joined, l ∉ N.labels :=
    fun l => notMem_labels_of_mem_joined (by rwa [mul_comm])
  have hNM' : ∀ l ∈ N.joined, l ∉ M.contract.labels := fun l hl hl' =>
    hNM l hl (mem_labels_of_mem_contract hl')
  constructor
  · have hhalf := (joinable_mul_iff hNM').mpr ⟨fun l => hN.of_mem_joined, hjoin⟩
    rw [mul_comm] at hhalf ⊢
    exact (joinable_mul_iff hMN).mpr ⟨fun l => hM.of_mem_joined, hhalf⟩
  · rw [contract_contract_mul hNM', mul_comm, contract_contract_mul hMN, mul_comm]

end LegArray

namespace Machine

open Diagram Evaluated

variable {R : Type} [CommRing R] [Arithmetic R]
variable {m : Machine R} {N : LegArray R} {v : Meaning R}

/-- The tensor of a reference as an array, before any label is summed over. -/
def refArray (m : Machine R) (t : TensorRef) : Option (LegArray R) :=
  match m.referent t.object t.isAdjoint with
  | .ok (.tensor s) => if t.indices.length = s.legs.count then some (s.toArray t.indices) else none
  | _ => none

/-- A factor as an array. -/
def factorArray (m : Machine R) : Diagram → Option (LegArray R)
  | .ref t => m.refArray t
  | d => (m.denote d).map Meaning.toArray

theorem refArray_eq_some_iff :
    m.refArray t = some N ↔ ∃ s, m.referent t.object t.isAdjoint = .ok (.tensor s) ∧
      t.indices.length = s.legs.count ∧ N = s.toArray t.indices := by
  rw [refArray]
  rcases m.referent t.object t.isAdjoint with e | v
  · simp
  · cases v with
    | scalar x => simp
    | tensor s =>
      dsimp only
      split_ifs with hcount
      · simp [hcount, eq_comm]
      · simp [hcount]

/-- The labels of the array are the indices of the reference. -/
theorem labels_refArray (h : m.refArray t = some N) : N.labels = t.indices := by
  obtain ⟨s, -, hcount, rfl⟩ := refArray_eq_some_iff.mp h
  exact Tensor.labels_toArray hcount

/-- Other indices on a reference are other labels on its array. -/
theorem refArray_mapIndices (m : Machine R) (t : TensorRef) (r : Index → Index) :
    m.refArray (t.mapIndices r) = (m.refArray t).map (LegArray.mapLabels r) := by
  have hindices : (t.mapIndices r).indices = t.indices.map r := (List.map_append ..).symm
  rw [refArray, refArray, hindices, List.length_map]
  change (match m.referent t.object t.isAdjoint with
    | .ok (.tensor s) =>
      if t.indices.length = s.legs.count then some (s.toArray (t.indices.map r)) else none
    | _ => none) = _
  rcases m.referent t.object t.isAdjoint with e | v
  · rfl
  · cases v with
    | scalar x => rfl
    | tensor s =>
      dsimp only
      split_ifs
      · rw [Option.map_some, Tensor.mapLabels_toArray]
      · rfl

variable [StarRing R] [Arithmetic.IsExact R]

/-- A reference means the contraction of its array. -/
theorem exists_refArray (h : m.denote (.ref t) = some v) :
    ∃ N, m.refArray t = some N ∧ N.Joinable ∧ v = .array N.contract := by
  rw [denote, evaluate, evaluateRef] at h
  rcases hreferent : m.referent t.object t.isAdjoint with e | value
  · rw [hreferent] at h
    cases h
  rw [hreferent, ok_bind] at h
  by_cases hdup : (duplicates [] t.indices).isEmpty = true
  · rw [if_pos hdup] at h
    obtain ⟨N, rfl⟩ := exists_array_of_labelled h
    obtain ⟨s, labels, heq, hcount, rfl⟩ := meaning?_eq_array_iff.mp h
    obtain ⟨rfl, rfl⟩ : value = .tensor s ∧ t.indices = labels := by simpa using heq
    have hnd := isEmpty_duplicates_iff.mp hdup
    exact ⟨_, refArray_eq_some_iff.mpr ⟨s, hreferent, hcount, rfl⟩,
      Tensor.joinable_toArray hcount hnd, by rw [Tensor.contract_toArray hcount hnd]⟩
  · rw [if_neg hdup] at h
    rcases hoperand : value.toOperand t.indices with e | operand
    · rw [hoperand] at h
      cases h
    obtain ⟨s, rfl, hcount, rfl⟩ := toOperand_eq_ok_iff.mp hoperand
    rw [hoperand, ok_bind] at h
    rcases hu : Tensor.contractAll [⟨s, t.indices⟩] (t.left.filter fun i => t.indices.count i = 1)
        (t.right.filter fun i => t.indices.count i = 1) with e | u
    · rw [hu] at h
      cases h
    rw [hu, ok_bind] at h
    have hspec := Tensor.contractAll_spec hu
    have hjoin := hspec.joinable
    have harray := hspec.array_eq
    rw [Tensor.network_singleton] at hjoin harray
    refine ⟨_, refArray_eq_some_iff.mpr ⟨s, hreferent, hcount, rfl⟩, hjoin, ?_⟩
    change (if _ then _ else _) = some v at h
    rw [if_pos hspec.count_eq, harray] at h
    exact (Option.some.inj h).symm

/-- A reference to an array whose legs can be joined means something. -/
theorem exists_denote_of_refArray (h : m.refArray t = some N) (hjoin : N.Joinable) :
    ∃ v, m.denote (.ref t) = some v := by
  obtain ⟨s, hs, hcount, rfl⟩ := refArray_eq_some_iff.mp h
  rw [denote, evaluate, evaluateRef, hs, ok_bind]
  by_cases hdup : (duplicates [] t.indices).isEmpty = true
  · rw [if_pos hdup]
    exact ⟨_, if_pos hcount⟩
  · have hproper : ∀ x ∈ [(⟨s, t.indices⟩ : Tensor.Operand R)], x.IsProper := by
      simpa [Tensor.Operand.IsProper] using hcount
    rw [← Tensor.network_singleton] at hjoin
    have hlabels : (((t.left.filter fun i => t.indices.count i = 1) ++
        (t.right.filter fun i => t.indices.count i = 1) : List Index) : Multiset Index) =
          (Tensor.network [⟨s, t.indices⟩]).contract.labels := by
      rw [Tensor.labels_contract_network hjoin, Tensor.map_fst_allLegs hproper,
        List.flatMap_singleton, once, ← List.filter_append]
      rfl
    obtain ⟨u, hu, hspec⟩ := Tensor.contractAll_of_checks hproper hjoin hlabels
    rw [if_neg hdup, toOperand_tensor, if_pos hcount, ok_bind, hu, ok_bind]
    exact ⟨_, if_pos hspec.count_eq⟩

theorem denote_ref_eq_some_iff :
    m.denote (.ref t) = some v ↔ ∃ N, m.refArray t = some N ∧ N.Joinable ∧
      v = .array N.contract := by
  refine ⟨exists_refArray, ?_⟩
  rintro ⟨N, hN, hjoin, rfl⟩
  obtain ⟨v, hv⟩ := exists_denote_of_refArray hN hjoin
  obtain ⟨M, hM, -, rfl⟩ := exists_refArray hv
  obtain rfl := Option.some.inj (hN.symm.trans hM)
  exact hv

/-- The arrays of references on machines that agree. -/
theorem AgreesOn.refArray_eq {P : ObjectRef → Prop} {m' : Machine R} (h : m.AgreesOn P m')
    (ht : P t.object) : m.refArray t = m'.refArray t := by
  have hsame := h.referent ht t.isAdjoint
  rw [refArray, refArray]
  generalize m.referent t.object t.isAdjoint = x, m'.referent t.object t.isAdjoint = y at hsame
  cases hsame with
  | error e e' => rfl
  | ok hvw =>
    cases hvw with
    | scalar x => rfl
    | tensor hst => simp only [hst.legs_eq, hst.toArray_eq]

/-- A scalar expression means a scalar, if anything. -/
theorem exists_scalar_of_denote_eq (hd : d.IsNormal) (hs : d.isScalar = true)
    (h : m.denote d = some v) : ∃ x, v = .scalar x := by
  rw [denote] at h
  rcases hx : m.evaluate d with e | x
  · rw [hx] at h
    cases h
  · rw [hx, outcome?_ok] at h
    have hform := hd.hasForm hx
    rcases x with ⟨w, labels⟩ | (t | y)
    · exact absurd hs hform.1
    · cases h
    · exact ⟨y, (Option.some.inj h).symm⟩

/-- A scalar factor is an array without legs. -/
theorem factorArray_of_isScalar (hd : d.IsNormal) (hs : d.isScalar = true)
    (h : m.factorArray d = some N) : ∃ x, m.denote d = some (.scalar x) ∧ N = .const x := by
  rw [factorArray] at h
  · obtain ⟨v, hv, rfl⟩ := Option.map_eq_some_iff.mp h
    obtain ⟨x, rfl⟩ := exists_scalar_of_denote_eq hd hs hv
    exact ⟨x, hv, rfl⟩
  · rintro t rfl
    cases hs

/-- The labels of a factor are its indices. -/
theorem labels_factorArray (hd : d.IsFactor) (h : m.factorArray d = some N) :
    N.labels = d.indexBag := by
  have hscalar : d.isScalar = true → N.labels = 0 := by
    intro hs
    obtain ⟨x, -, rfl⟩ := factorArray_of_isScalar hd.isNormal hs h
    rfl
  cases hd with
  | ref t =>
    rw [labels_refArray h, indexBag, tensors, List.flatMap_singleton]
  | scalar s => exact hscalar rfl
  | conj name => exact hscalar rfl

/-- The labels of a product of factors are their indices. -/
theorem labels_prod_factorArrays {xs : List Diagram} (hxs : ∀ x ∈ xs, x.IsFactor)
    {Ns : List (LegArray R)} (h : List.Forall₂ (fun x N => m.factorArray x = some N) xs Ns) :
    Ns.prod.labels = ((xs.flatMap tensors).flatMap TensorRef.indices : List Index) := by
  induction h with
  | nil => rfl
  | cons hN _ ih =>
    obtain ⟨hx, hxs⟩ := List.forall_mem_cons.mp hxs
    rw [List.prod_cons, LegArray.labels_mul, labels_factorArray hx hN, ih hxs, List.flatMap_cons,
      List.flatMap_append, ← Multiset.coe_add]
    rfl

/-- The labels of the product of the factors of a monomial are its indices. -/
theorem labels_prod_factors (hd : d.IsMonomial) {Ns : List (LegArray R)}
    (h : List.Forall₂ (fun x N => m.factorArray x = some N) d.factors Ns) :
    Ns.prod.labels = d.indexBag := by
  rw [labels_prod_factorArrays hd.isFactor h, ← hd.tensors_eq, indexBag]

/-- A monomial means the contraction of the product of its factors. -/
theorem exists_arrays (hd : d.IsMonomial) (hcount : ∀ i, d.indexBag.count i ≤ 2)
    (h : m.denote d = some v) :
    ∃ Ns, List.Forall₂ (fun x N => m.factorArray x = some N) d.factors Ns ∧
      Ns.prod.Joinable ∧ v.toArray = Ns.prod.contract := by
  induction hd generalizing v with
  | @factor d hd =>
    suffices hN : ∃ N, m.factorArray d = some N ∧ N.Joinable ∧ v.toArray = N.contract by
      obtain ⟨N, hN, hjoin⟩ := hN
      exact ⟨[N], by rw [hd.factors_eq]; exact .cons hN .nil, by rwa [List.prod_singleton]⟩
    have hscalar : d.isScalar = true → ∃ N, m.factorArray d = some N ∧ N.Joinable ∧
        v.toArray = N.contract := by
      intro hs
      obtain ⟨x, rfl⟩ := exists_scalar_of_denote_eq hd.isNormal hs h
      have hnd : (LegArray.const x : LegArray R).labels.Nodup := Multiset.nodup_zero
      refine ⟨.const x, ?_, LegArray.joinable_of_nodup hnd, (LegArray.contract_of_nodup hnd).symm⟩
      rw [factorArray, h]
      · rfl
      · rintro t rfl
        cases hs
    cases hd with
    | ref t =>
      obtain ⟨N, hN, hjoin, rfl⟩ := exists_refArray h
      exact ⟨N, hN, hjoin, rfl⟩
    | scalar s => exact hscalar rfl
    | conj name => exact hscalar rfl
  | @pair a b ha hb iha ihb =>
    rw [denote_pair] at h
    obtain ⟨u, hu, h⟩ := Option.bind_eq_some_iff.mp h
    obtain ⟨w, hw, h⟩ := Option.bind_eq_some_iff.mp h
    rw [indexBag_pair] at hcount
    obtain ⟨Ns, hNs, hjoin, hN⟩ := iha (fun i => by
      have hle := hcount i
      rw [Multiset.count_add] at hle
      omega) hu
    obtain ⟨Ms, hMs, hjoin', hM⟩ := ihb (fun i => by
      have hle := hcount i
      rw [Multiset.count_add] at hle
      omega) hw
    obtain ⟨hmul, hv⟩ := Meaning.mul_spec (by rw [hN]; exact hjoin.nodup_contract)
      (by rw [hM]; exact hjoin'.nodup_contract) h
    rw [hN, hM] at hmul hv
    obtain ⟨hproduct, hcontract⟩ := LegArray.contract_mul_contract hjoin hjoin'
      (by rwa [LegArray.labels_mul, labels_prod_factors ha hNs, labels_prod_factors hb hMs]) hmul
    refine ⟨Ns ++ Ms, ?_, ?_, ?_⟩
    · rw [factors_pair]
      exact List.rel_append hNs hMs
    · rwa [List.prod_append]
    · rw [List.prod_append, hv, hcontract]

/-- A contraction has a label for each leg. -/
theorem exists_meaning_of_contractAll {operands : List (Tensor.Operand R)} {left right : List Index}
    {t : Tensor R} (h : Tensor.contractAll operands left right = .ok t) :
    ∃ v, (labelled (.tensor t) (left ++ right)).meaning? = some v :=
  ⟨_, if_pos (Tensor.contractAll_spec h).count_eq⟩

/-- The value of a monomial means something, unless the monomial is a multiple of one reference with
distinct indices, or a scalar factor. -/
theorem meaning_or_multiple (hd : d.IsMonomial) {x : Evaluated R} (h : m.evaluate d = .ok x) :
    (∃ v, x.meaning? = some v) ∨
      (∃ t, d.tensors = [t] ∧ t.indices.Nodup ∧ ∀ N, ¬ m.refArray t = some N) ∨
      (d.IsFactor ∧ d.isScalar = true) := by
  induction hd generalizing x with
  | factor hd =>
    cases hd with
    | ref t =>
      rw [evaluate, evaluateRef] at h
      obtain ⟨v, hv, h⟩ := bind_eq_ok_iff.mp h
      split_ifs at h with hdup
      · obtain rfl := Except.ok.inj h
        by_cases hN : ∃ N, m.refArray t = some N
        · obtain ⟨N, hN⟩ := hN
          obtain ⟨s, hs, hcount, -⟩ := refArray_eq_some_iff.mp hN
          obtain rfl := Except.ok.inj (hv.symm.trans hs)
          exact Or.inl ⟨_, if_pos hcount⟩
        · exact Or.inr (Or.inl ⟨t, rfl, isEmpty_duplicates_iff.mp hdup, not_exists.mp hN⟩)
      · obtain ⟨operand, -, h⟩ := bind_eq_ok_iff.mp h
        obtain ⟨w, hw, h⟩ := bind_eq_ok_iff.mp h
        obtain rfl := Except.ok.inj h
        exact Or.inl (exists_meaning_of_contractAll hw)
    | scalar s => exact Or.inr (Or.inr ⟨.scalar s, rfl⟩)
    | conj name => exact Or.inr (Or.inr ⟨.conj name, rfl⟩)
  | @pair a b ha hb iha ihb =>
    rw [evaluate_pair] at h
    obtain ⟨y, hy, h⟩ := bind_eq_ok_iff.mp h
    obtain ⟨z, hz, h⟩ := bind_eq_ok_iff.mp h
    have hya := ha.isNormal.hasForm hy
    have hzb := hb.isNormal.hasForm hz
    have htensors : (Diagram.pair a b).tensors = a.tensors ++ b.tensors := by
      rw [tensors, listTensors, List.append_nil]
    cases productForm_of_mul h with
    | scalars => exact Or.inl ⟨_, rfl⟩
    | scaled x labels hlegs =>
      rcases ihb hz with hmeaning | ⟨t, ht, hmultiple⟩ | ⟨-, hs⟩
      · exact Or.inl
          (exists_meaning_iff.mpr ((exists_meaning_iff.mp hmeaning).trans (by rw [hlegs])))
      · exact Or.inr
          (Or.inl ⟨t, by rw [htensors, ht, ha.tensors_of_isScalar hya, List.nil_append], hmultiple⟩)
      · exact absurd hs hzb.1
    | scaledBy x labels hlegs =>
      rcases iha hy with hmeaning | ⟨t, ht, hmultiple⟩ | ⟨-, hs⟩
      · exact Or.inl
          (exists_meaning_iff.mpr ((exists_meaning_iff.mp hmeaning).trans (by rw [hlegs])))
      · exact Or.inr
          (Or.inl ⟨t, by rw [htensors, ht, hb.tensors_of_isScalar hzb, List.append_nil], hmultiple⟩)
      · exact absurd hs hya.1
    | joined s t labels others hcount => exact Or.inl (exists_meaning_iff.mpr hcount)

/-- A monomial with a value means something, as soon as one of its references has a label for each
leg. -/
theorem exists_meaning (hd : d.IsMonomial) {x : Evaluated R} (h : m.evaluate d = .ok x)
    (hproper : ∃ t ∈ d.tensors, ∃ N, m.refArray t = some N) : ∃ v, x.meaning? = some v := by
  obtain ⟨u, hu, N, hN⟩ := hproper
  rcases meaning_or_multiple hd h with hmeaning | ⟨t, ht, -, hnone⟩ | ⟨-, hs⟩
  · exact hmeaning
  · rw [ht, List.mem_singleton] at hu
    exact absurd (hu ▸ hN) (hnone N)
  · rw [hd.tensors_of_isScalar hs] at hu
    cases hu

end Machine

end TensorDiagram
