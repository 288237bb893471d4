import TensorDiagram.Proofs.Braidings
import TensorDiagram.Proofs.Programs

/-!
# Products with and without braidings

A product with braidings is evaluated in two ways.  Either its braidings are bound to tensors, or
they are dropped from the product once the indices at the ends of their strands are identified.

The tensor of a braiding is the product of two wires (`HasCrossing.exists_wires`), so the first
product is one of other factors and wires.  In the second product these factors have other indices.
Wires do nothing but identify indices, hence both products mean the same (`Untangles.toArray_eq`).
-/

namespace TensorDiagram

variable {d : Diagram} {i : Index}

/-! ## Products without braidings -/

namespace Diagram

variable {braidingName : String}

/-- The braiding among replaced references is the replaced braiding. -/
theorem braidingTerm?_mapRefs {f : TensorRef → TensorRef}
    (hf : ∀ t, (f t).isBraiding braidingName = t.isBraiding braidingName) (d : Diagram) :
    (d.mapRefs f).braidingTerm? braidingName = (d.braidingTerm? braidingName).map f := by
  have hterm : ∀ t : TensorRef, (if (f t).isBraiding braidingName then some (f t) else none) =
      (if t.isBraiding braidingName then some t else none).map f := by
    intro t
    rw [hf]
    split_ifs <;> rfl
  cases d with
  | ref t => exact hterm t
  | conj a =>
    cases a with
    | ref t => exact hterm t
    | _ => rfl
  | _ => rfl

/-- The references of the factors that are no braidings. -/
theorem flatMap_tensors_filter {xs : List Diagram} (hxs : ∀ x ∈ xs, x.IsFactor) :
    (xs.filter fun x => (x.braidingTerm? braidingName).isNone).flatMap tensors =
      (xs.flatMap tensors).filter fun t => !t.isBraiding braidingName := by
  induction xs with
  | nil => rfl
  | cons x xs ih =>
    obtain ⟨hx, hxs⟩ := List.forall_mem_cons.mp hxs
    rw [List.flatMap_cons, List.filter_append, ← ih hxs]
    rcases hx.braiding_cases braidingName with ⟨hterm, hnone⟩ | ⟨t, rfl, hbraiding⟩
    · have hall : (x.tensors.filter fun t => !t.isBraiding braidingName) = x.tensors :=
        List.filter_eq_self.mpr fun t ht => by simpa using hnone t ht
      rw [List.filter_cons_of_pos (by rw [hterm]; rfl), List.flatMap_cons, hall]
    · rw [List.filter_cons_of_neg (by simp [braidingTerm?, hbraiding]), tensors,
        List.filter_singleton, hbraiding]
      rfl

/-- An open index of a product is one of its indices. -/
theorem IsMonomial.exists_of_isOpen (hd : d.IsMonomial) (h : d.isOpen i = true) :
    ∃ t ∈ d.tensors, i ∈ t.indices := by
  induction hd with
  | factor hd =>
    cases hd with
    | ref t =>
      have hodd : t.indices.count i % 2 = 1 := of_decide_eq_true h
      exact ⟨t, List.mem_singleton_self t, List.count_pos_iff.mp (by omega)⟩
    | scalar s => cases h
    | conj name => cases h
  | @pair a b ha hb iha ihb =>
    have hor : a.isOpen i = true ∨ b.isOpen i = true := by
      rw [isOpen] at h
      revert h
      cases a.isOpen i <;> cases b.isOpen i <;> simp
    have hmem : ∀ t, t ∈ (Diagram.pair a b).tensors ↔ t ∈ a.tensors ∨ t ∈ b.tensors := by
      simp [tensors, listTensors]
    rcases hor with hor | hor
    · obtain ⟨t, ht, hi⟩ := iha hor
      exact ⟨t, (hmem t).mpr (Or.inl ht), hi⟩
    · obtain ⟨t, ht, hi⟩ := ihb hor
      exact ⟨t, (hmem t).mpr (Or.inr ht), hi⟩

theorem HasNoSum.mapRefs (hd : d.HasNoSum) (f : TensorRef → TensorRef) :
    (d.mapRefs f).HasNoSum := by
  induction hd with
  | ref t => exact .ref _
  | scalar s => exact .scalar s
  | conj _ ih => exact .conj ih
  | @product a b rest _ _ _ iha ihb ihrest =>
    rw [Diagram.mapRefs, mapRefsList_eq]
    exact .product iha ihb (List.forall_mem_map.mpr ihrest)

/-- An expression keeps its indices if its references do. -/
theorem indexBag_mapRefs {f : TensorRef → TensorRef}
    (hf : ∀ t ∈ d.tensors, (f t).indices = t.indices) : (d.mapRefs f).indexBag = d.indexBag := by
  rw [indexBag, indexBag, tensors_mapRefs, List.flatMap_map]
  exact congrArg _ (List.flatMap_congr hf)

section

variable {d d' : Diagram} {r : Index → Index} (hd : d.IsMonomial)
  (h : (d.mapIndices r).remainder braidingName = .ok (some d'))

include hd h

/-- The factors that remain once indices are replaced. -/
theorem IsMonomial.factors_remainder : d'.factors =
    (d.factors.filter fun x => (x.braidingTerm? braidingName).isNone).map (mapIndices r) := by
  obtain ⟨-, hfactors, -⟩ := (hd.mapRefs _).remainder_spec h
  rw [Option.toList_some, List.flatMap_singleton, hd.factors_mapRefs, List.filter_map] at hfactors
  rw [hfactors]
  refine congrArg (List.map _) (List.filter_congr fun x _ => ?_)
  rw [Function.comp_apply, braidingTerm?_mapRefs (f := TensorRef.mapIndices r) fun _ => rfl,
    Option.isNone_map]

/-- The references that remain once indices are replaced. -/
theorem IsMonomial.tensors_remainder : d'.tensors =
    (d.tensors.filter fun t => !t.isBraiding braidingName).map (TensorRef.mapIndices r) := by
  have hd' : d'.IsMonomial := ((hd.mapRefs _).remainder_spec h).1 d' rfl
  rw [hd'.tensors_eq, hd.factors_remainder h, hd.tensors_eq, ← flatMap_tensors_filter hd.isFactor,
    List.flatMap_map, List.map_flatMap]
  exact List.flatMap_congr fun x _ => tensors_mapRefs _ _

end

end Diagram

/-! ## Products with braidings -/

namespace Machine

open Diagram TensorRef

variable {R : Type} [CommRing R] [StarRing R] [Arithmetic R] [Arithmetic.IsExact R]
  {braidingName : String}
variable {m m' : Machine R} {t : TensorRef}

/-- The handle is bound to a braiding. -/
def HasCrossing (m : Machine R) (handle : Handle) : Prop :=
  ∃ v w t, m.bound.find? (.handle handle) = some (.tensor t) ∧ t.IsCrossing v w

/-- A reference to a braiding is two wires. -/
theorem HasCrossing.exists_wires {handle : Handle} (h : m.HasCrossing handle) {s : Strand × Strand}
    (hs : t.strands braidingName = .ok s) :
    ∃ v w, m.refArray (t.withObject (.handle handle)) =
      some (Wire.arrays {⟨s.1.1, s.1.2, v⟩, ⟨s.2.1, s.2.2, w⟩}) := by
  obtain ⟨v, w, u, hbound, hu⟩ := h
  have hreferent : m.referent (.handle handle) t.isAdjoint =
      .ok (.tensor (if t.isAdjoint then u.adjoint else u)) := by
    have hlookup : m.lookup (.handle handle) = .ok (.tensor u) := by
      simp only [lookup, hbound]
    rw [referent, hlookup]
    cases t.isAdjoint <;> rfl
  have harray : ∀ {x y : Space} {l₁ l₂ r₁ r₂ : Index} {u : Tensor R}, u.IsCrossing x y →
      t.indices = [l₁, l₂, r₁, r₂] → m.referent (.handle handle) t.isAdjoint = .ok (.tensor u) →
      m.refArray (t.withObject (.handle handle)) = some (.wire r₁ l₂ x * .wire r₂ l₁ y) := by
    intro x y l₁ l₂ r₁ r₂ u hu hindices hreferent
    refine refArray_eq_some_iff.mpr ⟨u, hreferent, ?_, ?_⟩
    · change t.indices.length = _
      rw [hindices, hu.legs_eq]
      rfl
    · change _ = u.toArray t.indices
      rw [hindices, hu.toArray_eq]
  have hpair : ∀ a b : Wire, (Wire.arrays {a, b} : LegArray R) = a.toArray * b.toArray := by
    intro a b
    rw [Wire.arrays, Multiset.insert_eq_cons, Multiset.map_cons, Multiset.map_singleton,
      Multiset.prod_cons, Multiset.prod_singleton]
  rw [strands] at hs
  split at hs
  · rename_i l₁ l₂ r₁ r₂ hl hr
    have hindices : t.indices = [l₁, l₂, r₁, r₂] := by
      rw [TensorRef.indices, hl, hr]
      rfl
    split_ifs at hs with hadjoint <;> obtain rfl := Except.ok.inj hs
    · rw [if_pos hadjoint] at hreferent
      refine ⟨v, w, ?_⟩
      rw [harray hu.adjoint hindices hreferent, hpair, mul_comm]
      rfl
    · rw [if_neg hadjoint] at hreferent
      refine ⟨v, w, ?_⟩
      rw [harray hu hindices hreferent, hpair]
      rfl
  · cases hs

/-- How braidings are replaced by the handles that they are bound to. -/
structure Resolves (m : Machine R) (braidingName : String) (f : TensorRef → TensorRef)
    (ts : List TensorRef) : Prop where
  /-- All other references stay. -/
  other : ∀ t ∈ ts, ¬ t.isBraiding braidingName = true → f t = t
  /-- The handles are bound to braidings. -/
  braiding : ∀ t ∈ ts, t.isBraiding braidingName = true →
    ∃ handle s, f t = t.withObject (.handle handle) ∧
    m.HasCrossing handle ∧ t.strands braidingName = .ok s

/-- The braidings of a product are wires between its other factors. -/
theorem Resolves.exists_wires {f : TensorRef → TensorRef} {xs : List Diagram}
    (hf : m.Resolves braidingName f (xs.flatMap tensors)) (hxs : ∀ x ∈ xs, x.IsFactor)
    {Ns : List (LegArray R)}
    (h : List.Forall₂ (fun x N => m.factorArray x = some N) (xs.map (mapRefs f)) Ns) :
    ∃ As wires, List.Forall₂ (fun x N => m.factorArray x = some N)
        (xs.filter fun x => (x.braidingTerm? braidingName).isNone) As ∧
      Ns.prod = As.prod * Wire.arrays wires ∧
      ∀ e, IsStrandOf braidingName ((xs.flatMap tensors).filter fun t =>
        t.isBraiding braidingName) e ↔ ∃ w ∈ wires, e = (w.first, w.last) := by
  induction xs generalizing Ns with
  | nil =>
    obtain rfl := List.forall₂_nil_left_iff.mp h
    exact ⟨[], 0, .nil, by rw [Wire.arrays_zero, mul_one], by simp [IsStrandOf]⟩
  | cons x xs ih =>
    obtain ⟨hx, hxs⟩ := List.forall_mem_cons.mp hxs
    obtain ⟨N, Ns, hN, hNs, rfl⟩ := List.forall₂_cons_left_iff.mp h
    rw [List.flatMap_cons] at hf ⊢
    obtain ⟨As, wires, hAs, hprod, hwires⟩ :=
      ih ⟨fun t ht => hf.other t (List.mem_append_right _ ht),
      fun t ht => hf.braiding t (List.mem_append_right _ ht)⟩ hxs hNs
    rw [List.prod_cons, hprod, List.filter_append]
    rcases hx.braiding_cases braidingName with ⟨hterm, hnone⟩ | ⟨t, rfl, hbraiding⟩
    · have hstay : x.mapRefs f = x :=
        hx.mapRefs_eq fun t ht => hf.other t (List.mem_append_left _ ht) (hnone t ht)
      have hfilter : (x.tensors.filter fun t => t.isBraiding braidingName) = [] :=
        List.filter_eq_nil_iff.mpr hnone
      rw [hstay] at hN
      refine ⟨N :: As, wires, ?_, ?_, ?_⟩
      · rw [List.filter_cons_of_pos (by rw [hterm]; rfl)]
        exact .cons hN hAs
      · rw [List.prod_cons, mul_assoc]
      · rwa [hfilter]
    · obtain ⟨handle, s, hft, hcrossing, hs⟩ :=
        hf.braiding t (List.mem_append_left _ (List.mem_singleton_self t)) hbraiding
      obtain ⟨v, w, hwire⟩ := hcrossing.exists_wires hs
      have hN : m.refArray (f t) = some N := hN
      rw [hft, hwire] at hN
      obtain rfl := Option.some.inj hN
      refine ⟨As, {⟨s.1.1, s.1.2, v⟩, ⟨s.2.1, s.2.2, w⟩} + wires, ?_, ?_, ?_⟩
      · rwa [List.filter_cons_of_neg (by simp [braidingTerm?, hbraiding])]
      · rw [Wire.arrays_add, mul_left_comm]
      · intro e
        rw [tensors, List.filter_singleton, hbraiding, cond_true, List.singleton_append, IsStrandOf,
          List.exists_mem_cons_iff]
        simp only [hs, Except.ok.injEq, exists_eq_left', Multiset.mem_add, or_and_right,
          exists_or, ← hwires e, Multiset.insert_eq_cons, Multiset.mem_cons, Multiset.mem_singleton,
          exists_eq_left, Prod.mk.eta]
        rfl

omit [StarRing R] [Arithmetic.IsExact R] in
/-- All references of a product with arrays have arrays. -/
theorem exists_refArray_of_mem (hd : d.IsMonomial) {Ns : List (LegArray R)}
    (h : List.Forall₂ (fun x N => m.factorArray x = some N) d.factors Ns) (ht : t ∈ d.tensors) :
    ∃ N, m.refArray t = some N := by
  rw [hd.tensors_eq] at ht
  obtain ⟨x, hx, ht⟩ := List.mem_flatMap.mp ht
  have harrays : List.Forall₂ (fun _ x => ∃ N, m.factorArray x = some N) Ns d.factors :=
    h.flip.imp fun N x hN => ⟨N, hN⟩
  obtain ⟨N, hN⟩ := forall_mem_of_forall₂ harrays x hx
  cases hd.isFactor x hx with
  | ref u =>
    obtain rfl := List.mem_singleton.mp ht
    exact ⟨N, hN⟩
  | scalar s => cases ht
  | conj name => cases ht

/-- An array has other labels once its reference has other indices. -/
theorem factorArray_mapIndices (hm : m.AgreesOn IsBoundObject m') {x : Diagram} (hx : x.IsFactor)
    (huses : x.Uses IsBoundObject) {N : LegArray R} (hN : m'.factorArray x = some N)
    (r : Index → Index) : m.factorArray (x.mapIndices r) = some (N.mapLabels r) := by
  have hscalar : x.isScalar = true → x.mapIndices r = x →
      m.factorArray (x.mapIndices r) = some (N.mapLabels r) := by
    intro hs hstay
    obtain ⟨y, hy, rfl⟩ := factorArray_of_isScalar hx.isNormal hs hN
    rw [hstay, LegArray.mapLabels_const, factorArray, hm.denote_eq hx.isNormal huses, hy]
    · rfl
    · rintro t rfl
      cases hs
  cases hx with
  | ref t =>
    change m.refArray (t.mapIndices r) = _
    have hN : m'.refArray t = some N := hN
    rw [refArray_mapIndices, hm.refArray_eq (uses_ref.mp huses), hN, Option.map_some]
  | scalar s => exact hscalar rfl rfl
  | conj name => exact hscalar rfl rfl

/-- The labels of the value of a product are among its indices. -/
theorem exists_of_mem_labels (hd : d.IsMonomial) {N : LegArray R} (h : m.denote d = some (.array N))
    (hi : i ∈ N.labels) : ∃ t ∈ d.tensors, i ∈ t.indices := by
  obtain ⟨t, labels, ht, hcount, rfl⟩ := exists_of_denote_eq h
  rw [Tensor.labels_toArray hcount, Multiset.mem_coe] at hi
  obtain ⟨-, -, hopen⟩ := hd.isNormal.hasForm ht
  exact hd.exists_of_isOpen ((hopen i).mp hi)

/-- The indices of an assigned tensor lead to factors that are no braidings. -/
theorem exists_of_assign_remainder {d' : Diagram} {r : Index → Index} (hd : d.IsMonomial)
    (hremainder : (d.mapIndices r).remainder braidingName = .ok (some d')) {isDefinition : Bool}
    (hrun : m.assign (.ref (t.mapIndices r)) d' isDefinition = .ok m') (hi : i ∈ t.indices) :
    ∃ u ∈ d.tensors, ¬ u.isBraiding braidingName = true ∧ ∃ j ∈ u.indices, r i = r j := by
  obtain ⟨w, hw, -⟩ := bind_eq_ok_iff.mp hrun
  have hd' : d'.IsMonomial := ((hd.mapRefs _).remainder_spec hremainder).1 d' rfl
  obtain ⟨N, hN, harranged⟩ := denote_of_arrangedValue hd'.isNormal hw
  have hindices : ∀ u : TensorRef, (u.mapIndices r).indices = u.indices.map r :=
    fun u => (List.map_append ..).symm
  have hri : r i ∈ N.labels := by
    rw [← harranged.labels_eq, hindices]
    exact Multiset.mem_coe.mpr (List.mem_map_of_mem hi)
  obtain ⟨u', hu', hiu⟩ := exists_of_mem_labels hd' hN hri
  rw [hd.tensors_remainder hremainder] at hu'
  obtain ⟨u, hu, rfl⟩ := List.mem_map.mp hu'
  obtain ⟨hu, hother⟩ := List.mem_filter.mp hu
  rw [hindices] at hiu
  obtain ⟨j, hj, hij⟩ := List.mem_map.mp hiu
  exact ⟨u, hu, by simpa using hother, j, hj, hij.symm⟩

/-- The scalar that is assigned, as soon as one reference of the product has a label for each
leg. -/
theorem exists_of_assignScalar (hd : d.IsMonomial)
    (hproper : ∃ t ∈ d.tensors, ∃ N, m.refArray t = some N) {s : Scalar}
    (h : m.assignScalar s d = .ok m') :
    ∃ N, m.denote d = some (.array N) ∧ m' = m.yield (.ofScalar s)
      (.scalar (N.entry fun _ => 0)) := by
  rw [Evaluated.assignScalar_eq] at h
  obtain ⟨x, hx, h⟩ := bind_eq_ok_iff.mp h
  obtain ⟨w, hw, h⟩ := bind_eq_ok_iff.mp h
  obtain rfl := Except.ok.inj h
  obtain ⟨u, hu⟩ := exists_meaning hd hx hproper
  have hscalar : ¬ d.isScalar = true := by
    intro hs
    obtain ⟨t, ht, -⟩ := hproper
    rw [hd.tensors_of_isScalar hs] at ht
    cases ht
  obtain ⟨v, labels, rfl⟩ := (hd.isNormal.hasForm hx).exists_labelled hscalar
  have hsettled : (Evaluated.labelled v labels).IsSettled := by
    obtain ⟨N, rfl⟩ := Evaluated.exists_array_of_labelled hu
    obtain ⟨t, labels', heq, hcount, -⟩ := Evaluated.meaning?_eq_array_iff.mp hu
    rw [heq]
    exact Or.inr hcount
  obtain ⟨N, hN, -, rfl⟩ := (Evaluated.assigned_eq_ok_iff hsettled).mp hw
  exact ⟨N, by rw [denote, hx, Evaluated.outcome?_ok, hN], rfl⟩

/-- The function has the same values at both ends of all strands. -/
def ConstantOnStrands {α : Type} (braidingName : String) (d : Diagram) (g : Index → α) : Prop :=
  ∀ e, IsStrandOf braidingName (d.tensors.filter fun t => t.isBraiding braidingName) e →
    g e.1 = g e.2

/-- Two ways to get rid of the braidings of a product: they are bound to tensors, or they are
dropped once the ends of their strands are identified. -/
structure Untangles (m : Machine R) (braidingName : String) (d : Diagram)
    (f : TensorRef → TensorRef) (r : Index → Index) (d' : Diagram) : Prop where
  /-- The product. -/
  isMonomial : d.IsMonomial
  /-- No index appears more than twice. -/
  count_le : ∀ i, d.indexBag.count i ≤ 2
  /-- Its other factors. -/
  uses : ∀ t ∈ d.tensors, ¬ t.isBraiding braidingName = true → IsBoundObject t.object
  /-- The braidings are bound to tensors. -/
  resolves : m.Resolves braidingName f d.tensors
  /-- The braidings are dropped. -/
  remainder : (d.mapIndices r).remainder braidingName = .ok (some d')
  /-- Only ends of strands are identified. -/
  identified : ∀ {α : Type} (g : Index → α), ConstantOnStrands braidingName d g → ∀ i, g (r i) = g i
  /-- All strands lead to other factors. -/
  anchored : ∀ P : Index → Prop, ConstantOnStrands braidingName d P →
    (∀ t ∈ d.tensors, ¬ t.isBraiding braidingName = true → ∀ i ∈ t.indices, P i) →
    ∀ e, IsStrandOf braidingName (d.tensors.filter fun t => t.isBraiding braidingName) e → P e.1

namespace Untangles

variable {m m' : Machine R} {d d' : Diagram} {f : TensorRef → TensorRef} {r : Index → Index}
  (h : m'.Untangles braidingName d f r d')

include h

omit [StarRing R] [Arithmetic.IsExact R] in
theorem isMonomial_remainder : d'.IsMonomial :=
  ((h.isMonomial.mapRefs _).remainder_spec h.remainder).1 d' rfl

omit [StarRing R] [Arithmetic.IsExact R] in
/-- The ends of all strands are identified. -/
theorem constantOnStrands : ConstantOnStrands braidingName d r := by
  rintro e ⟨t, ht, s, hs, he⟩
  obtain ⟨ht, hbraiding⟩ := List.mem_filter.mp ht
  obtain ⟨-, -, hremovable⟩ := (h.isMonomial.mapRefs _).remainder_spec h.remainder
  have hmem : t.mapIndices r ∈ (d.mapRefs (TensorRef.mapIndices r)).tensors := by
    rw [tensors_mapRefs]
    exact List.mem_map_of_mem ht
  have hends := eq_of_checkRemovable (hremovable _ hmem hbraiding) hs
  rcases he with rfl | rfl
  · exact hends.1
  · exact hends.2

omit [StarRing R] [Arithmetic.IsExact R] in
theorem indexBag_mapRefs : (d.mapRefs f).indexBag = d.indexBag := by
  refine Diagram.indexBag_mapRefs fun t ht => ?_
  by_cases hbraiding : t.isBraiding braidingName = true
  · obtain ⟨handle, s, hft, -⟩ := h.resolves.braiding t ht hbraiding
    rw [hft]
    rfl
  · rw [h.resolves.other t ht hbraiding]

/-- The factors that remain, with the ends of wires identified. -/
theorem exists_arrays (hm : m.AgreesOn IsBoundObject m') {v : Meaning R}
    (hv : m'.denote (d.mapRefs f) = some v) :
    ∃ Ns, List.Forall₂ (fun x N => m.factorArray x = some N) d'.factors Ns ∧ Ns.prod.Joinable ∧
      Ns.prod.contract = v.toArray.mapLabels r := by
  have hd := h.isMonomial
  obtain ⟨Ns, hNs, hjoin, hcontract⟩ :=
    Machine.exists_arrays (hd.mapRefs f) (by rw [h.indexBag_mapRefs]; exact h.count_le) hv
  rw [hd.factors_mapRefs] at hNs
  obtain ⟨As, wires, hAs, hprod, hwires⟩ :=
    Resolves.exists_wires (hd.tensors_eq ▸ h.resolves) hd.isFactor hNs
  rw [← hd.tensors_eq] at hwires
  rw [hprod] at hjoin hcontract
  have hconstant : ∀ {α : Type} (g : Index → α),
      Wire.Constant g wires ↔ ConstantOnStrands braidingName d g := by
    intro α g
    refine ⟨fun hg e he => ?_, fun hg w hw => hg _ ((hwires _).mpr ⟨w, hw, rfl⟩)⟩
    obtain ⟨w, hw, rfl⟩ := (hwires e).mp he
    exact hg w hw
  have hfactors : ∀ x ∈ d.factors.filter (fun x => (x.braidingTerm? braidingName).isNone),
      x.IsFactor :=
    fun x hx => hd.isFactor x (List.mem_filter.mp hx).1
  have htensors : (d.factors.filter fun x => (x.braidingTerm? braidingName).isNone).flatMap
      tensors = d.tensors.filter fun t => !t.isBraiding braidingName := by
    rw [hd.tensors_eq, flatMap_tensors_filter hd.isFactor]
  have hattached : Wire.Attached wires As.prod := by
    intro P hP hlabels w hw
    refine h.anchored P ((hconstant P).mp hP) (fun t ht hbraiding i hi => hlabels i ?_) _
      ((hwires _).mpr ⟨w, hw, rfl⟩)
    rw [labels_prod_factorArrays hfactors hAs, htensors]
    exact Multiset.mem_coe.mpr
      (List.mem_flatMap.mpr ⟨t, List.mem_filter.mpr ⟨ht, by simpa using hbraiding⟩, hi⟩)
  have hidentifies : Wire.Identifies r wires (As.prod * Wire.arrays wires).labels := by
    intro g hg k _ l _ hkl
    have hg := h.identified g ((hconstant g).mp hg)
    rw [← hg k, hkl, hg l]
  obtain ⟨hjoin', hcontract'⟩ :=
    Wire.contract_arrays hjoin ((hconstant r).mpr h.constantOnStrands) hidentifies hattached
  refine ⟨As.map (LegArray.mapLabels r), ?_, ?_, ?_⟩
  · rw [hd.factors_remainder h.remainder, List.forall₂_map_left_iff, List.forall₂_map_right_iff]
    have huses : ∀ x ∈ d.factors.filter (fun x => (x.braidingTerm? braidingName).isNone),
        x.Uses IsBoundObject := by
      intro x hx t ht
      have hmem := List.mem_flatMap.mpr ⟨x, hx, ht⟩
      rw [htensors, List.mem_filter] at hmem
      exact h.uses t hmem.1 (by simpa using hmem.2)
    have hall :=
      (List.forall₂_and_left _ _).mpr ⟨fun x hx => And.intro (hfactors x hx) (huses x hx), hAs⟩
    exact hall.imp fun x N hx => factorArray_mapIndices hm hx.1.1 hx.1.2 hx.2 r
  · rwa [LegArray.prod_map_mapLabels]
  · rw [LegArray.prod_map_mapLabels, hcontract', hcontract]

/-- Both products mean the same, up to the names of the indices. -/
theorem toArray_eq (hm : m.AgreesOn IsBoundObject m') {u v : Meaning R} (hu : m.denote d' = some u)
    (hv : m'.denote (d.mapRefs f) = some v) : u.toArray = v.toArray.mapLabels r := by
  have hd' := h.isMonomial_remainder
  obtain ⟨Ns, hNs, hjoin, hcontract⟩ := h.exists_arrays hm hv
  obtain ⟨Ms, hMs, -, hu⟩ := Machine.exists_arrays hd'
    (fun i => by rw [← labels_prod_factors hd' hNs]; exact hjoin.count_le i) hu
  obtain rfl : Ms = Ns :=
    List.right_unique_forall₂' (fun x N M hN hM => Option.some.inj (hN.symm.trans hM)) hMs hNs
  rw [hu, hcontract]

/-- A tensor is assigned the same. -/
theorem assign_ref (hm : m.AgreesOn IsBoundObject m') {isDefinition : Bool} {m₁ m₁' : Machine R}
    (hrun : m.assign (.ref (t.mapIndices r)) d' isDefinition = .ok m₁)
    (hrun' : m'.assign (.ref t) (d.mapRefs f) isDefinition = .ok m₁') :
    m₁.AgreesOn IsBoundObject m₁' := by
  obtain ⟨w, hw, hrun⟩ := bind_eq_ok_iff.mp hrun
  obtain ⟨w', hw', hrun'⟩ := bind_eq_ok_iff.mp hrun'
  obtain rfl := Except.ok.inj hrun
  obtain rfl := Except.ok.inj hrun'
  obtain ⟨N, hN, harranged⟩ := denote_of_arrangedValue h.isMonomial_remainder.isNormal hw
  obtain ⟨N', hN', harranged'⟩ := denote_of_arrangedValue (h.isMonomial.mapRefs f).isNormal hw'
  have hindices : (t.mapIndices r).indices = t.indices.map r := (List.map_append ..).symm
  have hrenamed : IsArranged (t.mapIndices r) N w' := by
    refine ⟨?_, ?_, ?_, harranged.nodup⟩
    · rw [hindices, ← Tensor.mapLabels_toArray, harranged'.array_eq]
      exact (h.toArray_eq hm hN hN').symm
    · rw [harranged'.outputs, TensorRef.mapIndices, List.length_map]
    · rw [hindices, List.length_map, harranged'.count_eq]
  have hagrees := harranged.agrees hrenamed
  refine hm.bind t.object (.tensor ?_)
  change (if t.isAdjoint then w.adjoint else w).Agrees (if t.isAdjoint then w'.adjoint else w')
  split_ifs
  · exact hagrees.adjoint
  · exact hagrees

omit [StarRing R] [Arithmetic.IsExact R] in
/-- Some factor remains of a product with braidings. -/
theorem exists_mem_tensors (hbraiding : ∃ t ∈ d.tensors, t.isBraiding braidingName = true) :
    ∃ t, t ∈ d'.tensors := by
  by_contra hnone
  push Not at hnone
  obtain ⟨t, ht, hbraiding⟩ := hbraiding
  obtain ⟨-, s, -, -, hs⟩ := h.resolves.braiding t ht hbraiding
  refine h.anchored (fun _ => False) (fun e _ => rfl) (fun u hu hother i _ => ?_) s.1
    ⟨t, List.mem_filter.mpr ⟨ht, hbraiding⟩, s, hs, Or.inl rfl⟩
  refine hnone (u.mapIndices r) ?_
  rw [h.isMonomial.tensors_remainder h.remainder]
  exact List.mem_map_of_mem (List.mem_filter.mpr ⟨hu, by simpa using hother⟩)

/-- A scalar is assigned the same. -/
theorem assign_scalar (hm : m.AgreesOn IsBoundObject m')
    (hbraiding : ∃ t ∈ d.tensors, t.isBraiding braidingName = true) {s : Scalar}
    {m₁ m₁' : Machine R} (hrun : m.assignScalar s d' = .ok m₁)
    (hrun' : m'.assignScalar s (d.mapRefs f) = .ok m₁') : m₁.AgreesOn IsBoundObject m₁' := by
  have hproper' : ∃ t ∈ (d.mapRefs f).tensors, ∃ N, m'.refArray t = some N := by
    obtain ⟨t, ht, hbraiding⟩ := hbraiding
    obtain ⟨handle, s, hft, hcrossing, hs⟩ := h.resolves.braiding t ht hbraiding
    obtain ⟨v, w, hwires⟩ := hcrossing.exists_wires hs
    refine ⟨f t, ?_, _, hft ▸ hwires⟩
    rw [tensors_mapRefs]
    exact List.mem_map_of_mem ht
  obtain ⟨N', hN', rfl⟩ := exists_of_assignScalar (h.isMonomial.mapRefs f) hproper' hrun'
  have hproper : ∃ t ∈ d'.tensors, ∃ N, m.refArray t = some N := by
    obtain ⟨t, ht⟩ := h.exists_mem_tensors hbraiding
    obtain ⟨Ns, hNs, -⟩ := h.exists_arrays hm hN'
    exact ⟨t, ht, exists_refArray_of_mem h.isMonomial_remainder hNs ht⟩
  obtain ⟨N, hN, rfl⟩ := exists_of_assignScalar h.isMonomial_remainder hproper hrun
  refine hm.yield _ ?_
  have hentry : N.entry (fun _ => 0) = N'.entry fun _ => 0 := by
    have hNN' : N = N'.mapLabels r := h.toArray_eq hm hN hN'
    rw [hNN', LegArray.entry_mapLabels]
    rfl
  rw [hentry]
  exact .refl _

end Untangles

end Machine

end TensorDiagram
