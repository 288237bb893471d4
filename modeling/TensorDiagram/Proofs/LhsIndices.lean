import TensorDiagram.Proofs.IndexConservation
import TensorDiagram.Proofs.PlanarVerdict

/-!
# The indices of an accepted left hand side

The planarity check compares cyclic orders from which the planar traces have been taken off.  It
accepts an assignment exactly if the legs of the left hand side can be cancelled in pairs of equal
neighbours until an order is left that the right hand side admits
(`IsNormal.checkAssignment_ref_iff`).

Pairs that cancel are not seen by the check, on neither side.  What it does guarantee is parity: an
index is written on the left hand side an odd number of times if and only if it is on the right hand
side.  So an accepted left hand side has the open indices of the right hand side, each of them once,
if no index is repeated on the left and none appears more than twice on the right
(`IsMonomial.accepted_lhs_indices`); the check itself rejects neither
(`accepted_with_cancelling_indices`).
-/

open Relation (ReflTransGen)

namespace TensorDiagram

namespace Circle

variable {α : Type} [DecidableEq α]

/-- Distinct indices leave nothing to cancel. -/
theorem not_cancels_of_nodup {xs : List α} (h : xs.Nodup) (s : Cycle α) :
    ¬ Cancels (↑xs : Cycle α) s := by
  rw [← removeTraces_eq_of_nodup h]
  exact not_cancels_removeTraces xs s

/-- Cancelling a pair keeps the parity with which anything appears. -/
theorem Cancels.count_mod_two {s t : Cycle α} (h : Cancels s t) (x : α) :
    t.toMultiset.count x % 2 = s.toMultiset.count x % 2 := by
  obtain ⟨y, rest, rfl, rfl⟩ := h
  simp only [Cycle.coe_toMultiset, Multiset.coe_count, List.count_cons]
  omega

theorem count_mod_two_of_reduces {s t : Cycle α} (h : ReflTransGen Cancels s t) (x : α) :
    t.toMultiset.count x % 2 = s.toMultiset.count x % 2 := by
  induction h with
  | refl => rfl
  | tail _ hstep ih => exact (hstep.count_mod_two x).trans ih

end Circle

/-- The indices of the reference are distinct and are those that appear once in the expression, and
the expression has no index more than twice. -/
structure TensorRef.HasOpenIndicesOf (t : TensorRef) (d : Diagram) : Prop where
  /-- No index is repeated. -/
  nodup : t.indices.Nodup
  /-- The indices are the open ones. -/
  mem_iff : ∀ i, i ∈ t.indices ↔ d.indexBag.count i = 1
  /-- All other indices of the expression are contracted. -/
  count_le : ∀ i, d.indexBag.count i ≤ 2

namespace Diagram

/-- An assignment to a reference is accepted if the legs of the reference can be cancelled until an
order is left that the right hand side admits. -/
theorem IsNormal.checkAssignment_ref_iff {t : TensorRef} {rhs : Diagram} {isDefinition : Bool}
    (hrhs : rhs.IsNormal) (htensor : rhs.isTensor = true) :
    checkAssignment (.ref t) rhs isDefinition = .ok () ↔
      ∃ order : List Index, ReflTransGen Circle.Cancels (↑t.cyclicOrder : Cycle Index) ↑order ∧
        rhs.Admits order := by
  rw [hrhs.checkAssignment_iff htensor]
  constructor
  · rintro ⟨order, horder, hadm⟩
    obtain ⟨-, rfl⟩ := lhsOrder_ref_eq_ok_iff.mp horder
    exact ⟨_, Circle.reduces_removeTraces t.cyclicOrder, hadm⟩
  · rintro ⟨order, hreduces, hadm⟩
    have hnd : order.Nodup := hrhs.nodup_of_admits hadm
    -- all ways of cancelling end in the same circle
    have hrot : order ~r Circle.removeTraces t.cyclicOrder := Cycle.coe_eq_coe.mp <|
      Circle.eq_of_reduces hreduces (Circle.reduces_removeTraces t.cyclicOrder)
      (Circle.not_cancels_of_nodup hnd)
        (Circle.not_cancels_removeTraces t.cyclicOrder)
    exact ⟨_, lhsOrder_ref_eq_ok_iff.mpr ⟨hrot.nodup_iff.mp hnd, rfl⟩, hadm.rotated hrot⟩

/-- An index that is left after cancelling is one that was there an odd number of times. -/
theorem mem_iff_of_reduces {t : TensorRef} {order : List Index} (hnd : order.Nodup)
    (h : ReflTransGen Circle.Cancels (↑t.cyclicOrder : Cycle Index) ↑order) (i : Index) :
    i ∈ order ↔ t.indices.count i % 2 = 1 := by
  have hparity : order.count i % 2 = t.cyclicOrder.count i % 2 := by
    simpa using Circle.count_mod_two_of_reduces h i
  have hcyclic : t.cyclicOrder.count i = t.indices.count i := t.cyclicOrder_perm.count_eq i
  have hle := List.nodup_iff_count_le_one.mp hnd i
  rw [← List.count_pos_iff]
  omega

/-- The left hand side of an accepted assignment cancels to an order of the indices that appear an
odd number of times on the right hand side, and these are the indices that it has itself an odd
number of times.  It has the open indices of the right hand side if and only if it repeats no index
and no index appears more than twice on the right hand side. -/
theorem IsMonomial.accepted_lhs_indices {t : TensorRef} {rhs : Diagram} {isDefinition : Bool}
    (hrhs : rhs.IsMonomial) (htensor : rhs.isTensor = true)
    (h : checkAssignment (.ref t) rhs isDefinition = .ok ()) :
    (∃ order : List Index, order.Nodup ∧
      ReflTransGen Circle.Cancels (↑t.cyclicOrder : Cycle Index) ↑order ∧
      ∀ i, i ∈ order ↔ rhs.indexBag.count i % 2 = 1) ∧
    (∀ i, t.indices.count i % 2 = rhs.indexBag.count i % 2) ∧
    (t.HasOpenIndicesOf rhs ↔ t.indices.Nodup ∧ ∀ i, rhs.indexBag.count i ≤ 2) := by
  obtain ⟨order, hreduces, hadm⟩ := (hrhs.isNormal.checkAssignment_ref_iff htensor).mp h
  have hnd : order.Nodup := hrhs.isNormal.nodup_of_admits hadm
  have hmem : ∀ i, i ∈ order ↔ rhs.indexBag.count i % 2 = 1 := fun i => by
    rw [hrhs.isNormal.mem_iff_isOpen hadm, hrhs.isOpen_iff]
  have hparity : ∀ i, t.indices.count i % 2 = rhs.indexBag.count i % 2 := fun i => by
    have hiff := (mem_iff_of_reduces hnd hreduces i).symm.trans (hmem i)
    omega
  refine ⟨⟨order, hnd, hreduces, hmem⟩, hparity, fun hopen => ⟨hopen.nodup, hopen.count_le⟩, ?_⟩
  rintro ⟨hdistinct, hcount⟩
  refine ⟨hdistinct, fun i => ?_, hcount⟩
  have hle := List.nodup_iff_count_le_one.mp hdistinct i
  have hodd := hparity i
  have htwo := hcount i
  rw [← List.count_pos_iff]
  omega

/-- A product with a scalar factor, a trace and a contraction. -/
theorem accepted_lhs_indices_tracedPair :
    tracedPair.isTensor = true ∧
    checkAssignment (.ref ⟨.name "E", [.number 1], [.number 3], false⟩) tracedPair true = .ok () ∧
    TensorRef.HasOpenIndicesOf ⟨.name "E", [.number 1], [.number 3], false⟩ tracedPair := by
  have htensor : tracedPair.isTensor = true := rfl
  have hcheck : checkAssignment (.ref ⟨.name "E", [.number 1], [.number 3], false⟩) tracedPair
    true = .ok () := rfl
  have hmonomial : tracedPair.IsMonomial :=
    .pair (.pair (.factor (.scalar _)) (.factor (.ref _))) (.factor (.ref _))
  have hopen := (hmonomial.accepted_lhs_indices htensor hcheck).2.2
  exact ⟨htensor, hcheck, hopen.mpr ⟨by decide, count_indexBag_le (by decide)⟩⟩

/-- Pairs that cancel are accepted on the left hand side, although its indices are then repeated and
are not on the right hand side, and an index that appears three times in a tensor is accepted as an
open one. -/
theorem accepted_with_cancelling_indices :
    (checkAssignment (.ref ⟨.name "E", [.name "a", .name "b", .name "b"], [], false⟩)
        (.ref ⟨.name "A", [.name "a"], [], false⟩) true = .ok () ∧
      ¬ TensorRef.HasOpenIndicesOf ⟨.name "E", [.name "a", .name "b", .name "b"], [], false⟩
        (.ref ⟨.name "A", [.name "a"], [], false⟩)) ∧
    (checkAssignment (.ref ⟨.name "E", [.name "a"], [], false⟩)
        (.ref ⟨.name "A", [.name "a", .name "a", .name "a"], [], false⟩) true = .ok () ∧
      ¬ TensorRef.HasOpenIndicesOf ⟨.name "E", [.name "a"], [], false⟩
        (.ref ⟨.name "A", [.name "a", .name "a", .name "a"], [], false⟩)) := by
  refine ⟨⟨rfl, fun h => ?_⟩, rfl, fun h => ?_⟩
  · exact absurd h.nodup (by decide)
  · exact absurd (h.count_le (.name "a")) (by decide)

end Diagram

end TensorDiagram
