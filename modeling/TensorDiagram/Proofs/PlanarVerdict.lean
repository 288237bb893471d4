import TensorDiagram.Proofs.Agreement
import TensorDiagram.Proofs.Lowering
import TensorDiagram.Proofs.TraceRemoval

/-!
# The planarity verdict depends on cyclic orders only

An expression is rearranged if references are turned, that is written with other outputs and inputs
but with the legs in the same order around the tensor, if the factors of products are exchanged, and
if the terms of sums are permuted.

The search for admissible orders goes from left to right and starts every list of legs at a certain
place.  Up to rotation it finds the same orders of an expression that is rearranged
(`Rearranges.admits`), so whether an assignment is found planar does not change
(`checkPlanar_rearranged`).
-/

namespace TensorDiagram

namespace Diagram

variable {order : List Index} {lhs lhs' : Diagram} {t : TensorRef}

/-- The expression is written in another way: with references turned, factors exchanged and terms
permuted, anywhere in it. -/
inductive Rearranges : Diagram → Diagram → Prop
  /-- Nothing is changed. -/
  | refl (d : Diagram) : Rearranges d d
  /-- One change after another. -/
  | trans {a b c : Diagram} (h : Rearranges a b) (h' : Rearranges b c) : Rearranges a c
  /-- The same tensor with other outputs and inputs, in the same order around it. -/
  | turned {t t' : TensorRef} (hobject : t'.object = t.object)
      (hadjoint : t'.isAdjoint = t.isAdjoint) (horder : t.cyclicOrder ~r t'.cyclicOrder) :
      Rearranges (.ref t) (.ref t')
  /-- The factors of a product are exchanged. -/
  | swapped (a b : Diagram) : Rearranges (.pair a b) (.pair b a)
  /-- The terms of a sum are permuted together with their signs. -/
  | permuted {sign sign' : Sign} {a a' : Diagram} {rest rest' : List (Sign × Diagram)}
      (h : ((sign, a) :: rest).Perm ((sign', a') :: rest')) :
      Rearranges (.sum sign a rest) (.sum sign' a' rest')
  /-- The factors of a product are rearranged. -/
  | pair {a a' b b' : Diagram} (ha : Rearranges a a') (hb : Rearranges b b') :
      Rearranges (.pair a b) (.pair a' b')
  /-- The first term of a sum is rearranged.  Any other one can be brought to the front. -/
  | firstTerm {sign : Sign} {a a' : Diagram} {rest : List (Sign × Diagram)} (ha : Rearranges a a') :
      Rearranges (.sum sign a rest) (.sum sign a' rest)

theorem Rearranges.symm {d d' : Diagram} (h : Rearranges d d') : Rearranges d' d := by
  induction h with
  | refl d => exact .refl d
  | trans _ _ ih ih' => exact .trans ih' ih
  | turned hobject hadjoint horder => exact .turned hobject.symm hadjoint.symm horder.symm
  | swapped a b => exact .swapped b a
  | permuted h => exact .permuted h.symm
  | pair _ _ iha ihb => exact .pair iha ihb
  | firstTerm _ ih => exact .firstTerm ih

/-! ## References -/

/-- A reference admits the order of its legs without planar traces, if no other trace is left. -/
theorem admits_ref_iff : (ref t).Admits order ↔
    (Circle.removeTraces t.cyclicOrder).Nodup ∧ Circle.removeTraces t.cyclicOrder ~r order := by
  have horders : (ref t).admissibleOrders = .ok t.admissibleOrders := rfl
  rw [admits_iff horders, TensorRef.admissibleOrders, ← isEmpty_duplicates_iff]
  split_ifs with hnd <;> simp [hnd]

/-- A reference asks for the order of its legs without planar traces. -/
theorem lhsOrder_ref_eq_ok_iff : (ref t).lhsOrder = .ok order ↔
    (Circle.removeTraces t.cyclicOrder).Nodup ∧ Circle.removeTraces t.cyclicOrder = order := by
  have horders : (ref t).admissibleOrders = .ok t.admissibleOrders := rfl
  rw [lhsOrder, if_pos (by rw [isTensor]), horders, ok_bind, TensorRef.admissibleOrders,
    ← isEmpty_duplicates_iff]
  split_ifs with hnd
  · simp [hnd, pure, Except.pure]
  · simp [hnd]

theorem admits_of_turned {t' : TensorRef} (horder : t.cyclicOrder ~r t'.cyclicOrder)
    (h : (ref t).Admits order) : (ref t').Admits order := by
  have hrot := Circle.isRotated_removeTraces horder
  obtain ⟨hnd, horder⟩ := admits_ref_iff.mp h
  exact admits_ref_iff.mpr ⟨hrot.nodup_iff.mp hnd, hrot.symm.trans horder⟩

/-! ## Expressions -/

/-- An expression that is rearranged stays normal and admits the same orders. -/
theorem Rearranges.admits {d d' : Diagram} (h : Rearranges d d') (hd : d.IsNormal) :
    d'.IsNormal ∧ d'.isTensor = d.isTensor ∧ ∀ order, d.Admits order → d'.Admits order := by
  induction h with
  | refl d => exact ⟨hd, rfl, fun _ => id⟩
  | trans _ _ ih ih' =>
    obtain ⟨hnormal, htensor, hadmits⟩ := ih hd
    obtain ⟨hnormal', htensor', hadmits'⟩ := ih' hnormal
    exact ⟨hnormal', htensor'.trans htensor, fun order horder =>
      hadmits' order (hadmits order horder)⟩
  | turned hobject hadjoint horder => exact ⟨.ref _, rfl, fun _ => admits_of_turned horder⟩
  | swapped a b =>
    obtain ⟨ha, hb⟩ := hd.of_pair
    refine ⟨.pair hb ha, by simp [isTensor, someTensor, Bool.or_comm], fun order horder => ?_⟩
    obtain ⟨i, j, c, hi, hj, hc, hrot⟩ := (ha.admits_pair_iff hb order).mp horder
    exact (hb.admits_pair_iff ha order).mpr ⟨j, i, c.swap, hj, hi, hc.swap,
      c.openOrder_swap.trans hrot⟩
  | @permuted sign sign' a a' rest rest' h =>
    have hmem : ∀ (P : Sign × Diagram → Prop), (∀ p ∈ (sign, a) :: rest, P p) →
        P (sign', a') ∧ ∀ p ∈ rest', P p := fun P hP =>
      List.forall_mem_cons.mp fun p hp => hP p (h.mem_iff.mpr hp)
    have hnormal : (sum sign' a' rest').IsNormal :=
      isNormal_sum_iff.mpr (hmem (·.2.IsNormal) (List.forall_mem_cons.mpr (isNormal_sum_iff.mp hd)))
    refine ⟨hnormal, ?_, fun order horder => ?_⟩
    · rw [Bool.eq_iff_iff, isTensor_sum_iff, isTensor_sum_iff]
      exact forall_congr' fun p => by rw [h.mem_iff]
    · exact (hnormal.admits_sum_iff order).mpr
        (hmem (·.2.Admits order) (List.forall_mem_cons.mpr ((hd.admits_sum_iff order).mp horder)))
  | pair _ _ iha ihb =>
    obtain ⟨ha, hb⟩ := hd.of_pair
    obtain ⟨ha', htensora, hadmitsa⟩ := iha ha
    obtain ⟨hb', htensorb, hadmitsb⟩ := ihb hb
    refine ⟨.pair ha' hb', by simp [isTensor, htensora, htensorb], fun order horder => ?_⟩
    obtain ⟨i, j, c, hi, hj, hc⟩ := (ha.admits_pair_iff hb order).mp horder
    exact (ha'.admits_pair_iff hb' order).mpr ⟨i, j, c, hadmitsa i hi, hadmitsb j hj, hc⟩
  | @firstTerm sign a a' rest _ ih =>
    obtain ⟨ha, hrest⟩ := isNormal_sum_iff.mp hd
    obtain ⟨ha', htensor, hadmits⟩ := ih ha
    have hnormal : (sum sign a' rest).IsNormal := isNormal_sum_iff.mpr ⟨ha', hrest⟩
    refine ⟨hnormal, by rw [isTensor, isTensor, htensor], fun order horder => ?_⟩
    obtain ⟨hfirst, hterms⟩ := (hd.admits_sum_iff order).mp horder
    exact (hnormal.admits_sum_iff order).mpr ⟨hadmits order hfirst, hterms⟩

/-! ## Assignments -/

/-- A left hand side that is rearranged is the same scalar or the same reference, turned. -/
theorem Rearranges.lhs_cases (h : Rearranges lhs lhs') (hlhs : lhs.IsAssignable) :
    lhs' = lhs ∨ ∃ t t', lhs = ref t ∧ lhs' = ref t' ∧ t.cyclicOrder ~r t'.cyclicOrder := by
  induction h with
  | refl d => exact Or.inl rfl
  | trans _ _ ih ih' =>
    rcases ih hlhs with rfl | ⟨t, t', rfl, rfl, horder⟩
    · exact ih' hlhs
    · rcases ih' (.ref t') with rfl | ⟨u, u', hu, rfl, horder'⟩
      · exact Or.inr ⟨t, t', rfl, rfl, horder⟩
      · obtain rfl := Diagram.ref.inj hu
        exact Or.inr ⟨t, u', rfl, rfl, horder.trans horder'⟩
  | turned hobject hadjoint horder => exact Or.inr ⟨_, _, rfl, rfl, horder⟩
  | swapped a b => cases hlhs
  | permuted h => cases hlhs
  | pair _ _ => cases hlhs
  | firstTerm _ => cases hlhs

/-- A left hand side that is rearranged asks for the same order. -/
theorem Rearranges.exists_lhsOrder (h : Rearranges lhs lhs') (hlhs : lhs.IsAssignable)
    (horder : lhs.lhsOrder = .ok order) :
    ∃ order', lhs'.lhsOrder = .ok order' ∧ order ~r order' := by
  rcases h.lhs_cases hlhs with rfl | ⟨t, t', rfl, rfl, hrot⟩
  · exact ⟨order, horder, .refl _⟩
  · obtain ⟨hnd, rfl⟩ := lhsOrder_ref_eq_ok_iff.mp horder
    have hrot := Circle.isRotated_removeTraces hrot
    exact ⟨_, lhsOrder_ref_eq_ok_iff.mpr ⟨hrot.nodup_iff.mp hnd, rfl⟩, hrot⟩

theorem checkPlanar_of_rearranges {rhs rhs' : Diagram} {isDefinition : Bool}
    (hlhs : lhs.IsAssignable) (hrhs : rhs.IsNormal) (hl : Rearranges lhs lhs')
    (hr : Rearranges rhs rhs') (h : (assign lhs rhs isDefinition).checkPlanar = .ok ()) :
    (assign lhs' rhs' isDefinition).checkPlanar = .ok () := by
  obtain ⟨hrhs', htensor', hadmits⟩ := hr.admits hrhs
  rw [checkPlanar] at h ⊢
  by_cases htensor : rhs.isTensor = true
  · obtain ⟨order, horder, hadm⟩ := (hrhs.checkAssignment_iff htensor).mp h
    obtain ⟨order', horder', hrot⟩ := hl.exists_lhsOrder hlhs horder
    exact (hrhs'.checkAssignment_iff (htensor'.trans htensor)).mpr
      ⟨order', horder', (hadmits order hadm).rotated hrot⟩
  · rw [checkAssignment, if_neg (by rwa [htensor'])]
    rfl

/-- Whether an assignment is found planar does not change if references on either side are turned,
factors exchanged and terms permuted. -/
theorem checkPlanar_rearranged {lhs lhs' rhs rhs' : Diagram} (isDefinition : Bool)
    (hlhs : lhs.IsAssignable) (hrhs : rhs.IsNormal) (hl : Rearranges lhs lhs')
    (hr : Rearranges rhs rhs') :
    (assign lhs rhs isDefinition).checkPlanar = .ok () ↔
      (assign lhs' rhs' isDefinition).checkPlanar = .ok () := by
  have hlhs' : lhs'.IsAssignable := by
    rcases hl.lhs_cases hlhs with rfl | ⟨t, t', -, rfl, -⟩
    · exact hlhs
    · exact .ref t'
  exact ⟨checkPlanar_of_rearranges hlhs hrhs hl hr,
    checkPlanar_of_rearranges hlhs' (hr.admits hrhs).1 hl.symm hr.symm⟩

/-- The triangle without a tensor that has the same open legs. -/
def triangleDifference : Diagram :=
  .sum .plus triangle [(.minus, .ref ⟨.name "E", [.number 1], [.number 2], false⟩)]

/-- The same difference with its terms permuted, two tensors turned and the outer factors
exchanged. -/
def turnedDifference : Diagram :=
  .sum .minus (.ref ⟨.name "E", [.number 2], [.number 1], false⟩)
    [(.plus, .pair (.ref ⟨.name "D", [.number 4], [.number 5], false⟩)
      (.pair (.ref ⟨.name "A", [.number 3, .number 4], [.number 1], false⟩)
        (.ref ⟨.name "B", [.number 3, .number 2], [.number 5], false⟩)))]

theorem rearranges_triangleDifference : Rearranges triangleDifference turnedDifference := by
  have hturnA : Rearranges (.ref ⟨.name "A", [.number 1], [.number 4, .number 3], false⟩)
      (.ref ⟨.name "A", [.number 3, .number 4], [.number 1], false⟩) := .turned rfl rfl ⟨1, rfl⟩
  have hturnE : Rearranges (.ref ⟨.name "E", [.number 1], [.number 2], false⟩)
      (.ref ⟨.name "E", [.number 2], [.number 1], false⟩) := .turned rfl rfl ⟨1, rfl⟩
  exact .trans (.firstTerm (.trans (.swapped _ _) (.pair (.refl _) (.pair hturnA (.refl _)))))
    (.trans (.permuted (.swap ..)) (.firstTerm hturnE))

/-- The difference is found planar in both forms. -/
theorem checkPlanar_rearranged_triangleDifference :
    (assign (.ref ⟨.name "C", [.number 1], [.number 2], false⟩) triangleDifference
      true).checkPlanar = .ok () ∧
    (assign (.ref ⟨.name "C", [.number 2], [.number 1], false⟩) turnedDifference true).checkPlanar =
      .ok () := by
  have hcheck : (assign (.ref ⟨.name "C", [.number 1], [.number 2], false⟩) triangleDifference
      true).checkPlanar = .ok () := rfl
  have hnormal : triangleDifference.IsNormal :=
    isNormal_sum_iff.mpr ⟨isNormal_triangle, by simpa using IsNormal.ref _⟩
  have hturnC : Rearranges (.ref ⟨.name "C", [.number 1], [.number 2], false⟩)
      (.ref ⟨.name "C", [.number 2], [.number 1], false⟩) := .turned rfl rfl ⟨1, rfl⟩
  exact ⟨hcheck,
    (checkPlanar_rearranged true (.ref _) hnormal hturnC rearranges_triangleDifference).mp hcheck⟩

end Diagram

end TensorDiagram
