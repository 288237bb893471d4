import TensorDiagram.Proofs.AdjointForms
import TensorDiagram.Proofs.PlanarVerdict

/-!
# Mirror images

The adjoint of a tensor has its outputs and inputs exchanged, so its legs go around it the other
way.  An expression that is conjugated is drawn as its mirror image: all circles are read backwards.

The search for admissible orders is written for one direction.  It takes traces off from left to
right, reads the joined legs of a pair before the open ones, and puts the first factor before the
second.  Up to rotation all of this is the same in the mirror: traces
(`Circle.isRotated_removeTraces_reverse`), contractions of a pair (`Circle.IsPlanarPair.mirror`),
and so whole expressions (`Diagram.IsNormal.admits_conjugate_iff`).
-/

namespace TensorDiagram

namespace Circle

variable {α : Type}

/-! ## Contractions in the mirror -/

/-- The contraction in the mirror. -/
def PairContraction.mirror (c : PairContraction α) : PairContraction α :=
  ⟨c.openFirst.reverse, c.openSecond.reverse, c.joinedFirst.reverse, c.joinedSecond.reverse⟩

theorem PairContraction.openOrder_mirror (c : PairContraction α) :
    c.mirror.openOrder ~r c.openOrder.reverse := by
  rw [openOrder, openOrder, mirror, ← List.reverse_append]
  exact List.isRotated_reverse_iff.mpr List.isRotated_append

/-- The mirror image of a planar contraction is planar. -/
theorem IsPlanarPair.mirror {first second : List α} {c : PairContraction α}
    (h : IsPlanarPair first second c) : IsPlanarPair first.reverse second.reverse c.mirror where
  first_order := by
    rw [PairContraction.mirror, ← List.reverse_append]
    exact List.isRotated_reverse_iff.mpr (List.isRotated_append.trans h.first_order)
  second_order := by
    rw [PairContraction.mirror, ← List.reverse_append]
    exact List.isRotated_reverse_iff.mpr (List.isRotated_append.trans h.second_order)
  reversed := congrArg List.reverse h.reversed
  open_first x hx hmem := h.open_first x (List.mem_reverse.mp hx) (List.mem_reverse.mp hmem)
  open_second x hx hmem := h.open_second x (List.mem_reverse.mp hx) (List.mem_reverse.mp hmem)

end Circle

/-- The legs of the adjoint go around it the other way. -/
theorem TensorRef.cyclicOrder_flipped (t : TensorRef) :
    t.flipped.cyclicOrder = t.cyclicOrder.reverse := by
  rw [cyclicOrder, cyclicOrder, flipped, List.reverse_append, List.reverse_reverse]

namespace Diagram

/-! ## Expressions in the mirror -/

/-- The normal form of a tensor expression is one. -/
theorem isTensor_adjointForm (odd : Bool) (d : Diagram) :
    (d.adjointForm odd).isTensor = d.isTensor := by
  induction d generalizing odd with
  | scalar s => cases s <;> cases odd <;> rfl
  | conj a ih => exact ih (!odd)
  | product a b rest iha ihb ih =>
    simp only [adjointForm, isTensor, iha, ihb, adjointFormList_eq, someTensor_eq, List.map_map,
      Function.comp_def, List.map_congr_left fun d hd => ih d hd odd]
  | sum sign a rest iha ih =>
    simp only [adjointForm, isTensor, iha, adjointFormTerms_eq, allTensorTerms_eq, List.map_map,
      Function.comp_def, List.map_congr_left fun p hp => ih p hp odd]
  | _ => cases odd <;> rfl

/-- The conjugate of a normal expression has a normal form that is normal. -/
theorem IsNormal.conjugate {d : Diagram} (hd : d.IsNormal) : (d.adjointForm true).IsNormal := by
  induction hd with
  | ref t => exact .ref _
  | scalar s =>
    cases s with
    | number x => exact .scalar _
    | name text => exact .conj text
  | conj name => exact .scalar _
  | sum _ _ iha ihrest =>
    rw [adjointForm, adjointFormTerms_eq]
    exact .sum iha (List.forall_mem_map.mpr ihrest)
  | pair _ _ iha ihb => exact .pair iha ihb

/-- The adjoint admits the mirror image of what a reference admits. -/
theorem admits_flipped_iff {t : TensorRef} {order : List Index} :
    (ref t.flipped).Admits order.reverse ↔ (ref t).Admits order := by
  have hrot : Circle.removeTraces t.flipped.cyclicOrder ~r
      (Circle.removeTraces t.cyclicOrder).reverse := by
    rw [TensorRef.cyclicOrder_flipped]
    exact Circle.isRotated_removeTraces_reverse t.cyclicOrder
  rw [admits_ref_iff, admits_ref_iff, hrot.nodup_iff, List.nodup_reverse]
  refine and_congr_right fun _ => ⟨fun h => ?_, fun h => ?_⟩
  · exact List.isRotated_reverse_iff.mp (hrot.symm.trans h)
  · exact hrot.trans (List.isRotated_reverse_iff.mpr h)

/-- The conjugate of an expression admits the mirror images of the orders that the expression
admits. -/
theorem IsNormal.admits_conjugate_iff {d : Diagram} (hd : d.IsNormal) (order : List Index) :
    (d.adjointForm true).Admits order.reverse ↔ d.Admits order := by
  induction hd generalizing order with
  | ref t => exact admits_flipped_iff
  | scalar s =>
    have hs : ((Diagram.scalar s).adjointForm true).isScalar = true :=
      isScalar_adjointForm true (.scalar s)
    rw [admits_of_isScalar hs, admits_of_isScalar rfl, List.reverse_eq_nil_iff]
  | conj name =>
    rw [adjointForm, admits_of_isScalar rfl, admits_of_isScalar rfl, List.reverse_eq_nil_iff]
  | @sum sign a rest ha hrest iha ihrest =>
    have hsum : (Diagram.sum sign a rest).IsNormal := .sum ha hrest
    have hmirror := hsum.conjugate
    rw [adjointForm, adjointFormTerms_eq] at hmirror ⊢
    rw [hmirror.admits_sum_iff, hsum.admits_sum_iff, iha, List.forall_mem_map]
    exact and_congr_right fun _ => forall₂_congr fun p hp => ihrest p hp order
  | @pair a b ha hb iha ihb =>
    rw [adjointForm, ha.admits_pair_iff hb]
    refine (ha.conjugate.admits_pair_iff hb.conjugate order.reverse).trans ⟨?_, ?_⟩
    · rintro ⟨i, j, c, hi, hj, hc, hrot⟩
      refine ⟨i.reverse, j.reverse, c.mirror, (iha _).mp ?_, (ihb _).mp ?_, hc.mirror, ?_⟩
      · rwa [List.reverse_reverse]
      · rwa [List.reverse_reverse]
      · exact c.openOrder_mirror.trans (List.isRotated_reverse_comm_iff.mpr hrot)
    · rintro ⟨i, j, c, hi, hj, hc, hrot⟩
      exact ⟨i.reverse, j.reverse, c.mirror, (iha i).mpr hi, (ihb j).mpr hj, hc.mirror,
        c.openOrder_mirror.trans (List.isRotated_reverse_iff.mpr hrot)⟩

/-! ## Assignments in the mirror -/

/-- With its outputs and inputs exchanged, a left hand side asks for the mirror image of its
order. -/
theorem exists_lhsOrder_exchanged {object : ObjectRef} {left right : List Index} {isAdjoint : Bool}
    {order : List Index} (h : (ref ⟨object, left, right, isAdjoint⟩).lhsOrder = .ok order) :
    ∃ order', (ref ⟨object, right, left, isAdjoint⟩).lhsOrder = .ok order' ∧
      order' ~r order.reverse := by
  obtain ⟨hnd, rfl⟩ := lhsOrder_ref_eq_ok_iff.mp h
  have hrot :=
    Circle.isRotated_removeTraces_reverse (TensorRef.mk object left right isAdjoint).cyclicOrder
  rw [← TensorRef.cyclicOrder_flipped] at hrot
  exact ⟨_, lhsOrder_ref_eq_ok_iff.mpr ⟨hrot.nodup_iff.mpr (List.nodup_reverse.mpr hnd), rfl⟩, hrot⟩

theorem IsNormal.checkAssignment_conjugate_iff {d : Diagram} (hd : d.IsNormal) (object : ObjectRef)
    (left right : List Index) (isAdjoint isDefinition : Bool) :
    checkAssignment (.ref ⟨object, left, right, isAdjoint⟩) d isDefinition = .ok () ↔
      checkAssignment (.ref ⟨object, right, left, isAdjoint⟩)
        (d.adjointForm true) isDefinition = .ok () := by
  by_cases htensor : d.isTensor = true
  · rw [hd.checkAssignment_iff htensor,
      hd.conjugate.checkAssignment_iff ((isTensor_adjointForm true d).trans htensor)]
    constructor
    · rintro ⟨order, horder, hadm⟩
      obtain ⟨order', horder', hrot⟩ := exists_lhsOrder_exchanged horder
      exact ⟨order', horder', ((hd.admits_conjugate_iff order).mpr hadm).rotated hrot.symm⟩
    · rintro ⟨order, horder, hadm⟩
      obtain ⟨order', horder', hrot⟩ := exists_lhsOrder_exchanged horder
      rw [← List.reverse_reverse order, hd.admits_conjugate_iff] at hadm
      exact ⟨order', horder', hadm.rotated hrot.symm⟩
  · -- a right hand side without tensor indices is not looked at
    rw [checkAssignment, if_neg htensor, checkAssignment, if_neg (by rwa [isTensor_adjointForm])]

/-- **Mirror symmetry.**  Up to rotation, the admissible orders of the conjugate of an expression
are the admissible orders of the expression read backwards, and all of them.  So an assignment of
the expression is found planar if and only if the assignment of its conjugate is, to a left hand
side with outputs and inputs exchanged. -/
theorem IsNormal.conjugate_is_mirror_image {d : Diagram} (hd : d.IsNormal) :
    (∃ orders mirrored : List (List Index), d.admissibleOrders = .ok orders ∧
      (Diagram.conj d).pushConj.admissibleOrders = .ok mirrored ∧
      (∀ o ∈ orders, ∃ o' ∈ mirrored, o' ~r o.reverse) ∧
        (∀ o' ∈ mirrored, ∃ o ∈ orders, o ~r o'.reverse)) ∧
    ∀ (object : ObjectRef) (left right : List Index) (isAdjoint isDefinition : Bool),
      (assign (.ref ⟨object, left, right, isAdjoint⟩) d isDefinition).checkPlanar = .ok () ↔
        (assign (.ref ⟨object, right, left, isAdjoint⟩)
          (Diagram.conj d).pushConj isDefinition).checkPlanar = .ok () := by
  have hpush : (Diagram.conj d).pushConj = d.adjointForm true := by
    rw [pushConj, adjointForm, Bool.not_false]
  rw [hpush]
  obtain ⟨orders, horders, -⟩ := hd.exists_orders
  obtain ⟨mirrored, hmirrored, -⟩ := hd.conjugate.exists_orders
  refine ⟨⟨orders, mirrored, horders, hmirrored, fun o ho => ?_, fun o ho => ?_⟩,
    fun object left right isAdjoint isDefinition =>
    hd.checkAssignment_conjugate_iff object left right isAdjoint isDefinition⟩
  · have hadm : d.Admits o := (admits_iff horders o).mpr ⟨o, ho, .refl o⟩
    exact (admits_iff hmirrored o.reverse).mp ((hd.admits_conjugate_iff o).mpr hadm)
  · have hadm : (d.adjointForm true).Admits o := (admits_iff hmirrored o).mpr ⟨o, ho, .refl o⟩
    rw [← List.reverse_reverse o, hd.admits_conjugate_iff] at hadm
    exact (admits_iff horders o.reverse).mp hadm

/-- The difference of a triangle and a matrix, times a vector that is joined to nothing and has a
trace.  The vector can stand on either side. -/
def tracedDifference : Diagram :=
  .pair triangleDifference (.ref ⟨.name "V", [.number 6, .number 7], [.number 7], false⟩)

/-- The mirror image of the difference is found planar, with the vector on the other side. -/
theorem conjugate_is_mirror_image_tracedDifference :
    tracedDifference.IsNormal ∧ tracedDifference.isTensor = true ∧
    (assign (.ref ⟨.name "C", [.number 1, .number 6], [.number 2], false⟩) tracedDifference
      true).checkPlanar = .ok () ∧
    (assign (.ref ⟨.name "C", [.number 2], [.number 1, .number 6], false⟩)
      (conj tracedDifference).pushConj true).checkPlanar = .ok () := by
  have hd : tracedDifference.IsNormal :=
    .pair (isNormal_sum_iff.mpr ⟨isNormal_triangle, by simpa using IsNormal.ref _⟩) (.ref _)
  have hcheck :
    (assign (.ref ⟨.name "C", [.number 1, .number 6], [.number 2], false⟩) tracedDifference
      true).checkPlanar = .ok () := rfl
  exact ⟨hd, rfl, hcheck, (hd.conjugate_is_mirror_image.2 _ _ _ _ _).mp hcheck⟩

end Diagram

end TensorDiagram
