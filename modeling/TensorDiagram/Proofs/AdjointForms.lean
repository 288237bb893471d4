import TensorDiagram.Proofs.Nesting
import TensorDiagram.Proofs.Renaming

/-!
# Normal forms of conjugation

One pass writes conjugates of references as references to adjoints.  What it returns is left alone
by another pass (`Diagram.adjointForm_adjointForm`), and in a formula the only conjugates that are
left are those of named scalars (`Diagram.IsAdjointForm`).

A general tensor can be split into its reference and its scalars before or after the pass, with the
same reference and with scalars that differ by the pass (`Diagram.general?_adjointForm`).  All of
this is proved for a diagram and for its conjugate at once, since the pass remembers whether the
number of conjugations above is odd.
-/

namespace TensorDiagram

namespace Diagram

/-! ## One pass is enough -/

/-- The normal form is its own normal form. -/
theorem adjointForm_adjointForm (odd : Bool) (d : Diagram) :
    (d.adjointForm odd).adjointForm false = d.adjointForm odd := by
  induction d generalizing odd with
  | scalar s => cases s <;> cases odd <;> rfl
  | conj a ih => exact ih (!odd)
  | product a b rest iha ihb ih =>
    simp only [adjointForm, iha, ihb, adjointFormList_eq, List.map_map]
    exact congrArg (product _ _) (List.map_congr_left fun d hd => ih d hd odd)
  | sum sign a rest iha ih =>
    simp only [adjointForm, iha, adjointFormTerms_eq, List.map_map]
    exact congrArg (sum _ _) (List.map_congr_left fun p hp => congrArg (Prod.mk p.1) (ih p hp odd))
  | assign lhs rhs isDefinition ihl ihr =>
    cases odd with
    | false => exact congrArg (assign lhs · isDefinition) (ihr false)
    | true => rfl
  | block statements ih =>
    cases odd with
    | false =>
      have hlist := List.map_congr_left fun d hd => ih d hd false
      rw [adjointForm, adjointFormList_eq]
      exact congrArg block (by rw [adjointFormList_eq, List.map_map]; exact hlist)
    | true => rfl
  | control kind body ih =>
    cases odd with
    | false => exact congrArg (control kind) (ih false)
    | true => rfl
  | _ => cases odd <;> rfl

/-- A formula in which only named scalars are conjugated. -/
inductive IsAdjointForm : Diagram → Prop
  /-- A reference. -/
  | ref (t : TensorRef) : IsAdjointForm (.ref t)
  /-- A scalar. -/
  | scalar (s : Scalar) : IsAdjointForm (.scalar s)
  /-- The conjugate of a named scalar. -/
  | conj (name : String) : IsAdjointForm (.conj (.scalar (.name name)))
  /-- A sum. -/
  | sum {sign : Sign} {a : Diagram} {rest : List (Sign × Diagram)} (ha : IsAdjointForm a)
      (hrest : ∀ p ∈ rest, IsAdjointForm p.2) : IsAdjointForm (.sum sign a rest)
  /-- A product. -/
  | product {a b : Diagram} {rest : List Diagram} (ha : IsAdjointForm a) (hb : IsAdjointForm b)
      (hrest : ∀ d ∈ rest, IsAdjointForm d) : IsAdjointForm (.product a b rest)

theorem IsFormula.isAdjointForm {d : Diagram} (hd : d.IsFormula) (odd : Bool) :
    (d.adjointForm odd).IsAdjointForm := by
  induction hd generalizing odd with
  | ref t => exact .ref _
  | scalar s =>
    cases odd with
    | false => exact .scalar s
    | true =>
      cases s with
      | number x => exact .scalar _
      | name text => exact .conj text
  | conj _ ih => exact ih (!odd)
  | sum _ _ iha ihrest =>
    rw [adjointForm, adjointFormTerms_eq]
    exact .sum (iha odd) (List.forall_mem_map.mpr fun p hp => ihrest p hp odd)
  | product _ _ _ iha ihb ihrest =>
    rw [adjointForm, adjointFormList_eq]
    exact .product (iha odd) (ihb odd) (List.forall_mem_map.mpr fun d hd => ihrest d hd odd)

/-! ## General tensors -/

/-- The normal form of a scalar is a scalar. -/
theorem isScalar_adjointForm (odd : Bool) (d : Diagram) :
    (d.adjointForm odd).isScalar = d.isScalar := by
  induction d generalizing odd with
  | scalar s => cases s <;> cases odd <;> rfl
  | conj a ih => exact ih (!odd)
  | product a b rest iha ihb ih =>
    simp only [adjointForm, isScalar, iha, ihb, adjointFormList_eq, allScalar_eq, List.map_map,
      Function.comp_def, List.map_congr_left fun d hd => ih d hd odd]
  | sum sign a rest iha ih =>
    simp only [adjointForm, isScalar, iha, adjointFormTerms_eq, allScalarTerms_eq, List.map_map,
      Function.comp_def, List.map_congr_left fun p hp => ih p hp odd]
  | _ => cases odd <;> rfl

/-- A general tensor that is conjugated in one pass has its reference flipped and its scalars
conjugated. -/
theorem general?_adjointForm (odd : Bool) (d : Diagram) : (d.adjointForm odd).general? =
    d.general?.map (GeneralTensor.map (fun t => if odd then t.flipped else t)
      (adjointForm odd)) := by
  induction d generalizing odd with
  | ref t => rfl
  | scalar s => cases s <;> cases odd <;> rfl
  | conj a ih =>
    rw [adjointForm, ih (!odd), general?, Option.map_map]
    refine congrArg (Option.map · _) (funext fun g => ?_)
    rw [Function.comp_apply, GeneralTensor.conj, GeneralTensor.map, GeneralTensor.map, List.map_map]
    refine congrArg₂ GeneralTensor.mk ?_ (List.map_congr_left fun d _ => ?_)
    · cases odd
      · rfl
      · exact (TensorRef.flipped_flipped _).symm
    · rw [Function.comp_apply, adjointForm]
  | product a b rest iha ihb ih =>
    rw [adjointForm, adjointFormList_eq]
    refine general?_product_map (List.forall_mem_cons.mpr ⟨⟨isScalar_adjointForm odd a, iha odd⟩,
      List.forall_mem_cons.mpr ⟨⟨isScalar_adjointForm odd b, ihb odd⟩, fun d hd => ?_⟩⟩)
    exact ⟨isScalar_adjointForm odd d, ih d hd odd⟩
  | _ => cases odd <;> rfl

theorem decompose_pushConj {d : Diagram} {g : GeneralTensor} (h : d.decompose = .ok g) :
    d.pushConj.decompose = .ok ⟨g.term, g.scalars.map pushConj⟩ := by
  rw [decompose] at h
  rcases hg : d.general? with _ | g'
  · rw [hg] at h
    cases h
  · rw [hg] at h
    obtain rfl := Except.ok.inj h
    rw [decompose, pushConj, general?_adjointForm, hg]
    rfl

theorem exists_decompose_iff {d : Diagram} : (∃ g, d.decompose = .ok g) ↔ d.isGeneral = true := by
  rw [decompose, isGeneral]
  rcases d.general? <;> simp

/-- Conjugation is normalized once and for all.  In the normal form of a formula only named scalars
are conjugated, and the normal form of a general tensor has the same reference, and as scalars the
normal forms of its scalars. -/
theorem pushConj_normalizes (d : Diagram) : d.pushConj.pushConj = d.pushConj ∧
    (d.IsFormula → d.pushConj.IsAdjointForm) ∧
    (d.isGeneral = true → d.pushConj.isGeneral = true ∧
      ∃ g, d.decompose = .ok g ∧ d.pushConj.decompose = .ok ⟨g.term, g.scalars.map pushConj⟩) := by
  refine ⟨adjointForm_adjointForm false d, fun hd => hd.isAdjointForm false, fun hd => ?_⟩
  obtain ⟨g, hg⟩ := exists_decompose_iff.mpr hd
  exact ⟨exists_decompose_iff.mp ⟨_, decompose_pushConj hg⟩, g, hg, decompose_pushConj hg⟩

/-- A tensor with scalars and nested conjugations. -/
def conjugatedTensor : Diagram :=
  conj (product (scalar (.name "s")) (conj (pair (conj (scalar (.name "r")))
    (ref ⟨.name "A", [.name "a"], [.name "b"], true⟩)))
    [conj (conj (scalar (.number (.complex 1 2))))])

/-- Conjugations that cancel are gone from the normal form, and the others are on references,
numbers and names. -/
theorem pushConj_normalizes_conjugatedTensor :
    conjugatedTensor.IsFormula ∧ conjugatedTensor.isGeneral = true ∧
    conjugatedTensor.pushConj = product (conj (scalar (.name "s")))
      (pair (conj (scalar (.name "r"))) (ref ⟨.name "A", [.name "a"], [.name "b"], true⟩))
      [scalar (.number (.complex 1 (-2)))] ∧
    conjugatedTensor.pushConj.IsAdjointForm ∧
    ∃ g, conjugatedTensor.decompose = .ok g ∧
      conjugatedTensor.pushConj.decompose = .ok ⟨g.term, g.scalars.map pushConj⟩ := by
  have hd : conjugatedTensor.IsFormula :=
    .conj (.product (.scalar _) (.conj (.product (.conj (.scalar _)) (.ref _) (by simp)))
      (List.forall_mem_singleton.mpr (.conj (.conj (.scalar _)))))
  obtain ⟨-, hform, hgeneral⟩ := pushConj_normalizes conjugatedTensor
  exact ⟨hd, rfl, rfl, hform hd, (hgeneral rfl).2⟩

end Diagram

end TensorDiagram
