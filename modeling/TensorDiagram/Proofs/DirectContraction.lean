import TensorDiagram.Proofs.PlanarPlans
import TensorDiagram.Proofs.TreeProducts

/-!
# Direct contraction

The product of two general tensors is contracted directly in the order of the left hand side of its
assignment (`Machine.contractedValue`).  Any other right hand side is evaluated in an order of its
own, and the legs of its value are permuted afterwards (`Machine.permutedValue`).  The results
agree, since the legs of a contraction may be listed in any order first
(`Tensor.contractAll_permute`), whatever the operands are.

The value of a general tensor always has labels: a plain value comes from scalars only
(`Machine.isScalar_of_isPlain`).
-/

namespace TensorDiagram

/-! ## Contraction in another order -/

namespace Tensor

variable {R : Type} [CommRing R] [StarRing R] [Arithmetic R] [Arithmetic.IsExact R]

/-- The legs of a contraction are permuted without a sum, since their labels are distinct. -/
theorem IsContraction.permute_sameOutcome {operands : List (Operand R)} {left' right' : List Index}
    {z : Tensor R} (hz : IsContraction operands left' right' z) (left right : List Index) :
    SameOutcome Agrees (contractAll operands left right)
      (z.permute (left' ++ right') left right) := by
  have hproper : ∀ x ∈ [(⟨z, left' ++ right'⟩ : Operand R)], x.IsProper :=
    List.forall_mem_singleton.mpr hz.count_eq
  refine contractAll_sameOutcome_of_network (iff_of_true hz.proper hproper)
    (iff_of_true hz.joinable ?_) ?_ left right
  · rw [network_singleton]
    exact joinable_toArray hz.count_eq hz.nodup
  · rw [network_singleton, contract_toArray hz.count_eq hz.nodup, hz.array_eq]

/-- A contraction can be done in any order of the legs that are left, if the legs are permuted
afterwards. -/
theorem contractAll_permute {operands : List (Operand R)} {left' right' : List Index}
    (h : (left' ++ right').Perm (once (operands.flatMap Operand.labels)))
    (left right : List Index) : SameOutcome Agrees (contractAll operands left right)
      (contractAll operands left' right' >>= fun z => z.permute (left' ++ right') left right) := by
  rcases hz : contractAll operands left' right' with e | z
  · rcases hw : contractAll operands left right with e' | w
    · exact .error e' e
    · obtain ⟨hproper, hcheck, -⟩ := contractAll_eq_ok_iff.mp hw
      obtain ⟨z, hz'⟩ := exists_contractAll hproper hcheck ((map_fst_allLegs hproper).symm ▸ h)
      rw [hz] at hz'
      cases hz'
  · exact (contractAll_spec hz).permute_sameOutcome left right

end Tensor

/-! ## Plain values -/

namespace Evaluated

variable {R : Type} {x y z : Evaluated R}

/-- The value has no labels. -/
def IsPlain : Evaluated R → Prop
  | plain _ => True
  | labelled _ _ => False

theorem ProductForm.isPlain (h : ProductForm x y z) (hz : z.IsPlain) : x.IsPlain ∧ y.IsPlain := by
  cases h with
  | scalars => exact ⟨trivial, trivial⟩
  | scaled => exact hz.elim
  | scaledBy => exact hz.elim
  | joined => exact hz.elim

theorem SumForm.isPlain (h : SumForm x y z) (hz : z.IsPlain) : x.IsPlain ∧ y.IsPlain := by
  cases h with
  | scalars => exact ⟨trivial, trivial⟩
  | tensors => exact hz.elim

theorem isPlain_of_signed [Arithmetic R] {sign : Sign} (h : x.signed sign = .ok z)
    (hz : z.IsPlain) : x.IsPlain := by
  rcases productForm_of_signed h with rfl | ⟨a, hform⟩
  · exact hz
  · exact (hform.isPlain hz).2

theorem isPlain_of_conj [Arithmetic R] {d : Diagram} (h : x.conj d = .ok z) : x.IsPlain := by
  cases x with
  | plain v => trivial
  | labelled v labels => cases h

theorem exists_labelled (h : ¬ x.IsPlain) : ∃ v labels, x = labelled v labels := by
  cases x with
  | plain v => exact absurd trivial h
  | labelled v labels => exact ⟨v, labels, rfl⟩

end Evaluated

namespace Machine

open Evaluated Diagram

section Plain

variable {R : Type} [Arithmetic R] {m : Machine R}

/-- What holds at the end of some steps is traced back through each of them. -/
theorem forall_mem_of_foldlM {α β ε : Type} {P : β → Prop} {Q : α → Prop} {f : β → α → Except ε β}
    {xs : List α} {b c : β} (hstep : ∀ b, ∀ x ∈ xs, ∀ b', f b x = .ok b' → P b' → P b ∧ Q x)
    (h : xs.foldlM f b = .ok c) (hc : P c) : P b ∧ ∀ x ∈ xs, Q x := by
  induction xs generalizing b with
  | nil => exact ⟨Except.ok.inj h ▸ hc, by simp⟩
  | cons x xs ih =>
    rw [List.foldlM_cons] at h
    obtain ⟨b', hb', h⟩ := bind_eq_ok_iff.mp h
    obtain ⟨hP, hQ⟩ := ih (fun b y hy => hstep b y (List.mem_cons_of_mem x hy)) h
    obtain ⟨hb, hx⟩ := hstep b x List.mem_cons_self b' hb' hP
    exact ⟨hb, List.forall_mem_cons.mpr ⟨hx, hQ⟩⟩

/-- Only the values of scalars are plain. -/
theorem isScalar_of_isPlain (d : Diagram) {x : Evaluated R} (h : m.evaluate d = .ok x)
    (hx : x.IsPlain) : d.isScalar = true := by
  induction d generalizing x with
  | ref t =>
    rw [evaluate] at h
    rcases evaluateRef_cases h with ⟨v, -, -, rfl⟩ | ⟨u, labels, -, -, rfl⟩
    · exact hx.elim
    · exact hx.elim
  | scalar s => rfl
  | conj a ih =>
    rw [evaluate] at h
    obtain ⟨y, hy, h⟩ := bind_eq_ok_iff.mp h
    rw [isScalar]
    exact ih hy (isPlain_of_conj h)
  | product a b rest iha ihb ih =>
    rw [evaluate] at h
    obtain ⟨y, hy, h⟩ := bind_eq_ok_iff.mp h
    obtain ⟨z, hz, h⟩ := bind_eq_ok_iff.mp h
    obtain ⟨w, hw, h⟩ := bind_eq_ok_iff.mp h
    rw [evaluateFactors_eq] at h
    have hstep : ∀ v, ∀ d ∈ rest, ∀ u, m.evaluate d >>= mul v = .ok u → u.IsPlain →
        v.IsPlain ∧ d.isScalar = true := by
      intro v d hd u hu huplain
      obtain ⟨y, hy, hu⟩ := bind_eq_ok_iff.mp hu
      exact ((productForm_of_mul hu).isPlain huplain).imp_right (ih d hd hy)
    obtain ⟨hwplain, hrest⟩ := forall_mem_of_foldlM hstep h hx
    obtain ⟨hyplain, hzplain⟩ := (productForm_of_mul hw).isPlain hwplain
    exact isScalar_product_iff.mpr
      (List.forall_mem_cons.mpr ⟨iha hy hyplain, List.forall_mem_cons.mpr ⟨ihb hz hzplain, hrest⟩⟩)
  | sum sign a rest iha ih =>
    rw [evaluate] at h
    obtain ⟨y, hy, h⟩ := bind_eq_ok_iff.mp h
    obtain ⟨w, hw, h⟩ := bind_eq_ok_iff.mp h
    rw [evaluateTerms_eq] at h
    have hstep : ∀ v, ∀ p ∈ rest, ∀ u, m.evaluate p.2 >>= add p.1 v = .ok u → u.IsPlain →
        v.IsPlain ∧ p.2.isScalar = true := by
      intro v p hp u hu huplain
      obtain ⟨y, hy, hu⟩ := bind_eq_ok_iff.mp hu
      exact ((sumForm_of_add hu).isPlain huplain).imp_right (ih p hp hy)
    obtain ⟨hwplain, hrest⟩ := forall_mem_of_foldlM hstep h hx
    exact isScalar_sum_iff.mpr ⟨iha hy (isPlain_of_signed hw hwplain), hrest⟩
  | _ => simp [evaluate] at h

/-- The value of a general tensor has labels. -/
theorem exists_labelled_of_isGeneral {d : Diagram} (hd : d.isGeneral = true) {x : Evaluated R}
    (h : m.evaluate d = .ok x) : ∃ v labels, x = labelled v labels := by
  refine exists_labelled fun hx => ?_
  rw [isGeneral, general?_of_isScalar d (isScalar_of_isPlain d h hx)] at hd
  cases hd

end Plain

end Machine

/-! ## Both ways to assign -/

/-- The value with its legs permuted to the order of a left hand side, for a given assignment. -/
def Evaluated.permuted {R : Type} [Arithmetic R] (t : TensorRef) (statement : Diagram) :
    Evaluated R → Except Error (Tensor R)
  | labelled v labels => do
    let x ← v.toOperand labels
    x.tensor.permute x.labels t.left t.right
  | plain _ => .error (.scalarToTensor statement)

namespace Machine

open Evaluated Diagram

section Assigned

variable {R : Type} [Arithmetic R]

/-- The product of two values, contracted directly in the order of a left hand side. -/
def contractedValue (m : Machine R) (t : TensorRef) (a b : Diagram) : Except Error (Tensor R) := do
  match ← m.evaluate a, ← m.evaluate b with
  | .labelled v labels, .labelled w others =>
    let x ← v.toOperand labels
    let y ← w.toOperand others
    x.tensor.contract x.labels y.tensor y.labels t.left t.right
  | _, _ => throw .notTensor

/-- The value of an expression, with its legs permuted to the order of a left hand side. -/
def permutedValue (m : Machine R) (t : TensorRef) (rhs : Diagram) (isDefinition : Bool) :
    Except Error (Tensor R) := do
  (← m.evaluate rhs).permuted t (.assign (.ref t) rhs isDefinition)

/-- The product of two general tensors is contracted directly. -/
theorem arrangedValue_eq_contractedValue (m : Machine R) (t : TensorRef) {a b : Diagram}
    (ha : a.isGeneral = true) (hb : b.isGeneral = true) (isDefinition : Bool) :
    m.arrangedValue (.ref t) (.pair a b) isDefinition = m.contractedValue t a b := by
  rw [arrangedValue_pair m t ha hb]
  rfl

/-- Anything else is evaluated first. -/
theorem arrangedValue_eq_permutedValue (m : Machine R) (t : TensorRef) {rhs : Diagram}
    (h : ¬ IsDirect rhs) (isDefinition : Bool) :
    m.arrangedValue (.ref t) rhs isDefinition = m.permutedValue t rhs isDefinition := by
  rw [arrangedValue_single m t h, permutedValue]
  rcases m.evaluate rhs with e | x
  · rfl
  · cases x <;> rfl

/-- A product of two tensors whose legs are permuted. -/
theorem joined_permuted {s u : Tensor R} {labels others : List Index}
    (hs : labels.length = s.legs.count) (hu : others.length = u.legs.count) (t : TensorRef)
    (statement : Diagram) :
    (joined (.tensor s) labels (.tensor u) others >>= permuted t statement) =
      s.contract labels u others (labels.filter (· ∉ others))
        (others.filter (· ∉ labels)) >>= fun z =>
        z.permute (labels.filter (· ∉ others) ++ others.filter (· ∉ labels)) t.left t.right := by
  rw [joined, toOperand_tensor, toOperand_tensor, if_pos hs, if_pos hu, ok_bind, ok_bind,
    Tensor.contract]
  rcases hz : Tensor.contractAll [⟨s, labels⟩, ⟨u, others⟩] (labels.filter (· ∉ others))
    (others.filter (· ∉ labels)) with e | z
  · rfl
  · obtain ⟨houtputs, hinputs, -⟩ := Tensor.legs_of_contractAll hz
    have hcount : (labels.filter (· ∉ others) ++ others.filter (· ∉ labels)).length =
        z.legs.count := by
      rw [List.length_append, Legs.count, houtputs, hinputs]
    change permuted t statement (labelled (.tensor z) _) = _
    rw [permuted, toOperand_tensor, if_pos hcount]
    rfl

end Assigned

section Agreement

variable {R : Type} [CommRing R] [StarRing R] [Arithmetic R] [Arithmetic.IsExact R]

/-- The product of two general tensors is the same whether it is contracted directly or permuted
afterwards. -/
theorem contractedValue_agrees (m : Machine R) (t : TensorRef) {a b : Diagram}
    (ha : a.isGeneral = true) (hb : b.isGeneral = true) (isDefinition : Bool) :
    SameOutcome Tensor.Agrees (m.contractedValue t a b)
      (m.permutedValue t (.pair a b) isDefinition) := by
  rw [contractedValue, permutedValue, evaluate_pair]
  rcases hx : m.evaluate a with e | x
  · exact .error e e
  rcases hy : m.evaluate b with e | y
  · exact .error e e
  obtain ⟨v, labels, rfl⟩ := exists_labelled_of_isGeneral ha hx
  obtain ⟨w, others, rfl⟩ := exists_labelled_of_isGeneral hb hy
  simp only [ok_bind, Evaluated.mul]
  rcases hv : v.toOperand labels with e | s
  · rw [joined, hv]
    exact .error e e
  rcases hw : w.toOperand others with e | u
  · rw [joined, hv, hw]
    exact .error e e
  obtain ⟨s, rfl, hs, rfl⟩ := toOperand_eq_ok_iff.mp hv
  obtain ⟨u, rfl, hu, rfl⟩ := toOperand_eq_ok_iff.mp hw
  rw [joined_permuted hs hu]
  refine Tensor.contractAll_permute ?_ t.left t.right
  simpa using perm_once_append (isDistinct_of_evaluate hx) (isDistinct_of_evaluate hy)

/-- The product of two general tensors is contracted directly in the order of the left hand side.
This succeeds exactly if evaluating the product and permuting its legs does, which is what is done
for all other right hand sides, and the resulting tensors have the same legs and entries. -/
theorem direct_contraction_agrees (m : Machine R) (t : TensorRef) (isDefinition : Bool) :
    (∀ a b : Diagram, a.isGeneral = true → b.isGeneral = true →
      m.arrangedValue (.ref t) (.pair a b) isDefinition = m.contractedValue t a b ∧
        SameOutcome Tensor.Agrees (m.contractedValue t a b)
          (m.permutedValue t (.pair a b) isDefinition)) ∧
    ∀ rhs : Diagram, ¬ IsDirect rhs →
      m.arrangedValue (.ref t) rhs isDefinition = m.permutedValue t rhs isDefinition :=
  ⟨fun _ _ ha hb => ⟨arrangedValue_eq_contractedValue m t ha hb isDefinition,
    contractedValue_agrees m t ha hb isDefinition⟩, fun _ h =>
    arrangedValue_eq_permutedValue m t h isDefinition⟩

end Agreement

/-- A multiple of the partial trace of an adjoint. -/
def tracedAdjoint : Diagram :=
  pair (scalar (.number (.integer 2)))
    (ref ⟨.name "A", [.name "a", .name "c"], [.name "a", .name "d"], true⟩)

/-- A tensor with four legs and one with two. -/
def tracedObjects : Table String (Value ℤ) :=
  [("A", .tensor (numberedTensor [false, false] [false, false])),
    ("B", .tensor (numberedTensor [false] [true]))]

/-- The traced adjoint is contracted with another tensor, and a leg of each of them is bent
around. -/
theorem direct_contraction_agrees_tracedAdjoint : ∃ w w' : Tensor ℤ,
    (Machine.start tracedObjects).arrangedValue (.ref ⟨.name "E", [.name "b"], [.name "c"], false⟩)
      (.pair tracedAdjoint (.ref ⟨.name "B", [.name "d"], [.name "b"], false⟩)) true = .ok w ∧
    (Machine.start tracedObjects).permutedValue ⟨.name "E", [.name "b"], [.name "c"], false⟩
      (.pair tracedAdjoint (.ref ⟨.name "B", [.name "d"], [.name "b"], false⟩)) true = .ok w' ∧
        w.Agrees w' := by
  obtain ⟨heq, hagrees⟩ := (direct_contraction_agrees (Machine.start tracedObjects)
    ⟨.name "E", [.name "b"], [.name "c"], false⟩ true).1 tracedAdjoint
    (.ref ⟨.name "B", [.name "d"], [.name "b"], false⟩) rfl rfl
  rw [← heq] at hagrees
  obtain ⟨w, hw⟩ := exists_of_isOk (x := (Machine.start tracedObjects).arrangedValue
    (.ref ⟨.name "E", [.name "b"], [.name "c"], false⟩)
    (.pair tracedAdjoint (.ref ⟨.name "B", [.name "d"], [.name "b"], false⟩)) true)
    (by decide +kernel)
  obtain ⟨w', hw', hww'⟩ := hagrees.exists_ok hw
  exact ⟨w, w', hw, hw', hww'⟩

end Machine

end TensorDiagram
