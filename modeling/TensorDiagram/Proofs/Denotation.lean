import TensorDiagram.Machine.Run
import TensorDiagram.Proofs.Admissible
import TensorDiagram.Proofs.DiagramInduction
import TensorDiagram.Proofs.Meaning

/-!
# The meaning of expressions

`denote m d` is the meaning of the value that the machine `m` computes for `d`, if there is one.  It
is made from the meanings of the parts of `d`: `denote_pair`, `denote_product_next`,
`denote_sum_first` and `denote_sum_next` say how.

Products and sums of values have a few forms only, `ProductForm` and `SumForm`.  So a property that
is kept in each of these forms holds for the value of every expression, if it holds for those of its
references and named scalars (`keeps_evaluate`).  The labels of the value of a normal expression are
its open indices (`IsNormal.hasForm`).

A tensor that is assigned to has the meaning of the right hand side, with the legs in the order of
the left hand side (`denote_of_arrangedValue` and `exists_arrangedValue`).
-/

namespace TensorDiagram

variable {d : Diagram} {t : TensorRef}

namespace Diagram

/-- Induction on normal expressions, in which a sum is built by adding terms at its end. -/
@[elab_as_elim]
theorem IsNormal.sumInduction {motive : (d : Diagram) → d.IsNormal → Prop}
    (ref : ∀ t, motive (.ref t) (.ref t)) (scalar : ∀ s, motive (.scalar s) (.scalar s))
    (conj : ∀ name, motive (.conj (.scalar (.name name))) (.conj name))
    (pair : ∀ a b (ha : a.IsNormal) (hb : b.IsNormal), motive a ha → motive b hb →
      motive (.pair a b) (.pair ha hb)) (sumFirst : ∀ sign a (ha : a.IsNormal), motive a ha →
      motive (.sum sign a []) (.sum ha (by simp)))
    (sumNext : ∀ sign a rest next d (hsum : (Diagram.sum sign a rest).IsNormal) (hd : d.IsNormal),
      motive (.sum sign a rest) hsum → motive d hd →
      motive (.sum sign a (rest ++ [(next, d)])) (isNormal_sum_next.mpr ⟨hsum, hd⟩))
    (hd : d.IsNormal) : motive d hd := by
  induction hd with
  | ref t => exact ref t
  | scalar s => exact scalar s
  | conj name => exact conj name
  | pair ha hb iha ihb => exact pair _ _ ha hb iha ihb
  | @sum sign a rest ha hrest iha ihrest =>
    induction rest using List.reverseRecOn with
    | nil => exact sumFirst sign a ha iha
    | append_singleton rest p ih =>
      have hfront : ∀ q ∈ rest, q.2.IsNormal := fun q hq => hrest q (List.mem_append_left _ hq)
      refine sumNext sign a rest p.1 p.2 (.sum ha hfront) (hrest p (by simp)) ?_
        (ihrest p (by simp))
      exact ih hfront fun q hq => ihrest q (List.mem_append_left _ hq)

/-- A general tensor is not a scalar. -/
theorem IsNormal.not_isScalar_of_isGeneral (hd : d.IsNormal) (h : d.isGeneral = true) :
    ¬ d.isScalar = true := by
  obtain ⟨g, hg⟩ := Option.isSome_iff_exists.mp h
  exact hd.not_isScalar hg

/-- A scalar has no open indices. -/
theorem IsNormal.isOpen_of_isScalar (hd : d.IsNormal) (hs : d.isScalar = true) (i : Index) :
    d.isOpen i = false := by
  have hmem := hd.mem_iff_isOpen ((admits_of_isScalar hs []).mpr rfl) i
  simpa using hmem

end Diagram

/-! ## Values part by part -/

namespace Machine

open Diagram

section Equations

variable {R : Type} [Arithmetic R] (m : Machine R)

/-- Factors are multiplied one after another. -/
theorem evaluateFactors_eq (v : Evaluated R) (ds : List Diagram) :
    m.evaluateFactors v ds = ds.foldlM (fun w d => m.evaluate d >>= w.mul) v := by
  induction ds generalizing v with
  | nil => rfl
  | cons d ds ih => simp only [evaluateFactors, List.foldlM_cons, bind_assoc, ih]

/-- Terms are added one after another. -/
theorem evaluateTerms_eq (v : Evaluated R) (ps : List (Sign × Diagram)) :
    m.evaluateTerms v ps = ps.foldlM (fun w p => m.evaluate p.2 >>= w.add p.1) v := by
  induction ps generalizing v with
  | nil => rfl
  | cons p ps ih => simp only [evaluateTerms, List.foldlM_cons, bind_assoc, ih]

/-- The product of two factors. -/
theorem evaluate_pair (a b : Diagram) :
    m.evaluate (.pair a b) = m.evaluate a >>= fun x => m.evaluate b >>= fun y => x.mul y := by
  simp only [evaluate, evaluateFactors_eq, List.foldlM_nil, bind_pure]

/-- A product with one more factor. -/
theorem evaluate_product_next (a b d : Diagram) (rest : List Diagram) :
    m.evaluate (.product a b (rest ++ [d])) =
      m.evaluate (.product a b rest) >>= fun x => m.evaluate d >>= fun y => x.mul y := by
  simp only [evaluate, evaluateFactors_eq, List.foldlM_append, List.foldlM_cons, List.foldlM_nil,
    bind_assoc, bind_pure]

theorem evaluate_sum (sign : Sign) (a : Diagram) (rest : List (Sign × Diagram)) :
    m.evaluate (.sum sign a rest) =
      m.evaluate a >>= fun x => x.signed sign >>= fun v => m.evaluateTerms v rest := by
  rw [evaluate]

/-- A sum of one term. -/
theorem evaluate_sum_first (sign : Sign) (a : Diagram) :
    m.evaluate (.sum sign a []) = m.evaluate a >>= fun x => x.signed sign := by
  simp only [evaluate, evaluateTerms_eq, List.foldlM_nil, bind_pure]

/-- A sum with one more term. -/
theorem evaluate_sum_next (sign next : Sign) (a d : Diagram) (rest : List (Sign × Diagram)) :
    m.evaluate (.sum sign a (rest ++ [(next, d)])) =
      m.evaluate (.sum sign a rest) >>= fun x => m.evaluate d >>= fun y => x.add next y := by
  simp only [evaluate, evaluateTerms_eq, List.foldlM_append, List.foldlM_cons, List.foldlM_nil,
    bind_assoc, bind_pure]

end Equations

end Machine

/-! ## Products and sums of values -/

namespace Evaluated

variable {R : Type}
variable {v : Value R}

/-- The form of a product of two values. -/
inductive ProductForm : Evaluated R → Evaluated R → Evaluated R → Prop
  /-- The product of two scalars. -/
  | scalars (a b c : R) : ProductForm (plain (.scalar a)) (plain (.scalar b)) (plain (.scalar c))
  /-- A multiple of a tensor. -/
  | scaled (a : R) {t u : Tensor R} (labels : List Index) (hlegs : u.legs = t.legs) :
      ProductForm (plain (.scalar a)) (labelled (.tensor t) labels) (labelled (.tensor u) labels)
  /-- A tensor times a scalar. -/
  | scaledBy (a : R) {t u : Tensor R} (labels : List Index) (hlegs : u.legs = t.legs) :
      ProductForm (labelled (.tensor t) labels) (plain (.scalar a)) (labelled (.tensor u) labels)
  /-- Two tensors are contracted over the labels that both have. -/
  | joined (s t : Tensor R) {u : Tensor R} (labels others : List Index)
      (hcount : (labels.filter (· ∉ others) ++ others.filter (· ∉ labels)).length = u.legs.count) :
      ProductForm (labelled (.tensor s) labels) (labelled (.tensor t) others)
        (labelled (.tensor u) (labels.filter (· ∉ others) ++ others.filter (· ∉ labels)))

/-- The form of a sum of two values. -/
inductive SumForm : Evaluated R → Evaluated R → Evaluated R → Prop
  /-- The sum of two scalars. -/
  | scalars (a b c : R) : SumForm (plain (.scalar a)) (plain (.scalar b)) (plain (.scalar c))
  /-- The sum of two tensors has the labels and the legs of the first one. -/
  | tensors (t : Tensor R) {s u : Tensor R} {labels : List Index} (others : List Index)
      (hlegs : u.legs = s.legs) (hcount : labels.length = u.legs.count) :
      SumForm (labelled (.tensor s) labels) (labelled (.tensor t) others)
      (labelled (.tensor u) labels)

theorem toTensor_eq_ok_iff {t : Tensor R} : v.toTensor = .ok t ↔ v = .tensor t := by
  cases v <;> simp [Value.toTensor]

theorem toScalar_eq_ok_iff {a : R} : v.toScalar = .ok a ↔ v = .scalar a := by
  cases v <;> simp [Value.toScalar]

variable [Arithmetic R] {x y z : Evaluated R} {sign : Sign}

theorem exists_of_scaled {alpha : Value R} {labels : List Index}
    (h : scaled v labels alpha = .ok z) :
    ∃ (a : R) (t u : Tensor R), v = .tensor t ∧ alpha = .scalar a ∧
      z = labelled (.tensor u) labels ∧ u.legs = t.legs := by
  obtain ⟨t, ht, h⟩ := bind_eq_ok_iff.mp h
  obtain ⟨a, ha, h⟩ := bind_eq_ok_iff.mp h
  obtain ⟨u, hu, h⟩ := bind_eq_ok_iff.mp h
  exact ⟨a, t, u, toTensor_eq_ok_iff.mp ht, toScalar_eq_ok_iff.mp ha, (Except.ok.inj h).symm,
    Tensor.legs_of_scale hu⟩

/-- A product has one of the forms. -/
theorem productForm_of_mul (h : x.mul y = .ok z) : ProductForm x y z := by
  match x, y with
  | plain v, plain w =>
    obtain ⟨a, ha, h⟩ := bind_eq_ok_iff.mp h
    obtain ⟨b, hb, h⟩ := bind_eq_ok_iff.mp h
    obtain ⟨c, -, h⟩ := bind_eq_ok_iff.mp h
    obtain rfl := Except.ok.inj h
    obtain rfl := toScalar_eq_ok_iff.mp ha
    obtain rfl := toScalar_eq_ok_iff.mp hb
    exact .scalars a b c
  | plain v, labelled w labels =>
    obtain ⟨a, t, u, rfl, rfl, rfl, hlegs⟩ := exists_of_scaled h
    exact .scaled a labels hlegs
  | labelled v labels, plain w =>
    obtain ⟨a, t, u, rfl, rfl, rfl, hlegs⟩ := exists_of_scaled h
    exact .scaledBy a labels hlegs
  | labelled v labels, labelled w others =>
    obtain ⟨_, hs, h⟩ := bind_eq_ok_iff.mp h
    obtain ⟨_, ht, h⟩ := bind_eq_ok_iff.mp h
    obtain ⟨u, hu, h⟩ := bind_eq_ok_iff.mp h
    obtain rfl := Except.ok.inj h
    obtain ⟨s, rfl, -, rfl⟩ := toOperand_eq_ok_iff.mp hs
    obtain ⟨t, rfl, -, rfl⟩ := toOperand_eq_ok_iff.mp ht
    obtain ⟨houtputs, hinputs, -⟩ := Tensor.legs_of_contractAll hu
    exact .joined s t labels others (by rw [List.length_append, Legs.count, houtputs, hinputs])

/-- A sum has one of the forms. -/
theorem sumForm_of_add (h : x.add sign y = .ok z) : SumForm x y z := by
  match x, y with
  | plain v, plain w =>
    obtain ⟨b, hb, h⟩ := bind_eq_ok_iff.mp h
    obtain ⟨_, -, h⟩ := bind_eq_ok_iff.mp h
    obtain ⟨a, ha, h⟩ := bind_eq_ok_iff.mp h
    obtain ⟨c, -, h⟩ := bind_eq_ok_iff.mp h
    obtain rfl := Except.ok.inj h
    obtain rfl := toScalar_eq_ok_iff.mp ha
    obtain rfl := toScalar_eq_ok_iff.mp hb
    exact .scalars a b c
  | labelled v labels, labelled w others =>
    rw [add, addLabelled_eq] at h
    obtain ⟨s, hs, h⟩ := bind_eq_ok_iff.mp h
    obtain ⟨_, ht, h⟩ := bind_eq_ok_iff.mp h
    obtain ⟨arranged, harranged, h⟩ := bind_eq_ok_iff.mp h
    obtain ⟨arranged', hsigned, h⟩ := bind_eq_ok_iff.mp h
    obtain ⟨u, hu, h⟩ := bind_eq_ok_iff.mp h
    obtain rfl := Except.ok.inj h
    obtain rfl := toTensor_eq_ok_iff.mp hs
    obtain ⟨t, rfl, -, rfl⟩ := toOperand_eq_ok_iff.mp ht
    obtain ⟨houtputs, hinputs, -⟩ := Tensor.legs_of_contractAll harranged
    obtain ⟨hlegs, hsum⟩ := Tensor.legs_of_add hu
    refine .tensors t others hsum ?_
    rw [hsum, hlegs, legs_of_signedTensor hsigned, Legs.count, houtputs, hinputs,
      ← List.length_append, List.take_append_drop]
  | plain v, labelled w others => simp [add] at h
  | labelled v labels, plain w => simp [add] at h

/-- A value with a sign is the value itself or a product with a scalar. -/
theorem productForm_of_signed (h : x.signed sign = .ok z) :
    z = x ∨ ∃ a, ProductForm (plain (.scalar a)) x z := by
  cases sign with
  | plus => exact Or.inl (Except.ok.inj h).symm
  | minus => exact Or.inr ⟨_, productForm_of_mul h⟩

/-- A property of values that products and sums keep. -/
structure IsKept (P : Evaluated R → Prop) : Prop where
  /-- Every scalar has the property. -/
  scalar : ∀ a : R, P (plain (.scalar a))
  /-- Products have the property if the factors have it. -/
  product : ∀ x y z : Evaluated R, ProductForm x y z → P x → P y → P z
  /-- Sums have the property if the terms have it. -/
  sum : ∀ x y z : Evaluated R, SumForm x y z → P x → P y → P z

theorem IsKept.signed {P : Evaluated R → Prop} (hP : IsKept P) (hx : P x)
    (h : x.signed sign = .ok z) : P z := by
  rcases productForm_of_signed h with rfl | ⟨a, hform⟩
  · exact hx
  · exact hP.product _ _ _ hform (hP.scalar a) hx

omit [Arithmetic R] in
/-- No label of a product or sum is repeated if none is in the factors or terms. -/
theorem isKept_isDistinct : IsKept (IsDistinct : Evaluated R → Prop) where
  scalar _ := trivial
  product x y z hform hx hy := by
    cases hform with
    | scalars => trivial
    | scaled => exact hy
    | scaledBy => exact hx
    | joined => exact (perm_once_append hx hy).nodup_iff.mpr (nodup_once _)
  sum x y z hform hx _ := by
    cases hform with
    | scalars => trivial
    | tensors => exact hx

end Evaluated

/-! ## Properties of all values -/

namespace Diagram

mutual
/-- The named scalars that an expression, or the right hand side of an assignment, reads. -/
def scalarNames : Diagram → List String
  | scalar (.name text) => [text]
  | conj a => a.scalarNames
  | product a b rest => a.scalarNames ++ b.scalarNames ++ listScalarNames rest
  | sum _ a rest => a.scalarNames ++ termScalarNames rest
  | assign _ rhs _ => rhs.scalarNames
  | _ => []
/-- The named scalars in a list of factors. -/
def listScalarNames : List Diagram → List String
  | [] => []
  | d :: rest => d.scalarNames ++ listScalarNames rest
/-- The named scalars in a list of terms. -/
def termScalarNames : List (Sign × Diagram) → List String
  | [] => []
  | (_, d) :: rest => d.scalarNames ++ termScalarNames rest
end

variable {ds : List Diagram} {ps : List (Sign × Diagram)}

/-- The named scalars of all factors. -/
theorem listScalarNames_eq : listScalarNames ds = ds.flatMap scalarNames := by
  induction ds with
  | nil => rfl
  | cons d ds ih => rw [listScalarNames, ih, List.flatMap_cons]

/-- The named scalars of all terms. -/
theorem termScalarNames_eq : termScalarNames ps = ps.flatMap fun p => p.2.scalarNames := by
  induction ps with
  | nil => rfl
  | cons p ps ih => rw [termScalarNames, ih, List.flatMap_cons]

end Diagram

namespace Machine

open Evaluated

variable {R : Type} [Arithmetic R] {m : Machine R} {P : Evaluated R → Prop} (hP : IsKept P)
variable {x : Evaluated R}

include hP

/-- A property that products and sums keep holds for the value of an expression if it holds for the
values of its references and of its named scalars. -/
theorem keeps_evaluate (d : Diagram) (href : ∀ t ∈ d.tensors, ∀ x, m.evaluateRef t = .ok x → P x)
    (hname : ∀ text ∈ d.scalarNames, ∀ v, m.namedScalar text = .ok v → P (plain v))
    (h : m.evaluate d = .ok x) : P x := by
  induction d generalizing x with
  | ref t => exact href t (List.mem_singleton.mpr rfl) x (by rwa [evaluate] at h)
  | scalar s =>
    rw [evaluate] at h
    cases s with
    | name text =>
      obtain ⟨v, hv, h⟩ := bind_eq_ok_iff.mp h
      obtain rfl := Except.ok.inj h
      exact hname text (List.mem_singleton.mpr rfl) v hv
    | number y =>
      obtain rfl := Except.ok.inj h
      exact hP.scalar _
  | conj a _ =>
    rw [evaluate] at h
    obtain ⟨y, -, h⟩ := bind_eq_ok_iff.mp h
    match y with
    | plain (.scalar b) =>
      obtain rfl := Except.ok.inj h
      exact hP.scalar _
    | plain (.tensor t) => cases h
    | labelled v labels => cases h
  | product a b rest iha ihb ih =>
    rw [Diagram.tensors, Diagram.listTensors_eq, List.forall_mem_append, List.forall_mem_append,
      List.forall_mem_flatMap] at href
    rw [Diagram.scalarNames, Diagram.listScalarNames_eq, List.forall_mem_append,
      List.forall_mem_append, List.forall_mem_flatMap] at hname
    rw [evaluate] at h
    obtain ⟨y, hy, h⟩ := bind_eq_ok_iff.mp h
    obtain ⟨z, hz, h⟩ := bind_eq_ok_iff.mp h
    obtain ⟨w, hw, h⟩ := bind_eq_ok_iff.mp h
    have hPw := hP.product y z w (productForm_of_mul hw) (iha href.1.1 hname.1.1 hy)
      (ihb href.1.2 hname.1.2 hz)
    rw [evaluateFactors_eq] at h
    refine foldlM_keeps (fun v hv d hd w hw => ?_) hPw h
    obtain ⟨y, hy, hw⟩ := bind_eq_ok_iff.mp hw
    exact hP.product v y w (productForm_of_mul hw) hv (ih d hd (href.2 d hd) (hname.2 d hd) hy)
  | sum sign a rest iha ih =>
    rw [Diagram.tensors, Diagram.termTensors_eq, List.forall_mem_append,
      List.forall_mem_flatMap] at href
    rw [Diagram.scalarNames, Diagram.termScalarNames_eq, List.forall_mem_append,
      List.forall_mem_flatMap] at hname
    rw [evaluate] at h
    obtain ⟨y, hy, h⟩ := bind_eq_ok_iff.mp h
    obtain ⟨w, hw, h⟩ := bind_eq_ok_iff.mp h
    rw [evaluateTerms_eq] at h
    refine foldlM_keeps (fun v hv p hp w hw => ?_) (hP.signed (iha href.1 hname.1 hy) hw) h
    obtain ⟨y, hy, hw⟩ := bind_eq_ok_iff.mp hw
    exact hP.sum v y w (sumForm_of_add hw) hv (ih p hp (href.2 p hp) (hname.2 p hp) hy)
  | _ => simp [evaluate] at h

omit hP

/-- The value of a reference is what it stands for, with the indices as labels, or a trace of it. -/
theorem evaluateRef_cases (h : m.evaluateRef t = .ok x) :
    (∃ v, m.referent t.object t.isAdjoint = .ok v ∧ t.indices.Nodup ∧ x = labelled v t.indices) ∨
      ∃ (u : Tensor R) (labels : List Index), labels.Nodup ∧ labels.length = u.legs.count ∧
        x = labelled (.tensor u) labels := by
  obtain ⟨v, hv, h⟩ := bind_eq_ok_iff.mp h
  split_ifs at h with hdup
  · exact Or.inl ⟨v, hv, isEmpty_duplicates_iff.mp hdup, (Except.ok.inj h).symm⟩
  · obtain ⟨operand, -, h⟩ := bind_eq_ok_iff.mp h
    obtain ⟨u, hu, h⟩ := bind_eq_ok_iff.mp h
    obtain ⟨houtputs, hinputs, hnodup⟩ := Tensor.legs_of_contractAll hu
    exact Or.inr ⟨u, _, hnodup, by rw [List.length_append, Legs.count, houtputs, hinputs],
      (Except.ok.inj h).symm⟩

/-- No label of a value is repeated. -/
theorem isDistinct_of_evaluate (h : m.evaluate d = .ok x) : x.IsDistinct := by
  refine keeps_evaluate isKept_isDistinct d (fun t _ y hy => ?_) (fun _ _ _ _ => trivial) h
  rcases evaluateRef_cases hy with ⟨v, -, hnodup, rfl⟩ | ⟨u, labels, hnodup, -, rfl⟩
  · exact hnodup
  · exact hnodup

end Machine

/-! ## The form of a value -/

namespace Evaluated

variable {R : Type}
variable {x : Evaluated R}

/-- The value has the form that an expression asks for: that of a scalar is plain, and the labels of
any other are the open indices. -/
def HasForm (d : Diagram) : Evaluated R → Prop
  | plain _ => d.isScalar = true
  | labelled _ labels => ¬ d.isScalar = true ∧ labels.Nodup ∧ ∀ i, i ∈ labels ↔ d.isOpen i = true

/-- The value of an expression that is not a scalar has labels. -/
theorem HasForm.exists_labelled (h : x.HasForm d) (hs : ¬ d.isScalar = true) :
    ∃ v labels, x = labelled v labels := by
  cases x with
  | plain v => exact absurd h hs
  | labelled v labels => exact ⟨v, labels, rfl⟩

variable [Arithmetic R]

/-- A value with a sign has the same labels. -/
theorem HasForm.signed {d' : Diagram} {z : Evaluated R} {sign : Sign} (h : x.HasForm d)
    (hz : x.signed sign = .ok z) (hscalar : d'.isScalar = d.isScalar)
    (hopen : ∀ i, d'.isOpen i = d.isOpen i) : z.HasForm d' := by
  have hform : x.HasForm d' := by
    cases x with
    | plain v => exact hscalar.trans h
    | labelled v labels =>
      exact ⟨by rw [hscalar]; exact h.1, h.2.1, fun i => by rw [hopen]; exact h.2.2 i⟩
  rcases productForm_of_signed hz with rfl | ⟨a, hproduct⟩
  · exact hform
  · cases hproduct <;> exact hform

omit [Arithmetic R] in
/-- The labels of a product are those that only one of the factors has. -/
theorem HasForm.mul {a b : Diagram} {y z : Evaluated R} (hx : x.HasForm a) (hy : y.HasForm b)
    (ha : a.IsNormal) (hb : b.IsNormal) (hz : ProductForm x y z) : z.HasForm (.pair a b) := by
  cases hz with
  | scalars =>
    have hs : a.isScalar = true := hx
    have hs' : b.isScalar = true := hy
    simp [HasForm, Diagram.isScalar, Diagram.allScalar, hs, hs']
  | scaled =>
    refine ⟨?_, hy.2.1, fun i => ?_⟩
    · simp [Diagram.isScalar, hy.1]
    · rw [hy.2.2 i, Diagram.isOpen, ha.isOpen_of_isScalar hx, Bool.false_xor]
  | scaledBy =>
    refine ⟨?_, hx.2.1, fun i => ?_⟩
    · simp [Diagram.isScalar, hx.1]
    · rw [hx.2.2 i, Diagram.isOpen, hb.isOpen_of_isScalar hy, Bool.xor_false]
  | joined =>
    refine ⟨?_, (perm_once_append hx.2.1 hy.2.1).nodup_iff.mpr (nodup_once _), fun i => ?_⟩
    · simp [Diagram.isScalar, hx.1]
    · rw [Diagram.isOpen, List.mem_append, List.mem_filter, List.mem_filter, decide_eq_true_eq,
        decide_eq_true_eq, hx.2.2 i, hy.2.2 i]
      cases a.isOpen i <;> cases b.isOpen i <;> simp

end Evaluated

namespace Diagram

variable {R : Type} [CommRing R] [StarRing R] [Arithmetic R] [Arithmetic.IsExact R] {m : Machine R}

/-- The labels of a reference are the indices that appear an odd number of times. -/
theorem hasForm_ref {x : Evaluated R} (h : m.evaluateRef t = .ok x) : x.HasForm (.ref t) := by
  obtain ⟨value, -, h⟩ := bind_eq_ok_iff.mp h
  by_cases hdup : (duplicates [] t.indices).isEmpty = true
  · rw [if_pos hdup] at h
    obtain rfl := Except.ok.inj h
    have hnd := isEmpty_duplicates_iff.mp hdup
    refine ⟨by simp [isScalar], hnd, fun i => ?_⟩
    rw [isOpen, decide_eq_true_eq, hnd.count]
    split_ifs with hi <;> simp [hi]
  · rw [if_neg hdup] at h
    obtain ⟨operand, hoperand, h⟩ := bind_eq_ok_iff.mp h
    obtain ⟨u, hu, h⟩ := bind_eq_ok_iff.mp h
    obtain rfl := Except.ok.inj h
    obtain ⟨s, -, hcount, rfl⟩ := Evaluated.toOperand_eq_ok_iff.mp hoperand
    have hspec := Tensor.contractAll_spec hu
    refine ⟨by simp [isScalar], hspec.nodup, fun i => ?_⟩
    have hle := hspec.joinable.count_le i
    rw [Tensor.network_singleton, Tensor.labels_toArray hcount, Multiset.coe_count] at hle
    have hcount_mem : i ∈ t.left ++ t.right ↔ 0 < t.indices.count i := List.count_pos_iff.symm
    rw [← List.filter_append, List.mem_filter, hcount_mem, isOpen, decide_eq_true_eq,
      decide_eq_true_eq]
    omega

/-- The labels of the value of an expression are its open indices. -/
theorem IsNormal.hasForm (hd : d.IsNormal) {x : Evaluated R} (h : m.evaluate d = .ok x) :
    x.HasForm d := by
  induction hd using IsNormal.sumInduction generalizing x with
  | ref t => exact hasForm_ref (by rwa [Machine.evaluate] at h)
  | scalar s =>
    rw [Machine.evaluate] at h
    cases s with
    | number y =>
      obtain rfl := Except.ok.inj h
      rfl
    | name text =>
      obtain ⟨v, -, h⟩ := bind_eq_ok_iff.mp h
      obtain rfl := Except.ok.inj h
      rfl
  | conj name =>
    rw [Machine.evaluate, Machine.evaluate] at h
    obtain ⟨y, hy, h⟩ := bind_eq_ok_iff.mp h
    obtain ⟨v, -, hy⟩ := bind_eq_ok_iff.mp hy
    obtain rfl := Except.ok.inj hy
    cases v with
    | tensor t => cases h
    | scalar z =>
      obtain rfl := Except.ok.inj h
      rfl
  | pair a b ha hb iha ihb =>
    rw [Machine.evaluate_pair] at h
    obtain ⟨y, hy, h⟩ := bind_eq_ok_iff.mp h
    obtain ⟨z, hz, h⟩ := bind_eq_ok_iff.mp h
    exact (iha hy).mul (ihb hz) ha hb (Evaluated.productForm_of_mul h)
  | sumFirst sign a ha iha =>
    rw [Machine.evaluate_sum_first] at h
    obtain ⟨y, hy, h⟩ := bind_eq_ok_iff.mp h
    exact (iha hy).signed h (by simp [isScalar, allScalarTerms]) fun i => by rw [isOpen]
  | sumNext sign a rest next d hsum hd ihsum ihd =>
    rw [Machine.evaluate_sum_next] at h
    obtain ⟨y, hy, h⟩ := bind_eq_ok_iff.mp h
    obtain ⟨z, hz, h⟩ := bind_eq_ok_iff.mp h
    have hyform := ihsum hy
    have hzform := ihd hz
    cases Evaluated.sumForm_of_add h with
    | scalars =>
      have hs := isScalar_sum_iff.mp hyform
      refine isScalar_sum_iff.mpr ⟨hs.1, fun p hp => ?_⟩
      rcases List.mem_append.mp hp with hp | hp
      · exact hs.2 p hp
      · rw [List.mem_singleton.mp hp]
        exact hzform
    | tensors =>
      refine ⟨fun hs => hyform.1 ?_, hyform.2.1, fun i => by rw [hyform.2.2 i, isOpen, isOpen]⟩
      have hs := isScalar_sum_iff.mp hs
      exact isScalar_sum_iff.mpr ⟨hs.1, fun p hp => hs.2 p (List.mem_append_left _ hp)⟩

end Diagram

/-! ## Meanings part by part -/

namespace Machine

open Diagram Evaluated

variable {R : Type} [CommRing R] [Arithmetic R]
variable {N : LegArray R} {rhs : Diagram} {w : Tensor R}

/-- What the value of an expression means, if it has one. -/
def denote (m : Machine R) (d : Diagram) : Option (Meaning R) :=
  outcome? (m.evaluate d)

variable [StarRing R] [Arithmetic.IsExact R] {m : Machine R}

/-- The meaning of a product of two factors. -/
theorem denote_pair (a b : Diagram) :
    m.denote (.pair a b) = (m.denote a).bind fun u => (m.denote b).bind fun v => u.mul v := by
  rw [denote, denote, denote, evaluate_pair]
  rcases hx : m.evaluate a with e | x
  · rfl
  · rcases hy : m.evaluate b with e | y
    · exact (Option.bind_fun_none _).symm
    · exact outcome?_mul (isDistinct_of_evaluate hx) (isDistinct_of_evaluate hy)

/-- The meaning of a product with one more factor. -/
theorem denote_product_next (a b d : Diagram) (rest : List Diagram) :
    m.denote (.product a b (rest ++ [d])) =
      (m.denote (.product a b rest)).bind fun u => (m.denote d).bind fun v => u.mul v := by
  rw [denote, denote, denote, evaluate_product_next]
  rcases hx : m.evaluate (.product a b rest) with e | x
  · rfl
  · rcases hy : m.evaluate d with e | y
    · exact (Option.bind_fun_none _).symm
    · exact outcome?_mul (isDistinct_of_evaluate hx) (isDistinct_of_evaluate hy)

/-- The meaning of a sum of one term. -/
theorem denote_sum_first (sign : Sign) (a : Diagram) :
    m.denote (.sum sign a []) = (m.denote a).map (Meaning.signed sign) := by
  rw [denote, denote, evaluate_sum_first]
  rcases hx : m.evaluate a with e | x
  · rfl
  · exact outcome?_signed sign (isDistinct_of_evaluate hx)

/-- The meaning of a sum with one more term. -/
theorem denote_sum_next (sign next : Sign) (a d : Diagram) (rest : List (Sign × Diagram)) :
    m.denote (.sum sign a (rest ++ [(next, d)])) =
      (m.denote (.sum sign a rest)).bind fun u => (m.denote d).bind fun v => u.add next v := by
  rw [denote, denote, denote, evaluate_sum_next]
  rcases hx : m.evaluate (.sum sign a rest) with e | x
  · rfl
  · rcases hy : m.evaluate d with e | y
    · exact (Option.bind_fun_none _).symm
    · exact outcome?_add (isDistinct_of_evaluate hx) (isDistinct_of_evaluate hy) next

/-! ## Assigned tensors -/

/-- The tensor is the array with its legs in the order of a reference. -/
structure IsArranged (t : TensorRef) (N : LegArray R) (w : Tensor R) : Prop where
  /-- The array of the tensor. -/
  array_eq : w.toArray t.indices = N
  /-- The outputs of the tensor. -/
  outputs : w.legs.codomain.length = t.left.length
  /-- Every leg has a label. -/
  count_eq : t.indices.length = w.legs.count
  /-- No label is repeated. -/
  nodup : t.indices.Nodup

omit [StarRing R] [Arithmetic.IsExact R] in
/-- The labels of the reference are those of the array. -/
theorem IsArranged.labels_eq (h : IsArranged t N w) : (t.indices : Multiset Index) = N.labels := by
  rw [← h.array_eq, Tensor.labels_toArray h.count_eq]

/-- There is one tensor for an array and an order of its legs. -/
theorem IsArranged.agrees {v : Tensor R} (hv : IsArranged t N v) (hw : IsArranged t N w) :
    v.Agrees w :=
  Tensor.agrees_of_toArray_eq hv.nodup hv.count_eq hw.count_eq (hv.outputs.trans hw.outputs.symm)
    (hv.array_eq.trans hw.array_eq.symm)

/-- A contraction in the order of a reference. -/
theorem isArranged_of_contractAll {operands : List (Tensor.Operand R)}
    (h : Tensor.contractAll operands t.left t.right = .ok w) :
    IsArranged t (Tensor.network operands).contract w :=
  have hspec := Tensor.contractAll_spec h
  ⟨hspec.array_eq, hspec.outputs, hspec.count_eq, hspec.nodup⟩

/-- A right hand side that is contracted directly in the order of the left hand side. -/
def IsDirect (rhs : Diagram) : Prop :=
  ∃ a b, rhs = .pair a b ∧ a.isGeneral = true ∧ b.isGeneral = true

/-- The tensors that are contracted for an assignment. -/
inductive Supplies (m : Machine R) : Diagram → List (Tensor.Operand R) → Prop
  /-- Two general tensors. -/
  | direct {a b : Diagram} {s t : Tensor R} {labels others : List Index} (ha : a.isGeneral = true)
      (hb : b.isGeneral = true) (hs : m.evaluate a = .ok (labelled (.tensor s) labels))
      (ht : m.evaluate b = .ok (labelled (.tensor t) others))
      (hcount : labels.length = s.legs.count) (hcount' : others.length = t.legs.count) :
      Supplies m (.pair a b) [⟨s, labels⟩, ⟨t, others⟩]
  /-- Anything else. -/
  | single {rhs : Diagram} {s : Tensor R} {labels : List Index} (hrhs : ¬ IsDirect rhs)
      (hs : m.evaluate rhs = .ok (labelled (.tensor s) labels))
      (hcount : labels.length = s.legs.count) : Supplies m rhs [⟨s, labels⟩]

omit [CommRing R] [StarRing R] [Arithmetic.IsExact R] in
theorem arrangedValue_pair (m : Machine R) (t : TensorRef) {a b : Diagram} (ha : a.isGeneral = true)
    (hb : b.isGeneral = true) (isDefinition : Bool) :
    m.arrangedValue (.ref t) (.pair a b) isDefinition =
      m.evaluate a >>= fun x => m.evaluate b >>= fun y =>
        match x, y with
        | labelled v labels, labelled w others => v.toOperand labels >>= fun s =>
          w.toOperand others >>= fun u => Tensor.contractAll [s, u] t.left t.right
        | _, _ => .error .notTensor := by
  rw [arrangedValue]
  simp only [ha, hb, Bool.and_true, if_true]
  rcases m.evaluate a with e | x
  · rfl
  rcases m.evaluate b with e | y
  · rfl
  rcases x with ⟨v, labels⟩ | v
  · rcases y with ⟨w, others⟩ | w
    · simp only [ok_bind, arrange]
      rcases v.toOperand labels with e | s
      · rfl
      · rcases w.toOperand others with e | u <;> rfl
    · rfl
  · rfl

omit [CommRing R] [StarRing R] [Arithmetic.IsExact R] in
theorem arrangedValue_single (m : Machine R) (t : TensorRef) (h : ¬ IsDirect rhs)
    (isDefinition : Bool) :
    m.arrangedValue (.ref t) rhs isDefinition = m.evaluate rhs >>= fun x =>
      match x with
      | labelled v labels =>
        v.toOperand labels >>= fun s => Tensor.contractAll [s] t.left t.right
      | plain _ => .error (.scalarToTensor (.assign (.ref t) rhs isDefinition)) := by
  have hother : m.arrangedValue (.ref t) rhs isDefinition = m.evaluate rhs >>= fun x =>
      match x with
      | labelled v labels => arrange (.ref t) (v.toOperand labels >>= fun s => .ok [s])
      | plain _ => .error (.scalarToTensor (.assign (.ref t) rhs isDefinition)) := by
    unfold arrangedValue
    dsimp only
    split
    · rename_i a b
      rw [if_neg fun hab => h ⟨a, b, rfl, by simpa using hab⟩]
      rfl
    · rfl
  rw [hother]
  rcases m.evaluate rhs with e | x
  · rfl
  · cases x with
    | plain v => rfl
    | labelled v labels =>
      simp only [ok_bind, arrange]
      rcases v.toOperand labels with e | s <;> rfl

omit [CommRing R] [StarRing R] [Arithmetic.IsExact R] in
/-- The value that is assigned is the contraction of these tensors. -/
theorem arrangedValue_eq_ok_iff {isDefinition : Bool} :
    m.arrangedValue (.ref t) rhs isDefinition = .ok w ↔
      ∃ operands, Supplies m rhs operands ∧ Tensor.contractAll operands t.left t.right = .ok w := by
  by_cases hdirect : IsDirect rhs
  · obtain ⟨a, b, rfl, ha, hb⟩ := hdirect
    rw [arrangedValue_pair m t ha hb]
    constructor
    · intro h
      obtain ⟨x, hx, h⟩ := bind_eq_ok_iff.mp h
      obtain ⟨y, hy, h⟩ := bind_eq_ok_iff.mp h
      match x, y with
      | labelled v labels, labelled v' others =>
        obtain ⟨s, hs, h⟩ := bind_eq_ok_iff.mp h
        obtain ⟨u, hu, h⟩ := bind_eq_ok_iff.mp h
        obtain ⟨s, rfl, hcount, rfl⟩ := toOperand_eq_ok_iff.mp hs
        obtain ⟨u, rfl, hcount', rfl⟩ := toOperand_eq_ok_iff.mp hu
        exact ⟨_, .direct ha hb hx hy hcount hcount', h⟩
      | labelled v labels, plain v' => cases h
      | plain v, y => cases h
    · rintro ⟨operands, hsupplies, h⟩
      cases hsupplies with
      | direct _ _ hx hy hcount hcount' =>
        rw [hx, hy]
        simp only [ok_bind, toOperand_tensor, if_pos hcount, if_pos hcount', h]
      | single hrhs _ _ => exact absurd ⟨a, b, rfl, ha, hb⟩ hrhs
  · rw [arrangedValue_single m t hdirect]
    constructor
    · intro h
      obtain ⟨x, hx, h⟩ := bind_eq_ok_iff.mp h
      cases x with
      | plain v => cases h
      | labelled v labels =>
        obtain ⟨s, hs, h⟩ := bind_eq_ok_iff.mp h
        obtain ⟨s, rfl, hcount, rfl⟩ := toOperand_eq_ok_iff.mp hs
        exact ⟨_, .single hdirect hx hcount, h⟩
    · rintro ⟨operands, hsupplies, h⟩
      cases hsupplies with
      | direct ha hb _ _ _ _ => exact absurd ⟨_, _, rfl, ha, hb⟩ hdirect
      | single _ hx hcount =>
        rw [hx]
        simp only [ok_bind, toOperand_tensor, if_pos hcount, h]

/-- These tensors have the meaning of the right hand side. -/
theorem Supplies.denote_eq {operands : List (Tensor.Operand R)} (h : Supplies m rhs operands)
    (hrhs : rhs.IsNormal) (hjoin : (Tensor.network operands).Joinable) :
    m.denote rhs = some (.array (Tensor.network operands).contract) := by
  cases h with
  | direct ha hb hs ht hcount hcount' =>
    rw [Tensor.network_pair] at hjoin ⊢
    rw [denote_pair, denote, denote, hs, ht, outcome?_ok, outcome?_ok,
      meaning?, meaning?, if_pos hcount, if_pos hcount', Option.bind_some,
      Option.bind_some, Meaning.mul, if_pos hjoin]
  | single _ hs hcount =>
    rw [Tensor.network_singleton, Tensor.contract_toArray hcount (isDistinct_of_evaluate hs),
      denote, hs, outcome?_ok, meaning?, if_pos hcount]

omit [StarRing R] [Arithmetic.IsExact R] in
/-- The value of an expression that means an array. -/
theorem exists_of_denote_eq (h : m.denote d = some (.array N)) :
    ∃ (t : Tensor R) (labels : List Index), m.evaluate d = .ok (labelled (.tensor t) labels) ∧
      labels.length = t.legs.count ∧ N = t.toArray labels := by
  rw [denote] at h
  rcases hx : m.evaluate d with e | x
  · rw [hx] at h
    cases h
  · rw [hx, outcome?_ok] at h
    obtain ⟨t, labels, rfl, hcount, hN⟩ := meaning?_eq_array_iff.mp h
    exact ⟨t, labels, rfl, hcount, hN⟩

/-- An expression that is not a scalar means an array, if anything. -/
theorem exists_array_of_denote_eq (hd : d.IsNormal) (hs : ¬ d.isScalar = true) {u : Meaning R}
    (h : m.denote d = some u) : ∃ N, u = .array N := by
  rw [denote] at h
  rcases hx : m.evaluate d with e | x
  · rw [hx] at h
    cases h
  · obtain ⟨v, labels, rfl⟩ := (hd.hasForm hx).exists_labelled hs
    rw [hx, outcome?_ok] at h
    exact exists_array_of_labelled h

/-- The labels of an array are those of any order that the expression admits. -/
theorem labels_eq_of_admits (hd : d.IsNormal) (h : m.denote d = some (.array N))
    {order : List Index} (hadm : d.Admits order) : N.labels = (order : Multiset Index) := by
  obtain ⟨t, labels, ht, hcount, rfl⟩ := exists_of_denote_eq h
  obtain ⟨-, hnd, hmem⟩ := hd.hasForm ht
  rw [Tensor.labels_toArray hcount]
  refine Multiset.coe_eq_coe.mpr ((List.perm_ext_iff_of_nodup hnd (hd.nodup_of_admits hadm)).mpr ?_)
  exact fun i => (hmem i).trans (hd.mem_iff_isOpen hadm i).symm

/-- The tensors of a right hand side that means an array. -/
theorem exists_supplies (hrhs : rhs.IsNormal) (h : m.denote rhs = some (.array N)) :
    ∃ operands, Supplies m rhs operands ∧ (∀ x ∈ operands, x.IsProper) ∧
      (Tensor.network operands).Joinable ∧ (Tensor.network operands).contract = N := by
  by_cases hdirect : IsDirect rhs
  · obtain ⟨a, b, rfl, ha, hb⟩ := hdirect
    obtain ⟨hna, hnb⟩ := hrhs.of_pair
    rw [denote_pair] at h
    obtain ⟨u, hu, h⟩ := Option.bind_eq_some_iff.mp h
    obtain ⟨v, hv, h⟩ := Option.bind_eq_some_iff.mp h
    obtain ⟨X, rfl⟩ := exists_array_of_denote_eq hna (hna.not_isScalar_of_isGeneral ha) hu
    obtain ⟨Y, rfl⟩ := exists_array_of_denote_eq hnb (hnb.not_isScalar_of_isGeneral hb) hv
    rw [Meaning.mul] at h
    split_ifs at h with hjoin
    obtain ⟨s, labels, hs, hcount, rfl⟩ := exists_of_denote_eq hu
    obtain ⟨t, others, ht, hcount', rfl⟩ := exists_of_denote_eq hv
    refine ⟨_, .direct ha hb hs ht hcount hcount', ?_, ?_, ?_⟩
    · simpa [Tensor.Operand.IsProper] using ⟨hcount, hcount'⟩
    · rwa [Tensor.network_pair]
    · rw [Tensor.network_pair]
      exact Meaning.array.inj (Option.some.inj h)
  · obtain ⟨t, labels, ht, hcount, rfl⟩ := exists_of_denote_eq h
    have hnd : labels.Nodup := isDistinct_of_evaluate ht
    refine ⟨_, .single hdirect ht hcount, ?_, ?_, ?_⟩
    · simpa [Tensor.Operand.IsProper] using hcount
    · rw [Tensor.network_singleton]
      exact Tensor.joinable_toArray hcount hnd
    · rw [Tensor.network_singleton, Tensor.contract_toArray hcount hnd]

/-- An assigned tensor has the meaning of the right hand side. -/
theorem denote_of_arrangedValue {isDefinition : Bool} (hrhs : rhs.IsNormal)
    (h : m.arrangedValue (.ref t) rhs isDefinition = .ok w) :
    ∃ N, m.denote rhs = some (.array N) ∧ IsArranged t N w := by
  obtain ⟨operands, hsupplies, h⟩ := arrangedValue_eq_ok_iff.mp h
  exact ⟨_, hsupplies.denote_eq hrhs (Tensor.contractAll_spec h).joinable,
    isArranged_of_contractAll h⟩

/-- A right hand side with the labels of the left hand side can be assigned. -/
theorem exists_arrangedValue (isDefinition : Bool) (hrhs : rhs.IsNormal)
    (h : m.denote rhs = some (.array N)) (hlabels : (t.indices : Multiset Index) = N.labels) :
    ∃ w, m.arrangedValue (.ref t) rhs isDefinition = .ok w ∧ IsArranged t N w := by
  obtain ⟨operands, hsupplies, hproper, hjoin, rfl⟩ := exists_supplies hrhs h
  obtain ⟨w, hw, -⟩ := Tensor.contractAll_of_checks hproper hjoin hlabels
  exact ⟨w, arrangedValue_eq_ok_iff.mpr ⟨operands, hsupplies, hw⟩, isArranged_of_contractAll hw⟩

end Machine

end TensorDiagram
