import TensorDiagram.Proofs.Denotation

/-!
# Values and machines that agree

Values agree if they are the same scalar or tensors with the same legs and entries.  The kinds of
the numbers may differ, which exact arithmetic does not see.  Operations on values that agree have
the same outcome, and so has the evaluation of an expression on machines that agree about its
objects (`IsNormal.evaluate_sameOutcome`).  An assignment leaves machines that agree in agreement
(`assign_sameOutcome`).
-/

namespace TensorDiagram

variable {d : Diagram}

/-! ## Tensors -/

namespace Tensor

variable {R : Type} [CommRing R] [StarRing R] [Arithmetic R] [Arithmetic.IsExact R]
variable {s t : Tensor R}

/-- Tensors that agree have the same shape. -/
theorem Agrees.shape_eq {R : Type} {s t : Tensor R} (h : s.Agrees t) :
    s.grid.shape = t.grid.shape := by
  rw [shape_eq_map, shape_eq_map, h.legs_eq]

/-- Tensors that agree are the same function. -/
theorem Agrees.get_eq (h : s.Agrees t) : s.grid.get = t.grid.get :=
  funext (Grid.get_congr h.shape_eq h.entries_eq)

/-- Adjoints of tensors that agree. -/
theorem Agrees.adjoint (h : s.Agrees t) : s.adjoint.Agrees t.adjoint where
  legs_eq := congrArg Legs.adjoint h.legs_eq
  entries_eq := by simp only [Tensor.adjoint, Grid.ofFn, h.shape_eq, h.legs_eq, h.get_eq]

/-- Multiples of tensors that agree. -/
theorem Agrees.scale (h : s.Agrees t) (x : R) :
    SameOutcome Tensor.Agrees (s.scale x) (t.scale x) := by
  rw [Tensor.scale, Tensor.scale, if_pos (Arithmetic.IsExact.storable_eq _ _),
    if_pos (Arithmetic.IsExact.storable_eq _ _)]
  refine .ok ⟨h.legs_eq, ?_⟩
  simp only [Grid.map, Arithmetic.IsExact.widen_eq, h.entries_eq]

/-- Sums of tensors that agree. -/
theorem Agrees.add {s' t' : Tensor R} (hs : s.Agrees s') (ht : t.Agrees t') :
    SameOutcome Tensor.Agrees (s.add t) (s'.add t') := by
  rw [Tensor.add, Tensor.add]
  have hlegs : s.legs = t.legs ↔ s'.legs = t'.legs := by rw [hs.legs_eq, ht.legs_eq]
  by_cases h : s.legs = t.legs
  · rw [if_pos h, if_pos (hlegs.mp h)]
    refine .ok ⟨hs.legs_eq, ?_⟩
    simp only [Grid.ofFn, Arithmetic.IsExact.widen_eq, hs.shape_eq, hs.get_eq, ht.get_eq]
  · rw [if_neg h, if_neg fun h' => h (hlegs.mpr h')]
    exact .error _ _

/-- Tensors that agree are the same scalar, or none. -/
theorem Agrees.toScalar (h : s.Agrees t) : SameOutcome Eq s.toScalar t.toScalar := by
  rw [Tensor.toScalar, Tensor.toScalar, h.legs_eq, h.get_eq]
  exact .refl (fun _ => rfl) _

/-- Operands with the same labels whose tensors agree. -/
structure Operand.Agrees {R : Type} (x y : Operand R) : Prop where
  /-- The labels are the same. -/
  labels_eq : x.labels = y.labels
  /-- The tensors agree. -/
  tensor : x.tensor.Agrees y.tensor

/-- Operands that agree are the same network. -/
theorem network_eq {operands others : List (Operand R)}
    (h : List.Forall₂ Operand.Agrees operands others) : network operands = network others := by
  induction h with
  | nil => rfl
  | @cons x y _ _ hxy _ ih =>
    rw [network, List.map_cons, List.prod_cons, network, List.map_cons, List.prod_cons,
      hxy.labels_eq, hxy.tensor.toArray_eq]
    exact congrArg (y.tensor.toArray y.labels * ·) ih

/-- The contraction of operands that agree. -/
theorem contractAll_sameOutcome {operands others : List (Operand R)}
    (h : List.Forall₂ Operand.Agrees operands others) (left right : List Index) :
    SameOutcome Agrees (contractAll operands left right) (contractAll others left right) := by
  have hproper : (∀ x ∈ operands, x.IsProper) ↔ ∀ y ∈ others, y.IsProper := by
    induction h with
    | nil => rfl
    | cons hxy _ ih =>
      rw [List.forall_mem_cons, List.forall_mem_cons, ih, Operand.IsProper, Operand.IsProper,
        hxy.labels_eq, hxy.tensor.legs_eq]
  have hnetwork := network_eq h
  exact contractAll_sameOutcome_of_network hproper (by rw [hnetwork]) (by rw [hnetwork]) left right

end Tensor

/-! ## Values -/

/-- The same scalar, or tensors that agree. -/
inductive Value.Agrees {R : Type} : Value R → Value R → Prop
  | tensor {s t : Tensor R} (h : s.Agrees t) : Agrees (.tensor s) (.tensor t)
  | scalar (x : R) : Agrees (.scalar x) (.scalar x)

namespace Value.Agrees

variable {R : Type} {u v w : Value R}

/-- Every value agrees with itself. -/
theorem refl (v : Value R) : v.Agrees v := by
  cases v with
  | tensor t => exact .tensor (.refl t)
  | scalar x => exact .scalar x

/-- Agreement goes both ways. -/
theorem symm (h : v.Agrees w) : w.Agrees v := by
  cases h with
  | tensor h => exact .tensor h.symm
  | scalar x => exact .scalar x

/-- Agreement is passed on. -/
theorem trans (h : u.Agrees v) (h' : v.Agrees w) : u.Agrees w := by
  cases h with
  | tensor h =>
    cases h' with
    | tensor h' => exact .tensor (h.trans h')
  | scalar x => exact h'

/-- Values that agree, as tensors. -/
theorem toTensor (h : v.Agrees w) : SameOutcome Tensor.Agrees v.toTensor w.toTensor := by
  cases h with
  | tensor h => exact .ok h
  | scalar x => exact .error _ _

/-- Values that agree, as scalars. -/
theorem toScalar (h : v.Agrees w) : SameOutcome Eq v.toScalar w.toScalar := by
  cases h with
  | tensor h => exact .error _ _
  | scalar x => exact .ok rfl

/-- Values that agree, as operands of a contraction. -/
theorem toOperand (h : v.Agrees w) (labels : List Index) :
    SameOutcome Tensor.Operand.Agrees (v.toOperand labels) (w.toOperand labels) := by
  cases h with
  | scalar x => exact .error _ _
  | tensor h =>
    rw [Evaluated.toOperand_tensor, Evaluated.toOperand_tensor, h.legs_eq]
    split_ifs
    · exact .ok ⟨rfl, h⟩
    · exact .error _ _

end Value.Agrees

/-- Values that agree, with the same labels if they have any. -/
inductive Evaluated.Agrees {R : Type} : Evaluated R → Evaluated R → Prop
  | labelled {v w : Value R} (h : v.Agrees w) (labels : List Index) :
      Agrees (.labelled v labels) (.labelled w labels)
  | plain {v w : Value R} (h : v.Agrees w) : Agrees (.plain v) (.plain w)

namespace Evaluated

variable {R : Type} [CommRing R] [StarRing R] [Arithmetic R] [Arithmetic.IsExact R]
variable {x y x' : Evaluated R} {v v' : Value R}

omit [CommRing R] [StarRing R] [Arithmetic R] [Arithmetic.IsExact R] in
/-- Every labelled value agrees with itself. -/
theorem Agrees.refl (x : Evaluated R) : x.Agrees x := by
  cases x with
  | labelled v labels => exact .labelled (.refl v) labels
  | plain v => exact .plain (.refl v)

/-- Values that agree mean the same. -/
theorem Agrees.meaning?_eq (h : x.Agrees y) : x.meaning? = y.meaning? := by
  cases h with
  | plain h =>
    cases h with
    | tensor h => rfl
    | scalar x => rfl
  | labelled h labels =>
    cases h with
    | scalar x => rfl
    | tensor h => rw [meaning?, meaning?, h.legs_eq, h.toArray_eq]

/-- Outcomes that agree mean the same. -/
theorem outcome?_eq {x y : Except Error (Evaluated R)} (h : SameOutcome Agrees x y) :
    outcome? x = outcome? y := by
  cases h with
  | ok h => exact h.meaning?_eq
  | error e e' => rfl

/-- Multiples of values that agree. -/
theorem scaled_sameOutcome {alpha alpha' : Value R} (hv : v.Agrees v') (ha : alpha.Agrees alpha')
    (labels : List Index) : SameOutcome Agrees (scaled v labels alpha)
    (scaled v' labels alpha') := by
  refine hv.toTensor.bind fun s t hst => ha.toScalar.bind fun x y hxy => ?_
  subst hxy
  exact (hst.scale x).bind fun u w huw => .ok (.labelled (.tensor huw) labels)

/-- Contractions of values that agree. -/
theorem joined_sameOutcome {w w' : Value R} (hv : v.Agrees v') (hw : w.Agrees w')
    (labels others : List Index) :
    SameOutcome Agrees (joined v labels w others) (joined v' labels w' others) := by
  refine (hv.toOperand labels).bind fun s s' hs => (hw.toOperand others).bind fun t t' ht => ?_
  exact (Tensor.contractAll_sameOutcome (.cons hs (.cons ht .nil)) _ _).bind
    fun u u' hu => .ok (.labelled (.tensor hu) _)

/-- Products of values that agree. -/
theorem Agrees.mul {y' : Evaluated R} (hx : x.Agrees x') (hy : y.Agrees y') :
    SameOutcome Agrees (x.mul y) (x'.mul y') := by
  cases hx with
  | plain hx =>
    cases hy with
    | plain hy =>
      refine hx.toScalar.bind fun a a' ha => hy.toScalar.bind fun b b' hb => ?_
      subst ha hb
      exact .refl .refl _
    | labelled hy labels => exact scaled_sameOutcome hy hx labels
  | labelled hx labels =>
    cases hy with
    | plain hy => exact scaled_sameOutcome hx hy labels
    | labelled hy others => exact joined_sameOutcome hx hy labels others

/-- Values that agree, with a sign. -/
theorem Agrees.signed (hx : x.Agrees x') (sign : Sign) :
    SameOutcome Agrees (x.signed sign) (x'.signed sign) := by
  cases sign with
  | plus => exact .ok hx
  | minus => exact (Agrees.refl _).mul hx

/-- Sums of labelled values that agree. -/
theorem addLabelled_sameOutcome {w w' : Value R} (hv : v.Agrees v') (hw : w.Agrees w')
    (labels others : List Index) (sign : Sign) :
    SameOutcome Agrees (addLabelled v labels sign w others)
      (addLabelled v' labels sign w' others) := by
  rw [addLabelled_eq, addLabelled_eq]
  refine hv.toTensor.bind fun s s' hs => (hw.toOperand others).bind fun t t' ht => ?_
  rw [hs.legs_eq]
  refine (Tensor.contractAll_sameOutcome (.cons ht .nil) _ _).bind fun u u' hu => ?_
  have hsigned : SameOutcome Tensor.Agrees (signedTensor sign u) (signedTensor sign u') := by
    cases sign with
    | plus => exact .ok hu
    | minus => exact hu.scale _
  exact hsigned.bind fun z z' hz => (hs.add hz).bind fun y y' hy =>
    .ok (.labelled (.tensor hy) labels)

/-- Sums of values that agree. -/
theorem Agrees.add {y' : Evaluated R} (hx : x.Agrees x') (hy : y.Agrees y') (sign : Sign) :
    SameOutcome Agrees (x.add sign y) (x'.add sign y') := by
  cases hx with
  | plain hx =>
    cases hy with
    | plain hy =>
      refine hy.toScalar.bind fun b b' hb => ?_
      subst hb
      refine SameOutcome.bind (.refl (fun _ => rfl) _) fun c c' hc => hx.toScalar.bind
        fun a a' ha => ?_
      subst hc ha
      exact .refl .refl _
    | labelled hy labels => exact .error _ _
  | labelled hx labels =>
    cases hy with
    | plain hy => exact .error _ _
    | labelled hy others => exact addLabelled_sameOutcome hx hy labels others sign

omit [CommRing R] [StarRing R] [Arithmetic.IsExact R] in
/-- Conjugates of values that agree. -/
theorem Agrees.conj (hx : x.Agrees x') (d : Diagram) :
    SameOutcome Agrees (x.conj d) (x'.conj d) := by
  cases hx with
  | labelled hx labels => exact .error _ _
  | plain hx =>
    cases hx with
    | tensor h => exact .error _ _
    | scalar x => exact .refl .refl _

end Evaluated

/-! ## Machines -/

namespace Table

variable {κ R : Type}

/-- Tables with the same keys in the same order, whose values agree. -/
def Agrees (s t : Table κ (Value R)) : Prop :=
  List.Forall₂ (fun x y => x.1 = y.1 ∧ x.2.Agrees y.2) s t

/-- Every table agrees with itself. -/
theorem Agrees.refl (t : Table κ (Value R)) : t.Agrees t :=
  List.forall₂_same.mpr fun x _ => ⟨rfl, .refl x.2⟩

/-- Agreement of tables is passed on. -/
theorem Agrees.trans {s t u : Table κ (Value R)} (h : s.Agrees t) (h' : t.Agrees u) :
    s.Agrees u := by
  induction h generalizing u with
  | nil => exact h'
  | cons hxy _ ih =>
    cases h' with
    | cons hyz hrest => exact .cons ⟨hxy.1.trans hyz.1, hxy.2.trans hyz.2⟩ (ih hrest)

/-- Tables that agree have the same keys. -/
theorem Agrees.keys_eq {s t : Table κ (Value R)} (h : s.Agrees t) : s.keys = t.keys := by
  induction h with
  | nil => rfl
  | cons hxy _ ih => exact congrArg₂ List.cons hxy.1 ih

variable [DecidableEq κ]

/-- Tables that agree have values that agree. -/
theorem Agrees.find? {s t : Table κ (Value R)} (h : s.Agrees t) (key : κ) :
    Option.Rel Value.Agrees (s.find? key) (t.find? key) := by
  induction h with
  | nil => exact .none
  | @cons x y _ _ hxy _ ih =>
    rw [Table.find?, Table.find?, hxy.1]
    split_ifs
    · exact .some hxy.2
    · exact ih

/-- Values that agree are entered into tables that agree. -/
theorem Agrees.put {s t : Table κ (Value R)} (h : s.Agrees t) (key : κ) {v w : Value R}
    (hvw : v.Agrees w) : (s.put key v).Agrees (t.put key w) := by
  induction h with
  | nil => exact .cons ⟨rfl, hvw⟩ .nil
  | @cons x y _ _ hxy hrest ih =>
    obtain ⟨k, a⟩ := x
    obtain ⟨k', b⟩ := y
    obtain rfl : k = k' := hxy.1
    rw [Table.put, Table.put]
    split_ifs
    · exact .cons ⟨rfl, hvw⟩ hrest
    · exact .cons hxy ih

end Table

namespace Diagram

variable {a : Diagram}

/-- A left hand side that can be assigned to. -/
inductive IsAssignable : Diagram → Prop
  | ref (t : TensorRef) : IsAssignable (.ref t)
  | scalar (s : Scalar) : IsAssignable (.scalar s)

/-- The references of an expression are to objects of some sort. -/
def Uses (P : ObjectRef → Prop) (d : Diagram) : Prop :=
  ∀ t ∈ d.tensors, P t.object

variable {P : ObjectRef → Prop}

/-- What is used has every weaker property. -/
theorem Uses.mono {Q : ObjectRef → Prop} (h : d.Uses P) (hPQ : ∀ o, P o → Q o) : d.Uses Q :=
  fun t ht => hPQ _ (h t ht)

/-- A reference uses its object. -/
@[simp] theorem uses_ref {t : TensorRef} : (ref t).Uses P ↔ P t.object := by
  simp [Uses, tensors]

/-- A product uses what its factors use. -/
@[simp] theorem uses_pair {b : Diagram} : (pair a b).Uses P ↔ a.Uses P ∧ b.Uses P := by
  simp [Uses, tensors, listTensors, or_imp, forall_and]

/-- A sum of one term uses what the term uses. -/
@[simp] theorem uses_sum_first {sign : Sign} : (sum sign a []).Uses P ↔ a.Uses P := by
  simp [Uses, tensors, termTensors]

/-- One more term adds what it uses. -/
@[simp] theorem uses_sum_next {sign next : Sign} {rest : List (Sign × Diagram)} :
    (sum sign a (rest ++ [(next, d)])).Uses P ↔ (sum sign a rest).Uses P ∧ d.Uses P := by
  simp [Uses, tensors, termTensors_eq, or_imp, forall_and, and_assoc]

end Diagram

namespace Machine

open Diagram

section

variable {R : Type}

/-- The machines agree about what is in scope and what is handed back, and about the objects of some
sort. -/
structure AgreesOn (P : ObjectRef → Prop) (m m' : Machine R) : Prop where
  /-- What is in scope agrees. -/
  scope : m.scope.Agrees m'.scope
  /-- What the objects are bound to agrees. -/
  bound : ∀ o, P o → Option.Rel Value.Agrees (m.bound.find? o) (m'.bound.find? o)
  /-- What is handed back agrees. -/
  results : m.results.Agrees m'.results

namespace AgreesOn

variable {P : ObjectRef → Prop} {m m' m'' : Machine R}

/-- Every machine agrees with itself. -/
theorem refl (m : Machine R) : m.AgreesOn P m where
  scope := .refl _
  bound o _ := by
    cases m.bound.find? o with
    | none => exact .none
    | some v => exact .some (.refl v)
  results := .refl _

/-- Agreement of machines is passed on. -/
theorem trans (h : m.AgreesOn P m') (h' : m'.AgreesOn P m'') : m.AgreesOn P m'' where
  scope := h.scope.trans h'.scope
  bound o ho := by
    have hrel := h.bound o ho
    have hrel' := h'.bound o ho
    generalize m.bound.find? o = x, m'.bound.find? o = y, m''.bound.find? o = z at hrel hrel'
    cases hrel with
    | none => exact hrel'
    | some hvw =>
      cases hrel' with
      | some hwu => exact .some (hvw.trans hwu)
  results := h.results.trans h'.results

/-- Machines that agree on objects agree on fewer of them. -/
theorem mono {Q : ObjectRef → Prop} (h : m.AgreesOn P m') (hQP : ∀ o, Q o → P o) :
    m.AgreesOn Q m' :=
  ⟨h.scope, fun o ho => h.bound o (hQP o ho), h.results⟩

/-- Values that agree are bound to an object. -/
theorem bind (h : m.AgreesOn P m') (object : ObjectRef) {v w : Value R} (hvw : v.Agrees w) :
    (m.bind object v).AgreesOn P (m'.bind object w) where
  scope := h.scope
  bound o ho := by
    by_cases heq : o = object
    · subst heq
      simp only [Machine.bind, Table.find?_put_self]
      exact .some hvw
    · simp only [Machine.bind, Table.find?_put_of_ne _ _ heq]
      exact h.bound o ho
  results := h.results

/-- Values that agree are handed back. -/
theorem yield (h : m.AgreesOn P m') (name : ResultName) {v w : Value R} (hvw : v.Agrees w) :
    (m.yield name v).AgreesOn P (m'.yield name w) := by
  have hwritten : m.written name = m'.written name := by
    rw [written, written, h.results.keys_eq]
  refine ⟨?_, h.bound, ?_⟩
  · simp only [Machine.yield, hwritten]
    exact h.scope.put _ hvw
  · simp only [Machine.yield, hwritten]
    exact h.results.put _ hvw

/-- An object of another sort does not matter. -/
theorem bind_other (m : Machine R) {object : ObjectRef} (hobject : ¬ P object) (v : Value R) :
    m.AgreesOn P (m.bind object v) where
  scope := .refl _
  bound o ho := by
    have hne : o ≠ object := fun heq => hobject (heq ▸ ho)
    simp only [Machine.bind, Table.find?_put_of_ne _ _ hne]
    exact (refl m).bound o ho
  results := .refl _

/-- An object is looked up. -/
theorem lookup (h : m.AgreesOn P m') {o : ObjectRef} (ho : P o) :
    SameOutcome Value.Agrees (m.lookup o) (m'.lookup o) := by
  have hrel := h.bound o ho
  cases o with
  | handle k =>
    unfold Machine.lookup
    generalize m.bound.find? (.handle k) = x, m'.bound.find? (.handle k) = y at hrel
    cases hrel with
    | some hvw => exact .ok hvw
    | none => exact .error _ _
  | name text =>
    have hscope := h.scope.find? (.object (.name text))
    unfold Machine.lookup
    generalize m.bound.find? (.name text) = x, m'.bound.find? (.name text) = y at hrel
    generalize m.scope.find? (.object (.name text)) = x',
      m'.scope.find? (.object (.name text)) = y' at hscope
    cases hrel with
    | some hvw => exact .ok hvw
    | none =>
      cases hscope with
      | some hvw => exact .ok hvw
      | none => exact .error _ _

/-- A named scalar is read. -/
theorem namedScalar (h : m.AgreesOn P m') (name : String) :
    SameOutcome Value.Agrees (m.namedScalar name) (m'.namedScalar name) := by
  rw [Machine.namedScalar, Machine.namedScalar]
  have hrel := h.scope.find? (.object (.name name))
  generalize m.scope.find? (.object (.name name)) = x,
    m'.scope.find? (.object (.name name)) = y at hrel
  cases hrel with
  | some hvw => exact .ok hvw
  | none => exact .error _ _

end AgreesOn

end

variable {R : Type} [CommRing R] [StarRing R] [Arithmetic R] [Arithmetic.IsExact R]
  {P : ObjectRef → Prop} {m m' : Machine R}

/-- What a reference stands for. -/
theorem AgreesOn.referent (h : m.AgreesOn P m') {o : ObjectRef} (ho : P o) (isAdjoint : Bool) :
    SameOutcome Value.Agrees (m.referent o isAdjoint) (m'.referent o isAdjoint) := by
  refine (h.lookup ho).bind fun v w hvw => ?_
  cases isAdjoint with
  | false => exact .ok hvw
  | true => exact hvw.toTensor.bind fun s t hst => .ok (.tensor hst.adjoint)

/-- A reference is evaluated. -/
theorem AgreesOn.evaluateRef (h : m.AgreesOn P m') {t : TensorRef} (ht : P t.object) :
    SameOutcome Evaluated.Agrees (m.evaluateRef t) (m'.evaluateRef t) := by
  refine (h.referent ht t.isAdjoint).bind fun v w hvw => ?_
  split_ifs
  · exact .ok (.labelled hvw _)
  · refine (hvw.toOperand t.indices).bind fun x y hxy => ?_
    exact (Tensor.contractAll_sameOutcome (.cons hxy .nil) _ _).bind
      fun u u' hu => .ok (.labelled (.tensor hu) _)

end Machine

/-- An expression has the same value on machines that agree about its objects. -/
theorem Diagram.IsNormal.evaluate_sameOutcome {R : Type} [CommRing R] [StarRing R] [Arithmetic R]
    [Arithmetic.IsExact R] {P : ObjectRef → Prop} {m m' : Machine R} (h : m.AgreesOn P m')
    (hd : d.IsNormal) (huses : d.Uses P) :
    SameOutcome Evaluated.Agrees (m.evaluate d) (m'.evaluate d) := by
  induction hd using IsNormal.sumInduction with
  | ref t =>
    rw [Machine.evaluate, Machine.evaluate]
    exact h.evaluateRef (uses_ref.mp huses)
  | scalar s =>
    rw [Machine.evaluate, Machine.evaluate]
    cases s with
    | number x => exact .ok (.refl _)
    | name text => exact (h.namedScalar text).bind fun v w hvw => .ok (.plain hvw)
  | conj name =>
    rw [Machine.evaluate, Machine.evaluate, Machine.evaluate, Machine.evaluate]
    have hscalar : SameOutcome Evaluated.Agrees (m.evaluateScalar (.name name))
        (m'.evaluateScalar (.name name)) :=
      (h.namedScalar name).bind fun v w hvw => .ok (.plain hvw)
    exact hscalar.bind fun x y hxy => hxy.conj _
  | pair a b ha hb iha ihb =>
    obtain ⟨hua, hub⟩ := uses_pair.mp huses
    rw [Machine.evaluate_pair, Machine.evaluate_pair]
    exact (iha hua).bind fun x x' hx => (ihb hub).bind fun y y' hy => hx.mul hy
  | sumFirst sign a ha iha =>
    rw [Machine.evaluate_sum_first, Machine.evaluate_sum_first]
    exact (iha (uses_sum_first.mp huses)).bind fun x x' hx => hx.signed sign
  | sumNext sign a rest next d hsum hd ihsum ihd =>
    obtain ⟨husum, hud⟩ := uses_sum_next.mp huses
    rw [Machine.evaluate_sum_next, Machine.evaluate_sum_next]
    exact (ihsum husum).bind fun x x' hx => (ihd hud).bind fun y y' hy => hx.add hy next

namespace Machine

open Diagram

variable {R : Type} [CommRing R] [StarRing R] [Arithmetic R] [Arithmetic.IsExact R]
  {P : ObjectRef → Prop} {m m' : Machine R}

/-- An expression means the same on machines that agree about its objects. -/
theorem AgreesOn.denote_eq (h : m.AgreesOn P m') (hd : d.IsNormal) (huses : d.Uses P) :
    m.denote d = m'.denote d :=
  Evaluated.outcome?_eq (hd.evaluate_sameOutcome h huses)

/-- What is assigned, with its legs in order. -/
theorem AgreesOn.arrangedValue (h : m.AgreesOn P m') (t : TensorRef) {rhs : Diagram}
    (hrhs : rhs.IsNormal) (huses : rhs.Uses P) (isDefinition : Bool) :
    SameOutcome Tensor.Agrees (m.arrangedValue (.ref t) rhs isDefinition)
      (m'.arrangedValue (.ref t) rhs isDefinition) := by
  by_cases hdirect : IsDirect rhs
  · obtain ⟨a, b, rfl, ha, hb⟩ := hdirect
    obtain ⟨hua, hub⟩ := uses_pair.mp huses
    rw [arrangedValue_pair m t ha hb, arrangedValue_pair m' t ha hb]
    refine (hrhs.of_pair.1.evaluate_sameOutcome h hua).bind fun x x' hx =>
      (hrhs.of_pair.2.evaluate_sameOutcome h hub).bind fun y y' hy => ?_
    cases hx with
    | plain hx => exact .error _ _
    | labelled hx labels =>
      cases hy with
      | plain hy => exact .error _ _
      | labelled hy others =>
        exact (hx.toOperand labels).bind fun s s' hs => (hy.toOperand others).bind fun u u' hu =>
          Tensor.contractAll_sameOutcome (.cons hs (.cons hu .nil)) _ _
  · rw [arrangedValue_single m t hdirect, arrangedValue_single m' t hdirect]
    refine (hrhs.evaluate_sameOutcome h huses).bind fun x x' hx => ?_
    cases hx with
    | plain hx => exact .error _ _
    | labelled hx labels =>
      exact (hx.toOperand labels).bind fun s s' hs =>
        Tensor.contractAll_sameOutcome (.cons hs .nil) _ _

/-- An assignment leaves machines that agree in agreement. -/
theorem AgreesOn.assign (h : m.AgreesOn P m') {lhs rhs : Diagram} (hlhs : lhs.IsAssignable)
    (hrhs : rhs.IsNormal) (huses : rhs.Uses P) (isDefinition : Bool) :
    SameOutcome (AgreesOn P) (m.assign lhs rhs isDefinition) (m'.assign lhs rhs isDefinition) := by
  cases hlhs with
  | ref t =>
    refine (h.arrangedValue t hrhs huses isDefinition).bind fun v w hvw =>
      .ok (h.bind t.object (.tensor ?_))
    split_ifs
    · exact hvw.adjoint
    · exact hvw
  | scalar s =>
    refine (hrhs.evaluate_sameOutcome h huses).bind fun x x' hx => ?_
    cases hx with
    | plain hx => exact .ok (h.yield _ hx)
    | labelled hx labels =>
      refine hx.toTensor.bind fun u u' hu => hu.toScalar.bind fun y y' hy => ?_
      subst hy
      exact .ok (h.yield _ (.scalar y))

end Machine

end TensorDiagram
