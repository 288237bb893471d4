import TensorDiagram.Proofs.LinearPlans
import TensorDiagram.Proofs.RoutedLegs

/-!
# Runs of closed plans

Few things that a machine does can fail because something is not found: binding an object that was
not given, reading an object or handle that nothing is bound to, and reading a named scalar.  All
other errors are of other kinds, which is said of every operation once (`FailsWith`).

In a linear plan everything is written before it is read.  So if all inputs are given, then a run
finds every object and every handle that it looks for, and only a named scalar can be missing
(`Plan.IsLinear.finds`).
-/

namespace TensorDiagram

variable {e : Error} {o : ObjectRef} {s : Diagram}

/-! ## Errors of a run -/

/-- Something was looked for and not found. -/
def Error.IsLookup : Error → Prop
  | .missing | .missingObject _ | .unknownObject _ => True
  | _ => False

/-- An operation could not be done: nothing was missing, and no check of numbers of legs has
failed. -/
def Error.IsOperational : Error → Prop
  | .missing | .missingObject _ | .unknownObject _ | .arity .. => False
  | _ => True

/-- Wrong labels only make an operation impossible. -/
theorem Error.IsAboutLabels.isOperational (h : e.IsAboutLabels) : e.IsOperational := by
  cases e <;> first | exact trivial | exact h.elim

/-- The computation looks for nothing in vain and checks no numbers of legs. -/
abbrev FindsAll {α : Type} (x : Except Error α) : Prop :=
  FailsWith Error.IsOperational x

/-! ## Operations on tensors -/

section Operations

variable {R : Type}

/-- Reading a value as a tensor misses nothing. -/
theorem Value.findsAll_toTensor (v : Value R) : FindsAll v.toTensor := by
  cases v with
  | tensor t => exact .ok t
  | scalar x => exact .error trivial

/-- Nor does reading it as a scalar. -/
theorem Value.findsAll_toScalar (v : Value R) : FindsAll v.toScalar := by
  cases v with
  | tensor t => exact .error trivial
  | scalar x => exact .ok x

/-- Labelling an operand misses nothing. -/
theorem Tensor.Operand.findsAll_legs (x : Operand R) : FindsAll x.legs :=
  x.legs_failsWith.mono fun _ he => he.isOperational

/-- Nor does labelling all operands. -/
theorem Tensor.findsAll_operandLegs (operands : List (Operand R)) :
    FindsAll (operandLegs operands) :=
  (operandLegs_failsWith operands).mono fun _ he => he.isOperational

/-- Making a value an operand misses nothing. -/
theorem Value.findsAll_toOperand (v : Value R) (labels : List Index) :
    FindsAll (v.toOperand labels) :=
  v.findsAll_toTensor.bind fun t => (Tensor.Operand.findsAll_legs ⟨t, labels⟩).bind fun _ => .ok _

/-- Building a tensor misses nothing. -/
theorem Tensor.findsAll_ofGrid (grid : Grid R) (legs : Legs) : FindsAll (ofGrid grid legs) := by
  rw [ofGrid]
  split_ifs
  · exact .ok _
  · exact .error trivial

/-- Asking for the space of a leg misses nothing. -/
theorem Tensor.findsAll_space (t : Tensor R) (position : Int) : FindsAll (t.space position) := by
  refine .ite _ (.error trivial) ?_
  rcases t.legs.spaces[position.toNat]? with _ | v
  · exact .error trivial
  · exact .ok v

variable [Arithmetic R]

namespace Tensor

/-- Scaling a tensor misses nothing. -/
theorem findsAll_scale (alpha : R) (t : Tensor R) : FindsAll (t.scale alpha) :=
  .ite _ (.ok _) (.error trivial)

/-- Nor does adding two tensors. -/
theorem findsAll_add (s t : Tensor R) : FindsAll (s.add t) := .ite _ (.ok _) (.error trivial)

/-- Nor does reading one as a scalar. -/
theorem findsAll_toScalar (t : Tensor R) : FindsAll t.toScalar := .ite _ (.ok _) (.error trivial)

/-- Braiding two spaces misses nothing. -/
theorem findsAll_braiding (v w : Space) : FindsAll (braiding v w : Except Error (Tensor R)) :=
  .ite _ (.error trivial) (findsAll_ofGrid _ _)

/-- A contraction misses nothing. -/
theorem findsAll_contractAll (operands : List (Operand R)) (left right : List Index) :
    FindsAll (contractAll operands left right) :=
  (contractAll_failsWith operands left right).mono fun _ he => he.isOperational

end Tensor

namespace Evaluated

/-- Comparing kinds of scalars misses nothing. -/
theorem findsAll_checkKinds (x y : R) : FindsAll (Arithmetic.checkKinds x y) :=
  .ite _ (.ok ()) (.error trivial)

/-- Scaling a labelled value misses nothing. -/
theorem findsAll_scaled (v : Value R) (labels : List Index) (alpha : Value R) :
    FindsAll (scaled v labels alpha) :=
  v.findsAll_toTensor.bind fun t => alpha.findsAll_toScalar.bind fun x => (t.findsAll_scale x).bind
    fun _ => .ok _

/-- Multiplying values misses nothing. -/
theorem findsAll_mul (x y : Evaluated R) : FindsAll (x.mul y) := by
  cases x with
  | plain a =>
    cases y with
    | plain b =>
      exact a.findsAll_toScalar.bind fun x => b.findsAll_toScalar.bind fun y =>
        ((findsAll_checkKinds x y).bind fun _ => .ok _).bind fun _ => .ok _
    | labelled b labels => exact findsAll_scaled b labels a
  | labelled a labels =>
    cases y with
    | plain b => exact findsAll_scaled a labels b
    | labelled b others =>
      exact (a.findsAll_toOperand labels).bind fun s => (b.findsAll_toOperand others).bind fun t =>
        (Tensor.findsAll_contractAll _ _ _).bind fun _ => .ok _

/-- Applying a sign misses nothing. -/
theorem findsAll_signed (sign : Sign) (x : Evaluated R) : FindsAll (x.signed sign) := by
  cases sign with
  | plus => exact .ok x
  | minus => exact findsAll_mul _ _

/-- Adding values misses nothing. -/
theorem findsAll_add (sign : Sign) (x y : Evaluated R) : FindsAll (x.add sign y) := by
  cases x with
  | plain a =>
    cases y with
    | plain b =>
      exact b.findsAll_toScalar.bind fun y => ((findsAll_checkKinds _ _).bind fun _ => .ok _).bind
          fun y =>
        a.findsAll_toScalar.bind fun x => ((findsAll_checkKinds _ _).bind fun _ => .ok _).bind
          fun _ => .ok _
    | labelled b labels => exact .error trivial
  | labelled a labels =>
    cases y with
    | plain b => exact .error trivial
    | labelled b others =>
      refine a.findsAll_toTensor.bind fun s => (b.findsAll_toOperand others).bind fun x => ?_
      refine (Tensor.findsAll_contractAll _ _ _).bind fun t => ?_
      cases sign with
      | plus => exact (s.findsAll_add t).bind fun _ => .ok _
      | minus => exact (t.findsAll_scale _).bind fun t => (s.findsAll_add t).bind fun _ => .ok _

/-- Conjugating a value misses nothing. -/
theorem findsAll_conj (arg : Diagram) (x : Evaluated R) : FindsAll (x.conj arg) := by
  cases x with
  | labelled v labels => exact .error trivial
  | plain v =>
    cases v with
    | tensor t => exact .error trivial
    | scalar x => exact .ok _

end Evaluated

end Operations

/-! ## Objects that are looked up -/

namespace Machine

variable {R : Type} {P : Error → Prop}

/-- The objects and the named scalars are looked up with certain errors only. -/
structure LooksUp (m : Machine R) (P : Error → Prop) (objects : List ObjectRef)
    (names : List String) : Prop where
  /-- Looking up an object. -/
  lookup : ∀ o ∈ objects, FailsWith P (m.lookup o)
  /-- Looking up a named scalar. -/
  namedScalar : ∀ text ∈ names, FailsWith P (m.namedScalar text)

/-- Two parts look up what each of them does. -/
theorem looksUp_append {m : Machine R} {xs ys : List ObjectRef} {names names' : List String} :
    m.LooksUp P (xs ++ ys) (names ++ names') ↔ m.LooksUp P xs names ∧ m.LooksUp P ys names' := by
  constructor
  · intro h
    obtain ⟨hxs, hys⟩ := List.forall_mem_append.mp h.lookup
    obtain ⟨hnames, hnames'⟩ := List.forall_mem_append.mp h.namedScalar
    exact ⟨⟨hxs, hnames⟩, hys, hnames'⟩
  · rintro ⟨⟨hxs, hnames⟩, hys, hnames'⟩
    exact ⟨List.forall_mem_append.mpr ⟨hxs, hys⟩, List.forall_mem_append.mpr ⟨hnames, hnames'⟩⟩

/-- What is looked up for all entries of a list is looked up for each of them. -/
theorem LooksUp.of_mem {m : Machine R} {α : Type} {g : α → Diagram} {xs : List α} {a : α}
    (h : m.LooksUp P ((xs.flatMap fun a => (g a).tensors).map TensorRef.object)
      (xs.flatMap fun a => (g a).scalarNames)) (ha : a ∈ xs) :
    m.LooksUp P ((g a).tensors.map TensorRef.object) (g a).scalarNames := by
  refine ⟨fun o ho => ?_, fun text ht => h.namedScalar text (List.mem_flatMap.mpr ⟨a, ha, ht⟩)⟩
  obtain ⟨t, ht, rfl⟩ := List.mem_map.mp ho
  exact h.lookup _ (List.mem_map_of_mem (List.mem_flatMap.mpr ⟨a, ha, ht⟩))

variable [Arithmetic R] {m : Machine R} (hP : ∀ e : Error, e.IsOperational → P e)

include hP

/-- A reference fails as the lookup of its object does. -/
theorem referent_failsWith (h : FailsWith P (m.lookup o)) (isAdjoint : Bool) :
    FailsWith P (m.referent o isAdjoint) :=
  h.bind fun v => .ite _ ((v.findsAll_toTensor.mono hP).bind fun _ => .ok _) (.ok v)

/-- So does its evaluation. -/
theorem evaluateRef_failsWith {t : TensorRef} (h : FailsWith P (m.lookup t.object)) :
    FailsWith P (m.evaluateRef t) := by
  refine (referent_failsWith hP h _).bind fun v => .ite _ (.ok _) ?_
  refine FailsWith.mono ?_ hP
  exact (v.findsAll_toOperand _).bind fun x => (Tensor.findsAll_contractAll [x] _ _).bind
    fun _ => .ok _

/-- An expression whose objects are found has a value, unless it is at fault itself. -/
theorem evaluate_failsWith (d : Diagram)
    (h : m.LooksUp P (d.tensors.map TensorRef.object) d.scalarNames) :
    FailsWith P (m.evaluate d) := by
  induction d with
  | ref t => exact evaluateRef_failsWith hP (h.lookup _ (List.mem_singleton.mpr rfl))
  | scalar s =>
    cases s with
    | name text => exact (h.namedScalar text (List.mem_singleton.mpr rfl)).bind fun _ => .ok _
    | number x => exact .ok _
  | conj a ih =>
    rw [evaluate]
    exact (ih h).bind fun x => (x.findsAll_conj a).mono hP
  | product a b rest iha ihb ih =>
    rw [Diagram.tensors, Diagram.scalarNames, Diagram.listTensors_eq, Diagram.listScalarNames_eq,
      List.map_append, List.map_append, looksUp_append, looksUp_append] at h
    rw [evaluate]
    refine (iha h.1.1).bind fun x => (ihb h.1.2).bind fun y => ?_
    refine ((x.findsAll_mul y).mono hP).bind fun z => ?_
    rw [evaluateFactors_eq]
    refine FailsWith.foldlM (fun w d hd => ?_) z
    exact (ih d hd (h.2.of_mem hd)).bind fun y => (w.findsAll_mul y).mono hP
  | sum sign a rest iha ih =>
    rw [Diagram.tensors, Diagram.scalarNames, Diagram.termTensors_eq, Diagram.termScalarNames_eq,
      List.map_append, looksUp_append] at h
    rw [evaluate]
    refine (iha h.1).bind fun x => ((x.findsAll_signed sign).mono hP).bind fun y => ?_
    rw [evaluateTerms_eq]
    refine FailsWith.foldlM (fun w p hp => ?_) y
    exact (ih p hp (h.2.of_mem hp)).bind fun y => (w.findsAll_add p.1 y).mono hP
  | _ =>
    rw [evaluate]
    · exact .error (hP _ trivial)
    all_goals simp

/-! ## Statements that are run -/

omit hP in
/-- Arranging operands misses nothing. -/
theorem findsAll_arrange (lhs : Diagram) {operands : Except Error (List (Tensor.Operand R))}
    (h : FindsAll operands) : FindsAll (arrange lhs operands) := by
  cases lhs with
  | ref t => exact h.bind fun xs => Tensor.findsAll_contractAll xs _ _
  | product a b rest =>
    refine FailsWith.bind (x := (Diagram.product a b rest).factorPair) ?_ fun _ => ?_
    · cases rest with
      | nil => exact .ok _
      | cons d rest => exact .error trivial
    · exact h.bind fun xs => (Tensor.findsAll_operandLegs xs).bind fun _ => .error trivial
  | _ => exact .error trivial

/-- The value of an expression that is not multiplied on the way is arranged without further
objects. -/
theorem arrangedLabels_failsWith (lhs rhs : Diagram) (isDefinition : Bool)
    (h : m.LooksUp P (rhs.tensors.map TensorRef.object) rhs.scalarNames) :
    FailsWith P (do
      match ← m.evaluate rhs with
      | .labelled x labels => arrange lhs do return [← x.toOperand labels]
      | .plain _ => throw (.scalarToTensor (.assign lhs rhs isDefinition)) : Except Error
          (Tensor R)) := by
  refine (evaluate_failsWith hP rhs h).bind fun x => ?_
  cases x with
  | labelled x labels =>
    exact (findsAll_arrange lhs ((x.findsAll_toOperand labels).bind fun _ => .ok _)).mono hP
  | plain x => exact .error (hP _ trivial)

/-- What is assigned fails as its lookups do. -/
theorem arrangedValue_failsWith (lhs rhs : Diagram) (isDefinition : Bool)
    (h : m.LooksUp P (rhs.tensors.map TensorRef.object) rhs.scalarNames) :
    FailsWith P (m.arrangedValue lhs rhs isDefinition) := by
  have hother := arrangedLabels_failsWith hP lhs rhs isDefinition h
  unfold arrangedValue
  split
  · rename_i a b
    refine .ite _ ?_ hother
    rw [Diagram.tensors, Diagram.scalarNames, List.map_append, List.map_append, looksUp_append,
      looksUp_append] at h
    refine (evaluate_failsWith hP a h.1.1).bind fun x =>
      (evaluate_failsWith hP b h.1.2).bind fun y => ?_
    split
    · rename_i x labels y others
      refine (findsAll_arrange lhs ?_).mono hP
      exact (x.findsAll_toOperand labels).bind fun _ => (y.findsAll_toOperand others).bind
        fun _ => .ok _
    · exact .error (hP _ trivial)
  · exact hother

/-- So does the assignment. -/
theorem assign_failsWith (lhs rhs : Diagram) (isDefinition : Bool)
    (h : m.LooksUp P (rhs.tensors.map TensorRef.object) rhs.scalarNames) :
    FailsWith P (m.assign lhs rhs isDefinition) := by
  have harranged := arrangedValue_failsWith hP lhs rhs isDefinition h
  cases lhs with
  | scalar s =>
    refine (evaluate_failsWith hP rhs h).bind fun x => ?_
    cases x with
    | labelled v labels =>
      exact FailsWith.mono (v.findsAll_toTensor.bind fun t => t.findsAll_toScalar.bind
        fun _ => .ok _) hP
    | plain v => exact .ok _
  | ref t => exact harranged.bind fun _ => .ok _
  | _ => exact harranged.bind fun _ => .error (hP _ trivial)

/-- A space fails as the lookup of its object does. -/
theorem spaceOf_failsWith {s : LegSpace} (h : FailsWith P (m.lookup s.object)) :
    FailsWith P (m.spaceOf s) :=
  (referent_failsWith hP h _).bind fun v => FailsWith.mono
    (v.findsAll_toTensor.bind fun t => (t.findsAll_space _).bind fun _ => .ok _) hP

/-- A statement that neither binds nor checks nor hands back an object fails as looking up what it
reads does, or is at fault itself. -/
theorem step_failsWith (s : Diagram) (h : m.LooksUp P s.reads s.scalarNames)
    (hbind : ∀ handle name, s = .bind handle name → FailsWith P (m.step s))
    (hcheck : ∀ handle name outputs inputs, s = .checkArity handle name outputs inputs →
      FailsWith P (m.step s))
    (hexport : ∀ name handle, s = .exportAs name handle → FailsWith P (m.step s)) :
    FailsWith P (m.step s) := by
  cases s with
  | bind handle name => exact hbind _ _ rfl
  | checkArity handle name outputs inputs => exact hcheck _ _ _ _ rfl
  | exportAs name handle => exact hexport _ _ rfl
  | braid handle first second =>
    obtain ⟨hfirst, hsecond, -⟩ :=
      List.forall_mem_cons.mp h.lookup |>.imp_right List.forall_mem_cons.mp
    exact (spaceOf_failsWith hP hfirst).bind fun v => (spaceOf_failsWith hP hsecond).bind fun w =>
      FailsWith.mono ((Tensor.findsAll_braiding v w).bind fun _ => .ok _) hP
  | assign lhs rhs isDefinition => exact assign_failsWith hP lhs rhs isDefinition h
  | control kind body => exact .error (hP _ trivial)
  | ref t => exact (evaluate_failsWith hP _ h).bind fun _ => .ok _
  | scalar x => exact (evaluate_failsWith hP _ h).bind fun _ => .ok _
  | conj a => exact (evaluate_failsWith hP _ h).bind fun _ => .ok _
  | sum sign a rest => exact (evaluate_failsWith hP _ h).bind fun _ => .ok _
  | product a b rest => exact (evaluate_failsWith hP _ h).bind fun _ => .ok _
  | _ => exact .error (hP _ trivial)

end Machine

/-! ## Bound objects -/

namespace Machine

variable {R : Type}

/-- All of the objects are bound. -/
def Binds (m : Machine R) (objects : List ObjectRef) : Prop :=
  ∀ o ∈ objects, m.bound.has o = true

/-- The only thing that may not be found is the value of some named scalar. -/
def LacksScalar (m : Machine R) (names : List String) (e : Error) : Prop :=
  e.IsLookup → e = .missing ∧ ∃ text ∈ names, m.scope.has (.object (.name text)) = false

variable {m : Machine R} {P : Error → Prop}

/-- An object that is bound has a value. -/
theorem boundTo_failsWith (h : m.bound.has o = true) : FailsWith P (m.boundTo o) := by
  obtain ⟨v, hv⟩ := Option.isSome_iff_exists.mp h
  rw [boundTo, hv]
  exact .ok v

/-- An object that is bound is found. -/
theorem lookup_failsWith (h : m.bound.has o = true) : FailsWith P (m.lookup o) := by
  obtain ⟨v, hv⟩ := Option.isSome_iff_exists.mp h
  simp only [lookup, hv]
  exact .ok v

/-- A named scalar is there, or it is what is missing. -/
theorem namedScalar_failsWith {names : List String} {text : String} (htext : text ∈ names) :
    FailsWith (m.LacksScalar names) (m.namedScalar text) := by
  rcases hfind : m.scope.find? (.object (.name text)) with _ | v
  · have hscope : m.scope.has (.object (.name text)) = false := by rw [Table.has, hfind]; rfl
    simp only [namedScalar, hfind]
    exact .error fun _ => ⟨rfl, text, htext, hscope⟩
  · simp only [namedScalar, hfind]
    exact .ok v

/-- A statement finds all objects if those that it reads are bound and the object that it binds is
given. -/
theorem step_lacksScalar [Arithmetic R] (s : Diagram) (hbinds : m.Binds s.reads)
    (hgiven : ∀ handle name, s = .bind handle name → m.scope.has (.object name) = true) :
    FailsWith (m.LacksScalar s.scalarNames) (m.step s) := by
  have hoperational : ∀ e : Error, e.IsOperational → m.LacksScalar s.scalarNames e := by
    intro e he hlookup
    cases e <;> first | exact he.elim | exact hlookup.elim
  refine step_failsWith hoperational s ⟨fun o ho => lookup_failsWith (hbinds o ho), fun _ =>
    namedScalar_failsWith⟩ ?_ ?_ ?_
  · rintro handle name rfl
    obtain ⟨v, hv⟩ := Option.isSome_iff_exists.mp (hgiven handle name rfl)
    simp only [step, hv]
    exact .ok _
  · rintro handle name outputs inputs rfl
    refine FailsWith.bind ((boundTo_failsWith (hbinds _ (List.mem_singleton.mpr rfl))).bind
      fun v => ?_) fun _ => .ok m
    exact (v.findsAll_toTensor.mono hoperational).bind fun _ => .ite _ (.ok ()) (.error False.elim)
  · rintro name handle rfl
    exact (boundTo_failsWith (hbinds _ (List.mem_singleton.mpr rfl))).bind fun _ => .ok _

end Machine

/-! ## Runs -/

/-- An entry adds its key. -/
theorem Table.has_put {κ α : Type} [DecidableEq κ] (t : Table κ α) (key other : κ) (value : α) :
    (t.put key value).has other = true ↔ other = key ∨ t.has other = true := by
  by_cases h : other = key
  · subst h
    simp [has]
  · simp [has, find?_put_of_ne t value h, h]

namespace Machine

variable {R : Type}

/-- Some objects have been bound, and nothing that was known before is lost. -/
structure Gains (m : Machine R) (objects : List ObjectRef) (m' : Machine R) : Prop where
  bound : ∀ o, m.bound.has o = true ∨ o ∈ objects → m'.bound.has o = true
  scope : ∀ name, m.scope.has name = true → m'.scope.has name = true

/-- Nothing is bound by doing nothing. -/
theorem Gains.refl (m : Machine R) : m.Gains [] m :=
  ⟨fun _ h => h.resolve_right (List.not_mem_nil), fun _ h => h⟩

/-- What two steps bind. -/
theorem Gains.trans {m m' m'' : Machine R} {xs ys : List ObjectRef} (h : m.Gains xs m')
    (h' : m'.Gains ys m'') : m.Gains (xs ++ ys) m'' := by
  refine ⟨fun o ho => h'.bound o ?_, fun name hname => h'.scope name (h.scope name hname)⟩
  rw [List.mem_append, ← or_assoc] at ho
  exact ho.imp_left (h.bound o)

/-- Binding an object binds it. -/
theorem gains_bind (m : Machine R) (o : ObjectRef) (v : Value R) : m.Gains [o] (m.bind o v) := by
  refine ⟨fun o' ho' => (Table.has_put _ _ _ _).mpr ?_, fun _ h => h⟩
  rwa [List.mem_singleton, or_comm] at ho'

/-- Handing back a value binds nothing. -/
theorem gains_yield (m : Machine R) (name : ResultName) (v : Value R) :
    m.Gains [] (m.yield name v) :=
  ⟨fun _ h => h.resolve_right List.not_mem_nil, fun _ h => (Table.has_put _ _ _ _).mpr (Or.inr h)⟩

/-- Handing back a standalone value binds nothing. -/
theorem gains_yieldStandalone (m : Machine R) (v : Value R) : m.Gains [] (m.yieldStandalone v) :=
  ⟨fun _ h => h.resolve_right List.not_mem_nil, fun _ h => h⟩

variable [Arithmetic R] {m m' : Machine R}

/-- A statement that is done has bound what it writes. -/
theorem gains_of_step (h : m.step s = .ok m') : m.Gains s.writes m' := by
  have hexpression : ∀ {d : Diagram}, (do return m.yieldStandalone (← m.evaluate d).value) =
      Except.ok m' → m.Gains [] m' := by
    intro d h
    obtain ⟨x, -, h⟩ := bind_eq_ok_iff.mp h
    obtain rfl := Except.ok.inj h
    exact m.gains_yieldStandalone _
  cases s with
  | bind handle name =>
    rcases hfind : m.scope.find? (.object name) with _ | v
    · simp only [step, hfind] at h
      cases h
    · simp only [step, hfind] at h
      obtain rfl := Except.ok.inj h
      exact m.gains_bind _ _
  | checkArity handle name outputs inputs =>
    obtain ⟨_, -, h⟩ := bind_eq_ok_iff.mp h
    obtain rfl := Except.ok.inj h
    exact .refl m
  | braid handle first second =>
    obtain ⟨_, -, h⟩ := bind_eq_ok_iff.mp h
    obtain ⟨_, -, h⟩ := bind_eq_ok_iff.mp h
    obtain ⟨_, -, h⟩ := bind_eq_ok_iff.mp h
    obtain rfl := Except.ok.inj h
    exact m.gains_bind _ _
  | exportAs name handle =>
    obtain ⟨_, -, h⟩ := bind_eq_ok_iff.mp h
    obtain rfl := Except.ok.inj h
    exact m.gains_yield _ _
  | assign lhs rhs isDefinition =>
    change m.assign lhs rhs isDefinition = .ok m' at h
    cases lhs with
    | scalar s =>
      obtain ⟨x, -, h⟩ := bind_eq_ok_iff.mp h
      cases x with
      | labelled v labels =>
        obtain ⟨_, -, h⟩ := bind_eq_ok_iff.mp h
        obtain ⟨_, -, h⟩ := bind_eq_ok_iff.mp h
        obtain rfl := Except.ok.inj h
        exact m.gains_yield _ _
      | plain v =>
        obtain rfl := Except.ok.inj h
        exact m.gains_yield _ _
    | ref t =>
      obtain ⟨_, -, h⟩ := bind_eq_ok_iff.mp h
      obtain rfl := Except.ok.inj h
      exact m.gains_bind _ _
    | _ =>
      obtain ⟨_, -, h⟩ := bind_eq_ok_iff.mp h
      cases h
  | ref t => exact hexpression h
  | scalar x => exact hexpression h
  | conj a => exact hexpression h
  | sum sign a rest => exact hexpression h
  | product a b rest => exact hexpression h
  | _ => cases h

end Machine

/-- Statements that are no blocks. -/
def Diagram.IsFlat : Diagram → Prop
  | block _ | sealed _ => False
  | _ => True

/-- Flattening leaves no blocks. -/
theorem Diagram.isFlat_of_mem_flatten (d : Diagram) (hs : s ∈ d.flatten) : s.IsFlat := by
  induction d with
  | block statements ih | sealed statements ih =>
    rw [flatten, flattenList_eq] at hs
    obtain ⟨d, hd, hs⟩ := List.mem_flatMap.mp hs
    exact ih d hd hs
  | _ =>
    simp only [flatten, List.mem_singleton] at hs
    rw [hs]
    trivial

namespace Machine

variable {R : Type} [Arithmetic R]

/-- A single statement is one step. -/
theorem execute_of_isFlat (m : Machine R) (hs : s.IsFlat) :
    m.execute s = (m.step s).mapError fun e => (e, m) := by
  cases s with
  | block statements => exact hs.elim
  | sealed statements => exact hs.elim
  | _ =>
    rw [execute]
    · generalize m.step _ = x
      cases x <;> rfl
    all_goals nofun

/-- Statements that are done have bound what they write. -/
theorem gains_of_executeAll {statements : List Diagram} (hflat : ∀ s ∈ statements, s.IsFlat)
    {m m' : Machine R} (h : m.executeAll statements = .ok m') :
    m.Gains (statements.flatMap Diagram.writes) m' := by
  induction statements generalizing m with
  | nil =>
    obtain rfl := Except.ok.inj h
    exact .refl m
  | cons s statements ih =>
    obtain ⟨hs, hstatements⟩ := List.forall_mem_cons.mp hflat
    obtain ⟨m₁, hexecute, h⟩ := exists_of_executeAll_cons h
    rw [execute_of_isFlat m hs] at hexecute
    rcases hstep : m.step s with e | m₂
    · rw [hstep] at hexecute
      cases hexecute
    · rw [hstep] at hexecute
      obtain rfl := Except.ok.inj hexecute
      exact (gains_of_step hstep).trans (ih hstatements h)

/-- A run that fails has done the statements before the one at fault. -/
theorem exists_of_executeAll_error {statements : List Diagram} (hflat : ∀ s ∈ statements, s.IsFlat)
    {m m' : Machine R} (h : m.executeAll statements = .error (e, m')) :
    ∃ before s after,
      statements = before ++ s :: after ∧ m.executeAll before = .ok m' ∧ m'.step s = .error e := by
  induction statements generalizing m with
  | nil => cases h
  | cons s statements ih =>
    obtain ⟨hs, hstatements⟩ := List.forall_mem_cons.mp hflat
    have hexecute := m.execute_of_isFlat hs
    rcases hstep : m.step s with e' | m₁
    · rw [hstep] at hexecute
      simp only [executeAll, hexecute, Except.mapError, Except.error.injEq, Prod.mk.injEq] at h
      obtain ⟨rfl, rfl⟩ := h
      exact ⟨[], s, statements, rfl, rfl, hstep⟩
    · rw [hstep] at hexecute
      simp only [executeAll, hexecute, Except.mapError] at h
      obtain ⟨before, s', after, rfl, hbefore, hfail⟩ := ih hstatements h
      refine ⟨s :: before, s', after, rfl, ?_, hfail⟩
      simp only [executeAll, hexecute, Except.mapError, hbefore]

end Machine

/-- A run of a linear plan to which all objects are given finds all objects that it looks for. -/
theorem Plan.IsLinear.finds {p : Plan} (hp : p.IsLinear) (hflat : ∀ s ∈ p.statements, s.IsFlat)
    {R : Type} [Arithmetic R] {m m' : Machine R}
    (hinputs : ∀ o ∈ p.inputs, m.scope.has (.object o) = true) (h : p.run m = .error (e, m')) :
    ∃ before s after, p.statements = before ++ s :: after ∧
      m.executeAll before = .ok m' ∧ m'.step s = .error e ∧ m'.Binds s.reads ∧
        m'.LacksScalar s.scalarNames e := by
  obtain ⟨before, s, after, heq, hbefore, hstep⟩ := Machine.exists_of_executeAll_error hflat h
  have hgains : m.Gains (before.flatMap Diagram.writes) m' :=
    Machine.gains_of_executeAll (fun s hs => hflat s (heq ▸ List.mem_append_left _ hs)) hbefore
  have hbinds : m'.Binds s.reads := by
    intro o ho
    obtain ⟨s', hs', ho'⟩ := hp.closed before s after heq o ho
    exact hgains.bound o (Or.inr (List.mem_flatMap.mpr ⟨s', hs', ho'⟩))
  have hgiven : ∀ handle name, s = .bind handle name → m'.scope.has (.object name) = true := by
    rintro handle name rfl
    have hmem : Diagram.bind handle name ∈ p.statements :=
      heq ▸ List.mem_append_right _ List.mem_cons_self
    exact hgains.scope _ (hinputs name (List.mem_filterMap.mpr ⟨_, hmem, rfl⟩))
  exact ⟨before, s, after, heq, hbefore, hstep, hbinds,
    Machine.step_lacksScalar s hbinds hgiven e hstep⟩

/-- Plans have no blocks. -/
theorem Plan.isFlat {options : Options} {order : Option ContractionOrder} {d : Diagram} {p : Plan}
    (h : Plan.forBraided options order d = .ok p ∨ Plan.forSymmetric options order d = .ok p) :
    ∀ s ∈ p.statements, s.IsFlat := by
  rcases h with h | h
  · obtain ⟨_, _, _, _, _, _, -, -, -, rfl⟩ := Plan.forBraided_spec h
    exact fun _ => Diagram.isFlat_of_mem_flatten _
  · obtain ⟨_, _, _, -, -, rfl⟩ := Plan.forSymmetric_spec h
    exact fun _ => Diagram.isFlat_of_mem_flatten _

/-- Plans of programs are closed and linear in their temporaries.  So if all inputs are given, then
a run that fails has bound everything that the statement at fault reads, and the error is not that
an object or a handle was not found: all that can be missing is the value of a named scalar. -/
theorem Plan.run_of_program_finds_objects {options : Options} {order : Option ContractionOrder}
    {d : Diagram} {p : Plan} (hd : d.IsProgram) (h : Plan.forBraided options order d = .ok p ∨
      Plan.forSymmetric options order d = .ok p) :
    p.IsLinear ∧ ∀ {R : Type} [Arithmetic R]
      (m : Machine R), (∀ o ∈ p.inputs, m.scope.has (.object o) = true) →
      ∀ e m', p.run m = .error (e, m') →
        (∀ o, e ≠ .missingObject o ∧ e ≠ .unknownObject o) ∧
        ∃ before s after, p.statements = before ++ s :: after ∧ m.executeAll before = .ok m' ∧
          m'.step s = .error e ∧ (∀ o ∈ s.reads, m'.bound.has o = true) ∧
          (e = .missing → ∃ text ∈ s.scalarNames, m'.scope.has (.object (.name text)) = false) := by
  have hlinear := Plan.isLinear_of_program hd h
  refine ⟨hlinear, fun {R} _ m hinputs e m' hrun => ?_⟩
  obtain ⟨before, s, after, heq, hbefore, hstep, hbinds, hlacks⟩ :=
    hlinear.finds (Plan.isFlat h) hinputs hrun
  refine ⟨fun o => ⟨?_, ?_⟩, before, s, after, heq, hbefore, hstep, hbinds, ?_⟩
  · rintro rfl
    cases (hlacks trivial).1
  · rintro rfl
    cases (hlacks trivial).1
  · rintro rfl
    exact (hlacks trivial).2

/-- The legs of a product of three tensors are exchanged, and the norm of the result is multiplied
by a named scalar. -/
def scaledNorm : Diagram :=
  .block [.assign (.ref ⟨.name "E", [.name "y", .name "x"], [], false⟩)
      (.product (.ref ⟨.name "τ", [.name "y", .name "x"], [.name "a", .name "b"], false⟩)
        (.ref ⟨.name "A", [.name "a"], [.name "c"], false⟩)
        [.ref ⟨.name "A", [.name "c"], [.name "d"], false⟩,
          .ref ⟨.name "B", [.name "d", .name "b"], [], false⟩]) true,
    .block [.assign (.scalar (.name "s")) (.product (.scalar (.name "alpha"))
      (.ref ⟨.name "E", [.name "p", .name "q"], [], false⟩)
      [.conj (.ref ⟨.name "E", [.name "p", .name "q"], [], false⟩)]) false]]

/-- The tensors of the scaled norm, without the scalar. -/
def scaledNormObjects : Table String (Value ℤ) :=
  [("A", .tensor (numberedTensor [false] [false])),
    ("B", .tensor (numberedTensor [false, false] []))]

/-- Whether a run stops because something is missing. -/
def Machine.Outcome.isMissing {R : Type} : Machine.Outcome R → Bool
  | .error (.missing, _) => true
  | _ => false

/-- An outcome that lacks something is an error. -/
theorem Machine.Outcome.exists_of_isMissing {R : Type} {outcome : Machine.Outcome R}
    (h : outcome.isMissing = true) : ∃ m, outcome = .error (.missing, m) := by
  unfold isMissing at h
  split at h
  · exact ⟨_, rfl⟩
  · cases h

/-- The plan for the scaled norm has two temporaries and a braiding and is linear, and its run stops
where the scalar is missing. -/
theorem Plan.run_of_scaledNorm_finds_objects : ∃ (p : Plan) (m' : Machine ℤ),
    Plan.forBraided {} none scaledNorm = .ok p ∧ p.temporaries.length = 2 ∧ p.IsLinear ∧
    (∀ o ∈ p.inputs, (Machine.start scaledNormObjects).scope.has (.object o) = true) ∧
    p.run (.start scaledNormObjects) = .error (.missing, m') ∧
    ∃ s ∈ p.statements, (∀ o ∈ s.reads, m'.bound.has o = true) ∧
      ∃ text ∈ s.scalarNames, m'.scope.has (.object (.name text)) = false := by
  have hprogram : scaledNorm.IsProgram := by
    refine .block (List.forall_mem_cons.mpr ⟨.leaf (.assign _ _ ⟨?_, Or.inl (by decide)⟩),
      List.forall_mem_singleton.mpr (.block (List.forall_mem_singleton.mpr
        (.leaf (.assign _ _ ⟨?_, Or.inl (by decide)⟩))))⟩)
    · exact .product (.ref _) (.ref _)
        (List.forall_mem_cons.mpr ⟨.ref _, List.forall_mem_singleton.mpr (.ref _)⟩)
    · exact .product (.scalar _) (.ref _) (List.forall_mem_singleton.mpr (.conj (.ref _)))
  obtain ⟨p, hp⟩ :=
    exists_of_isOk (show (Plan.forBraided {} none scaledNorm).isOk = true by decide +kernel)
  have hruns : ((Plan.forBraided {} none scaledNorm).toOption.any fun p =>
      decide (p.temporaries.length = 2) && p.inputs.all (fun o =>
        (Machine.start scaledNormObjects).scope.has (.object o)) &&
      (p.run (.start scaledNormObjects)).isMissing) = true := by
    decide +kernel
  rw [hp, Except.toOption, Option.any_some] at hruns
  simp only [Bool.and_eq_true, decide_eq_true_eq, List.all_eq_true] at hruns
  obtain ⟨⟨htemporaries, hinputs⟩, hrun⟩ := hruns
  obtain ⟨m', hm'⟩ := Machine.Outcome.exists_of_isMissing hrun
  obtain ⟨hlinear, hfinds⟩ := Plan.run_of_program_finds_objects hprogram (Or.inl hp)
  obtain ⟨-, before, s, after, hs, -, -, hbound, hmissing⟩ := hfinds _ hinputs _ _ hm'
  exact ⟨p, m', hp, htemporaries, hlinear, hinputs, hm', s,
    hs ▸ List.mem_append_right _ List.mem_cons_self, hbound, hmissing rfl⟩

end TensorDiagram
