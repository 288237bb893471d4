import TensorDiagram.Proofs.Programs

/-!
# Plans of planar programs

A program without braidings is compiled in two ways.  One plan evaluates the bound program as it is,
the other one first lowers every assignment to planar binary contractions.  Statement by statement
both runs keep machines that agree about all bound objects, so they hand back the same values
(`planar_run_agrees`).
-/

namespace TensorDiagram

variable {P : ObjectRef → Prop} {table table' : HandleTable}

namespace Machine

variable {R : Type} [Arithmetic R]

theorem execute_block (m : Machine R) (statements : List Diagram) :
    m.execute (.block statements) = m.executeAll statements := by
  simp only [execute]

theorem execute_sealed (m : Machine R) (statements : List Diagram) :
    m.execute (.sealed statements) = m.executeAll statements := by
  simp only [execute]

/-- Statements that keep machines in agreement one by one keep them in agreement. -/
theorem executeAll_sameOutcome {xs ys : List Diagram}
    (h : List.Forall₂ (fun x y => ∀ m m' : Machine R, m.AgreesOn P m' →
      SameOutcome (AgreesOn P) (m.execute x) (m'.execute y)) xs ys) {m m' : Machine R}
    (hm : m.AgreesOn P m') : SameOutcome (AgreesOn P) (m.executeAll xs) (m'.executeAll ys) := by
  induction h generalizing m m' with
  | nil =>
    simp only [executeAll]
    exact .ok hm
  | cons hxy _ ih =>
    have hfirst := hxy m m' hm
    simp only [executeAll]
    revert hfirst
    generalize m.execute _ = o, m'.execute _ = o'
    intro hfirst
    cases hfirst with
    | ok hagrees => exact ih hagrees
    | error e e' => exact .error e e'

theorem execute_exportAs (m : Machine R) (name : ObjectRef) (handle : Handle) :
    m.execute (.exportAs name handle) =
      match m.boundTo (.handle handle) with
      | .ok value => .ok (m.yield (.object name) value)
      | .error e => .error (e, m) := by
  simp only [execute, step]
  rcases m.boundTo (.handle handle) with e | value <;> rfl

/-- Handing back an object keeps machines in agreement. -/
theorem AgreesOn.exportAs {m m' : Machine R} (h : m.AgreesOn P m') (name : ObjectRef)
    {handle : Handle} (hhandle : P (.handle handle)) :
    SameOutcome (AgreesOn P) (m.execute (.exportAs name handle))
      (m'.execute (.exportAs name handle)) := by
  rw [execute_exportAs, execute_exportAs, boundTo, boundTo]
  have hrel := h.bound _ hhandle
  generalize m.bound.find? (.handle handle) = x, m'.bound.find? (.handle handle) = y at hrel
  cases hrel with
  | some hvw => exact .ok (h.yield _ hvw)
  | none => exact .error _ _

end Machine

namespace Machine

variable {R : Type} [CommRing R] [StarRing R] [Arithmetic R] [Arithmetic.IsExact R]

/-- An assignment keeps machines in agreement. -/
theorem AgreesOn.execute_assign {m m' : Machine R} (h : m.AgreesOn P m') {lhs rhs : Diagram}
    (hlhs : lhs.IsAssignable) (hrhs : rhs.IsNormal) (huses : rhs.Uses P) (isDefinition : Bool) :
    SameOutcome (AgreesOn P) (m.execute (.assign lhs rhs isDefinition))
      (m'.execute (.assign lhs rhs isDefinition)) := by
  rw [Machine.execute_assign, Machine.execute_assign]
  have hsame := h.assign hlhs hrhs huses isDefinition
  generalize m.assign lhs rhs isDefinition = x, m'.assign lhs rhs isDefinition = y at hsame
  cases hsame with
  | ok hagrees => exact .ok hagrees
  | error e e' => exact .error _ _

end Machine

namespace Diagram

variable {body : List Diagram}

/-! ## Programs without braidings -/

/-- A bound assignment without braidings. -/
abbrev IsBoundAssignment : Diagram → Prop :=
  IsAssignment (fun lhs => lhs.IsAssignable ∧ lhs.Uses IsBoundObject)
    fun rhs => rhs.IsNormal ∧ rhs.Uses IsBoundObject

theorem IsBoundObject.not_isBraiding {t : TensorRef} (h : IsBoundObject t.object)
    (braidingName : String) : t.isBraiding braidingName = false := by
  rw [TensorRef.isBraiding, decide_eq_false_iff_not]
  intro heq
  rw [heq] at h
  exact h

/-- A list of references to bound objects has no braidings. -/
theorem filter_isBraiding_eq_nil {ts : List TensorRef} (h : ∀ t ∈ ts, IsBoundObject t.object)
    (braidingName : String) : (ts.filter fun t => t.isBraiding braidingName) = [] :=
  List.filter_eq_nil_iff.mpr fun t ht => by
    rw [IsBoundObject.not_isBraiding (h t ht)]; exact Bool.false_ne_true

/-- The left hand side of a bound assignment is a handle of an object. -/
theorem BoundAs.lhs {braidingName : String} {f : TensorRef → TensorRef} {lhs rhs : Diagram}
    {isDefinition : Bool} (hlhs : lhs.IsAssignable)
    (hnot : ∀ t, lhs = ref t → ¬ t.isBraiding braidingName = true)
    (hbinds : BindsRefs braidingName f (assign lhs rhs isDefinition)) :
    (lhs.mapRefs f).IsAssignable ∧ (lhs.mapRefs f).Uses IsBoundObject := by
  cases hlhs with
  | ref t =>
    refine ⟨.ref _, uses_ref.mpr ?_⟩
    obtain ⟨handle, hkind, heq⟩ := hbinds.object t (by simp [allRefs]) (hnot t rfl)
    rw [heq]
    exact hkind
  | scalar s => exact ⟨.scalar s, fun t ht => by cases ht⟩

/-- The program without braidings, once it is bound. -/
theorem BoundAs.isBoundAssignment {braidingName : String} {order : Option ContractionTree}
    {f : TensorRef → TensorRef} {s s' : Diagram} (h : BoundAs braidingName order f s s')
    (hs : s.IsAssignment IsAssignable fun rhs => rhs.IsFormula ∧
      rhs.Uses (· ≠ .name braidingName)) : s'.IsBoundAssignment := by
  cases h with
  | @mk lhs rhs rhs' isDefinition hnot hnest hbinds =>
    cases hs with
    | mk hlhs hrhs =>
      obtain ⟨hnormal, hocc⟩ := hrhs.1.nested hnest
      refine .mk (BoundAs.lhs hlhs hnot hbinds) ⟨hnormal.mapRefs f, ?_⟩
      intro t' ht'
      rw [tensors_mapRefs] at ht'
      obtain ⟨t, ht, rfl⟩ := List.mem_map.mp ht'
      have hmem : occurrence t ∈ rhs.occurrences :=
        Multiset.mem_of_le hocc (Multiset.mem_coe.mpr (List.mem_map_of_mem ht))
      obtain ⟨u, hu, huocc⟩ := List.mem_map.mp (Multiset.mem_coe.mp hmem)
      have hobject : u.object = t.object := congrArg Prod.fst huocc
      obtain ⟨handle, hkind, heq⟩ := hbinds.object t
        (by rw [allRefs, hnormal.allRefs_eq]; exact List.mem_append_right _ ht)
        (by simpa [TensorRef.isBraiding, ← hobject] using hrhs.2 u hu)
      rw [heq]
      exact hkind

theorem constructBraidings_assign (braidingName : String) (table : HandleTable) (lhs rhs : Diagram)
    (isDefinition : Bool) : (assign lhs rhs isDefinition).constructBraidings braidingName table =
      (assign lhs rhs isDefinition).constructStatement braidingName table := by
  rw [constructBraidings] <;> simp

theorem removeBraidings_assign (braidingName : String) (lhs rhs : Diagram) (isDefinition : Bool) :
    (assign lhs rhs isDefinition).removeBraidings braidingName =
      (assign lhs rhs isDefinition).removeStatement braidingName := by
  rw [removeBraidings] <;> simp

theorem lowerStatements_assign (table : HandleTable) (lhs rhs : Diagram) (isDefinition : Bool) :
    (assign lhs rhs isDefinition).lowerStatements table =
      lowerAssignment table lhs rhs isDefinition := by
  rw [lowerStatements]

section

variable {s : Diagram} (h : s.IsBoundAssignment)

include h

theorem IsBoundAssignment.of_statementTerms? {terms : List TensorRef}
    (hterms : s.statementTerms? = some terms) : ∀ t ∈ terms, IsBoundObject t.object := by
  cases h with
  | mk hlhs hrhs =>
    rw [statementTerms?] at hterms
    split_ifs at hterms
    obtain rfl := Option.some.inj hterms
    exact hrhs.2

theorem IsBoundAssignment.of_neighbourTerms? {terms : List TensorRef}
    (hterms : s.neighbourTerms? = some terms) : ∀ t ∈ terms, IsBoundObject t.object := by
  cases h with
  | @mk lhs rhs isDefinition hlhs hrhs =>
    have hs : (assign lhs rhs isDefinition).IsBoundAssignment := .mk hlhs hrhs
    cases hlhs.1 with
    | scalar x => exact of_statementTerms? hs hterms
    | ref t =>
      cases isDefinition with
      | true => exact of_statementTerms? hs hterms
      | false =>
        rw [neighbourTerms?] at hterms
        split_ifs at hterms
        obtain rfl := Option.some.inj hterms
        refine fun u hu => (List.mem_append.mp hu).elim (hrhs.2 u) fun hu => ?_
        obtain rfl := List.mem_singleton.mp hu
        exact (uses_ref (t := t)).mp hlhs.2

/-- There is nothing to construct in an assignment without braidings. -/
theorem IsBoundAssignment.constructBraidings_eq (braidingName : String) (table : HandleTable) :
    s.constructBraidings braidingName table = .ok (s, table) := by
  have hconstruct : s.constructStatement braidingName table = .ok (s, table) := by
    rw [constructStatement]
    rcases hterms : s.neighbourTerms? with _ | terms
    · rfl
    · have hnil := filter_isBraiding_eq_nil (h.of_neighbourTerms? hterms) braidingName
      dsimp only
      rw [hnil]
      rfl
  cases h with
  | mk hlhs hrhs => rw [constructBraidings_assign, hconstruct]

/-- There is nothing to remove from an assignment without braidings. -/
theorem IsBoundAssignment.removeBraidings_eq (braidingName : String) :
    s.removeBraidings braidingName = .ok s := by
  have hremove : s.removeStatement braidingName = .ok s := by
    rw [removeStatement]
    rcases hterms : s.statementTerms? with _ | terms
    · rfl
    · have hnil := filter_isBraiding_eq_nil (h.of_statementTerms? hterms) braidingName
      dsimp only
      rw [hnil]
      rfl
  cases h with
  | mk hlhs hrhs => rw [removeBraidings_assign, hremove]

/-- A lowered assignment keeps machines in agreement. -/
theorem IsBoundAssignment.lowerStatements_sameOutcome {R : Type} [CommRing R] [StarRing R]
    [Arithmetic R] [Arithmetic.IsExact R] {lowered : Diagram}
    (hlower : s.lowerStatements table = .ok (lowered, table')) {m m' : Machine R}
    (hm : m.AgreesOn IsBoundObject m') :
    SameOutcome (Machine.AgreesOn IsBoundObject) (m.execute s) (m'.execute lowered) := by
  cases h with
  | @mk lhs rhs isDefinition hlhs hrhs =>
    rw [lowerStatements_assign] at hlower
    have hassign := hm.execute_assign hlhs.1 hrhs.1 hrhs.2 isDefinition
    have hlowered :=
      lowerAssignment_sameOutcome hlhs.1 hrhs.1 (hrhs.2.mono fun o => IsBoundObject.isLasting)
      hlower m'
    refine hassign.trans hlowered fun m₁ m₂ m₃ h₁₂ h₂₃ => h₁₂.trans ?_
    exact h₂₃.mono fun o => IsBoundObject.isLasting

end

/-- There is nothing to construct in a program without braidings. -/
theorem constructBraidingsList_eq (hbody : ∀ s ∈ body, s.IsBoundAssignment) (braidingName : String)
    (table : HandleTable) : constructBraidingsList braidingName table body = .ok (body, table) := by
  induction body with
  | nil => rfl
  | cons s body ih =>
    obtain ⟨hs, hbody⟩ := List.forall_mem_cons.mp hbody
    simp only [constructBraidingsList, hs.constructBraidings_eq, ok_bind, ih hbody]
    rfl

/-- There is nothing to remove from a program without braidings. -/
theorem removeBraidingsList_eq (hbody : ∀ s ∈ body, s.IsBoundAssignment) (braidingName : String) :
    removeBraidingsList braidingName body = .ok body := by
  induction body with
  | nil => rfl
  | cons s body ih =>
    obtain ⟨hs, hbody⟩ := List.forall_mem_cons.mp hbody
    rw [removeBraidingsList, hs.removeBraidings_eq, ok_bind, ih hbody, ok_bind]
    rfl

/-- The statements of a program are lowered one by one. -/
theorem forall₂_of_lowerStatementList {lowered : List Diagram}
    (h : lowerStatementList table body = .ok (lowered, table')) :
    List.Forall₂ (fun s s' => ∃ table table', s.lowerStatements table = .ok (s', table'))
      body lowered := by
  induction body generalizing table lowered with
  | nil =>
    obtain ⟨rfl, -⟩ := Prod.mk.inj (Except.ok.inj h)
    exact .nil
  | cons s body ih =>
    rw [lowerStatementList] at h
    obtain ⟨⟨s', table₁⟩, hs, h⟩ := bind_eq_ok_iff.mp h
    obtain ⟨⟨rest, table₂⟩, hrest, h⟩ := bind_eq_ok_iff.mp h
    obtain ⟨rfl, rfl⟩ := Prod.mk.inj (Except.ok.inj h)
    exact .cons ⟨table, table₁, hs⟩ (ih hrest)

end Diagram

open Diagram

/-! ## Runs -/

/-- A bound program is run part by part. -/
theorem Binding.execute_toBlock {R : Type} [Arithmetic R] (binding : Binding) (m : Machine R) :
    m.execute binding.toBlock =
      (m.executeAll [.sealed binding.prologue, .sealed binding.checks]).bind
      fun m' => m'.executeAll [binding.body, .sealed binding.epilogue] := by
  rw [toBlock, Machine.execute_block, ← Machine.executeAll_append]
  rfl

/-- Handing back objects keeps machines in agreement. -/
theorem Machine.AgreesOn.execute_exports {R : Type} [Arithmetic R] {m m' : Machine R}
    (hm : m.AgreesOn IsBoundObject m') {exports : List Diagram}
    (hexports : ∀ s ∈ exports, ∃ name handle, s = Diagram.exportAs name handle ∧
      handle.kind = .object) :
    SameOutcome (Machine.AgreesOn IsBoundObject) (m.execute (.sealed exports))
      (m'.execute (.sealed exports)) := by
  rw [Machine.execute_sealed, Machine.execute_sealed]
  refine Machine.executeAll_sameOutcome (List.forall₂_same.mpr fun s hs => ?_) hm
  obtain ⟨name, handle, rfl, hkind⟩ := hexports s hs
  exact fun m₁ m₂ hm' => hm'.exportAs name hkind

/-- Plans with the same frame around bodies that keep machines in agreement. -/
theorem Binding.run_sameOutcome {R : Type} [Arithmetic R] {binding : Binding} {body body' : Diagram}
    (hepilogue : ∀ s ∈ binding.epilogue, ∃ name handle, s = exportAs name handle ∧
      handle.kind = .object) (hbody : ∀ m m' : Machine R, m.AgreesOn IsBoundObject m' →
      SameOutcome (Machine.AgreesOn IsBoundObject) (m.execute body) (m'.execute body'))
    (m : Machine R) :
    SameOutcome (Machine.AgreesOn IsBoundObject)
      ((Plan.ofDiagram { binding with body := body }.toBlock table).run m)
      ((Plan.ofDiagram { binding with body := body' }.toBlock table').run m) := by
  rw [Plan.run, Plan.run, Plan.ofDiagram, Plan.ofDiagram, Machine.executeAll_flatten,
    Machine.executeAll_flatten, execute_toBlock, execute_toBlock]
  refine (SameOutcome.refl .refl _).bind fun m₁ m₂ hm =>
    Machine.executeAll_sameOutcome (.cons hbody ?_) hm
  exact .cons (fun m₃ m₄ hm' => hm'.execute_exports hepilogue) .nil

/-- The stages of compilation to planar contractions. -/
theorem Plan.forBraided_spec {options : Options} {order : Option ContractionOrder}
    {d : Diagram} {p : Plan} (h : Plan.forBraided options order d = .ok p) :
    ∃ binding table body table₁ lowered table₂, Plan.bound options order d = .ok (binding, table) ∧
      binding.body.constructBraidings options.braidingName table = .ok (body, table₁) ∧
      body.lowerStatements table₁ = .ok (lowered, table₂) ∧
      p = .ofDiagram { binding with body := lowered }.toBlock table₂ := by
  rw [Plan.forBraided] at h
  obtain ⟨⟨binding, table⟩, hbound, h⟩ := bind_eq_ok_iff.mp h
  obtain ⟨⟨body, table₁⟩, hconstruct, h⟩ := bind_eq_ok_iff.mp h
  have hlower : (body.lowerStatements table₁ >>= fun r =>
      .ok (Plan.ofDiagram { binding with body := r.1 }.toBlock r.2)) = .ok p := by
    dsimp only at h
    split_ifs at h
    · obtain ⟨⟨⟩, -, h⟩ := bind_eq_ok_iff.mp h
      exact h
    · exact h
  obtain ⟨⟨lowered, table₂⟩, hlower, h⟩ := bind_eq_ok_iff.mp hlower
  exact ⟨binding, table, body, table₁, lowered, table₂, hbound, hconstruct, hlower,
    (Except.ok.inj h).symm⟩

/-- Both plans of a program without braidings hand back the same. -/
theorem Plan.planar_run_agrees {R : Type} [CommRing R] [StarRing R] [Arithmetic R]
    [Arithmetic.IsExact R] (options : Options) (order : Option ContractionOrder)
    (statements : List Diagram)
    (hstatements : ∀ s ∈ statements, s.IsAssignment IsAssignable fun rhs =>
      rhs.IsFormula ∧ rhs.Uses (· ≠ .name options.braidingName))
    {p : Plan} (hp : Plan.forBraided options order (block statements) = .ok p) :
    ∃ q, Plan.forSymmetric options order (block statements) = .ok q ∧
      (∃ binding table, Plan.bound options order (block statements) = .ok (binding, table) ∧
        q = .ofDiagram binding.toBlock table) ∧
      ∀ (objects : Table String (Value R)) (m : Machine R), q.run (.start objects) = .ok m →
        ∃ m', p.run (.start objects) = .ok m' ∧ m.results.Agrees m'.results := by
  obtain ⟨binding, table, body', table₁, lowered', table₂, hbound, hconstruct, hlower, rfl⟩ :=
    forBraided_spec hp
  obtain ⟨⟨order', f, body, hbody, hsteps⟩, hepilogue⟩ := bound_spec hstatements hbound
  have hassign : ∀ s ∈ body, s.IsBoundAssignment := by
    have hsteps' := (List.forall₂_and_left _ _).mpr ⟨hstatements, hsteps⟩
    exact forall_mem_of_forall₂ (hsteps'.imp fun s s' h => h.2.isBoundAssignment h.1)
  have hremove : binding.body.removeBraidings options.braidingName = .ok binding.body := by
    rw [hbody, removeBraidings, removeBraidingsList_eq hassign]
    rfl
  have hconstruct' : binding.body.constructBraidings options.braidingName table =
      .ok (binding.body, table) := by
    simp only [hbody, constructBraidings, constructBraidingsList_eq hassign]
    rfl
  obtain ⟨rfl, rfl⟩ := Prod.mk.inj (Except.ok.inj (hconstruct'.symm.trans hconstruct))
  refine ⟨.ofDiagram binding.toBlock table, ?_, ⟨binding, table, hbound, rfl⟩,
    fun objects m hm => ?_⟩
  · simp only [forSymmetric, hbound, ok_bind, hremove]
    rfl
  · rw [hbody, lowerStatements] at hlower
    obtain ⟨⟨lowered, table₃⟩, hlist, hlower⟩ := bind_eq_ok_iff.mp hlower
    obtain ⟨rfl, rfl⟩ := Prod.mk.inj (Except.ok.inj hlower)
    have hsteps' : List.Forall₂ (fun x y => ∀ m m' : Machine R, m.AgreesOn IsBoundObject m' →
        SameOutcome (Machine.AgreesOn IsBoundObject) (m.execute x) (m'.execute y))
        body lowered := by
      have hboth := (List.forall₂_and_left _ _).mpr ⟨hassign, forall₂_of_lowerStatementList hlist⟩
      refine hboth.imp fun s s' hs m m' hm => ?_
      obtain ⟨hs, table₄, table₅, hlower⟩ := hs
      exact hs.lowerStatements_sameOutcome hlower hm
    have hbodies : ∀ m m' : Machine R, m.AgreesOn IsBoundObject m' → SameOutcome
        (Machine.AgreesOn IsBoundObject) (m.execute binding.body) (m'.execute (block lowered)) := by
      intro m m' hm
      rw [hbody, Machine.execute_block, Machine.execute_block]
      exact Machine.executeAll_sameOutcome hsteps' hm
    obtain ⟨m', hm', hagrees⟩ := (Binding.run_sameOutcome hepilogue hbodies _).exists_ok hm
    exact ⟨m', hm', hagrees.results⟩

/-! ## Plans that are run -/

/-- A tensor with legs of dimension two, some of them dual, whose entries are numbered from some
integer on. -/
def tensorFrom (start : ℤ) (codomain domain : List Bool) : Tensor ℤ where
  grid := .ofFn .integer ((codomain ++ domain).map fun _ => 2) fun position =>
    start + offset ((codomain ++ domain).map fun _ => 2) position
  legs := ⟨codomain.map (⟨2, ·⟩), domain.map (⟨2, ·⟩)⟩
  shape_eq := by simp [Grid.ofFn, Legs.shape, Function.comp_def]

/-- A tensor with legs of dimension two, some of them dual, whose entries are numbered. -/
def numberedTensor (codomain domain : List Bool) : Tensor ℤ :=
  tensorFrom 0 codomain domain

/-- The entries of a tensor, or the one entry of a scalar. -/
def Value.entries : Value ℤ → List ℤ
  | .tensor t => t.grid.entries.toList
  | .scalar x => [x]

/-- The names of what is handed back, with the entries. -/
def Machine.handedBack (m : Machine ℤ) : List (ResultName × List ℤ) :=
  m.results.map fun entry => (entry.1, entry.2.entries)

/-- A plan that has been evaluated on some objects can be run on them, with the entries found. -/
theorem Plan.exists_run_of_handedBack {plan : Except Error Plan} {p : Plan} (hp : plan = .ok p)
    (objects : Table String (Value ℤ)) {entries : List (ResultName × List ℤ)}
    (h : (plan.toOption.bind fun p =>
      (p.run (.start objects)).toOption.map Machine.handedBack) = some entries) :
    ∃ m, p.run (.start objects) = .ok m ∧ m.handedBack = entries := by
  subst hp
  change (p.run (.start objects)).toOption.map Machine.handedBack = some entries at h
  cases hrun : p.run (.start objects) with
  | error e =>
    rw [hrun] at h
    cases h
  | ok m =>
    rw [hrun] at h
    exact ⟨m, rfl, Option.some.inj h⟩

/-- The triangle is assigned to a tensor, and a multiple of the square of its norm to a scalar. -/
def triangleNorm : List Diagram :=
  [assign (ref ⟨.name "C", [.number 1], [.number 2], false⟩) triangle true,
    assign (scalar (.name "s"))
    (product (scalar (.name "x")) (ref ⟨.name "C", [.number 1], [.number 2], false⟩)
      [conj (ref ⟨.name "C", [.number 1], [.number 2], false⟩)]) false]

/-- The tensors of the triangle and a scalar. -/
def triangleObjects : Table String (Value ℤ) :=
  [("A", .tensor (numberedTensor [false] [false, false])),
    ("B", .tensor (numberedTensor [false, false] [false])),
    ("D", .tensor (numberedTensor [false] [true])), ("x", .scalar 3)]

/-- What is handed back for the norm of the triangle: the scalar, and the tensor that was defined
for it. -/
def triangleEntries : List (ResultName × List ℤ) :=
  [(.object (.name "s"), [581472]), (.object (.name "C"), [80, 132, 208, 356])]

/-- Both plans for the norm of the triangle can be run, and hand back the same scalar and the same
tensor. -/
theorem planar_run_agrees_triangleNorm : ∃ (p q : Plan) (m m' : Machine ℤ),
    Plan.forBraided {} none (block triangleNorm) = .ok p ∧
    Plan.forSymmetric {} none (block triangleNorm) = .ok q ∧
    q.run (.start triangleObjects) = .ok m ∧ p.run (.start triangleObjects) = .ok m' ∧
    m.results.Agrees m'.results ∧ m.handedBack = triangleEntries ∧
    m'.handedBack = triangleEntries := by
  have hstatements : ∀ s ∈ triangleNorm, s.IsAssignment IsAssignable fun rhs =>
      rhs.IsFormula ∧ rhs.Uses (· ≠ .name "τ") := by
    rw [triangleNorm, List.forall_mem_cons, List.forall_mem_singleton]
    refine ⟨.mk (.ref _) ⟨?_, ?_⟩, .mk (.scalar _) ⟨?_, ?_⟩⟩
    · exact .product (.product (.ref _) (.ref _) (by simp)) (.ref _) (by simp)
    · simp [triangle]
    · exact .product (.scalar _) (.ref _) (by simpa using .conj (.ref _))
    · simp [Diagram.Uses, tensors, listTensors]
  obtain ⟨p, hp⟩ := exists_of_isOk
    (show (Plan.forBraided {} none (block triangleNorm)).isOk = true by decide +kernel)
  obtain ⟨q, hq, -, hrun⟩ := Plan.planar_run_agrees (R := ℤ) {} none triangleNorm hstatements hp
  obtain ⟨m, hm, hentries⟩ : ∃ m, q.run (.start triangleObjects) = .ok m ∧
      m.handedBack = triangleEntries :=
    Plan.exists_run_of_handedBack hq triangleObjects (by decide +kernel)
  obtain ⟨m', hm', hagrees⟩ := hrun triangleObjects m hm
  obtain ⟨m₁, hm₁, hentries'⟩ : ∃ m, p.run (.start triangleObjects) = .ok m ∧
      m.handedBack = triangleEntries :=
    Plan.exists_run_of_handedBack hp triangleObjects (by decide +kernel)
  obtain rfl := Except.ok.inj (hm₁.symm.trans hm')
  exact ⟨p, q, m, m₁, hp, hq, hm, hm', hagrees, hentries, hentries'⟩

end TensorDiagram
