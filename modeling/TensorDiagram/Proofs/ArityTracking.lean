import TensorDiagram.Proofs.ArityChecks

/-!
# Numbers of legs along a program

While a program runs, an assignment leaves an object with as many outputs and inputs as its left
hand side has (`Machine.arityOf_assign`).  So the numbers that an object stands for can be tracked
from citation to citation (`Citation.FitsFrom`), and a program fits if every citation that does not
define its object has the numbers that the object stands for at that point of the run
(`Machine.RunsFitting`).

The checks of a plan are done at the start, on the objects that are passed in.  They reject a
program that fits exactly if an object that was passed in is defined anew with other numbers and
cited with these afterwards (`Plan.arity_error_iff_redefined`), since all statements behind the
checks fail in other ways (`Machine.step_kind_ne_arity`).
-/

namespace TensorDiagram

variable {d s : Diagram} {braidingName : String} {Rhs : Diagram → Prop}

/-! ## Errors behind the checks -/

namespace Machine

variable {R : Type} [Arithmetic R]

/-- Only a check finds wrong numbers of legs. -/
theorem step_kind_ne_arity (m : Machine R)
    (hs : ∀ handle name outputs inputs, s ≠ .checkArity handle name outputs inputs) :
    FailsWith (fun e => e.kind ≠ .arity) (m.step s) := by
  have hlookup : ∀ o, FailsWith (fun e => e.kind ≠ .arity) (m.lookup o) := by
    intro o
    unfold lookup
    split
    · exact .ok _
    · exact .error (by simp [Error.kind])
    · split
      · exact .ok _
      · exact .error (by simp [Error.kind])
  have hscalar : ∀ text, FailsWith (fun e => e.kind ≠ .arity) (m.namedScalar text) := by
    intro text
    unfold namedScalar
    split
    · exact .ok _
    · exact .error (by simp [Error.kind])
  refine step_failsWith (fun e he => ?_) s ⟨fun o _ => hlookup o, fun text _ =>
    hscalar text⟩ ?_ ?_ ?_
  · cases e <;> first | exact he.elim | simp [Error.kind]
  · rintro handle name rfl
    unfold step
    dsimp only
    split
    · exact .ok _
    · exact .error (by simp [Error.kind])
  · rintro handle name outputs inputs rfl
    exact absurd rfl (hs handle name outputs inputs)
  · rintro name handle rfl
    refine FailsWith.bind ?_ fun _ => .ok _
    unfold boundTo
    split
    · exact .ok _
    · exact .error (by simp [Error.kind])

end Machine

namespace Diagram

variable {s' : Diagram}

/-- There are no checks of numbers of legs among the statements. -/
def HasNoChecks (statements : List Diagram) : Prop :=
  ∀ s ∈ statements, ∀ handle name outputs inputs, s ≠ checkArity handle name outputs inputs

theorem HasNoChecks.append {xs ys : List Diagram} (hxs : HasNoChecks xs) (hys : HasNoChecks ys) :
    HasNoChecks (xs ++ ys) :=
  List.forall_mem_append.mpr ⟨hxs, hys⟩

theorem IsStatement.hasNoChecks (hs : s.IsStatement Rhs) : HasNoChecks s.flatten := by
  rw [hs.flatten_eq]
  refine List.forall_mem_singleton.mpr ?_
  rintro handle name outputs inputs rfl
  cases hs with
  | expression hexpression _ => cases hexpression

/-- A statement with a normal expression, or the construction of braidings. -/
def IsConstructed (s : Diagram) : Prop :=
  s.IsStatement IsNormal ∨
    ∃ statements, s = sealed statements ∧ ∀ x ∈ statements, ∃ h first second,
    x = braid h first second

theorem IsStatement.mapRefs_normal (hs : s.IsStatement IsNormal) (f : TensorRef → TensorRef) :
    (s.mapRefs f).IsStatement IsNormal := by
  cases hs with
  | assign lhs isDefinition hrhs => exact .assign _ _ (hrhs.mapRefs f)
  | expression _ hd => exact .expression (hd.mapRefs f).isExpression_eq (hd.mapRefs f)

theorem IsStatement.nested_normal {order : Option ContractionTree} (hs : s.IsStatement IsFormula)
    (h : (s.adjointForm false).nestProducts order = .ok s') : s'.IsStatement IsNormal := by
  cases hs with
  | assign lhs isDefinition hrhs =>
    obtain ⟨rhs', hrhs', rfl⟩ := nestProducts_assign_eq_ok_iff.mp h
    exact .assign _ _ (hrhs.nested hrhs').1
  | expression _ hd => exact .expression (hd.nested h).1.isExpression_eq (hd.nested h).1

/-- The normal form of a program has normal expressions. -/
theorem IsTree.nested_normal {order : Option ContractionOrder} {d' : Diagram} (hd : d.IsScript)
    (h : d.pushConj.binarize order = .ok d') : d'.IsTree (IsStatement IsNormal) := by
  obtain ⟨tree, -, htree⟩ := exists_tree_of_binarize h
  rw [htree] at h
  exact hd.nestProducts_of (fun hs => hs.nested_normal) h

theorem IsTree.citations_eq (hd : d.IsTree (IsStatement Rhs)) :
    d.citations = d.flatten.flatMap citations := by
  rw [citations, hd.references_eq, List.map_flatMap]
  rfl

/-- Constructing braidings puts nothing else in front of a statement. -/
theorem IsStatement.isTree_constructStatement {table table' : HandleTable}
    (hs : s.IsStatement IsNormal) (h : s.constructStatement braidingName table = .ok (s', table')) :
    s'.IsTree IsConstructed := by
  rcases constructStatement_cases rfl h with ⟨-, rfl, rfl⟩ | ⟨strands, statements, handles, -, -,
    hconstructions, rfl⟩
  · exact .leaf (Or.inl hs)
  · obtain ⟨-, hconstructs, -⟩ := constructions_spec hconstructions
    have hflip : List.Forall₂ (fun _ x => ∃ h first second, x = braid h first second)
      (handles.map Prod.snd)
        statements := hconstructs.flip.imp fun h _ hx => ⟨h, hx.2⟩
    refine .block
      (List.forall_mem_cons.mpr ⟨.leaf (Or.inr ⟨statements, rfl, forall_mem_of_forall₂ hflip⟩), ?_⟩)
    exact List.forall_mem_singleton.mpr (.leaf (Or.inl (hs.mapRefs_normal _)))

/-- Lowering a statement puts definitions in front of it. -/
theorem IsStatement.hasNoChecks_lowerStatements {table table' : HandleTable}
    (hs : s.IsStatement IsNormal) (h : s.lowerStatements table = .ok (s', table')) :
    HasNoChecks s'.flatten := by
  have hblock : ∀ {rhs x final : Diagram} {target : WantedOrder} {e : Emission}, rhs.IsNormal →
      rhs.lower target ⟨table, []⟩ = .ok (x, e) → final.IsStatement (fun _ => True) →
      HasNoChecks (block (e.definitions ++ [final])).flatten := by
    intro rhs x final target e hrhs hlower hfinal
    obtain ⟨_, definitions, hdefinitions, -, hdefines⟩ :=
      (hrhs.lowersTo hlower).emits.exists_defines
    rw [flatten, hdefinitions, List.nil_append, flattenList_eq, List.flatMap_append,
      List.flatMap_singleton]
    refine HasNoChecks.append (fun y hy => ?_) hfinal.hasNoChecks
    obtain ⟨z, hz, hy⟩ := List.mem_flatMap.mp hy
    obtain ⟨t, rhs, rfl⟩ := hdefines.isDefinition z hz
    obtain rfl := List.mem_singleton.mp hy
    exact nofun
  cases hs with
  | @assign rhs lhs isDefinition hrhs =>
    rw [lowerStatements, lowerAssignment] at h
    split_ifs at h
    · obtain ⟨⟨x, e⟩, hlower, h⟩ := bind_eq_ok_iff.mp h
      obtain ⟨rfl, rfl⟩ := Prod.mk.inj (Except.ok.inj h)
      exact hblock hrhs hlower (.assign _ _ trivial)
    · obtain ⟨rfl, rfl⟩ := Prod.mk.inj (Except.ok.inj h)
      exact (IsStatement.assign lhs isDefinition hrhs).hasNoChecks
  | expression hexpression hd =>
    by_cases htensor : s.isTensor = true
    · rw [hd.lowerStatements_eq htensor] at h
      obtain ⟨orders, -, h⟩ := bind_eq_ok_iff.mp h
      cases orders with
      | nil => cases h
      | cons order rest =>
        obtain ⟨⟨x, e⟩, hlower, h⟩ := bind_eq_ok_iff.mp h
        obtain ⟨rfl, rfl⟩ := Prod.mk.inj (Except.ok.inj h)
        exact hblock hd hlower (.expression ((hd.lowersTo hlower).isExpression hd) trivial)
    · have heq : s.lowerStatements table = s.lowerExpression table := by
        cases s <;> simp_all [isExpression, lowerStatements]
      rw [heq, lowerExpression, if_neg htensor] at h
      obtain ⟨rfl, rfl⟩ := Prod.mk.inj (Except.ok.inj h)
      exact (IsStatement.expression hexpression hd).hasNoChecks

/-- Removing the braidings of a statement leaves a statement. -/
theorem IsStatement.hasNoChecks_removeStatement (hs : s.IsStatement IsNormal)
    (h : s.removeStatement braidingName = .ok s') : HasNoChecks s'.flatten := by
  rcases removeStatement_cases h with ⟨-, rfl⟩ | ⟨g, hpurge⟩
  · exact hs.hasNoChecks
  · cases hs with
    | @assign rhs lhs isDefinition hrhs =>
      change (Diagram.assign (lhs.mapIndices g) (rhs.mapIndices g) isDefinition).purgeBraidings
        braidingName = _ at hpurge
      rw [purgeBraidings_assign] at hpurge
      obtain ⟨rhs', -, heq⟩ := bind_eq_ok_iff.mp hpurge
      obtain rfl := Except.ok.inj heq
      have hstatement : (Diagram.assign (lhs.mapIndices g) rhs' isDefinition).IsStatement
          fun _ => True :=
        .assign _ _ trivial
      exact hstatement.hasNoChecks
    | expression _ hd =>
      have hnormal := ((hd.mapRefs _).remainder_spec (wholeOf_eq_ok hpurge)).1
      exact (IsStatement.expression hnormal.isExpression_eq hnormal).hasNoChecks

/-- The body of a plan has no checks. -/
theorem IsTree.hasNoChecks_of_compilesTo {body : Diagram} (hd : d.IsTree (IsStatement IsNormal))
    (h : Plan.CompilesTo braidingName d body) : HasNoChecks body.flatten := by
  have hsingle : ∀ {s : Diagram} (table : HandleTable), s.IsStatement IsNormal →
      s.constructBraidings braidingName table = s.constructStatement braidingName table ∧
        s.removeBraidings braidingName = s.removeStatement braidingName := by
    intro s table hs
    cases hs with
    | assign => exact ⟨rfl, rfl⟩
    | expression hexpression _ =>
      cases s <;> simp_all [isExpression, constructBraidings, removeBraidings]
  rcases h with ⟨table, constructed, table₁, table₂, hconstruct, hlower⟩ | hremove
  · obtain ⟨htree, -⟩ : constructed.IsTree IsConstructed ∧ True :=
      hd.passes (R := fun _ _ _ _ => True) (isTreePass_constructBraidings braidingName)
        (fun _ => trivial) (fun _ _ => trivial)
        (fun {s s' table table'} hs h => ⟨hs.isTree_constructStatement ((hsingle table hs).1 ▸ h),
          trivial⟩) hconstruct
    suffices hlowered : body.IsTree (fun _ => True) ∧ HasNoChecks body.flatten from hlowered.2
    refine htree.passes (R := fun _ _ _ out => HasNoChecks out) isTreePass_lowerStatements
      (fun _ => by simp [HasNoChecks]) (fun hxs hys => hxs.append hys) ?_ hlower
    rintro s s' table table' (hs | ⟨statements, rfl, hbraid⟩) h
    · exact ⟨.leaf trivial, hs.hasNoChecks_lowerStatements h⟩
    · obtain ⟨rfl, rfl⟩ := Prod.mk.inj (Except.ok.inj h)
      refine ⟨.leaf trivial, fun y hy => ?_⟩
      have hself : flattenList statements = statements := flattenList_eq_self fun x hx => by
        obtain ⟨_, _, _, rfl⟩ := hbraid x hx
        rfl
      rw [flatten, hself] at hy
      obtain ⟨_, _, _, rfl⟩ := hbraid y hy
      rintro _ _ _ _ ⟨⟩
  · have hrun : (d.removeBraidings braidingName >>= fun d' => .ok (d', HandleTable.empty)) =
        .ok (body, .empty) := by
      rw [hremove, ok_bind]
    suffices hremoved : body.IsTree (fun _ => True) ∧ HasNoChecks body.flatten from hremoved.2
    refine hd.passes (R := fun _ _ _ out => HasNoChecks out)
      (isTreePass_removeBraidings braidingName) (fun _ => by simp [HasNoChecks]) (fun hxs hys =>
        hxs.append hys) (fun {s s' table table'} hs h => ?_) hrun
    obtain ⟨x, hx, h⟩ := bind_eq_ok_iff.mp h
    obtain ⟨rfl, rfl⟩ := Prod.mk.inj (Except.ok.inj h)
    exact ⟨.leaf trivial, hs.hasNoChecks_removeStatement ((hsingle .empty hs).2 ▸ hx)⟩

end Diagram

/-! ## Tracked numbers -/

namespace Citation

variable {braidingName : String} {α : ObjectRef → Option (ℕ × ℕ)} {cs : List Citation}

/-- The numbers of outputs and inputs that objects stand for after a citation: an object that is
written has those of the citation. -/
def after (c : Citation) (α : ObjectRef → Option (ℕ × ℕ)) : ObjectRef → Option (ℕ × ℕ) :=
  if c.role = .use then α else Function.update α c.object (some c.arity)

/-- Every citation of an object that does not define it gives it the numbers that it has at that
point, when objects have certain numbers at the start.  Braidings fit everywhere. -/
def FitsFrom (braidingName : String) : (ObjectRef → Option (ℕ × ℕ)) → List Citation → Prop
  | _, [] => True
  | α, c :: cs => (c.object ≠ .name braidingName → c.role ≠ .define → α c.object = some c.arity) ∧
      FitsFrom braidingName (c.after α) cs

instance FitsFrom.decidable : ∀ (cs : List Citation) (α : ObjectRef → Option (ℕ × ℕ)),
    Decidable (FitsFrom braidingName α cs)
  | [], _ => isTrue trivial
  | c :: cs, α =>
    haveI := FitsFrom.decidable cs (c.after α)
    inferInstanceAs (Decidable (_ ∧ _))

/-- Citations fit if the first ones do, and the others do with the numbers that the first ones
leave. -/
theorem FitsFrom.append {cs' : List Citation} (h : FitsFrom braidingName α cs)
    (h' : FitsFrom braidingName (cs.foldl (fun α c => c.after α) α) cs') :
    FitsFrom braidingName α (cs ++ cs') := by
  induction cs generalizing α with
  | nil => exact h'
  | cons c cs ih => exact ⟨h.1, ih h.2 h'⟩

theorem foldl_after_asUse (ts : List TensorRef) (α : ObjectRef → Option (ℕ × ℕ)) :
    (ts.map TensorRef.asUse).foldl (fun α c => c.after α) α = α := by
  induction ts with
  | nil => rfl
  | cons t ts ih => exact ih

/-- A citation that fits has the numbers of the object at the start, or those of an earlier
definition. -/
theorem FitsFrom.eq_or_exists {before after : List Citation} {c : Citation}
    (h : FitsFrom braidingName α (before ++ c :: after)) (hname : c.object ≠ .name braidingName)
    (hrole : c.role ≠ .define) :
    α c.object = some c.arity ∨ ∃ first c' middle, before = first ++ c' :: middle ∧
      c'.object = c.object ∧ c'.role = .define ∧ c'.arity = c.arity := by
  induction before generalizing α with
  | nil => exact Or.inl (h.1 hname hrole)
  | cons x before ih =>
    rcases ih h.2 with hbefore | ⟨first, c', middle, rfl, hc'⟩
    · rw [Citation.after] at hbefore
      split_ifs at hbefore with huse
      · exact Or.inl hbefore
      · by_cases hobject : c.object = x.object
        · -- the object is written here
          rw [hobject, Function.update_self, Option.some.injEq] at hbefore
          by_cases hdefine : x.role = .define
          · exact Or.inr ⟨[], x, before, rfl, hobject.symm, hdefine, hbefore⟩
          · left
            rw [hobject, ← hbefore]
            exact h.1 (hobject ▸ hname) hdefine
        · rw [Function.update_of_ne hobject] at hbefore
          exact Or.inl hbefore
    · exact Or.inr ⟨x :: first, c', middle, rfl, hc'⟩

/-- An object that exists before a program that fits has numbers of outputs and inputs at the
start. -/
theorem FitsFrom.isSome_of_preExists (h : FitsFrom braidingName α cs) {o : ObjectRef}
    (ho : o ≠ .name braidingName) (hexists : PreExists cs o) : (α o).isSome = true := by
  induction cs generalizing α with
  | nil =>
    obtain ⟨c, hc, -⟩ := hexists
    cases hc
  | cons c cs ih =>
    rw [preExists_cons] at hexists
    split_ifs at hexists with hobject
    · subst hobject
      rw [h.1 ho hexists]
      rfl
    · have hsome := ih h.2 hexists
      rw [Citation.after] at hsome
      split_ifs at hsome
      · exact hsome
      · rwa [Function.update_of_ne (Ne.symm hobject)] at hsome

end Citation

namespace Machine

variable {R : Type}

/-- The numbers of outputs and inputs of an object that is in scope. -/
def givenArity (m : Machine R) (o : ObjectRef) : Option (ℕ × ℕ) :=
  match m.scope.find? (.object o) with
  | some (.tensor t) => some t.arity
  | _ => none

theorem givenArity_eq_some_iff {m : Machine R} {o : ObjectRef} {a : ℕ × ℕ} :
    m.givenArity o = some a ↔ ∃ t, m.scope.find? (.object o) = some (.tensor t) ∧ t.arity = a := by
  unfold givenArity
  split
  · rename_i t ht
    simp [ht]
  · rename_i hnone
    exact iff_of_false nofun fun ⟨t, ht, _⟩ => hnone t ht

/-- The numbers of outputs and inputs of the tensor that an object stands for at some point of a
run: the one that was assigned last, or else the one that was passed in. -/
def arityOf (given : ObjectRef → Option (ℕ × ℕ)) (m : Machine R) (o : ObjectRef) : Option (ℕ × ℕ) :=
  match m.bound.find? o with
  | some (.tensor t) => some t.arity
  | some (.scalar _) => none
  | none => given o

variable {given : ObjectRef → Option (ℕ × ℕ)}

theorem arityOf_start (objects : Table String (Value R)) : (start objects).arityOf given = given :=
  rfl

theorem arityOf_bind (m : Machine R) (o : ObjectRef) (t : Tensor R) :
    (m.bind o (.tensor t)).arityOf given = Function.update (m.arityOf given) o (some t.arity) := by
  funext x
  by_cases hx : x = o
  · subst hx
    rw [Function.update_self, arityOf, bind, Table.find?_put_self]
  · rw [Function.update_of_ne hx, arityOf, arityOf, bind, Table.find?_put_of_ne _ _ hx]

variable [Arithmetic R] {m m' : Machine R}

/-- The value of a right hand side has as many outputs and inputs as are written on the left hand
side. -/
theorem arity_arrangedValue {t : TensorRef} {rhs : Diagram} {isDefinition : Bool} {w : Tensor R}
    (h : m.arrangedValue (.ref t) rhs isDefinition = .ok w) :
    w.arity = (t.left.length, t.right.length) := by
  obtain ⟨operands, -, hcontract⟩ := arrangedValue_eq_ok_iff.mp h
  obtain ⟨houtputs, hinputs, -⟩ := Tensor.legs_of_contractAll hcontract
  rw [Tensor.arity, houtputs, hinputs]

/-- An assignment leaves an object with as many outputs and inputs as its left hand side has. -/
theorem arityOf_assign {t : TensorRef} {rhs : Diagram} {isDefinition : Bool}
    (h : m.assign (.ref t) rhs isDefinition = .ok m') :
    m'.arityOf given = Function.update (m.arityOf given) t.object (some t.arity) := by
  obtain ⟨w, hw, h⟩ := bind_eq_ok_iff.mp h
  obtain rfl := Except.ok.inj h
  have harity := arity_arrangedValue hw
  rw [arityOf_bind]
  congr 2
  rw [Tensor.arity, Prod.mk.injEq] at harity
  rw [TensorRef.arity]
  split_ifs
  · exact congrArg₂ Prod.mk harity.2 harity.1
  · exact congrArg₂ Prod.mk harity.1 harity.2

/-- A statement changes the numbers of what it assigns to as tracked. -/
theorem arityOf_step (hs : s.IsStatement Rhs) (h : m.step s = .ok m') :
    m'.arityOf given = s.citations.foldl (fun α c => c.after α) (m.arityOf given) := by
  cases hs with
  | @assign rhs lhs isDefinition _ =>
    rw [Diagram.citations_assign, List.foldl_append, Citation.foldl_after_asUse]
    change m.assign lhs rhs isDefinition = _ at h
    cases lhs with
    | ref t =>
      rw [arityOf_assign h]
      cases isDefinition <;> rfl
    | scalar s =>
      change m.assignScalar s rhs = _ at h
      rw [Evaluated.assignScalar_eq] at h
      obtain ⟨x, -, h⟩ := bind_eq_ok_iff.mp h
      obtain ⟨v, -, h⟩ := bind_eq_ok_iff.mp h
      obtain rfl := Except.ok.inj h
      rfl
    | _ =>
      -- nothing else can be assigned to
      obtain ⟨w, -, h⟩ := bind_eq_ok_iff.mp h
      cases h
  | expression hexpression _ =>
    rw [Diagram.citations_of_isExpression hexpression, Citation.foldl_after_asUse]
    have hstep : m.step s = m.evaluate s >>= fun x => .ok (m.yieldStandalone x.value) := by
      cases s <;> first | rfl | cases hexpression
    rw [hstep] at h
    obtain ⟨x, -, h⟩ := bind_eq_ok_iff.mp h
    obtain rfl := Except.ok.inj h
    rfl

/-- In a run, statement by statement, every citation that does not define its object has the numbers
of the tensor that the object stands for at that point.  Behind a statement that fails, this is the
one that the statements so far would have left. -/
inductive RunsFitting (braidingName : String) (given : ObjectRef → Option (ℕ × ℕ)) :
    Machine R → List Diagram → Prop
  /-- The run is over. -/
  | done (m : Machine R) : RunsFitting braidingName given m []
  /-- One more statement is done. -/
  | step {m m' : Machine R} {s : Diagram} {rest : List Diagram}
      (hfits : Citation.FitsFrom braidingName (m.arityOf given) s.citations)
      (hstep : m.step s = .ok m') (hrest : RunsFitting braidingName given m' rest) :
      RunsFitting braidingName given m (s :: rest)
  /-- The next statement fails. -/
  | stuck {m : Machine R} {s : Diagram} {rest : List Diagram} {e : Error}
      (hstep : m.step s = .error e) (hfits : Citation.FitsFrom braidingName (m.arityOf given)
        ((s :: rest).flatMap Diagram.citations)) :
      RunsFitting braidingName given m (s :: rest)

instance RunsFitting.decidable (braidingName : String) (given : ObjectRef → Option (ℕ × ℕ)) :
    ∀ (statements : List Diagram)
      (m : Machine R), Decidable (m.RunsFitting braidingName given statements)
  | [], m => isTrue (.done m)
  | s :: rest, m =>
    match h : m.step s with
    | .ok m' =>
      haveI := RunsFitting.decidable braidingName given rest m'
      decidable_of_iff (Citation.FitsFrom braidingName (m.arityOf given) s.citations ∧
        m'.RunsFitting braidingName given rest)
        ⟨fun hfits => .step hfits.1 h hfits.2, fun hfits => by
          cases hfits with
          | step hfits hstep hrest =>
            obtain rfl := Except.ok.inj (h.symm.trans hstep)
            exact ⟨hfits, hrest⟩
          | stuck hstep _ => cases h.symm.trans hstep⟩
    | .error _ =>
      decidable_of_iff
          (Citation.FitsFrom braidingName (m.arityOf given) ((s :: rest).flatMap Diagram.citations))
        ⟨fun hfits => .stuck h hfits, fun hfits => by
          cases hfits with
          | step _ hstep _ => cases h.symm.trans hstep
          | stuck _ hfits => exact hfits⟩

/-- The citations of a program that runs with every citation fitting do so with the tracked
numbers. -/
theorem RunsFitting.fitsFrom {statements : List Diagram}
    (h : m.RunsFitting braidingName given statements)
    (hstatements : ∀ s ∈ statements, s.IsStatement Rhs) :
    Citation.FitsFrom braidingName (m.arityOf given) (statements.flatMap Diagram.citations) := by
  induction h with
  | done m => trivial
  | stuck _ hfits => exact hfits
  | step hfits hstep _ ih =>
    obtain ⟨hs, hrest⟩ := List.forall_mem_cons.mp hstatements
    rw [List.flatMap_cons]
    exact hfits.append (arityOf_step hs hstep ▸ ih hrest)

/-- The misuse that stops a run: the numbers of outputs and inputs that are cited, those that there
are, and the object. -/
def misuse? {R : Type} : Outcome R → Option (Int × Int × Nat × Nat × ObjectRef)
  | .error (.arity outputs inputs outputs' inputs' name, _) =>
    some (outputs, inputs, outputs', inputs', name)
  | _ => none

theorem exists_of_misuse? {R : Type} {x : Outcome R} {outputs inputs : Int} {outputs' inputs' : Nat}
    {name : ObjectRef} (h : misuse? x = some (outputs, inputs, outputs', inputs', name)) :
    ∃ m, x = .error (.arity outputs inputs outputs' inputs' name, m) := by
  unfold misuse? at h
  split at h
  · rename_i m
    cases h
    exact ⟨m, rfl⟩
  · cases h

end Machine

namespace Plan

open Citation

/-- If no citation misuses an object that was passed in, then a run does not find wrong numbers of
legs. -/
theorem kind_ne_arity_of_not_misuses {R : Type} [Arithmetic R] {options : Options} {body : Diagram}
    {u : ObjectUse} {p : Plan} {m m' : Machine R} {e : Error}
    (hread : d.references.foldlM (ObjectUse.read options.braidingName) ⟨[], [], []⟩ = .ok u)
    (hgiven : ∀ o ∈ u.existing, ∃ t, m.scope.find? (.object o) = some (.tensor t))
    (hstatements : p.statements = u.inputs.map Binding.bindStatement ++
      (u.checks options d ++ (body.flatten ++ u.outputs.map Binding.exportStatement)))
    (hbody : Diagram.HasNoChecks body.flatten)
    (hcs : ∀ c ∈ d.citations, ¬ m.Misuses options.braidingName d.citations c)
    (hrun : p.run m = .error (e, m')) : e.kind ≠ .arity := by
  obtain ⟨m₁, hbind, hbinds⟩ := exists_bindsAll_inputs hread hgiven
  have hchecks : m₁.executeAll (u.checks options d) = .ok m₁ := by
    rw [ObjectUse.checks]
    split_ifs
    · exact hbinds.executeAll_checks hread hgiven hcs
    · rfl
  rw [Plan.run, hstatements, Machine.executeAll_append, hbind] at hrun
  change m₁.executeAll _ = _ at hrun
  rw [Machine.executeAll_append, hchecks] at hrun
  change m₁.executeAll _ = _ at hrun
  have hflat : ∀ s ∈ body.flatten ++ u.outputs.map Binding.exportStatement, s.IsFlat :=
    List.forall_mem_append.mpr
      ⟨fun _ => Diagram.isFlat_of_mem_flatten body, List.forall_mem_map.mpr fun _ _ => trivial⟩
  have hnochecks : Diagram.HasNoChecks (body.flatten ++ u.outputs.map Binding.exportStatement) :=
    hbody.append (List.forall_mem_map.mpr fun _ _ => by rintro _ _ _ _ ⟨⟩)
  obtain ⟨before, s, after, heq, -, hstep⟩ := Machine.exists_of_executeAll_error hflat hrun
  exact m'.step_kind_ne_arity (hnochecks s (heq ▸ List.mem_append_right _ List.mem_cons_self)) e
    hstep

/-- In citations that fit, an object that was passed in is misused if and only if it is defined
anew, with numbers that it did not have, and cited with these numbers afterwards. -/
theorem exists_misuses_iff_redefined {R : Type} {m : Machine R} {cs : List Citation}
    (hfits : FitsFrom braidingName m.givenArity cs) :
    (∃ c' ∈ cs, m.Misuses braidingName cs c') ↔
      ∃ (before : List Citation) (c : Citation) (middle : List Citation) (c' : Citation)
        (after : List Citation), cs = before ++ c :: (middle ++ c' :: after) ∧
        c.object = c'.object ∧ c.role = .define ∧ c'.role ≠ .define ∧ c.arity = c'.arity ∧
        c'.object ≠ .name braidingName ∧ PreExists cs c'.object ∧
          m.givenArity c'.object ≠ some c.arity := by
  constructor
  · rintro ⟨c', hmem, hname, hexists, hrole, t, ht, hne⟩
    have hgiven : m.givenArity c'.object = some t.arity :=
      Machine.givenArity_eq_some_iff.mpr ⟨t, ht, rfl⟩
    obtain ⟨before, after, heq⟩ := List.append_of_mem hmem
    rcases (heq ▸ hfits).eq_or_exists hname hrole with hstart | ⟨first, c, middle, rfl, hobject,
      hdefine, hsame⟩
    · exact absurd (Option.some.inj (hgiven.symm.trans hstart)) hne
    · refine ⟨first, c, middle, c', after, by rw [heq, List.append_assoc, List.cons_append],
        hobject, hdefine, hrole, hsame, hname, hexists, ?_⟩
      rw [hgiven, hsame]
      exact fun h => hne (Option.some.inj h)
  · rintro ⟨before, c, middle, c', after, heq, -, -, hrole, hsame, hname, hexists, hne⟩
    obtain ⟨a, ha⟩ := Option.isSome_iff_exists.mp (hfits.isSome_of_preExists hname hexists)
    obtain ⟨t, ht, rfl⟩ := Machine.givenArity_eq_some_iff.mp ha
    refine ⟨c', by rw [heq]; simp, hname, hexists, hrole, t, ht, fun h => hne ?_⟩
    rw [ha, h, hsame]

/-- A run of the plan finds wrong numbers of legs if and only if an object that was passed in is
misused, given that all of them are tensors. -/
theorem arity_error_iff_misuses {R : Type} [Arithmetic R] {options : Options}
    {order : Option ContractionOrder} {p : Plan} (hd : d.IsScript)
    (hcheck : options.checkArity = true)
    (hp : Plan.forBraided options order d = .ok p ∨ Plan.forSymmetric options order d = .ok p)
    {m : Machine R} (htensor : ∀ o, o ≠ .name options.braidingName → PreExists d.citations o →
      ∃ t, m.scope.find? (.object o) = some (.tensor t)) :
    (∃ e m', p.run m = .error (e, m') ∧ e.kind = .arity) ↔
      ∃ c ∈ d.citations, m.Misuses options.braidingName d.citations c := by
  obtain ⟨d', u, body, hd', hread, hcompiles, hstatements⟩ := exists_frame hp
  obtain ⟨hreorders, -⟩ := hd.citations_nested hd'
  have hcongr := m.misuses_congr options.braidingName hreorders.preExists_iff
  have hgiven : ∀ o ∈ u.existing, ∃ t, m.scope.find? (.object o) = some (.tensor t) := by
    intro o ho
    obtain ⟨hname, hexists⟩ := (ObjectUse.mem_existing_iff hread).mp ho
    exact htensor o hname ((hreorders.preExists_iff o).mpr hexists)
  constructor
  · rintro ⟨e, m', hrun, harity⟩
    by_contra hnone
    push Not at hnone
    have hbody :=
      ((hd.nested_normal hd').mapRefs_of fun hs => hs.mapRefs_normal _).hasNoChecks_of_compilesTo
        hcompiles
    refine kind_ne_arity_of_not_misuses hread hgiven hstatements hbody (fun c hc => ?_) hrun harity
    exact (hcongr c).not.mp (hnone c (hreorders.perm.mem_iff.mpr hc))
  · rintro ⟨c, hmem, hmisuse⟩
    obtain ⟨first, x, rest, hsplit, hx, hfirst⟩ :=
      exists_first ⟨c, hreorders.perm.mem_iff.mp hmem, (hcongr c).mp hmisuse⟩
    obtain ⟨t', -, _, _, _, m', -, -, -, hrun, -⟩ :=
      stopsInChecks_of_first hread hgiven hcheck hstatements hsplit hx
      hfirst
    exact ⟨_, m', hrun, rfl⟩

/-- The checks reject a program in which every citation fits what its object stands for when it is
run if and only if an object that was passed in is defined anew, with numbers of outputs and inputs
that it did not have, and cited with these numbers afterwards. -/
theorem arity_error_iff_redefined {R : Type} [Arithmetic R] {options : Options}
    {order : Option ContractionOrder} {d normal : Diagram} {p : Plan} (hd : d.IsScript)
    (hcheck : options.checkArity = true) (hp : Plan.forBraided options order d = .ok p ∨
      Plan.forSymmetric options order d = .ok p)
    (hnormal : d.pushConj.binarize none = .ok normal) (objects : Table String (Value R))
    (hruns : (Machine.start objects).RunsFitting options.braidingName
      (Machine.start objects).givenArity normal.flatten) :
    (∃ e m', p.run (Machine.start objects) = .error (e, m') ∧ e.kind = .arity) ↔
      ∃ (before : List Citation) (c : Citation) (middle : List Citation) (c' : Citation)
        (after : List Citation), d.citations = before ++ c :: (middle ++ c' :: after) ∧
        c.object = c'.object ∧ c.role = .define ∧ c'.role ≠ .define ∧ c.arity = c'.arity ∧
        c'.object ≠ .name options.braidingName ∧ PreExists d.citations c'.object ∧
        (Machine.start objects).givenArity c'.object ≠ some c.arity := by
  have hfits : FitsFrom options.braidingName (Machine.start objects).givenArity d.citations := by
    rw [← (hd.citations_nested hnormal).2 rfl, (hd.nested_normal hnormal).citations_eq]
    have hstart := hruns.fitsFrom (hd.nested_normal hnormal).isStatement_of_mem
    rwa [Machine.arityOf_start] at hstart
  rw [← exists_misuses_iff_redefined hfits]
  refine arity_error_iff_misuses hd hcheck hp fun o hname hexists => ?_
  obtain ⟨a, ha⟩ := Option.isSome_iff_exists.mp (hfits.isSome_of_preExists hname hexists)
  obtain ⟨t, ht, -⟩ := Machine.givenArity_eq_some_iff.mp ha
  exact ⟨t, ht⟩

/-- A matrix is replaced by its square, with a new definition. -/
def squaredMatrix : Diagram :=
  .block [.assign (.ref ⟨.name "B", [.name "a"], [.name "b"], false⟩)
      (.ref ⟨.name "A", [.name "a"], [.name "b"], false⟩) true,
    .assign (.ref ⟨.name "A", [.name "a"], [.name "b"], false⟩)
      (.pair (.ref ⟨.name "B", [.name "a"], [.name "c"], false⟩)
        (.ref ⟨.name "B", [.name "c"], [.name "b"], false⟩)) true,
    .assign (.ref ⟨.name "C", [.name "a"], [.name "b"], false⟩)
      (.ref ⟨.name "A", [.name "a"], [.name "b"], false⟩) true]

/-- The matrix. -/
def squaredMatrixObjects : Table String (Value ℤ) :=
  [("A", .tensor (numberedTensor [false] [false]))]

/-- The square of a matrix has as many outputs and inputs as the matrix, so the checks do not reject
it. -/
theorem arity_error_iff_redefined_squaredMatrix :
    ∃ p, Plan.forBraided {} none squaredMatrix = .ok p ∧
    (Machine.start squaredMatrixObjects).RunsFitting "τ"
      (Machine.start squaredMatrixObjects).givenArity squaredMatrix.flatten ∧
    ¬ ∃ e m', p.run (Machine.start squaredMatrixObjects) = .error (e, m') ∧ e.kind = .arity := by
  obtain ⟨p, hp⟩ :=
    exists_of_isOk (show (Plan.forBraided {} none squaredMatrix).isOk = true by decide +kernel)
  have hscript : squaredMatrix.IsScript := by
    refine .block (List.forall_mem_cons.mpr ⟨.leaf (.assign _ _ (.ref _)), List.forall_mem_cons.mpr
      ⟨.leaf (.assign _ _ (.product (.ref _) (.ref _) nofun)), List.forall_mem_singleton.mpr
        (.leaf (.assign _ _ (.ref _)))⟩⟩)
  have hruns : (Machine.start squaredMatrixObjects).RunsFitting "τ"
      (Machine.start squaredMatrixObjects).givenArity squaredMatrix.flatten := by
    decide +kernel
  refine ⟨p, hp, hruns,
    (arity_error_iff_redefined hscript rfl (Or.inl hp) rfl squaredMatrixObjects hruns).not.mpr ?_⟩
  rintro ⟨before, c, middle, c', after, heq, hobject, -, -, -, -, hexists, hne⟩
  have hmem : c ∈ squaredMatrix.citations := by
    rw [heq]
    exact List.mem_append_right _ List.mem_cons_self
  have hall : ∀ c ∈ squaredMatrix.citations, PreExists squaredMatrix.citations c.object →
      (Machine.start squaredMatrixObjects).givenArity c.object = some c.arity := by
    decide +kernel
  rw [← hobject] at hexists hne
  exact hne (hall c hmem hexists)

/-- A matrix is kept under another name, and its name is then defined anew, as that of a vector. -/
def redefinedMatrix : Diagram :=
  .block [.assign (.ref ⟨.name "B", [.name "a"], [.name "b"], false⟩)
      (.ref ⟨.name "A", [.name "a"], [.name "b"], false⟩) true,
    .assign (.ref ⟨.name "A", [.name "a"], [], false⟩) (.ref ⟨.name "v", [.name "a"], [], false⟩)
    true, .assign (.ref ⟨.name "C", [.name "a"], [], false⟩)
    (.ref ⟨.name "A", [.name "a"], [], false⟩) true]

/-- The matrix and the vector. -/
def redefinedMatrixObjects : Table String (Value ℤ) :=
  [("A", .tensor (numberedTensor [false] [false])), ("v", .tensor (numberedTensor [false] []))]

/-- The program runs to its end, and every citation fits what its object stands for at that point;
also its plan without checks runs to its end.  But the checks compare the use of the vector with the
matrix that was passed in. -/
theorem redefined_object_is_rejected :
    (Machine.start redefinedMatrixObjects).RunsFitting "τ"
      (Machine.start redefinedMatrixObjects).givenArity redefinedMatrix.flatten ∧
    ((Machine.start redefinedMatrixObjects).execute redefinedMatrix).isOk = true ∧
    ((Plan.forSymmetric { checkArity := false } none redefinedMatrix).toOption.any fun p =>
      (p.run (Machine.start redefinedMatrixObjects)).isOk) = true ∧
    ∃ p m, Plan.forSymmetric {} none redefinedMatrix = .ok p ∧
      p.run (Machine.start redefinedMatrixObjects) = .error (.arity 1 0 1 1 (.name "A"), m) := by
  refine ⟨by decide +kernel, by decide +kernel, by decide +kernel, ?_⟩
  obtain ⟨p, hp⟩ :=
    exists_of_isOk (show (Plan.forSymmetric {} none redefinedMatrix).isOk = true by decide +kernel)
  have hfails : ((Plan.forSymmetric {} none redefinedMatrix).toOption.any fun p =>
      Machine.misuse? (p.run (Machine.start redefinedMatrixObjects)) =
          some (1, 0, 1, 1, .name "A")) = true := by
    decide +kernel
  rw [hp, Except.toOption, Option.any_some] at hfails
  obtain ⟨m, hrun⟩ := Machine.exists_of_misuse? (of_decide_eq_true hfails)
  exact ⟨p, m, hp, hrun⟩

end Plan

end TensorDiagram
