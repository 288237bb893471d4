import TensorDiagram.Proofs.ArityChecks

/-!
# Order of evaluation

The references of a statement tree are evaluated in an order other than that in which they are
written: the right hand side of an assignment comes before the left hand side (`evaluated`).  What
happens first to an object in this order can be said without listing anything (`FirstReference`),
and so can which objects stand on a left hand side (`AssignsTo`).

Binding reads a list of references with the parts that they play, and replaces references by another
way through the tree.  In a tree as it is written, over names (`IsSurface`), the two ways meet the
same references (`IsSurface.perm_evaluated`), and the list tells what happens first
(`IsSurface.firstReference_iff`) and what is assigned to (`IsSurface.assignsTo_iff`).
-/

namespace TensorDiagram

/-- A name, as opposed to a handle. -/
def ObjectRef.IsName : ObjectRef → Prop
  | name _ => True
  | handle _ => False

namespace Diagram

variable {d : Diagram} {o : ObjectRef} {role : Role}

/-! ## Trees over names -/

theorem IsFormula.isExpression_eq (hd : d.IsFormula) : d.isExpression = true := by
  cases hd <;> rfl

/-- A formula over names. -/
structure IsNamedFormula (d : Diagram) : Prop where
  /-- It is a formula. -/
  isFormula : d.IsFormula
  /-- There are no handles in it. -/
  isName : ∀ t ∈ d.allRefs, t.object.IsName

/-- A statement tree over names: expressions and assignments to references and scalars, in blocks,
sealed regions and the bodies of control constructs. -/
inductive IsSurface : Diagram → Prop
  | expression {d : Diagram} (hd : d.IsNamedFormula) : IsSurface d
  | assign {t : TensorRef} {rhs : Diagram} {isDefinition : Bool} (ht : t.object.IsName)
      (hrhs : rhs.IsNamedFormula) :
    IsSurface (.assign (.ref t) rhs isDefinition)
  | assignScalar {s : Scalar} {rhs : Diagram} {isDefinition : Bool} (hrhs : rhs.IsNamedFormula) :
    IsSurface (.assign (.scalar s) rhs isDefinition)
  | block {statements : List Diagram} (h : ∀ s ∈ statements, s.IsSurface) :
      IsSurface (.block statements)
  | control {kind : String} {body : Diagram} (h : body.IsSurface) : IsSurface (.control kind body)
  | sealed {statements : List Diagram} (h : ∀ s ∈ statements, s.IsSurface) :
      IsSurface (.sealed statements)

/-! ## What is evaluated -/

mutual
/-- The references outside sealed regions in order of evaluation. -/
def evaluated : Diagram → List TensorRef
  | assign lhs rhs _ => rhs.allRefs ++ lhs.allRefs
  | block statements => evaluatedList statements
  | control _ body => body.evaluated
  | d => d.allRefs
/-- The references of a list of statements in order of evaluation. -/
def evaluatedList : List Diagram → List TensorRef
  | [] => []
  | d :: rest => d.evaluated ++ evaluatedList rest
end

theorem evaluatedList_eq (ds : List Diagram) : evaluatedList ds = ds.flatMap evaluated := by
  induction ds with
  | nil => rfl
  | cons d ds ih => rw [evaluatedList, ih, List.flatMap_cons]

theorem evaluated_of_isExpression (h : d.isExpression = true) : d.evaluated = d.allRefs := by
  cases d with
  | assign => cases h
  | block => cases h
  | control => cases h
  | _ => rfl

/-- The references that binding reads are those that are evaluated. -/
theorem IsSurface.map_term_references (hd : d.IsSurface) :
    d.references.map Reference.term = d.evaluated := by
  have huses : ∀ {d : Diagram} (statement : Diagram), d.IsFormula →
      (d.uses statement).map Reference.term = d.allRefs := by
    intro d statement hd
    rw [uses, List.map_map, hd.allRefs_eq]
    exact List.map_id _
  induction hd with
  | expression hd =>
    have hexpression := hd.isFormula.isExpression_eq
    rw [references_of_isExpression hexpression, evaluated_of_isExpression hexpression]
    exact huses _ hd.isFormula
  | assign _ hrhs =>
    rw [references_assign, List.map_append, huses _ hrhs.isFormula]
    rfl
  | assignScalar hrhs =>
    rw [references_assign, List.map_append, huses _ hrhs.isFormula]
    rfl
  | block _ ih =>
    rw [references, listReferences_eq, evaluated, evaluatedList_eq, List.map_flatMap]
    exact List.flatMap_congr ih
  | control _ ih => exact ih
  | sealed => rfl

/-- What is evaluated is what can be replaced. -/
theorem IsSurface.perm_evaluated (hd : d.IsSurface) : d.evaluated.Perm d.allRefs := by
  induction hd with
  | expression hd => rw [evaluated_of_isExpression hd.isFormula.isExpression_eq]
  | assign => exact List.perm_append_comm
  | assignScalar => exact List.perm_append_comm
  | block _ ih =>
    rw [evaluated, evaluatedList_eq, allRefs, allRefsList_eq]
    exact List.Perm.flatMap_left _ ih
  | control _ ih => exact ih
  | sealed => rfl

/-! ## What happens first -/

/-- There is a reference to the object, outside sealed regions. -/
def RefersTo (d : Diagram) (o : ObjectRef) : Prop :=
  ∃ t ∈ d.allRefs, t.object = o

/-- The part that the first reference to an object plays, in order of evaluation. -/
inductive FirstReference : Diagram → ObjectRef → Role → Prop
  /-- In an expression objects are used. -/
  | expression {d : Diagram} {o : ObjectRef} (hd : d.isExpression = true) (h : d.RefersTo o) :
      FirstReference d o .use
  /-- The right hand side of an assignment comes first. -/
  | rhs {lhs rhs : Diagram} {isDefinition : Bool} {o : ObjectRef} (h : rhs.RefersTo o) :
    FirstReference (.assign lhs rhs isDefinition) o .use
  /-- Then comes the left hand side. -/
  | lhs {t : TensorRef} {rhs : Diagram} {isDefinition : Bool} (h : ¬ rhs.RefersTo t.object) :
    FirstReference (.assign (.ref t) rhs isDefinition) t.object
    (if isDefinition then .define else .assign)
  /-- The first statement of a block comes first. -/
  | head {s : Diagram} {rest : List Diagram} {o : ObjectRef} {role : Role}
      (h : FirstReference s o role) :
    FirstReference (.block (s :: rest)) o role
  /-- Then come the others. -/
  | tail {s : Diagram} {rest : List Diagram} {o : ObjectRef} {role : Role} (hs : ¬ s.RefersTo o)
      (h : FirstReference (.block rest) o role) : FirstReference (.block (s :: rest)) o role
  /-- A control construct is evaluated once, in its place. -/
  | control {kind : String} {body : Diagram} {o : ObjectRef} {role : Role}
      (h : FirstReference body o role) :
    FirstReference (.control kind body) o role

end Diagram

namespace Citation

variable {o : ObjectRef} {role : Role}

/-- The part that the first citation of an object plays. -/
def firstRole (cs : List Citation) (o : ObjectRef) : Option Role :=
  (cs.find? (·.object = o)).map Citation.role

theorem preExists_iff_firstRole {cs : List Citation} :
    PreExists cs o ↔ ∃ role, firstRole cs o = some role ∧ role ≠ .define := by
  simp [PreExists, firstRole]

theorem firstRole_append (cs cs' : List Citation) :
    firstRole (cs ++ cs') o = (firstRole cs o).or (firstRole cs' o) := by
  rw [firstRole, List.find?_append, Option.map_or]
  rfl

theorem firstRole_eq_none_iff {cs : List Citation} : firstRole cs o = none ↔ o ∉ cs.map object := by
  simp [firstRole]

/-- Objects that are only used are used first. -/
theorem firstRole_asUse (ts : List TensorRef) :
    firstRole (ts.map TensorRef.asUse) o = some role ↔ role = .use ∧ ∃ t ∈ ts, t.object = o := by
  constructor
  · intro h
    obtain ⟨c, hc, rfl⟩ := Option.map_eq_some_iff.mp h
    obtain ⟨t, ht, rfl⟩ := List.mem_map.mp (List.mem_of_find?_eq_some hc)
    have hobject := List.find?_some hc
    exact ⟨rfl, t, ht, of_decide_eq_true hobject⟩
  · rintro ⟨rfl, t, ht, rfl⟩
    rcases hfirst : firstRole (ts.map TensorRef.asUse) t.object with _ | role
    · refine absurd (List.mem_map.mpr ⟨t.asUse, List.mem_map_of_mem ht, rfl⟩)
        (firstRole_eq_none_iff.mp hfirst)
    · obtain ⟨c, hc, rfl⟩ := Option.map_eq_some_iff.mp hfirst
      obtain ⟨t', -, rfl⟩ := List.mem_map.mp (List.mem_of_find?_eq_some hc)
      rfl

end Citation

namespace Diagram

open Citation

variable {d : Diagram} {o : ObjectRef} {role : Role}

/-- What is cited is what is referred to. -/
theorem IsSurface.firstRole_eq_none_iff (hd : d.IsSurface) : firstRole d.citations o = none ↔
    ¬ d.RefersTo o := by
  have hobjects : d.citations.map Citation.object = d.evaluated.map TensorRef.object := by
    rw [← hd.map_term_references, citations, List.map_map, List.map_map]
    rfl
  rw [Citation.firstRole_eq_none_iff, hobjects, (hd.perm_evaluated.map TensorRef.object).mem_iff,
    List.mem_map]
  rfl

theorem firstReference_assign_iff {t : TensorRef} {rhs : Diagram} {isDefinition : Bool} :
    (assign (ref t) rhs isDefinition).FirstReference o role ↔
      (role = .use ∧ rhs.RefersTo o) ∨
        (¬ rhs.RefersTo o ∧ t.object = o ∧ assignRole isDefinition = role) := by
  constructor
  · intro h
    cases h with
    | expression hd => cases hd
    | rhs h => exact Or.inl ⟨rfl, h⟩
    | lhs h => exact Or.inr ⟨h, rfl, rfl⟩
  · rintro (⟨rfl, h⟩ | ⟨h, rfl, rfl⟩)
    · exact .rhs h
    · exact .lhs h

theorem firstReference_block_cons_iff {s : Diagram} {rest : List Diagram} :
    (block (s :: rest)).FirstReference o role ↔
      s.FirstReference o role ∨ (¬ s.RefersTo o ∧ (block rest).FirstReference o role) := by
  constructor
  · intro h
    cases h with
    | expression hd => cases hd
    | head h => exact Or.inl h
    | tail hs h => exact Or.inr ⟨hs, h⟩
  · rintro (h | ⟨hs, h⟩)
    · exact .head h
    · exact .tail hs h

/-- The citations tell what happens first to an object. -/
theorem IsSurface.firstReference_iff (hd : d.IsSurface) :
    d.FirstReference o role ↔ firstRole d.citations o = some role := by
  induction hd with
  | @expression d hd =>
    have hexpression := hd.isFormula.isExpression_eq
    rw [citations_of_isExpression hexpression, firstRole_asUse, ← hd.isFormula.allRefs_eq]
    constructor
    · intro h
      cases h with
      | expression _ h => exact ⟨rfl, h⟩
      | _ => cases hexpression
    · rintro ⟨rfl, h⟩
      exact .expression hexpression h
  | @assign t rhs isDefinition _ hrhs =>
    rw [firstReference_assign_iff, citations_assign, firstRole_append, Option.or_eq_some_iff,
      firstRole_asUse, Citation.firstRole_eq_none_iff, List.map_map,
      ← hrhs.isFormula.allRefs_eq, List.mem_map]
    refine or_congr Iff.rfl (and_congr Iff.rfl ?_)
    rw [lhsCitations, firstRole, List.find?_singleton]
    by_cases h : t.object = o <;> simp [h]
  | @assignScalar s rhs isDefinition hrhs =>
    have hlhs : (scalar s).lhsCitations isDefinition = [] := rfl
    rw [citations_assign, hlhs, List.append_nil, firstRole_asUse, ← hrhs.isFormula.allRefs_eq]
    constructor
    · intro h
      cases h with
      | expression hd => cases hd
      | rhs h => exact ⟨rfl, h⟩
    · rintro ⟨rfl, h⟩
      exact .rhs h
  | @block statements h ih =>
    rw [citations_block]
    -- along the statements of the block
    induction statements with
    | nil =>
      refine iff_of_false (fun hfirst => ?_) (by rintro ⟨⟩)
      cases hfirst with
      | expression hd => cases hd
    | cons s rest ihrest =>
      obtain ⟨hs, hrest⟩ := List.forall_mem_cons.mp h
      obtain ⟨ihs, ihstatements⟩ := List.forall_mem_cons.mp ih
      rw [firstReference_block_cons_iff, ihs, ihrest hrest ihstatements, List.flatMap_cons,
        firstRole_append, Option.or_eq_some_iff, hs.firstRole_eq_none_iff]
  | control _ ih =>
    refine Iff.trans ⟨fun h => ?_, .control⟩ ih
    cases h with
    | expression hd => cases hd
    | control h => exact h
  | sealed =>
    refine iff_of_false (fun h => ?_) (by rintro ⟨⟩)
    cases h with
    | expression hd => cases hd

/-! ## What is assigned to -/

/-- The object stands on a left hand side, outside sealed regions. -/
inductive AssignsTo : Diagram → ObjectRef → Prop
  | assign (t : TensorRef) (rhs : Diagram) (isDefinition : Bool) :
    AssignsTo (.assign (.ref t) rhs isDefinition) t.object
  | block {statements : List Diagram} {s : Diagram} {o : ObjectRef} (hs : s ∈ statements)
      (h : AssignsTo s o) :
    AssignsTo (.block statements) o
  | control {kind : String} {body : Diagram} {o : ObjectRef} (h : AssignsTo body o) :
      AssignsTo (.control kind body) o

/-- The references that binding reads tell what is assigned to. -/
theorem IsSurface.assignsTo_iff (hd : d.IsSurface) :
    d.AssignsTo o ↔ ∃ r ∈ d.references, r.role ≠ .use ∧ r.term.object = o := by
  have huses : ∀ {d statement : Diagram}, ¬ ∃ r ∈ d.uses statement, r.role ≠ .use ∧
      r.term.object = o := by
    rintro d statement ⟨r, hr, hrole, -⟩
    obtain ⟨t, -, rfl⟩ := List.mem_map.mp hr
    exact hrole rfl
  induction hd with
  | expression hd =>
    have hexpression := hd.isFormula.isExpression_eq
    rw [references_of_isExpression hexpression]
    refine iff_of_false (fun h => ?_) huses
    cases h <;> cases hexpression
  | @assign t rhs isDefinition =>
    rw [references_assign]
    constructor
    · intro h
      cases h
      refine ⟨_, List.mem_append_right _ (List.mem_singleton_self _), ?_, rfl⟩
      cases isDefinition <;> simp [assignRole]
    · rintro ⟨r, hr, hrole, rfl⟩
      rcases List.mem_append.mp hr with hr | hr
      · exact absurd ⟨r, hr, hrole, rfl⟩ huses
      · obtain rfl := List.mem_singleton.mp hr
        exact .assign _ _ _
  | assignScalar =>
    rw [references_assign, List.append_nil]
    refine iff_of_false (fun h => ?_) huses
    cases h
  | @block statements _ ih =>
    rw [references, listReferences_eq]
    constructor
    · intro h
      cases h with
      | block hs h =>
        obtain ⟨r, hr, hrole⟩ := (ih _ hs).mp h
        exact ⟨r, List.mem_flatMap.mpr ⟨_, hs, hr⟩, hrole⟩
    · rintro ⟨r, hr, hrole⟩
      obtain ⟨s, hs, hr⟩ := List.mem_flatMap.mp hr
      exact .block hs ((ih s hs).mpr ⟨r, hr, hrole⟩)
  | control _ ih =>
    refine Iff.trans ⟨fun h => ?_, .control⟩ ih
    cases h with
    | control h => exact h
  | sealed =>
    refine iff_of_false (fun h => ?_) ?_
    · cases h
    · rintro ⟨r, hr, -⟩
      exact List.not_mem_nil hr

end Diagram

end TensorDiagram
