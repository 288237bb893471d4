import TensorDiagram.Machine.Evaluate
import TensorDiagram.Plan.Basic

/-!
# Running statements

Every statement but a block is done at once: it changes the machine or fails and leaves it as it
was. A block that fails has done the statements before the one at fault, so a run ends with the
machine at that point. Control constructs are compiled but can not be run.
-/

namespace TensorDiagram.Machine

variable {R : Type} [Arithmetic R]

/-- Check the numbers of outputs and inputs of what a handle is bound to. -/
def checkArity (m : Machine R) (handle : Handle) (name : ObjectRef) (outputs inputs : Int) :
    Except Error Unit := do
  let value ← m.boundTo (.handle handle)
  let t ← value.toTensor
  let actualOut := t.legs.codomain.length
  let actualIn := t.legs.domain.length
  if actualOut = outputs ∧ actualIn = inputs then return ()
  else throw (.arity outputs inputs actualOut actualIn name)

/-- The space that a reference to a leg stands for. -/
def spaceOf (m : Machine R) (s : LegSpace) : Except Error Space := do
  let value ← m.referent s.object s.isAdjoint
  let v ← (← value.toTensor).space s.position
  return if s.isDual then v.dual else v

/-- The contraction of operands in the order of a left hand side. A product has no lists of indices,
and neither has any other left hand side that is not a reference. -/
def arrange (lhs : Diagram) (operands : Except Error (List (Tensor.Operand R))) :
    Except Error (Tensor R) := do
  match lhs with
  | .ref t => Tensor.contractAll (← operands) t.left t.right
  | .product .. =>
    let _ ← lhs.factorPair
    let _ ← Tensor.operandLegs (← operands)
    throw .badOperand
  | _ => throw .notTensor

/-- The value of the right hand side of an assignment to a tensor, in the order of the left hand
side. A contraction of two general tensors is done directly in this order. -/
def arrangedValue (m : Machine R) (lhs rhs : Diagram) (isDefinition : Bool) :
    Except Error (Tensor R) := do
  let general (lhs a b : Diagram) : Except Error (Tensor R) := do
    match ← m.evaluate a, ← m.evaluate b with
    | .labelled x labels, .labelled y others =>
      arrange lhs do return [← x.toOperand labels, ← y.toOperand others]
    | _, _ => throw .notTensor
  let other : Except Error (Tensor R) := do
    match ← m.evaluate rhs with
    | .labelled x labels => arrange lhs do return [← x.toOperand labels]
    | .plain _ => throw (.scalarToTensor (.assign lhs rhs isDefinition))
  match rhs with
  | .product a b [] => if a.isGeneral && b.isGeneral then general lhs a b else other
  | _ => other

/-- Assign the value of an expression to a scalar. -/
def assignScalar (m : Machine R) (s : Scalar) (rhs : Diagram) : Except Error (Machine R) := do
  let value ← match ← m.evaluate rhs with
    | .labelled v _ => do pure (Value.scalar (← (← v.toTensor).toScalar))
    | .plain v => pure v
  return m.yield (.ofScalar s) value

/-- Assign the value of an expression. -/
def assign (m : Machine R) (lhs rhs : Diagram) (isDefinition : Bool) :
    Except Error (Machine R) := do
  match lhs with
  | .scalar s => m.assignScalar s rhs
  | .ref t =>
    let value ← m.arrangedValue lhs rhs isDefinition
    return m.bind t.object (.tensor (if t.isAdjoint then value.adjoint else value))
  | _ =>
    let _ ← m.arrangedValue lhs rhs isDefinition
    throw .notTensor

/-- Do one statement that is not a block. -/
def step (m : Machine R) (d : Diagram) : Except Error (Machine R) := do
  match d with
  | .bind handle name =>
    match m.scope.find? (.object name) with
    | some value => return m.bind (.handle handle) value
    | none => throw (.missingObject name)
  | .checkArity handle name outputs inputs =>
    m.checkArity handle name outputs inputs
    return m
  | .braid handle first second =>
    let v ← m.spaceOf first
    let w ← m.spaceOf second
    return m.bind (.handle handle) (.tensor (← Tensor.braiding v w))
  | .exportAs name handle =>
    let value ← m.boundTo (.handle handle)
    return m.yield (.object name) value
  | .assign lhs rhs isDefinition => m.assign lhs rhs isDefinition
  | .control kind _ => throw (.controlBlock kind)
  | _ =>
    if d.isExpression then
      return m.yieldStandalone (← m.evaluate d).value
    else throw (.unknownStatement d)

/-- How a run ends: with the machine after all statements, or with an error and the machine at that
point. -/
abbrev Outcome (R : Type) := Except (Error × Machine R) (Machine R)

mutual
/-- Run a statement. -/
def execute (m : Machine R) : Diagram → Outcome R
  | .block statements => m.executeAll statements
  | .sealed statements => m.executeAll statements
  | d =>
    match m.step d with
    | .ok m => .ok m
    | .error e => .error (e, m)
/-- Run statements one after another. -/
def executeAll (m : Machine R) : List Diagram → Outcome R
  | [] => .ok m
  | d :: rest =>
    match m.execute d with
    | .ok m => m.executeAll rest
    | .error e => .error e
end

/-- What a statement has left behind, if it is one that leaves something. -/
def produced (m : Machine R) : Diagram → Option (Value R)
  | .bind handle _ | .braid handle _ _ => m.bound.find? (.handle handle)
  | .exportAs name _ => m.results.find? (.object name)
  | .assign (.scalar s) _ _ => m.results.find? (m.written (.ofScalar s))
  | .assign (.ref t) _ _ => m.bound.find? t.object
  | d => if d.isExpression then m.results.find? .standalone else none

end TensorDiagram.Machine

namespace TensorDiagram.Plan

variable {R : Type} [Arithmetic R]

/-- Run all statements of a plan. -/
def run (p : Plan) (m : Machine R) : Machine.Outcome R :=
  m.executeAll p.statements

/-- Whether a statement takes part in the checks of numbers of legs. -/
def isArityStatement : Diagram → Bool
  | .bind .. | .checkArity .. => true
  | _ => false

/-- Run only the statements that bind objects and check their numbers of legs. -/
def runArityChecks (p : Plan) (m : Machine R) : Machine.Outcome R :=
  m.executeAll (p.statements.filter isArityStatement)

end TensorDiagram.Plan
