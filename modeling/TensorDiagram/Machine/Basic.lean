import TensorDiagram.Tensor.Contract

/-!
# Machines

A machine runs the statements of a plan. It knows the objects and named scalars that it was given or
that were handed back (`scope`), the tensors that handles and names are bound to (`bound`), and what
it has handed back so far (`results`).
-/

namespace TensorDiagram

/-- What a name stands for. -/
inductive Value (R : Type) where
  | tensor (t : Tensor R)
  | scalar (x : R)

namespace Value

variable {R : Type}

/-- The tensor that a value has to be. -/
def toTensor : Value R → Except Error (Tensor R)
  | tensor t => .ok t
  | scalar _ => .error .notTensor

/-- The value as an operand of a contraction: a tensor with as many labels as legs. -/
def toOperand (v : Value R) (labels : List Index) : Except Error (Tensor.Operand R) := do
  let t ← v.toTensor
  let _ ← Tensor.Operand.legs ⟨t, labels⟩
  return ⟨t, labels⟩

/-- The scalar that a value has to be. -/
def toScalar : Value R → Except Error R
  | tensor _ => .error .badOperand
  | scalar x => .ok x

end Value

/-- Under what a result is handed back. A number can be assigned to like a named scalar. -/
inductive ResultName where
  | object (o : ObjectRef)
  | number (x : Number)
deriving DecidableEq

namespace ResultName

/-- The name of an assigned scalar. -/
def ofScalar : Scalar → ResultName
  | .name text => .object (.name text)
  | .number x => .number x

/-- Whether two names are the same. Numbers are if their values are equal. -/
def isSame : ResultName → ResultName → Bool
  | .number x, .number y => x.simplest = y.simplest
  | x, y => x = y

/-- The name for the value of an expression that stands alone. -/
def standalone : ResultName :=
  .object (.name "_")

end ResultName

/-- The state of a run. -/
structure Machine (R : Type) where
  /-- The objects and scalars by name. -/
  scope : Table ResultName (Value R)
  /-- The objects that handles and names are bound to. -/
  bound : Table ObjectRef (Value R)
  /-- What is handed back, in order of first writing. -/
  results : Table ResultName (Value R)

namespace Machine

variable {R : Type}

/-- The machine that is given some objects. -/
def start (objects : Table String (Value R)) : Machine R :=
  ⟨objects.map fun (name, value) => (.object (.name name), value), [], []⟩

/-- Bind an object. -/
def bind (m : Machine R) (object : ObjectRef) (value : Value R) : Machine R :=
  { m with bound := m.bound.put object value }

/-- The name as it was first written. -/
def written (m : Machine R) (name : ResultName) : ResultName :=
  (m.results.keys.find? name.isSame).getD name

/-- Hand back a value. It is then in scope as well. -/
def yield (m : Machine R) (name : ResultName) (value : Value R) : Machine R :=
  { m with
    scope := m.scope.put (m.written name) value
    results := m.results.put (m.written name) value }

/-- Hand back the value of an expression that stands alone, which does not come into scope. -/
def yieldStandalone (m : Machine R) (value : Value R) : Machine R :=
  { m with results := m.results.put .standalone value }

/-- The value that an object or handle is bound to. -/
def boundTo (m : Machine R) (object : ObjectRef) : Except Error (Value R) :=
  match m.bound.find? object with
  | some value => .ok value
  | none => .error .missing

/-- The value of an object: what it is bound to or, for a name, what is in scope. -/
def lookup (m : Machine R) (object : ObjectRef) : Except Error (Value R) :=
  match m.bound.find? object, object with
  | some value, _ => .ok value
  | none, .handle _ => .error (.unknownObject object)
  | none, .name _ =>
    match m.scope.find? (.object object) with
    | some value => .ok value
    | none => .error (.unknownObject object)

/-- The value of a named scalar. -/
def namedScalar (m : Machine R) (name : String) : Except Error (Value R) :=
  match m.scope.find? (.object (.name name)) with
  | some value => .ok value
  | none => .error .missing

end Machine

end TensorDiagram
