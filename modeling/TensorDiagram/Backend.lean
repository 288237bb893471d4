import TensorDiagram.Error
import TensorDiagram.Options

/-!
# Backends

What computes with tensors. There is one backend, for dense tensors, which has two names.
-/

namespace TensorDiagram

/-- A backend. -/
inductive Backend where
  | dense
deriving DecidableEq, Repr

/-- How a backend is asked for. -/
inductive BackendChoice where
  /-- The backend of the options. -/
  | unspecified
  /-- The backend with a name. -/
  | named (name : String)
  /-- The backend itself. -/
  | given (backend : Backend)
  /-- A number, which names no backend. -/
  | number (x : Number)
  /-- A list, which names none either. -/
  | list

namespace Backend

/-- The text of a backend. -/
def text : Backend → String
  | dense => "NumpyBackend()"

/-- The backend with a name. -/
def ofName (name : String) : Except Error Backend :=
  if name = "numpy" ∨ name = "cpu" then .ok dense else .error (.unknownBackend name)

/-- The name of the type of a number, as messages show it. -/
def typeName : NumberKind → String
  | .integer => "int"
  | .real => "float"
  | .complex => "complex"

/-- The backend that is asked for. -/
def choose (options : Options) : BackendChoice → Except Error Backend
  | .unspecified => ofName options.defaultBackend
  | .named name => ofName name
  | .given backend => .ok backend
  | .number x => .error (.backendType (typeName x.kind))
  | .list => .error (.backendType "list")

end Backend

end TensorDiagram
