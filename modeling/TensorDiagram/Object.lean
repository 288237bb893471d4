/-!
# Names and handles of objects

A diagram refers to a tensor by the name it has on the surface or, once it is bound, by a handle
that exists only inside one plan.
-/

namespace TensorDiagram

/-- What a handle stands for. -/
inductive HandleKind where
  /-- An object that is passed in or handed back. -/
  | object
  /-- An intermediate result. -/
  | temporary
  /-- A braiding tensor that the plan builds. -/
  | braiding
deriving DecidableEq, Repr

namespace HandleKind

/-- The letter that marks the kind in the text of a handle. -/
def letter : HandleKind → String
  | object => "a"
  | temporary => "t"
  | braiding => "b"

end HandleKind

/-- A handle: the handles of each kind are counted from zero. -/
structure Handle where
  /-- What the handle stands for. -/
  kind : HandleKind
  /-- Its number among the handles of this kind. -/
  index : Nat
deriving DecidableEq, Repr

namespace Handle

/-- The handle as it is written in a diagram. -/
def text (h : Handle) : String :=
  "%" ++ h.kind.letter ++ toString h.index

end Handle

/-- A reference to an object. -/
inductive ObjectRef where
  | name (text : String)
  | handle (h : Handle)
deriving DecidableEq, Repr

namespace ObjectRef

/-- The reference as it is written in a diagram. -/
def text : ObjectRef → String
  | name s => s
  | handle h => h.text

end ObjectRef

end TensorDiagram
