import TensorDiagram.Index
import TensorDiagram.Number.Basic
import TensorDiagram.Object

/-!
# Diagrams

A tensor network is written as a tree. Its expressions are references to tensors with a label on
each leg, scalars, conjugates, signed sums and products; an index that occurs twice in a product is
summed over. Around them stand assignments, blocks, control constructs, sealed regions that are not
to be changed, and the small statements that a compilation adds.

All of them are one type, since any of them can be written anywhere; what an operation does not
understand it leaves alone. A sum has at least one term and a product at least two factors, so these
come as separate fields.
-/

namespace TensorDiagram

/-- A reference to a tensor, `A[left; right]` or, to its adjoint, `A'[left; right]`. -/
structure TensorRef where
  /-- The object. -/
  object : ObjectRef
  /-- The labels of the output legs. -/
  left : List Index
  /-- The labels of the input legs. -/
  right : List Index
  /-- Whether the adjoint of the object is meant. -/
  isAdjoint : Bool
deriving DecidableEq, Repr

namespace TensorRef

/-- All labels, outputs first. -/
def indices (t : TensorRef) : List Index :=
  t.left ++ t.right

/-- The number of legs. -/
def legCount (t : TensorRef) : Nat :=
  t.left.length + t.right.length

/-- The labels in the order in which the legs go around the tensor: outputs from left to right, then
inputs from right to left. -/
def cyclicOrder (t : TensorRef) : List Index :=
  t.left ++ t.right.reverse

/-- The conjugate of the reference: the adjoint object with the two lists exchanged. -/
def flipped (t : TensorRef) : TensorRef :=
  ⟨t.object, t.right, t.left, !t.isAdjoint⟩

@[simp] theorem flipped_flipped (t : TensorRef) : t.flipped.flipped = t := by
  simp [flipped]

/-- Whether the reference is to the object name reserved for braidings. -/
def isBraiding (braidingName : String) (t : TensorRef) : Bool :=
  t.object = .name braidingName

/-- The reference with another object. -/
def withObject (t : TensorRef) (object : ObjectRef) : TensorRef :=
  { t with object := object }

/-- The reference with every label replaced. -/
def mapIndices (f : Index → Index) (t : TensorRef) : TensorRef :=
  { t with left := t.left.map f, right := t.right.map f }

end TensorRef

/-- The space of a leg of an object, possibly of its adjoint and possibly dualized. -/
structure LegSpace where
  /-- The object. -/
  object : ObjectRef
  /-- The number of the leg, outputs first. -/
  position : Int
  /-- Whether the leg belongs to the adjoint of the object. -/
  isAdjoint : Bool
  /-- Whether the dual of the space is meant. -/
  isDual : Bool
deriving DecidableEq, Repr

/-- A scalar: a number or the name of one. -/
inductive Scalar where
  | number (x : Number)
  | name (text : String)
deriving DecidableEq

/-- The sign of a term of a sum. -/
inductive Sign where
  | plus
  | minus
deriving DecidableEq, Repr

namespace Sign

/-- The sign as a factor. -/
def toInt : Sign → Int
  | plus => 1
  | minus => -1

end Sign

/-- A diagram. -/
inductive Diagram where
  /-- A reference to a tensor. -/
  | ref (t : TensorRef)
  /-- A scalar. -/
  | scalar (s : Scalar)
  /-- The complex conjugate. -/
  | conj (arg : Diagram)
  /-- A sum of terms with signs. -/
  | sum (sign : Sign) (first : Diagram) (rest : List (Sign × Diagram))
  /-- A product of two or more factors. -/
  | product (first second : Diagram) (rest : List Diagram)
  /-- An assignment to an object or scalar, which may be its definition. -/
  | assign (lhs rhs : Diagram) (isDefinition : Bool)
  /-- A sequence of statements. -/
  | block (statements : List Diagram)
  /-- A control construct, of which only the body can be changed. -/
  | control (kind : String) (body : Diagram)
  /-- A sequence of statements that is not to be changed. -/
  | sealed (statements : List Diagram)
  /-- The space of a leg. -/
  | space (s : LegSpace)
  /-- Give an object a handle. -/
  | bind (handle : Handle) (name : ObjectRef)
  /-- Check how many outputs and inputs an object has. -/
  | checkArity (handle : Handle) (name : ObjectRef) (outputs inputs : Int)
  /-- Hand back an object under a name. -/
  | exportAs (name : ObjectRef) (handle : Handle)
  /-- Build the braiding of two spaces. -/
  | braid (handle : Handle) (first second : LegSpace)

namespace Diagram

/-- The product of two factors. -/
abbrev pair (a b : Diagram) : Diagram :=
  .product a b []

/-- Whether the diagram is an expression, as opposed to a statement. -/
def isExpression : Diagram → Bool
  | ref _ | scalar _ | conj _ | sum .. | product .. => true
  | _ => false

/-- Whether the diagram is a sum. -/
def isSum : Diagram → Bool
  | sum .. => true
  | _ => false

/-- Whether the diagram is a product. -/
def isProduct : Diagram → Bool
  | product .. => true
  | _ => false

/-- The product of a list of factors. A single factor stands for itself. -/
def ofFactors? : List Diagram → Option Diagram
  | [] => none
  | [a] => some a
  | a :: b :: rest => some (.product a b rest)

end Diagram

end TensorDiagram
