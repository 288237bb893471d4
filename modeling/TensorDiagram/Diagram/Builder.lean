import TensorDiagram.Diagram.Classify

/-!
# Building diagrams

Diagrams are put together from loosely typed pieces: a number or the name of a scalar can stand
where an expression is expected, and a single index where a list of them is. What can not be made
into an expression is refused.
-/

namespace TensorDiagram

/-- An argument that may be a single value, a text, or a collection of values. A text is a
collection of characters too, but is always taken as one value. -/
inductive Argument (α : Type) where
  | single (value : α)
  | text (value : α)
  | collection (values : List α)

namespace Argument

variable {α : Type}

/-- Whether the argument has members. -/
def isIterable : Argument α → Bool
  | single _ => false
  | text _ | collection _ => true

/-- The values that are meant. -/
def toList : Argument α → List α
  | single value | text value => [value]
  | collection values => values

end Argument

namespace Diagram

/-- The sign that an integer stands for. -/
def sign? (n : Int) : Option Sign :=
  if n = 1 then some .plus else if n = -1 then some .minus else none

/-- The sum of terms with the given signs; without signs, all are positive. -/
def ofTerms (terms : List Diagram) (signs : Option (List Int)) : Except Error Diagram :=
  let signs := signs.getD (List.replicate terms.length 1)
  if signs.length ≠ terms.length then .error .signCount
  else
    match terms, signs.mapM sign? with
    | [], _ => .error .signCount
    | first :: rest, some (sign :: others) => .ok (.sum sign first (others.zip rest))
    | _, _ => .error (.invalidSigns signs)

/-- The product of two or more factors. -/
def ofFactors : List Diagram → Except Error Diagram
  | a :: b :: rest => .ok (.product a b rest)
  | _ => .error .tooFewFactors

/-- The sum of two expressions, the second with the given sign. Terms are added to a sum on the
left. -/
def linearCombination (a b : Diagram) (sign : Sign) : Diagram :=
  match a with
  | sum s first rest => sum s first (rest ++ [(sign, b)])
  | a => sum .plus a [(sign, b)]

end Diagram

/-- A piece that diagrams are built from, and what building yields. -/
inductive Piece where
  /-- An expression. -/
  | expression (d : Diagram)
  /-- A bare number or name. -/
  | literal (s : Scalar)
  /-- A bare list. -/
  | list (items : List Piece)
  /-- Nothing. -/
  | absent
  /-- An assignment, to whatever was given as its left hand side. -/
  | assignment (lhs : Piece) (rhs : Diagram) (isDefinition : Bool)
  /-- A block of whatever was given as its statements. -/
  | statements (items : List Piece)

namespace Piece

/-- The name that messages have for the type of the piece. -/
def typeName : Piece → String
  | expression _ => "Expression"
  | literal (.number (.integer _)) => "int"
  | literal (.number (.real _)) => "float"
  | literal (.number (.complex _ _)) => "complex"
  | literal (.name _) => "str"
  | list _ => "list"
  | absent => "NoneType"
  | assignment .. => "Assignment"
  | statements _ => "Block"

/-- The piece as an expression, if it can be one: bare numbers and names become scalars. -/
def toExpression? : Piece → Option Diagram
  | expression d => some d
  | literal s => some (.scalar s)
  | _ => none

/-- The piece as an expression. -/
def toExpression (p : Piece) : Except Error Diagram :=
  match p.toExpression? with
  | some d => .ok d
  | none => .error (.notAnExpression p.typeName)

/-- A reference to a tensor. -/
def tensor (object : ObjectRef) (left right : Argument Index) (isAdjoint : Bool) : Piece :=
  expression (.ref ⟨object, left.toList, right.toList, isAdjoint⟩)

/-- The conjugate of a piece. -/
def conj (p : Piece) : Except Error Piece := do
  return expression (.conj (← p.toExpression))

/-- The product of any positive number of pieces. A single one stands for itself. -/
def prod (ps : List Piece) : Except Error Piece := do
  match Diagram.ofFactors? (← ps.mapM toExpression) with
  | some d => return expression d
  | none => throw .noFactors

/-- An assignment or definition. A bare name on the left hand side is the name of a scalar. -/
def assign (lhs rhs : Piece) (isDefinition : Bool) : Except Error Piece := do
  let target := match lhs with
    | literal (.name text) => expression (.scalar (.name text))
    | lhs => lhs
  return assignment target (← rhs.toExpression) isDefinition

/-- Two bare numbers, combined after both are brought to the larger kind. -/
def combineNumbers (op : Number → Number → Number) (x y : Number) : Except Error Piece :=
  let k := x.kind.join y.kind
  if x.convertible k && y.convertible k then .ok (literal (.number (op x y)))
  else .error .overflow

/-- An operator between two pieces. At least one has to be an expression unless both are numbers,
and the other one has to be an expression, a number or a name. -/
def operate (onNumbers : Number → Number → Number) (onExpressions : Diagram → Diagram → Diagram) :
    Piece → Piece → Except Error Piece
  | literal (.number x), literal (.number y) => combineNumbers onNumbers x y
  | literal _, literal _ => .error .badOperand
  | p, q =>
    match p.toExpression?, q.toExpression? with
    | some a, some b => .ok (expression (onExpressions a b))
    | _, _ => .error .badOperand

/-- The product of two pieces. -/
def mul : Piece → Piece → Except Error Piece :=
  operate Number.mul Diagram.pair

/-- The sum of two pieces. -/
def add : Piece → Piece → Except Error Piece :=
  operate Number.add fun a b => Diagram.linearCombination a b .plus

/-- The difference of two pieces. -/
def sub : Piece → Piece → Except Error Piece :=
  operate (fun x y => x.add y.neg) fun a b => Diagram.linearCombination a b .minus

/-- The negative of a piece. -/
def neg : Piece → Except Error Piece
  | expression d => .ok (expression (.sum .minus d []))
  | literal (.number x) => .ok (literal (.number x.neg))
  | _ => .error .badOperand

/-- The conjugate of an expression, which can not be formed of anything else. -/
def conjugated : Piece → Except Error Piece
  | expression d => .ok (expression (.conj d))
  | _ => .error .notTensor

/-- The reference to the adjoint with the index lists exchanged. -/
def flipped : Piece → Except Error Piece
  | expression (.ref t) => .ok (expression (.ref t.flipped))
  | _ => .error .notTensor

/-- The piece as an expression, or nothing if it can not be one. -/
def asExpressionOrAbsent (p : Piece) : Piece :=
  match p.toExpression? with
  | some d => expression d
  | none => absent

mutual
/-- The piece as it is written. -/
def text (indent : Nat) : Piece → String
  | expression d => d.text indent
  | literal s => s.text
  | list items => Text.bracketed (texts indent items)
  | absent => "None"
  | assignment lhs rhs isDefinition =>
    lhs.text indent ++ (if isDefinition then " := " else " = ") ++ rhs.text indent
  | statements items => "\n".intercalate (texts indent items)
/-- The pieces as they are written. -/
def texts (indent : Nat) : List Piece → List String
  | [] => []
  | p :: rest => p.text indent :: texts indent rest
end

end Piece

end TensorDiagram
