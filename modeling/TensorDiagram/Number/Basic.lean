import TensorDiagram.Number.Decimal

/-!
# Numbers

Integers of any size, floating point numbers and pairs of them as complex numbers. The three kinds
are ordered, and two numbers of different kinds are brought to the larger kind before they are
combined. An integer beyond the range of floating point numbers has no counterpart of a larger kind.
-/

namespace TensorDiagram

/-- The kinds of numbers, from the smallest to the largest. -/
inductive NumberKind where
  | integer
  | real
  | complex
deriving DecidableEq, Repr

namespace NumberKind

/-- The place of a kind in their order. -/
def rank : NumberKind → Nat
  | integer => 0
  | real => 1
  | complex => 2

/-- The larger of two kinds. -/
def join (a b : NumberKind) : NumberKind :=
  if a.rank ≤ b.rank then b else a

theorem join_comm (a b : NumberKind) : a.join b = b.join a := by
  cases a <;> cases b <;> rfl

theorem join_assoc (a b c : NumberKind) : (a.join b).join c = a.join (b.join c) := by
  cases a <;> cases b <;> cases c <;> rfl

@[simp] theorem join_self (a : NumberKind) : a.join a = a := by
  cases a <;> rfl

end NumberKind

/-- A number as it is written in a diagram or held by a tensor. -/
inductive Number where
  | integer (n : Int)
  | real (x : Float)
  | complex (re im : Float)
deriving DecidableEq

namespace Number

/-- The kind of a number. -/
def kind : Number → NumberKind
  | integer _ => .integer
  | real _ => .real
  | complex _ _ => .complex

/-- The number brought to a kind. A number of a larger kind stays as it is. -/
def widen : NumberKind → Number → Number
  | .real, integer n => real (Float.ofInt n)
  | .complex, integer n => complex (Float.ofInt n) 0
  | .complex, real x => complex x 0
  | _, x => x

/-- Whether the number has a counterpart of the kind: an integer must not be too large for a
floating point number. -/
def convertible : NumberKind → Number → Bool
  | .integer, _ => true
  | _, integer n => (Float.ofInt n).isFinite
  | _, _ => true

/-- Whether the number can be combined with entries of the kind: an integer among integers has to
be a 64-bit word. -/
def storable : NumberKind → Number → Bool
  | .integer, integer n => -Int.pow 2 63 ≤ n && n < Int.pow 2 63
  | k, x => convertible k x

/-- The complex conjugate. -/
def conj : Number → Number
  | complex re im => complex re (-im)
  | x => x

/-- The sum of two numbers of one kind. -/
def addSame : Number → Number → Number
  | integer a, integer b => integer (a + b)
  | real a, real b => real (a + b)
  | complex a b, complex c d => complex (a + c) (b + d)
  | x, _ => x

/-- The product of two numbers of one kind. -/
def mulSame : Number → Number → Number
  | integer a, integer b => integer (a * b)
  | real a, real b => real (a * b)
  | complex a b, complex c d => complex (a * c - b * d) (a * d + b * c)
  | x, _ => x

/-- The sum, in the larger of the two kinds. -/
def add (x y : Number) : Number :=
  let k := x.kind.join y.kind
  addSame (widen k x) (widen k y)

/-- The product, in the larger of the two kinds. -/
def mul (x y : Number) : Number :=
  let k := x.kind.join y.kind
  mulSame (widen k x) (widen k y)

/-- The negative of a number. -/
def neg : Number → Number
  | integer n => integer (-n)
  | real x => real (-x)
  | complex re im => complex (-re) (-im)

/-- The integer that a floating point number is, if it is one. -/
def wholeValue? (x : Float) : Option Int :=
  match Decimal.floatParts x with
  | .zero _ => some 0
  | .finite negative b =>
    let size := b.significand * Nat.pow 2 b.exponent.toNat
    let divisor := Nat.pow 2 (-b.exponent).toNat
    if size % divisor = 0 then
      some (if negative then -((size / divisor : Nat) : Int) else ((size / divisor : Nat) : Int))
    else none
  | _ => none

/-- The number in the smallest kind that has its value. -/
def simplest : Number → Number
  | complex re im => if im == 0 then ofReal re else complex re im
  | real x => ofReal x
  | x => x
where
  /-- The simplest form of a floating point number. -/
  ofReal (x : Float) : Number :=
    match wholeValue? x with
    | some n => integer n
    | none => real x

/-! ## Text -/

/-- Floating point numbers are written without an exponent from `1e-4` to below `1e16`, and a whole
one keeps its point. -/
def realLayout : Decimal.Layout :=
  ⟨-4, 16, true⟩

/-- The parts of complex numbers are written like floating point numbers, without the point of whole
ones. -/
def partLayout : Decimal.Layout :=
  ⟨-4, 16, false⟩

/-- The text of an imaginary part behind a real part, which always has a sign. -/
def imaginaryText (im : Float) : String :=
  let text := Decimal.floatText partLayout im
  if text.startsWith "-" then text else "+" ++ text

/-- The text of a number. The real part of a complex number is left out if it is a zero without a
sign. -/
def text : Number → String
  | integer n => toString n
  | real x => Decimal.floatText realLayout x
  | complex re im =>
    if re.toBits = 0 then Decimal.floatText partLayout im ++ "j"
    else "(" ++ Decimal.floatText partLayout re ++ imaginaryText im ++ "j)"

end Number

end TensorDiagram
