import TensorDiagram.Tensor.Basic

/-!
# Comparison up to rounding

Two tensors are almost equal if they have the same legs and if every two entries are equal or differ
by no more than `1e-12 + 1e-12 * |b|`, where `b` is the entry of the second one, which has to be
finite.
-/

namespace TensorDiagram

namespace Number

/-- The absolute value, as a floating point number. -/
def magnitude : Number → Float
  | integer n => Float.ofInt n.natAbs
  | real x => x.abs
  | complex re im => (re * re + im * im).sqrt

/-- Whether two numbers of one kind have equal values. -/
def sameValue : Number → Number → Bool
  | integer m, integer n => m = n
  | real x, real y => x == y
  | complex a b, complex c d => a == c && b == d
  | _, _ => false

/-- Whether two numbers have equal values in the larger of their kinds. -/
def isEqual (a b : Number) : Bool :=
  let k := a.kind.join b.kind
  sameValue (widen k a) (widen k b)

/-- Whether two numbers are equal up to rounding. -/
def isClose (a b : Number) : Bool :=
  a.isEqual b ||
    (magnitude b).isFinite && magnitude (a.add b.neg) ≤ 1e-12 + 1e-12 * magnitude b

end Number

namespace Tensor

/-- Whether two tensors are equal up to rounding. -/
def isAlmostEqual (s t : Tensor Number) : Bool :=
  s.legs = t.legs &&
    (positions s.grid.shape).all fun position =>
      (s.grid.get position).isClose (t.grid.get position)

end Tensor

end TensorDiagram
