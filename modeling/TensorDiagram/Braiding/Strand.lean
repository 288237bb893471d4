import TensorDiagram.Diagram.Classify

/-!
# Strands of braidings

A braiding `τ[d, c; a, b]` is the crossing of two strands: the first enters at `a` and leaves at
`c`, the second enters at `b` and leaves at `d`. The adjoint is written `τ'[c, d; b, a]`.
-/

namespace TensorDiagram

/-- A strand: the index at which it enters and the index at which it leaves. -/
abbrev Strand := Index × Index

namespace TensorRef

/-- The two strands of a braiding, which must have two outputs and two inputs. -/
def strands (braidingName : String) (t : TensorRef) : Except Error (Strand × Strand) :=
  match t.left, t.right with
  | [l1, l2], [r1, r2] =>
    if t.isAdjoint then .ok ((r2, l1), (r1, l2)) else .ok ((r1, l2), (r2, l1))
  | _, _ => .error (.braidingLegs braidingName t)

/-- The strands of some braidings, in order. -/
def allStrands (braidingName : String) (ts : List TensorRef) : Except Error (List Strand) := do
  let strands ← ts.mapM (strands braidingName)
  return strands.flatMap fun (first, second) => [first, second]

end TensorRef

namespace Diagram

/-- The references that take part in a statement: those of the right hand side of an assignment or
of an expression, if it is a tensor expression. -/
def statementTerms? : Diagram → Option (List TensorRef)
  | assign _ rhs _ => if rhs.isTensor then some rhs.tensors else none
  | d => if d.isTensor then some d.tensors else none

end Diagram

end TensorDiagram
