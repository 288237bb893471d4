import TensorDiagram.Diagram.Basic

/-!
# Conjugation on references

The conjugate of a tensor reference is a reference to the adjoint. Conjugation is distributed over
products and sums, numbers are conjugated at once, and only the conjugate of a named scalar stays as
it is written.

One pass does all of it: on its way down it remembers whether the number of conjugations above is
odd.
-/

namespace TensorDiagram

/-- The conjugate of a scalar. A name keeps its conjugation. -/
def Scalar.conjugate : Scalar → Diagram
  | .number x => .scalar (.number x.conj)
  | .name text => .conj (.scalar (.name text))

namespace Diagram

mutual
/-- The normal form of the diagram or, if `odd`, of its conjugate. The conjugate of a statement is
left as it stands. -/
def adjointForm (odd : Bool) : Diagram → Diagram
  | ref t => ref (if odd then t.flipped else t)
  | scalar s => if odd then s.conjugate else scalar s
  | conj a => a.adjointForm (!odd)
  | product a b rest =>
    product (a.adjointForm odd) (b.adjointForm odd) (adjointFormList odd rest)
  | sum sign a rest => sum sign (a.adjointForm odd) (adjointFormTerms odd rest)
  | assign lhs rhs isDefinition =>
    if odd then conj (assign lhs rhs isDefinition)
    else assign lhs (rhs.adjointForm false) isDefinition
  | block statements =>
    if odd then conj (block statements) else block (adjointFormList false statements)
  | control kind body =>
    if odd then conj (control kind body) else control kind (body.adjointForm false)
  | d => if odd then conj d else d
/-- The normal forms of the diagrams of a list or of their conjugates. -/
def adjointFormList (odd : Bool) : List Diagram → List Diagram
  | [] => []
  | d :: rest => d.adjointForm odd :: adjointFormList odd rest
/-- The normal forms of the terms of a sum or of their conjugates. -/
def adjointFormTerms (odd : Bool) : List (Sign × Diagram) → List (Sign × Diagram)
  | [] => []
  | (sign, d) :: rest => (sign, d.adjointForm odd) :: adjointFormTerms odd rest
end

/-- The diagram with conjugates of references written as references to adjoints. -/
def pushConj (d : Diagram) : Diagram :=
  d.adjointForm false

end Diagram

end TensorDiagram
