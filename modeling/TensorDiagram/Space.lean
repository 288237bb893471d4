import TensorDiagram.Text.Listing

/-!
# Spaces

The space of a leg of a dense tensor: a dimension, and whether the space is dual. Two legs can be
joined if their spaces are dual to each other.
-/

namespace TensorDiagram

/-- The space of a leg. -/
structure Space where
  /-- The dimension. -/
  dim : Int
  /-- Whether this is the dual of a space of kets. -/
  isDual : Bool
deriving DecidableEq, Repr

namespace Space

/-- The dual space, which is also what a leg has after it is bent around its tensor. -/
def dual (v : Space) : Space :=
  ⟨v.dim, !v.isDual⟩

@[simp] theorem dual_dual (v : Space) : v.dual.dual = v := by
  simp [dual]

@[simp] theorem dim_dual (v : Space) : v.dual.dim = v.dim := rfl

theorem dual_ne_self (v : Space) : v.dual ≠ v := by
  obtain ⟨d, b⟩ := v
  cases b <;> simp [dual]

/-- Whether two spaces are equal or dual to each other. -/
def sameUpToDual (v w : Space) : Bool :=
  w.dim = v.dim

/-- Whether the dimension makes sense. -/
def isValid (v : Space) : Bool :=
  0 ≤ v.dim

/-- The direction of an arrow on the leg: up for a space, down for a dual one. -/
def arrow (v : Space) : String :=
  if v.isDual then "v" else "^"

/-- The space in short form. -/
def text (v : Space) : String :=
  (if v.isDual then "V*(" else "V(") ++ toString v.dim ++ ")"

/-- The space in full form, as messages show it. -/
def longText (v : Space) : String :=
  "ElementarySpace(" ++ toString v.dim ++ ", is_dual=" ++ (if v.isDual then "True" else "False")
    ++ ")"

end Space

/-- The legs of a tensor: the spaces of its outputs and of its inputs. -/
structure Legs where
  /-- The spaces of the output legs. -/
  codomain : List Space
  /-- The spaces of the input legs. -/
  domain : List Space
deriving DecidableEq, Repr

namespace Legs

/-- The number of legs. -/
def count (l : Legs) : Nat :=
  l.codomain.length + l.domain.length

/-- The dimensions of all legs, outputs first. -/
def shape (l : Legs) : List Int :=
  (l.codomain ++ l.domain).map Space.dim

/-- The spaces that the legs show to the outside, outputs first. An input leg shows the dual of its
space, so that two legs can be joined if they show dual spaces. -/
def spaces (l : Legs) : List Space :=
  l.codomain ++ l.domain.map Space.dual

/-- The legs of the adjoint, with outputs and inputs exchanged. -/
def adjoint (l : Legs) : Legs :=
  ⟨l.domain, l.codomain⟩

/-- The legs as messages show the tensor that has them. -/
def text (l : Legs) : String :=
  "<DenseTensor " ++ Text.bracketed (l.codomain.map Space.longText) ++ " <- "
    ++ Text.bracketed (l.domain.map Space.longText) ++ ">"

@[simp] theorem length_spaces (l : Legs) : l.spaces.length = l.count := by
  simp [spaces, count]

@[simp] theorem length_shape (l : Legs) : l.shape.length = l.count := by
  simp [shape, count]

end Legs

end TensorDiagram
