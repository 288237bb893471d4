import TensorDiagram.Space
import TensorDiagram.Tensor.Grid

/-!
# Dense tensors

A tensor is a linear map from its domain to its codomain: a grid of entries with a coordinate for
each leg, outputs first.
-/

namespace TensorDiagram

/-- A dense tensor. -/
structure Tensor (R : Type) where
  /-- The entries. -/
  grid : Grid R
  /-- The spaces of the legs. -/
  legs : Legs
  /-- The coordinates run over the dimensions of the legs. -/
  shape_eq : grid.shape.map (fun (n : Nat) => (n : Int)) = legs.shape

namespace Tensor

variable {R : Type}

/-- The tensor with given entries and legs, whose dimensions must agree. -/
def ofGrid (grid : Grid R) (legs : Legs) : Except Error (Tensor R) :=
  if h : grid.shape.map (fun (n : Nat) => (n : Int)) = legs.shape then .ok ⟨grid, legs, h⟩
  else .error (.shapeMismatch (grid.shape.map fun (n : Nat) => (n : Int)) legs.shape)

/-- Whether all dimensions make sense. -/
def isValid (t : Tensor R) : Bool :=
  (t.legs.codomain ++ t.legs.domain).all Space.isValid

/-- The space that a leg shows to the outside. -/
def space (t : Tensor R) (position : Int) : Except Error Space :=
  let outOfBounds : Error := .legOutOfBounds position t.legs.count
  if position < 0 then .error outOfBounds
  else
    match t.legs.spaces[position.toNat]? with
    | some v => .ok v
    | none => .error outOfBounds

variable [Arithmetic R]

/-- The adjoint map: outputs and inputs exchanged, entries conjugated. -/
def adjoint (t : Tensor R) : Tensor R :=
  let outputs := t.legs.codomain.length
  let inputs := t.legs.domain.length
  { grid := .ofFn t.grid.kind (t.grid.shape.drop outputs ++ t.grid.shape.take outputs)
      fun position =>
        Arithmetic.conj (t.grid.get (position.drop inputs ++ position.take inputs))
    legs := t.legs.adjoint
    shape_eq := by
      simp only [Grid.ofFn, List.map_append, List.map_drop, List.map_take, t.shape_eq]
      simp [outputs, Legs.shape, Legs.adjoint] }

/-- The braiding that takes `v ⊗ w` to `w ⊗ v`, an identity on each strand. -/
def braiding (v w : Space) : Except Error (Tensor R) :=
  if v.dim < 0 ∨ w.dim < 0 then .error .negativeDimension
  else
    let m := v.dim.toNat
    let n := w.dim.toNat
    let entry : List Nat → R
      | [y, x, a, b] => Arithmetic.ofInt .real (if x = a ∧ y = b then 1 else 0)
      | _ => Arithmetic.ofInt .real 0
    ofGrid (.ofFn .real [n, m, m, n] entry) ⟨[w, v], [v, w]⟩

/-- The tensor multiplied by a scalar. -/
def scale (alpha : R) (t : Tensor R) : Except Error (Tensor R) :=
  if Arithmetic.storable t.grid.kind alpha then
    let kind := (Arithmetic.kind alpha).join t.grid.kind
    .ok
      { grid := t.grid.map kind fun x =>
          Arithmetic.mul (Arithmetic.widen kind alpha) (Arithmetic.widen kind x)
        legs := t.legs
        shape_eq := t.shape_eq }
  else .error .overflow

/-- The sum of two tensors with the same legs. -/
def add (s t : Tensor R) : Except Error (Tensor R) :=
  if s.legs = t.legs then
    let kind := s.grid.kind.join t.grid.kind
    .ok
      { grid := .ofFn kind s.grid.shape fun position =>
          Arithmetic.add (Arithmetic.widen kind (s.grid.get position))
            (Arithmetic.widen kind (t.grid.get position))
        legs := s.legs
        shape_eq := s.shape_eq }
  else .error (.mismatchingLegs s.legs t.legs)

/-- The scalar that a tensor without legs is. -/
def toScalar (t : Tensor R) : Except Error R :=
  if t.legs.count = 0 then .ok (t.grid.get []) else .error (.notWithoutLegs t.legs)

end Tensor

end TensorDiagram
