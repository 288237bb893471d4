import TensorDiagram.Error
import TensorDiagram.Number.Basic

/-!
# Arithmetic of entries

What a dense tensor needs to know about its entries. Besides addition, multiplication and
conjugation there are the kinds of numbers: entries of different kinds are brought to the larger
kind before they are combined, and a number can be too large for a kind.

The numbers of diagrams have this arithmetic. A tensor can have other entries, for instance exact
ones, whose kinds do not matter.
-/

namespace TensorDiagram

/-- The operations on the entries of tensors. -/
class Arithmetic (R : Type) where
  /-- The value of a number that is written in a diagram. -/
  literal : Number → R
  /-- The kind of a value. -/
  kind : R → NumberKind
  /-- The value brought to a kind. -/
  widen : NumberKind → R → R
  /-- Whether the value has a counterpart of a kind. -/
  convertible : NumberKind → R → Bool
  /-- Whether the value can be combined with entries of a kind. -/
  storable : NumberKind → R → Bool
  /-- The sum of two values. -/
  add : R → R → R
  /-- The product of two values. -/
  mul : R → R → R
  /-- The complex conjugate. -/
  conj : R → R

instance : Arithmetic Number where
  literal x := x
  kind := Number.kind
  widen := Number.widen
  convertible := Number.convertible
  storable := Number.storable
  add := Number.add
  mul := Number.mul
  conj := Number.conj

namespace Arithmetic

variable {R : Type} [Arithmetic R]

/-- An integer as a value of a kind. -/
def ofInt (k : NumberKind) (n : Int) : R :=
  widen k (literal (.integer n))

/-- The sum of some values of a kind. -/
def sum (k : NumberKind) (xs : List R) : R :=
  xs.foldl add (ofInt k 0)

/-- The product of some values of a kind. -/
def product (k : NumberKind) : List R → R
  | [] => ofInt k 1
  | x :: rest => rest.foldl mul x

/-- Check that two scalars can be brought to the larger of their kinds. -/
def checkKinds (x y : R) : Except Error Unit :=
  if convertible (kind y) x && convertible (kind x) y then .ok () else .error .overflow

/-- The sum of two scalars. -/
def addScalars (x y : R) : Except Error R := do
  checkKinds x y
  return add x y

/-- The product of two scalars. -/
def mulScalars (x y : R) : Except Error R := do
  checkKinds x y
  return mul x y

end Arithmetic

end TensorDiagram
