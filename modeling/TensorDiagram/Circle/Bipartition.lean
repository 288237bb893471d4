import TensorDiagram.Error

/-!
# Arcs of a circle

The numbers below `n` stand around a circle. A set of them is an arc if it is one contiguous piece.
An arc and its complement, both listed in the order of the circle, together go around it once.
-/

namespace TensorDiagram.Circle

/-- The arc of `count` numbers that begins at `start`, on the circle of the numbers below `n`. -/
def arc (n start count : Nat) : List Nat :=
  (List.range count).map fun k => (start + k) % n

/-- The legs that come after a number that is not a leg. -/
def arcStarts (n : Nat) (legs : List Nat) : List Nat :=
  (List.range n).filter fun i => i ∈ legs ∧ (i + n - 1) % n ∉ legs

/-- The legs and the other numbers, both in the order of the circle and the others beginning after
the legs. The legs are to be distinct numbers below `n`, in any order, and must form an arc. -/
def bipartition (legs : List Nat) (n : Nat) : Except Error (List Nat × List Nat) :=
  if legs.Nodup ∧ ∀ l ∈ legs, l < n then
    if legs.isEmpty then .ok ([], List.range n)
    else if legs.length = n then .ok (List.range n, [])
    else
      match arcStarts n legs with
      | [start] => .ok (arc n start legs.length, arc n (start + legs.length) (n - legs.length))
      | _ => .error .notBipartition
  else .error .precondition

/-- The bipartition for legs that are given as integers. -/
def integerBipartition (legs : List Int) (n : Int) : Except Error (List Nat × List Nat) :=
  if ∀ l ∈ legs, 0 ≤ l then bipartition (legs.map Int.toNat) n.toNat else .error .precondition

end TensorDiagram.Circle
