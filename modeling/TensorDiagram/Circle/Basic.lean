/-!
# Lists on a circle

A list is read around a circle: its last and its first entry are neighbours, and rotating it changes
nothing. Two equal neighbours form a trace that can be taken without a crossing; `removeTraces`
takes such pairs away until none is left.
-/

namespace TensorDiagram.Circle

variable {α : Type}

/-- The list with its last `n` entries moved to the front. -/
def rotateRight (n : Nat) (xs : List α) : List α :=
  xs.drop (xs.length - n) ++ xs.take (xs.length - n)

/-- The list rotated to the right by any number of places, to the left if it is negative. -/
def roll (shift : Int) (xs : List α) : List α :=
  rotateRight (shift % (xs.length : Int)).toNat xs

variable [DecidableEq α]

/-- Whether one list is a rotation of the other. -/
def isRotation (xs ys : List α) : Bool :=
  xs.length = ys.length &&
    (xs.isEmpty || (List.range ys.length).any fun n => xs = ys.drop n ++ ys.take n)

/-- Go around the circle once and take out pairs of equal neighbours. The entries that are behind
come in reverse order; the last entry has the first one as its neighbour. -/
def sweep (behind : List α) : List α → List α
  | [] => behind.reverse
  | [x] =>
    match behind.reverse with
    | [] => [x]
    | y :: rest => if x = y then rest else y :: (rest ++ [x])
  | x :: y :: rest => if x = y then sweep behind rest else sweep (x :: behind) (y :: rest)

/-- The list without planar traces. Each round takes out two entries or is the last one, so the
rounds are at most as many as the entries. -/
def removeTraces (xs : List α) : List α :=
  Nat.repeat (sweep []) xs.length xs

end TensorDiagram.Circle
