import TensorDiagram.Circle.Basic
import TensorDiagram.Circle.Bipartition

/-!
# Planar contractions of a pair

Two tensors have their indices on circles, and the indices they share are contracted. This can be
drawn in the plane if the shared indices form an arc of each circle and if the two arcs run in
opposite directions. If all indices of a tensor are shared, its arc can begin anywhere. Two tensors
that share no index can be placed next to each other in many ways.
-/

namespace TensorDiagram.Circle

/-- A planar contraction of two tensors. The open indices begin after the contracted ones on either
circle, so that the result has the open indices of the first, then of the second. -/
structure PairContraction (α : Type) where
  /-- The open indices of the first tensor. -/
  openFirst : List α
  /-- The open indices of the second tensor. -/
  openSecond : List α
  /-- The contracted indices in the order of the first tensor. -/
  joinedFirst : List α
  /-- The contracted indices in the order of the second tensor. -/
  joinedSecond : List α

variable {α : Type} [DecidableEq α]

/-- The order of the open indices of the result. -/
def PairContraction.openOrder (c : PairContraction α) : List α :=
  c.openFirst ++ c.openSecond

/-- The two tensors with nothing contracted, in all positions to each other. -/
def disjointContractions (first second : List α) : List (PairContraction α) :=
  (List.range first.length).flatMap fun n =>
    (List.range second.length).map fun m =>
      ⟨rotateRight n first, rotateRight m second, [], []⟩

/-- Split the indices of one tensor at the shared ones: contracted and open indices, if the shared
ones form an arc. -/
def splitShared (shared indices : List α) : Except Error (Option (List α × List α)) :=
  match bipartition (shared.map fun i => indices.idxOf i) indices.length with
  | .ok (joined, free) =>
    .ok (some (joined.filterMap (indices[·]?), free.filterMap (indices[·]?)))
  | .error .notBipartition => .ok none
  | .error e => .error e

/-- The contraction of two arcs, if they run in opposite directions. -/
def joinArcs? (joined1 open1 joined2 open2 : List α) : Option (PairContraction α) :=
  if !open1.isEmpty && !open2.isEmpty then
    if joined2 = joined1.reverse then some ⟨open1, open2, joined1, joined2⟩ else none
  else if isRotation joined2 joined1.reverse then
    if open1.isEmpty then some ⟨open1, open2, joined2.reverse, joined2⟩
    else some ⟨open1, open2, joined1, joined1.reverse⟩
  else none

/-- All planar contractions of two tensors with the given indices, which are to be distinct on each
of them. -/
def complements (first second : List α) : Except Error (List (PairContraction α)) := do
  if first.isEmpty || second.isEmpty then return [⟨first, second, [], []⟩]
  let shared := first.filter (· ∈ second)
  if shared.isEmpty then return disjointContractions first second
  match ← splitShared shared first with
  | none => return []
  | some (joined1, open1) =>
    match ← splitShared shared second with
    | none => return []
    | some (joined2, open2) => return (joinArcs? joined1 open1 joined2 open2).toList

end TensorDiagram.Circle
