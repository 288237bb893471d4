import TensorDiagram.Diagram.Classify
import TensorDiagram.Space

/-!
# Sample legs

Legs for the objects of an expression that fit together: the first leg with an index shows the space
of the index, every later one the dual space. Each object may be referred to once only; braidings
get no legs.
-/

namespace TensorDiagram

/-- The legs chosen so far, and the indices that were met. -/
structure Sample where
  /-- The legs by object. -/
  objects : Table ObjectRef Legs
  /-- The indices that have a leg. -/
  seen : List Index

namespace Sample

/-- The space that the next leg with an index shows. -/
def legSpace (spaces : Table Index Space) (seen : List Index) (index : Index) :
    Except Error Space :=
  match spaces.find? index with
  | none => .error .missing
  | some v => .ok (if index ∈ seen then v.dual else v)

/-- The spaces that the legs with some indices show, one after another. -/
def legSpaces (spaces : Table Index Space) (seen : List Index) :
    List Index → Except Error (List Space)
  | [] => .ok []
  | index :: rest => do
    let v ← legSpace spaces seen index
    let others ← legSpaces spaces (index :: seen) rest
    return v :: others

/-- Choose the legs of the object of a reference. The object of a reference to an adjoint has the
legs of the adjoint. -/
def add (spaces : Table Index Space) (s : Sample) (t : TensorRef) : Except Error Sample := do
  if s.objects.has t.object then throw .precondition
  let shown ← legSpaces spaces s.seen t.indices
  let legs : Legs :=
    ⟨shown.take t.left.length, (shown.drop t.left.length).map Space.dual⟩
  if shown.any fun v => v.dim < 0 then throw .negativeDimension
  return ⟨s.objects.put t.object (if t.isAdjoint then legs.adjoint else legs),
    t.indices ++ s.seen⟩

end Sample

namespace Diagram

/-- Legs for all objects of an expression. -/
def sampleLegs (braidingName : String) (spaces : Table Index Space) (d : Diagram) :
    Except Error (Table ObjectRef Legs) := do
  let terms := d.tensors.filter fun t => !t.isBraiding braidingName
  let sample ← terms.foldlM (Sample.add spaces) ⟨[], []⟩
  return sample.objects

/-- All indices of an expression in order of first appearance. -/
def allIndices (d : Diagram) : List Index :=
  distinct (d.tensors.flatMap TensorRef.indices)

end Diagram

end TensorDiagram
