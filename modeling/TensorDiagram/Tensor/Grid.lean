import TensorDiagram.Diagram.Classify
import TensorDiagram.Table
import TensorDiagram.Tensor.Arithmetic

/-!
# Grids of entries

A grid holds an entry for every position below its shape, in the order in which the last coordinate
runs fastest. It is looked at through `get`, and made from a function on positions by `ofFn`.

The sum of products over labelled grids is `contractGrids`: the coordinates of all grids are named
by labels, equal labels have equal coordinates, and the labels that are not wanted in the result are
summed over.
-/

namespace TensorDiagram

/-- The number of positions below a shape. -/
def gridSize (shape : List Nat) : Nat :=
  shape.foldr (· * ·) 1

/-- The positions below a shape, the last coordinate running fastest. -/
def positions : List Nat → List (List Nat)
  | [] => [[]]
  | d :: shape => (List.range d).flatMap fun i => (positions shape).map (i :: ·)

/-- The place of a position among the positions below a shape. -/
def offset : List Nat → List Nat → Nat
  | _ :: shape, i :: position => i * gridSize shape + offset shape position
  | _, _ => 0

@[simp] theorem length_positions (shape : List Nat) :
    (positions shape).length = gridSize shape := by
  induction shape with
  | nil => rfl
  | cons d shape ih =>
    have hconst : ∀ n : Nat, ((List.range n).flatMap fun i =>
        (positions shape).map (i :: ·)).length = n * gridSize shape := by
      intro n
      induction n with
      | zero => simp
      | succ n hn =>
        rw [List.range_succ, List.flatMap_append, List.length_append, hn]
        simp [ih, Nat.succ_mul]
    simpa [positions, gridSize] using hconst d

/-- A grid of entries. -/
structure Grid (R : Type) where
  /-- The kind of all entries. -/
  kind : NumberKind
  /-- The number of values of each coordinate. -/
  shape : List Nat
  /-- The entries in order of their positions. -/
  entries : Array R
  /-- There is an entry for each position. -/
  size_eq : entries.size = gridSize shape

namespace Grid

variable {R : Type}

/-- The grid with the given entries, if their number is right. -/
def ofList? (kind : NumberKind) (shape : List Nat) (entries : List R) : Option (Grid R) :=
  if h : entries.toArray.size = gridSize shape then some ⟨kind, shape, entries.toArray, h⟩
  else none

/-- The grid with the entries that a function gives. -/
def ofFn (kind : NumberKind) (shape : List Nat) (f : List Nat → R) : Grid R :=
  ⟨kind, shape, ((positions shape).map f).toArray, by simp⟩

/-- The grid with every entry replaced. -/
def map (kind : NumberKind) (f : R → R) (g : Grid R) : Grid R :=
  ⟨kind, g.shape, g.entries.map f, by simp [g.size_eq]⟩

variable [Arithmetic R]

/-- The entry at a position, or zero outside the grid. -/
def get (g : Grid R) (position : List Nat) : R :=
  g.entries.getD (offset g.shape position) (Arithmetic.ofInt g.kind 0)

/-- A grid with a label for each coordinate. -/
structure Labelled (R : Type) where
  /-- The grid. -/
  grid : Grid R
  /-- The labels of its coordinates. -/
  labels : List Index

/-- The entry of a labelled grid for given values of the labels. -/
def Labelled.entry (x : Labelled R) (kind : NumberKind) (values : Table Index Nat) : R :=
  Arithmetic.widen kind (x.grid.get (x.labels.map fun l => values.findD l 0))

/-- The number of values of each label. -/
def labelSizes (operands : List (Labelled R)) : Table Index Nat :=
  operands.flatMap fun x => x.labels.zip x.grid.shape

/-- The larger of the kinds of all grids. -/
def joinKinds (operands : List (Labelled R)) : NumberKind :=
  operands.foldl (fun k x => k.join x.grid.kind) .integer

/-- The sum of products over labelled grids. All labels that are not wanted in the result are summed
over. -/
def contractGrids (operands : List (Labelled R)) (wanted : List Index) : Grid R :=
  let kind := joinKinds operands
  let sizes := labelSizes operands
  let summed := distinct ((operands.flatMap Labelled.labels).filter (· ∉ wanted))
  let inner := positions (summed.map fun l => sizes.findD l 0)
  ofFn kind (wanted.map fun l => sizes.findD l 0) fun outer =>
    Arithmetic.sum kind (inner.map fun position =>
      let values := wanted.zip outer ++ summed.zip position
      Arithmetic.product kind (operands.map fun x => x.entry kind values))

end Grid

end TensorDiagram
