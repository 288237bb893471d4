import TensorDiagram.Tensor.Basic

/-!
# Contraction of labelled legs

Every leg of some tensors has a label. A label that appears twice, on two tensors or on one, joins
its two legs, which must show dual spaces. The labels that appear once are those of the result, and
are listed by side in the order of its legs.
-/

namespace TensorDiagram

/-- A leg with its label and the space that it shows. -/
abbrev LabelledLeg := Index × Space

/-- Check the legs of one label: at most two, with dual spaces. -/
def checkLabel (legs : List LabelledLeg) (label : Index) : Except Error Unit :=
  match (legs.filter fun leg => leg.1 = label).map Prod.snd with
  | [] | [_] => .ok ()
  | [v, w] => if v = w.dual then .ok () else .error (.incompatibleLegs v w label)
  | _ => .error (.labelRepeated label)

/-- Check the legs of all labels, in order of first appearance. -/
def checkLabels (legs : List LabelledLeg) : Except Error Unit :=
  (distinct (legs.map Prod.fst)).forM (checkLabel legs)

/-- Whether two lists have the same entries. -/
def sameEntries (xs ys : List Index) : Bool :=
  xs.all (· ∈ ys) && ys.all (· ∈ xs)

/-- The legs of the result. The labels must be those that appear once. -/
def resultLegs (legs : List LabelledLeg) (left right : List Index) : Except Error Legs :=
  let wanted := left ++ right
  let free := once (legs.map Prod.fst)
  let spaceOf (label : Index) : Option Space := Table.find? label legs
  if wanted.length = free.length ∧ sameEntries wanted free then
    .ok ⟨left.filterMap spaceOf, (right.filterMap spaceOf).map Space.dual⟩
  else .error (.outputLabels wanted free)

namespace Tensor

variable {R : Type} [Arithmetic R]

/-- A tensor with a label for each leg. -/
structure Operand (R : Type) where
  /-- The tensor. -/
  tensor : Tensor R
  /-- The labels of its legs. -/
  labels : List Index

/-- The labelled legs of a tensor, which must have as many labels as legs. -/
def Operand.legs (x : Operand R) : Except Error (List LabelledLeg) :=
  if x.labels.length = x.tensor.legs.count then .ok (x.labels.zip x.tensor.legs.spaces)
  else .error (.labelCount x.tensor.legs.count x.labels.length)

/-- The labelled legs of all operands, once they are checked. -/
def operandLegs (operands : List (Operand R)) : Except Error (List LabelledLeg) := do
  let legs ← operands.mapM Operand.legs
  checkLabels legs.flatten
  return legs.flatten

/-- Contract some tensors over the labels that appear twice. -/
def contractAll (operands : List (Operand R)) (left right : List Index) :
    Except Error (Tensor R) := do
  let legs ← resultLegs (← operandLegs operands) left right
  let grid := Grid.contractGrids (operands.map fun x => ⟨x.tensor.grid, x.labels⟩) (left ++ right)
  ofGrid grid legs

/-- Contract two tensors. -/
def contract (s : Tensor R) (sLabels : List Index) (t : Tensor R) (tLabels : List Index)
    (left right : List Index) : Except Error (Tensor R) :=
  contractAll [⟨s, sLabels⟩, ⟨t, tLabels⟩] left right

/-- Bring the legs of a tensor to another order, and trace over labels that appear twice. -/
def permute (t : Tensor R) (labels : List Index) (left right : List Index) :
    Except Error (Tensor R) :=
  contractAll [⟨t, labels⟩] left right

end Tensor

end TensorDiagram
