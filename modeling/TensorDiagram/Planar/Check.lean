import TensorDiagram.Planar.Orders

/-!
# Planarity of assignments

An assignment is planar if its right hand side can be drawn in the plane with the free indices in
the cyclic order of the left hand side. The right hand sides that are no tensor expressions are not
looked at, and a left hand side that is none has no indices.
-/

namespace TensorDiagram.Diagram

/-- The cyclic order that a left hand side asks for. -/
def lhsOrder (lhs : Diagram) : Except Error (List Index) := do
  if lhs.isTensor then
    match ← lhs.admissibleOrders with
    | [order] => return order
    | _ => throw (.lhsNotPlanar lhs)
  else return []

/-- Check that an assignment is planar. -/
def checkAssignment (lhs rhs : Diagram) (isDefinition : Bool) : Except Error Unit := do
  if rhs.isTensor then
    let order ← lhs.lhsOrder
    let orders ← rhs.admissibleOrders
    if orders.isEmpty then throw (.notPlanar rhs)
    if !orders.any fun o => Circle.isRotation o order then
      throw (.notPlanar (.assign lhs rhs isDefinition))

mutual
/-- Check that all assignments outside sealed regions are planar. -/
def checkPlanar : Diagram → Except Error Unit
  | assign lhs rhs isDefinition => checkAssignment lhs rhs isDefinition
  | block statements => checkPlanarList statements
  | control _ body => body.checkPlanar
  | _ => .ok ()
/-- Check the assignments of a list of statements. -/
def checkPlanarList : List Diagram → Except Error Unit
  | [] => .ok ()
  | d :: rest => do
    d.checkPlanar
    checkPlanarList rest
end

end TensorDiagram.Diagram
