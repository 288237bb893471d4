import TensorDiagram.Circle.Complement
import TensorDiagram.Diagram.Classify

/-!
# Admissible orders

An expression can be drawn in the plane with its free indices in certain orders around it, each up
to rotation. A tensor has one such order, unless a trace of it would cross another leg. The terms of
a sum have to agree on an order, and the orders of a product come from the planar contractions of
the orders of its factors. No admissible order means that the expression is not planar.
-/

namespace TensorDiagram

/-- The order of the legs of a reference after all planar traces, if no other trace is left. -/
def TensorRef.admissibleOrders (t : TensorRef) : List (List Index) :=
  let indices := Circle.removeTraces t.cyclicOrder
  if (duplicates [] indices).isEmpty then [indices] else []

namespace Diagram

/-- The orders of a scalar or of a general tensor. -/
def simpleOrders? (d : Diagram) : Option (List (List Index)) :=
  if d.isScalar then some [[]] else d.general?.map fun g => g.term.admissibleOrders

/-- The orders that occur in another list up to rotation. -/
def commonOrders (orders others : List (List Index)) : List (List Index) :=
  orders.filter fun i => others.any fun o => Circle.isRotation i o

/-- The orders of the product of factors with given orders. -/
def productOrders (first second : List (List Index)) : Except Error (List (List Index)) := do
  let contractions ← (first.flatMap fun i => second.map fun j => (i, j)).mapM fun (i, j) =>
    Circle.complements i j
  return contractions.flatten.map fun c => c.openOrder

mutual
/-- The orders of the free indices in which the diagram can be drawn in the plane. Products must be
binary. The second factor is looked at only if the first has an order. -/
def admissibleOrders : Diagram → Except Error (List (List Index))
  | sum sign a rest =>
    match simpleOrders? (sum sign a rest) with
    | some orders => .ok orders
    | none => do termOrders (← a.admissibleOrders) rest
  | product a b rest =>
    match simpleOrders? (product a b rest) with
    | some orders => .ok orders
    | none =>
      match rest with
      | [] => do
        let first ← a.admissibleOrders
        if first.isEmpty then return []
        productOrders first (← b.admissibleOrders)
      | _ => .error (.notBinary (product a b rest))
  | d => .ok (d.simpleOrders?.getD [])
/-- Those of the orders that all terms admit. -/
def termOrders (orders : List (List Index)) :
    List (Sign × Diagram) → Except Error (List (List Index))
  | [] => .ok orders
  | (_, d) :: rest => do
    let others ← d.admissibleOrders
    termOrders (commonOrders orders others) rest
end

end Diagram

end TensorDiagram
