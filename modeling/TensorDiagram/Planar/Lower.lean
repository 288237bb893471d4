import TensorDiagram.Planar.Orders
import TensorDiagram.HandleTable

/-!
# Lowering to binary contractions

A planar expression is lowered to contractions of two tensors. Intermediate results become
temporaries, whose definitions are emitted in the order in which they have to be run, and whose
indices are in an order that keeps every step planar.

A target says in which order the result of an expression is wanted. For a temporary this is only a
suggestion, and any rotation will do.
-/

namespace TensorDiagram

/-- The order in which a result is wanted. -/
structure WantedOrder where
  /-- The output indices. -/
  left : List Index
  /-- The input indices. -/
  right : List Index
  /-- Whether the result is a temporary, so that the order is only a suggestion. -/
  isTemporary : Bool := true

namespace WantedOrder

/-- The target that a left hand side sets. -/
def ofLhs : Diagram → WantedOrder
  | .ref t => ⟨t.left, t.right, false⟩
  | _ => ⟨[], [], false⟩

/-- The cyclic order of the target. -/
def cyclicOrder (t : WantedOrder) : List Index :=
  t.left ++ t.right.reverse

end WantedOrder

/-- What lowering has produced so far. -/
structure Emission where
  /-- All handles. -/
  table : HandleTable
  /-- The definitions of the temporaries, in the order in which they are run. -/
  definitions : List Diagram

namespace Emission

/-- Define a new temporary. -/
def define (e : Emission) (rhs : Diagram) (left right : List Index) :
    Diagram × Emission :=
  let (handle, table) := e.table.freshTemporary
  let term := Diagram.ref ⟨.handle handle, left, right, false⟩
  (term, ⟨table, e.definitions ++ [.assign term rhs true]⟩)

end Emission

namespace Diagram

/-- The first planar contraction of the pairs whose result has the wanted cyclic order. -/
def firstMatch? (wanted : List Index) :
    List (List Index × List Index) → Except Error (Option (Circle.PairContraction Index))
  | [] => .ok none
  | (i, j) :: rest => do
    let contractions ← Circle.complements i j
    match contractions.find? fun c => Circle.isRotation c.openOrder wanted with
    | some c => return some c
    | none => firstMatch? wanted rest

/-- The planar contraction of two factors by which a product is lowered. -/
def choosePair (wanted : List Index) (first second : Diagram) :
    Except Error (Circle.PairContraction Index) := do
  let firstOrders ← first.admissibleOrders
  let secondOrders ← if firstOrders.isEmpty then pure [] else second.admissibleOrders
  match ← firstMatch? wanted (firstOrders.flatMap fun i => secondOrders.map fun j => (i, j)) with
  | some c => return c
  | none => throw (.notPlanar (pair first second))

/-- A lowered factor as a general tensor, for which a temporary may be needed. -/
def asGeneral (d : Diagram) (target : WantedOrder) (e : Emission) : Diagram × Emission :=
  if d.isGeneral then (d, e) else e.define d target.left target.right

/-- Whether all indices of one list are in another. -/
def allIn (xs ys : List Index) : Bool :=
  xs.all fun i => i ∈ ys

/-- The product of two lowered factors, `a` with the open indices `open1` and `b` with `open2`.

A scalar factor is multiplied in place. Otherwise both factors become general tensors, in an order
that agrees with the sides on which they carry their open indices. If the result is not a temporary,
and if it can not be given directly in the wanted order, it becomes one. -/
def joinFactors (target target1 target2 : WantedOrder) (a b : Diagram) (open1 open2 : List Index)
    (e : Emission) : Except Error (Diagram × Emission) := do
  if a.isScalar || b.isScalar then
    if target.isTemporary then return e.define (pair a b) open1 open2.reverse
    else return (pair a b, e)
  else
    let (a, e) := a.asGeneral target1 e
    let (b, e) := b.asGeneral target2 e
    let first ← a.decompose
    let second ← b.decompose
    let (a, b, open1, open2) :=
      if allIn open1 first.term.right && allIn open2 second.term.left then (b, a, open2, open1)
      else (a, b, open1, open2)
    if target.isTemporary then return e.define (pair a b) open1 open2.reverse
    else if target.left = open1 ∧ target.right = open2.reverse then return (pair a b, e)
    else if target.left = open2 ∧ target.right = open1.reverse then return (pair b a, e)
    else return e.define (pair a b) open1 open2.reverse

/-- A general tensor as the result of an expression. A trace is taken while a temporary is made. -/
def lowerGeneral (d : Diagram) (t : TensorRef) (target : WantedOrder) (e : Emission) :
    Diagram × Emission :=
  if target.isTemporary && !(duplicates [] t.indices).isEmpty then
    e.define d target.left target.right
  else (d, e)

/-- The scalar, or the general tensor, that needs no further lowering. -/
def lowerSimple? (d : Diagram) (target : WantedOrder) (e : Emission) :
    Option (Diagram × Emission) :=
  if d.isScalar then some (d, e)
  else d.general?.map fun g => d.lowerGeneral g.term target e

mutual
/-- Lower an expression towards a target. The first planar contraction that gives the cyclic order
of the target is taken at every product, which must be binary. The second factor goes first if its
open indices are wanted on the left and those of the first factor on the right. -/
def lower (target : WantedOrder) (e : Emission) : Diagram → Except Error (Diagram × Emission)
  | product a b rest =>
    match lowerSimple? (product a b rest) target e with
    | some result => .ok result
    | none =>
      match rest with
      | [] => do
        let c ← choosePair target.cyclicOrder a b
        if allIn c.openSecond target.left && allIn c.openFirst target.right then
          let target1 : WantedOrder := { left := c.openSecond, right := c.joinedSecond.reverse }
          let target2 : WantedOrder := { left := c.joinedFirst, right := c.openFirst.reverse }
          let (x, e) ← b.lower target1 e
          let (y, e) ← a.lower target2 e
          joinFactors target target1 target2 x y c.openSecond c.openFirst e
        else
          let target1 : WantedOrder := { left := c.openFirst, right := c.joinedFirst.reverse }
          let target2 : WantedOrder := { left := c.joinedSecond, right := c.openSecond.reverse }
          let (x, e) ← a.lower target1 e
          let (y, e) ← b.lower target2 e
          joinFactors target target1 target2 x y c.openFirst c.openSecond e
      | _ => .error (.notBinary (product a b rest))
  | sum sign a rest =>
    match lowerSimple? (sum sign a rest) target e with
    | some result => .ok result
    | none => do
      let (a, e) ← a.lower target e
      let (rest, e) ← lowerTerms target e rest
      return (sum sign a rest, e)
  | d =>
    match lowerSimple? d target e with
    | some result => .ok result
    | none => .error (.unknownExpression d)
/-- Lower the terms of a sum towards one target. -/
def lowerTerms (target : WantedOrder) (e : Emission) :
    List (Sign × Diagram) → Except Error (List (Sign × Diagram) × Emission)
  | [] => .ok ([], e)
  | (sign, d) :: rest => do
    let (d, e) ← d.lower target e
    let (rest, e) ← lowerTerms target e rest
    return ((sign, d) :: rest, e)
end

/-- Lower an assignment to a block of definitions, with the lowered assignment last. -/
def lowerAssignment (table : HandleTable) (lhs rhs : Diagram) (isDefinition : Bool) :
    Except Error (Diagram × HandleTable) := do
  if rhs.isTensor then
    let (rhs, e) ← rhs.lower (.ofLhs lhs) ⟨table, []⟩
    return (block (e.definitions ++ [assign lhs rhs isDefinition]), e.table)
  else return (assign lhs rhs isDefinition, table)

/-- Lower an expression that stands alone, towards a temporary in its first admissible order. -/
def lowerExpression (table : HandleTable) (d : Diagram) :
    Except Error (Diagram × HandleTable) := do
  if d.isTensor then
    match ← d.admissibleOrders with
    | [] => throw (.notPlanar d)
    | order :: _ =>
      let (d, e) ← d.lower { left := order, right := [] } ⟨table, []⟩
      return (block (e.definitions ++ [d]), e.table)
  else return (d, table)

mutual
/-- Lower all statements outside sealed regions. -/
def lowerStatements (table : HandleTable) : Diagram → Except Error (Diagram × HandleTable)
  | sealed statements => .ok (sealed statements, table)
  | assign lhs rhs isDefinition => lowerAssignment table lhs rhs isDefinition
  | block statements => do
    let (statements, table) ← lowerStatementList table statements
    return (block statements, table)
  | control kind body => do
    let (body, table) ← body.lowerStatements table
    return (control kind body, table)
  | d => d.lowerExpression table
/-- Lower the statements of a list one after another. -/
def lowerStatementList (table : HandleTable) :
    List Diagram → Except Error (List Diagram × HandleTable)
  | [] => .ok ([], table)
  | d :: rest => do
    let (d, table) ← d.lowerStatements table
    let (rest, table) ← lowerStatementList table rest
    return (d :: rest, table)
end

end Diagram

end TensorDiagram
