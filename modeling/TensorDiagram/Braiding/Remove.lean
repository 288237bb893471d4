import TensorDiagram.Braiding.IndexMap
import TensorDiagram.Braiding.Strand
import TensorDiagram.Diagram.Map

/-!
# Removing braidings

If over- and under-crossings are the same, a braiding does nothing but join the two ends of each of
its strands. The ends of all strands are identified, each class of indices gets one representative,
and the braidings, which then read `τ[a, b; b, a]`, are dropped from the products.

Of two indices the one that is free on the left hand side is kept. If neither is, the larger of two
numbers is kept, or else the one at which the strand enters.
-/

namespace TensorDiagram

/-- Which of the two ends of a strand is kept. -/
def keptIndex (outgoing : List Index) (a b : Index) : Index :=
  if a ∈ outgoing then a
  else if b ∈ outgoing then b
  else
    match a, b with
    | .number m, .number n => .number (max m n)
    | a, _ => a

/-- Identify the ends of a strand. -/
def identify (outgoing : List Index) (map : IndexMap) (strand : Strand) :
    Except Error IndexMap := do
  let a ← map.representative strand.1
  let b ← map.representative strand.2
  let kept := keptIndex outgoing a b
  return (map.put a kept).put b kept

/-- Check that the ends of the strands of a braiding are identified. -/
def TensorRef.checkRemovable (t : TensorRef) : Except Error Unit :=
  match t.left, t.right with
  | [a, b], [c, d] => if a = d ∧ b = c then .ok () else .error (.notRemovable t)
  | _, _ => .error (.notRemovable t)

namespace Diagram

/-- The braiding that the diagram is, possibly under a conjugation. -/
def braidingTerm? (braidingName : String) : Diagram → Option TensorRef
  | ref t | conj (ref t) => if t.isBraiding braidingName then some t else none
  | _ => none

/-- The whole of a diagram that is not a factor, given what remains of it as a factor. A braiding
can not stand alone, and something has to remain. -/
def wholeOf (braidingName : String) (d : Diagram) (remaining : Except Error (Option Diagram)) :
    Except Error Diagram :=
  if (d.braidingTerm? braidingName).isSome then .error (.notContracted d)
  else do
    match ← remaining with
    | some d => return d
    | none => throw (.nothingRemains d)

mutual
/-- What remains of a factor without its braidings, if anything does. -/
def remainder (braidingName : String) : Diagram → Except Error (Option Diagram)
  | ref t =>
    if t.isBraiding braidingName then do
      t.checkRemovable
      return none
    else .ok (some (ref t))
  | conj a =>
    match (conj a).braidingTerm? braidingName with
    | some t => do
      t.checkRemovable
      return none
    | none => do
      let a ← wholeOf braidingName a (a.remainder braidingName)
      return some (conj a)
  | product a b rest => do
    let a ← a.remainder braidingName
    let b ← b.remainder braidingName
    let rest ← factorRemainders braidingName rest
    return ofFactors? (a.toList ++ b.toList ++ rest)
  | sum sign a rest => do
    let a ← wholeOf braidingName a (a.remainder braidingName)
    let rest ← termRemainders braidingName rest
    return some (sum sign a rest)
  | assign lhs rhs isDefinition => do
    let rhs ← wholeOf braidingName rhs (rhs.remainder braidingName)
    return some (assign lhs rhs isDefinition)
  | block statements => do
    let statements ← statementRemainders braidingName statements
    return some (block statements)
  | control kind body => do
    let body ← wholeOf braidingName body (body.remainder braidingName)
    return some (control kind body)
  | d => .ok (some d)
/-- What remains of the factors of a product. -/
def factorRemainders (braidingName : String) : List Diagram → Except Error (List Diagram)
  | [] => .ok []
  | d :: rest => do
    let d ← d.remainder braidingName
    let rest ← factorRemainders braidingName rest
    return d.toList ++ rest
/-- The terms of a sum without braidings. -/
def termRemainders (braidingName : String) :
    List (Sign × Diagram) → Except Error (List (Sign × Diagram))
  | [] => .ok []
  | (sign, d) :: rest => do
    let d ← wholeOf braidingName d (d.remainder braidingName)
    let rest ← termRemainders braidingName rest
    return (sign, d) :: rest
/-- The statements of a block without braidings. -/
def statementRemainders (braidingName : String) : List Diagram → Except Error (List Diagram)
  | [] => .ok []
  | d :: rest => do
    let d ← wholeOf braidingName d (d.remainder braidingName)
    let rest ← statementRemainders braidingName rest
    return d :: rest
end

/-- The diagram with the braidings dropped from its products. A product with one factor left becomes
that factor, and one with none is dropped from the product around it. -/
def purgeBraidings (braidingName : String) (d : Diagram) : Except Error Diagram :=
  wholeOf braidingName d (d.remainder braidingName)

/-- The indices on the left hand side of an assignment to a reference. -/
def outgoing : Diagram → List Index
  | assign (ref t) _ _ => t.indices
  | _ => []

/-- Remove the braidings of one statement. -/
def removeStatement (braidingName : String) (d : Diagram) : Except Error Diagram := do
  match d.statementTerms? with
  | none => return d
  | some terms =>
    let braidings := terms.filter fun t => t.isBraiding braidingName
    if braidings.isEmpty then return d
    let strands ← TensorRef.allStrands braidingName braidings
    let map ← strands.foldlM (identify d.outgoing) []
    let closed ← IndexMap.closure map
    (d.mapIndices fun i => closed.findD i i).purgeBraidings braidingName

mutual
/-- Remove the braidings of all statements outside sealed regions. -/
def removeBraidings (braidingName : String) : Diagram → Except Error Diagram
  | sealed statements => .ok (sealed statements)
  | block statements => do return block (← removeBraidingsList braidingName statements)
  | control kind body => do return control kind (← body.removeBraidings braidingName)
  | d => d.removeStatement braidingName
/-- Remove the braidings of the statements of a list. -/
def removeBraidingsList (braidingName : String) : List Diagram → Except Error (List Diagram)
  | [] => .ok []
  | d :: rest => do
    let d ← d.removeBraidings braidingName
    let rest ← removeBraidingsList braidingName rest
    return d :: rest
end

end Diagram

end TensorDiagram
