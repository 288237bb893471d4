import TensorDiagram.Braiding.Strand
import TensorDiagram.Diagram.Map
import TensorDiagram.HandleTable

/-!
# Constructing braidings

A braiding becomes a tensor once the spaces of its strands are known. The space of a strand is that
of the leg of another tensor that has one of its indices: the space that the leg shows, if the
strand begins there, and its dual, if the strand ends there. A strand between two braidings gets its
space from the other one.

In an assignment to an object that exists already, the object itself is a neighbour as well.
-/

namespace TensorDiagram

/-- The first reference that has the index, and the number of the leg. -/
def findLeg? (index : Index) : List TensorRef → Option (TensorRef × Nat)
  | [] => none
  | t :: rest =>
    if index ∈ t.indices then some (t, t.indices.idxOf index) else findLeg? index rest

/-- The spaces of strands as far as they are known. -/
structure StrandSpaces where
  /-- The spaces by index. -/
  spaces : Table Index LegSpace
  /-- The strands without a space. -/
  unresolved : List Strand

namespace StrandSpaces

/-- Give both ends of a strand a space. -/
def assign (s : StrandSpaces) (strand : Strand) (space : LegSpace) : StrandSpaces :=
  { s with spaces := (s.spaces.put strand.1 space).put strand.2 space }

/-- Leave a strand for later. -/
def leave (s : StrandSpaces) (strand : Strand) : StrandSpaces :=
  { s with unresolved := s.unresolved ++ [strand] }

/-- Find the space of a strand at a neighbouring tensor. -/
def anchor (neighbours : List TensorRef) (s : StrandSpaces) (strand : Strand) : StrandSpaces :=
  match findLeg? strand.1 neighbours, findLeg? strand.2 neighbours with
  | some (t, position), _ => s.assign strand ⟨t.object, position, t.isAdjoint, false⟩
  | none, some (t, position) => s.assign strand ⟨t.object, position, t.isAdjoint, true⟩
  | none, none => s.leave strand

/-- Find the space of a strand at another strand. -/
def join (s : StrandSpaces) (strand : Strand) : StrandSpaces :=
  match s.spaces.find? strand.1, s.spaces.find? strand.2 with
  | some space, _ => s.assign strand space
  | none, some space => s.assign strand space
  | none, none => s.leave strand

/-- Go through the strands without a space once. -/
def joinAll (s : StrandSpaces) : StrandSpaces :=
  s.unresolved.foldl join ⟨s.spaces, []⟩

/-- The spaces of all strands. Every round but the last resolves a strand. -/
def ofStrands (neighbours : List TensorRef) (strands : List Strand) : StrandSpaces :=
  let start := strands.foldl (anchor neighbours) ⟨[], []⟩
  Nat.repeat joinAll start.unresolved.length start

/-- The space of an index. -/
def get (s : StrandSpaces) (index : Index) : Except Error LegSpace :=
  match s.spaces.find? index with
  | some space => .ok space
  | none => .error .missing

end StrandSpaces

namespace Diagram

/-- The references whose legs give spaces to strands: those of the statement and, for an assignment
to an object that exists already, the conjugate of the left hand side. -/
def neighbourTerms? : Diagram → Option (List TensorRef)
  | assign (ref t) rhs false => if rhs.isTensor then some (rhs.tensors ++ [t.flipped]) else none
  | d => d.statementTerms?

/-- The statements that construct braidings, with the handles that they get. -/
def constructions (braidingName : String) (spaces : StrandSpaces) (table : HandleTable) :
    List TensorRef → Except Error (List Diagram × Table TensorRef Handle × HandleTable)
  | [] => .ok ([], [], table)
  | t :: rest => do
    let ((_, end1), (_, end2)) ← t.strands braidingName
    let (handle, table) := table.freshBraiding
    let space1 ← spaces.get end1
    let space2 ← spaces.get end2
    let (statements, handles, table) ← constructions braidingName spaces table rest
    return (braid handle space1 space2 :: statements, (t, handle) :: handles, table)

/-- Construct the braidings of one statement in front of it. -/
def constructStatement (braidingName : String) (table : HandleTable) (d : Diagram) :
    Except Error (Diagram × HandleTable) := do
  match d.neighbourTerms? with
  | none => return (d, table)
  | some terms =>
    let braidings := distinct (terms.filter fun t => t.isBraiding braidingName)
    if braidings.isEmpty then return (d, table)
    let neighbours := terms.filter fun t => !t.isBraiding braidingName
    let spaces := StrandSpaces.ofStrands neighbours
      (← TensorRef.allStrands braidingName braidings)
    if !spaces.unresolved.isEmpty then throw (.unresolvedSpaces spaces.unresolved d)
    let (statements, handles, table) ← constructions braidingName spaces table braidings
    let resolve (t : TensorRef) : TensorRef :=
      match handles.find? t with
      | some handle => t.withObject (.handle handle)
      | none => t
    return (block [sealed statements, d.mapRefs resolve], table)

mutual
/-- Construct the braidings of all statements outside sealed regions. -/
def constructBraidings (braidingName : String) (table : HandleTable) :
    Diagram → Except Error (Diagram × HandleTable)
  | sealed statements => .ok (sealed statements, table)
  | block statements => do
    let (statements, table) ← constructBraidingsList braidingName table statements
    return (block statements, table)
  | control kind body => do
    let (body, table) ← body.constructBraidings braidingName table
    return (control kind body, table)
  | d => d.constructStatement braidingName table
/-- Construct the braidings of the statements of a list one after another. -/
def constructBraidingsList (braidingName : String) (table : HandleTable) :
    List Diagram → Except Error (List Diagram × HandleTable)
  | [] => .ok ([], table)
  | d :: rest => do
    let (d, table) ← d.constructBraidings braidingName table
    let (rest, table) ← constructBraidingsList braidingName table rest
    return (d :: rest, table)
end

end Diagram

end TensorDiagram
