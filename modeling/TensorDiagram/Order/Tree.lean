import TensorDiagram.Error

/-!
# Contraction trees

In which order the tensors of a product are contracted in pairs: a binary tree with the names of the
tensors at its leaves. A tree is read from nested pairs of names, or put together from a list of
pairs that are contracted one after the other.
-/

namespace TensorDiagram

/-- An order of pairwise contractions. A leaf may lack a name. -/
inductive ContractionTree where
  | leaf (name : Option String)
  | fuse (left right : ContractionTree)
deriving DecidableEq, Repr

/-- The text of a possibly missing name. -/
def leafText (name : Option String) : String :=
  name.getD "None"

/-- The name of the result of contracting two leaves. -/
def fusedName (a b : Option String) : String :=
  "(" ++ leafText a ++ ", " ++ leafText b ++ ")"

namespace ContractionTree

/-- Whether the tree is a single leaf. -/
def isLeaf : ContractionTree → Bool
  | leaf _ => true
  | fuse .. => false

/-- The names at the leaves, from left to right. -/
def leaves : ContractionTree → List (Option String)
  | leaf name => [name]
  | fuse left right => left.leaves ++ right.leaves

/-- The lines of the drawn tree. The first line starts with `head`, the others with `margin`. -/
def drawing (head margin : String) : ContractionTree → List String
  | leaf name => [head ++ leafText name]
  | fuse left right =>
    (head ++ "┓") ::
      (left.drawing (margin ++ "┣━") (margin ++ "┃ ") ++
        right.drawing (margin ++ "┗━") (margin ++ "  "))

/-- The drawn tree. -/
def text (t : ContractionTree) : String :=
  "\n".intercalate (t.drawing "" "")

/-- The tree of nested pairs of names. -/
def ofNest : Nest → Except Error ContractionTree
  | .name n => .ok (leaf n)
  | .group [a, b] => do
    let left ← ofNest a
    let right ← ofNest b
    return fuse left right
  | .group items => .error (.notAPair (.group items))

/-! ## Pairs in order -/

/-- Tensors that are already contracted with each other. -/
structure Group where
  /-- The order of their contractions. -/
  tree : ContractionTree
  /-- Their names. -/
  names : List String

/-- The group that a name belongs to, which is its own if no pair has mentioned it yet. -/
def groupOf (groups : List Group) (name : String) : Group :=
  (groups.find? (name ∈ ·.names)).getD ⟨leaf (some name), [name]⟩

/-- Contract two tensors, and with them their groups. Nothing happens if they are in one group
already. -/
def joinPair (groups : List Group) (a b : String) : Except Error (List Group) :=
  let groupA := groupOf groups a
  let groupB := groupOf groups b
  if a = b then .error (.selfContraction a)
  else if b ∈ groupA.names then .ok groups
  else
    let others := groups.filter fun g => a ∉ g.names ∧ b ∉ g.names
    .ok (others ++ [⟨fuse groupA.tree groupB.tree, groupA.names ++ groupB.names⟩])

/-- The tree that contracts the pairs one after the other. -/
def ofPairs (pairs : List (String × String)) : Except Error ContractionTree := do
  if pairs.isEmpty then throw .emptyOrder
  let groups ← pairs.foldlM (fun groups pair => joinPair groups pair.1 pair.2) []
  match groups with
  | [g] => return g.tree
  | _ => throw .disconnectedOrder

end ContractionTree

/-- A contraction order as it is given: written in nested pairs, or as a tree. -/
inductive ContractionOrder where
  | nested (nest : Nest)
  | built (tree : ContractionTree)

namespace ContractionOrder

/-- The tree of an order. -/
def toTree : ContractionOrder → Except Error ContractionTree
  | nested nest => ContractionTree.ofNest nest
  | built tree => .ok tree

end ContractionOrder

end TensorDiagram
