import TensorDiagram.Order.Tree

/-!
# Trees that share nodes

Contraction trees whose nodes can be part of several trees at once. When a contraction is performed
in one of them, a node with two leaves becomes a leaf, and every tree that has the node shows it.

The nodes are kept in a store and refer to each other by their place. A node refers only to places
before its own, so a store of `n` nodes holds no tree deeper than `n`.
-/

namespace TensorDiagram

/-- A node of a shared tree. An inner node should not have a value. -/
inductive TreeNode where
  | leaf (value : Option String)
  | inner (value : Option String) (left right : Nat)

namespace TreeNode

/-- The value of a node. -/
def value : TreeNode → Option String
  | leaf v | inner v _ _ => v

/-- Whether the node has no children. -/
def isLeaf : TreeNode → Bool
  | leaf _ => true
  | inner .. => false

end TreeNode

/-- The nodes of shared trees. -/
structure TreeStore where
  /-- The nodes by place. -/
  nodes : Array TreeNode := #[]

namespace TreeStore

/-- The node at a place. -/
def node (s : TreeStore) (place : Nat) : TreeNode :=
  s.nodes.getD place (.leaf none)

/-- The store with one more node, and its place. -/
def add (s : TreeStore) (node : TreeNode) : Nat × TreeStore :=
  (s.nodes.size, ⟨s.nodes.push node⟩)

/-- The tree at a place, followed to the given depth. -/
def treeTo (s : TreeStore) : (depth place : Nat) → ContractionTree
  | 0, place => .leaf (s.node place).value
  | depth + 1, place =>
    match s.node place with
    | .leaf value => .leaf value
    | .inner _ left right => .fuse (s.treeTo depth left) (s.treeTo depth right)

/-- The tree at a place. -/
def tree (s : TreeStore) (place : Nat) : ContractionTree :=
  s.treeTo s.nodes.size place

/-- Enter all nodes of a tree. -/
def enter (s : TreeStore) : ContractionTree → Nat × TreeStore
  | .leaf value => s.add (.leaf value)
  | .fuse left right =>
    let (l, s) := s.enter left
    let (r, s) := s.enter right
    s.add (.inner none l r)

/-- A new tree with the given children, which it shares. -/
def fuse (s : TreeStore) (left right : Nat) : Nat × TreeStore :=
  s.add (.inner none left right)

/-- A new node with a value and either two children or none. -/
def makeNode (s : TreeStore) (value : Option String) (left right : Option Nat) :
    Except Error (Nat × TreeStore) :=
  match left, right with
  | none, none => .ok (s.add (.leaf value))
  | some l, some r => .ok (s.add (.inner value l r))
  | _, _ => .error .loneChild

/-- A copy of the tree at a place that shares no nodes with it, to the given depth. -/
def copyTo (s : TreeStore) : (depth place : Nat) → Nat × TreeStore
  | 0, place => s.add (.leaf (s.node place).value)
  | depth + 1, place =>
    match s.node place with
    | .leaf value => s.add (.leaf value)
    | .inner value left right =>
      let (l, s) := s.copyTo depth left
      let (r, s) := s.copyTo depth right
      s.add (.inner value l r)

/-- A copy of the tree at a place that shares no nodes with it. -/
def copy (s : TreeStore) (place : Nat) : Nat × TreeStore :=
  s.copyTo s.nodes.size place

/-- A contraction that was performed: the names of the two leaves and of the new one. -/
structure Contraction where
  /-- The left leaf. -/
  first : Option String
  /-- The right leaf. -/
  second : Option String
  /-- The leaf that replaces them. -/
  result : String

/-- Perform the first contraction below a place, looking to the given depth. -/
def popTo (s : TreeStore) : (depth place : Nat) → Except Error (Contraction × TreeStore)
  | 0, _ => .error .singleLeaf
  | depth + 1, place =>
    match s.node place with
    | .leaf _ => .error .singleLeaf
    | .inner _ left right =>
      if !(s.node left).isLeaf then s.popTo depth left
      else if !(s.node right).isLeaf then s.popTo depth right
      else
        let a := (s.node left).value
        let b := (s.node right).value
        let result := fusedName a b
        .ok (⟨a, b, result⟩, ⟨s.nodes.setIfInBounds place (.leaf (some result))⟩)

/-- Perform the first contraction of a tree: its leftmost inner node with two leaves becomes a
leaf. -/
def pop (s : TreeStore) (place : Nat) : Except Error (Contraction × TreeStore) :=
  s.popTo s.nodes.size place

/-- Whether no inner node below the place has a value, looking to the given depth. -/
def innerValuesAbsent (s : TreeStore) : (depth place : Nat) → Bool
  | 0, _ => true
  | depth + 1, place =>
    match s.node place with
    | .leaf _ => true
    | .inner value left right =>
      value.isNone && s.innerValuesAbsent depth left && s.innerValuesAbsent depth right

/-- Whether a tree is as it should be: no inner node has a value and no two leaves have one name. -/
def isProper (s : TreeStore) (place : Nat) : Bool :=
  s.innerValuesAbsent s.nodes.size place && (duplicates [] (s.tree place).leaves).isEmpty

end TreeStore

end TensorDiagram
