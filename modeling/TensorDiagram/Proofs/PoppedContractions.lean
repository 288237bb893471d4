import TensorDiagram.Order.Shared
import TensorDiagram.Proofs.TreeProducts

/-!
# Contractions taken from a tree one by one

Factors are nested by recursion on a tree (`Diagram.contractAlong`).  The same contractions can be
taken from a shared tree one at a time, each of which leaves a leaf behind, until there is nothing
but a leaf (`contractPops`).  Both do the same, also if a factor is missing
(`contractPops_enter`).

The nodes of a tree that has been entered are in places of their own (`Holds`).  So a contraction
in one subtree does not show in the other one (`Holds.exists_pops`).
-/

namespace TensorDiagram.TreeStore

open Diagram (contractAlong pair takeFactor)

variable {s s' : TreeStore} {start place : ℕ} {tree : ContractionTree}

/-- Perform a contraction on the factors of a table. -/
def contractPair (c : Contraction) (tensors : Table String Diagram) :
    Except Error (Table String Diagram) := do
  let (x, tensors) ← takeFactor c.first tensors
  let (y, tensors) ← takeFactor c.second tensors
  return tensors.put c.result (pair x y)

/-- Perform the contractions of the tree at a place until it is a leaf, and at most `rounds` of
them. -/
def contractPops (place : ℕ) :
    (rounds : ℕ) → TreeStore → Table String Diagram →
      Except Error (Option String × Table String Diagram)
  | 0, s, tensors => .ok ((s.node place).value, tensors)
  | rounds + 1, s, tensors =>
    if (s.node place).isLeaf then .ok ((s.node place).value, tensors)
    else do
      let (c, s) ← s.pop place
      contractPops place rounds s (← contractPair c tensors)

/-! ## Trees in places of their own -/

/-- The store has the tree at the place, and all its nodes are between `start` and there. -/
inductive Holds (s : TreeStore) : (start place : ℕ) → ContractionTree → Prop
  /-- A leaf. -/
  | leaf {start place : ℕ} {name : Option String} (hplace : start ≤ place)
      (hnode : s.node place = .leaf name) : Holds s start place (.leaf name)
  /-- Two subtrees, one after the other. -/
  | fuse {start place l r : ℕ} {left right : ContractionTree}
      (hleft : Holds s start l left) (hright : Holds s (l + 1) r right) (hplace : r < place)
      (hnode : s.node place = .inner none l r) : Holds s start place (.fuse left right)

/-- The root is the last node. -/
theorem Holds.le (h : Holds s start place tree) : start ≤ place := by
  induction h with
  | leaf hplace => exact hplace
  | fuse _ _ hplace _ ihl ihr => omega

/-- A tree is held by any store with the same nodes in its places. -/
theorem Holds.congr (h : Holds s start place tree)
    (hnodes : ∀ p, start ≤ p → p ≤ place → s'.node p = s.node p) : Holds s' start place tree := by
  induction h with
  | leaf hplace hnode => exact .leaf hplace ((hnodes _ hplace le_rfl).trans hnode)
  | fuse hleft hright hplace hnode ihl ihr =>
    have hl := hleft.le
    have hr := hright.le
    exact .fuse (ihl fun p _ _ => hnodes p (by omega) (by omega))
      (ihr fun p _ _ => hnodes p (by omega) (by omega)) hplace
      ((hnodes _ (by omega) le_rfl).trans hnode)

/-- The new node is behind all others, which stay. -/
theorem node_add (s : TreeStore) (node : TreeNode) (p : ℕ) :
    (s.add node).2.node p = if p = s.nodes.size then node else s.node p := by
  simp only [add, TreeStore.node, Array.getD_eq_getD_getElem?, Array.getElem?_push]
  split_ifs <;> rfl

/-- A tree that is entered is held behind all other nodes, which stay. -/
theorem holds_enter (s : TreeStore) (tree : ContractionTree) :
    Holds (s.enter tree).2 s.nodes.size (s.enter tree).1 tree ∧
      (s.enter tree).2.nodes.size = (s.enter tree).1 + 1 ∧
      ∀ p < s.nodes.size, (s.enter tree).2.node p = s.node p := by
  induction tree generalizing s with
  | leaf name =>
    refine ⟨.leaf le_rfl ((node_add ..).trans (if_pos rfl)), Array.size_push .., fun p hp => ?_⟩
    exact (node_add ..).trans (if_neg hp.ne)
  | fuse left right ihl ihr =>
    obtain ⟨hleft, hsize, hkeep⟩ := ihl s
    obtain ⟨hright, hsize', hkeep'⟩ := ihr (s.enter left).2
    have hl := hleft.le
    have hr := hright.le
    rw [hsize] at hright hr hkeep'
    set s₂ := ((s.enter left).2.enter right).2
    set root := TreeNode.inner none (s.enter left).1 ((s.enter left).2.enter right).1
    change Holds (s₂.add root).2 _ s₂.nodes.size _ ∧ _ ∧ ∀ p < _, (s₂.add root).2.node p = _
    have hold : ∀ p < s₂.nodes.size, (s₂.add root).2.node p = s₂.node p := fun p hp =>
      (node_add ..).trans (if_neg hp.ne)
    refine ⟨.fuse (hleft.congr fun p _ hp => ?_) (hright.congr fun p _ hp => hold p (by omega))
      (by omega) ((node_add ..).trans (if_pos rfl)), Array.size_push .., fun p hp => ?_⟩
    · rw [hold p (by omega), hkeep' p (by omega)]
    · rw [hold p (by omega), hkeep' p (by omega), hkeep p hp]

/-! ## Steps and runs -/

/-- What the first contraction `c` of a tree leaves. -/
structure Pops (s : TreeStore) (start place : ℕ) (tree : ContractionTree) (c : Contraction)
    (s' : TreeStore) (tree' : ContractionTree) : Prop where
  /-- A tree at the same place. -/
  holds : Holds s' start place tree'
  /-- As many nodes. -/
  size : s'.nodes.size = s.nodes.size
  /-- The nodes of other trees. -/
  other : ∀ p, p < start ∨ place < p → s'.node p = s.node p
  /-- One leaf less. -/
  leaves : tree'.leaves.length + 1 = tree.leaves.length
  /-- The contractions that are left to be performed. -/
  contract : ∀ tensors, contractAlong tree tensors = contractPair c tensors >>= contractAlong tree'

section Step

variable {l r : ℕ} {left right left' right' : ContractionTree} {c : Contraction}

/-- The first contraction of a tree is the first one of its left subtree. -/
theorem Pops.fuse_left (h : Pops s start l left c s' left') (hright : Holds s (l + 1) r right)
    (hplace : r < place) (hnode : s.node place = .inner none l r) :
    Pops s start place (.fuse left right) c s' (.fuse left' right) where
  holds := by
    have hr := hright.le
    exact .fuse h.holds (hright.congr fun p hp _ => h.other p (Or.inr hp)) hplace
      ((h.other place (by omega)).trans hnode)
  size := h.size
  other p hp := by
    have hr := hright.le
    exact h.other p (by omega)
  leaves := by
    simp only [ContractionTree.leaves, List.length_append, ← h.leaves]
    omega
  contract tensors := by
    rw [contractAlong, h.contract, bind_assoc]
    rfl

/-- If the left subtree is a leaf, it is the first one of the right subtree. -/
theorem Pops.fuse_right {a : Option String} (h : Pops s (l + 1) r right c s' right')
    (hstart : start ≤ l) (ha : s.node l = .leaf a) (hplace : r < place)
    (hnode : s.node place = .inner none l r) :
    Pops s start place (.fuse (.leaf a) right) c s' (.fuse (.leaf a) right') where
  holds := .fuse (.leaf hstart ((h.other l (by omega)).trans ha)) h.holds hplace
    ((h.other place (by omega)).trans hnode)
  size := h.size
  other p hp := h.other p (by omega)
  leaves := by simp only [ContractionTree.leaves, List.length_append, ← h.leaves, add_assoc]
  contract tensors := by
    change contractAlong right tensors >>= _ = _
    rw [h.contract, bind_assoc]
    rfl

/-- Two leaves become one. -/
theorem pops_leaves (a b : Option String) (hplace : start ≤ place)
    (hnode : s.node place = .inner none l r) :
    Pops s start place (.fuse (.leaf a) (.leaf b)) ⟨a, b, fusedName a b⟩
      ⟨s.nodes.setIfInBounds place (.leaf (some (fusedName a b)))⟩
      (.leaf (some (fusedName a b))) := by
  have hbound : place < s.nodes.size := by
    by_contra hbound
    rw [TreeStore.node, Array.getD, dif_neg hbound] at hnode
    cases hnode
  refine ⟨.leaf hplace ?_, Array.size_setIfInBounds .., fun p hp => ?_, rfl, fun tensors => ?_⟩
  · simp [TreeStore.node, hbound]
  · have hne : place ≠ p := by omega
    simp [TreeStore.node, hne]
  · simp only [contractPair, bind_assoc]
    rfl

end Step

/-- The root of a tree is a leaf if the tree is one. -/
theorem Holds.isLeaf_node (h : Holds s start place tree) :
    (s.node place).isLeaf = tree.isLeaf := by
  cases h with
  | leaf _ hnode | fuse _ _ _ hnode =>
    rw [hnode]
    rfl

/-- A tree that is not a leaf has a first contraction. -/
theorem Holds.exists_pops (h : Holds s start place tree) (htree : tree.isLeaf = false) {depth : ℕ}
    (hdepth : place < depth) :
    ∃ c s' tree', s.popTo depth place = .ok (c, s') ∧ Pops s start place tree c s' tree' := by
  induction h generalizing depth with
  | leaf => cases htree
  | @fuse start place l r left right hleft hright hplace hnode ihl ihr =>
    obtain ⟨depth, rfl⟩ := Nat.exists_eq_succ_of_ne_zero (Nat.ne_zero_of_lt hdepth)
    have hr := hright.le
    simp only [popTo, hnode, hleft.isLeaf_node, hright.isLeaf_node]
    cases hleaf : left.isLeaf with
    | false =>
      obtain ⟨c, s', left', hpop, h⟩ := ihl hleaf (show l < depth by omega)
      exact ⟨c, s', _, hpop, h.fuse_left hright hplace hnode⟩
    | true =>
      cases hleft with
      | fuse => cases hleaf
      | @leaf _ _ a hstart ha =>
        cases hleaf' : right.isLeaf with
        | false =>
          obtain ⟨c, s', right', hpop, h⟩ := ihr hleaf' (show r < depth by omega)
          exact ⟨c, s', _, hpop, h.fuse_right hstart ha hplace hnode⟩
        | true =>
          cases hright with
          | fuse => cases hleaf'
          | @leaf _ _ b _ hb =>
            rw [ha, hb]
            exact ⟨_, _, _, rfl, pops_leaves a b (by omega) hnode⟩

/-- The contractions of a tree that a store holds, one by one. -/
theorem Holds.contractPops_eq (h : Holds s start place tree) (hplace : place < s.nodes.size)
    {rounds : ℕ} (hrounds : tree.leaves.length ≤ rounds) (tensors : Table String Diagram) :
    contractPops place rounds s tensors = contractAlong tree tensors := by
  induction rounds generalizing s tree tensors with
  | zero => exact absurd hrounds tree.length_leaves_pos.not_ge
  | succ rounds ih =>
    rw [contractPops, h.isLeaf_node]
    cases htree : tree.isLeaf with
    | true =>
      cases h with
      | leaf _ hnode => rw [if_pos rfl, hnode]; rfl
      | fuse => cases htree
    | false =>
      obtain ⟨c, s', tree', hpop, hpops⟩ := h.exists_pops htree hplace
      rw [if_neg Bool.false_ne_true, pop, hpop, ok_bind, hpops.contract]
      refine bind_congr fun tensors => ih hpops.holds (hpops.size ▸ hplace) ?_ tensors
      have hleaves := hpops.leaves
      omega

/-- Taking the contractions from a fresh copy of a tree one by one does what the recursion on the
tree does. -/
theorem contractPops_enter (s : TreeStore) (tree : ContractionTree) {rounds : ℕ}
    (hrounds : tree.leaves.length ≤ rounds) (tensors : Table String Diagram) :
    contractPops (s.enter tree).1 rounds (s.enter tree).2 tensors = contractAlong tree tensors := by
  obtain ⟨hholds, hsize, -⟩ := holds_enter s tree
  exact hholds.contractPops_eq (by omega) hrounds tensors

end TensorDiagram.TreeStore
