import TensorDiagram.Proofs.DartMap
import TensorDiagram.Proofs.TreeProducts

/-!
# Trees from pairs in order

The pairs of a contraction order are the edges of a graph of names.  While they are contracted one
after the other, the groups are at each time the connected components of the pairs so far
(`Components`), and a name that has not come up yet is a component of its own.  A pair within a
component changes nothing.  Any other pair joins two components, and their trees become the two
sides of a new tree.

So there is a tree in the end exactly if the graph is connected (`Components.isConnected_iff`).  Its
leaves are the names, and each of its inner nodes has come from a pair that was not connected
before, with the two names on its two sides (`Components.foldlM`).
-/

namespace TensorDiagram.ContractionTree

open Relation (EqvGen)

/-! ## Connected names -/

/-- A chain of pairs, in either direction, leads from one name to the other. -/
def Linked (pairs : List (String × String)) : String → String → Prop :=
  EqvGen fun x y => (x, y) ∈ pairs

/-- The names that the pairs mention. -/
def mentioned (pairs : List (String × String)) : List String :=
  pairs.flatMap fun p => [p.1, p.2]

/-- A chain of pairs leads from each name to each other one. -/
def IsConnected (pairs : List (String × String)) : Prop :=
  ∀ x ∈ mentioned pairs, ∀ y ∈ mentioned pairs, Linked pairs x y

open Classical in
/-- The pairs of names that are not linked by the pairs before. -/
noncomputable def joiningPairs (earlier : List (String × String)) : List (String × String) →
    List (String × String)
  | [] => []
  | p :: rest =>
    if Linked earlier p.1 p.2 then joiningPairs (earlier ++ [p]) rest else p :: joiningPairs
      (earlier ++ [p]) rest

variable {pairs earlier : List (String × String)} {a b x y z : String}

theorem Linked.symm (h : Linked pairs x y) : Linked pairs y x :=
  EqvGen.symm _ _ h

theorem Linked.trans (h : Linked pairs x y) (h' : Linked pairs y z) : Linked pairs x z :=
  EqvGen.trans _ _ _ h h'

theorem mem_mentioned_concat_iff : x ∈ mentioned (pairs ++ [(a, b)]) ↔ x ∈ mentioned pairs ∨
    x = a ∨ x = b := by
  simp [mentioned]

/-- Names are linked with one more pair if they have been linked before, or with the two names of
the pair. -/
theorem linked_concat_iff : Linked (pairs ++ [(a, b)]) x y ↔
    Linked pairs x y ∨ (Linked pairs x a ∧ Linked pairs b y) ∨
      (Linked pairs x b ∧ Linked pairs a y) := by
  constructor
  · intro h
    -- along every pair, the right hand side holds at both ends or at none
    refine (iff_of_eqvGen (P := fun y => Linked pairs x y ∨ (Linked pairs x a ∧ Linked pairs b y) ∨
      (Linked pairs x b ∧ Linked pairs a y)) ?_ h).mp (.inl (.refl x))
    intro y z hyz
    rcases List.mem_append.mp hyz with hyz | hyz
    · have hlink : Linked pairs y z := .rel _ _ hyz
      have hiff : ∀ w, Linked pairs w y ↔ Linked pairs w z := fun w =>
        ⟨fun h => h.trans hlink, fun h => h.trans hlink.symm⟩
      rw [hiff, hiff, hiff]
    · obtain ⟨rfl, rfl⟩ := Prod.mk.inj (List.mem_singleton.mp hyz)
      have hy : Linked pairs y y := .refl y
      have hz : Linked pairs z z := .refl z
      tauto
  · have hold : ∀ {x y : String}, Linked pairs x y → Linked (pairs ++ [(a, b)]) x y :=
      eqvGen_of_imp fun _ _ h => .rel _ _ (List.mem_append_left _ h)
    have hnew : Linked (pairs ++ [(a, b)]) a b :=
      .rel _ _ (List.mem_append_right _ List.mem_cons_self)
    rintro (h | ⟨h, h'⟩ | ⟨h, h'⟩)
    · exact hold h
    · exact (hold h).trans (hnew.trans (hold h'))
    · exact (hold h).trans (hnew.symm.trans (hold h'))

/-- With one more pair, the names that are linked with one of its names are those that were linked
with either. -/
theorem linked_concat_iff_of_linked (hx : Linked pairs a x ∨ Linked pairs b x) :
    Linked (pairs ++ [(a, b)]) x y ↔ Linked pairs a y ∨ Linked pairs b y := by
  rw [linked_concat_iff]
  rcases hx with hx | hx
  · constructor
    · rintro (hxy | ⟨-, hby⟩ | ⟨-, hay⟩)
      · exact .inl (hx.trans hxy)
      · exact .inr hby
      · exact .inl hay
    · rintro (hay | hby)
      · exact .inl (hx.symm.trans hay)
      · exact .inr (.inl ⟨hx.symm, hby⟩)
  · constructor
    · rintro (hxy | ⟨-, hby⟩ | ⟨-, hay⟩)
      · exact .inr (hx.trans hxy)
      · exact .inr hby
      · exact .inl hay
    · rintro (hay | hby)
      · exact .inr (.inr ⟨hx.symm, hay⟩)
      · exact .inl (hx.symm.trans hby)

/-- All other names are linked with the same names as before. -/
theorem linked_concat_iff_of_not_linked (ha : ¬ Linked pairs a x) (hb : ¬ Linked pairs b x) :
    Linked (pairs ++ [(a, b)]) x y ↔ Linked pairs x y := by
  rw [linked_concat_iff, or_iff_left_of_imp]
  rintro (⟨hxa, -⟩ | ⟨hxb, -⟩)
  · exact absurd hxa.symm ha
  · exact absurd hxb.symm hb

/-- A name that no pair mentions is linked with no other name. -/
theorem eq_of_linked (hx : x ∉ mentioned pairs) (h : Linked pairs x y) : y = x := by
  refine (iff_of_eqvGen (P := (· = x)) (fun u v huv => ?_) h).mp rfl
  have hmem : ∀ w, w = u ∨ w = v → w ∈ mentioned pairs := fun w hw =>
    List.mem_flatMap.mpr ⟨(u, v), huv, by simpa using hw⟩
  refine iff_of_false ?_ ?_
  · rintro rfl
    exact hx (hmem _ (.inl rfl))
  · rintro rfl
    exact hx (hmem _ (.inr rfl))

theorem joiningPairs_cons (p : String × String) (rest : List (String × String)) :
    joiningPairs earlier (p :: rest) = joiningPairs earlier [p] ++ joiningPairs
      (earlier ++ [p]) rest := by
  rw [joiningPairs, joiningPairs, joiningPairs]
  split_ifs <;> rfl

/-! ## Groups and components -/

/-- The two sides of each inner node of the tree. -/
def nodes : ContractionTree → List (ContractionTree × ContractionTree)
  | leaf _ => []
  | fuse left right => (left, right) :: (left.nodes ++ right.nodes)

/-- The inner nodes of the trees of all groups. -/
def groupNodes (groups : List Group) : List (ContractionTree × ContractionTree) :=
  groups.flatMap fun g => g.tree.nodes

/-- The names of a pair stand on the two sides of an inner node. -/
def Splits (p : String × String) (node : ContractionTree × ContractionTree) : Prop :=
  some p.1 ∈ node.1.leaves ∧ some p.2 ∈ node.2.leaves

/-- The groups are the connected components of the pairs, and the names of each stand at the leaves
of its tree. -/
structure Components (pairs : List (String × String)) (groups : List Group) : Prop where
  /-- The leaves of a tree are the names of its group. -/
  leaves_eq : ∀ g ∈ groups, g.tree.leaves = g.names.map some
  /-- No name is in two groups, or twice in one. -/
  nodup : (groups.flatMap Group.names).Nodup
  /-- The names in the groups are those in the pairs. -/
  mem_iff : ∀ x, x ∈ groups.flatMap Group.names ↔ x ∈ mentioned pairs
  /-- The names of a group are those that are linked with one of them. -/
  linked_iff : ∀ g ∈ groups, ∀ x ∈ g.names, ∀ y, Linked pairs x y ↔ y ∈ g.names

/-- The only tree with a name among its leaves is that of the group of the name. -/
theorem groupNodes_filter {groups : List Group} (hnodup : (groups.flatMap Group.names).Nodup)
    (x : String) :
    groupNodes (groups.filter fun g => x ∈ g.names) = (groupOf groups x).tree.nodes := by
  induction groups with
  | nil => rfl
  | cons g groups ih =>
    rw [List.flatMap_cons, List.nodup_append'] at hnodup
    obtain ⟨-, hgroups, hdisjoint⟩ := hnodup
    by_cases hx : x ∈ g.names
    · have hnone : (groups.filter fun g => x ∈ g.names) = [] := by
        refine List.filter_eq_nil_iff.mpr fun g' hg' hx' => ?_
        exact hdisjoint hx (List.mem_flatMap.mpr ⟨g', hg', of_decide_eq_true hx'⟩)
      rw [List.filter_cons_of_pos (by simpa using hx), hnone, groupOf,
        List.find?_cons_of_pos (by simpa using hx)]
      exact List.append_nil _
    · rw [List.filter_cons_of_neg (by simpa using hx), ih hgroups, groupOf, groupOf,
        List.find?_cons_of_neg (by simpa using hx)]

theorem components_nil : Components [] [] :=
  ⟨by simp, List.nodup_nil, fun _ => Iff.rfl, by simp⟩

namespace Components

variable {groups : List Group}

section

variable (h : Components pairs groups)

include h

/-- The group of a name that a pair mentions is one of the groups. -/
theorem groupOf_cases (x : String) :
    (groupOf groups x ∈ groups ∧ x ∈ (groupOf groups x).names) ∨
      (x ∉ mentioned pairs ∧ groupOf groups x = ⟨leaf (some x), [x]⟩) := by
  unfold groupOf
  generalize hfind : groups.find? _ = found
  cases found with
  | none =>
    refine .inr ⟨fun hx => ?_, rfl⟩
    obtain ⟨g, hg, hxg⟩ := List.mem_flatMap.mp ((h.mem_iff x).mpr hx)
    exact List.find?_eq_none.mp hfind g hg (decide_eq_true hxg)
  | some g =>
    have hg : x ∈ g.names := by simpa using List.find?_some hfind
    exact .inl ⟨List.mem_of_find?_eq_some hfind, hg⟩

theorem mem_groupOf (x : String) : x ∈ (groupOf groups x).names := by
  rcases h.groupOf_cases x with ⟨-, hx⟩ | ⟨-, heq⟩
  · exact hx
  · rw [heq]
    exact List.mem_cons_self

theorem leaves_groupOf (x : String) :
    (groupOf groups x).tree.leaves = (groupOf groups x).names.map some := by
  rcases h.groupOf_cases x with ⟨hmem, -⟩ | ⟨-, heq⟩
  · exact h.leaves_eq _ hmem
  · rw [heq]
    rfl

theorem nodup_groupOf (x : String) : (groupOf groups x).names.Nodup := by
  rcases h.groupOf_cases x with ⟨hmem, -⟩ | ⟨-, heq⟩
  · exact (List.nodup_flatMap.mp h.nodup).1 _ hmem
  · rw [heq]
    exact List.nodup_singleton x

/-- The group of a name is its component. -/
theorem linked_iff_mem_groupOf (x y : String) :
    Linked pairs x y ↔ y ∈ (groupOf groups x).names := by
  rcases h.groupOf_cases x with ⟨hmem, hx⟩ | ⟨hx, heq⟩
  · exact h.linked_iff _ hmem x hx y
  · rw [heq, List.mem_singleton]
    constructor
    · exact eq_of_linked hx
    · rintro rfl
      exact .refl y

theorem mem_mentioned_of_mem_groupOf (hy : y ∈ (groupOf groups x).names) :
    y ∈ mentioned pairs ∨ y = x := by
  rcases h.groupOf_cases x with ⟨hmem, -⟩ | ⟨-, heq⟩
  · exact .inl ((h.mem_iff y).mp (List.mem_flatMap.mpr ⟨_, hmem, hy⟩))
  · rw [heq] at hy
    exact .inr (List.mem_singleton.mp hy)

/-- A pair within a component. -/
theorem concat_of_linked (hne : a ≠ b) (hab : Linked pairs a b) :
    Components (pairs ++ [(a, b)]) groups := by
  have hlinked : ∀ x y, Linked (pairs ++ [(a, b)]) x y ↔ Linked pairs x y := by
    intro x y
    rw [linked_concat_iff]
    refine ⟨?_, .inl⟩
    rintro (hxy | ⟨hxa, hby⟩ | ⟨hxb, hay⟩)
    · exact hxy
    · exact hxa.trans (hab.trans hby)
    · exact hxb.trans (hab.symm.trans hay)
  refine ⟨h.leaves_eq, h.nodup, fun x => ?_, fun g hg x hx y =>
    (hlinked x y).trans (h.linked_iff g hg x hx y)⟩
  have ha : a ∈ mentioned pairs := by
    by_contra ha
    exact hne (eq_of_linked ha hab).symm
  have hb : b ∈ mentioned pairs := by
    by_contra hb
    exact hne (eq_of_linked hb hab.symm)
  rw [h.mem_iff, mem_mentioned_concat_iff, or_iff_left_of_imp]
  rintro (rfl | rfl)
  · exact ha
  · exact hb

/-- A pair that joins two components. -/
theorem concat_of_not_linked (hab : ¬ Linked pairs a b) :
    Components (pairs ++ [(a, b)]) ((groups.filter fun g => a ∉ g.names ∧ b ∉ g.names) ++
      [⟨fuse (groupOf groups a).tree (groupOf groups b).tree,
        (groupOf groups a).names ++ (groupOf groups b).names⟩]) := by
  have hother : ∀ g ∈ groups.filter fun g => a ∉ g.names ∧ b ∉ g.names,
      g ∈ groups ∧ (∀ x ∈ g.names, ¬ Linked pairs a x) ∧ ∀ x ∈ g.names, ¬ Linked pairs b x := by
    intro g hg
    obtain ⟨hg, hnot⟩ := List.mem_filter.mp hg
    obtain ⟨ha, hb⟩ := of_decide_eq_true hnot
    exact ⟨hg, fun x hx hax => ha ((h.linked_iff g hg x hx a).mp hax.symm),
      fun x hx hbx => hb ((h.linked_iff g hg x hx b).mp hbx.symm)⟩
  have hA := h.linked_iff_mem_groupOf a
  have hB := h.linked_iff_mem_groupOf b
  refine ⟨?_, ?_, fun x => ?_, ?_⟩
  · refine List.forall_mem_append.mpr ⟨fun g hg => h.leaves_eq g (hother g hg).1,
      List.forall_mem_singleton.mpr ?_⟩
    rw [leaves, h.leaves_groupOf, h.leaves_groupOf, List.map_append]
  · rw [List.flatMap_append, List.flatMap_singleton, List.nodup_append']
    refine ⟨h.nodup.sublist (List.filter_sublist.flatMap _), ?_, ?_⟩
    · refine List.nodup_append'.mpr ⟨h.nodup_groupOf a, h.nodup_groupOf b, fun x hxa hxb => hab ?_⟩
      exact ((hA x).mpr hxa).trans ((hB x).mpr hxb).symm
    · intro x hx hxnew
      obtain ⟨g, hg, hxg⟩ := List.mem_flatMap.mp hx
      obtain ⟨-, ha, hb⟩ := hother g hg
      rcases List.mem_append.mp hxnew with hxa | hxb
      · exact ha x hxg ((hA x).mpr hxa)
      · exact hb x hxg ((hB x).mpr hxb)
  · rw [List.flatMap_append, List.flatMap_singleton, List.mem_append, List.mem_append,
      mem_mentioned_concat_iff]
    constructor
    · rintro (hx | hxa | hxb)
      · obtain ⟨g, hg, hxg⟩ := List.mem_flatMap.mp hx
        exact .inl ((h.mem_iff x).mp (List.mem_flatMap.mpr ⟨g, (hother g hg).1, hxg⟩))
      · exact (h.mem_mentioned_of_mem_groupOf hxa).imp_right .inl
      · exact (h.mem_mentioned_of_mem_groupOf hxb).imp_right .inr
    · rintro (hx | rfl | rfl)
      · obtain ⟨g, hg, hxg⟩ := List.mem_flatMap.mp ((h.mem_iff x).mpr hx)
        by_cases ha : a ∈ g.names
        · exact .inr (.inl ((hA x).mp ((h.linked_iff g hg a ha x).mpr hxg)))
        by_cases hb : b ∈ g.names
        · exact .inr (.inr ((hB x).mp ((h.linked_iff g hg b hb x).mpr hxg)))
        exact .inl
          (List.mem_flatMap.mpr ⟨g, List.mem_filter.mpr ⟨hg, decide_eq_true ⟨ha, hb⟩⟩, hxg⟩)
      · exact .inr (.inl (h.mem_groupOf x))
      · exact .inr (.inr (h.mem_groupOf x))
  · refine List.forall_mem_append.mpr ⟨fun g hg x hx y => ?_, List.forall_mem_singleton.mpr
      fun x hx y => ?_⟩
    · obtain ⟨hg', ha, hb⟩ := hother g hg
      exact (linked_concat_iff_of_not_linked (ha x hx) (hb x hx)).trans (h.linked_iff g hg' x hx y)
    · rw [List.mem_append, ← hA, ← hB]
      apply linked_concat_iff_of_linked
      exact (List.mem_append.mp hx).imp (hA x).mpr (hB x).mpr

/-- The inner nodes of all trees are those of the two trees that are joined, and those of the
others. -/
theorem groupNodes_perm (hab : ¬ Linked pairs a b) :
    (groupNodes groups).Perm ((groupOf groups a).tree.nodes ++ ((groupOf groups b).tree.nodes ++
      groupNodes (groups.filter fun g => a ∉ g.names ∧ b ∉ g.names))) := by
  have hfilter : (groups.filter fun g => b ∈ g.names) =
      (groups.filter fun g => !decide (a ∈ g.names)).filter fun g => b ∈ g.names := by
    rw [List.filter_filter]
    refine List.filter_congr fun g hg => ?_
    by_cases hb : b ∈ g.names
    · have ha : a ∉ g.names := fun ha => hab ((h.linked_iff g hg a ha b).mpr hb)
      simp [ha, hb]
    · simp [hb]
  have hothers : (groups.filter fun g => a ∉ g.names ∧ b ∉ g.names) =
      (groups.filter fun g => !decide (a ∈ g.names)).filter fun g => !decide (b ∈ g.names) := by
    rw [List.filter_filter]
    refine List.filter_congr fun g _ => ?_
    simp [Bool.and_comm]
  rw [← groupNodes_filter h.nodup, ← groupNodes_filter h.nodup, hfilter, hothers]
  unfold groupNodes
  rw [← List.flatMap_append, ← List.flatMap_append]
  refine (List.Perm.trans ?_ (List.filter_append_perm (fun g => decide (a ∈ g.names))
    groups)).symm.flatMap_right _
  exact (List.filter_append_perm _ _).append_left _

/-- One pair turns components into components, and it adds an inner node exactly if it joins two of
them. -/
theorem joinPair (hne : a ≠ b) :
    ∃ groups' : List Group, ContractionTree.joinPair groups a b = .ok groups' ∧
      Components (pairs ++ [(a, b)]) groups' ∧ ∃ new : List (ContractionTree × ContractionTree),
        (groupNodes groups').Perm (groupNodes groups ++ new) ∧
        List.Forall₂ Splits (joiningPairs pairs [(a, b)]) new := by
  rw [ContractionTree.joinPair, if_neg hne]
  by_cases hab : Linked pairs a b
  · refine ⟨groups, if_pos ((h.linked_iff_mem_groupOf a b).mp hab),
      h.concat_of_linked hne hab, [], ?_, ?_⟩
    · rw [List.append_nil]
    · rw [joiningPairs, if_pos hab]
      exact .nil
  · refine ⟨_, if_neg (mt (h.linked_iff_mem_groupOf a b).mpr hab), h.concat_of_not_linked hab,
      [((groupOf groups a).tree, (groupOf groups b).tree)], ?_, ?_⟩
    · rw [groupNodes, List.flatMap_append, List.flatMap_singleton, nodes]
      refine List.perm_append_comm.trans (.trans ?_ (List.perm_append_singleton _ _).symm)
      rw [List.cons_append, List.append_assoc]
      exact (h.groupNodes_perm hab).symm.cons _
    · rw [joiningPairs, if_neg hab]
      refine .cons ⟨?_, ?_⟩ .nil
      · rw [h.leaves_groupOf]
        exact List.mem_map_of_mem (h.mem_groupOf a)
      · rw [h.leaves_groupOf]
        exact List.mem_map_of_mem (h.mem_groupOf b)

end

/-- The pairs of a list, one after the other, add an inner node for each pair that joins two
components. -/
theorem foldlM (h : Components earlier groups) (hdistinct : ∀ p ∈ pairs, p.1 ≠ p.2) :
    ∃ groups' : List Group,
      pairs.foldlM (fun groups pair => ContractionTree.joinPair groups pair.1 pair.2) groups =
        .ok groups' ∧
      Components (earlier ++ pairs) groups' ∧ ∃ new : List (ContractionTree × ContractionTree),
        (groupNodes groups').Perm (groupNodes groups ++ new) ∧
        List.Forall₂ Splits (joiningPairs earlier pairs) new := by
  induction pairs generalizing earlier groups with
  | nil =>
    refine ⟨groups, rfl, ?_, [], ?_, .nil⟩
    · rwa [List.append_nil]
    · rw [List.append_nil]
  | cons p pairs ih =>
    obtain ⟨hp, hpairs⟩ := List.forall_mem_cons.mp hdistinct
    obtain ⟨groups₁, hjoin, h₁, new₁, hperm₁, hsplits₁⟩ := h.joinPair hp
    obtain ⟨groups₂, hrun, h₂, new₂, hperm₂, hsplits₂⟩ := ih h₁ hpairs
    refine ⟨groups₂, ?_, ?_, new₁ ++ new₂, ?_, ?_⟩
    · rw [List.foldlM_cons, hjoin]
      exact hrun
    · rwa [List.append_assoc] at h₂
    · rw [← List.append_assoc]
      exact hperm₂.trans (hperm₁.append_right new₂)
    · rw [joiningPairs_cons]
      exact List.rel_append hsplits₁ hsplits₂

/-- There is one group if and only if the pairs are connected. -/
theorem isConnected_iff (h : Components pairs groups) (hpairs : pairs ≠ []) :
    IsConnected pairs ↔ ∃ g : Group, groups = [g] := by
  have hnonempty : ∀ g ∈ groups, ∃ x, x ∈ g.names := by
    intro g hg
    apply List.exists_mem_of_length_pos
    rw [← List.length_map some, ← h.leaves_eq g hg]
    exact g.tree.length_leaves_pos
  constructor
  · intro hconnected
    rcases groups with _ | ⟨g, _ | ⟨g', groups⟩⟩
    · obtain ⟨p, hp⟩ := List.exists_mem_of_ne_nil pairs hpairs
      cases (h.mem_iff p.1).mpr (List.mem_flatMap.mpr ⟨p, hp, List.mem_cons_self⟩)
    · exact ⟨g, rfl⟩
    · have hg' : g' ∈ g :: g' :: groups := List.mem_cons_of_mem _ List.mem_cons_self
      obtain ⟨x, hx⟩ := hnonempty g List.mem_cons_self
      obtain ⟨y, hy⟩ := hnonempty g' hg'
      have hlinked :=
        hconnected x ((h.mem_iff x).mp (List.mem_flatMap.mpr ⟨g, List.mem_cons_self, hx⟩)) y
        ((h.mem_iff y).mp (List.mem_flatMap.mpr ⟨g', hg', hy⟩))
      have hnodup := h.nodup
      rw [List.flatMap_cons, List.nodup_append'] at hnodup
      refine absurd ((h.linked_iff g List.mem_cons_self x hx y).mp hlinked) fun hyg => ?_
      exact hnodup.2.2 hyg (List.mem_flatMap.mpr ⟨g', List.mem_cons_self, hy⟩)
  · rintro ⟨g, rfl⟩ x hx y hy
    have hmem : ∀ x, x ∈ mentioned pairs → x ∈ g.names :=
      fun x hx => by simpa using (h.mem_iff x).mpr hx
    exact (h.linked_iff g List.mem_cons_self x (hmem x hx) y).mpr (hmem y hy)

end Components

theorem ofPairs_of_single {g : Group} (hpairs : pairs ≠ [])
    (hrun : pairs.foldlM (fun groups pair => joinPair groups pair.1 pair.2) [] = .ok [g]) :
    ofPairs pairs = .ok g.tree := by
  rw [ofPairs, if_neg (by simpa using hpairs), hrun]
  rfl

theorem ofPairs_of_not_single {groups : List Group} (hpairs : pairs ≠ [])
    (hrun : pairs.foldlM (fun groups pair => joinPair groups pair.1 pair.2) [] = .ok groups)
    (hgroups : ¬ ∃ g : Group, groups = [g]) : ofPairs pairs = .error .disconnectedOrder := by
  rw [ofPairs, if_neg (by simpa using hpairs), hrun]
  rcases groups with _ | ⟨g, _ | ⟨g', groups⟩⟩
  · rfl
  · exact absurd ⟨g, rfl⟩ hgroups
  · rfl

/-- **Pairs in order make a tree of what they connect.**  Pairs of distinct names, at least one, are
contracted to a tree if and only if they are connected, and otherwise the order is refused.  The
leaves of the tree are the names, each once.  Its inner nodes correspond to the pairs that were not
linked by the pairs before them, and the names of such a pair stand on the two sides of its node. -/
theorem ofPairs_contracts_components (hpairs : pairs ≠ []) (hdistinct : ∀ p ∈ pairs, p.1 ≠ p.2) :
    ((∃ tree : ContractionTree, ofPairs pairs = .ok tree) ↔ IsConnected pairs) ∧
    (¬ IsConnected pairs → ∃ e : Error, ofPairs pairs = .error e ∧ e.kind = .value) ∧
    ∀ tree : ContractionTree, ofPairs pairs = .ok tree → tree.leaves.Nodup ∧
      (∀ leaf, leaf ∈ tree.leaves ↔ ∃ name ∈ mentioned pairs, leaf = some name) ∧
      ∃ inner : List (ContractionTree × ContractionTree),
        inner.Perm tree.nodes ∧ List.Forall₂ Splits (joiningPairs [] pairs) inner := by
  obtain ⟨groups, hrun, hgroups, inner, hperm, hsplits⟩ := components_nil.foldlM hdistinct
  rw [List.nil_append] at hgroups
  have hconnected := hgroups.isConnected_iff hpairs
  by_cases hone : ∃ g : Group, groups = [g]
  · obtain ⟨g, rfl⟩ := hone
    have hok := ofPairs_of_single hpairs hrun
    have hnames := hgroups.leaves_eq g List.mem_cons_self
    refine ⟨iff_of_true ⟨g.tree, hok⟩ (hconnected.mpr ⟨g, rfl⟩), fun hnot =>
      absurd (hconnected.mpr ⟨g, rfl⟩) hnot, ?_⟩
    intro tree htree
    obtain rfl := Except.ok.inj (hok.symm.trans htree)
    have hnodup := hgroups.nodup
    have hmem := hgroups.mem_iff
    rw [List.flatMap_singleton] at hnodup
    simp only [List.flatMap_singleton] at hmem
    rw [hnames]
    refine ⟨hnodup.map (Option.some_injective _), fun leaf => ?_, inner, ?_, hsplits⟩
    · rw [List.mem_map]
      simp only [hmem, eq_comm]
    · rw [groupNodes, List.flatMap_singleton] at hperm
      exact hperm.symm
  · have herror := ofPairs_of_not_single hpairs hrun hone
    refine ⟨iff_of_false ?_ (mt hconnected.mp hone), fun _ => ⟨_, herror, rfl⟩,
      fun tree htree => ?_⟩
    · rintro ⟨tree, htree⟩
      cases herror.symm.trans htree
    · cases herror.symm.trans htree

/-- Pairs of five names.  The third pair has been contracted before, and the fourth joins two
groups. -/
def chainPairs : List (String × String) :=
  [("A", "B"), ("C", "D"), ("B", "A"), ("D", "B"), ("A", "E")]

/-- The tree of these pairs. -/
def chainTree : ContractionTree :=
  .fuse (.fuse (.fuse (.leaf (some "C")) (.leaf (some "D")))
    (.fuse (.leaf (some "A")) (.leaf (some "B")))) (.leaf (some "E"))

/-- The pairs of the five names are connected, and they are contracted to a tree. -/
theorem ofPairs_contracts_components_chainPairs :
    chainPairs ≠ [] ∧ (∀ p ∈ chainPairs, p.1 ≠ p.2) ∧ ofPairs chainPairs = .ok chainTree ∧
      IsConnected chainPairs ∧
    ∃ inner : List (ContractionTree × ContractionTree),
      inner.Perm chainTree.nodes ∧ List.Forall₂ Splits (joiningPairs [] chainPairs) inner := by
  have hpairs : chainPairs ≠ [] := by decide
  have hdistinct : ∀ p ∈ chainPairs, p.1 ≠ p.2 := by decide
  have htree : ofPairs chainPairs = .ok chainTree := by rfl
  obtain ⟨hconnected, -, hshape⟩ := ofPairs_contracts_components hpairs hdistinct
  exact ⟨hpairs, hdistinct, htree, hconnected.mp ⟨chainTree, htree⟩, (hshape chainTree htree).2.2⟩

/-- Pairs that are not connected are refused. -/
example : ofPairs [("A", "B"), ("C", "D"), ("B", "A")] = .error .disconnectedOrder := by
  rfl

end TensorDiagram.ContractionTree
