import TensorDiagram.Proofs.Nesting

/-!
# Products along a tree

The tensors of a product are kept in a table under their names while they are contracted along a
tree.  Two entries are taken out, and their product goes in under a name that is made of theirs.  If
another entry has this very name it is displaced, and then the table is too short for the
contractions that are left.

So a run that comes to its end has displaced nothing, and it has put together a nested product of
exactly the shape of the tree (`contractAlong_spec`).  The invariant splits the table: before the
run, it is made of the entries at the leaves and of others, and afterwards of one entry for the
whole tree and of the same others.

Names that are made of names without brackets and commas can be read in one way only
(`leafTexts_eq_of_resultName_eq`).  They never displace an entry, and such runs always come to their
end (`exists_contractAlong`).
-/

namespace TensorDiagram

namespace ContractionTree

variable {rest : List Char}

/-- The name under which the product along the tree is entered. -/
def resultName : ContractionTree → String
  | leaf name => leafText name
  | fuse left right => "(" ++ left.resultName ++ ", " ++ right.resultName ++ ")"

/-- The texts of the names at the leaves, from left to right. -/
def leafTexts (tree : ContractionTree) : List String :=
  tree.leaves.map leafText

/-- The leaves of a node are those of its subtrees. -/
theorem leafTexts_fuse (left right : ContractionTree) :
    (fuse left right).leafTexts = left.leafTexts ++ right.leafTexts := by
  rw [leafTexts, leaves, List.map_append]
  rfl

/-- There is a text for each leaf. -/
theorem length_leafTexts (tree : ContractionTree) : tree.leafTexts.length = tree.leaves.length :=
  List.length_map _

/-- Every tree has leaves. -/
theorem length_leaves_pos (tree : ContractionTree) : 0 < tree.leaves.length := by
  induction tree with
  | leaf name => exact Nat.one_pos
  | fuse left right ihleft ihright =>
    rw [leaves, List.length_append]
    omega

/-! ## Names that can be read in one way only -/

/-- A character of a name that has no part in the form of made names. -/
def IsPlainChar (c : Char) : Prop :=
  c ≠ '(' ∧ c ≠ ')' ∧ c ≠ ','

instance (c : Char) : Decidable (IsPlainChar c) :=
  inferInstanceAs (Decidable (_ ∧ _))

/-- No name at a leaf has a bracket or a comma in it. -/
def HasPlainNames (tree : ContractionTree) : Prop :=
  ∀ text ∈ tree.leafTexts, ∀ c ∈ text.toList, IsPlainChar c

instance (tree : ContractionTree) : Decidable tree.HasPlainNames :=
  inferInstanceAs (Decidable (∀ text ∈ _, ∀ c ∈ _, IsPlainChar c))

/-- What comes behind a name within a made name. -/
def EndsName (rest : List Char) : Prop :=
  ∀ c ∈ rest.head?, c = ',' ∨ c = ')'

/-- The names of a node are plain if those of its subtrees are. -/
theorem hasPlainNames_fuse_iff {left right : ContractionTree} :
    (fuse left right).HasPlainNames ↔ left.HasPlainNames ∧ right.HasPlainNames := by
  unfold HasPlainNames
  rw [leafTexts_fuse, List.forall_mem_append]

/-- The name of a node, character by character. -/
theorem toList_resultName_fuse (left right : ContractionTree) (rest : List Char) :
    (fuse left right).resultName.toList ++ rest =
      '(' :: (left.resultName.toList ++ ',' :: ' ' ::
        (right.resultName.toList ++ ')' :: rest)) := by
  simp [resultName]

/-- A plain name is read up to where it ends. -/
theorem takeWhile_plain {name : List Char} (hname : ∀ c ∈ name, IsPlainChar c)
    (hrest : EndsName rest) : (name ++ rest).takeWhile (fun c => IsPlainChar c) = name := by
  have hend : rest.takeWhile (fun c => IsPlainChar c) = [] := by
    cases rest with
    | nil => rfl
    | cons c rest =>
      apply List.takeWhile_cons_of_neg
      rcases hrest c rfl with rfl | rfl <;> decide
  rw [List.takeWhile_append_of_pos fun c hc => decide_eq_true (hname c hc), hend, List.append_nil]

/-- A plain name does not begin like a made one. -/
theorem plain_append_ne {name tail : List Char} (hname : ∀ c ∈ name, IsPlainChar c)
    (hrest : EndsName rest) : name ++ rest ≠ '(' :: tail := by
  intro h
  cases name with
  | nil =>
    rw [List.nil_append] at h
    rcases hrest '(' (by rw [h]; rfl) with heq | heq <;> exact absurd heq (by decide)
  | cons c name =>
    obtain ⟨rfl, -⟩ := List.cons.inj h
    exact (hname '(' List.mem_cons_self).1 rfl

/-- A made name, with anything behind it, can be read in one way only. -/
theorem leafTexts_eq_of_append_eq {tree tree' : ContractionTree} (htree : tree.HasPlainNames)
    (htree' : tree'.HasPlainNames) {rest' : List Char} (hrest : EndsName rest)
    (hrest' : EndsName rest')
    (h : tree.resultName.toList ++ rest = tree'.resultName.toList ++ rest') :
    tree.leafTexts = tree'.leafTexts ∧ rest = rest' := by
  induction tree generalizing tree' rest rest' with
  | leaf name =>
    have hname : ∀ c ∈ (leafText name).toList, IsPlainChar c := htree _ List.mem_cons_self
    cases tree' with
    | leaf name' =>
      have hname' : ∀ c ∈ (leafText name').toList, IsPlainChar c := htree' _ List.mem_cons_self
      have heq : (leafText name).toList = (leafText name').toList := by
        rw [← takeWhile_plain hname hrest, ← takeWhile_plain hname' hrest']
        exact congrArg _ h
      refine ⟨congrArg (fun text => [text]) (String.toList_injective heq), ?_⟩
      rw [resultName, resultName, heq] at h
      exact List.append_cancel_left h
    | fuse left right =>
      rw [toList_resultName_fuse] at h
      exact absurd h (plain_append_ne hname hrest)
  | fuse left right ihleft ihright =>
    obtain ⟨hleft, hright⟩ := hasPlainNames_fuse_iff.mp htree
    rw [toList_resultName_fuse] at h
    cases tree' with
    | leaf name' => exact absurd h.symm (plain_append_ne (htree' _ List.mem_cons_self) hrest')
    | fuse left' right' =>
      obtain ⟨hleft', hright'⟩ := hasPlainNames_fuse_iff.mp htree'
      rw [toList_resultName_fuse, List.cons.injEq] at h
      have hcomma : ∀ rest : List Char, EndsName (',' :: rest) := by simp [EndsName]
      have hclose : ∀ rest : List Char, EndsName (')' :: rest) := by simp [EndsName]
      obtain ⟨htexts, h⟩ := ihleft hleft hleft' (hcomma _) (hcomma _) h.2
      rw [List.cons.injEq, List.cons.injEq] at h
      obtain ⟨htexts', h⟩ := ihright hright hright' (hclose _) (hclose _) h.2.2
      rw [leafTexts_fuse, leafTexts_fuse, htexts, htexts']
      exact ⟨rfl, (List.cons.inj h).2⟩

/-- Trees with plain names that are contracted to the same name have the same leaves. -/
theorem leafTexts_eq_of_resultName_eq {tree tree' : ContractionTree} (htree : tree.HasPlainNames)
    (htree' : tree'.HasPlainNames) (h : tree.resultName = tree'.resultName) :
    tree.leafTexts = tree'.leafTexts := by
  have hnil : EndsName [] := by simp [EndsName]
  exact (leafTexts_eq_of_append_eq htree htree' hnil hnil (by rw [h])).1

end ContractionTree

open ContractionTree

namespace Diagram

variable {d : Diagram} {table table' entries : Table String Diagram} {name : Option String}

/-! ## The table of factors -/

/-- A scalar is not a general tensor. -/
theorem general?_of_isScalar (d : Diagram) (h : d.isScalar = true) : d.general? = none := by
  induction d with
  | ref t => cases h
  | conj a ih =>
    rw [general?, ih h]
    rfl
  | product a b rest iha ihb ih =>
    rw [isScalar, Bool.and_eq_true, Bool.and_eq_true] at h
    obtain ⟨⟨ha, hb⟩, hrest⟩ := h
    have hfactors : generalFactors? rest = some ⟨[], rest⟩ := by
      clear iha ihb
      induction rest with
      | nil => rfl
      | cons d rest ihrest =>
        rw [allScalar, Bool.and_eq_true] at hrest
        rw [List.forall_mem_cons] at ih
        rw [generalFactors?, ih.1 hrest.1, ihrest ih.2 hrest.2, factorParts?, if_pos hrest.1]
        rfl
    rw [general?, iha ha, ihb hb, hfactors, factorParts?, factorParts?, if_pos ha, if_pos hb]
    rfl
  | _ => rfl

/-- Whether the diagram is a scalar or a general tensor. -/
def IsSimple (d : Diagram) : Prop :=
  d.isScalar = true ∨ d.isGeneral = true

instance (d : Diagram) : Decidable d.IsSimple :=
  inferInstanceAs (Decidable (_ ∨ _))

/-- The name of a factor that is a general tensor. -/
def factorName? (d : Diagram) : Option String :=
  d.general?.map fun g => g.term.factorName

/-- The general tensors among the factors, under their names. -/
def namedFactors (factors : List Diagram) : Table String Diagram :=
  factors.filterMap fun d => d.factorName?.map fun name => (name, d)

/-- A scalar has no name. -/
theorem factorName?_of_isScalar (h : d.isScalar = true) : d.factorName? = none := by
  unfold factorName?
  rw [general?_of_isScalar d h]
  rfl

/-- A simple factor without a name is a scalar. -/
theorem IsSimple.isScalar_of_factorName? (hd : d.IsSimple) (h : d.factorName? = none) :
    d.isScalar = true := by
  refine hd.resolve_right fun hgeneral => ?_
  obtain ⟨g, hg⟩ := Option.isSome_iff_exists.mp hgeneral
  rw [factorName?, hg] at h
  cases h

/-- A factor without a name is left out. -/
theorem namedFactors_cons_of_eq_none (h : d.factorName? = none) (factors : List Diagram) :
    namedFactors (d :: factors) = namedFactors factors :=
  List.filterMap_cons_none (by rw [h]; rfl)

/-- A factor with a name is listed under it. -/
theorem namedFactors_cons_of_eq_some {name : String} (h : d.factorName? = some name)
    (factors : List Diagram) : namedFactors (d :: factors) = (name, d) :: namedFactors factors :=
  List.filterMap_cons_some (by rw [h]; rfl)

/-- Factors are listed under their names. -/
theorem factorName?_of_mem_namedFactors {factors : List Diagram} {entry : String × Diagram}
    (h : entry ∈ namedFactors factors) : entry.2.factorName? = some entry.1 := by
  obtain ⟨d, -, hd⟩ := List.mem_filterMap.mp h
  obtain ⟨name, hname, rfl⟩ := Option.map_eq_some_iff.mp hd
  exact hname

/-- The names of the factors. -/
theorem keys_namedFactors (factors : List Diagram) :
    (namedFactors factors).keys = factors.filterMap factorName? := by
  induction factors with
  | nil => rfl
  | cons d factors ih =>
    rcases h : d.factorName? with _ | name
    · rw [namedFactors_cons_of_eq_none h, List.filterMap_cons_none h, ih]
    · rw [namedFactors_cons_of_eq_some h, List.filterMap_cons_some h, ← ih]
      rfl

/-- Factors can be sorted if each is a scalar or a general tensor, and no two of the tensors have
one name.  Scalars and tensors stay in their order. -/
theorem sortFactors?_eq_some_iff {factors : List Diagram} {sorted result : SortedFactors}
    (hkeys : sorted.tensors.keys.Nodup) :
    sortFactors? sorted factors = some result ↔ (∀ d ∈ factors, d.IsSimple) ∧
      (Table.keys (sorted.tensors ++ namedFactors factors)).Nodup ∧
      result =
        ⟨sorted.scalars ++ factors.filter isScalar, sorted.tensors ++ namedFactors factors⟩ := by
  induction factors generalizing sorted with
  | nil =>
    have hnil : namedFactors [] = [] := rfl
    rw [sortFactors?, hnil, List.append_nil, List.filter_nil, List.append_nil]
    exact ⟨fun h => ⟨by simp, hkeys, (Option.some.inj h).symm⟩, fun h => congrArg some h.2.2.symm⟩
  | cons d factors ih =>
    rw [sortFactors?, List.forall_mem_cons]
    by_cases hscalar : d.isScalar = true
    · have hsimple : d.IsSimple := .inl hscalar
      rw [if_pos hscalar, @ih ⟨sorted.scalars ++ [d], sorted.tensors⟩ hkeys, and_iff_right hsimple,
        namedFactors_cons_of_eq_none (factorName?_of_isScalar hscalar),
        List.filter_cons_of_pos hscalar, List.append_assoc, List.singleton_append]
    · rw [if_neg hscalar, List.filter_cons_of_neg hscalar]
      rcases hgeneral : d.general? with _ | g
      · have hsimple : ¬ d.IsSimple := by
          rintro (h | h)
          · exact hscalar h
          · rw [isGeneral, hgeneral] at h
            cases h
        exact iff_of_false (by rintro ⟨⟩) fun h => hsimple h.1.1
      · have hsimple : d.IsSimple := .inr (by rw [isGeneral, hgeneral]; rfl)
        have hname : d.factorName? = some g.term.factorName := by
          rw [factorName?, hgeneral]
          rfl
        rw [and_iff_right hsimple, namedFactors_cons_of_eq_some hname]
        dsimp only
        by_cases hold : g.term.factorName ∈ sorted.tensors.keys
        · rw [if_pos (Table.has_iff_mem_keys.mpr hold)]
          refine iff_of_false (by rintro ⟨⟩) fun h => ?_
          have hnodup := h.2.1
          rw [Table.keys, List.map_append, List.nodup_append] at hnodup
          exact hnodup.2.2 _ hold _ List.mem_cons_self rfl
        · have hput : (sorted.tensors.put g.term.factorName d).keys =
              sorted.tensors.keys ++ [g.term.factorName] := by
            rw [Table.keys_put, if_neg hold]
          rw [if_neg (mt Table.has_iff_mem_keys.mp hold), ih (by
            rw [hput]
            exact hkeys.append (List.nodup_singleton _) (by simpa using hold)),
            Table.put_eq_append hold, List.append_assoc, List.singleton_append]

/-! ## Contractions along a tree -/

/-- The diagram is a nested product of the shape of the tree, with these factors at the leaves. -/
inductive NestsAs : ContractionTree → List Diagram → Diagram → Prop
  /-- A factor. -/
  | leaf (name : Option String) (d : Diagram) : NestsAs (.leaf name) [d] d
  /-- A product of two. -/
  | fuse {left right : ContractionTree} {ds es : List Diagram} {a b : Diagram}
      (ha : NestsAs left ds a) (hb : NestsAs right es b) :
      NestsAs (.fuse left right) (ds ++ es) (.pair a b)

/-- Taking a factor leaves one entry less. -/
theorem length_of_takeFactor {rest : Table String Diagram}
    (h : takeFactor name table = .ok (d, rest)) : rest.length + 1 = table.length := by
  rw [takeFactor] at h
  rcases hfind : table.find? (leafText name) with _ | x
  · rw [hfind] at h
    cases h
  · rw [hfind] at h
    obtain ⟨-, rfl⟩ := Prod.mk.inj (Except.ok.inj h)
    exact (Table.perm_cons_erase hfind).length_eq.symm

/-- An entry makes a table longer by one at most. -/
theorem length_put_le (table : Table String Diagram) (name : String) (d : Diagram) :
    (table.put name d).length ≤ table.length + 1 := by
  induction table with
  | nil => exact le_rfl
  | cons entry table ih =>
    rw [Table.put]
    split_ifs
    · simp
    · simpa using ih

/-- A product that makes the table longer displaces nothing. -/
theorem not_mem_keys_of_length_put {name : String}
    (h : (table.put name d).length = table.length + 1) : name ∉ table.keys := by
  intro hname
  have hkeys := congrArg List.length (Table.keys_put table name d)
  rw [if_pos hname, Table.keys, Table.keys, List.length_map, List.length_map] at hkeys
  omega

/-- An entry of a table without repeated keys is taken out, and the others stay. -/
theorem takeFactor_of_perm {rest : Table String Diagram} (hkeys : table.keys.Nodup)
    (hperm : List.Perm table ((leafText name, d) :: rest)) :
    ∃ table' : Table String Diagram, takeFactor name table = .ok (d, table') ∧
      List.Perm table' rest ∧ table'.keys.Nodup := by
  have hfind : table.find? (leafText name) = some d :=
    Table.find?_eq_some_of_mem hkeys (hperm.mem_iff.mpr List.mem_cons_self)
  have herase := Table.perm_cons_erase hfind
  refine ⟨table.erase (leafText name), by rw [takeFactor, hfind],
    (herase.symm.trans hperm).cons_inv, ?_⟩
  exact ((herase.map Prod.fst).nodup_iff.mp hkeys).of_cons

/-- The contractions of two trees, and then of their results. -/
theorem contractAlong_fuse_eq_ok_iff {left right : ContractionTree} :
    contractAlong (.fuse left right) table = .ok (name, table') ↔
      ∃ (a b : Option String) (x y : Diagram) (table₁ table₂ table₃ table₄ : Table String Diagram),
        contractAlong left table = .ok (a, table₁) ∧ contractAlong right table₁ = .ok (b, table₂) ∧
        takeFactor a table₂ = .ok (x, table₃) ∧ takeFactor b table₃ = .ok (y, table₄) ∧
        name = some (fusedName a b) ∧ table' = table₄.put (fusedName a b) (pair x y) := by
  rw [contractAlong]
  constructor
  · intro h
    obtain ⟨⟨a, table₁⟩, ha, h⟩ := bind_eq_ok_iff.mp h
    obtain ⟨⟨b, table₂⟩, hb, h⟩ := bind_eq_ok_iff.mp h
    obtain ⟨⟨x, table₃⟩, hx, h⟩ := bind_eq_ok_iff.mp h
    obtain ⟨⟨y, table₄⟩, hy, h⟩ := bind_eq_ok_iff.mp h
    obtain ⟨hname, htable⟩ := Prod.mk.inj (Except.ok.inj h)
    exact ⟨a, b, x, y, table₁, table₂, table₃, table₄, ha, hb, hx, hy, hname.symm, htable.symm⟩
  · rintro ⟨a, b, x, y, table₁, table₂, table₃, table₄, ha, hb, hx, hy, rfl, rfl⟩
    refine bind_eq_ok_iff.mpr ⟨_, ha, bind_eq_ok_iff.mpr ⟨_, hb, ?_⟩⟩
    exact bind_eq_ok_iff.mpr ⟨_, hx, bind_eq_ok_iff.mpr ⟨_, hy, rfl⟩⟩

/-- Contractions along a tree leave no more entries than leaves are to be contracted. -/
theorem length_contractAlong_le {tree : ContractionTree}
    (h : contractAlong tree table = .ok (name, table')) :
    table'.length + tree.leaves.length ≤ table.length + 1 := by
  induction tree generalizing table table' name with
  | leaf leaf =>
    obtain ⟨-, rfl⟩ := Prod.mk.inj (Except.ok.inj h)
    exact le_rfl
  | fuse left right ihleft ihright =>
    obtain ⟨a, b, x, y, table₁, table₂, table₃, table₄, ha, hb, hx, hy, -, rfl⟩ :=
      contractAlong_fuse_eq_ok_iff.mp h
    have ha' := ihleft ha
    have hb' := ihright hb
    have hx' := length_of_takeFactor hx
    have hy' := length_of_takeFactor hy
    have hput := length_put_le table₄ (fusedName a b) (pair x y)
    rw [leaves, List.length_append]
    omega

/-- A run that displaces no entry turns the entries at the leaves into a nested product of the shape
of the tree, and leaves all others as they are. -/
theorem contractAlong_spec {tree : ContractionTree} {others : Table String Diagram}
    (hperm : List.Perm table (entries ++ others)) (hkeys : table.keys.Nodup)
    (hentries : entries.keys = tree.leafTexts)
    (hrun : contractAlong tree table = .ok (name, table'))
    (hlength : table'.length + tree.leaves.length = table.length + 1) :
    leafText name = tree.resultName ∧ table'.keys.Nodup ∧ ∃ d : Diagram,
      List.Perm table' ((tree.resultName, d) :: others) ∧
        NestsAs tree (entries.map Prod.snd) d := by
  induction tree generalizing table table' entries others name with
  | leaf leaf =>
    obtain ⟨rfl, rfl⟩ := Prod.mk.inj (Except.ok.inj hrun)
    obtain ⟨⟨key, d⟩, rfl, rfl⟩ := List.map_eq_singleton_iff.mp hentries
    exact ⟨rfl, hkeys, d, hperm, .leaf leaf d⟩
  | fuse left right ihleft ihright =>
    obtain ⟨a, b, x, y, table₁, table₂, table₃, table₄, ha, hb, hx, hy, rfl, rfl⟩ :=
      contractAlong_fuse_eq_ok_iff.mp hrun
    -- no step has lost an entry
    have ha' := length_contractAlong_le ha
    have hb' := length_contractAlong_le hb
    have hx' := length_of_takeFactor hx
    have hy' := length_of_takeFactor hy
    have hput := length_put_le table₄ (fusedName a b) (pair x y)
    rw [leaves, List.length_append] at hlength
    rw [leafTexts_fuse] at hentries
    obtain ⟨entriesL, entriesR, rfl, hentriesL, hentriesR⟩ := List.map_eq_append_iff.mp hentries
    rw [List.append_assoc] at hperm
    obtain ⟨haname, hkeys₁, d, hperm₁, hd⟩ := ihleft hperm hkeys hentriesL ha (by omega)
    have hperm₁' := hperm₁.trans List.perm_middle.symm
    obtain ⟨hbname, hkeys₂, e, hperm₂, he⟩ := ihright hperm₁' hkeys₁ hentriesR hb (by omega)
    rw [← haname, ← hbname] at hperm₂
    obtain ⟨_, hx'', hperm₃, hkeys₃⟩ := takeFactor_of_perm hkeys₂ (hperm₂.trans (.swap _ _ _))
    obtain ⟨rfl, rfl⟩ := Prod.mk.inj (Except.ok.inj (hx.symm.trans hx''))
    obtain ⟨_, hy'', hperm₄, hkeys₄⟩ := takeFactor_of_perm hkeys₃ hperm₃
    obtain ⟨rfl, rfl⟩ := Prod.mk.inj (Except.ok.inj (hy.symm.trans hy''))
    have hnew : fusedName a b ∉ table₄.keys := not_mem_keys_of_length_put (d := pair x y) (by omega)
    have hname : fusedName a b = (fuse left right).resultName := by
      rw [fusedName, haname, hbname, resultName]
    have hperm₅ : List.Perm (table₄ ++ [(fusedName a b, pair x y)])
        ((fusedName a b, pair x y) :: others) :=
      (List.perm_append_singleton _ _).trans (hperm₄.cons _)
    have hkeys₅ := Table.keys_put table₄ (fusedName a b) (pair x y)
    rw [if_neg hnew] at hkeys₅
    rw [Table.put_eq_append hnew] at hkeys₅ ⊢
    rw [List.map_append, ← hname]
    refine ⟨rfl, ?_, pair x y, hperm₅, .fuse hd he⟩
    rw [hkeys₅]
    exact hkeys₄.append (List.nodup_singleton _) (by simpa using hnew)

/-- Contractions along a tree with plain names displace no entry, if the other entries stand for
trees with plain names and with other leaves. -/
theorem exists_contractAlong {tree : ContractionTree} {others : Table String Diagram}
    (hperm : List.Perm table (entries ++ others)) (hkeys : table.keys.Nodup)
    (hentries : entries.keys = tree.leafTexts) (hplain : tree.HasPlainNames)
    (hothers : ∀ key ∈ others.keys, ∃ other : ContractionTree, other.HasPlainNames ∧
      other.resultName = key ∧ other.leafTexts.Disjoint tree.leafTexts) :
    ∃ (name : Option String) (table' : Table String Diagram), contractAlong tree table =
      .ok (name, table') ∧ table'.length + tree.leaves.length = table.length + 1 := by
  induction tree generalizing table entries others with
  | leaf leaf => exact ⟨leaf, table, rfl, rfl⟩
  | fuse left right ihleft ihright =>
    obtain ⟨hleft, hright⟩ := hasPlainNames_fuse_iff.mp hplain
    rw [leafTexts_fuse] at hentries hothers
    obtain ⟨entriesL, entriesR, rfl, hentriesL, hentriesR⟩ := List.map_eq_append_iff.mp hentries
    rw [List.append_assoc] at hperm
    have hdisjoint : left.leafTexts.Disjoint right.leafTexts := by
      have hnodup := (hperm.map Prod.fst).nodup_iff.mp hkeys
      rw [List.map_append, List.map_append, ← List.append_assoc, hentriesL, hentriesR] at hnodup
      exact List.disjoint_of_nodup_append hnodup.of_append_left
    obtain ⟨a, table₁, ha, hlength₁⟩ := ihleft hperm hkeys hentriesL hleft (by
      intro key hkey
      rw [Table.keys, List.map_append, List.mem_append, hentriesR] at hkey
      rcases hkey with hkey | hkey
      · obtain ⟨leaf, -, rfl⟩ := List.mem_map.mp hkey
        refine ⟨.leaf leaf, fun text htext => ?_, rfl, fun text htext htext' => ?_⟩ <;>
          obtain rfl := List.mem_singleton.mp htext
        · exact hright _ hkey
        · exact hdisjoint htext' hkey
      · obtain ⟨other, hother, rfl, hapart⟩ := hothers key hkey
        exact ⟨other, hother, rfl, fun text h h' => hapart h (List.mem_append_left _ h')⟩)
    obtain ⟨haname, hkeys₁, d, hperm₁, -⟩ := contractAlong_spec hperm hkeys hentriesL ha hlength₁
    have hperm₁' := hperm₁.trans List.perm_middle.symm
    obtain ⟨b, table₂, hb, hlength₂⟩ := ihright hperm₁' hkeys₁ hentriesR hright (by
      intro key hkey
      rcases List.mem_cons.mp hkey with rfl | hkey
      · exact ⟨left, hleft, rfl, hdisjoint⟩
      · obtain ⟨other, hother, rfl, hapart⟩ := hothers key hkey
        exact ⟨other, hother, rfl, fun text h h' => hapart h (List.mem_append_right _ h')⟩)
    obtain ⟨hbname, hkeys₂, e, hperm₂, -⟩ := contractAlong_spec hperm₁' hkeys₁ hentriesR hb hlength₂
    rw [← haname, ← hbname] at hperm₂
    obtain ⟨table₃, hx, hperm₃, hkeys₃⟩ := takeFactor_of_perm hkeys₂ (hperm₂.trans (.swap _ _ _))
    obtain ⟨table₄, hy, hperm₄, -⟩ := takeFactor_of_perm hkeys₃ hperm₃
    have hname : fusedName a b = (fuse left right).resultName := by
      rw [fusedName, haname, hbname, resultName]
    -- an entry under this name would stand for a tree with the same leaves
    have hnew : fusedName a b ∉ table₄.keys := by
      intro hmem
      obtain ⟨other, hother, heq, hapart⟩ := hothers _ ((hperm₄.map Prod.fst).mem_iff.mp hmem)
      rw [leafTexts_eq_of_resultName_eq hother hplain (heq.trans hname), leafTexts_fuse] at hapart
      have hpos := left.length_leaves_pos
      rw [← length_leafTexts] at hpos
      have hfirst : left.leafTexts.get ⟨0, hpos⟩ ∈ left.leafTexts ++ right.leafTexts :=
        List.mem_append_left _ (List.get_mem _ _)
      exact hapart hfirst hfirst
    refine ⟨some (fusedName a b), table₄.put (fusedName a b) (pair d e), ?_, ?_⟩
    · exact contractAlong_fuse_eq_ok_iff.mpr ⟨a, b, d, e, table₁, table₂, table₃, table₄, ha, hb,
        hx, hy, rfl, rfl⟩
    · have hx' := length_of_takeFactor hx
      have hy' := length_of_takeFactor hy
      rw [Table.put_eq_append hnew, List.length_append, leaves, List.length_append,
        List.length_singleton]
      omega

/-- A factor can only be missing. -/
theorem takeFactor_failsWith (name : Option String) (table : Table String Diagram) :
    FailsWith (· = .missing) (takeFactor name table) := by
  rw [takeFactor]
  cases table.find? (leafText name) with
  | none => exact .error rfl
  | some d => exact .ok _

/-- Contractions fail only if an entry is missing. -/
theorem contractAlong_failsWith (tree : ContractionTree) (table : Table String Diagram) :
    FailsWith (· = .missing) (contractAlong tree table) := by
  induction tree generalizing table with
  | leaf name => exact .ok _
  | fuse left right ihleft ihright =>
    rw [contractAlong]
    refine (ihleft table).bind fun a => (ihright a.2).bind fun b => ?_
    exact (takeFactor_failsWith a.1 b.2).bind fun x => (takeFactor_failsWith b.1 x.2).bind
      fun y => .ok _

/-! ## Products that match a tree -/

/-- The factors are scalars and general tensors, and the names of the tensors are those at the
leaves of the tree, each as often as there. -/
def MatchesTree (factors : List Diagram) (tree : ContractionTree) : Prop :=
  (∀ d ∈ factors, d.IsSimple) ∧ ((factors.filterMap factorName?).map some).Perm tree.leaves

instance (factors : List Diagram) (tree : ContractionTree) : Decidable (MatchesTree factors tree) :=
  inferInstanceAs (Decidable (_ ∧ _))

/-- The scalars in their order, then a nested product of the shape of the tree, with the other
factors at the leaves of their names. -/
def FollowsTree (tree : ContractionTree) (factors : List Diagram) (d : Diagram) : Prop :=
  ∃ (tensors : List Diagram) (core : Diagram), tensors.Perm (factors.filter fun x => !x.isScalar) ∧
    List.Forall₂ (fun leaf x => x.factorName? = leaf) tree.leaves tensors ∧
    NestsAs tree tensors core ∧ d = (factors.filter isScalar).foldr pair core

variable {factors : List Diagram} {tree : ContractionTree}

/-- Names match a tree if they are its leaves. -/
theorem namesMatch_iff {tensors : Table String Diagram} (hkeys : tensors.keys.Nodup)
    (hleaves : tree.leaves.Nodup) :
    namesMatch tensors tree = true ↔ (tensors.keys.map some).Perm tree.leaves := by
  rw [List.perm_ext_iff_of_nodup (hkeys.map (Option.some_injective _)) hleaves, namesMatch,
    Bool.and_eq_true, List.all_eq_true, List.all_eq_true]
  simp only [decide_eq_true_eq]
  constructor
  · rintro ⟨hnames, hall⟩ leaf
    refine ⟨fun hleaf => ?_, hall leaf⟩
    obtain ⟨name, hname, rfl⟩ := List.mem_map.mp hleaf
    exact hnames name hname
  · intro h
    exact ⟨fun name hname => (h _).mp (List.mem_map_of_mem hname), fun leaf => (h leaf).mpr⟩

/-- The factors with names are those that are no scalars. -/
theorem snd_namedFactors (h : ∀ d ∈ factors, d.IsSimple) :
    (namedFactors factors).map Prod.snd = factors.filter fun x => !x.isScalar := by
  induction factors with
  | nil => rfl
  | cons d factors ih =>
    obtain ⟨hd, hfactors⟩ := List.forall_mem_cons.mp h
    rcases hname : d.factorName? with _ | name
    · have hscalar := hd.isScalar_of_factorName? hname
      rw [namedFactors_cons_of_eq_none hname, ih hfactors,
        List.filter_cons_of_neg (by rw [hscalar]; decide)]
    · have hscalar : ¬ d.isScalar = true := by
        intro hscalar
        rw [factorName?_of_isScalar hscalar] at hname
        cases hname
      rw [namedFactors_cons_of_eq_some hname, List.map_cons, ih hfactors,
        List.filter_cons_of_pos (by simpa using hscalar)]

/-- Factors that match a tree have distinct names. -/
theorem MatchesTree.nodup_keys (h : MatchesTree factors tree) (hleaves : tree.leaves.Nodup) :
    (namedFactors factors).keys.Nodup := by
  rw [keys_namedFactors]
  exact (h.2.nodup_iff.mpr hleaves).of_map _

/-- The tensors of factors that match a tree, in the order of its leaves. -/
theorem MatchesTree.exists_entries (h : MatchesTree factors tree) :
    ∃ entries : Table String Diagram, List.Perm (namedFactors factors) entries ∧
      List.Forall₂ (fun entry leaf => some entry.1 = leaf) entries tree.leaves := by
  have hkeys : List.Forall₂ (fun entry leaf => some entry.1 = leaf) (namedFactors factors)
      ((factors.filterMap factorName?).map some) := by
    rw [← keys_namedFactors, Table.keys, List.map_map, List.forall₂_map_right_iff]
    exact List.forall₂_same.mpr fun _ _ => rfl
  have hcomp : Relation.Comp (List.Forall₂ fun (entry : String × Diagram) leaf => some entry.1 =
    leaf) List.Perm
      (namedFactors factors) tree.leaves := ⟨_, hkeys, h.2⟩
  rw [List.forall₂_comp_perm_eq_perm_comp_forall₂] at hcomp
  exact hcomp

/-- Entries for the leaves have their texts as keys. -/
theorem keys_eq_leafTexts
    (h : List.Forall₂ (fun entry leaf => some entry.1 = leaf) entries tree.leaves) :
    entries.keys = tree.leafTexts := by
  unfold leafTexts
  generalize tree.leaves = leaves at h ⊢
  induction h with
  | nil => rfl
  | cons hentry _ ih =>
    rw [Table.keys, List.map_cons, List.map_cons, ← hentry, ← ih]
    rfl

/-- Factors can be sorted if they are simple, with distinct names. -/
theorem sortFactors?_nil_eq_some_iff {result : SortedFactors} :
    sortFactors? ⟨[], []⟩ factors = some result ↔ (∀ d ∈ factors, d.IsSimple) ∧
      (namedFactors factors).keys.Nodup ∧
        result = ⟨factors.filter isScalar, namedFactors factors⟩ :=
  sortFactors?_eq_some_iff List.nodup_nil

/-- Nested products along a tree fail only if an entry is missing. -/
theorem nestAlong?_failsWith (factors : List Diagram) (tree : ContractionTree) :
    FailsWith (· = .missing) (nestAlong? factors tree) := by
  rw [nestAlong?]
  cases sortFactors? ⟨[], []⟩ factors with
  | none => exact .ok none
  | some sorted =>
    refine FailsWith.ite _ ?_ (.ok none)
    exact (contractAlong_failsWith _ _).bind fun a => (takeFactor_failsWith a.1 a.2).bind
      fun x => .ok _

section

variable (hleaves : tree.leaves.Nodup)

include hleaves

/-- Factors match a tree if they can be sorted, and the names match. -/
theorem matchesTree_iff :
    MatchesTree factors tree ↔
      ∃ sorted : SortedFactors, sortFactors? ⟨[], []⟩ factors = some sorted ∧
      namesMatch sorted.tensors tree = true := by
  constructor
  · intro h
    have hkeys := h.nodup_keys hleaves
    refine ⟨_, sortFactors?_nil_eq_some_iff.mpr ⟨h.1, hkeys, rfl⟩,
      (namesMatch_iff hkeys hleaves).mpr ?_⟩
    rw [keys_namedFactors]
    exact h.2
  · rintro ⟨sorted, hsort, hmatch⟩
    obtain ⟨hsimple, hkeys, rfl⟩ := sortFactors?_nil_eq_some_iff.mp hsort
    have hperm := (namesMatch_iff hkeys hleaves).mp hmatch
    rw [keys_namedFactors] at hperm
    exact ⟨hsimple, hperm⟩

/-- Factors that match a tree, and no others, are contracted along it. -/
theorem nestAlong?_eq_ok_some_iff :
    nestAlong? factors tree = .ok (some d) ↔ MatchesTree factors tree ∧
      ∃ (name : Option String) (table rest : Table String Diagram) (core : Diagram),
        contractAlong tree (namedFactors factors) = .ok (name, table) ∧
          takeFactor name table = .ok (core, rest) ∧
        d = (factors.filter isScalar).foldr pair core := by
  rw [matchesTree_iff hleaves, nestAlong?]
  rcases hsort : sortFactors? ⟨[], []⟩ factors with _ | sorted
  · refine iff_of_false (by rintro ⟨⟩) ?_
    rintro ⟨⟨_, ⟨⟩, _⟩, _⟩
  · obtain ⟨-, -, rfl⟩ := sortFactors?_nil_eq_some_iff.mp hsort
    dsimp only
    split_ifs with hmatch
    · rw [and_iff_right ⟨_, rfl, hmatch⟩]
      constructor
      · intro h
        obtain ⟨⟨name, table⟩, hrun, h⟩ := bind_eq_ok_iff.mp h
        obtain ⟨⟨core, rest⟩, htake, h⟩ := bind_eq_ok_iff.mp h
        exact ⟨name, table, rest, core, hrun, htake, (Option.some.inj (Except.ok.inj h)).symm⟩
      · rintro ⟨name, table, rest, core, hrun, htake, rfl⟩
        exact bind_eq_ok_iff.mpr ⟨_, hrun, bind_eq_ok_iff.mpr ⟨_, htake, rfl⟩⟩
    · refine iff_of_false (by rintro ⟨⟩) ?_
      rintro ⟨⟨_, h, hmatch'⟩, -⟩
      obtain rfl := Option.some.inj h
      exact hmatch hmatch'

/-- Factors that match a tree are not nested without it. -/
theorem nestAlong?_ne_none_of_matchesTree
    (h : MatchesTree factors tree) : nestAlong? factors tree ≠ .ok none := by
  obtain ⟨sorted, hsort, hmatch⟩ := (matchesTree_iff hleaves).mp h
  intro hnone
  rw [nestAlong?, hsort] at hnone
  dsimp only at hnone
  rw [if_pos hmatch] at hnone
  obtain ⟨_, -, hnone⟩ := bind_eq_ok_iff.mp hnone
  obtain ⟨_, -, ⟨⟩⟩ := bind_eq_ok_iff.mp hnone

/-- Other factors are. -/
theorem nestAlong?_eq_none_of_not_matchesTree
    (h : ¬ MatchesTree factors tree) : nestAlong? factors tree = .ok none := by
  rw [matchesTree_iff hleaves] at h
  rw [nestAlong?]
  rcases hsort : sortFactors? ⟨[], []⟩ factors with _ | sorted
  · rfl
  · dsimp only
    rw [if_neg fun hmatch => h ⟨sorted, hsort, hmatch⟩]
    rfl

/-- A product along a tree that comes about has the shape of the tree. -/
theorem followsTree_of_nestAlong?
    (h : nestAlong? factors tree = .ok (some d)) : FollowsTree tree factors d := by
  obtain ⟨hmatch, name, table, rest, core, hrun, htake, rfl⟩ :=
    (nestAlong?_eq_ok_some_iff hleaves).mp h
  have hkeys := hmatch.nodup_keys hleaves
  obtain ⟨entries, hperm, hnames⟩ := hmatch.exists_entries
  -- there is an entry for each leaf, and so none can be spared
  have hlength := hperm.length_eq.trans hnames.length_eq
  have hle := length_contractAlong_le hrun
  have htake' := length_of_takeFactor htake
  have hperm₀ := hperm
  rw [← List.append_nil entries] at hperm₀
  obtain ⟨hname, hkeys', core', hperm', hnests⟩ :=
    contractAlong_spec hperm₀ hkeys (keys_eq_leafTexts hnames) hrun (by omega)
  rw [← hname] at hperm'
  obtain ⟨rest', htake'', -, -⟩ := takeFactor_of_perm hkeys' hperm'
  obtain ⟨rfl, rfl⟩ := Prod.mk.inj (Except.ok.inj (htake.symm.trans htake''))
  refine ⟨entries.map Prod.snd, core, ?_, ?_, hnests, rfl⟩
  · rw [← snd_namedFactors hmatch.1]
    exact (hperm.map _).symm
  · have hmem : ∀ entry ∈ entries, entry.2.factorName? = some entry.1 := fun entry hentry =>
      factorName?_of_mem_namedFactors (hperm.mem_iff.mpr hentry)
    rw [List.forall₂_map_right_iff]
    exact (((List.forall₂_and_left _ _).mpr ⟨hmem, hnames⟩).imp fun _ _ h => h.1.trans h.2).flip

/-- If no entry is displaced on the way, then there is a product along the tree. -/
theorem exists_nestAlong?_of_length (hmatch : MatchesTree factors tree)
    (hrun : contractAlong tree (namedFactors factors) = .ok (name, table))
    (hlength : table.length + tree.leaves.length = (namedFactors factors).length + 1) :
    ∃ d : Diagram, nestAlong? factors tree = .ok (some d) := by
  obtain ⟨entries, hperm, hnames⟩ := hmatch.exists_entries
  rw [← List.append_nil entries] at hperm
  obtain ⟨hname, hkeys, core, hperm', -⟩ :=
    contractAlong_spec hperm (hmatch.nodup_keys hleaves) (keys_eq_leafTexts hnames) hrun hlength
  rw [← hname] at hperm'
  obtain ⟨rest, htake, -, -⟩ := takeFactor_of_perm hkeys hperm'
  exact ⟨_, (nestAlong?_eq_ok_some_iff hleaves).mpr ⟨hmatch, name, table, rest, core,
    hrun, htake, rfl⟩⟩

/-- Factors that match a tree with plain names have a product along it. -/
theorem exists_nestAlong? (hmatch : MatchesTree factors tree)
    (hplain : tree.HasPlainNames) : ∃ d : Diagram, nestAlong? factors tree = .ok (some d) := by
  obtain ⟨entries, hperm, hnames⟩ := hmatch.exists_entries
  rw [← List.append_nil entries] at hperm
  obtain ⟨name, table, hrun, hlength⟩ := exists_contractAlong hperm (hmatch.nodup_keys hleaves)
    (keys_eq_leafTexts hnames) hplain (by
      intro key hkey
      cases hkey)
  exact exists_nestAlong?_of_length hleaves hmatch hrun hlength

end

end Diagram

end TensorDiagram
