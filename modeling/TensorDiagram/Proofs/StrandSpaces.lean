import TensorDiagram.Braiding.Construct
import TensorDiagram.Proofs.IndexMaps

/-!
# Spaces of strands

The strands of a statement get their spaces one after another.  A strand that has an index in common
with a leg of a neighbour gets the space of this leg, and this is done first.  Every other strand
gets the space that another one has left at one of its ends.  `Assigned` says which tables arise in
this way.

If all strands get a space (`exists_assigned`), then facts about the table follow by induction on
how it arose.  A property that holds at the legs of the neighbours, and that strands hand on, holds
everywhere (`Assigned.holds`).  Strands that begin together end up with one space
(`Assigned.find?_eq_of_first_eq`), whatever the diagram means.

`constructStatement_cases` says what is then put in front of the statement.
-/

namespace TensorDiagram

theorem findLeg?_eq_some {index : Index} {neighbours : List TensorRef} {t : TensorRef}
    {position : ℕ} (h : findLeg? index neighbours = some (t, position)) :
    t ∈ neighbours ∧ index ∈ t.indices ∧ position = t.indices.idxOf index := by
  induction neighbours with
  | nil => cases h
  | cons u rest ih =>
    rw [findLeg?] at h
    split_ifs at h with hindex
    · obtain ⟨rfl, rfl⟩ := Prod.mk.inj (Option.some.inj h)
      exact ⟨List.mem_cons_self, hindex, rfl⟩
    · exact (ih h).imp_left (List.mem_cons_of_mem _)

theorem findLeg?_eq_none {index : Index} {neighbours : List TensorRef} :
    findLeg? index neighbours = none ↔ ∀ t ∈ neighbours, index ∉ t.indices := by
  induction neighbours with
  | nil => simp [findLeg?]
  | cons u rest ih =>
    rw [findLeg?, List.forall_mem_cons, ← ih]
    split_ifs with hindex <;> simp [hindex]

namespace StrandSpaces

variable {neighbours : List TensorRef} {strands done : List Strand} {spaces : Table Index LegSpace}
  {strand : Strand}
variable {s : StrandSpaces} {space : LegSpace}

/-- The space that a leg of a neighbour gives to a strand. -/
def legSpace? (neighbours : List TensorRef) (strand : Strand) : Option LegSpace :=
  match findLeg? strand.1 neighbours, findLeg? strand.2 neighbours with
  | some (t, position), _ => some ⟨t.object, position, t.isAdjoint, false⟩
  | none, some (t, position) => some ⟨t.object, position, t.isAdjoint, true⟩
  | none, none => none

theorem legSpace?_eq_none :
    legSpace? neighbours strand = none ↔
      (∀ t ∈ neighbours, strand.1 ∉ t.indices) ∧ ∀ t ∈ neighbours, strand.2 ∉ t.indices := by
  rw [← findLeg?_eq_none, ← findLeg?_eq_none, legSpace?]
  cases findLeg? strand.1 neighbours <;> cases findLeg? strand.2 neighbours <;> simp

/-- A space that a leg gives to a strand is that of the leg, or its dual if the strand ends
there. -/
theorem exists_of_legSpace? (h : legSpace? neighbours strand = some space) :
    ∃ t ∈ neighbours,
      (strand.1 ∈ t.indices ∧ space = ⟨t.object, t.indices.idxOf strand.1, t.isAdjoint, false⟩) ∨
      (strand.2 ∈ t.indices ∧ space = ⟨t.object, t.indices.idxOf strand.2, t.isAdjoint, true⟩) := by
  rw [legSpace?] at h
  split at h
  · rename_i t position hfirst
    obtain ⟨ht, hindex, rfl⟩ := findLeg?_eq_some hfirst
    exact ⟨t, ht, Or.inl ⟨hindex, (Option.some.inj h).symm⟩⟩
  · rename_i t position hfirst hsecond
    obtain ⟨ht, hindex, rfl⟩ := findLeg?_eq_some hsecond
    exact ⟨t, ht, Or.inr ⟨hindex, (Option.some.inj h).symm⟩⟩
  · cases h

/-- The table in which both ends of a strand have a space. -/
def putEnds (spaces : Table Index LegSpace) (strand : Strand) (space : LegSpace) :
    Table Index LegSpace :=
  (spaces.put strand.1 space).put strand.2 space

theorem find?_putEnds (spaces : Table Index LegSpace) (strand : Strand)
    (space : LegSpace) (i : Index) : (putEnds spaces strand space).find? i =
      if i = strand.1 ∨ i = strand.2 then some space else spaces.find? i := by
  rw [putEnds, Table.find?_put, Table.find?_put]
  by_cases hfirst : i = strand.1 <;> by_cases hsecond : i = strand.2 <;> simp [hfirst, hsecond]

theorem find?_putEnds_of_ne {i : Index} (hfirst : i ≠ strand.1) (hsecond : i ≠ strand.2) :
    (putEnds spaces strand space).find? i = spaces.find? i := by
  rw [find?_putEnds, if_neg (by simp [hfirst, hsecond])]

/-- The tables that arise when strands get their spaces one after another. -/
inductive Assigned (neighbours : List TensorRef) : List Strand → Table Index LegSpace → Prop
  /-- No strand has a space. -/
  | nil : Assigned neighbours [] []
  /-- A strand gets a space at a leg. -/
  | anchor {done : List Strand} {spaces : Table Index LegSpace} {strand : Strand} {space : LegSpace}
      (h : Assigned neighbours done spaces) (hdone : ∀ x ∈ done, legSpace? neighbours x ≠ none)
      (hspace : legSpace? neighbours strand = some space) :
      Assigned neighbours (strand :: done) (putEnds spaces strand space)
  /-- A strand without a leg at its ends gets a space at another strand. -/
  | join {done : List Strand} {spaces : Table Index LegSpace} {strand : Strand} {space : LegSpace}
      (h : Assigned neighbours done spaces) (hnone : legSpace? neighbours strand = none)
      (hspace : (spaces.find? strand.1).or (spaces.find? strand.2) = some space) :
      Assigned neighbours (strand :: done) (putEnds spaces strand space)

/-- What is known once some strands have been looked at. -/
structure Covers (neighbours : List TensorRef) (strands done : List Strand) (s : StrandSpaces) :
    Prop where
  /-- How the table arose. -/
  assigned : Assigned neighbours done s.spaces
  /-- Every strand has a space or is left for later. -/
  covered : ∀ x, x ∈ strands ↔ x ∈ done ∨ x ∈ s.unresolved
  /-- Strands that are left for later have no legs at their ends. -/
  unanchored : ∀ x ∈ s.unresolved, legSpace? neighbours x = none

/-- A strand gets a space, or it is left for later. -/
theorem anchor_cases (neighbours : List TensorRef) (s : StrandSpaces) (strand : Strand) :
    (∃ space, legSpace? neighbours strand = some space ∧
      anchor neighbours s strand = s.assign strand space) ∨
      (legSpace? neighbours strand = none ∧ anchor neighbours s strand = s.leave strand) := by
  rw [anchor, legSpace?]
  rcases findLeg? strand.1 neighbours with _ | ⟨t, position⟩
  · rcases findLeg? strand.2 neighbours with _ | ⟨t, position⟩
    · exact Or.inr ⟨rfl, rfl⟩
    · exact Or.inl ⟨_, rfl, rfl⟩
  · exact Or.inl ⟨_, rfl, rfl⟩

theorem join_cases (s : StrandSpaces) (strand : Strand) :
    (∃ space, (s.spaces.find? strand.1).or (s.spaces.find? strand.2) = some space ∧
      s.join strand = s.assign strand space) ∨
      (s.spaces.find? strand.1 = none ∧ s.spaces.find? strand.2 = none ∧
        s.join strand = s.leave strand) := by
  rw [join]
  cases s.spaces.find? strand.1 <;> cases s.spaces.find? strand.2 <;> simp

theorem Covers.assign (h : Covers neighbours strands done s)
    (hnext : Assigned neighbours (strand :: done) (putEnds s.spaces strand space)) :
    Covers neighbours (strands ++ [strand]) (strand :: done) (s.assign strand space) := by
  refine ⟨hnext, fun x => ?_, h.unanchored⟩
  rw [List.mem_append, List.mem_singleton, List.mem_cons, h.covered x, or_comm, or_assoc]
  rfl

theorem Covers.leave (h : Covers neighbours strands done s)
    (hnone : legSpace? neighbours strand = none) :
    Covers neighbours (strands ++ [strand]) done (s.leave strand) := by
  refine ⟨h.assigned, fun x => ?_, fun x hx => ?_⟩
  · rw [List.mem_append, h.covered x, or_assoc]
    exact or_congr_right List.mem_append.symm
  · rcases List.mem_append.mp hx with hx | hx
    · exact h.unanchored x hx
    · rwa [List.mem_singleton.mp hx]

/-- First all strands are looked at whose ends may be on legs. -/
theorem Covers.foldl_anchor (h : Covers neighbours strands done s)
    (hdone : ∀ x ∈ done, legSpace? neighbours x ≠ none) (xs : List Strand) :
    ∃ done, Covers neighbours (strands ++ xs) done
      (xs.foldl (StrandSpaces.anchor neighbours) s) := by
  induction xs generalizing s strands done with
  | nil => exact ⟨done, by simpa using h⟩
  | cons x xs ih =>
    rw [List.foldl_cons, ← List.singleton_append, ← List.append_assoc]
    rcases anchor_cases neighbours s x with ⟨space, hspace, heq⟩ | ⟨hnone, heq⟩
    · rw [heq]
      refine ih (h.assign (.anchor h.assigned hdone hspace)) (List.forall_mem_cons.mpr ⟨?_, hdone⟩)
      rw [hspace]
      exact Option.some_ne_none space
    · rw [heq]
      exact ih (h.leave hnone) hdone

/-- Then the others are looked at, again and again. -/
theorem Covers.foldl_join (h : Covers neighbours strands done s) {xs : List Strand}
    (hxs : ∀ x ∈ xs, legSpace? neighbours x = none) :
    ∃ done, Covers neighbours (strands ++ xs) done (xs.foldl StrandSpaces.join s) := by
  induction xs generalizing s strands done with
  | nil => exact ⟨done, by simpa using h⟩
  | cons x xs ih =>
    obtain ⟨hnone, hxs⟩ := List.forall_mem_cons.mp hxs
    rw [List.foldl_cons, ← List.singleton_append, ← List.append_assoc]
    rcases join_cases s x with ⟨space, hspace, heq⟩ | ⟨-, -, heq⟩
    · rw [heq]
      exact ih (h.assign (.join h.assigned hnone hspace)) hxs
    · rw [heq]
      exact ih (h.leave hnone) hxs

theorem Covers.joinAll (h : Covers neighbours strands done s) :
    ∃ done, Covers neighbours strands done s.joinAll := by
  have hstart : Covers neighbours done done ⟨s.spaces, []⟩ := ⟨h.assigned, by simp, by simp⟩
  obtain ⟨done', hrest⟩ := hstart.foldl_join h.unanchored
  refine ⟨done', hrest.assigned, fun x => ?_, hrest.unanchored⟩
  rw [h.covered x, ← List.mem_append]
  exact hrest.covered x

theorem exists_covers (neighbours : List TensorRef) (strands : List Strand) :
    ∃ done, Covers neighbours strands done (ofStrands neighbours strands) := by
  have hnil : Covers neighbours [] [] ⟨[], []⟩ := ⟨.nil, by simp, by simp⟩
  obtain ⟨start, hstart⟩ := hnil.foldl_anchor (by simp) strands
  rw [List.nil_append] at hstart
  have hall : ∀ n, ∃ done, Covers neighbours strands done
      (Nat.repeat StrandSpaces.joinAll n (strands.foldl (anchor neighbours) ⟨[], []⟩)) := by
    intro n
    induction n with
    | zero => exact ⟨start, hstart⟩
    | succ n ih =>
      obtain ⟨done, hdone⟩ := ih
      exact hdone.joinAll
  exact hall _

/-- If all strands get a space, then one after another. -/
theorem exists_assigned (h : (ofStrands neighbours strands).unresolved = []) :
    ∃ done, (∀ x, x ∈ strands ↔ x ∈ done) ∧
      Assigned neighbours done (ofStrands neighbours strands).spaces := by
  obtain ⟨done, hdone⟩ := exists_covers neighbours strands
  refine ⟨done, fun x => ?_, hdone.assigned⟩
  rw [hdone.covered x, h]
  simp

namespace Assigned

/-- Strands with a space have it at both ends. -/
theorem exists_find? (h : Assigned neighbours done spaces) :
    ∀ x ∈ done, (∃ space, spaces.find? x.1 = some space) ∧
      ∃ space, spaces.find? x.2 = some space := by
  have hstep : ∀ {done : List Strand} {spaces : Table Index LegSpace} {strand : Strand}
      {space : LegSpace}, (∀ x ∈ done, (∃ space, spaces.find? x.1 = some space) ∧
        ∃ space, spaces.find? x.2 = some space) →
      ∀ x ∈ strand :: done, (∃ found, (putEnds spaces strand space).find? x.1 = some found) ∧
        ∃ found, (putEnds spaces strand space).find? x.2 = some found := by
    intro done spaces strand space ih x hx
    have hput : ∀ i, (∃ found, spaces.find? i = some found) ∨ i = strand.1 ∨ i = strand.2 →
        ∃ found, (putEnds spaces strand space).find? i = some found := by
      intro i hi
      rw [find?_putEnds]
      split_ifs with hend
      · exact ⟨space, rfl⟩
      · exact hi.resolve_right hend
    rcases List.mem_cons.mp hx with rfl | hx
    · exact ⟨hput _ (by simp), hput _ (by simp)⟩
    · exact ⟨hput _ (Or.inl (ih x hx).1), hput _ (Or.inl (ih x hx).2)⟩
  induction h with
  | nil => simp
  | anchor _ _ _ ih => exact hstep ih
  | join _ _ _ ih => exact hstep ih

/-- What holds at legs, and what strands hand on, holds in the whole table. -/
theorem holds {P : Index → LegSpace → Prop} (h : Assigned neighbours done spaces)
    (hanchor : ∀ x ∈ done, ∀ space, legSpace? neighbours x = some space → P x.1 space ∧ P x.2 space)
    (hjoin : ∀ x ∈ done, legSpace? neighbours x = none → ∀ space, P x.1 space ∨ P x.2 space →
      P x.1 space ∧ P x.2 space) : ∀ i space, spaces.find? i = some space → P i space := by
  have hstep : ∀ {spaces : Table Index LegSpace} {strand : Strand} {space : LegSpace},
      (∀ i found, spaces.find? i = some found → P i found) → P strand.1 space ∧ P strand.2 space →
      ∀ i found, (putEnds spaces strand space).find? i = some found → P i found := by
    intro spaces strand space ih hends i found hfind
    rw [find?_putEnds] at hfind
    split_ifs at hfind with hi
    · obtain rfl := Option.some.inj hfind
      rcases hi with rfl | rfl
      · exact hends.1
      · exact hends.2
    · exact ih i found hfind
  induction h with
  | nil => intro i space hfind; cases hfind
  | anchor _ _ hspace ih =>
    obtain ⟨hstrand, hanchor⟩ := List.forall_mem_cons.mp hanchor
    exact hstep (ih hanchor (List.forall_mem_cons.mp hjoin).2) (hstrand _ hspace)
  | join _ hnone hspace ih =>
    obtain ⟨hstrand, hjoin⟩ := List.forall_mem_cons.mp hjoin
    have hknown := ih (List.forall_mem_cons.mp hanchor).2 hjoin
    refine hstep hknown (hstrand hnone _ ?_)
    rcases Option.or_eq_some_iff.mp hspace with hfirst | ⟨-, hsecond⟩
    · exact Or.inl (hknown _ _ hfirst)
    · exact Or.inr (hknown _ _ hsecond)

/-- Strands that begin at one index have one space, unless two of them end at legs: a strand that
begins at an index with a space takes it over. -/
theorem find?_eq_of_first_eq {i : Index} (h : Assigned neighbours done spaces)
    (hends : ∀ x ∈ done, ∀ y ∈ done, x.2 = y.2 → x = y) (hi : ∀ x ∈ done, x.2 ≠ i)
    (hanchored : ∀ x ∈ done, ∀ y ∈ done, x.1 = i → y.1 = i → legSpace? neighbours x ≠ none →
      legSpace? neighbours y ≠ none → x = y)
    (hlegs : ∀ x ∈ done, x.1 = i → legSpace? neighbours x ≠ none → ∀ y ∈ done, x.2 ≠ y.1) :
    ∀ x ∈ done, x.1 = i → spaces.find? x.2 = spaces.find? i := by
  induction h with
  | nil => simp
  | @anchor done spaces strand space h hdone hspace ih =>
    intro x hx hxi
    have hmem : ∀ {y : Strand}, y ∈ done → y ∈ strand :: done := List.mem_cons_of_mem strand
    have hself : strand ∈ strand :: done := List.mem_cons_self
    have hstrand : legSpace? neighbours strand ≠ none := by
      rw [hspace]
      exact Option.some_ne_none space
    by_cases heq : x = strand
    · subst heq
      rw [find?_putEnds, if_pos (Or.inr rfl), find?_putEnds, if_pos (Or.inl hxi.symm)]
    · have hxdone := (List.mem_cons.mp hx).resolve_left heq
      have hfirst : strand.1 ≠ i := fun hfirst =>
        heq (hanchored x hx strand hself hxi hfirst (hdone x hxdone) hstrand)
      rw [find?_putEnds_of_ne (hlegs x hx hxi (hdone x hxdone) strand hself)
        (fun hend => heq (hends x hx strand hself hend)),
        find?_putEnds_of_ne hfirst.symm (hi strand hself).symm]
      exact ih (fun x hx y hy => hends x (hmem hx) y (hmem hy)) (fun x hx => hi x (hmem hx))
        (fun x hx y hy => hanchored x (hmem hx) y (hmem hy))
        (fun x hx hxi hne y hy => hlegs x (hmem hx) hxi hne y (hmem hy)) x hxdone hxi
  | @join done spaces strand space h hnone hspace ih =>
    intro x hx hxi
    have hmem : ∀ {y : Strand}, y ∈ done → y ∈ strand :: done := List.mem_cons_of_mem strand
    have hself : strand ∈ strand :: done := List.mem_cons_self
    by_cases heq : x = strand
    · subst heq
      rw [find?_putEnds, if_pos (Or.inr rfl), find?_putEnds, if_pos (Or.inl hxi.symm)]
    · have hxdone := (List.mem_cons.mp hx).resolve_left heq
      have hold := ih (fun x hx y hy => hends x (hmem hx) y (hmem hy)) (fun x hx => hi x (hmem hx))
        (fun x hx y hy => hanchored x (hmem hx) y (hmem hy))
        (fun x hx hxi hne y hy => hlegs x (hmem hx) hxi hne y (hmem hy)) x hxdone hxi
      have hend : x.2 ≠ strand.2 := fun hend => heq (hends x hx strand hself hend)
      obtain ⟨known, hknown⟩ := (h.exists_find? x hxdone).2
      -- what the new strand takes over at its beginning is already there
      have htakes : strand.1 = i ∨ strand.1 = x.2 → space = known := by
        rintro (hfirst | hfirst)
        · rw [hfirst, ← hold, hknown] at hspace
          exact (Option.some.inj hspace).symm
        · rw [hfirst, hknown] at hspace
          exact (Option.some.inj hspace).symm
      have hkeep : ∀ j, j ≠ strand.2 → (strand.1 = j → space = known) →
          spaces.find? j = some known → (putEnds spaces strand space).find? j = some known := by
        intro j hsecond hfirst hj
        rw [find?_putEnds]
        split_ifs with hj'
        · rw [hfirst (hj'.resolve_right hsecond).symm]
        · exact hj
      rw [hkeep x.2 hend (fun hfirst => htakes (Or.inr hfirst)) hknown,
        hkeep i (hi strand hself).symm (fun hfirst => htakes (Or.inl hfirst)) (hold ▸ hknown)]

end Assigned

/-- If all strands get a space, then what is true at the legs of the neighbours is true at all
strands. -/
theorem of_unresolved_eq_nil {P : Index → Prop} (hstrands : ∀ x ∈ strands, P x.1 = P x.2)
    (hlegs : ∀ t ∈ neighbours, ∀ i ∈ t.indices, P i)
    (h : (ofStrands neighbours strands).unresolved = []) : ∀ x ∈ strands, P x.1 := by
  obtain ⟨done, hdone, hassigned⟩ := exists_assigned h
  have hends : ∀ x ∈ done, P x.1 ∨ P x.2 → P x.1 ∧ P x.2 := by
    intro x hx hend
    have heq := hstrands x ((hdone x).mpr hx)
    exact ⟨hend.elim id heq.mpr, hend.elim heq.mp id⟩
  have hholds := hassigned.holds (P := fun i _ => P i) (fun x hx space hspace => hends x hx ?_)
    (fun x hx _ _ => hends x hx)
  · intro x hx
    obtain ⟨⟨space, hspace⟩, -⟩ := hassigned.exists_find? x ((hdone x).mp hx)
    exact hholds _ _ hspace
  · obtain ⟨t, ht, ⟨hindex, -⟩ | ⟨hindex, -⟩⟩ := exists_of_legSpace? hspace
    · exact Or.inl (hlegs t ht _ hindex)
    · exact Or.inr (hlegs t ht _ hindex)

end StrandSpaces

namespace Diagram

/-! ## Constructing the braidings of a statement -/

/-- A reference to a braiding becomes one to the handle of what is constructed for it. -/
def resolveRef (handles : Table TensorRef Handle) (t : TensorRef) : TensorRef :=
  match handles.find? t with
  | some handle => t.withObject (.handle handle)
  | none => t

/-- The construction of one more braiding. -/
theorem exists_of_constructions_cons {braidingName : String} {spaces : StrandSpaces}
    {table table' : HandleTable} {t : TensorRef} {ts : List TensorRef} {statements : List Diagram}
    {handles : Table TensorRef Handle}
    (h : constructions braidingName spaces table (t :: ts) = .ok (statements, handles, table')) :
    ∃ s first second rest others, t.strands braidingName = .ok s ∧
      spaces.spaces.find? s.1.2 = some first ∧ spaces.spaces.find? s.2.2 = some second ∧
      constructions braidingName spaces table.freshBraiding.2 ts = .ok (rest, others, table') ∧
      statements = braid table.freshBraiding.1 first second :: rest ∧
      handles = (t, table.freshBraiding.1) :: others := by
  have hfind : ∀ {i : Index} {space : LegSpace}, spaces.get i = .ok space →
      spaces.spaces.find? i = some space := by
    intro i space hget
    rw [StrandSpaces.get] at hget
    split at hget
    · rename_i found hfound
      rw [hfound, Except.ok.inj hget]
    · cases hget
  rw [constructions] at h
  obtain ⟨⟨⟨a, end₁⟩, b, end₂⟩, hs, h⟩ := bind_eq_ok_iff.mp h
  obtain ⟨first, hfirst, h⟩ := bind_eq_ok_iff.mp h
  obtain ⟨second, hsecond, h⟩ := bind_eq_ok_iff.mp h
  obtain ⟨⟨rest, others, table₁⟩, hrest, h⟩ := bind_eq_ok_iff.mp h
  obtain ⟨hstatements, htable⟩ := Prod.mk.inj (Except.ok.inj h)
  obtain ⟨hhandles, rfl⟩ := Prod.mk.inj htable
  exact ⟨_, first, second, rest, others, hs, hfind hfirst, hfind hsecond, hrest, hstatements.symm,
    hhandles.symm⟩

/-- Either there is no braiding, or all strands get a space and the braidings are constructed with
these. -/
theorem constructStatement_cases {braidingName : String} {table table' : HandleTable}
    {d constructed : Diagram} {terms : List TensorRef} (hterms : d.neighbourTerms?.getD [] = terms)
    (h : d.constructStatement braidingName table = .ok (constructed, table')) :
    (distinct (terms.filter fun t => t.isBraiding braidingName) = [] ∧ constructed = d ∧
      table' = table) ∨ ∃ strands statements handles,
        TensorRef.allStrands braidingName
          (distinct (terms.filter fun t => t.isBraiding braidingName)) = .ok strands ∧
        (StrandSpaces.ofStrands (terms.filter fun t => !t.isBraiding braidingName)
          strands).unresolved = [] ∧
        constructions braidingName (.ofStrands (terms.filter fun t => !t.isBraiding braidingName)
          strands) table (distinct (terms.filter fun t => t.isBraiding braidingName)) =
          .ok (statements, handles, table') ∧
        constructed = block [sealed statements, d.mapRefs (resolveRef handles)] := by
  rw [constructStatement] at h
  rcases hsome : d.neighbourTerms? with _ | found
  · rw [hsome] at h hterms
    obtain ⟨rfl, rfl⟩ := Prod.mk.inj (Except.ok.inj h)
    rw [← hterms]
    exact Or.inl ⟨rfl, rfl, rfl⟩
  rw [hsome, Option.getD_some] at hterms
  rw [hsome, hterms] at h
  dsimp only at h
  split_ifs at h with hnone
  · obtain ⟨rfl, rfl⟩ := Prod.mk.inj (Except.ok.inj h)
    exact Or.inl ⟨List.isEmpty_iff.mp hnone, rfl, rfl⟩
  · obtain ⟨strands, hstrands, h⟩ := bind_eq_ok_iff.mp h
    by_cases hresolved :
      (StrandSpaces.ofStrands (terms.filter fun t => !t.isBraiding braidingName) strands).unresolved
        = []
    · rw [hresolved, if_neg (by decide)] at h
      obtain ⟨⟨statements, handles, table₁⟩, hconstructions, h⟩ := bind_eq_ok_iff.mp h
      obtain ⟨rfl, rfl⟩ := Prod.mk.inj (Except.ok.inj h)
      exact Or.inr ⟨strands, statements, handles, hstrands, hresolved, hconstructions, rfl⟩
    · rw [if_pos (by simpa using hresolved)] at h
      cases h

end Diagram

end TensorDiagram
