import TensorDiagram.Proofs.StrandIdentification

/-!
# Strands without a space

A strand gets a space at a leg of a neighbour, or at another strand that has one.  The strands
without a space are gone through again and again.  A round that resolves no strand changes nothing,
so after as many rounds as there are strands nothing changes any more
(`StrandSpaces.joinAll_repeat`).

Then no strand without a space touches a strand with one.  So the strands that are left over are
those that no chain of adjacent strands links with a leg of a neighbour
(`StrandSpaces.mem_unresolved_iff`), in whatever order they are listed.  The braidings of a
statement can be constructed exactly if there are none of them.
-/

namespace TensorDiagram

/-! ## Links -/

namespace Strand

/-- Two strands have an index in common. -/
def Adjacent (x y : Strand) : Prop :=
  ∃ i, (i = x.1 ∨ i = x.2) ∧ (i = y.1 ∨ i = y.2)

/-- A chain of adjacent strands, all of them among the given ones, leads from one strand to
another. -/
def Linked (among : Strand → Prop) : Strand → Strand → Prop :=
  Relation.ReflTransGen fun x y => among y ∧ x.Adjacent y

/-- One end of the strand is on a leg of a neighbour. -/
def IsAnchored (neighbours : List TensorRef) (x : Strand) : Prop :=
  ∃ t ∈ neighbours, x.1 ∈ t.indices ∨ x.2 ∈ t.indices

end Strand

/-! ## Rounds -/

namespace StrandSpaces

variable {neighbours : List TensorRef} {strands : List Strand}

theorem legSpace?_eq_none_iff {x : Strand} : legSpace? neighbours x = none ↔
    ¬ x.IsAnchored neighbours := by
  rw [legSpace?_eq_none, Strand.IsAnchored]
  simp only [not_exists, not_and, not_or, ← forall_and]

/-- Going through some strands either resolves one of them, or leaves all of them for later. -/
theorem foldl_join_cases (s : StrandSpaces) (xs : List Strand) :
    (xs.foldl join s).unresolved.length < s.unresolved.length + xs.length ∨
      (xs.foldl join s = ⟨s.spaces, s.unresolved ++ xs⟩ ∧
        ∀ x ∈ xs, s.spaces.find? x.1 = none ∧ s.spaces.find? x.2 = none) := by
  induction xs generalizing s with
  | nil => exact Or.inr ⟨by rw [List.append_nil]; rfl, by simp⟩
  | cons x xs ih =>
    rw [List.foldl_cons, List.length_cons]
    rcases join_cases s x with ⟨space, -, heq⟩ | ⟨hfirst, hsecond, heq⟩
    · left
      rw [heq]
      rcases ih (s.assign x space) with hlt | ⟨hall, -⟩
      · exact hlt.trans (Nat.lt_succ_self _)
      · rw [hall, List.length_append]
        exact Nat.lt_succ_self _
    · rw [heq]
      rcases ih (s.leave x) with hlt | ⟨hall, hnone⟩
      · left
        rwa [leave, List.length_append, List.length_singleton, Nat.add_assoc, Nat.add_comm 1] at hlt
      · right
        rw [hall, leave, List.append_assoc]
        exact ⟨rfl, List.forall_mem_cons.mpr ⟨⟨hfirst, hsecond⟩, hnone⟩⟩

/-- A round resolves a strand, or it changes nothing because no strand without a space touches one
with a space. -/
theorem joinAll_cases (s : StrandSpaces) : s.joinAll.unresolved.length < s.unresolved.length ∨
    (s.joinAll = s ∧ ∀ x ∈ s.unresolved, s.spaces.find? x.1 = none ∧
      s.spaces.find? x.2 = none) := by
  have hcases := foldl_join_cases ⟨s.spaces, []⟩ s.unresolved
  rwa [List.length_nil, Nat.zero_add, List.nil_append] at hcases

/-- After as many rounds as there are strands without a space nothing changes any more. -/
theorem joinAll_repeat (s : StrandSpaces) :
    (Nat.repeat joinAll s.unresolved.length s).joinAll =
      Nat.repeat joinAll s.unresolved.length s := by
  have hrounds : ∀ n, (Nat.repeat joinAll n s).joinAll = Nat.repeat joinAll n s ∨
      (Nat.repeat joinAll n s).unresolved.length + n ≤ s.unresolved.length := by
    intro n
    induction n with
    | zero => exact Or.inr (le_refl _)
    | succ n ih =>
      rw [Nat.repeat]
      rcases ih with hstable | hle
      · exact Or.inl (congrArg joinAll hstable)
      · rcases joinAll_cases (Nat.repeat joinAll n s) with hlt | ⟨hstable, -⟩
        · exact Or.inr (by omega)
        · exact Or.inl (congrArg joinAll hstable)
  rcases hrounds s.unresolved.length with hstable | hle
  · exact hstable
  · exact (joinAll_cases _).elim (fun hlt => absurd hlt (by omega)) And.left

/-- No strand that is left over touches a strand with a space. -/
theorem find?_of_mem_unresolved {x : Strand} (hx : x ∈ (ofStrands neighbours strands).unresolved) :
    (ofStrands neighbours strands).spaces.find? x.1 = none ∧
      (ofStrands neighbours strands).spaces.find? x.2 = none := by
  have hstable : (ofStrands neighbours strands).joinAll = ofStrands neighbours strands :=
    joinAll_repeat _
  rcases joinAll_cases (ofStrands neighbours strands) with hlt | ⟨-, hnone⟩
  · rw [hstable] at hlt
    exact absurd hlt (lt_irrefl _)
  · exact hnone x hx

/-- A strand that is linked with one that is left over is left over as well. -/
theorem mem_unresolved_of_linked {x y : Strand} (hx : x ∈ (ofStrands neighbours strands).unresolved)
    (hxy : Strand.Linked (· ∈ strands) x y) : y ∈ (ofStrands neighbours strands).unresolved := by
  obtain ⟨done, hcovers⟩ := exists_covers neighbours strands
  induction hxy with
  | refl => exact hx
  | @tail y z _ hyz ih =>
    -- a strand with a space has it at both ends, so it can not be adjacent to one that is left over
    refine ((hcovers.covered z).mp hyz.1).resolve_left fun hz => ?_
    obtain ⟨i, hi, hi'⟩ := hyz.2
    have hnone : (ofStrands neighbours strands).spaces.find? i = none :=
      hi.elim (· ▸ (find?_of_mem_unresolved ih).1) (· ▸ (find?_of_mem_unresolved ih).2)
    obtain ⟨hfirst, hsecond⟩ := hcovers.assigned.exists_find? z hz
    obtain ⟨space, hspace⟩ : ∃ space, (ofStrands neighbours strands).spaces.find? i = some space :=
      hi'.elim (· ▸ hfirst) (· ▸ hsecond)
    rw [hnone] at hspace
    cases hspace

/-- A strand with a space is linked with one that is on a leg. -/
theorem Assigned.exists_linked {done : List Strand} {spaces : Table Index LegSpace}
    (h : Assigned neighbours done spaces) (hdone : ∀ x ∈ done, x ∈ strands) {x : Strand}
    (hx : x ∈ done) : ∃ y, Strand.Linked (· ∈ strands) x y ∧ y.IsAnchored neighbours := by
  -- indices get spaces only at the ends of such strands
  have hholds := h.holds (P := fun i _ => ∃ y ∈ strands, (i = y.1 ∨ i = y.2) ∧
    ∃ z, Strand.Linked (· ∈ strands) y z ∧ z.IsAnchored neighbours) ?_ ?_
  · obtain ⟨⟨space, hspace⟩, -⟩ := h.exists_find? x hx
    obtain ⟨y, hy, hend, z, hyz, hz⟩ := hholds _ _ hspace
    exact ⟨z, .head ⟨hy, x.1, Or.inl rfl, hend⟩ hyz, hz⟩
  · intro y hy space hspace
    have hanchored : y.IsAnchored neighbours := by
      by_contra hnot
      rw [legSpace?_eq_none_iff.mpr hnot] at hspace
      cases hspace
    exact ⟨⟨y, hdone y hy, Or.inl rfl, y, .refl, hanchored⟩,
      ⟨y, hdone y hy, Or.inr rfl, y, .refl, hanchored⟩⟩
  · intro y hy _ space hends
    obtain ⟨z, hyz, hz⟩ : ∃ z, Strand.Linked (· ∈ strands) y z ∧ z.IsAnchored neighbours := by
      rcases hends with ⟨u, hu, hend, z, huz, hz⟩ | ⟨u, hu, hend, z, huz, hz⟩
      · exact ⟨z, .head ⟨hu, y.1, Or.inl rfl, hend⟩ huz, hz⟩
      · exact ⟨z, .head ⟨hu, y.2, Or.inr rfl, hend⟩ huz, hz⟩
    exact ⟨⟨y, hdone y hy, Or.inl rfl, z, hyz, hz⟩, ⟨y, hdone y hy, Or.inr rfl, z, hyz, hz⟩⟩

/-- The strands that are left over are those that are not linked with any leg. -/
theorem mem_unresolved_iff {x : Strand} : x ∈ (ofStrands neighbours strands).unresolved ↔
    x ∈ strands ∧ ∀ y, Strand.Linked (· ∈ strands) x y → ¬ y.IsAnchored neighbours := by
  obtain ⟨done, hcovers⟩ := exists_covers neighbours strands
  constructor
  · intro hx
    refine ⟨(hcovers.covered x).mpr (Or.inr hx), fun y hxy => legSpace?_eq_none_iff.mp ?_⟩
    exact hcovers.unanchored y (mem_unresolved_of_linked hx hxy)
  · rintro ⟨hx, hunanchored⟩
    refine ((hcovers.covered x).mp hx).resolve_left fun hdone => ?_
    obtain ⟨y, hxy, hy⟩ :=
      hcovers.assigned.exists_linked (fun y hy => (hcovers.covered y).mpr (Or.inl hy)) hdone
    exact hunanchored y hxy hy

end StrandSpaces

/-! ## Constructing the braidings of a statement -/

namespace HandleTable.Grows

variable {s s' : HandleTable} {hs : List Handle}

theorem index_lt (h : Grows s hs s') : ∀ x ∈ hs, x.index < (s'.handlesOf x.kind).length := by
  induction h with
  | refl => simp
  | @create s' hs _ kind name ih =>
    have hcreate := (Grows.refl s').create kind name
    refine List.forall_mem_append.mpr ⟨fun x hx => ?_, List.forall_mem_singleton.mpr ?_⟩
    · rw [hcreate.handlesOf_eq, List.length_append]
      exact Nat.lt_add_right _ (ih x hx)
    · rw [hcreate.handlesOf_eq]
      simp [next]

/-- All handles that are created differ. -/
theorem nodup (h : Grows s hs s') : hs.Nodup := by
  induction h with
  | refl => exact List.nodup_nil
  | @create s' hs h kind name ih =>
    refine ih.append (List.nodup_singleton _) (List.disjoint_singleton.mpr fun hmem => ?_)
    exact lt_irrefl _ (h.index_lt _ hmem)

end HandleTable.Grows

namespace Diagram

variable {braidingName : String} {d : Diagram} {terms : List TensorRef}

/-- The references of the statement are among those whose legs give spaces to strands. -/
theorem exists_statementTerms? (h : d.neighbourTerms? = some terms) :
    ∃ used others, d.statementTerms? = some used ∧ terms = used ++ others := by
  unfold neighbourTerms? at h
  split at h
  · rename_i t rhs
    split_ifs at h with htensor
    exact ⟨rhs.tensors, [t.flipped], if_pos htensor, (Option.some.inj h).symm⟩
  · exact ⟨terms, [], h, (List.append_nil _).symm⟩

theorem statementTerms?_mapRefs (f : TensorRef → TensorRef) (d : Diagram) :
    (d.mapRefs f).statementTerms? = d.statementTerms?.map (List.map f) := by
  have hterms : ∀ x : Diagram,
      (if (x.mapRefs f).isTensor then some (x.mapRefs f).tensors else none) =
      (if x.isTensor then some x.tensors else none).map (List.map f) := by
    intro x
    rw [isTensor_mapRefs, tensors_mapRefs]
    split_ifs <;> rfl
  cases d with
  | assign lhs rhs isDefinition => exact hterms rhs
  | ref t => exact hterms (ref t)
  | conj a => exact hterms (conj a)
  | product a b rest => exact hterms (product a b rest)
  | sum sign a rest => exact hterms (sum sign a rest)
  | _ => rfl

/-- Braidings are constructed if their strands have spaces. -/
theorem exists_constructions {spaces : StrandSpaces} {ts : List TensorRef}
    (h : ∀ t ∈ ts, ∃ s, t.strands braidingName = .ok s ∧
      (∃ space, spaces.spaces.find? s.1.2 = some space) ∧
      ∃ space, spaces.spaces.find? s.2.2 = some space) (table : HandleTable) :
    ∃ statements handles table',
      constructions braidingName spaces table ts = .ok (statements, handles, table') := by
  have hget : ∀ {i : Index} {space : LegSpace}, spaces.spaces.find? i = some space →
      spaces.get i = .ok space := by
    intro i space hfind
    rw [StrandSpaces.get, hfind]
  induction ts generalizing table with
  | nil => exact ⟨[], [], table, rfl⟩
  | cons t ts ih =>
    obtain ⟨⟨s, hs, ⟨first, hfirst⟩, second, hsecond⟩, h⟩ := List.forall_mem_cons.mp h
    obtain ⟨statements, handles, table', hrest⟩ := ih h table.freshBraiding.2
    refine ⟨braid table.freshBraiding.1 first second :: statements,
      (t, table.freshBraiding.1) :: handles, table', ?_⟩
    rw [constructions, hs, ok_bind]
    dsimp only
    rw [hget hfirst, ok_bind, hget hsecond, ok_bind, hrest]
    rfl

/-- Some strand of the braidings is not linked with any leg of another tensor. -/
def HasLooseStrand (braidingName : String) (terms : List TensorRef) : Prop :=
  ∃ x, TensorRef.IsCrossingStrand braidingName terms x ∧
    ∀ y, Strand.Linked (TensorRef.IsCrossingStrand braidingName terms) x y →
      ¬ y.IsAnchored (terms.filter fun t => !t.isBraiding braidingName)

theorem hasLooseStrand_congr {terms' : List TensorRef} (h : terms'.Perm terms) :
    HasLooseStrand braidingName terms' ↔ HasLooseStrand braidingName terms := by
  have hcrossing : TensorRef.IsCrossingStrand braidingName terms' =
      TensorRef.IsCrossingStrand braidingName terms :=
    funext fun e => propext (TensorRef.isCrossingStrand_congr (h.filter _) e)
  rw [HasLooseStrand, HasLooseStrand, hcrossing]
  refine exists_congr fun x => and_congr_right fun _ => forall₂_congr fun y _ => not_congr ?_
  exact exists_congr fun t => and_congr_left fun _ => (h.filter _).mem_iff

/-- All strands get a space exactly if none is loose. -/
theorem exists_unresolved_eq_nil_iff
    (hwell : ∀ t ∈ terms, t.isBraiding braidingName = true → t.left.length = 2 ∧
      t.right.length = 2) :
    ∃ strands,
      TensorRef.allStrands braidingName
        (distinct (terms.filter fun t => t.isBraiding braidingName)) = .ok strands ∧
      ((StrandSpaces.ofStrands (terms.filter fun t => !t.isBraiding braidingName)
        strands).unresolved = [] ↔ ¬ HasLooseStrand braidingName terms) := by
  have hstrand : ∀ t ∈ distinct (terms.filter fun t => t.isBraiding braidingName),
      ∃ s, t.strands braidingName = .ok s := by
    intro t ht
    obtain ⟨ht, hbraiding⟩ := List.mem_filter.mp (mem_distinct.mp ht)
    exact TensorRef.exists_strands_iff.mpr (hwell t ht hbraiding)
  obtain ⟨strands, hstrands⟩ := TensorRef.exists_allStrands hstrand
  have hmem : (· ∈ strands) = TensorRef.IsCrossingStrand braidingName terms :=
    funext fun e => propext <| by
    rw [TensorRef.mem_iff_of_allStrands_eq_ok hstrands, TensorRef.IsCrossingStrand]
    simp only [TensorRef.IsStrandOf, mem_distinct]
  refine ⟨strands, hstrands, ?_⟩
  simp only [List.eq_nil_iff_forall_not_mem, StrandSpaces.mem_unresolved_iff, HasLooseStrand,
    hmem, not_exists]

/-- What becomes of a statement whose braidings have strands. -/
theorem constructBraidings_eq (hterms : d.neighbourTerms? = some terms) {strands : List Strand}
    (hstrands : TensorRef.allStrands braidingName
      (distinct (terms.filter fun t => t.isBraiding braidingName)) =
      .ok strands) (table : HandleTable) :
    d.constructBraidings braidingName table =
      if distinct (terms.filter fun t => t.isBraiding braidingName) = [] then .ok (d, table)
      else if (StrandSpaces.ofStrands (terms.filter fun t => !t.isBraiding braidingName)
        strands).unresolved = [] then
        constructions braidingName (.ofStrands (terms.filter fun t => !t.isBraiding braidingName)
            strands) table (distinct (terms.filter fun t => t.isBraiding braidingName)) >>=
            fun built =>
          .ok (block [sealed built.1, d.mapRefs (resolveRef built.2.1)], built.2.2)
      else .error (.unresolvedSpaces
        (StrandSpaces.ofStrands (terms.filter fun t => !t.isBraiding braidingName)
          strands).unresolved d) := by
  have hstatement : d.constructBraidings braidingName table =
      d.constructStatement braidingName table := by
    cases d with
    | block | «sealed» | control => cases hterms
    | _ => rfl
  rw [hstatement, constructStatement, hterms]
  simp only [List.isEmpty_iff, hstrands, ok_bind]
  generalize hspaces : StrandSpaces.ofStrands (terms.filter fun t => !t.isBraiding braidingName)
    strands = spaces
  by_cases hnone : distinct (terms.filter fun t => t.isBraiding braidingName) = []
  · rw [if_pos hnone, if_pos hnone]
    rfl
  rw [if_neg hnone, if_neg hnone]
  by_cases hresolved : spaces.unresolved = []
  · rw [if_pos hresolved, hresolved, if_neg (by decide)]
    rfl
  · rw [if_neg hresolved, if_pos (by simpa using hresolved)]
    rfl

/-- Each distinct braiding among some references is built once, under a handle of its own. -/
structure BuildsEach (braidingName : String) (terms : List TensorRef) (statements : List Diagram)
    (handles : Table TensorRef Handle) : Prop where
  /-- Each distinct braiding has a handle. -/
  keys_eq : handles.keys = distinct (terms.filter fun t => t.isBraiding braidingName)
  /-- The handles differ. -/
  nodup : (handles.map Prod.snd).Nodup
  /-- There is one statement for each handle. -/
  constructs : List.Forall₂ Constructs statements (handles.map Prod.snd)

/-- All braidings are replaced by what has been built. -/
theorem BuildsEach.isBraiding_resolveRef {statements : List Diagram}
    {handles : Table TensorRef Handle} (h : BuildsEach braidingName terms statements handles)
    {t : TensorRef} (ht : t ∈ terms) : ¬ (resolveRef handles t).isBraiding braidingName = true := by
  by_cases hbraiding : t.isBraiding braidingName = true
  · obtain ⟨handle, -, heq⟩ := exists_resolveRef_eq h.keys_eq ht hbraiding
    rw [heq]
    simp [TensorRef.isBraiding, TensorRef.withObject]
  · rwa [resolveRef_eq_self h.keys_eq hbraiding]

section

variable (hterms : d.neighbourTerms? = some terms)
  (hwell : ∀ t ∈ terms, t.isBraiding braidingName = true → t.left.length = 2 ∧ t.right.length = 2)
  (table : HandleTable)

include hterms hwell

/-- Without the space of a strand no braiding is constructed. -/
theorem exists_missing_space (hloose : HasLooseStrand braidingName terms) :
    ∃ e, d.constructBraidings braidingName table = .error e ∧ e.kind = .braidingSpace := by
  obtain ⟨strands, hstrands, hresolved⟩ := exists_unresolved_eq_nil_iff hwell
  have hne : distinct (terms.filter fun t => t.isBraiding braidingName) ≠ [] := by
    obtain ⟨x, ⟨t, ht, -⟩, -⟩ := hloose
    exact List.ne_nil_of_mem (mem_distinct.mpr ht)
  rw [constructBraidings_eq hterms hstrands, if_neg hne, if_neg fun h => hresolved.mp h hloose]
  exact ⟨_, rfl, rfl⟩

/-- If no strand is loose, then all braidings are constructed. -/
theorem exists_constructed (hloose : ¬ HasLooseStrand braidingName terms) :
    ∃ statements handles table', d.constructBraidings braidingName table =
      .ok (if distinct (terms.filter fun t => t.isBraiding braidingName) = [] then d
        else block [sealed statements, d.mapRefs (resolveRef handles)], table') ∧
      BuildsEach braidingName terms statements handles := by
  obtain ⟨strands, hstrands, hresolved⟩ := exists_unresolved_eq_nil_iff hwell
  replace hresolved := hresolved.mpr hloose
  rw [constructBraidings_eq hterms hstrands, if_pos hresolved]
  obtain ⟨done, hdone, hassigned⟩ := StrandSpaces.exists_assigned hresolved
  have hspaces : ∀ e,
      TensorRef.IsStrandOf braidingName (distinct (terms.filter fun t => t.isBraiding braidingName))
      e → ∃ space,
      (StrandSpaces.ofStrands (terms.filter fun t => !t.isBraiding braidingName)
        strands).spaces.find? e.2 = some space := fun e he =>
    (hassigned.exists_find? e
      ((hdone e).mp ((TensorRef.mem_iff_of_allStrands_eq_ok hstrands e).mpr he))).2
  obtain ⟨statements, handles, table', hbuilt⟩ := exists_constructions (fun t ht => by
    obtain ⟨s, hs⟩ := TensorRef.exists_strands_of_allStrands hstrands ht
    exact ⟨s, hs, hspaces _ ⟨t, ht, s, hs, .inl rfl⟩, hspaces _ ⟨t, ht, s, hs, .inr rfl⟩⟩) table
  obtain ⟨hkeys, hconstructs, -⟩ := constructions_spec hbuilt
  have hobjects : ∀ i space,
      (StrandSpaces.ofStrands (terms.filter fun t => !t.isBraiding braidingName)
      strands).spaces.find? i = some space → space.object ∈
        (terms.filter fun t => !t.isBraiding braidingName).map TensorRef.object := by
    intro i space hspace
    obtain ⟨t, ht, hobject⟩ := object_of_mem_spaces hresolved hspace
    exact hobject ▸ List.mem_map_of_mem ht
  refine ⟨statements, handles, table', ?_, hkeys, (constructions_writes hbuilt hobjects).1.nodup,
    hconstructs⟩
  split_ifs with hnone
  · -- nothing is built, so no handle is created
    rw [hnone] at hbuilt
    rw [(Prod.mk.inj (Prod.mk.inj (Except.ok.inj hbuilt)).2).2]
  · rw [hbuilt, ok_bind]

theorem exists_constructBraidings_iff :
    (∃ r, d.constructBraidings braidingName table = .ok r) ↔
      ¬ HasLooseStrand braidingName terms := by
  constructor
  · rintro ⟨r, hr⟩ hloose
    obtain ⟨e, he, -⟩ := exists_missing_space hterms hwell table hloose
    rw [hr] at he
    cases he
  · intro hloose
    obtain ⟨statements, handles, table', h, -⟩ := exists_constructed hterms hwell table hloose
    exact ⟨_, h⟩

end

/-- The braidings of a statement can not be constructed exactly if one of their strands is loose, in
whatever order its references are listed.  If they can, then each distinct one is built once and
takes the place of its references. -/
theorem construction_fails_iff_hasLooseStrand (hterms : d.neighbourTerms? = some terms)
    (hwell : ∀ t ∈ terms, t.isBraiding braidingName = true → t.left.length = 2 ∧ t.right.length = 2)
    (table : HandleTable) :
    ((∃ e, d.constructBraidings braidingName table = .error e ∧ e.kind = .braidingSpace) ↔
      HasLooseStrand braidingName terms) ∧
    (¬ HasLooseStrand braidingName terms → ∃ statements handles table',
      d.constructBraidings braidingName table =
        .ok (if distinct (terms.filter fun t => t.isBraiding braidingName) = [] then d
          else block [sealed statements, d.mapRefs (resolveRef handles)], table') ∧
      BuildsEach braidingName terms statements handles ∧
      ∃ used, (d.mapRefs (resolveRef handles)).statementTerms? = some used ∧
        ∀ t ∈ used, ¬ t.isBraiding braidingName = true) ∧
    ∀ (d' : Diagram) (terms' : List TensorRef)
      (table' : HandleTable), d'.neighbourTerms? = some terms' →
      terms'.Perm terms → ((∃ r, d'.constructBraidings braidingName table' = .ok r) ↔
        ∃ r, d.constructBraidings braidingName table = .ok r) := by
  refine ⟨⟨?_, exists_missing_space hterms hwell table⟩, fun hloose => ?_,
    fun d' terms' table' hterms' hperm => ?_⟩
  · rintro ⟨e, he, -⟩
    by_contra hloose
    obtain ⟨r, hr⟩ := (exists_constructBraidings_iff hterms hwell table).mpr hloose
    rw [hr] at he
    cases he
  · obtain ⟨statements, handles, table', h, hbuilds⟩ := exists_constructed hterms hwell table hloose
    obtain ⟨used, others, hused, rfl⟩ := exists_statementTerms? hterms
    refine ⟨statements, handles, table', h, hbuilds, used.map (resolveRef handles), ?_, ?_⟩
    · rw [statementTerms?_mapRefs, hused, Option.map_some]
    · exact List.forall_mem_map.mpr fun t ht =>
        hbuilds.isBraiding_resolveRef (List.mem_append_left _ ht)
  · rw [exists_constructBraidings_iff hterms' (fun t ht => hwell t (hperm.mem_iff.mp ht)) table',
      exists_constructBraidings_iff hterms hwell table, hasLooseStrand_congr hperm]

/-- Two legs of a tensor are taken across each other three times. -/
def chainedCrossings (reversed : Bool) : Diagram :=
  let first : Diagram := ref ⟨.name "τ", [.name "u", .name "x"], [.name "a", .name "b"], false⟩
  let second : Diagram := ref ⟨.name "τ", [.name "x'", .name "u'"], [.name "u", .name "x"], true⟩
  let third : Diagram := ref ⟨.name "τ", [.name "z", .name "y"], [.name "x'", .name "u'"], false⟩
  product (ref ⟨.name "A", [.name "a", .name "b"], [], false⟩) (if reversed then third else first)
    [second, if reversed then first else third]

/-- All strands of the chain are linked with the tensor, but a strand that is closed is linked with
nothing.  In the chain only the crossing next to the tensor has strands on its legs, and the others
are resolved from there. -/
theorem construction_of_chainedCrossings :
    ¬ HasLooseStrand "τ" (chainedCrossings true).tensors ∧
    (∃ r, (chainedCrossings true).constructBraidings "τ" .empty = .ok r) ∧
    HasLooseStrand "τ" closedStrand.tensors ∧
    ∃ e, closedStrand.constructBraidings "τ" .empty = .error e ∧ e.kind = .braidingSpace := by
  have hwell : ∀ t ∈ (chainedCrossings false).tensors, t.isBraiding "τ" = true →
      t.left.length = 2 ∧ t.right.length = 2 := by decide
  have hwell' : ∀ t ∈ closedStrand.tensors, t.isBraiding "τ" = true → t.left.length = 2 ∧
      t.right.length = 2 := by
    decide
  obtain ⟨hfails, -, horder⟩ :=
    construction_fails_iff_hasLooseStrand (d := chainedCrossings false) rfl hwell .empty
  have hfails' := (construction_fails_iff_hasLooseStrand (d := closedStrand) rfl hwell' .empty).1
  have hmissing : ∃ e, closedStrand.constructBraidings "τ" .empty = .error e ∧
    e.kind = .braidingSpace := ⟨_, rfl, rfl⟩
  have hperm : (chainedCrossings true).tensors.Perm (chainedCrossings false).tensors := by decide
  refine ⟨fun hloose => ?_, (horder _ _ .empty rfl hperm).mpr ⟨_, rfl⟩,
    hfails'.mp hmissing, hmissing⟩
  obtain ⟨e, he, -⟩ := hfails.mpr ((hasLooseStrand_congr hperm).mp hloose)
  cases he

end Diagram

end TensorDiagram
