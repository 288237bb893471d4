import TensorDiagram.Braiding.Remove
import TensorDiagram.Proofs.Outcomes

/-!
# Index maps and the classes of strands

An index map says by which index each index is represented.  It is built by identifying the ends of
strands one after another, and closed in the end.

A relation that is reflexive and transitive follows a map if it relates every index to the one that
represents it (`IndexMap.Follows`).  Two such relations tell what the closed map does: what is the
same at both ends of every strand is the same at an index and at its representative
(`findD_closure_eq`), and an index of the left hand side is represented by one of the left hand side
(`findD_closure_mem`).

A third one shows that nothing can go wrong: there is a height that falls from every index to the
one that represents it.  So following the map comes to an end, and shortening it lowers the sum of
heights.  The closed map exists, and it represents both ends of every strand by the same index
(`exists_closure`).
-/

namespace TensorDiagram

theorem Table.find?_put {κ α : Type} [DecidableEq κ] (t : Table κ α) (key other : κ) (value : α) :
    (t.put key value).find? other = if other = key then some value else t.find? other := by
  split_ifs with h
  · rw [h, find?_put_self]
  · exact find?_put_of_ne t value h

/-- One of the two ends of a strand is kept. -/
theorem keptIndex_eq_or (outgoing : List Index) (a b : Index) :
    keptIndex outgoing a b = a ∨ keptIndex outgoing a b = b := by
  unfold keptIndex
  split_ifs
  · exact Or.inl rfl
  · exact Or.inr rfl
  · split
    · exact (max_choice _ _).imp (congrArg Index.number) (congrArg Index.number)
    · exact Or.inl rfl

/-- If one of the two ends of a strand is on the left hand side, then so is the one that is kept. -/
theorem keptIndex_mem {outgoing : List Index} {a b : Index} (h : a ∈ outgoing ∨ b ∈ outgoing) :
    keptIndex outgoing a b ∈ outgoing := by
  unfold keptIndex
  split_ifs with ha hb
  · exact ha
  · exact hb
  · exact absurd h (not_or_intro ha hb)

namespace IndexMap

variable {map map' : IndexMap}
variable {i j : Index} {strands : List Strand} {fuel : ℕ} {seen : List Index}

/-! ## Relations that follow a map -/

section

variable {Q : Index → Index → Prop}

/-- Every index is related to the index by which it is represented. -/
def Follows (Q : Index → Index → Prop) (map : IndexMap) : Prop :=
  ∀ i j, Table.find? i map = some j → Q i j

theorem Follows.put (h : map.Follows Q) {key value : Index} (hkey : Q key value) :
    Follows Q (Table.put key value map) := by
  intro i j hj
  rw [Table.find?_put] at hj
  split_ifs at hj with hi
  · rw [hi, ← Option.some.inj hj]
    exact hkey
  · exact h i j hj

theorem Follows.findD [Std.Refl Q] (h : map.Follows Q) (i : Index) : Q i (Table.findD map i i) := by
  rw [Table.findD]
  rcases hfind : Table.find? i map with _ | value
  · exact refl i
  · exact h i value hfind

/-- What shortening an entry does. -/
theorem shorten_cases (map : IndexMap) (key : Index) : map.shorten key = map ∨ ∃ value next,
    Table.find? key map = some value ∧ Table.find? value map = some next ∧ next ≠ value ∧
      map.shorten key = Table.put key next map := by
  rw [IndexMap.shorten]
  rcases hvalue : Table.find? key map with _ | value
  · exact Or.inl rfl
  · dsimp only
    rcases hnext : Table.find? value map with _ | next
    · exact Or.inl rfl
    · dsimp only
      split_ifs with heq
      · exact Or.inl rfl
      · exact Or.inr ⟨value, next, rfl, hnext, heq, rfl⟩

variable [IsTrans Index Q]

theorem Follows.shorten (h : map.Follows Q) (key : Index) : Follows Q (map.shorten key) := by
  rcases map.shorten_cases key with heq | ⟨value, next, hvalue, hnext, -, heq⟩
  · rwa [heq]
  · rw [heq]
    exact h.put (IsTrans.trans _ _ _ (h _ _ hvalue) (h _ _ hnext))

theorem Follows.shortenAll (h : map.Follows Q) : Follows Q map.shortenAll := by
  rw [IndexMap.shortenAll]
  generalize map.keys = keys
  induction keys generalizing map with
  | nil => exact h
  | cons key keys ih => exact ih (h.shorten key)

/-- What follows a map follows its closure. -/
theorem Follows.closure (h : map.Follows Q) {closed : IndexMap}
    (hclosed : map.closure = .ok closed) : Follows Q closed := by
  have huntil : ∀ (start : IndexMap) (fuel : ℕ) (seen : List IndexMap) (map : IndexMap),
      map.Follows Q → shortenUntil start fuel seen map = .ok closed → Follows Q closed := by
    intro start fuel
    induction fuel with
    | zero => exact fun seen map _ hclosed => by cases hclosed
    | succ fuel ih =>
      intro seen map h hclosed
      rw [IndexMap.shortenUntil] at hclosed
      split_ifs at hclosed
      · exact Except.ok.inj hclosed ▸ h
      · exact ih _ _ h.shortenAll hclosed
  exact huntil _ _ _ _ h hclosed

variable [Std.Refl Q]

theorem Follows.follow (h : map.Follows Q) (hj : map.follow fuel seen i = .ok j) : Q i j := by
  induction fuel generalizing seen i with
  | zero => cases hj
  | succ fuel ih =>
    rw [IndexMap.follow] at hj
    split_ifs at hj with hnext hseen
    · rw [Except.ok.inj hj]
      exact refl j
    · exact IsTrans.trans _ _ _ (h.findD i) (ih hj)

/-- Identifying the ends of all strands. -/
theorem Follows.foldlM_identify (h : map.Follows Q) {outgoing : List Index}
    (hstrands : ∀ s ∈ strands, ∀ a b, Q s.1 a → Q s.2 b →
      Q a (keptIndex outgoing a b) ∧ Q b (keptIndex outgoing a b))
    (hmap : strands.foldlM (identify outgoing) map = .ok map') : Follows Q map' := by
  refine foldlM_keeps (fun map h s hs map' hmap => ?_) h hmap
  rw [identify] at hmap
  obtain ⟨a, ha, hmap⟩ := bind_eq_ok_iff.mp hmap
  obtain ⟨b, hb, hmap⟩ := bind_eq_ok_iff.mp hmap
  obtain rfl := Except.ok.inj hmap
  obtain ⟨hkept, hkept'⟩ := hstrands s hs a b (h.follow ha) (h.follow hb)
  exact (h.put hkept).put hkept'

end

theorem follows_nil (Q : Index → Index → Prop) : Follows Q [] := by
  intro i j hj
  cases hj

/-! ## What the closed map does -/

section

variable {outgoing : List Index} {strands : List Strand} {closed : IndexMap}
  (hmap : strands.foldlM (identify outgoing) [] = .ok map) (hclosed : map.closure = .ok closed)

include hmap hclosed

/-- Only ends of strands are identified: what is the same at both ends of every strand is the same
at an index and at its representative. -/
theorem findD_closure_eq {α : Type} {f : Index → α}
    (hf : ∀ s ∈ strands, f s.1 = f s.2) (i : Index) : f (closed.findD i i) = f i := by
  have : Std.Refl fun a b => f a = f b := ⟨fun _ => rfl⟩
  have : IsTrans Index fun a b => f a = f b := ⟨fun _ _ _ => Eq.trans⟩
  have hfollows :=
    (follows_nil fun a b => f a = f b).foldlM_identify (fun s hs a b ha hb => ?_) hmap
  · exact ((hfollows.closure hclosed).findD i).symm
  have hab : f a = f b := ha.symm.trans ((hf s hs).trans hb)
  rcases keptIndex_eq_or outgoing a b with hkept | hkept
  · exact ⟨by rw [hkept], by rw [hkept, hab]⟩
  · exact ⟨by rw [hkept, hab], by rw [hkept]⟩

/-- An index of the left hand side is represented by one of the left hand side. -/
theorem findD_closure_mem (hi : i ∈ outgoing) : closed.findD i i ∈ outgoing := by
  have : Std.Refl fun a b => a ∈ outgoing → b ∈ outgoing := ⟨fun _ => id⟩
  have : IsTrans Index fun a b => a ∈ outgoing → b ∈ outgoing :=
    ⟨fun _ _ _ hab hbc ha => hbc (hab ha)⟩
  have hfollows := (follows_nil fun a b => a ∈ outgoing → b ∈ outgoing).foldlM_identify
    (fun s hs a b _ _ => ⟨fun ha => keptIndex_mem (Or.inl ha), fun hb => keptIndex_mem (Or.inr hb)⟩)
    hmap
  exact (hfollows.closure hclosed).findD i hi

end

/-! ## Heights -/

/-- The second index is lower than the first one, or the same. -/
def Lower (height : Index → ℕ) (i j : Index) : Prop :=
  j = i ∨ height j < height i

instance (height : Index → ℕ) : Std.Refl (Lower height) :=
  ⟨fun _ => Or.inl rfl⟩

instance (height : Index → ℕ) : IsTrans Index (Lower height) where
  trans := by
    rintro i j k (rfl | hij) (rfl | hjk)
    · exact Or.inl rfl
    · exact Or.inr hjk
    · exact Or.inr hij
    · exact Or.inr (hjk.trans hij)

variable {height : Index → ℕ}

/-- The height can be chosen such that there is not more of it than there are entries. -/
theorem Follows.exists_height_le (h : map.Follows (Lower height)) :
    ∃ height' : Index → ℕ, map.Follows (Lower height') ∧ ∀ i, height' i ≤ map.length := by
  refine ⟨fun i => ((Table.keys map).toFinset.filter fun k => height k ≤ height i).card,
    fun i j hj => ?_, fun i => ?_⟩
  · refine (h i j hj).imp_right fun hlt =>
      Finset.card_lt_card (Finset.ssubset_iff_subset_ne.mpr ⟨?_, ?_⟩)
    · exact Finset.monotone_filter_right _ fun k _ hk => hk.trans hlt.le
    · -- the index itself is not as low as the one that represents it
      have hkey : i ∈ Table.keys map := by
        by_contra hnot
        rw [(Table.find?_eq_none_iff _ _).mpr hnot] at hj
        cases hj
      intro heq
      have hmem : i ∈ (Table.keys map).toFinset.filter fun k => height k ≤ height i :=
        Finset.mem_filter.mpr ⟨List.mem_toFinset.mpr hkey, le_refl _⟩
      rw [← heq, Finset.mem_filter] at hmem
      exact absurd hmem.2 (Nat.not_le.mpr hlt)
  · refine (Finset.card_filter_le _ _).trans ((List.toFinset_card_le _).trans ?_)
    rw [Table.keys, List.length_map]

/-- Following the map comes to an end. -/
theorem Follows.exists_follow (h : map.Follows (Lower height)) (hfuel : height i < fuel)
    (hseen : ∀ x ∈ seen, height i ≤ height x) : ∃ j, map.follow fuel seen i = .ok j := by
  induction fuel generalizing seen i with
  | zero => exact absurd hfuel (Nat.not_lt_zero _)
  | succ fuel ih =>
    rw [IndexMap.follow]
    split_ifs with hnext hmem
    · exact ⟨i, rfl⟩
    · have hlt := (h.findD i).resolve_left hnext
      exact absurd (hseen _ hmem) (Nat.not_le.mpr hlt)
    · have hlt := (h.findD i).resolve_left hnext
      refine ih (by omega) (List.forall_mem_cons.mpr ⟨le_refl _, fun x hx => ?_⟩)
      exact hlt.le.trans (hseen x hx)

theorem Follows.exists_representative (h : map.Follows (Lower height)) (i : Index) :
    ∃ j, map.representative i = .ok j := by
  obtain ⟨height', h', hle⟩ := h.exists_height_le
  exact h'.exists_follow (Nat.lt_succ_of_le (hle i)) (List.forall_mem_singleton.mpr (le_refl _))

/-- The end represents itself. -/
theorem findD_of_follow (hj : map.follow fuel seen i = .ok j) : Table.findD map j j = j := by
  induction fuel generalizing seen i with
  | zero => cases hj
  | succ fuel ih =>
    rw [IndexMap.follow] at hj
    split_ifs at hj with hnext hseen
    · rwa [← Except.ok.inj hj]
    · exact ih hj

/-! ## Identifying the ends of strands -/

/-- What is the same at an index and at the one that represents it is the same at both ends of some
strands. -/
def Joins (strands : List Strand) (map : IndexMap) : Prop :=
  ∀ f : Index → Index, map.Follows (fun i j => f i = f j) → ∀ s ∈ strands, f s.1 = f s.2

/-- The ends of one more strand are identified. -/
theorem exists_identify (h : map.Follows (Lower height)) (hjoins : map.Joins strands)
    (outgoing : List Index) (s : Strand) :
    ∃ map' height', identify outgoing map s = .ok map' ∧
      map'.Follows (Lower height') ∧ map'.Joins (s :: strands) := by
  obtain ⟨a, ha⟩ := h.exists_representative s.1
  obtain ⟨b, hb⟩ := h.exists_representative s.2
  set kept := keptIndex outgoing a b with hkept
  have hab : kept = a ∨ kept = b := keptIndex_eq_or outgoing a b
  refine ⟨Table.put b kept (Table.put a kept map), fun i => if i = kept then 0 else height i + 1,
    ?_, ?_, ?_⟩
  · rw [identify, ha, ok_bind, hb, ok_bind]
    rfl
  · -- the index that is kept is lower than all others
    have hlower : ∀ i, Lower (fun i => if i = kept then 0 else height i + 1) i kept := by
      intro i
      by_cases hi : i = kept
      · exact Or.inl hi.symm
      · right
        simp [hi]
    intro i j hj
    rw [Table.find?_put, Table.find?_put] at hj
    split_ifs at hj with hib hia
    · exact Option.some.inj hj ▸ hlower i
    · exact Option.some.inj hj ▸ hlower i
    · have hi : i ≠ kept := by
        rintro rfl
        exact hab.elim hia hib
      refine (h i j hj).imp_right fun hlt => ?_
      simp only [hi, if_false]
      split_ifs <;> omega
  · intro f hf
    have hka : f a = f kept := by
      by_cases heq : a = b
      · exact hf a kept (by rw [Table.find?_put, if_pos heq])
      · exact hf a kept (by rw [Table.find?_put, if_neg heq, Table.find?_put, if_pos rfl])
    have hkb : f b = f kept := hf b kept (by rw [Table.find?_put, if_pos rfl])
    -- the two entries that are overwritten represent an index by itself
    have hself : ∀ i j, Table.findD map i i = i → Table.find? i map = some j → f i = f j := by
      intro i j hi hj
      rw [Table.findD, hj, Option.getD_some] at hi
      rw [hi]
    have hold : map.Follows fun i j => f i = f j := by
      intro i j hj
      by_cases hib : i = b
      · exact hself i j (hib ▸ findD_of_follow hb) hj
      · by_cases hia : i = a
        · exact hself i j (hia ▸ findD_of_follow ha) hj
        · exact hf i j (by rw [Table.find?_put, if_neg hib, Table.find?_put, if_neg hia, hj])
    have : Std.Refl fun i j => f i = f j := ⟨fun _ => rfl⟩
    have : IsTrans Index fun i j => f i = f j := ⟨fun _ _ _ => Eq.trans⟩
    refine List.forall_mem_cons.mpr ⟨?_, hjoins f hold⟩
    calc f s.1 = f a := hold.follow ha
      _ = f kept := hka
      _ = f b := hkb.symm
      _ = f s.2 := (hold.follow hb).symm

/-- The ends of all strands are identified. -/
theorem exists_foldlM_identify (h : map.Follows (Lower height)) {done : List Strand}
    (hjoins : map.Joins done) (outgoing : List Index) (strands : List Strand) : ∃ map' height',
      strands.foldlM (identify outgoing) map = .ok map' ∧ map'.Follows (Lower height') ∧
        map'.Joins (strands.reverse ++ done) := by
  induction strands generalizing map height done with
  | nil => exact ⟨map, height, rfl, h, hjoins⟩
  | cons s strands ih =>
    obtain ⟨map₁, height₁, hmap₁, h₁, hjoins₁⟩ := exists_identify h hjoins outgoing s
    obtain ⟨map₂, height₂, hmap₂, h₂, hjoins₂⟩ := ih h₁ hjoins₁
    refine ⟨map₂, height₂, ?_, h₂, ?_⟩
    · rw [List.foldlM_cons, hmap₁, ok_bind, hmap₂]
    · rwa [List.reverse_cons, List.append_assoc, List.singleton_append]

/-! ## Closing the map -/

/-- The sum of the heights of all indices that represent others. -/
def total (height : Index → ℕ) (map : IndexMap) : ℕ :=
  (map.map fun entry => height entry.2).sum

theorem total_put (height : Index → ℕ) {key value : Index} (h : Table.find? key map = some value)
    (next : Index) :
    total height (Table.put key next map) + height value = total height map + height next := by
  induction map with
  | nil => cases h
  | cons entry map ih =>
    obtain ⟨k, v⟩ := entry
    rw [Table.find?] at h
    rw [Table.put]
    split_ifs at h ⊢ with hk
    · rw [Option.some.inj h]
      simp only [total, List.map_cons, List.sum_cons]
      omega
    · have hrest := ih h
      simp only [total, List.map_cons, List.sum_cons] at hrest ⊢
      omega

theorem total_le (hle : ∀ i, height i ≤ map.length) :
    total height map ≤ map.length * map.length := by
  have hmem : ∀ x ∈ map.map fun entry => height entry.2, x ≤ map.length := by
    intro x hx
    obtain ⟨entry, -, rfl⟩ := List.mem_map.mp hx
    exact hle entry.2
  have hsum := List.sum_le_card_nsmul _ _ hmem
  rwa [List.length_map, smul_eq_mul] at hsum

/-- Shortening an entry lowers the sum of heights, if it changes anything. -/
theorem Follows.shorten_eq_or_lt (h : map.Follows (Lower height)) (key : Index) :
    map.shorten key = map ∨ total height (map.shorten key) < total height map := by
  refine (map.shorten_cases key).imp_right fun ⟨value, next, hvalue, hnext, hne, heq⟩ => ?_
  have hlt := (h value next hnext).resolve_left hne
  have htotal := total_put height hvalue next
  rw [heq]
  omega

/-- Shortening all entries lowers the sum of heights, if it changes anything. -/
theorem Follows.shortenAll_eq_or_lt (h : map.Follows (Lower height)) :
    (map.shortenAll = map ∧ ∀ key ∈ Table.keys map, map.shorten key = map) ∨
      total height map.shortenAll < total height map := by
  have hkeys : ∀ keys : List Index, (keys.foldl IndexMap.shorten map = map ∧
      ∀ key ∈ keys, map.shorten key = map) ∨ total height (keys.foldl IndexMap.shorten map) <
      total height map := by
    intro keys
    induction keys generalizing map with
    | nil => exact Or.inl ⟨rfl, by simp⟩
    | cons key keys ih =>
      rw [List.foldl_cons]
      rcases h.shorten_eq_or_lt key with heq | hlt
      · rw [heq]
        exact (ih h).imp_left fun ⟨hmap, hkeys⟩ => ⟨hmap, List.forall_mem_cons.mpr ⟨heq, hkeys⟩⟩
      · refine Or.inr ((ih (h.shorten key)).elim (fun hmap => ?_) fun hlt' => hlt'.trans hlt)
        rwa [hmap.1]
  exact hkeys _

/-- What is the same at an index and at the one that represents it is so before an entry is
shortened. -/
theorem Joins.shorten (h : map.Joins strands) (key : Index) : Joins strands (map.shorten key) := by
  rcases map.shorten_cases key with heq | ⟨value, next, hvalue, hnext, hne, heq⟩
  · rwa [heq]
  · rw [heq]
    intro f hf
    refine h f fun i j hj => ?_
    by_cases hi : i = key
    · subst hi
      obtain rfl : value = j := Option.some.inj (hvalue.symm.trans hj)
      have hvi : value ≠ i := by
        rintro rfl
        exact hne (Option.some.inj (hnext.symm.trans hvalue))
      calc f i = f next := hf i next (by rw [Table.find?_put, if_pos rfl])
        _ = f value := (hf value next (by rw [Table.find?_put, if_neg hvi, hnext])).symm
    · exact hf i j (by rw [Table.find?_put, if_neg hi, hj])

theorem Joins.shortenAll (h : map.Joins strands) : Joins strands map.shortenAll := by
  rw [IndexMap.shortenAll]
  generalize map.keys = keys
  induction keys generalizing map with
  | nil => exact h
  | cons key keys ih => exact ih (h.shorten key)

/-- Shortening comes to an end. -/
theorem exists_shortenUntil (h : map.Follows (Lower height)) (hjoins : map.Joins strands)
    {start : IndexMap} {seen : List IndexMap} (hfuel : total height map < fuel)
    (hseen : ∀ x ∈ seen, total height map < total height x) :
    ∃ closed,
      shortenUntil start fuel seen map = .ok closed ∧ closed.Joins strands ∧
        ∀ key ∈ Table.keys closed, closed.shorten key = closed := by
  induction fuel generalizing map seen with
  | zero => exact absurd hfuel (Nat.not_lt_zero _)
  | succ fuel ih =>
    rw [shortenUntil, if_neg fun hmem => absurd (hseen _ hmem) (lt_irrefl _)]
    rcases h.shortenAll_eq_or_lt with ⟨heq, hkeys⟩ | hlt
    · rw [if_pos heq]
      exact ⟨map, rfl, hjoins, hkeys⟩
    · have hne : map.shortenAll ≠ map := by
        intro heq
        rw [heq] at hlt
        exact lt_irrefl _ hlt
      rw [if_neg hne]
      refine ih h.shortenAll hjoins.shortenAll (by omega)
        (List.forall_mem_cons.mpr ⟨hlt, fun x hx => ?_⟩)
      exact hlt.trans (hseen x hx)

/-- An index is represented by one that represents itself, if no entry can be shortened. -/
theorem findD_findD {closed : IndexMap}
    (hkeys : ∀ key ∈ Table.keys closed, closed.shorten key = closed)
    (hj : Table.find? i closed = some j) : Table.findD closed j j = j := by
  have hkey : i ∈ Table.keys closed := by
    by_contra hnot
    rw [(Table.find?_eq_none_iff _ _).mpr hnot] at hj
    cases hj
  rcases hnext : Table.find? j closed with _ | next
  · rw [Table.findD, hnext, Option.getD_none]
  · rw [Table.findD, hnext, Option.getD_some]
    by_contra hne
    have hput : Table.put i next closed = closed := by
      have hshorten := hkeys i hkey
      rw [shorten, hj] at hshorten
      simpa only [hnext, hne, if_false] using hshorten
    rw [← hput, Table.find?_put, if_pos rfl] at hj
    exact hne (Option.some.inj hj)

/-- The closed map of some strands exists, and it represents both ends of every strand by the same
index. -/
theorem exists_closure (outgoing : List Index) (strands : List Strand) : ∃ map closed,
    strands.foldlM (identify outgoing) [] = .ok map ∧ map.closure = .ok closed ∧
      ∀ s ∈ strands, closed.findD s.1 s.1 = closed.findD s.2 s.2 := by
  have hnil : Follows (Lower fun _ => 0) [] := follows_nil _
  have hdone : Joins [] [] := fun f _ s hs => absurd hs List.not_mem_nil
  obtain ⟨map, height, hmap, h, hjoins⟩ := exists_foldlM_identify hnil hdone outgoing strands
  obtain ⟨height', h', hle⟩ := h.exists_height_le
  have hfuel : total height' map < (map.length + 1) * (map.length + 2) := by
    have htotal := total_le hle
    nlinarith
  have hseen : ∀ x ∈ ([] : List IndexMap), total height' map < total height' x :=
    fun x hx => absurd hx List.not_mem_nil
  obtain ⟨closed, hclosed, hjoins', hkeys⟩ := exists_shortenUntil h' hjoins hfuel hseen
  refine ⟨map, closed, hmap, hclosed, fun s hs => ?_⟩
  refine hjoins' (fun i => closed.findD i i) (fun i j hj => ?_) s (by simpa using hs)
  change Table.findD closed i i = Table.findD closed j j
  rw [findD_findD hkeys hj, Table.findD, hj, Option.getD_some]

end IndexMap

end TensorDiagram
