import TensorDiagram.Proofs.IndexMaps

/-!
# Cycles of index maps

An index map is followed step by step (`IndexMap.next`), until an index represents itself.  There
are finitely many entries, so from every index one either comes to such an end or runs into a cycle
of two or more indices, and not both (`IndexMap.runsIntoCycle_iff`).  Following the map with a list
of the indices seen so far tells which: it returns the end if there is one
(`IndexMap.representative_eq_ok_iff`), and otherwise an error
(`IndexMap.representative_eq_error_iff`).

Both ways of resolving a map, following it and closing it, repeat a step until nothing changes and
give up if something comes back.  A step that comes to rest never meets anything twice before
(`RestsAfter`).
-/

namespace TensorDiagram

open Function

/-! ## Coming to rest -/

section Rest

variable {α : Type} {f : α → α} {x : α} {n : ℕ}

/-- Applying a function again and again comes to a fixed point after a number of steps, and not
earlier. -/
structure RestsAfter (f : α → α) (x : α) (n : ℕ) : Prop where
  /-- There is nothing to do after these steps. -/
  rest : IsFixedPt f (f^[n] x)
  /-- Every step before does something. -/
  moves : ∀ k < n, ¬ IsFixedPt f (f^[k] x)

/-- Only one fixed point is reached. -/
theorem iterate_eq_of_isFixedPt {m : ℕ} (hm : IsFixedPt f (f^[m] x)) (hn : IsFixedPt f (f^[n] x)) :
    f^[m] x = f^[n] x := by
  wlog hle : m ≤ n generalizing m n
  · exact (this hn hm (by omega)).symm
  obtain ⟨k, rfl⟩ := Nat.exists_eq_add_of_le' hle
  rw [iterate_add_apply, hm.iterate k]

theorem exists_restsAfter (h : IsFixedPt f (f^[n] x)) :
    ∃ m ≤ n, RestsAfter f x m ∧ f^[m] x = f^[n] x := by
  classical
  have hex : ∃ m, IsFixedPt f (f^[m] x) := ⟨n, h⟩
  have hle : Nat.find hex ≤ n := Nat.find_min' hex h
  exact ⟨Nat.find hex, hle, ⟨Nat.find_spec hex, fun k hk => Nat.find_min hex hk⟩,
    iterate_eq_of_isFixedPt (Nat.find_spec hex) h⟩

/-- A periodic point from which a fixed point is reached is itself fixed. -/
theorem isFixedPt_of_mem_periodicPts (hx : x ∈ periodicPts f) (h : IsFixedPt f (f^[n] x)) :
    IsFixedPt f x := by
  obtain ⟨p, hp, hperiod⟩ := hx
  -- after `n` periods the fixed point has been reached, and one is back at the start
  obtain ⟨k, hk⟩ := Nat.exists_eq_add_of_le' (Nat.le_mul_of_pos_left n hp)
  have hback : f^[n] x = x := by
    calc f^[n] x = f^[k] (f^[n] x) := (h.iterate k).symm
      _ = f^[p * n] x := by rw [hk, iterate_add_apply]
      _ = x := hperiod.mul_const n
  rwa [hback] at h

namespace RestsAfter

theorem tail (h : RestsAfter f x (n + 1)) : RestsAfter f (f x) n :=
  ⟨h.rest, fun k hk => h.moves (k + 1) (Nat.succ_lt_succ hk)⟩

/-- Nothing is met twice on the way. -/
theorem injOn (h : RestsAfter f x n) : Set.InjOn (fun k => f^[k] x) (Set.Iic n) := by
  have hne : ∀ {i j : ℕ}, i < j → j ≤ n → f^[i] x ≠ f^[j] x := by
    intro i j hij hj heq
    obtain ⟨p, rfl⟩ := Nat.exists_eq_add_of_le' hij.le
    obtain ⟨k, rfl⟩ := Nat.exists_eq_add_of_le' (hij.le.trans hj)
    have hperiodic : f^[i] x ∈ periodicPts f := by
      refine mk_mem_periodicPts (n := p) (by omega) ?_
      rw [IsPeriodicPt, IsFixedPt, ← iterate_add_apply]
      exact heq.symm
    have hrest := h.rest
    rw [iterate_add_apply] at hrest
    exact h.moves i (hij.trans_le hj) (isFixedPt_of_mem_periodicPts hperiodic hrest)
  intro i hi j hj heq
  rcases lt_trichotomy i j with hij | hij | hij
  · exact absurd heq (hne hij hj)
  · exact hij
  · exact absurd heq.symm (hne hij hi)

/-- One does not come back to the start. -/
theorem iterate_ne (h : RestsAfter f x n) {k : ℕ} (hk : 0 < k) (hkn : k ≤ n) : f^[k] x ≠ x :=
  fun heq =>
  hk.ne' (h.injOn hkn (Nat.zero_le n) heq)

end RestsAfter

/-- What lowers a measure until it stops does stop. -/
theorem exists_iterate_of_lt (P Q : α → Prop) (μ : α → ℕ) (hP : ∀ x, P x → P (f x))
    (hstep : ∀ x, P x → Q x ∨ μ (f x) < μ x) (hx : P x) : ∃ n ≤ μ x, Q (f^[n] x) := by
  induction hμ : μ x using Nat.strong_induction_on generalizing x with
  | _ m ih =>
    rcases hstep x hx with hstop | hlt
    · exact ⟨0, Nat.zero_le m, hstop⟩
    · obtain ⟨n, hn, hstop⟩ := ih _ (hμ ▸ hlt) (hP x hx) rfl
      exact ⟨n + 1, by omega, hstop⟩

end Rest

namespace IndexMap

variable {map : IndexMap} {i j c : Index}

/-! ## Following a map -/

/-- The index that comes next when a map is followed. -/
def next (map : IndexMap) (i : Index) : Index :=
  Table.findD map i i

/-- The index lies on a cycle of two or more indices. -/
def OnCycle (map : IndexMap) (c : Index) : Prop :=
  2 ≤ minimalPeriod map.next c

/-- Following the map from an index leads to a cycle of two or more indices. -/
def RunsIntoCycle (map : IndexMap) (i : Index) : Prop :=
  ∃ n, map.OnCycle (map.next^[n] i)

theorem next_eq_of_find? (h : Table.find? i map = some j) : map.next i = j := by
  rw [next, Table.findD, h, Option.getD_some]

theorem find?_eq_some_next (h : i ∈ Table.keys map) : Table.find? i map = some (map.next i) := by
  rcases hfind : Table.find? i map with _ | value
  · exact absurd h ((Table.find?_eq_none_iff map i).mp hfind)
  · rw [next_eq_of_find? hfind]

theorem mem_keys_of_find? (h : Table.find? i map = some j) : i ∈ Table.keys map := by
  by_contra hnot
  rw [(Table.find?_eq_none_iff map i).mpr hnot] at h
  cases h

theorem mem_keys_of_not_isFixedPt (h : ¬ IsFixedPt map.next i) : i ∈ Table.keys map := by
  by_contra hnot
  refine h ?_
  rw [IsFixedPt, next, Table.findD, (Table.find?_eq_none_iff map i).mpr hnot, Option.getD_none]

theorem onCycle_iff : map.OnCycle c ↔ c ∈ periodicPts map.next ∧ ¬ IsFixedPt map.next c := by
  rw [OnCycle, ← minimalPeriod_pos_iff_mem_periodicPts, ← minimalPeriod_eq_one_iff_isFixedPt]
  omega

/-- From every index one comes to rest, after no more steps than there are entries, or into a
cycle. -/
theorem exists_isFixedPt_or_runsIntoCycle (map : IndexMap) (i : Index) :
    (∃ n ≤ map.length, IsFixedPt map.next (map.next^[n] i)) ∨ map.RunsIntoCycle i := by
  refine or_iff_not_imp_left.mpr fun hrest => ?_
  push Not at hrest
  -- more steps than keys, so that a key is met twice
  have hmaps : ∀ n ∈ Finset.range (map.length + 1), map.next^[n] i ∈ (Table.keys map).toFinset :=
    fun n hn =>
    List.mem_toFinset.mpr (mem_keys_of_not_isFixedPt (hrest n (Finset.mem_range_succ_iff.mp hn)))
  have hcard : (Table.keys map).toFinset.card < (Finset.range (map.length + 1)).card := by
    have hle := (Table.keys map).toFinset_card_le
    rw [Table.keys, List.length_map] at hle
    rw [Finset.card_range]
    exact Nat.lt_succ_of_le hle
  obtain ⟨a, ha, b, hb, hab, heq⟩ := Finset.exists_ne_map_eq_of_card_lt_of_maps_to hcard hmaps
  wlog hlt : a < b generalizing a b
  · exact this b hb a ha hab.symm heq.symm (by omega)
  obtain ⟨p, rfl⟩ := Nat.exists_eq_add_of_le' hlt.le
  refine ⟨a, onCycle_iff.mpr ⟨mk_mem_periodicPts (n := p) (by omega) ?_,
    hrest a (Finset.mem_range_succ_iff.mp ha)⟩⟩
  rw [IsPeriodicPt, IsFixedPt, ← iterate_add_apply]
  exact heq.symm

/-- What runs into a cycle does not come to rest. -/
theorem RunsIntoCycle.not_isFixedPt (h : map.RunsIntoCycle i) (n : ℕ) :
    ¬ IsFixedPt map.next (map.next^[n] i) := by
  obtain ⟨m, hcycle⟩ := h
  obtain ⟨hperiodic, hmoves⟩ := onCycle_iff.mp hcycle
  intro hrest
  refine hmoves (isFixedPt_of_mem_periodicPts (n := n) hperiodic ?_)
  rw [← iterate_add_apply, add_comm, iterate_add_apply, hrest.iterate m]
  exact hrest

theorem runsIntoCycle_iff : map.RunsIntoCycle i ↔ ∀ n, ¬ IsFixedPt map.next (map.next^[n] i) := by
  refine ⟨fun h => h.not_isFixedPt, fun h => ?_⟩
  exact (map.exists_isFixedPt_or_runsIntoCycle i).resolve_left fun ⟨n, _, hrest⟩ => h n hrest

theorem exists_runsIntoCycle_iff : (∃ k ∈ Table.keys map, map.RunsIntoCycle k) ↔
    ∃ c, map.OnCycle c := by
  constructor
  · rintro ⟨k, -, n, hcycle⟩
    exact ⟨_, hcycle⟩
  · rintro ⟨c, hcycle⟩
    exact ⟨c, mem_keys_of_not_isFixedPt (onCycle_iff.mp hcycle).2, 0, hcycle⟩

/-! ## Representatives -/

theorem follow_eq_ok {n fuel : ℕ} {seen : List Index} (h : RestsAfter map.next i n)
    (hfuel : n < fuel) (hseen : ∀ k, 0 < k → k ≤ n → map.next^[k] i ∉ seen) :
    map.follow fuel seen i = .ok (map.next^[n] i) := by
  induction n generalizing i fuel seen with
  | zero =>
    obtain ⟨fuel, rfl⟩ := Nat.exists_eq_succ_of_ne_zero (Nat.ne_zero_of_lt hfuel)
    rw [follow]
    exact if_pos h.rest
  | succ n ih =>
    obtain ⟨fuel, rfl⟩ := Nat.exists_eq_succ_of_ne_zero (Nat.ne_zero_of_lt hfuel)
    have hmoves : ¬ map.next i = i := h.moves 0 (Nat.succ_pos n)
    have hnew : map.next i ∉ seen := hseen 1 one_pos (by omega)
    rw [follow]
    refine (if_neg hmoves).trans ((if_neg hnew).trans (ih h.tail (by omega) fun k hk hkn => ?_))
    rw [List.mem_cons, not_or]
    exact ⟨h.tail.iterate_ne hk hkn, hseen (k + 1) (Nat.succ_pos k) (by omega)⟩

theorem follow_failsWith (map : IndexMap) (fuel : ℕ) (seen : List Index) (i : Index) :
    FailsWith (· = .indexCycle map) (map.follow fuel seen i) := by
  induction fuel generalizing seen i with
  | zero => exact .error rfl
  | succ fuel ih =>
    rw [follow]
    exact .ite _ (.ok i) (.ite _ (.error rfl) (ih _ _))

/-- The representative of an index is where following the map comes to rest. -/
theorem representative_eq_ok_iff :
    map.representative i = .ok j ↔ ∃ n, map.next^[n] i = j ∧ IsFixedPt map.next j := by
  constructor
  · intro h
    have : Std.Refl fun a b => ∃ n, map.next^[n] a = b := ⟨fun a => ⟨0, rfl⟩⟩
    have : IsTrans Index fun a b => ∃ n, map.next^[n] a = b := by
      refine ⟨?_⟩
      rintro a _ _ ⟨m, rfl⟩ ⟨n, rfl⟩
      exact ⟨n + m, iterate_add_apply _ _ _ _⟩
    have hfollows : map.Follows fun a b => ∃ n, map.next^[n] a = b :=
      fun a b hab => ⟨1, next_eq_of_find? hab⟩
    obtain ⟨n, hn⟩ := hfollows.follow h
    exact ⟨n, hn, findD_of_follow h⟩
  · rintro ⟨n, rfl, hrest⟩
    -- the bound on the number of steps is not reached
    obtain ⟨m, hm, hfixed⟩ := (map.exists_isFixedPt_or_runsIntoCycle i).resolve_right
      fun hcycle => hcycle.not_isFixedPt n hrest
    obtain ⟨k, hk, hrests, -⟩ := exists_restsAfter hfixed
    rw [representative, follow_eq_ok hrests (by omega) fun l hl hlk => ?_,
      iterate_eq_of_isFixedPt hrests.rest hrest]
    exact List.mem_singleton.not.mpr (hrests.iterate_ne hl hlk)

/-- There is no representative exactly for the indices from which one runs into a cycle. -/
theorem representative_eq_error_iff {e : Error} :
    map.representative i = .error e ↔ e = .indexCycle map ∧ map.RunsIntoCycle i := by
  rw [runsIntoCycle_iff]
  constructor
  · intro h
    refine ⟨follow_failsWith _ _ _ _ e h, fun n hrest => ?_⟩
    rw [representative_eq_ok_iff.mpr ⟨n, rfl, hrest⟩] at h
    cases h
  · rintro ⟨rfl, h⟩
    rcases hrep : map.representative i with e | j
    · rw [follow_failsWith _ _ _ _ e hrep]
    · obtain ⟨n, rfl, hrest⟩ := representative_eq_ok_iff.mp hrep
      exact absurd hrest (h n)

end IndexMap

end TensorDiagram
