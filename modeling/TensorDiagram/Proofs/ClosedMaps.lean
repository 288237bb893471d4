import TensorDiagram.Proofs.MapCycles

/-!
# Closed index maps

Closing a map lets every key point to where its value points, key after key, and starts again until
nothing changes.  The entries are changed in place, so that a round mixes old and new ones.  Still
every entry that is shortened on a cycle takes an index out of it (`not_onCycle_next_of_shorten`),
and no index comes onto a cycle.  So every round shortens a cycle as long as there is one, and after
that a height falls from each index to the next: the rounds come to an end (`exists_rest`).

So closing a map never fails.  It sends every key to the end to which the map leads, and a key from
which one runs into a cycle to one of the indices of the cycle (`Closes`).
-/

namespace TensorDiagram

open Function

namespace IndexMap

variable {map : IndexMap} {key i j c : Index}

/-! ## Shortened entries -/

theorem next_put (map : IndexMap) (key value i : Index) :
    next (Table.put key value map) i = if i = key then value else map.next i := by
  rw [next, Table.findD, Table.find?_put]
  split_ifs <;> rfl

/-- Shortening an entry skips the next index. -/
theorem next_shorten (map : IndexMap) (key i : Index) :
    (map.shorten key).next i = if i = key then map.next (map.next key) else map.next i := by
  -- if nothing is changed, the next index represents itself
  have hsame : map.next (map.next key) = map.next key →
      map.next i = if i = key then map.next (map.next key) else map.next i := by
    intro heq
    split_ifs with hi
    · rw [heq, hi]
    · rfl
  have hself : ∀ {k : Index}, Table.find? k map = none → map.next k = k := by
    intro k hk
    rw [next, Table.findD, hk, Option.getD_none]
  rw [shorten]
  rcases hvalue : Table.find? key map with _ | value
  · refine hsame ?_
    rw [hself hvalue, hself hvalue]
  · have hkey := next_eq_of_find? hvalue
    dsimp only
    rcases hnext : Table.find? value map with _ | target
    · refine hsame ?_
      rw [hkey, hself hnext]
    · dsimp only
      by_cases heq : target = value
      · rw [if_pos heq]
        refine hsame ?_
        rw [hkey, next_eq_of_find? hnext, heq]
      · rw [if_neg heq, next_put, hkey, next_eq_of_find? hnext]

theorem keys_shorten (map : IndexMap) (key : Index) :
    Table.keys (map.shorten key) = Table.keys map := by
  rcases map.shorten_cases key with heq | ⟨value, target, hvalue, -, -, heq⟩
  · rw [heq]
  · rw [heq, Table.keys_put, if_pos (mem_keys_of_find? hvalue)]

theorem keys_shortenAll (map : IndexMap) : Table.keys map.shortenAll = Table.keys map := by
  have hfold : ∀ keys : List Index, Table.keys (keys.foldl shorten map) = Table.keys map := by
    intro keys
    induction keys generalizing map with
    | nil => rfl
    | cons key keys ih => exact (ih _).trans (map.keys_shorten key)
  exact hfold _

theorem keys_iterate_shortenAll (map : IndexMap) (n : ℕ) :
    Table.keys (shortenAll^[n] map) = Table.keys map := by
  induction n with
  | zero => rfl
  | succ n ih => rw [iterate_succ_apply', keys_shortenAll, ih]

theorem isFixedPt_shortenAll (h : ∀ key ∈ Table.keys map, map.shorten key = map) :
    IsFixedPt shortenAll map := by
  have hall : ∀ key, map.shorten key = map := by
    intro key
    by_cases hkey : key ∈ Table.keys map
    · exact h key hkey
    · rw [shorten, (Table.find?_eq_none_iff map key).mpr hkey]
  exact List.foldl_fixed' hall _

/-! ## Cycles become shorter -/

/-- Following a map with a shortened entry is following the map, and at least as fast. -/
theorem exists_iterate_shorten (map : IndexMap) (key i : Index) (n : ℕ) :
    ∃ m ≥ n, (map.shorten key).next^[n] i = map.next^[m] i := by
  induction n with
  | zero => exact ⟨0, le_refl 0, rfl⟩
  | succ n ih =>
    obtain ⟨m, hm, heq⟩ := ih
    rw [iterate_succ_apply', heq, next_shorten]
    split_ifs with hkey
    · exact ⟨m + 2, by omega, by rw [iterate_succ_apply', iterate_succ_apply', hkey]⟩
    · exact ⟨m + 1, by omega, by rw [iterate_succ_apply']⟩

theorem mem_periodicPts_of_shorten (h : c ∈ periodicPts (map.shorten key).next) :
    c ∈ periodicPts map.next := by
  obtain ⟨p, hp, hperiod⟩ := h
  obtain ⟨m, hm, heq⟩ := map.exists_iterate_shorten key c p
  exact mk_mem_periodicPts (by omega) (heq.symm.trans hperiod)

/-- No index comes onto a cycle. -/
theorem OnCycle.of_shorten (h : (map.shorten key).OnCycle c) : map.OnCycle c := by
  obtain ⟨hperiodic, hmoves⟩ := onCycle_iff.mp h
  refine onCycle_iff.mpr ⟨mem_periodicPts_of_shorten hperiodic, fun hfixed => hmoves ?_⟩
  rw [IsFixedPt, next_shorten]
  split_ifs with hkey
  · rw [← hkey, hfixed, hfixed]
  · exact hfixed

/-- An entry that is shortened on a cycle takes the next index out of it. -/
theorem not_onCycle_next_of_shorten (h : map.OnCycle key) :
    ¬ (map.shorten key).OnCycle (map.next key) := by
  obtain ⟨hkey, hmoves⟩ := onCycle_iff.mp h
  intro hcycle
  -- on the cycle of the shortened map another index would come before it
  obtain ⟨x, hx, hnext⟩ := (bijOn_periodicPts _).surjOn (onCycle_iff.mp hcycle).1
  rw [next_shorten] at hnext
  split_ifs at hnext with heq
  · exact hmoves (isFixedPt_of_mem_periodicPts (n := 1) hkey hnext)
  · exact heq ((bijOn_periodicPts map.next).injOn (mem_periodicPts_of_shorten hx) hkey hnext)

theorem OnCycle.of_foldl (keys : List Index) (h : (keys.foldl shorten map).OnCycle c) :
    map.OnCycle c := by
  induction keys generalizing map with
  | nil => exact h
  | cons key keys ih => exact (ih h).of_shorten

/-- If entries on a cycle are shortened, some index leaves its cycle. -/
theorem exists_leaves_cycle {keys : List Index} (hmem : c ∈ keys) (h : map.OnCycle c) :
    ∃ c', map.OnCycle c' ∧ ¬ (keys.foldl shorten map).OnCycle c' := by
  induction keys generalizing map with
  | nil => cases hmem
  | cons key keys ih =>
    rcases List.mem_cons.mp hmem with rfl | hmem
    · refine ⟨map.next c, ?_, fun hcycle => not_onCycle_next_of_shorten h (.of_foldl keys hcycle)⟩
      rwa [OnCycle, minimalPeriod_apply (onCycle_iff.mp h).1]
    · by_cases hstill : (map.shorten key).OnCycle c
      · obtain ⟨c', hc', hleaves⟩ := ih hmem hstill
        exact ⟨c', hc'.of_shorten, hleaves⟩
      · exact ⟨c, h, fun hcycle => hstill (.of_foldl keys hcycle)⟩

open Classical in
/-- The indices on cycles. -/
noncomputable def cycleIndices (map : IndexMap) : Finset Index :=
  (Table.keys map).toFinset.filter fun c => map.OnCycle c

theorem mem_cycleIndices : c ∈ map.cycleIndices ↔ map.OnCycle c := by
  classical
  rw [cycleIndices, Finset.mem_filter, List.mem_toFinset]
  exact and_iff_right_of_imp fun h => mem_keys_of_not_isFixedPt (onCycle_iff.mp h).2

theorem card_cycleIndices_le (map : IndexMap) : map.cycleIndices.card ≤ map.length := by
  classical
  refine (Finset.card_filter_le _ _).trans ((List.toFinset_card_le _).trans ?_)
  rw [Table.keys, List.length_map]

/-- In every round an index leaves its cycle, as long as there is a cycle. -/
theorem card_cycleIndices_shortenAll (map : IndexMap) :
    (∀ c, ¬ map.OnCycle c) ∨ map.shortenAll.cycleIndices.card < map.cycleIndices.card := by
  refine or_iff_not_imp_left.mpr fun hcycles => ?_
  push Not at hcycles
  obtain ⟨c, hc⟩ := hcycles
  have hkey : c ∈ Table.keys map := mem_keys_of_not_isFixedPt (onCycle_iff.mp hc).2
  obtain ⟨c', hc', hleaves⟩ := exists_leaves_cycle hkey hc
  refine Finset.card_lt_card
    ((Finset.ssubset_iff_of_subset fun x hx => ?_).mpr ⟨c', mem_cycleIndices.mpr hc', ?_⟩)
  · exact mem_cycleIndices.mpr (.of_foldl _ (mem_cycleIndices.mp hx))
  · exact fun hmem => hleaves (mem_cycleIndices.mp hmem)

/-! ## The rounds come to an end -/

/-- Without cycles there is a height that falls from every index to the next: the number of steps to
the end. -/
theorem exists_height (h : ∀ c, ¬ map.OnCycle c) : ∃ height, map.Follows (Lower height) := by
  have hrests : ∀ i, ∃ n, RestsAfter map.next i n := by
    intro i
    obtain ⟨n, -, hfixed⟩ :=
      (map.exists_isFixedPt_or_runsIntoCycle i).resolve_right fun ⟨n, hcycle⟩ => h _ hcycle
    obtain ⟨m, -, hm, -⟩ := exists_restsAfter hfixed
    exact ⟨m, hm⟩
  choose height hheight using hrests
  refine ⟨height, fun i j hj => or_iff_not_imp_left.mpr fun hne => ?_⟩
  obtain rfl := next_eq_of_find? hj
  rcases hsteps : height i with _ | n
  · have hrest := (hheight i).rest
    rw [hsteps] at hrest
    exact absurd hrest hne
  · have htail : RestsAfter map.next (map.next i) n := by
      refine RestsAfter.tail ?_
      rw [← hsteps]
      exact hheight i
    by_contra hle
    exact (hheight (map.next i)).moves n (by omega) htail.rest

/-- After some rounds no entry can be shortened. -/
theorem exists_rest (map : IndexMap) : ∃ n ≤ map.length + map.length * map.length,
    ∀ key ∈ Table.keys (shortenAll^[n] map), (shortenAll^[n] map).shorten key =
      shortenAll^[n] map := by
  -- first the cycles are undone
  obtain ⟨a, ha, hacyclic⟩ := exists_iterate_of_lt (x := map) (fun _ => True)
    (fun map => ∀ c, ¬ map.OnCycle c) (fun map => map.cycleIndices.card) (fun _ _ => trivial)
    (fun map _ => map.card_cycleIndices_shortenAll) trivial
  -- then the paths become shorter
  obtain ⟨_, hfollows⟩ := exists_height hacyclic
  obtain ⟨height, hfollows, hle⟩ := hfollows.exists_height_le
  obtain ⟨b, hb, hstop⟩ := exists_iterate_of_lt (f := shortenAll) (Follows (Lower height))
    (fun map => ∀ key ∈ Table.keys map, map.shorten key = map) (total height)
    (fun _ h => h.shortenAll) (fun _ h => h.shortenAll_eq_or_lt.imp_left And.right) hfollows
  refine ⟨b + a, ?_, ?_⟩
  · have hlength : (shortenAll^[a] map).length = map.length := by
      have hkeys := congrArg List.length (map.keys_iterate_shortenAll a)
      rwa [Table.keys, Table.keys, List.length_map, List.length_map] at hkeys
    have htotal := total_le hle
    rw [hlength] at htotal
    have hcard := map.card_cycleIndices_le
    omega
  · rwa [iterate_add_apply]

theorem shortenUntil_eq_ok {start : IndexMap} {n fuel : ℕ} {seen : List IndexMap}
    (h : RestsAfter shortenAll map n) (hfuel : n < fuel)
    (hseen : ∀ k ≤ n, shortenAll^[k] map ∉ seen) :
    shortenUntil start fuel seen map = .ok (shortenAll^[n] map) := by
  induction n generalizing map fuel seen with
  | zero =>
    obtain ⟨fuel, rfl⟩ := Nat.exists_eq_succ_of_ne_zero (Nat.ne_zero_of_lt hfuel)
    have hnew : map ∉ seen := hseen 0 (le_refl 0)
    rw [shortenUntil, if_neg hnew]
    exact if_pos h.rest
  | succ n ih =>
    obtain ⟨fuel, rfl⟩ := Nat.exists_eq_succ_of_ne_zero (Nat.ne_zero_of_lt hfuel)
    have hnew : map ∉ seen := hseen 0 (Nat.zero_le _)
    have hmoves : ¬ map.shortenAll = map := h.moves 0 (Nat.succ_pos n)
    rw [shortenUntil, if_neg hnew, if_neg hmoves]
    refine ih h.tail (by omega) fun k hk => ?_
    rw [List.mem_cons, not_or]
    exact ⟨h.iterate_ne (Nat.succ_pos k) (by omega), hseen (k + 1) (by omega)⟩

/-! ## The closed map -/

/-- What a closed map has to do with the map that it comes from. -/
structure Closes (map closed : IndexMap) : Prop where
  /-- There are the same keys in the same order. -/
  keys : Table.keys closed = Table.keys map
  /-- Every entry points to an end. -/
  ends : ∀ k v, Table.find? k closed = some v → IsFixedPt closed.next v
  /-- The end is reached from the key by following the map. -/
  reaches : ∀ k v, Table.find? k closed = some v → ∃ n, map.next^[n + 1] k = v
  /-- An index and the next one have the same end. -/
  joins : ∀ i, closed.next (map.next i) = closed.next i

/-- The rounds come to an end, closing the map returns the result, and this is a closed map. -/
theorem exists_closes (map : IndexMap) : ∃ rounds, RestsAfter shortenAll map rounds ∧
    map.closure = .ok (shortenAll^[rounds] map) ∧ Closes map (shortenAll^[rounds] map) := by
  obtain ⟨n, hn, hstop⟩ := map.exists_rest
  obtain ⟨rounds, hrounds, hrests, heq⟩ := exists_restsAfter (isFixedPt_shortenAll hstop)
  rw [← heq] at hstop
  have hclosure : map.closure = .ok (shortenAll^[rounds] map) :=
    shortenUntil_eq_ok hrests (by nlinarith) fun _ _ => List.not_mem_nil
  refine ⟨rounds, hrests, hclosure, map.keys_iterate_shortenAll rounds, fun k v hv =>
    findD_findD hstop hv, ?_, ?_⟩
  · have : IsTrans Index fun a b => ∃ n, map.next^[n + 1] a = b := by
      refine ⟨?_⟩
      rintro a _ _ ⟨m, rfl⟩ ⟨n, rfl⟩
      refine ⟨n + 1 + m, ?_⟩
      rw [add_assoc, iterate_add_apply]
    have hfollows : map.Follows fun a b => ∃ n, map.next^[n + 1] a = b :=
      fun a b hab => ⟨0, next_eq_of_find? hab⟩
    exact hfollows.closure hclosure
  · set closed := shortenAll^[rounds] map with hclosed
    -- what is the same at an index and the next one in the closed map was so in the map
    have hjoins : closed.Joins ((Table.keys map).map fun k => (k, map.next k)) := by
      rw [hclosed]
      refine Iterate.rec (fun map' : IndexMap => map'.Joins _) ?_ (fun _ h => h.shortenAll) rounds
      intro f hf s hs
      obtain ⟨k, hk, rfl⟩ := List.mem_map.mp hs
      exact hf k _ (find?_eq_some_next hk)
    have hends : closed.Follows fun a b => closed.next a = closed.next b := by
      intro a b hab
      rw [next_eq_of_find? hab]
      exact (findD_findD hstop hab).symm
    intro i
    by_cases hi : IsFixedPt map.next i
    · rw [hi]
    · exact (hjoins closed.next hends (i, map.next i)
        (List.mem_map.mpr ⟨i, mem_keys_of_not_isFixedPt hi, rfl⟩)).symm

section Closes

variable {closed : IndexMap} (h : Closes map closed) {k v : Index}
  (hv : Table.find? k closed = some v)

include h hv

/-- A key is sent to an end of the map or to an index on a cycle. -/
theorem Closes.isFixedPt_or_onCycle : IsFixedPt map.next v ∨ map.OnCycle v := by
  refine or_iff_not_imp_left.mpr fun hmoves => onCycle_iff.mpr ⟨?_, hmoves⟩
  have hkey : v ∈ Table.keys closed := by
    rw [h.keys]
    exact mem_keys_of_not_isFixedPt hmoves
  -- the index represents itself, which it can only do by way of a cycle
  have hself := find?_eq_some_next hkey
  rw [h.ends k v hv] at hself
  obtain ⟨n, hn⟩ := h.reaches v v hself
  exact mk_mem_periodicPts (Nat.succ_pos n) hn

/-- A key is sent to its representative, if it has one, and otherwise to an index of the cycle that
one runs into. -/
theorem Closes.representative_cases :
    map.representative k = .ok v ∨ (map.OnCycle v ∧ ∃ n, map.next^[n] k = v) := by
  obtain ⟨n, hn⟩ := h.reaches k v hv
  refine (h.isFixedPt_or_onCycle hv).imp (fun hfixed => ?_) fun hcycle => ⟨hcycle, n + 1, hn⟩
  exact representative_eq_ok_iff.mpr ⟨n + 1, hn, hfixed⟩

end Closes

/-- Closing a map comes to an end: after some rounds nothing changes any more, no map is met twice
before, and the result is returned.  It has the same keys in the same order, every value is no key
or represents itself, and it is reached from its key by following the map.  If the map has no cycle
of two or more indices, every key is sent to its representative. -/
theorem closure_settles (map : IndexMap) : ∃ (rounds : ℕ) (closed : IndexMap),
    (shortenAll^[rounds] map = closed ∧ closed.shortenAll = closed ∧
      Set.InjOn (fun n => shortenAll^[n] map) (Set.Iic rounds)) ∧
    map.closure = .ok closed ∧
    Table.keys closed = Table.keys map ∧
    (∀ k v, Table.find? k closed = some v →
      (v ∉ Table.keys closed ∨ Table.find? v closed = some v) ∧ ∃ n, map.next^[n] k = v) ∧
    ((∀ c, ¬ map.OnCycle c) → ∀ k ∈ Table.keys map, ∃ v, map.representative k = .ok v ∧
      Table.find? k closed = some v) := by
  obtain ⟨rounds, hrests, hclosure, hcloses⟩ := map.exists_closes
  refine ⟨rounds, _, ⟨rfl, hrests.rest, hrests.injOn⟩, hclosure, hcloses.keys,
    fun k v hv => ⟨?_, ?_⟩, ?_⟩
  · refine or_iff_not_imp_left.mpr fun hkey => ?_
    rw [find?_eq_some_next (not_not.mp hkey), hcloses.ends k v hv]
  · obtain ⟨n, hn⟩ := hcloses.reaches k v hv
    exact ⟨n + 1, hn⟩
  · intro hacyclic k hk
    have hfind := find?_eq_some_next (hcloses.keys ▸ hk)
    refine ⟨_, (hcloses.representative_cases hfind).resolve_right fun hcycle =>
      hacyclic _ hcycle.1, hfind⟩

/-- Closing a map never fails, also if there is no representative for some of its keys.  An index
has none exactly if one runs into a cycle of two or more indices from it.  Closing the map then
sends the key to one of the indices of this cycle, and all indices of the cycle to the same one.  So
the two ways of resolving a map reject the same maps only as long as there are no cycles to be
rejected. -/
theorem resolvers_agree_iff_acyclic (map : IndexMap) :
    ∃ closed : IndexMap, map.closure = .ok closed ∧
    (∀ i e, map.representative i = .error e ↔ e = .indexCycle map ∧ map.RunsIntoCycle i) ∧
    (∀ k v, Table.find? k closed = some v →
      map.representative k = .ok v ∨ (map.OnCycle v ∧ ∃ n, map.next^[n] k = v)) ∧
    (∀ i, closed.next (map.next i) = closed.next i) ∧
    (((∃ e, map.closure = .error e) ↔ ∃ k ∈ Table.keys map, ∃ e, map.representative k = .error e) ↔
      ∀ c, ¬ map.OnCycle c) := by
  obtain ⟨rounds, -, hclosure, hcloses⟩ := map.exists_closes
  refine ⟨_, hclosure, fun _ _ => representative_eq_error_iff, fun _ _ hv =>
    hcloses.representative_cases hv, hcloses.joins, ?_⟩
  have hnever : ¬ ∃ e, map.closure = .error e := by
    rintro ⟨e, he⟩
    rw [hclosure] at he
    cases he
  have hfails : (∃ k ∈ Table.keys map, ∃ e, map.representative k = .error e) ↔
      ∃ c, map.OnCycle c := by
    rw [← exists_runsIntoCycle_iff]
    refine exists_congr fun k => and_congr_right fun _ => ⟨fun ⟨e, he⟩ => ?_, fun hcycle => ?_⟩
    · exact (representative_eq_error_iff.mp he).2
    · exact ⟨_, representative_eq_error_iff.mpr ⟨rfl, hcycle⟩⟩
  rw [hfails, iff_false_left hnever, not_exists]

/-- Two indices that represent each other. -/
def exchangedPair : IndexMap :=
  [(.name "a", .name "b"), (.name "b", .name "a")]

/-- Neither of two indices that represent each other has a representative, but closing the map does
not fail. -/
theorem exchangedPair_is_closed :
    exchangedPair.representative (.name "a") = .error (.indexCycle exchangedPair) ∧
    exchangedPair.closure = .ok [(.name "a", .name "a"), (.name "b", .name "a")] ∧
    ¬ ((∃ e, exchangedPair.closure = .error e) ↔
      ∃ k ∈ Table.keys exchangedPair, ∃ e, exchangedPair.representative k = .error e) := by
  have hrep : exchangedPair.representative (.name "a") = .error (.indexCycle exchangedPair) := rfl
  have hclosure : exchangedPair.closure = .ok [(.name "a", .name "a"), (.name "b", .name "a")] :=
    rfl
  refine ⟨hrep, hclosure, fun halike => ?_⟩
  obtain ⟨e, he⟩ := halike.mpr ⟨.name "a", List.mem_cons_self, _, hrep⟩
  rw [hclosure] at he
  cases he

end IndexMap

end TensorDiagram
