import TensorDiagram.Circle.Complement
import TensorDiagram.Proofs.Rotation

/-!
# Arcs and planar contractions of a pair

`bipartition` looks for the one place at which a set of legs begins.  If there is exactly one, the
legs are an arc, and the arc with its complement is the whole circle, read from that place
(`splitShared_eq_some_iff`).

With this, `complements` is compared with a definition that does not search: `IsPlanarPair` says
that the two circles, each rotated so that its joined labels come first, carry the joined labels in
opposite directions, and that no open label is on both.  Every contraction that is found is of this
form, and every contraction of this form has the cyclic order of one that is found
(`complements_spec`).  As `IsPlanarPair` only speaks of circles up to rotation, nothing depends on
where the lists begin.
-/

namespace TensorDiagram.Circle

/-! ## Arcs of numbers -/

/-- The number before a number on the circle. -/
lemma add_sub_one_mod (n a : ℕ) (ha : 0 < a) (hn : 0 < n) :
    (a % n + n - 1) % n = (a - 1) % n := by
  have hsplit : a % n + n - 1 = a % n + (n - 1) := by omega
  have hnext : a + (n - 1) = a - 1 + n := by omega
  rw [hsplit, Nat.mod_add_mod, hnext, Nat.add_mod_right]

/-- Two numbers within one turn of the circle that end at the same place are equal. -/
lemma eq_of_add_mod_eq {n s j k : ℕ} (hj : j < n) (hk : k < n)
    (h : (s + j) % n = (s + k) % n) : j = k := by
  have hmod : j ≡ k [MOD n] := Nat.ModEq.add_left_cancel' s h
  rwa [Nat.ModEq, Nat.mod_eq_of_lt hj, Nat.mod_eq_of_lt hk] at hmod

/-- The start of an arc is a leg whose predecessor is no leg. -/
lemma mem_arcStarts {n i : ℕ} {legs : List ℕ} :
    i ∈ arcStarts n legs ↔ i < n ∧ i ∈ legs ∧ (i + n - 1) % n ∉ legs := by
  simp [arcStarts]

/-- If the legs begin at one place only, then they go on from there without a gap. -/
lemma mem_of_arcStarts_eq {n s : ℕ} {legs : List ℕ} (hnd : legs.Nodup)
    (hlt : ∀ l ∈ legs, l < n) (hstart : arcStarts n legs = [s]) {k : ℕ} (hk : k < legs.length) :
    (s + k) % n ∈ legs := by
  have hs : s < n ∧ s ∈ legs ∧ (s + n - 1) % n ∉ legs :=
    mem_arcStarts.mp (hstart ▸ List.mem_singleton_self s)
  by_contra hgap
  -- behind the gap at `k` there is a further leg, or else there would be at most `k` legs
  obtain ⟨j, hkj, hjn, hj⟩ : ∃ j, k < j ∧ j < n ∧ (s + j) % n ∈ legs := by
    by_contra hnone
    have hsub : legs ⊆ arc n s k := by
      intro l hl
      have hln : l < n := hlt l hl
      refine List.mem_map.mpr ⟨(l + n - s) % n, ?_, ?_⟩
      · have hback : (s + (l + n - s) % n) % n = l := by
          rw [Nat.add_mod_mod, show s + (l + n - s) = l + n by omega, Nat.add_mod_right,
            Nat.mod_eq_of_lt hln]
        have hjn : (l + n - s) % n < n := Nat.mod_lt _ (by omega)
        have hle : ¬ k < (l + n - s) % n := fun hlt' =>
          hnone ⟨_, hlt', hjn, by rw [hback]; exact hl⟩
        have hne : (l + n - s) % n ≠ k := fun heq => hgap (by rw [← heq, hback]; exact hl)
        exact List.mem_range.mpr (by omega)
      · rw [Nat.add_mod_mod, show s + (l + n - s) = l + n by omega, Nat.add_mod_right,
          Nat.mod_eq_of_lt hln]
    have hlen : legs.length ≤ (arc n s k).length := (hnd.subperm hsub).length_le
    rw [arc, List.length_map, List.length_range] at hlen
    omega
  -- the first leg behind the gap is another start
  classical
  let Q : ℕ → Prop := fun i => k < i ∧ (s + i) % n ∈ legs
  have hex : ∃ i, Q i := ⟨j, hkj, hj⟩
  obtain ⟨hki, hi⟩ : Q (Nat.find hex) := Nat.find_spec hex
  have hij : Nat.find hex ≤ j := Nat.find_min' hex ⟨hkj, hj⟩
  have hbefore : (s + Nat.find hex - 1) % n ∉ legs := by
    intro hmem
    by_cases heq : Nat.find hex - 1 = k
    · exact hgap (by rw [← heq, ← Nat.add_sub_assoc (by omega)]; exact hmem)
    · exact Nat.find_min hex (m := Nat.find hex - 1) (by omega)
        ⟨by omega, by rw [← Nat.add_sub_assoc (by omega)]; exact hmem⟩
  have hother : (s + Nat.find hex) % n ∈ arcStarts n legs := by
    refine mem_arcStarts.mpr ⟨Nat.mod_lt _ (by omega), hi, ?_⟩
    rwa [add_sub_one_mod n _ (by omega) (by omega)]
  rw [hstart, List.mem_singleton] at hother
  have hzero : Nat.find hex = 0 := by
    refine eq_of_add_mod_eq (n := n) (s := s) (by omega) (by omega) ?_
    rw [hother, Nat.add_zero, Nat.mod_eq_of_lt hs.1]
  omega

/-- Legs that are an arc, and not the whole circle, begin at one place only. -/
lemma arcStarts_eq_of_forall {n s c : ℕ} {legs : List ℕ} (hs : s < n) (hc : 0 < c) (hcn : c < n)
    (h : ∀ i, i ∈ legs ↔ ∃ k < c, i = (s + k) % n) : arcStarts n legs = [s] := by
  have honly : ∀ i, i ∈ arcStarts n legs ↔ i = s := by
    intro i
    rw [mem_arcStarts]
    constructor
    · rintro ⟨-, hi, hbefore⟩
      obtain ⟨k, hk, rfl⟩ := (h i).mp hi
      rcases Nat.eq_zero_or_pos k with rfl | hpos
      · rw [Nat.add_zero, Nat.mod_eq_of_lt hs]
      · refine absurd ((h _).mpr ⟨k - 1, by omega, ?_⟩) hbefore
        rw [add_sub_one_mod n _ (by omega) (by omega), Nat.add_sub_assoc hpos]
    · rintro rfl
      refine ⟨hs, (h i).mpr ⟨0, hc, by rw [Nat.add_zero, Nat.mod_eq_of_lt hs]⟩, fun hmem => ?_⟩
      obtain ⟨k, hk, hik⟩ := (h _).mp hmem
      have hlast : n - 1 = k := by
        refine eq_of_add_mod_eq (n := n) (s := i) (by omega) (by omega) ?_
        rw [← hik, Nat.add_sub_assoc (by omega)]
      omega
  have hnd : (arcStarts n legs).Nodup := List.Nodup.filter _ List.nodup_range
  have hperm : List.Perm (arcStarts n legs) [s] := by
    rw [List.perm_ext_iff_of_nodup hnd (List.nodup_singleton s)]
    simpa using honly
  exact List.perm_singleton.mp hperm

/-- An arc that is not longer than the circle comes to no number twice. -/
lemma nodup_arc {n s c : ℕ} (hc : c ≤ n) : (arc n s c).Nodup := by
  refine List.nodup_range.map_on fun j hj k hk hjk => ?_
  rw [List.mem_range] at hj hk
  exact eq_of_add_mod_eq (hj.trans_le hc) (hk.trans_le hc) hjk

/-- Legs that begin at one place only are the arc from there. -/
lemma arc_perm_of_arcStarts_eq {n s : ℕ} {legs : List ℕ} (hnd : legs.Nodup)
    (hlt : ∀ l ∈ legs, l < n) (hlen : legs.length ≤ n) (hstart : arcStarts n legs = [s]) :
    (arc n s legs.length).Perm legs := by
  have hsubset : arc n s legs.length ⊆ legs := by
    intro i hi
    obtain ⟨k, hk, rfl⟩ := List.mem_map.mp hi
    exact mem_of_arcStarts_eq hnd hlt hstart (List.mem_range.mp hk)
  exact ((nodup_arc hlen).subperm hsubset).perm_of_length_le (by simp [arc])

/-- Reading a list at an arc of its places gives a piece of a rotation. -/
lemma filterMap_arc {α : Type} (xs : List α) (s d c : ℕ) (hc : d + c ≤ xs.length) :
    (arc xs.length (s + d) c).filterMap (xs[·]?) = ((xs.rotate s).drop d).take c := by
  induction c with
  | zero => simp [arc]
  | succ c ih =>
    have hlt : d + c < (xs.rotate s).length := by rw [List.length_rotate]; omega
    have hplace : xs[(s + d + c) % xs.length]? = (xs.rotate s)[d + c]? := by
      rw [List.getElem?_rotate (by omega), show d + c + s = s + d + c by omega]
    have harc : arc xs.length (s + d) (c + 1) =
        arc xs.length (s + d) c ++ [(s + d + c) % xs.length] := by
      simp [arc, List.range_succ]
    rw [harc, List.filterMap_append, ih (by omega), List.take_add_one, List.getElem?_drop,
      ← hplace]
    have hget : ∃ x, xs[(s + d + c) % xs.length]? = some x :=
      ⟨_, hplace.trans (List.getElem?_eq_getElem hlt)⟩
    obtain ⟨x, hx⟩ := hget
    simp [hx]

/-! ## Splitting a circle at shared labels -/

section Split

variable {α : Type} [DecidableEq α] {shared indices : List α}

/-- Distinct labels of a list stand at distinct places. -/
lemma nodup_map_idxOf (hs : shared.Nodup) (hsub : ∀ x ∈ shared, x ∈ indices) :
    (shared.map fun i => indices.idxOf i).Nodup :=
  hs.map_on fun x hx _ _ hxy => (List.idxOf_inj (hsub x hx)).mp hxy

/-- The places of the shared labels are places of the list. -/
lemma lt_of_mem_map_idxOf (hsub : ∀ x ∈ shared, x ∈ indices) :
    ∀ l ∈ shared.map fun i => indices.idxOf i, l < indices.length := by
  intro l hl
  obtain ⟨x, hx, rfl⟩ := List.mem_map.mp hl
  exact List.idxOf_lt_length_iff.mpr (hsub x hx)

/-- Reading the places of the shared labels gives the shared labels back. -/
lemma filterMap_map_idxOf (hsub : ∀ x ∈ shared, x ∈ indices) :
    (shared.map fun i => indices.idxOf i).filterMap (indices[·]?) = shared := by
  rw [List.filterMap_map]
  have hread : ∀ x ∈ shared, ((indices[·]?) ∘ fun i => indices.idxOf i) x = some x := by
    intro x hx
    have hlt : indices.idxOf x < indices.length := List.idxOf_lt_length_iff.mpr (hsub x hx)
    rw [Function.comp_apply, List.getElem?_eq_getElem hlt, List.getElem_idxOf hlt]
  rw [List.filterMap_congr hread, List.filterMap_some]

/-- If all labels are shared, the whole circle is the arc. -/
lemma splitShared_of_length_eq (hs : shared.Nodup) (hsub : ∀ x ∈ shared, x ∈ indices)
    (hne : shared ≠ []) (hlen : shared.length = indices.length) :
    splitShared shared indices = .ok (some (indices, [])) := by
  have hpre : (shared.map fun i => indices.idxOf i).Nodup ∧
      ∀ l ∈ shared.map fun i => indices.idxOf i, l < indices.length :=
    ⟨nodup_map_idxOf hs hsub, lt_of_mem_map_idxOf hsub⟩
  have hall : (List.range indices.length).filterMap (indices[·]?) = indices := by
    have harc : arc indices.length (0 + 0) indices.length = List.range indices.length := by
      rw [arc]
      refine (List.map_congr_left fun k hk => ?_).trans (List.map_id _)
      rw [Nat.zero_add, Nat.mod_eq_of_lt (List.mem_range.mp hk), id]
    rw [← harc, filterMap_arc indices 0 0 _ (by omega)]
    simp
  rw [splitShared, bipartition, if_pos hpre, if_neg (by simpa using hne),
    if_pos (by simpa using hlen)]
  simp [hall]

/-- If some labels are shared and some are not, the outcome is read off the places at which the
shared labels begin. -/
lemma splitShared_of_length_lt (hs : shared.Nodup) (hsub : ∀ x ∈ shared, x ∈ indices)
    (hne : shared ≠ []) (hlt : shared.length < indices.length) :
    splitShared shared indices = .ok
      (match arcStarts indices.length (shared.map fun i => indices.idxOf i) with
        | [s] => some ((indices.rotate s).take shared.length, (indices.rotate s).drop shared.length)
        | _ => none) := by
  have hpre : (shared.map fun i => indices.idxOf i).Nodup ∧
      ∀ l ∈ shared.map fun i => indices.idxOf i, l < indices.length :=
    ⟨nodup_map_idxOf hs hsub, lt_of_mem_map_idxOf hsub⟩
  rw [splitShared, bipartition, if_pos hpre, if_neg (by simpa using hne),
    if_neg (by simpa using hlt.ne)]
  rcases hstarts : arcStarts indices.length (shared.map fun i => indices.idxOf i) with
    _ | ⟨s, _ | ⟨s', rest⟩⟩
  · rfl
  · have hjoined := filterMap_arc indices s 0 shared.length (by omega)
    have hopen := filterMap_arc indices s shared.length (indices.length - shared.length) (by omega)
    rw [Nat.add_zero, List.drop_zero] at hjoined
    rw [List.take_of_length_le (by simp)] at hopen
    simp only [List.length_map, hjoined, hopen]
  · rfl

/-- The split of a circle at shared labels, some of which are open: the joined and the open labels
go once around the circle, and the joined ones are the shared ones. -/
theorem splitShared_eq_some_iff {joined free : List α} (hnd : indices.Nodup) (hs : shared.Nodup)
    (hsub : ∀ x ∈ shared, x ∈ indices) (hne : shared ≠ [])
    (hlt : shared.length < indices.length) :
    splitShared shared indices = .ok (some (joined, free)) ↔
      joined ++ free ~r indices ∧ joined.Perm shared := by
  rw [splitShared_of_length_lt hs hsub hne hlt]
  set legs := shared.map fun i => indices.idxOf i with hlegs
  have hlen : legs.length = shared.length := by simp [hlegs]
  constructor
  · intro h
    rcases hstarts : arcStarts indices.length legs with _ | ⟨s, _ | ⟨s', rest⟩⟩ <;>
      rw [hstarts] at h
    · simp at h
    · simp only [Except.ok.injEq, Option.some.injEq, Prod.mk.injEq] at h
      obtain ⟨rfl, rfl⟩ := h
      refine ⟨by rw [List.take_append_drop]; exact List.IsRotated.forall indices s, ?_⟩
      have hperm : (arc indices.length s legs.length).Perm legs :=
        arc_perm_of_arcStarts_eq (nodup_map_idxOf hs hsub) (lt_of_mem_map_idxOf hsub)
          (by omega) hstarts
      have hread := hperm.filterMap (indices[·]?)
      rw [hlen] at hread
      have hjoined := filterMap_arc indices s 0 shared.length (by omega)
      rw [Nat.add_zero, List.drop_zero] at hjoined
      rwa [hjoined, filterMap_map_idxOf hsub] at hread
    · simp at h
  · rintro ⟨hrot, hperm⟩
    obtain ⟨m, hm⟩ := hrot.symm
    set s := m % indices.length with hsdef
    have hspos : s < indices.length := Nat.mod_lt _ (by omega)
    have hsrot : indices.rotate s = joined ++ free := by rw [hsdef, List.rotate_mod, hm]
    have hjlen : joined.length = shared.length := hperm.length_eq
    have hmem : ∀ i, i ∈ legs ↔ ∃ k < shared.length, i = (s + k) % indices.length := by
      intro i
      constructor
      · intro hi
        obtain ⟨x, hx, rfl⟩ := List.mem_map.mp hi
        obtain ⟨k, hk, hkx⟩ := List.getElem_of_mem (hperm.mem_iff.mpr hx)
        have hget : (indices.rotate s)[k]? = some x := by
          rw [hsrot, List.getElem?_append_left hk, List.getElem?_eq_getElem hk, hkx]
        rw [List.getElem?_rotate (by omega)] at hget
        refine ⟨k, by omega, ?_⟩
        rw [Nat.add_comm s k]
        obtain ⟨hplace, hxat⟩ := List.getElem?_eq_some_iff.mp hget
        rw [← hxat, hnd.idxOf_getElem]
      · rintro ⟨k, hk, rfl⟩
        have hkj : k < joined.length := by omega
        have hget : indices[(k + s) % indices.length]? = some joined[k] := by
          rw [← List.getElem?_rotate (by omega), hsrot, List.getElem?_append_left hkj,
            List.getElem?_eq_getElem hkj]
        obtain ⟨hplace, hat⟩ := List.getElem?_eq_some_iff.mp hget
        refine List.mem_map.mpr ⟨joined[k], hperm.mem_iff.mp (List.getElem_mem hkj), ?_⟩
        rw [← hat, hnd.idxOf_getElem, Nat.add_comm]
    have hpos : 0 < shared.length := List.length_pos_iff.mpr hne
    rw [arcStarts_eq_of_forall hspos hpos hlt hmem]
    simp only [hsrot, Except.ok.injEq, Option.some.injEq, Prod.mk.injEq]
    exact ⟨List.take_left' hjlen, List.drop_left' hjlen⟩

/-- The split never fails with an error, it yields only splits of the circle, and it yields every
split, up to the place at which the arc begins if the arc is the whole circle. -/
theorem splitShared_spec (hnd : indices.Nodup) (hs : shared.Nodup)
    (hsub : ∀ x ∈ shared, x ∈ indices) (hne : shared ≠ []) :
    ∃ split, splitShared shared indices = .ok split ∧
      (∀ joined free, split = some (joined, free) →
        joined ++ free ~r indices ∧ joined.Perm shared) ∧
      (∀ joined free, joined ++ free ~r indices → joined.Perm shared →
        ∃ joined', split = some (joined', free) ∧ joined' ~r joined ∧
          (free ≠ [] → joined' = joined)) := by
  have hle : shared.length ≤ indices.length := (hs.subperm fun x hx => hsub x hx).length_le
  rcases hle.lt_or_eq with hlt | hlen
  · refine ⟨_, splitShared_of_length_lt hs hsub hne hlt, ?_, ?_⟩
    · intro joined free hsplit
      rw [← splitShared_eq_some_iff hnd hs hsub hne hlt,
        splitShared_of_length_lt hs hsub hne hlt, hsplit]
    · intro joined free hrot hperm
      have hsplit := (splitShared_eq_some_iff hnd hs hsub hne hlt).mpr ⟨hrot, hperm⟩
      rw [splitShared_of_length_lt hs hsub hne hlt] at hsplit
      exact ⟨joined, Except.ok.inj hsplit, List.IsRotated.refl joined, fun _ => rfl⟩
  · refine ⟨_, splitShared_of_length_eq hs hsub hne hlen, ?_, ?_⟩
    · intro joined free hsplit
      obtain ⟨rfl, rfl⟩ : indices = joined ∧ [] = free := by simpa using hsplit
      refine ⟨by rw [List.append_nil], ?_⟩
      exact ((hs.subperm fun x hx => hsub x hx).perm_of_length_le hlen.ge).symm
    · intro joined free hrot hperm
      have hfree : free = [] := by
        have hlen' := hrot.perm.length_eq
        rw [List.length_append, hperm.length_eq, hlen] at hlen'
        exact List.eq_nil_of_length_eq_zero (by omega)
      subst hfree
      rw [List.append_nil] at hrot
      exact ⟨indices, rfl, hrot.symm, fun hne' => absurd rfl hne'⟩

end Split

/-! ## Planar contractions -/

variable {α : Type}

/-- A planar contraction of two circles: each circle reads its joined labels and then its open ones,
the joined labels run in opposite directions, and no open label is on the other circle. -/
structure IsPlanarPair (first second : List α) (c : PairContraction α) : Prop where
  /-- The joined and the open labels of the first circle go once around it. -/
  first_order : c.joinedFirst ++ c.openFirst ~r first
  /-- The joined and the open labels of the second circle go once around it. -/
  second_order : c.joinedSecond ++ c.openSecond ~r second
  /-- The joined labels run in opposite directions. -/
  reversed : c.joinedSecond = c.joinedFirst.reverse
  /-- An open label of the first circle is not on the second. -/
  open_first : ∀ x ∈ c.openFirst, x ∉ second
  /-- An open label of the second circle is not on the first. -/
  open_second : ∀ x ∈ c.openSecond, x ∉ first

namespace IsPlanarPair

variable {first second : List α} {c : PairContraction α}

/-- It does not matter where the two circles begin. -/
theorem rotated (h : IsPlanarPair first second c) {first' second' : List α}
    (h1 : first' ~r first) (h2 : second' ~r second) : IsPlanarPair first' second' c where
  first_order := h.first_order.trans h1.symm
  second_order := h.second_order.trans h2.symm
  reversed := h.reversed
  open_first x hx hmem := h.open_first x hx (h2.mem_iff.mp hmem)
  open_second x hx hmem := h.open_second x hx (h1.mem_iff.mp hmem)

/-- The labels that are joined are those that are on both circles. -/
theorem mem_joinedFirst_iff (h : IsPlanarPair first second c) {x : α} :
    x ∈ c.joinedFirst ↔ x ∈ first ∧ x ∈ second := by
  constructor
  · intro hx
    have hsecond : x ∈ c.joinedSecond := by rw [h.reversed]; exact List.mem_reverse.mpr hx
    exact ⟨h.first_order.mem_iff.mp (List.mem_append_left _ hx),
      h.second_order.mem_iff.mp (List.mem_append_left _ hsecond)⟩
  · rintro ⟨hx, hx'⟩
    rcases List.mem_append.mp (h.first_order.mem_iff.mpr hx) with hj | ho
    · exact hj
    · exact absurd hx' (h.open_first x ho)

/-- The same labels, read off the second circle. -/
theorem mem_joinedSecond_iff (h : IsPlanarPair first second c) {x : α} :
    x ∈ c.joinedSecond ↔ x ∈ first ∧ x ∈ second := by
  rw [h.reversed, List.mem_reverse, h.mem_joinedFirst_iff]

/-- The open labels of the first circle are those that are not on the second. -/
theorem mem_openFirst_iff (h : IsPlanarPair first second c) {x : α} :
    x ∈ c.openFirst ↔ x ∈ first ∧ x ∉ second := by
  constructor
  · intro hx
    exact ⟨h.first_order.mem_iff.mp (List.mem_append_right _ hx), h.open_first x hx⟩
  · rintro ⟨hx, hx'⟩
    rcases List.mem_append.mp (h.first_order.mem_iff.mpr hx) with hj | ho
    · exact absurd (h.mem_joinedFirst_iff.mp hj).2 hx'
    · exact ho

/-- The open labels of the second circle are those that are not on the first. -/
theorem mem_openSecond_iff (h : IsPlanarPair first second c) {x : α} :
    x ∈ c.openSecond ↔ x ∈ second ∧ x ∉ first := by
  constructor
  · intro hx
    exact ⟨h.second_order.mem_iff.mp (List.mem_append_right _ hx), h.open_second x hx⟩
  · rintro ⟨hx, hx'⟩
    rcases List.mem_append.mp (h.second_order.mem_iff.mpr hx) with hj | ho
    · exact absurd (h.mem_joinedSecond_iff.mp hj).1 hx'
    · exact ho

/-- No label is open twice. -/
theorem nodup_openOrder (h : IsPlanarPair first second c) (h1 : first.Nodup) (h2 : second.Nodup) :
    c.openOrder.Nodup := by
  have hfirst := (List.nodup_append.mp (h.first_order.nodup_iff.mpr h1)).2.1
  have hsecond := (List.nodup_append.mp (h.second_order.nodup_iff.mpr h2)).2.1
  refine List.nodup_append.mpr ⟨hfirst, hsecond, fun x hx y hy hxy => ?_⟩
  exact (h.mem_openSecond_iff.mp hy).2 (hxy ▸ (h.mem_openFirst_iff.mp hx).1)

/-- Beside a circle without labels nothing is joined, and the other circle stays as it is. -/
theorem openOrder_of_nil (h : IsPlanarPair first second c) (hnil : first = [] ∨ second = []) :
    c.openOrder ~r first ++ second := by
  have hjoined : c.joinedFirst = [] := by
    refine List.eq_nil_iff_forall_not_mem.mpr fun x hx => ?_
    have hboth := h.mem_joinedFirst_iff.mp hx
    rcases hnil with rfl | rfl
    · exact List.not_mem_nil hboth.1
    · exact List.not_mem_nil hboth.2
  have hfirst := h.first_order
  have hsecond := h.second_order
  rw [h.reversed, hjoined, List.reverse_nil, List.nil_append] at hsecond
  rw [hjoined, List.nil_append] at hfirst
  rw [PairContraction.openOrder]
  rcases hnil with rfl | rfl
  · rwa [List.isRotated_nil_iff.mp hfirst]
  · rwa [List.isRotated_nil_iff.mp hsecond, List.append_nil, List.append_nil]

end IsPlanarPair

/-- A circle without labels is beside the other one in a planar way. -/
theorem isPlanarPair_of_nil {first second : List α} (hnil : first = [] ∨ second = []) :
    IsPlanarPair first second ⟨first, second, [], []⟩ := by
  have hdisj : ∀ x ∈ first, x ∉ second := by
    intro x hx hx'
    rcases hnil with rfl | rfl
    · exact List.not_mem_nil hx
    · exact List.not_mem_nil hx'
  exact ⟨List.IsRotated.refl first, List.IsRotated.refl second, rfl, hdisj,
    fun x hx hx' => hdisj x hx' hx⟩

variable [DecidableEq α]

/-- Two arcs that are joined give a planar contraction. -/
lemma isPlanarPair_of_joinArcs {first second joined1 open1 joined2 open2 : List α}
    {c : PairContraction α} (h1 : joined1 ++ open1 ~r first) (h2 : joined2 ++ open2 ~r second)
    (ho1 : ∀ x ∈ open1, x ∉ second) (ho2 : ∀ x ∈ open2, x ∉ first)
    (h : joinArcs? joined1 open1 joined2 open2 = some c) : IsPlanarPair first second c := by
  rw [joinArcs?] at h
  split_ifs at h with hopen hrev hrot hempty
  · obtain rfl := Option.some.inj h
    exact ⟨h1, h2, hrev, ho1, ho2⟩
  · obtain rfl := Option.some.inj h
    have hnil : open1 = [] := List.isEmpty_iff.mp hempty
    subst hnil
    rw [isRotation_iff] at hrot
    refine ⟨?_, h2, by simp, ho1, ho2⟩
    rw [List.append_nil] at h1 ⊢
    exact (List.isRotated_reverse_comm_iff.mpr hrot).trans h1
  · obtain rfl := Option.some.inj h
    have hnil : open2 = [] := by
      cases open2 with
      | nil => rfl
      | cons x rest =>
        cases open1 with
        | nil => simp at hempty
        | cons y rest' => simp at hopen
    subst hnil
    rw [isRotation_iff] at hrot
    refine ⟨h1, ?_, rfl, ho1, ho2⟩
    rw [List.append_nil] at h2 ⊢
    exact hrot.symm.trans h2

/-- The arcs of a planar contraction are joined, also if an arc that is a whole circle begins at
another place. -/
lemma exists_joinArcs {first second joined1 joined2 : List α} {c : PairContraction α}
    (hc : IsPlanarPair first second c) (hj1 : joined1 ~r c.joinedFirst)
    (hj2 : joined2 ~r c.joinedSecond) (he1 : c.openFirst ≠ [] → joined1 = c.joinedFirst)
    (he2 : c.openSecond ≠ [] → joined2 = c.joinedSecond) :
    ∃ c', joinArcs? joined1 c.openFirst joined2 c.openSecond = some c' ∧
      c'.openOrder = c.openOrder := by
  rw [joinArcs?]
  by_cases hopen : (!c.openFirst.isEmpty && !c.openSecond.isEmpty) = true
  · have hne : c.openFirst ≠ [] ∧ c.openSecond ≠ [] := by simpa using hopen
    rw [if_pos hopen, he1 hne.1, he2 hne.2, if_pos hc.reversed]
    exact ⟨_, rfl, rfl⟩
  · have hrot : joined2 ~r joined1.reverse := by
      rw [hc.reversed] at hj2
      exact hj2.trans (List.isRotated_reverse_iff.mpr hj1.symm)
    rw [if_neg hopen, if_pos (isRotation_iff.mpr hrot)]
    by_cases hempty : c.openFirst.isEmpty = true
    · rw [if_pos hempty]
      exact ⟨_, rfl, rfl⟩
    · rw [if_neg hempty]
      exact ⟨_, rfl, rfl⟩

/-- A list of contractions that holds planar contractions only and, up to rotation of the open
labels, each of them. -/
structure EnumeratesPlanarPairs (first second : List α) (contractions : List (PairContraction α)) :
    Prop where
  /-- Every listed contraction is planar. -/
  sound : ∀ c ∈ contractions, IsPlanarPair first second c
  /-- Every planar contraction has the open order of a listed one. -/
  complete : ∀ c, IsPlanarPair first second c → ∃ c' ∈ contractions, c'.openOrder ~r c.openOrder

/-- A circle without labels stands beside the other one. -/
lemma complements_of_isEmpty {first second : List α}
    (h : (first.isEmpty || second.isEmpty) = true) :
    complements first second = .ok [⟨first, second, [], []⟩] ∧
      EnumeratesPlanarPairs first second [⟨first, second, [], []⟩] := by
  have hnil : first = [] ∨ second = [] := by simpa using h
  refine ⟨by rw [complements, if_pos h]; rfl, ?_, ?_⟩
  · intro c hc
    obtain rfl := List.mem_singleton.mp hc
    exact isPlanarPair_of_nil hnil
  · intro c hc
    exact ⟨_, List.mem_singleton_self _, (hc.openOrder_of_nil hnil).symm⟩

omit [DecidableEq α] in
/-- The contractions of two circles that share no label are all their rotations side by side. -/
lemma mem_disjointContractions {first second : List α} (h1 : first ≠ []) (h2 : second ≠ [])
    {c : PairContraction α} : c ∈ disjointContractions first second ↔
      c.openFirst ~r first ∧ c.openSecond ~r second ∧ c.joinedFirst = [] ∧
        c.joinedSecond = [] := by
  rw [disjointContractions, List.mem_flatMap]
  constructor
  · rintro ⟨n, hn, hmem⟩
    obtain ⟨m, hm, rfl⟩ := List.mem_map.mp hmem
    exact ⟨(exists_rotateRight_iff h1).mp ⟨n, hn, rfl⟩,
      (exists_rotateRight_iff h2).mp ⟨m, hm, rfl⟩, rfl, rfl⟩
  · obtain ⟨open1, open2, joined1, joined2⟩ := c
    rintro ⟨hr1, hr2, rfl, rfl⟩
    obtain ⟨n, hn, rfl⟩ := (exists_rotateRight_iff h1).mpr hr1
    obtain ⟨m, hm, rfl⟩ := (exists_rotateRight_iff h2).mpr hr2
    exact ⟨n, hn, List.mem_map.mpr ⟨m, hm, rfl⟩⟩

/-- Two circles that share no label stand side by side in all positions. -/
lemma complements_of_disjoint {first second : List α}
    (h : ¬ (first.isEmpty || second.isEmpty) = true) (hshared : first.filter (· ∈ second) = []) :
    complements first second = .ok (disjointContractions first second) ∧
      EnumeratesPlanarPairs first second (disjointContractions first second) := by
  have hne : first ≠ [] ∧ second ≠ [] := by simpa using h
  have hdisj : ∀ x ∈ first, x ∉ second := by simpa [List.filter_eq_nil_iff] using hshared
  refine ⟨?_, ?_, ?_⟩
  · rw [complements, if_neg h]
    simp only [hshared, List.isEmpty_nil, if_true]
    rfl
  · intro c hc
    obtain ⟨hr1, hr2, hj1, hj2⟩ := (mem_disjointContractions hne.1 hne.2).mp hc
    refine ⟨by rwa [hj1, List.nil_append], by rwa [hj2, List.nil_append], by rw [hj1, hj2]; rfl,
      fun x hx => hdisj x (hr1.mem_iff.mp hx), fun x hx hx' => ?_⟩
    exact hdisj x hx' (hr2.mem_iff.mp hx)
  · intro c hc
    have hj1 : c.joinedFirst = [] := by
      refine List.eq_nil_iff_forall_not_mem.mpr fun x hx => ?_
      exact hdisj x (hc.mem_joinedFirst_iff.mp hx).1 (hc.mem_joinedFirst_iff.mp hx).2
    have hj2 : c.joinedSecond = [] := by rw [hc.reversed, hj1, List.reverse_nil]
    have hfirst := hc.first_order
    have hsecond := hc.second_order
    rw [hj1, List.nil_append] at hfirst
    rw [hj2, List.nil_append] at hsecond
    exact ⟨c, (mem_disjointContractions hne.1 hne.2).mpr ⟨hfirst, hsecond, hj1, hj2⟩,
      List.IsRotated.refl _⟩

/-- What is found for two circles that share labels, in terms of the splits of both. -/
lemma complements_of_splits {first second : List α} {split1 split2 : Option (List α × List α)}
    (h : ¬ (first.isEmpty || second.isEmpty) = true) (hshared : first.filter (· ∈ second) ≠ [])
    (h1 : splitShared (first.filter (· ∈ second)) first = .ok split1)
    (h2 : splitShared (first.filter (· ∈ second)) second = .ok split2) :
    complements first second = .ok
      (match split1, split2 with
        | some (joined1, open1), some (joined2, open2) =>
          (joinArcs? joined1 open1 joined2 open2).toList
        | _, _ => []) := by
  have hne : ¬ (first.filter (· ∈ second)).isEmpty = true := by simpa using hshared
  rw [complements, if_neg h]
  simp only [if_neg hne, h1, h2]
  rcases split1 with _ | ⟨joined1, open1⟩
  · rfl
  · rcases split2 with _ | ⟨joined2, open2⟩ <;> rfl

/-- Two circles that share labels are joined along the arcs of these labels. -/
lemma complements_of_shared {first second : List α} (h1 : first.Nodup) (h2 : second.Nodup)
    (h : ¬ (first.isEmpty || second.isEmpty) = true) (hshared : first.filter (· ∈ second) ≠ []) :
    ∃ contractions, complements first second = .ok contractions ∧
      EnumeratesPlanarPairs first second contractions := by
  have hsnd : (first.filter (· ∈ second)).Nodup := h1.filter _
  have hmem : ∀ x, x ∈ first.filter (· ∈ second) ↔ x ∈ first ∧ x ∈ second := by simp
  obtain ⟨split1, hsplit1, hsound1, hcomplete1⟩ :=
    splitShared_spec h1 hsnd (fun x hx => ((hmem x).mp hx).1) hshared
  obtain ⟨split2, hsplit2, hsound2, hcomplete2⟩ :=
    splitShared_spec h2 hsnd (fun x hx => ((hmem x).mp hx).2) hshared
  refine ⟨_, complements_of_splits h hshared hsplit1 hsplit2, ?_, ?_⟩
  · intro c hc
    rcases split1 with _ | ⟨joined1, open1⟩
    · simp at hc
    rcases split2 with _ | ⟨joined2, open2⟩
    · simp at hc
    obtain ⟨hr1, hp1⟩ := hsound1 _ _ rfl
    obtain ⟨hr2, hp2⟩ := hsound2 _ _ rfl
    refine isPlanarPair_of_joinArcs hr1 hr2 ?_ ?_ (by simpa using hc)
    · intro x hx hx'
      have hx1 : x ∈ first := hr1.mem_iff.mp (List.mem_append_right _ hx)
      have hj : x ∈ joined1 := hp1.mem_iff.mpr ((hmem x).mpr ⟨hx1, hx'⟩)
      exact (List.nodup_append.mp (hr1.nodup_iff.mpr h1)).2.2 x hj x hx rfl
    · intro x hx hx'
      have hx2 : x ∈ second := hr2.mem_iff.mp (List.mem_append_right _ hx)
      have hj : x ∈ joined2 := hp2.mem_iff.mpr ((hmem x).mpr ⟨hx', hx2⟩)
      exact (List.nodup_append.mp (hr2.nodup_iff.mpr h2)).2.2 x hj x hx rfl
  · intro c hc
    have hnd1 := (List.nodup_append.mp (hc.first_order.nodup_iff.mpr h1)).1
    have hnd2 := (List.nodup_append.mp (hc.second_order.nodup_iff.mpr h2)).1
    have hp1 : c.joinedFirst.Perm (first.filter (· ∈ second)) :=
      (List.perm_ext_iff_of_nodup hnd1 hsnd).mpr fun x => by
        rw [hc.mem_joinedFirst_iff, hmem]
    have hp2 : c.joinedSecond.Perm (first.filter (· ∈ second)) :=
      (List.perm_ext_iff_of_nodup hnd2 hsnd).mpr fun x => by
        rw [hc.mem_joinedSecond_iff, hmem]
    obtain ⟨joined1, rfl, hj1, he1⟩ := hcomplete1 _ _ hc.first_order hp1
    obtain ⟨joined2, rfl, hj2, he2⟩ := hcomplete2 _ _ hc.second_order hp2
    obtain ⟨c', hc', horder⟩ := exists_joinArcs hc hj1 hj2 he1 he2
    exact ⟨c', by simp [hc'], by rw [horder]⟩

/-- `complements` enumerates the planar contractions of two circles without repeated labels, and
never fails with an error on them. -/
theorem complements_spec {first second : List α} (h1 : first.Nodup) (h2 : second.Nodup) :
    ∃ contractions, complements first second = .ok contractions ∧
      EnumeratesPlanarPairs first second contractions := by
  by_cases hempty : (first.isEmpty || second.isEmpty) = true
  · exact ⟨_, complements_of_isEmpty hempty⟩
  by_cases hshared : first.filter (· ∈ second) = []
  · exact ⟨_, complements_of_disjoint hempty hshared⟩
  · exact complements_of_shared h1 h2 hempty hshared

end TensorDiagram.Circle
