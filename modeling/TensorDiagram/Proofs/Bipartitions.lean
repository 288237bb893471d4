import TensorDiagram.Proofs.Arcs

/-!
# Which legs form an arc

The numbers below `n` stand on a circle.  Some of them are an arc if some rotation of the circle
begins with exactly these (`IsArc`).  `bipartition` only looks at the places where the legs begin,
and there is one such place for an arc that is not the whole circle, and for no other set of legs
(`isArc_iff_exists_arcStarts`).  So it splits the circle exactly if the legs are an arc, and what it
returns is the circle, read from the beginning of the arc.

The beginnings can be read off the sorted legs.  There is one at every jump, and one at the first
leg unless both ends of the line are legs (`arcStarts_eq_afterJumps`).
-/

namespace TensorDiagram.Circle

/-- The legs are an arc of the circle of the numbers below `n`: some rotation of the circle begins
with them. -/
def IsArc (legs : List ℕ) (n : ℕ) : Prop :=
  ∃ k, (((List.range n).rotate k).take legs.length).Perm legs

/-- An arc is a piece of a rotation of the circle. -/
theorem arc_eq_take_drop_rotate {n s d c : ℕ} (hc : d + c ≤ n) :
    arc n (s + d) c = (((List.range n).rotate s).drop d).take c := by
  have hread := filterMap_arc (List.range n) s d c (by rwa [List.length_range])
  rw [List.length_range] at hread
  rw [← hread]
  have hplaces : ∀ i ∈ arc n (s + d) c, (List.range n)[i]? = some i := by
    intro i hi
    obtain ⟨k, hk, rfl⟩ := List.mem_map.mp hi
    rw [List.mem_range] at hk
    exact List.getElem?_range (Nat.mod_lt _ (by omega))
  rw [List.filterMap_congr hplaces, List.filterMap_some]

theorem arc_eq_take_rotate {n s c : ℕ} (hc : c ≤ n) :
    arc n s c = ((List.range n).rotate s).take c := by
  have hpiece := arc_eq_take_drop_rotate (n := n) (s := s) (d := 0) (c := c) (by omega)
  rwa [Nat.add_zero, List.drop_zero] at hpiece

/-- An arc and the arc behind it go once around the circle. -/
theorem arc_append_arc {n s c : ℕ} (hc : c ≤ n) :
    arc n s c ++ arc n (s + c) (n - c) = (List.range n).rotate s := by
  have hsecond := arc_eq_take_drop_rotate (n := n) (s := s) (d := c) (c := n - c) (by omega)
  rw [List.take_of_length_le
    (by rw [List.length_drop, List.length_rotate, List.length_range])] at hsecond
  rw [arc_eq_take_rotate hc, hsecond, List.take_append_drop]

section Legs

variable {legs : List ℕ} {n : ℕ}

/-- Legs that are the numbers of an arc begin at its start only. -/
theorem arcStarts_eq_of_perm {s : ℕ} (hs : s < n) (hne : legs ≠ [])
    (hlength : legs.length < n) (hperm : (arc n s legs.length).Perm legs) :
    arcStarts n legs = [s] := by
  refine arcStarts_eq_of_forall hs (List.length_pos_iff.mpr hne) hlength fun i => ?_
  rw [← hperm.mem_iff, arc, List.mem_map]
  simp only [List.mem_range, eq_comm]

/-- Legs that are neither none nor all form an arc if and only if they begin at one place. -/
theorem isArc_iff_exists_arcStarts (hnd : legs.Nodup) (hlt : ∀ l ∈ legs, l < n) (hne : legs ≠ [])
    (hlength : legs.length < n) : IsArc legs n ↔ ∃ s, arcStarts n legs = [s] := by
  constructor
  · rintro ⟨k, hk⟩
    have hmod : (List.range n).rotate (k % n) = (List.range n).rotate k := by
      simpa using List.rotate_mod (List.range n) k
    rw [← hmod, ← arc_eq_take_rotate hlength.le] at hk
    exact ⟨k % n, arcStarts_eq_of_perm (Nat.mod_lt _ (by omega)) hne hlength hk⟩
  · rintro ⟨s, hs⟩
    refine ⟨s, ?_⟩
    rw [← arc_eq_take_rotate hlength.le]
    exact arc_perm_of_arcStarts_eq hnd hlt hlength.le hs

/-- Distinct legs are among the numbers of the circle. -/
theorem subperm_range (hnd : legs.Nodup) (hlt : ∀ l ∈ legs, l < n) : legs.Subperm (List.range n) :=
  hnd.subperm fun l hl => List.mem_range.mpr (hlt l hl)

/-- If all numbers are legs, the legs are the whole circle. -/
theorem range_perm_of_length_eq (hnd : legs.Nodup) (hlt : ∀ l ∈ legs, l < n)
    (hlength : legs.length = n) : (List.range n).Perm legs :=
  ((subperm_range hnd hlt).perm_of_length_le (by rw [List.length_range, hlength])).symm

/-- Legs are split off exactly if they form an arc, and then the circle is read from the beginning
of the arc. -/
theorem bipartition_spec (hnd : legs.Nodup) (hlt : ∀ l ∈ legs, l < n) :
    (IsArc legs n → ∃ first second, bipartition legs n = .ok (first, second) ∧ first.Perm legs ∧
      first ++ second ~r List.range n) ∧
    (¬ IsArc legs n → bipartition legs n = .error .notBipartition) := by
  unfold bipartition
  rw [if_pos ⟨hnd, hlt⟩]
  by_cases hne : legs = []
  · -- no leg is an arc, wherever it begins
    subst hne
    refine ⟨fun _ => ⟨[], List.range n, rfl, .nil, .refl _⟩, fun harc => absurd ⟨0, ?_⟩ harc⟩
    rw [List.length_nil, List.take_zero]
  rw [if_neg (by rwa [List.isEmpty_iff])]
  by_cases hall : legs.length = n
  · have hperm := range_perm_of_length_eq hnd hlt hall
    rw [if_pos hall]
    refine ⟨fun _ => ⟨List.range n, [], rfl, hperm, by rw [List.append_nil]⟩, fun harc =>
      absurd ⟨0, ?_⟩ harc⟩
    rwa [List.rotate_zero, List.take_of_length_le (by rw [List.length_range, hall])]
  rw [if_neg hall]
  have hle : legs.length ≤ n := by simpa using (subperm_range hnd hlt).length_le
  rw [isArc_iff_exists_arcStarts hnd hlt hne (by omega)]
  constructor
  · rintro ⟨s, hs⟩
    rw [hs]
    refine ⟨_, _, rfl, arc_perm_of_arcStarts_eq hnd hlt hle hs, ?_⟩
    rw [arc_append_arc hle]
    exact List.IsRotated.forall _ s
  · intro hnone
    rcases hstarts : arcStarts n legs with _ | ⟨s, _ | ⟨s', rest⟩⟩
    · rfl
    · exact absurd ⟨s, hstarts⟩ hnone
    · rfl

end Legs

/-- **Exactly the arcs are split off.**  For distinct legs among the numbers below `n`, in any
order: if some rotation of the circle begins with exactly the legs, the result is the legs and the
other numbers in the order of the circle, so that both together go once around it.  Otherwise it is
an error about the value of the argument. -/
theorem integerBipartition_accepts_arcs {legs : List ℤ} {n : ℤ} (hnd : legs.Nodup)
    (hrange : ∀ l ∈ legs, 0 ≤ l ∧ l < n) :
    (IsArc (legs.map Int.toNat) n.toNat →
      ∃ first second, integerBipartition legs n = .ok (first, second) ∧
      first.Perm (legs.map Int.toNat) ∧ first ++ second ~r List.range n.toNat) ∧
    (¬ IsArc (legs.map Int.toNat) n.toNat →
      integerBipartition legs n = .error .notBipartition ∧ Error.notBipartition.kind = .value) := by
  have hnd' : (legs.map Int.toNat).Nodup := by
    refine hnd.map_on fun a ha b hb hab => ?_
    have := (hrange a ha).1
    have := (hrange b hb).1
    omega
  have hlt : ∀ l ∈ legs.map Int.toNat, l < n.toNat := by
    rw [List.forall_mem_map]
    intro l hl
    have := hrange l hl
    omega
  obtain ⟨harc, hother⟩ := bipartition_spec hnd' hlt
  unfold integerBipartition
  rw [if_pos fun l hl => (hrange l hl).1]
  exact ⟨harc, fun hnone => ⟨hother hnone, rfl⟩⟩

/-- Four of nine legs that wrap around the end, in no order. -/
theorem integerBipartition_accepts_wrapped : IsArc [0, 8, 1, 7] 9 ∧
    ∃ first second, integerBipartition [0, 8, 1, 7] 9 = .ok (first, second) ∧
      first.Perm [0, 8, 1, 7] ∧ first ++ second ~r List.range 9 := by
  have harc : IsArc [0, 8, 1, 7] 9 := ⟨7, by decide⟩
  exact ⟨harc, (@integerBipartition_accepts_arcs [0, 8, 1, 7] 9 (by decide) (by decide)).1 harc⟩

/-! ## Jumps of sorted legs -/

/-- The numbers of a list that are not the successor of the number before. -/
def afterJumps : List ℕ → List ℕ
  | x :: y :: rest => if y = x + 1 then afterJumps (y :: rest) else y :: afterJumps (y :: rest)
  | _ => []

/-- On the line, legs begin behind a jump. -/
theorem filter_pred_notMem {x : ℕ} {xs : List ℕ} (h : (x :: xs).SortedLT) :
    xs.filter (fun i => i - 1 ∉ x :: xs) = afterJumps (x :: xs) := by
  induction xs generalizing x with
  | nil => rfl
  | cons y xs ih =>
    have hxy := h.pairwise
    rw [List.pairwise_cons, List.pairwise_cons] at hxy
    obtain ⟨hx, hy, -⟩ := hxy
    have htail := ih (List.Pairwise.sortedLT h.pairwise.of_cons)
    -- the numbers behind the second one come after numbers that are not before it
    have hrest : xs.filter (fun i => i - 1 ∉ x :: y :: xs) = afterJumps (y :: xs) := by
      rw [← htail]
      refine List.filter_congr fun i hi => decide_eq_decide.mpr (not_congr ?_)
      rw [List.mem_cons, or_iff_right]
      have := hx y (List.mem_cons_self ..)
      have := hy i hi
      omega
    have hfirst : y - 1 ∈ x :: y :: xs ↔ y = x + 1 := by
      have := hx y (List.mem_cons_self ..)
      refine ⟨fun hmem => ?_, fun heq => by simp [heq]⟩
      rcases List.mem_cons.mp hmem with heq | hmem
      · omega
      rcases List.mem_cons.mp hmem with heq | hmem
      · omega
      · have := hy _ hmem
        omega
    rw [List.filter_cons, hrest, afterJumps]
    simp only [decide_eq_true_eq, hfirst, ite_not]

/-- Sorted legs begin behind their jumps.  The first of them is a beginning too, unless the legs
wrap around. -/
theorem arcStarts_sorted {x n : ℕ} {xs : List ℕ} (h : (x :: xs).SortedLT)
    (hlt : ∀ l ∈ x :: xs, l < n) :
    arcStarts n (x :: xs) = if 0 ∈ x :: xs ∧ n - 1 ∈ x :: xs then afterJumps (x :: xs)
      else x :: afterJumps (x :: xs) := by
  obtain ⟨hx, -⟩ := List.pairwise_cons.mp h.pairwise
  have hle : ∀ i ∈ x :: xs, x ≤ i := List.forall_mem_cons.mpr ⟨le_rfl, fun i hi => (hx i hi).le⟩
  have hlegs : (List.range n).filter (· ∈ x :: xs) = x :: xs := by
    refine List.Perm.eq_of_sortedLE (List.Pairwise.sortedLE (List.pairwise_le_range.filter _))
      h.sortedLE ((List.perm_ext_iff_of_nodup (List.nodup_range.filter _) h.nodup).mpr fun i => ?_)
    simpa using hlt i
  have hpred : ∀ i ∈ x :: xs, 0 < i → (i + n - 1) % n = i - 1 := fun i hi hpos => by
    rw [show i + n - 1 = i - 1 + n by omega, Nat.add_mod_right,
      Nat.mod_eq_of_lt (by have := hlt i hi; omega)]
  have hrest : xs.filter (fun i => (i + n - 1) % n ∉ x :: xs) = afterJumps (x :: xs) := by
    rw [← filter_pred_notMem h]
    refine List.filter_congr fun i hi => ?_
    rw [hpred i (List.mem_cons_of_mem _ hi) (by have := hx i hi; omega)]
  have hfirst : (x + n - 1) % n ∈ x :: xs ↔ 0 ∈ x :: xs ∧ n - 1 ∈ x :: xs := by
    rcases Nat.eq_zero_or_pos x with rfl | hpos
    · have := hlt 0 (List.mem_cons_self ..)
      rw [Nat.zero_add, Nat.mod_eq_of_lt (by omega), and_iff_right (List.mem_cons_self ..)]
    · rw [hpred x (List.mem_cons_self ..) hpos]
      refine iff_of_false (fun hmem => ?_) fun hzero => ?_
      · have := hle _ hmem
        omega
      · have := hle _ hzero.1
        omega
  have hsplit : arcStarts n (x :: xs) =
      ((List.range n).filter (· ∈ x :: xs)).filter fun i => (i + n - 1) % n ∉ x :: xs := by
    simp only [arcStarts, List.filter_filter, Bool.decide_and, Bool.and_comm]
  rw [hsplit, hlegs, List.filter_cons, hrest]
  simp only [decide_eq_true_eq, hfirst, ite_not]

/-- Where legs begin, read off the sorted legs: behind every jump, and at the first of them unless
both ends of the line are legs.  So they begin at one place if there is no jump, or one jump and
both ends. -/
theorem arcStarts_eq_afterJumps {legs : List ℕ} {n : ℕ} (hnd : legs.Nodup)
    (hlt : ∀ l ∈ legs, l < n) (hne : legs ≠ []) :
    arcStarts n legs = if 0 ∈ legs ∧ n - 1 ∈ legs then afterJumps legs.mergeSort
      else legs.mergeSort.headD 0 :: afterJumps legs.mergeSort := by
  have hperm := List.mergeSort_perm legs (fun a b => decide (a ≤ b))
  have hsorted : legs.mergeSort.SortedLT :=
    List.sortedLE_mergeSort.sortedLT_of_nodup (hperm.nodup_iff.mpr hnd)
  have hstarts : arcStarts n legs = arcStarts n legs.mergeSort := by
    simp only [arcStarts, hperm.mem_iff]
  simp only [hstarts, ← hperm.mem_iff] at hlt ⊢
  cases hlegs : legs.mergeSort with
  | nil => exact absurd (hlegs ▸ hperm).nil_eq.symm hne
  | cons x xs =>
    rw [hlegs] at hsorted hlt
    exact arcStarts_sorted hsorted hlt

end TensorDiagram.Circle
