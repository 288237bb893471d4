import Mathlib
import TensorDiagram.Circle.Basic

/-!
# Rotations and traces of a circle

A list on a circle is known up to rotation.  The decision procedure `isRotation` agrees with the
relation `~r` on lists, and `rotateRight` runs through all rotations of a list.

Taking traces off a circle removes labels in pairs.  So every label keeps the parity of its number
of occurrences, and a circle without repeated labels is left alone.
-/

namespace TensorDiagram.Circle

variable {α : Type}

/-- Moving the last `n` entries to the front is a rotation by the other entries. -/
theorem rotateRight_eq_rotate (n : ℕ) (xs : List α) :
    rotateRight n xs = xs.rotate (xs.length - n) := by
  rw [rotateRight, List.rotate_eq_drop_append_take (Nat.sub_le _ _)]

/-- Every rotation of a list that is not empty is `rotateRight` by less than its length. -/
theorem exists_rotateRight_iff {xs ys : List α} (hne : xs ≠ []) :
    (∃ n ∈ List.range xs.length, rotateRight n xs = ys) ↔ ys ~r xs := by
  have hpos : 0 < xs.length := List.length_pos_iff.mpr hne
  constructor
  · rintro ⟨n, -, rfl⟩
    rw [rotateRight_eq_rotate]
    exact List.IsRotated.forall xs _
  · intro h
    obtain ⟨k, hk, rfl⟩ := List.isRotated_iff_mod.mp h.symm
    by_cases hzero : k = 0
    · subst hzero
      refine ⟨0, List.mem_range.mpr hpos, ?_⟩
      rw [rotateRight_eq_rotate, Nat.sub_zero, List.rotate_length, List.rotate_zero]
    · refine ⟨xs.length - k, List.mem_range.mpr (by omega), ?_⟩
      rw [rotateRight_eq_rotate, Nat.sub_sub_self hk]

variable [DecidableEq α]

/-- The decision procedure for rotations is right. -/
theorem isRotation_iff {xs ys : List α} : isRotation xs ys = true ↔ xs ~r ys := by
  rw [isRotation, Bool.and_eq_true, Bool.or_eq_true, List.any_eq_true]
  constructor
  · rintro ⟨hlen, hempty | ⟨n, hn, heq⟩⟩
    · have hxs : xs = [] := List.isEmpty_iff.mp hempty
      have hys : ys = [] := by
        rw [hxs] at hlen
        simpa [eq_comm] using hlen
      rw [hxs, hys]
    · have hle : n ≤ ys.length := (List.mem_range.mp hn).le
      rw [of_decide_eq_true heq, ← List.rotate_eq_drop_append_take hle]
      exact List.IsRotated.forall ys n
  · intro h
    refine ⟨decide_eq_true h.perm.length_eq, ?_⟩
    by_cases hempty : xs = []
    · exact Or.inl (List.isEmpty_iff.mpr hempty)
    · right
      have hys : ys ≠ [] := fun hnil => hempty (List.isRotated_nil_iff.mp (hnil ▸ h))
      obtain ⟨n, hn⟩ := h.symm
      have hlt : n % ys.length < ys.length := Nat.mod_lt _ (List.length_pos_iff.mpr hys)
      refine ⟨n % ys.length, List.mem_range.mpr hlt, decide_eq_true ?_⟩
      rw [← List.rotate_eq_drop_append_take hlt.le, List.rotate_mod, hn]

/-! ## Traces -/

/-- A round over a circle without repeated labels changes nothing. -/
theorem sweep_eq_of_nodup (behind xs : List α) (h : (behind.reverse ++ xs).Nodup) :
    sweep behind xs = behind.reverse ++ xs := by
  induction behind, xs using sweep.induct with
  | case1 behind => simp [sweep]
  | case2 behind x hnil => simp [sweep, hnil]
  | case3 behind y rest hrev =>
    rw [hrev] at h
    simp at h
  | case4 behind x y rest hrev hne =>
    simp [sweep, hrev, hne]
  | case5 behind y rest ih =>
    have hsub : List.Sublist [y, y] (behind.reverse ++ y :: y :: rest) :=
      (List.Sublist.cons_cons y (List.Sublist.cons_cons y (List.nil_sublist rest))).trans
        (List.sublist_append_right _ _)
    exact absurd (h.sublist hsub) (by simp)
  | case6 behind x y rest hne ih =>
    rw [sweep, if_neg hne, ih (by simpa using h)]
    simp

/-- A circle without repeated labels has no traces. -/
theorem removeTraces_eq_of_nodup {xs : List α} (h : xs.Nodup) : removeTraces xs = xs := by
  have hfix : sweep [] xs = xs := by simpa using sweep_eq_of_nodup [] xs (by simpa using h)
  have hiter : ∀ n : ℕ, Nat.repeat (sweep []) n xs = xs := by
    intro n
    induction n with
    | zero => rfl
    | succ n ih => rw [Nat.repeat, ih, hfix]
  exact hiter xs.length

/-- A round takes away every label an even number of times. -/
theorem exists_count_sweep (behind xs : List α) (x : α) :
    ∃ k, (behind.reverse ++ xs).count x = (sweep behind xs).count x + 2 * k := by
  induction behind, xs using sweep.induct with
  | case1 behind => exact ⟨0, by simp [sweep]⟩
  | case2 behind y hnil => exact ⟨0, by simp [sweep, hnil]⟩
  | case3 behind y rest hrev =>
    rw [sweep, hrev]
    simp only [if_true, List.cons_append, List.count_cons, List.count_append, List.count_nil]
    refine ⟨if y = x then 1 else 0, ?_⟩
    by_cases hyx : y = x <;> simp [hyx]
  | case4 behind y z rest hrev hne =>
    refine ⟨0, ?_⟩
    rw [sweep, hrev]
    simp [hne]
  | case5 behind y rest ih =>
    obtain ⟨k, hk⟩ := ih
    rw [sweep, if_pos rfl]
    simp only [List.count_append, List.count_reverse, List.count_cons] at hk ⊢
    refine ⟨k + if y = x then 1 else 0, ?_⟩
    by_cases hyx : y = x <;> simp [hyx] <;> omega
  | case6 behind y z rest hne ih =>
    obtain ⟨k, hk⟩ := ih
    rw [sweep, if_neg hne]
    exact ⟨k, by simpa using hk⟩

/-- Taking all traces off a circle takes away every label an even number of times. -/
theorem exists_count_removeTraces (xs : List α) (x : α) :
    ∃ k, xs.count x = (removeTraces xs).count x + 2 * k := by
  have hiter : ∀ n : ℕ, ∃ k, xs.count x = (Nat.repeat (sweep []) n xs).count x + 2 * k := by
    intro n
    induction n with
    | zero => exact ⟨0, rfl⟩
    | succ n ih =>
      obtain ⟨k, hk⟩ := ih
      obtain ⟨j, hj⟩ := exists_count_sweep [] (Nat.repeat (sweep []) n xs) x
      rw [List.reverse_nil, List.nil_append] at hj
      exact ⟨k + j, by rw [Nat.repeat]; omega⟩
  exact hiter xs.length

end TensorDiagram.Circle
