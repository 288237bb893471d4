import TensorDiagram.Diagram.Classify
import TensorDiagram.Proofs.TraceRemoval

/-!
# Which traces come off

On a circle where nothing occurs more than twice, a label that occurs twice is a trace, and one that
occurs once is a free leg.  All traces come off if and only if they can be drawn in the plane: no
two of them cross, and none of them has free legs on both sides (`nodup_removeTraces_iff`).  What is
left are then the free legs, in their order.

Both conditions say that a pair must not stand between two labels.  A pair of `x` *separates* `y`
from `z` if one `y` is between the two `x` and one `z` is not.  Two traces cross if one of them
separates the ends of the other, and a trace has free legs on both sides if it separates two labels
that occur once.

The proof follows the pairs as they come off.  Neighbours separate nothing, so taking them off keeps
both conditions (`DropsPair.isPlanar_iff`).  If both hold and a pair is left, then the pairs on its
side without free legs are nested, and the innermost ones are neighbours
(`IsPlanar.exists_dropsPair`).
-/

open Relation (ReflTransGen)

namespace TensorDiagram.Circle

variable {α : Type}
variable {u v w xs : List α} {a x y z : α}

/-! ## Crossings and sides -/

/-- Two traces cross. -/
def HasCrossing (xs : List α) : Prop :=
  ∃ p q p' q' : Fin xs.length, p < q ∧ q < p' ∧ p' < q' ∧ xs[p] = xs[p'] ∧
    xs[q] = xs[q'] ∧ xs[p] ≠ xs[q]

/-- Every trace has a side without free legs: the places between its two ends, or those around
them. -/
def HasClearSides [DecidableEq α] (xs : List α) : Prop :=
  ∀ p p' : Fin xs.length, p < p' → xs[p] = xs[p'] →
    (∀ q : Fin xs.length, p < q → q < p' → xs.count xs[q] ≠ 1) ∨
      ∀ q : Fin xs.length, q < p ∨ p' < q → xs.count xs[q] ≠ 1

/-- One `y` is between two `x`, and one `z` is before or behind them. -/
def Separates (xs : List α) (x y z : α) : Prop :=
  List.Sublist [x, y, x, z] xs ∨ List.Sublist [z, x, y, x] xs

/-- Four entries in order, by their places. -/
theorem four_sublist_iff {b c d : α} :
    List.Sublist [a, b, c, d] xs ↔ ∃ p q r s : Fin xs.length, p < q ∧ q < r ∧ r < s ∧
      xs[p] = a ∧ xs[q] = b ∧ xs[r] = c ∧ xs[s] = d := by
  constructor
  · intro h
    obtain ⟨places, heq, hsorted⟩ := List.sublist_eq_map_getElem h
    match places with
    | [p, q, r, s] =>
      simp only [List.map_cons, List.map_nil, List.cons.injEq, and_true] at heq
      simp only [List.pairwise_cons, List.mem_cons, List.not_mem_nil, or_false, forall_eq_or_imp,
        forall_eq] at hsorted
      obtain ⟨ha, hb, hc, hd⟩ := heq
      exact ⟨p, q, r, s, hsorted.1.1, hsorted.2.1.1, hsorted.2.2.1, ha.symm, hb.symm,
        hc.symm, hd.symm⟩
    | [] | [_] | [_, _] | [_, _, _] | _ :: _ :: _ :: _ :: _ :: _ => simp at heq
  · rintro ⟨p, q, r, s, hpq, hqr, hrs, rfl, rfl, rfl, rfl⟩
    have hsorted : [p, q, r, s].Pairwise (· < ·) := by
      simp [hpq, hqr, hrs, hpq.trans hqr, hqr.trans hrs, (hpq.trans hqr).trans hrs]
    exact List.map_getElem_sublist hsorted

/-- Traces cross if one separates the ends of the other. -/
theorem hasCrossing_iff : HasCrossing xs ↔ ∃ x y, x ≠ y ∧ Separates xs x y y := by
  constructor
  · rintro ⟨p, q, p', q', hpq, hqp, hpq', hp, hq, hne⟩
    exact ⟨xs[p], xs[q], hne,
      Or.inl (four_sublist_iff.mpr ⟨p, q, p', q', hpq, hqp, hpq', rfl, rfl, hp.symm, hq.symm⟩)⟩
  · rintro ⟨x, y, hne, h | h⟩
    · obtain ⟨p, q, p', q', hpq, hqp, hpq', rfl, rfl, hp, hq⟩ := four_sublist_iff.mp h
      exact ⟨p, q, p', q', hpq, hqp, hpq', hp.symm, hq.symm, hne⟩
    · obtain ⟨p, q, p', q', hpq, hqp, hpq', rfl, rfl, hp, hq⟩ := four_sublist_iff.mp h
      exact ⟨p, q, p', q', hpq, hqp, hpq', hp.symm, hq.symm, hne.symm⟩

/-- If a trace separates the ends of another one, so does the other one. -/
theorem separates_comm : Separates xs x y y ↔ Separates xs y x x :=
  Or.comm

/-- What is between the ends of a trace is separated from what is around them. -/
theorem separates_of_mem (hy : y ∈ v) (hz : z ∈ u ∨ z ∈ w) :
    Separates (u ++ x :: (v ++ x :: w)) x y z := by
  have hy' : List.Sublist [y] v := List.singleton_sublist.mpr hy
  rcases hz with hz | hz
  · have hpair : List.Sublist ([y] ++ [x]) (v ++ x :: w) :=
      hy'.append ((List.nil_sublist w).cons_cons x)
    exact Or.inr ((List.singleton_sublist.mpr hz).append (hpair.cons_cons x))
  · have hpair : List.Sublist ([y] ++ [x, z]) (v ++ x :: w) :=
      hy'.append ((List.singleton_sublist.mpr hz).cons_cons x)
    exact Or.inl ((hpair.cons_cons x).trans (List.sublist_append_right u _))

/-- What comes behind the first `x` of a list. -/
theorem sublist_of_cons_sublist_append {t : List α} (hx : x ∉ v)
    (h : List.Sublist (x :: t) (v ++ x :: w)) : List.Sublist t w := by
  obtain ⟨l, l', heq, hl, hl'⟩ := List.sublist_append_iff.mp h
  cases l with
  | nil =>
    rw [List.nil_append] at heq
    rw [← heq] at hl'
    exact List.cons_sublist_cons.mp hl'
  | cons a l =>
    obtain ⟨rfl, -⟩ := List.cons.inj heq
    exact absurd (hl.subset List.mem_cons_self) hx

variable [DecidableEq α]

/-- A trace has free legs on both sides if it separates them. -/
theorem hasClearSides_iff :
    HasClearSides xs ↔ ∀ x y z, xs.count y = 1 → xs.count z = 1 → ¬ Separates xs x y z := by
  constructor
  · rintro hclear x y z hy hz (h | h)
    · obtain ⟨p, q, p', q', hpq, hqp, hpq', rfl, rfl, hp, rfl⟩ := four_sublist_iff.mp h
      rcases hclear p p' (hpq.trans hqp) hp.symm with hin | hout
      · exact hin q hpq hqp hy
      · exact hout q' (Or.inr hpq') hz
    · obtain ⟨q', p, q, p', hpq', hpq, hqp, rfl, rfl, rfl, hp⟩ := four_sublist_iff.mp h
      rcases hclear p p' (hpq.trans hqp) hp.symm with hin | hout
      · exact hin q hpq hqp hy
      · exact hout q' (Or.inl hpq') hz
  · intro hsep p p' hpp hp
    by_contra hboth
    push Not at hboth
    obtain ⟨⟨q, hpq, hqp, hq⟩, q', hside, hq'⟩ := hboth
    refine hsep xs[p] xs[q] xs[q'] hq hq' ?_
    rcases hside with hlt | hlt
    · exact Or.inr (four_sublist_iff.mpr ⟨q', p, q, p', hlt, hpq, hqp, rfl, rfl, rfl, hp.symm⟩)
    · exact Or.inl (four_sublist_iff.mpr ⟨p, q, p', q', hpq, hqp, hlt, rfl, rfl, hp.symm, rfl⟩)

/-- The traces can be drawn in the plane: no trace separates the ends of another one, or two free
legs. -/
structure IsPlanar (xs : List α) : Prop where
  /-- Traces do not cross. -/
  noCrossing : ∀ x y, x ≠ y → ¬ Separates xs x y y
  /-- No trace has free legs on both sides. -/
  clearSides : ∀ x y z, xs.count y = 1 → xs.count z = 1 → ¬ Separates xs x y z

theorem isPlanar_iff : IsPlanar xs ↔ ¬ HasCrossing xs ∧ HasClearSides xs := by
  rw [hasCrossing_iff, hasClearSides_iff]
  push Not
  exact ⟨fun h => ⟨h.noCrossing, h.clearSides⟩, fun h => ⟨h.1, h.2⟩⟩

/-- Distinct labels are planar. -/
theorem isPlanar_of_nodup (h : xs.Nodup) : IsPlanar xs := by
  have hnone : ∀ x y z, ¬ Separates xs x y z := by
    rintro x y z (hsub | hsub) <;> exact absurd (h.sublist hsub) (by simp)
  exact ⟨fun x y _ => hnone x y y, fun x y z _ _ => hnone x y z⟩

/-! ## Taking off neighbours -/

/-- What comes before the first `x` of a list, and behind it. -/
theorem mem_and_sublist_of_sublist_append {t : List α} (hx : x ∉ v) (hy : y ≠ x)
    (hcount : w.count x = t.count x) (h : List.Sublist (y :: x :: t) (v ++ x :: w)) :
    y ∈ v ∧ List.Sublist t w := by
  obtain ⟨l, l', heq, hl, hl'⟩ := List.sublist_append_iff.mp h
  match l with
  | [] =>
    rw [List.nil_append] at heq
    rw [← heq, List.sublist_cons_iff] at hl'
    rcases hl' with hsub | ⟨r, hr, -⟩
    · have hle := hsub.count_le x
      rw [List.count_cons_of_ne hy, List.count_cons_self] at hle
      omega
    · exact absurd (List.cons.inj hr).1 hy
  | [a] =>
    obtain ⟨rfl, rfl⟩ := List.cons.inj heq
    exact ⟨hl.subset List.mem_cons_self, List.cons_sublist_cons.mp hl'⟩
  | a :: b :: l =>
    rw [List.cons_append, List.cons_append, List.cons.injEq, List.cons.injEq] at heq
    obtain ⟨-, rfl, -⟩ := heq
    exact absurd (hl.subset (List.mem_cons_of_mem _ List.mem_cons_self)) hx

/-- What a trace separates is between its ends and around them. -/
theorem mem_of_separates (hx : x ∉ u ++ (v ++ w)) (hy : y ≠ x) (hz : z ≠ x)
    (h : Separates (u ++ x :: (v ++ x :: w)) x y z) : y ∈ v ∧ (z ∈ u ∨ z ∈ w) := by
  rw [List.mem_append, List.mem_append, not_or, not_or] at hx
  obtain ⟨hu, hv, hw⟩ := hx
  have hv' := List.count_eq_zero.mpr hv
  have hw' := List.count_eq_zero.mpr hw
  rcases h with h | h
  · have hbehind := sublist_of_cons_sublist_append hu h
    obtain ⟨hyv, hzw⟩ := mem_and_sublist_of_sublist_append hv hy (by simp [hz, hw']) hbehind
    exact ⟨hyv, Or.inr (List.singleton_sublist.mp hzw)⟩
  · obtain ⟨hzu, hbehind⟩ := mem_and_sublist_of_sublist_append hu hz (by simp [hy, hv', hw']) h
    exact ⟨(mem_and_sublist_of_sublist_append hv hy (by simp [hw']) hbehind).1, Or.inl hzu⟩

/-- Nothing occurs more than twice, so the ends of a trace are all there is of it. -/
theorem not_mem_of_count_le (h : (u ++ x :: (v ++ x :: w)).count x ≤ 2) : x ∉ u ++ (v ++ w) := by
  rw [← List.count_eq_zero]
  simp only [List.count_append, List.count_cons_self] at h ⊢
  omega

/-- Neighbours that come off are a label that occurs twice and separates nothing. -/
theorem DropsPair.exists_filter {ys : List α} (h : DropsPair xs ys) (hcount : ∀ a, xs.count a ≤ 2) :
    ∃ x, xs.count x = 2 ∧ ys = xs.filter (· ≠ x) ∧ ∀ y z, y ≠ x → z ≠ x → ¬ Separates xs x y z := by
  obtain ⟨x, u, v, w, rfl, rfl, hside⟩ := h
  have hx : x ∉ u ++ (v ++ w) := not_mem_of_count_le (hcount x)
  have htwo : (u ++ x :: (v ++ x :: w)).count x = (u ++ (v ++ w)).count x + 2 := by
    simp only [List.count_append, List.count_cons_self]
    omega
  refine ⟨x, by rw [htwo, List.count_eq_zero.mpr hx], ?_, fun y z hy hz hsep => ?_⟩
  · have hkeep : (u ++ (v ++ w)).filter (· ≠ x) = u ++ (v ++ w) :=
      List.filter_eq_self.mpr fun a ha => decide_eq_true fun heq => hx (heq ▸ ha)
    simpa using hkeep.symm
  · obtain ⟨hyv, hz'⟩ := mem_of_separates hx hy hz hsep
    rcases hside with rfl | ⟨rfl, rfl⟩
    · exact absurd hyv List.not_mem_nil
    · simp at hz'

/-- What is separated once a label has come off was separated before. -/
theorem Separates.of_filter (h : Separates (xs.filter (· ≠ a)) x y z) : Separates xs x y z :=
  Or.imp (fun hsub => hsub.trans List.filter_sublist) (fun hsub => hsub.trans List.filter_sublist) h

/-- Other labels are still separated once a label has come off. -/
theorem Separates.filter (h : Separates xs x y z) (hx : x ≠ a) (hy : y ≠ a) (hz : z ≠ a) :
    Separates (xs.filter (· ≠ a)) x y z := by
  refine Or.imp (fun hsub => ?_) (fun hsub => ?_) h
  · simpa [hx, hy, hz] using hsub.filter (· ≠ a)
  · simpa [hx, hy, hz] using hsub.filter (· ≠ a)

/-- A label occurs once if it does so after another one, which occurs twice, has come off. -/
theorem count_filter_eq_one_iff (hx : xs.count x = 2) (a : α) :
    (xs.filter (· ≠ x)).count a = 1 ↔ xs.count a = 1 := by
  by_cases ha : a = x
  · subst ha
    rw [hx, List.count_eq_zero.mpr (by simp)]
    omega
  · rw [List.count_filter (by simpa using ha)]

namespace DropsPair

variable {xs ys : List α} (h : DropsPair xs ys) (hcount : ∀ a, xs.count a ≤ 2)

include h hcount

/-- Taking off neighbours, nothing comes to occur more than twice. -/
theorem count_le (a : α) : ys.count a ≤ 2 := by
  obtain ⟨x, -, rfl, -⟩ := h.exists_filter hcount
  exact (List.filter_sublist.count_le a).trans (hcount a)

/-- Taking off neighbours keeps the free legs and their order. -/
theorem once_eq : once ys = once xs := by
  obtain ⟨x, hx, rfl, -⟩ := h.exists_filter hcount
  unfold once
  rw [List.filter_filter]
  apply List.filter_congr
  intro a _
  rw [decide_eq_decide.mpr (count_filter_eq_one_iff hx a), ← Bool.decide_and, decide_eq_decide,
    and_iff_left_iff_imp]
  rintro ha rfl
  omega

/-- Taking off neighbours, or putting them back, does not matter for whether the traces are
planar. -/
theorem isPlanar_iff : IsPlanar xs ↔ IsPlanar ys := by
  obtain ⟨a, ha, rfl, hnone⟩ := h.exists_filter hcount
  have hone := count_filter_eq_one_iff ha
  constructor
  · intro hp
    refine ⟨fun x y hxy hsep => hp.noCrossing x y hxy hsep.of_filter, fun x y z hy hz hsep => ?_⟩
    exact hp.clearSides x y z ((hone y).mp hy) ((hone z).mp hz) hsep.of_filter
  · intro hp
    refine ⟨fun x y hxy hsep => ?_, fun x y z hy hz hsep => ?_⟩
    · by_cases hx : x = a
      · subst hx
        exact hnone y y hxy.symm hxy.symm hsep
      · by_cases hy : y = a
        · subst hy
          exact hnone x x hx hx (separates_comm.mp hsep)
        · exact hp.noCrossing x y hxy (hsep.filter hx hy hy)
    · have hya : y ≠ a := by
        rintro rfl
        omega
      have hza : z ≠ a := by
        rintro rfl
        omega
      by_cases hx : x = a
      · subst hx
        exact hnone y z hya hza hsep
      · exact hp.clearSides x y z ((hone y).mpr hy) ((hone z).mpr hz) (hsep.filter hx hya hza)

end DropsPair

/-! ## Nested pairs -/

/-- A label that is not a free leg has another end. -/
theorem mem_or_mem_of_count_ne_one (p q : List α) (hxs : xs = p ++ y :: q) (h : xs.count y ≠ 1) :
    y ∈ p ∨ y ∈ q := by
  rw [← List.count_pos_iff, ← List.count_pos_iff]
  rw [hxs, List.count_append, List.count_cons_self] at h
  omega

namespace IsPlanar

variable {xs : List α} (h : IsPlanar xs) (hcount : ∀ a, xs.count a ≤ 2)

include h hcount

/-- If there are no free legs between the ends of a trace, the innermost trace there has its ends
side by side. -/
theorem exists_dropsPair_of_inside (hxs : xs = u ++ x :: (v ++ x :: w))
    (hinside : ∀ y ∈ v, xs.count y ≠ 1) : ∃ ys, DropsPair xs ys := by
  induction hlength : v.length using Nat.strong_induction_on generalizing x u v w with
  | _ n ih =>
    cases v with
    | nil => exact ⟨u ++ ([] ++ w), x, u, [], w, hxs, rfl, Or.inl rfl⟩
    | cons y v =>
      have hxv : x ∉ u ++ (y :: v ++ w) := not_mem_of_count_le (hxs ▸ hcount x)
      have hxy : x ≠ y := by
        rintro rfl
        simp at hxv
      -- a trace that begins inside ends inside
      have hcross : ¬ (y ∈ u ∨ y ∈ w) := fun hout =>
        h.noCrossing x y hxy (hxs ▸ separates_of_mem List.mem_cons_self hout)
      have hy : y ∈ v := by
        have hother :=
          mem_or_mem_of_count_ne_one (u ++ [x]) (v ++ x :: w) (by simp [hxs])
            (hinside y List.mem_cons_self)
        simp only [List.mem_append, List.mem_cons, List.not_mem_nil, or_false, hxy.symm,
          false_or] at hother
        tauto
      obtain ⟨v₁, v₂, rfl⟩ := List.append_of_mem hy
      refine ih v₁.length ?_ (x := y) (u := u ++ [x]) (v := v₁) (w := v₂ ++ x :: w) ?_ ?_ rfl
      · rw [← hlength, List.length_cons, List.length_append]
        omega
      · simp [hxs]
      · intro z hz
        exact hinside z (by simp [hz])

/-- If there are no free legs around the ends of a trace, some trace around them has its ends side
by side. -/
theorem exists_dropsPair_of_around (hxs : xs = u ++ x :: (v ++ x :: w))
    (haround : ∀ y, y ∈ u ∨ y ∈ w → xs.count y ≠ 1) : ∃ ys, DropsPair xs ys := by
  induction hlength : u.length + w.length using Nat.strong_induction_on generalizing x u v w with
  | _ n ih =>
    have hxv : x ∉ u ++ (v ++ w) := not_mem_of_count_le (hxs ▸ hcount x)
    -- a trace that begins around the ends does not end between them
    have hcross : ∀ y, y ∈ u ∨ y ∈ w → y ∉ v := by
      intro y hout hy
      have hxy : x ≠ y := by
        rintro rfl
        simp [hy] at hxv
      exact h.noCrossing x y hxy (hxs ▸ separates_of_mem hy hout)
    cases w with
    | nil =>
      rcases List.eq_nil_or_concat u with rfl | ⟨u, y, rfl⟩
      · exact ⟨[] ++ (v ++ []), x, [], v, [], hxs, rfl, Or.inr ⟨rfl, rfl⟩⟩
      · have hy : y ∈ u := by
          have hother :=
            mem_or_mem_of_count_ne_one u (x :: (v ++ [x])) (by simp [hxs]) (haround y (by simp))
          have hyv := hcross y (by simp)
          have hyx : y ≠ x := by
            rintro rfl
            simp at hxv
          simpa [hyv, hyx] using hother
        obtain ⟨u₁, u₂, rfl⟩ := List.append_of_mem hy
        refine h.exists_dropsPair_of_inside hcount (x := y) (u := u₁) (v := u₂)
          (w := x :: (v ++ [x])) ?_ ?_
        · simp [hxs]
        · intro z hz
          exact haround z (by simp [hz])
    | cons y w =>
      have hother :=
        mem_or_mem_of_count_ne_one (u ++ x :: (v ++ [x])) w (by simp [hxs]) (haround y (by simp))
      have hyv := hcross y (by simp)
      have hyx : y ≠ x := by
        rintro rfl
        simp at hxv
      simp only [List.mem_append, List.mem_cons, List.not_mem_nil, or_false, hyv, hyx] at hother
      rcases hother with hy | hy
      · obtain ⟨u₁, u₂, rfl⟩ := List.append_of_mem hy
        refine ih (u₁.length + w.length) ?_ (x := y) (u := u₁) (v := u₂ ++ x :: (v ++ [x]))
          (w := w) ?_ ?_ rfl
        · rw [← hlength, List.length_append, List.length_cons, List.length_cons]
          omega
        · simp [hxs]
        · rintro z (hz | hz)
          · exact haround z (by simp [hz])
          · exact haround z (by simp [hz])
      · obtain ⟨w₁, w₂, rfl⟩ := List.append_of_mem hy
        refine h.exists_dropsPair_of_inside hcount (x := y) (u := u ++ x :: (v ++ [x])) (v := w₁)
          (w := w₂) ?_ ?_
        · simp [hxs]
        · intro z hz
          exact haround z (by simp [hz])

/-- If the traces are planar and there is one, then there is one whose ends are neighbours. -/
theorem exists_dropsPair (hdup : ¬ xs.Nodup) : ∃ ys, DropsPair xs ys := by
  rw [List.nodup_iff_count_le_one] at hdup
  push Not at hdup
  obtain ⟨x, hx⟩ := hdup
  obtain ⟨u, s, hxs, hu⟩ :=
    List.eq_append_cons_of_mem (List.count_pos_iff.mp (Nat.zero_lt_of_lt hx))
  have hs : x ∈ s := by
    rw [hxs, List.count_append, List.count_cons_self, List.count_eq_zero.mpr hu] at hx
    exact List.count_pos_iff.mp (by omega)
  obtain ⟨v, w, rfl⟩ := List.append_of_mem hs
  by_cases hinside : ∀ y ∈ v, xs.count y ≠ 1
  · exact h.exists_dropsPair_of_inside hcount hxs hinside
  · push Not at hinside
    obtain ⟨y, hy, hone⟩ := hinside
    refine h.exists_dropsPair_of_around hcount hxs fun z hz hone' => ?_
    exact h.clearSides x y z hone hone' (hxs ▸ separates_of_mem hy hz)

end IsPlanar

/-! ## All traces -/

/-- What taking off neighbours, one pair after the other, keeps. -/
theorem drops_spec {ys : List α} (h : ReflTransGen DropsPair xs ys) (hcount : ∀ a, xs.count a ≤ 2) :
    (∀ a, ys.count a ≤ 2) ∧ (IsPlanar xs ↔ IsPlanar ys) ∧ once ys = once xs := by
  induction h with
  | refl => exact ⟨hcount, Iff.rfl, rfl⟩
  | tail _ hstep ih =>
    obtain ⟨hcount', hplanar, honce⟩ := ih
    exact ⟨hstep.count_le hcount', hplanar.trans (hstep.isPlanar_iff hcount'),
      (hstep.once_eq hcount').trans honce⟩

/-- Distinct labels are all free legs. -/
theorem once_eq_of_nodup (h : xs.Nodup) : once xs = xs :=
  List.filter_eq_self.mpr fun _ ha => decide_eq_true (List.count_eq_one_of_mem h ha)

/-- All traces come off if they are planar, and otherwise not. -/
theorem nodup_removeTraces_iff (hcount : ∀ a, xs.count a ≤ 2) :
    (removeTraces xs).Nodup ↔ IsPlanar xs := by
  obtain ⟨hcount', hplanar, -⟩ := drops_spec (drops_removeTraces xs) hcount
  rw [hplanar]
  refine ⟨isPlanar_of_nodup, fun h => ?_⟩
  by_contra hdup
  obtain ⟨ys, hys⟩ := h.exists_dropsPair hcount' hdup
  exact not_cancels_removeTraces xs ys hys.cancels

/-- Rounds change nothing any more after one that has not. -/
theorem repeat_add_of_fixed {n : ℕ}
    (h : sweep [] (Nat.repeat (sweep []) n xs) = Nat.repeat (sweep []) n xs) (k : ℕ) :
    Nat.repeat (sweep []) (n + k) xs = Nat.repeat (sweep []) n xs := by
  induction k with
  | zero => rfl
  | succ k ih => rw [← Nat.add_assoc, Nat.repeat, ih, h]

/-- Whenever a round changes nothing, the traces have been removed. -/
theorem removeTraces_eq_of_fixed {n : ℕ}
    (h : sweep [] (Nat.repeat (sweep []) n xs) = Nat.repeat (sweep []) n xs) :
    removeTraces xs = Nat.repeat (sweep []) n xs := by
  rcases Nat.le_total n xs.length with hle | hle
  · rw [← repeat_add_of_fixed h (xs.length - n), Nat.add_sub_cancel' hle, removeTraces]
  · have hlast := repeat_add_of_fixed (sweep_removeTraces xs) (n - xs.length)
    rw [Nat.add_sub_cancel' hle] at hlast
    exact hlast.symm

/-- Neighbours are different once the traces have come off. -/
theorem getElem?_removeTraces_ne {i : ℕ} (hlength : 2 ≤ (removeTraces xs).length)
    (hi : i < (removeTraces xs).length) :
    (removeTraces xs)[i]? ≠ (removeTraces xs)[(i + 1) % (removeTraces xs).length]? := by
  intro heq
  have hfirst : ((removeTraces xs).rotate i)[0]? = (removeTraces xs)[i]? := by
    rw [List.getElem?_rotate (by omega), Nat.zero_add, Nat.mod_eq_of_lt hi]
  have hsecond : ((removeTraces xs).rotate i)[1]? =
      (removeTraces xs)[(i + 1) % (removeTraces xs).length]? := by
    rw [List.getElem?_rotate (by omega), Nat.add_comm]
  rw [← hfirst, ← hsecond] at heq
  rcases hrot : (removeTraces xs).rotate i with _ | ⟨a, _ | ⟨b, rest⟩⟩
  · have hzero := congrArg List.length hrot
    rw [List.length_rotate, List.length_nil] at hzero
    omega
  · have hone := congrArg List.length hrot
    rw [List.length_rotate, List.length_singleton] at hone
    omega
  · rw [hrot, List.getElem?_cons_zero, List.getElem?_cons_succ, List.getElem?_cons_zero,
      Option.some.injEq] at heq
    subst heq
    exact not_cancels_removeTraces xs rest ⟨a, rest, Cycle.coe_eq_coe.mpr ⟨i, hrot⟩, rfl⟩

/-- **Exactly the planar traces come off.**  If nothing occurs more than twice, distinct labels are
left if and only if no two traces cross and every trace has a side without free legs, and these are
then the free legs in their order.  On any circle the rounds end, after as many as there are entries
at the latest, and then no two neighbours are equal. -/
theorem removeTraces_exact (xs : List α) :
    ((∀ a, xs.count a ≤ 2) →
      ((removeTraces xs).Nodup ↔ ¬ HasCrossing xs ∧ HasClearSides xs) ∧
        ((removeTraces xs).Nodup → removeTraces xs = once xs)) ∧
    (∃ n ≤ xs.length, sweep [] (Nat.repeat (sweep []) n xs) = Nat.repeat (sweep []) n xs) ∧
    (∀ n, sweep [] (Nat.repeat (sweep []) n xs) = Nat.repeat (sweep []) n xs →
      removeTraces xs = Nat.repeat (sweep []) n xs) ∧
    (2 ≤ (removeTraces xs).length → ∀ i < (removeTraces xs).length,
      (removeTraces xs)[i]? ≠ (removeTraces xs)[(i + 1) % (removeTraces xs).length]?) := by
  refine ⟨fun hcount => ⟨?_, fun hnd => ?_⟩, ?_, fun n => removeTraces_eq_of_fixed,
    fun hlength i hi => ?_⟩
  · rw [nodup_removeTraces_iff hcount, isPlanar_iff]
  · have honce := (drops_spec (drops_removeTraces xs) hcount).2.2
    rw [← honce, once_eq_of_nodup hnd]
  · exact ⟨xs.length, le_rfl, sweep_removeTraces xs⟩
  · exact getElem?_removeTraces_ne hlength hi

/-- Two free legs inside of a trace that closes around the end, with two nested traces between
them. -/
def nestedCircle : List (Fin 5) :=
  [0, 3, 1, 2, 2, 1, 4, 0]

/-- All traces of the nested circle come off, so they are planar, and the two free legs are left. -/
theorem removeTraces_exact_nestedCircle :
    (∀ a, nestedCircle.count a ≤ 2) ∧ (removeTraces nestedCircle).Nodup ∧
      ¬ HasCrossing nestedCircle ∧ HasClearSides nestedCircle ∧
        removeTraces nestedCircle = once nestedCircle ∧ once nestedCircle = [3, 4] := by
  have hcount : ∀ a, nestedCircle.count a ≤ 2 := by decide
  have hnd : (removeTraces nestedCircle).Nodup := by decide
  obtain ⟨hiff, honce⟩ := (removeTraces_exact nestedCircle).1 hcount
  obtain ⟨hcross, hclear⟩ := hiff.mp hnd
  exact ⟨hcount, hnd, hcross, hclear, honce hnd, by decide⟩

end TensorDiagram.Circle
