import Mathlib
import TensorDiagram.Tensor.Grid

/-!
# Sums over the values of labels

A valuation gives every label a value.  A sum over some labels is a sum over the valuations that
take small values on these labels and are given elsewhere: `valuations S bound ρ` are those that
stay below `bound` on `S` and agree with `ρ` outside of `S`.

A sum over two sets of labels is a sum over the one of sums over the other (`sum_valuations_union`),
the bound does not matter as long as nothing beyond it contributes (`sum_valuations_congr_bound`),
and summing over all positions below a shape is summing over valuations (`sum_positions`).
-/

namespace TensorDiagram

variable {R : Type} [AddCommMonoid R]
variable {S : Finset Index} {l : Index} {labels : List Index} {ρ bound : Index → ℕ}

/-- The valuation with given values on some labels. -/
def fillIn (S : Finset Index) (ρ : Index → ℕ) (p : (l : Index) → l ∈ S → ℕ) : Index → ℕ :=
  fun l => if h : l ∈ S then p l h else ρ l

theorem fillIn_of_mem {p : (l : Index) → l ∈ S → ℕ} (h : l ∈ S) : fillIn S ρ p l = p l h := by
  rw [fillIn, dif_pos h]

theorem fillIn_of_notMem {p : (l : Index) → l ∈ S → ℕ} (h : l ∉ S) : fillIn S ρ p l = ρ l := by
  rw [fillIn, dif_neg h]

theorem fillIn_injective (S : Finset Index) (ρ : Index → ℕ) : Function.Injective (fillIn S ρ) := by
  intro p q hpq
  funext l hl
  calc p l hl = fillIn S ρ p l := (fillIn_of_mem hl).symm
    _ = fillIn S ρ q l := by rw [hpq]
    _ = q l hl := fillIn_of_mem hl

/-- The valuations that are below a bound on some labels and agree with a given one elsewhere. -/
def valuations (S : Finset Index) (bound : Index → ℕ) (ρ : Index → ℕ) : Finset (Index → ℕ) :=
  (S.pi fun l => Finset.range (bound l)).map ⟨fillIn S ρ, fillIn_injective S ρ⟩

theorem mem_valuations {g : Index → ℕ} :
    g ∈ valuations S bound ρ ↔ (∀ l ∈ S, g l < bound l) ∧ ∀ l ∉ S, g l = ρ l := by
  rw [valuations, Finset.mem_map]
  constructor
  · rintro ⟨p, hp, rfl⟩
    refine ⟨fun l hl => ?_, fun l hl => fillIn_of_notMem hl⟩
    rw [Function.Embedding.coeFn_mk, fillIn_of_mem hl]
    exact Finset.mem_range.mp (Finset.mem_pi.mp hp l hl)
  · rintro ⟨hlt, heq⟩
    refine ⟨fun l _ => g l, Finset.mem_pi.mpr fun l hl => Finset.mem_range.mpr (hlt l hl), ?_⟩
    funext l
    rw [Function.Embedding.coeFn_mk]
    by_cases hl : l ∈ S
    · exact fillIn_of_mem hl
    · exact (fillIn_of_notMem hl).trans (heq l hl).symm

/-- There is one valuation if no label varies. -/
@[simp] theorem valuations_empty (bound ρ : Index → ℕ) : valuations ∅ bound ρ = {ρ} := by
  ext g
  rw [mem_valuations, Finset.mem_singleton]
  constructor
  · exact fun h => funext fun l => h.2 l (Finset.notMem_empty l)
  · rintro rfl
    exact ⟨fun l hl => absurd hl (Finset.notMem_empty l), fun _ _ => rfl⟩

/-- A sum over two sets of labels. -/
theorem sum_valuations_union {T : Finset Index} (h : Disjoint S T) (bound ρ : Index → ℕ)
    (f : (Index → ℕ) → R) :
    ∑ g ∈ valuations (S ∪ T) bound ρ, f g =
      ∑ g ∈ valuations S bound ρ, ∑ g' ∈ valuations T bound g, f g' := by
  classical
  -- a valuation of both sets belongs to its restriction to the first
  have hmaps : ∀ g ∈ valuations (S ∪ T) bound ρ,
      (fun l => if l ∈ S then g l else ρ l) ∈ valuations S bound ρ := by
    intro g hg
    rw [mem_valuations] at hg ⊢
    refine ⟨fun l hl => ?_, fun l hl => by simp [hl]⟩
    simpa [hl] using hg.1 l (Finset.mem_union_left T hl)
  rw [← Finset.sum_fiberwise_of_maps_to hmaps]
  refine Finset.sum_congr rfl fun g hg => Finset.sum_congr ?_ fun _ _ => rfl
  rw [mem_valuations] at hg
  ext g'
  rw [Finset.mem_filter, mem_valuations, mem_valuations]
  constructor
  · rintro ⟨⟨hlt, heq⟩, rfl⟩
    refine ⟨fun l hl => hlt l (Finset.mem_union_right S hl), fun l hl => ?_⟩
    by_cases hS : l ∈ S
    · simp [hS]
    · simp [hS, heq l (by simp [hS, hl])]
  · rintro ⟨hlt, heq⟩
    have hfirst : ∀ l ∈ S, g' l = g l := fun l hl => heq l (Finset.disjoint_left.mp h hl)
    refine ⟨⟨fun l hl => ?_, fun l hl => ?_⟩, ?_⟩
    · by_cases hT : l ∈ T
      · exact hlt l hT
      · have hS := (Finset.mem_union.mp hl).resolve_right hT
        rw [hfirst l hS]
        exact hg.1 l hS
    · rw [Finset.notMem_union] at hl
      rw [heq l hl.2, hg.2 l hl.1]
    · funext l
      by_cases hS : l ∈ S
      · simp [hS, hfirst l hS]
      · simp [hS, hg.2 l hS]

/-- A sum over one label. -/
theorem sum_valuations_singleton (l : Index) (bound ρ : Index → ℕ) (f : (Index → ℕ) → R) :
    ∑ g ∈ valuations {l} bound ρ, f g = ∑ i ∈ Finset.range (bound l),
      f (Function.update ρ l i) := by
  symm
  refine Finset.sum_nbij' (fun i => Function.update ρ l i) (fun g => g l) ?_ ?_ ?_ ?_ ?_
  · intro i hi
    rw [mem_valuations]
    refine ⟨fun k hk => ?_, fun k hk => ?_⟩
    · obtain rfl := Finset.mem_singleton.mp hk
      simpa using hi
    · exact Function.update_of_ne (by simpa using hk) _ _
  · intro g hg
    exact Finset.mem_range.mpr ((mem_valuations.mp hg).1 l (Finset.mem_singleton_self l))
  · intro i _
    exact Function.update_self ..
  · intro g hg
    funext k
    by_cases hk : k = l
    · subst hk
      rw [Function.update_self]
    · rw [Function.update_of_ne hk, (mem_valuations.mp hg).2 k (by simpa using hk)]
  · intro i _
    rfl

/-- The bound does not matter as long as nothing beyond it contributes. -/
theorem sum_valuations_congr_bound {bound' : Index → ℕ} {f : (Index → ℕ) → R}
    (h : ∀ g, f g ≠ 0 → ∀ l ∈ S, g l < bound l ∧ g l < bound' l) :
    ∑ g ∈ valuations S bound ρ, f g = ∑ g ∈ valuations S bound' ρ, f g := by
  refine Finset.sum_congr_of_eq_on_inter ?_ ?_ fun _ _ _ => rfl
  · intro g hg hg'
    by_contra hne
    exact hg' (mem_valuations.mpr ⟨fun l hl => (h g hne l hl).2, (mem_valuations.mp hg).2⟩)
  · intro g hg hg'
    by_contra hne
    exact hg' (mem_valuations.mpr ⟨fun l hl => (h g hne l hl).1, (mem_valuations.mp hg).2⟩)

/-- The valuation with the values of a position on some labels. -/
def overlay (ρ : Index → ℕ) (labels : List Index) (position : List ℕ) : Index → ℕ :=
  fun l => Table.findD (labels.zip position) l (ρ l)

@[simp] theorem overlay_nil (ρ : Index → ℕ) (position : List ℕ) : overlay ρ [] position = ρ := rfl

@[simp] theorem overlay_cons (ρ : Index → ℕ) (l : Index) (labels : List Index) (i : ℕ)
    (position : List ℕ) :
    overlay ρ (l :: labels) (i :: position) = Function.update (overlay ρ labels position) l i := by
  funext k
  by_cases h : l = k
  · subst h
    simp [overlay, Table.findD, Table.find?]
  · rw [Function.update_of_ne (Ne.symm h)]
    simp [overlay, Table.findD, Table.find?, h]

/-- A value that is given may be given before or after. -/
theorem overlay_update (h : l ∉ labels) (ρ : Index → ℕ) (i : ℕ) (position : List ℕ) :
    overlay (Function.update ρ l i) labels position =
      Function.update (overlay ρ labels position) l i := by
  induction labels generalizing position with
  | nil => rfl
  | cons k labels ih =>
    obtain ⟨hk, hrest⟩ := List.ne_and_not_mem_of_not_mem_cons h
    cases position with
    | nil => rfl
    | cons j position =>
      rw [overlay_cons, overlay_cons, ih hrest, Function.update_comm (Ne.symm hk)]

/-- A label that is not listed keeps its value. -/
theorem overlay_of_notMem (h : l ∉ labels) (ρ : Index → ℕ) (position : List ℕ) :
    overlay ρ labels position l = ρ l := by
  have hnone : Table.find? l (labels.zip position) = none := by
    rw [Table.find?_eq_none_iff, Table.keys, List.mem_map]
    rintro ⟨entry, hentry, rfl⟩
    exact h (List.of_mem_zip hentry).1
  rw [overlay, Table.findD, hnone, Option.getD_none]

/-- The labels have the values of the position. -/
theorem map_overlay (hnd : labels.Nodup) {position : List ℕ}
    (hlen : labels.length = position.length) (ρ : Index → ℕ) :
    labels.map (overlay ρ labels position) = position := by
  induction labels generalizing position with
  | nil => exact (List.length_eq_zero_iff.mp hlen.symm).symm
  | cons l labels ih =>
    obtain ⟨hl, hrest⟩ := List.nodup_cons.mp hnd
    cases position with
    | nil => cases hlen
    | cons i position =>
      have hother : labels.map (overlay ρ (l :: labels) (i :: position)) =
          labels.map (overlay ρ labels position) := by
        refine List.map_congr_left fun k hk => ?_
        rw [overlay_cons, Function.update_of_ne (ne_of_mem_of_not_mem hk hl)]
      rw [List.map_cons, hother, ih hrest (Nat.succ.inj hlen), overlay_cons, Function.update_self]

/-- The values of a position below a shape are below the bounds of their labels. -/
theorem overlay_lt (hnd : labels.Nodup) {position : List ℕ}
    (h : List.Forall₂ (· < ·) position (labels.map bound)) (ρ : Index → ℕ) (hl : l ∈ labels) :
    overlay ρ labels position l < bound l := by
  have hlen : labels.length = position.length := by rw [h.length_eq, List.length_map]
  rw [← map_overlay hnd hlen ρ, List.forall₂_map_left_iff, List.forall₂_map_right_iff,
    List.forall₂_same] at h
  exact h l hl

/-- Summing over all positions is summing over valuations. -/
theorem sum_positions (hnd : labels.Nodup) (bound ρ : Index → ℕ) (f : (Index → ℕ) → R) :
    ((positions (labels.map bound)).map fun position => f (overlay ρ labels position)).sum =
      ∑ g ∈ valuations labels.toFinset bound ρ, f g := by
  induction labels generalizing ρ with
  | nil => simp [positions]
  | cons l labels ih =>
    obtain ⟨hl, hrest⟩ := List.nodup_cons.mp hnd
    have hsum : ∀ i, ((positions (labels.map bound)).map fun position =>
        f (overlay ρ (l :: labels) (i :: position))).sum =
        ∑ g ∈ valuations labels.toFinset bound (Function.update ρ l i), f g := by
      intro i
      rw [← ih hrest]
      simp only [overlay_cons, overlay_update hl]
    have hlist : ((positions ((l :: labels).map bound)).map fun position =>
        f (overlay ρ (l :: labels) position)).sum = ((List.range (bound l)).map fun i =>
          ∑ g ∈ valuations labels.toFinset bound (Function.update ρ l i), f g).sum := by
      rw [List.map_cons, positions, List.map_flatMap, List.flatMap_def,
        List.sum_flatten, List.map_map]
      refine congrArg List.sum (List.map_congr_left fun i _ => ?_)
      rw [Function.comp_apply, List.map_map, ← hsum i]
      rfl
    have hdisj : Disjoint ({l} : Finset Index) labels.toFinset := by simpa using hl
    rw [hlist, List.toFinset_cons, Finset.insert_eq, sum_valuations_union hdisj,
      sum_valuations_singleton]
    rfl

end TensorDiagram
