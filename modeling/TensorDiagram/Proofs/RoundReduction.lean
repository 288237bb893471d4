import TensorDiagram.Circle.Basic
import TensorDiagram.Proofs.DartMap

/-!
# Reductions of rounds

The darts around a vertex form a round.  Two rounds are joined to one by bringing their vertices
together (`exists_reduces_join`), and two neighbours on a round that are the halves of one edge are
cancelled (`exists_reduces_cancel`).  What is cancelled is dead afterwards, what is not on the
rounds stays as it is, and the defect does not become smaller: that is what `Reduces` says.

If the darts have labels such that equal labels are on opposite darts, then traces are taken off a
circle of labels by cancellations (`exists_reduces_removeTraces`).
-/

namespace TensorDiagram

open Equiv (Perm swap)
open Relation (EqvGen)

namespace DartMap

variable {D : Type}
variable {u v : List D}

/-- The map is changed at some darts only.  A part of them keeps its edges, and all others are
dead. -/
structure Reduces (m : DartMap D) (w : List D) (m' : DartMap D) (w' : List D) : Prop where
  /-- The darts that keep their edges. -/
  subset : ∀ d ∈ w', d ∈ w
  /-- Elsewhere the orders around the vertices stay. -/
  turn_eq : ∀ d, d ∉ w → m'.turn d = m.turn d
  /-- Elsewhere the edges stay. -/
  opposite_eq : ∀ d, d ∉ w → m'.opposite d = m.opposite d
  /-- The edges that are kept. -/
  kept : ∀ d ∈ w', m'.opposite d = m.opposite d
  /-- The edges that are not kept. -/
  dead : ∀ d ∈ w, d ∉ w' → m'.opposite d = d
  /-- The defect does not become smaller. -/
  defect_le : m.defect ≤ m'.defect

namespace Reduces

variable {m m' m'' : DartMap D} {w w' w'' : List D}

theorem refl (m : DartMap D) (w : List D) : m.Reduces w m w where
  subset _ hd := hd
  turn_eq _ _ := rfl
  opposite_eq _ _ := rfl
  kept _ _ := rfl
  dead _ hd hd' := absurd hd hd'
  defect_le := le_rfl

theorem trans (h : m.Reduces w m' w') (h' : m'.Reduces w' m'' w'') : m.Reduces w m'' w'' where
  subset d hd := h.subset d (h'.subset d hd)
  turn_eq d hd := (h'.turn_eq d fun hd' => hd (h.subset d hd')).trans (h.turn_eq d hd)
  opposite_eq d hd := (h'.opposite_eq d fun hd' => hd (h.subset d hd')).trans (h.opposite_eq d hd)
  kept d hd := (h'.kept d hd).trans (h.kept d (h'.subset d hd))
  dead d hd hd'' := by
    by_cases hd' : d ∈ w'
    · exact h'.dead d hd' hd''
    · rw [h'.opposite_eq d hd', h.dead d hd hd']
  defect_le := h.defect_le.trans h'.defect_le

/-- Only the members of the lists matter. -/
theorem congr (h : m.Reduces w m' w') {v' : List D} (hv : ∀ d, d ∈ v ↔ d ∈ w)
    (hv' : ∀ d, d ∈ v' ↔ d ∈ w') : m.Reduces v m' v' where
  subset d hd := (hv d).mpr (h.subset d ((hv' d).mp hd))
  turn_eq d hd := h.turn_eq d ((hv d).not.mp hd)
  opposite_eq d hd := h.opposite_eq d ((hv d).not.mp hd)
  kept d hd := h.kept d ((hv' d).mp hd)
  dead d hd hd' := h.dead d ((hv d).mp hd) ((hv' d).not.mp hd')
  defect_le := h.defect_le

/-- Changes at different darts. -/
theorem append (h : m.Reduces w m' w') {v' : List D} (h' : m'.Reduces v m'' v')
    (hdisjoint : List.Disjoint w v) : m.Reduces (w ++ v) m'' (w' ++ v') where
  subset d hd := List.mem_append.mpr ((List.mem_append.mp hd).imp (h.subset d) (h'.subset d))
  turn_eq d hd := by
    rw [List.mem_append, not_or] at hd
    rw [h'.turn_eq d hd.2, h.turn_eq d hd.1]
  opposite_eq d hd := by
    rw [List.mem_append, not_or] at hd
    rw [h'.opposite_eq d hd.2, h.opposite_eq d hd.1]
  kept d hd := by
    rcases List.mem_append.mp hd with hd | hd
    · rw [h'.opposite_eq d (hdisjoint (h.subset d hd)), h.kept d hd]
    · rw [h'.kept d hd, h.opposite_eq d fun hw => hdisjoint hw (h'.subset d hd)]
  dead d hd hd' := by
    rw [List.mem_append, not_or] at hd'
    rcases List.mem_append.mp hd with hd | hd
    · rw [h'.opposite_eq d (hdisjoint hd), h.dead d hd hd'.1]
    · exact h'.dead d hd hd'.2
  defect_le := h.defect_le.trans h'.defect_le

/-- A round that has nothing to do with the changes. -/
theorem isRound (h : m.Reduces w m' w') (hv : IsRound m.turn v) (hdisjoint : List.Disjoint w v) :
    IsRound m'.turn v :=
  hv.congr fun d hd => h.turn_eq d fun hw => hdisjoint hw hd

end Reduces

variable [DecidableEq D] [Finite D] {m : DartMap D}

/-- Two rounds are joined. -/
theorem exists_reduces_join (hu : IsRound m.turn u) (hv : IsRound m.turn v)
    (hdisjoint : List.Disjoint u v) : ∃ m', m.Reduces (u ++ v) m' (u ++ v) ∧
      IsRound m'.turn (u ++ v) := by
  cases u with
  | nil => exact ⟨m, .refl m _, hv⟩
  | cons x u =>
    cases v with
    | nil => exact ⟨m, .refl m _, by rwa [List.append_nil]⟩
    | cons y v =>
      have hy : y ∉ x :: u := fun h => hdisjoint h (List.mem_cons_self ..)
      have hxy : x ≠ y := fun h => hy (h ▸ List.mem_cons_self ..)
      have hseparate : ¬ EqvGen (fun a b => m.turn a = b) x y := fun h =>
        hy ((hu.mem_iff_of_eqvGen h).mp (List.mem_cons_self ..))
      refine ⟨m.join x y, ⟨fun d hd => hd, fun d hd => ?_, fun d _ => rfl, fun d _ => rfl, ?_, ?_⟩,
        hu.join hv hdisjoint⟩
      · rw [List.mem_append, not_or, ← hu.apply_mem_iff, ← hv.apply_mem_iff] at hd
        refine Equiv.swap_apply_of_ne_of_ne (fun h => hd.1 ?_) fun h => hd.2 ?_
        · rw [h]
          exact List.mem_cons_self ..
        · rw [h]
          exact List.mem_cons_self ..
      · exact fun d hd hd' => absurd hd hd'
      · exact m.defect_le_join hxy hseparate

/-- A dead dart is taken off its round. -/
theorem exists_detached {y : D} (h : IsRound m.turn (y :: v)) (hdead : m.opposite y = y) :
    ∃ m' : DartMap D, m'.opposite = m.opposite ∧ (∀ d, d ∉ y :: v → m'.turn d = m.turn d) ∧
      IsRound m'.turn v ∧ m'.defect = m.defect := by
  cases v with
  | nil => exact ⟨m, rfl, fun d _ => rfl, trivial, rfl⟩
  | cons a v =>
    have hya : m.turn y = a := h.2.1
    have hne : a ≠ y := fun h' => (List.nodup_cons.mp h.1).1 (h' ▸ List.mem_cons_self ..)
    refine ⟨m.join y (m.turn y), rfl, fun d hd => ?_, ?_, m.defect_detach hdead (hya ▸ hne)⟩
    · rw [← h.apply_mem_iff] at hd
      refine Equiv.swap_apply_of_ne_of_ne (fun h' => hd ?_) fun h' => hd ?_
      · rw [h']
        exact List.mem_cons_self ..
      · rw [h', hya]
        exact List.mem_cons_of_mem _ (List.mem_cons_self ..)
    · rw [hya]
      exact (IsRound.cut (u := []) h).2

/-- Two neighbours on a round that are opposite to each other are cancelled. -/
theorem exists_reduces_cancel {x : D} (h : IsRound m.turn (x :: m.opposite x :: v)) :
    ∃ m', m.Reduces (x :: m.opposite x :: v) m' v ∧ IsRound m'.turn v := by
  obtain ⟨hx, hnodup⟩ := List.nodup_cons.mp h.1
  have hne : m.opposite x ≠ x := fun h' => hx (h'.symm ▸ List.mem_cons_self ..)
  obtain ⟨halone, hround⟩ : IsRound (m.cut x).turn [x] ∧
      IsRound (m.cut x).turn (m.opposite x :: v) :=
    IsRound.cut (u := []) h
  have hseparates := (m.cut x).not_eqvGen_of_alone halone.2 (m.opposite_cut_self x) hne
  have hdefect := m.defect_cut_of_separates hne (.rel _ _ h.2.1) hseparates
  obtain ⟨m', hopposite, hturn, hround', hdefect'⟩ :=
    exists_detached hround (m.opposite_cut_opposite x)
  refine ⟨m', ⟨fun d hd => ?_, fun d hd => ?_, fun d hd => ?_, fun d hd => ?_,
    fun d hd hd' => ?_, ?_⟩, hround'⟩
  · exact List.mem_cons_of_mem _ (List.mem_cons_of_mem _ hd)
  · rw [hturn d fun hd' => hd (List.mem_cons_of_mem _ hd')]
    rw [← h.apply_mem_iff] at hd
    refine Equiv.swap_apply_of_ne_of_ne (fun h' => hd ?_) fun h' => hd ?_
    · rw [h']
      exact List.mem_cons_self ..
    · rw [h']
      exact List.mem_cons_of_mem _ (List.mem_cons_self ..)
  · rw [hopposite]
    refine m.opposite_cut_of_ne (fun h' => hd ?_) fun h' => hd ?_
    · rw [h']
      exact List.mem_cons_self ..
    · rw [h']
      exact List.mem_cons_of_mem _ (List.mem_cons_self ..)
  · rw [hopposite]
    refine m.opposite_cut_of_ne (fun h' => hx ?_) fun h' => (List.nodup_cons.mp hnodup).1 ?_
    · rw [← h']
      exact List.mem_cons_of_mem _ hd
    · rwa [← h']
  · rw [hopposite]
    rcases List.mem_cons.mp hd with rfl | hd
    · exact m.opposite_cut_self d
    · rcases List.mem_cons.mp hd with rfl | hd
      · exact m.opposite_cut_opposite x
      · exact absurd hd hd'
  · rw [hdefect', hdefect]

/-- Neighbours on a round are cancelled, wherever they are. -/
theorem exists_reduces_cancel_middle {x : D} (h : IsRound m.turn (u ++ x :: m.opposite x :: v)) :
    ∃ m', m.Reduces (u ++ x :: m.opposite x :: v) m' (u ++ v) ∧ IsRound m'.turn (u ++ v) := by
  obtain ⟨m', hreduces, hround⟩ := exists_reduces_cancel (v := v ++ u) h.append_comm
  refine ⟨m', hreduces.congr (fun d => ?_) fun d => ?_, hround.append_comm⟩
  · rw [List.mem_append, ← List.cons_append, ← List.cons_append, List.mem_append, or_comm]
  · rw [List.mem_append, List.mem_append, or_comm]

/-- An arc of a round is cancelled with the opposite darts behind it. -/
theorem exists_reduces_cancel_arc {s : List D}
    (h : IsRound m.turn (u ++ s ++ ((s.map m.opposite).reverse ++ v))) :
    ∃ m', m.Reduces (u ++ s ++ ((s.map m.opposite).reverse ++ v)) m' (u ++ v) ∧
      IsRound m'.turn (u ++ v) := by
  -- The innermost pair is cancelled first.
  induction s using List.reverseRecOn generalizing m with
  | nil => exact ⟨m, by simpa using .refl m (u ++ v), by simpa using h⟩
  | append_singleton s x ih =>
    have hword : u ++ (s ++ [x]) ++ (((s ++ [x]).map m.opposite).reverse ++ v) =
        (u ++ s) ++ x :: m.opposite x :: ((s.map m.opposite).reverse ++ v) := by simp
    rw [hword] at h ⊢
    obtain ⟨m₁, hreduces, hround⟩ := exists_reduces_cancel_middle h
    have hsame : s.map m₁.opposite = s.map m.opposite :=
      List.map_congr_left fun d hd =>
        hreduces.kept d (List.mem_append_left _ (List.mem_append_right _ hd))
    rw [← hsame] at hround
    obtain ⟨m₂, hreduces', hround'⟩ := ih hround
    rw [hsame] at hreduces'
    exact ⟨m₂, hreduces.trans hreduces', hround'⟩

/-! ## Labels -/

section Labels

variable {ι : Type} {label : D → ι}

/-- Different darts with equal labels are opposite to each other. -/
def Mates (m : DartMap D) (label : D → ι) (w : List D) : Prop :=
  ∀ c ∈ w, ∀ d ∈ w, c ≠ d → label c = label d → m.opposite c = d

omit [DecidableEq D] [Finite D] in
theorem Reduces.mates {m' : DartMap D} {w w' : List D} (h : m.Reduces w m' w')
    (hw : m.Mates label w) : m'.Mates label w' := by
  intro c hc d hd hcd hlabel
  rw [h.kept c hc, hw c (h.subset c hc) d (h.subset d hd) hcd hlabel]

variable [DecidableEq ι]

/-- Going once around a circle of labels cancels darts. -/
theorem exists_reduces_sweep (m : DartMap D) (label : D → ι) :
    ∀ b xs : List D, IsRound m.turn (b.reverse ++ xs) →
    m.Mates label (b.reverse ++ xs) → ∃ m' w, m.Reduces (b.reverse ++ xs) m' w ∧ IsRound m'.turn w ∧
      w.map label = Circle.sweep (b.map label) (xs.map label)
  | b, [], h, _ => ⟨m, b.reverse ++ [], .refl m _, h, by simp [Circle.sweep]⟩
  | b, [x], h, hmates => by
    rcases hb : b.reverse with _ | ⟨c, rest⟩
    · rw [hb] at h
      exact ⟨m, [x], .refl m _, h, by simp [Circle.sweep, ← List.map_reverse, hb]⟩
    · have hsweep : Circle.sweep (b.map label) ([x].map label) =
          if label x = label c then rest.map label else (c :: rest ++ [x]).map label := by
        simp [Circle.sweep, ← List.map_reverse, hb]
      rw [hsweep]
      rw [hb] at h hmates
      have hx : x ∈ c :: rest ++ [x] := List.mem_append_right _ (List.mem_singleton_self x)
      by_cases hlabel : label x = label c
      · have hne : x ≠ c := fun heq => (List.nodup_append'.mp h.nodup).2.2 (List.mem_cons_self ..)
          (heq ▸ List.mem_singleton_self x)
        have hopposite : m.opposite x = c := hmates x hx c (List.mem_cons_self ..) hne hlabel
        obtain ⟨m', hreduces, hround⟩ := exists_reduces_cancel (m := m) (x := x) (v := rest)
          (by rw [hopposite]; exact h.append_comm)
        refine ⟨m', rest, hreduces.congr (fun d => ?_) fun d => Iff.rfl,
          hround, by rw [if_pos hlabel]⟩
        rw [hopposite, (List.perm_append_singleton x (c :: rest)).mem_iff]
      · exact ⟨m, c :: rest ++ [x], .refl m _, h, by rw [if_neg hlabel]⟩
  | b, x :: y :: rest, h, hmates => by
    by_cases hlabel : label x = label y
    · have hnodup := (List.nodup_append'.mp h.nodup).2.1
      have hne : x ≠ y := fun heq => (List.nodup_cons.mp hnodup).1 (heq ▸ List.mem_cons_self ..)
      have hopposite : m.opposite x = y := hmates x (by simp) y (by simp) hne hlabel
      rw [← hopposite] at h hmates ⊢
      obtain ⟨m₁, hreduces, hround⟩ := exists_reduces_cancel_middle h
      obtain ⟨m₂, w, hreduces', hround', hw⟩ :=
        exists_reduces_sweep m₁ label b rest hround (hreduces.mates hmates)
      refine ⟨m₂, w, hreduces.trans hreduces', hround', ?_⟩
      rw [hw, List.map_cons, List.map_cons, Circle.sweep, if_pos (by rw [hopposite, hlabel])]
    · have hword : (x :: b).reverse ++ y :: rest = b.reverse ++ x :: y :: rest := by simp
      rw [← hword] at h hmates ⊢
      obtain ⟨m', w, hreduces, hround, hw⟩ :=
        exists_reduces_sweep m label (x :: b) (y :: rest) h hmates
      have hsweep : Circle.sweep (b.map label) ((x :: y :: rest).map label) =
          Circle.sweep ((x :: b).map label) ((y :: rest).map label) := by
        rw [List.map_cons, List.map_cons, Circle.sweep, if_neg hlabel]
        rfl
      exact ⟨m', w, hreduces, hround, hw.trans hsweep.symm⟩
termination_by _ xs => xs.length

/-- Taking all traces off a circle of labels cancels darts. -/
theorem exists_reduces_removeTraces {w : List D} (h : IsRound m.turn w) (hmates : m.Mates label w) :
    ∃ m' w', m.Reduces w m' w' ∧ IsRound m'.turn w' ∧
      w'.map label = Circle.removeTraces (w.map label) := by
  have hrounds : ∀ n : ℕ, ∃ m' w', m.Reduces w m' w' ∧ IsRound m'.turn w' ∧
      w'.map label = Nat.repeat (Circle.sweep []) n (w.map label) := by
    intro n
    induction n with
    | zero => exact ⟨m, w, .refl m w, h, rfl⟩
    | succ n ih =>
      obtain ⟨m₁, w₁, hreduces, hround, hw₁⟩ := ih
      obtain ⟨m₂, w₂, hreduces', hround', hw₂⟩ :=
        exists_reduces_sweep m₁ label [] w₁ hround (hreduces.mates hmates)
      exact ⟨m₂, w₂, hreduces.trans hreduces', hround', by rw [hw₂, hw₁]; rfl⟩
  exact hrounds _

end Labels

end DartMap

end TensorDiagram
