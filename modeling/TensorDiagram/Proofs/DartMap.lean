import Mathlib

/-!
# Maps of darts

A graph that is drawn on a surface is known once it is known how its darts, the halves of edges, go
around the vertices, and which darts are the two halves of an edge.  Both are permutations of the
darts: `turn` and `opposite`.  A dart that is its own opposite is dead: it stands at its vertex, but
no edge begins there.

The genus of the surface is read off the numbers of orbits.  Twice the genus, summed over all
components, is the `defect`.  It is never negative (`defect_nonneg`), and zero if all darts are dead
(`defect_of_dead`).  Joining two vertices does not make it smaller (`defect_le_join`), while it
stays as it is if an edge between neighbouring darts is cut (`defect_cut`) and if a dead dart is
taken off its vertex (`defect_detach`).
-/

namespace TensorDiagram

open Equiv (Perm swap)
open Relation (EqvGen)

variable {D : Type}
variable {a b x y z : D} {f : D → D} {u v w : List D} {r s : D → D → Prop}

/-! ## Classes of a relation -/

/-- The number of classes of the equivalence relation that a relation generates. -/
noncomputable def classCount (r : D → D → Prop) : ℕ :=
  Nat.card (Quot r)

/-- The relation with one more pair. -/
def withPair (r : D → D → Prop) (x y : D) (a b : D) : Prop :=
  r a b ∨ (a = x ∧ b = y)

/-- A property that related elements share is shared by all elements of a class. -/
theorem iff_of_eqvGen {P : D → Prop} (h : ∀ a b, r a b → (P a ↔ P b)) (hab : EqvGen r a b) :
    P a ↔ P b := by
  induction hab with
  | rel a b hab => exact h a b hab
  | refl a => exact Iff.rfl
  | symm a b _ ih => exact ih.symm
  | trans a b c _ _ ih₁ ih₂ => exact ih₁.trans ih₂

theorem eqvGen_of_imp (h : ∀ a b, r a b → EqvGen s a b) (hab : EqvGen r a b) : EqvGen s a b := by
  induction hab with
  | rel a b hab => exact h a b hab
  | refl a => exact .refl a
  | symm a b _ ih => exact .symm _ _ ih
  | trans a b c _ _ ih₁ ih₂ => exact .trans _ _ _ ih₁ ih₂

/-- Relations that generate the same equivalence relation have the same number of classes. -/
theorem classCount_congr (hr : ∀ a b, r a b → EqvGen s a b) (hs : ∀ a b, s a b → EqvGen r a b) :
    classCount r = classCount s := by
  refine Nat.card_congr ⟨Quot.lift (Quot.mk s) fun a b h => Quot.eqvGen_sound (hr a b h),
    Quot.lift (Quot.mk r) fun a b h => Quot.eqvGen_sound (hs a b h), ?_, ?_⟩
  · rintro ⟨a⟩
    rfl
  · rintro ⟨a⟩
    rfl

/-- Relations that generate the same once a pair is added. -/
theorem classCount_withPair_congr (hr : ∀ a b, r a b → EqvGen (withPair s x y) a b)
    (hs : ∀ a b, s a b → EqvGen (withPair r x y) a b) :
    classCount (withPair r x y) = classCount (withPair s x y) := by
  refine classCount_congr (fun a b hab => ?_) fun a b hab => ?_
  · rcases hab with hab | ⟨rfl, rfl⟩
    · exact hr a b hab
    · exact .rel _ _ (Or.inr ⟨rfl, rfl⟩)
  · rcases hab with hab | ⟨rfl, rfl⟩
    · exact hs a b hab
    · exact .rel _ _ (Or.inr ⟨rfl, rfl⟩)

/-- A pair within a class changes nothing. -/
theorem classCount_withPair_of_eqvGen (h : EqvGen r x y) :
    classCount (withPair r x y) = classCount r := by
  refine classCount_congr (fun a b hab => ?_) fun a b hab => .rel _ _ (Or.inl hab)
  rcases hab with hab | ⟨rfl, rfl⟩
  · exact .rel _ _ hab
  · exact h

/-- A pair between two classes makes one out of them. -/
theorem classCount_withPair_of_not_eqvGen [Finite D] (h : ¬ EqvGen r x y) :
    classCount (withPair r x y) + 1 = classCount r := by
  classical
  have hxy : Quot.mk r x ≠ Quot.mk r y := fun heq => h (Quot.eqvGen_exact heq)
  -- The class of `y` goes to that of `x`, and all others stay.
  have hequiv : Quot (withPair r x y) ≃ { c : Quot r // c ≠ Quot.mk r y } :=
    { toFun := Quot.lift
        (fun a =>
          if ha : Quot.mk r a = Quot.mk r y then ⟨Quot.mk r x, hxy⟩ else ⟨Quot.mk r a, ha⟩) <| by
          rintro a b (hab | ⟨rfl, rfl⟩)
          · simp only [Quot.sound hab]
          · simp [hxy]
      invFun := fun c =>
        Quot.lift (Quot.mk (withPair r x y)) (fun a b hab => Quot.sound (Or.inl hab)) c.1
      left_inv := by
        rintro ⟨a⟩
        by_cases ha : Quot.mk r a = Quot.mk r y
        · have hay : Quot.mk (withPair r x y) a = Quot.mk (withPair r x y) y :=
            Quot.eqvGen_sound
              (eqvGen_of_imp (fun c d hcd => .rel _ _ (Or.inl hcd)) (Quot.eqvGen_exact ha))
          have hxy' : Quot.mk (withPair r x y) x = Quot.mk (withPair r x y) y :=
            Quot.sound (Or.inr ⟨rfl, rfl⟩)
          simp only [ha, dif_pos]
          exact hxy'.trans hay.symm
        · simp only [ha, dif_neg, not_false_eq_true]
      right_inv := by
        rintro ⟨⟨a⟩, ha⟩
        have ha : ¬ Quot.mk r a = Quot.mk r y := ha
        simp only [ha, dif_neg, not_false_eq_true] }
  rw [classCount, classCount, Nat.card_congr hequiv, ← Finite.card_option,
    Nat.card_congr (Equiv.optionSubtypeNe (Quot.mk r y))]

/-! ## Rounds of a permutation -/

/-- The function leads from an element through a list to an element. -/
def Leads (f : D → D) : D → List D → D → Prop
  | x, [], z => f x = z
  | x, a :: u, z => f x = a ∧ Leads f a u z

/-- The list goes once around a cycle of the function. -/
def IsRound (f : D → D) : List D → Prop
  | [] => True
  | x :: u => (x :: u).Nodup ∧ Leads f x u x

theorem leads_append : Leads f x (u ++ y :: v) z ↔ Leads f x u y ∧ Leads f y v z := by
  induction u generalizing x with
  | nil => exact Iff.rfl
  | cons a u ih => rw [List.cons_append, Leads, Leads, ih, and_assoc]

theorem Leads.congr {g : D → D} (h : Leads f x u z) (hfg : ∀ a ∈ x :: u, g a = f a) :
    Leads g x u z := by
  induction u generalizing x with
  | nil => exact (hfg x (List.mem_singleton_self x)).trans h
  | cons a u ih =>
    obtain ⟨hx, hu⟩ := List.forall_mem_cons.mp hfg
    exact ⟨hx.trans h.1, ih h.2 hu⟩

/-- All that is met on the way is in the class of the beginning. -/
theorem Leads.eqvGen (h : Leads f x u z) :
    EqvGen (fun a b => f a = b) x z ∧ ∀ a ∈ u, EqvGen (fun a b => f a = b) x a := by
  induction u generalizing x with
  | nil => exact ⟨.rel _ _ h, by simp⟩
  | cons a u ih =>
    obtain ⟨hxa, h⟩ := h
    obtain ⟨hz, hu⟩ := ih h
    have hxa : EqvGen (fun a b => f a = b) x a := .rel _ _ hxa
    exact ⟨.trans _ _ _ hxa hz,
      List.forall_mem_cons.mpr ⟨hxa, fun b hb => .trans _ _ _ hxa (hu b hb)⟩⟩

/-- The successors of what is met on the way. -/
theorem Leads.apply_mem (h : Leads f x u z) : ∀ a ∈ x :: u, f a ∈ z :: u := by
  induction u generalizing x with
  | nil =>
    intro a ha
    obtain rfl := List.mem_singleton.mp ha
    exact List.mem_singleton.mpr h
  | cons b u ih =>
    refine List.forall_mem_cons.mpr ⟨?_, fun a ha => ?_⟩
    · rw [h.1]
      exact List.mem_cons_of_mem _ (List.mem_cons_self ..)
    · rcases List.mem_cons.mp (ih h.2 a ha) with hz | hu
      · exact hz ▸ List.mem_cons_self ..
      · exact List.mem_cons_of_mem _ (List.mem_cons_of_mem _ hu)

theorem IsRound.nodup (h : IsRound f w) : w.Nodup := by
  cases w with
  | nil => exact List.nodup_nil
  | cons x u => exact h.1

theorem IsRound.congr {g : D → D} (h : IsRound f w) (hfg : ∀ a ∈ w, g a = f a) : IsRound g w := by
  cases w with
  | nil => trivial
  | cons x u => exact ⟨h.1, h.2.congr hfg⟩

/-- All members of a round are in one class. -/
theorem IsRound.eqvGen (h : IsRound f w) (ha : a ∈ w) (hb : b ∈ w) :
    EqvGen (fun a b => f a = b) a b := by
  cases w with
  | nil => cases ha
  | cons x u =>
    have hclass : ∀ c ∈ x :: u, EqvGen (fun a b => f a = b) x c :=
      List.forall_mem_cons.mpr ⟨.refl x, h.2.eqvGen.2⟩
    exact .trans _ _ _ (.symm _ _ (hclass a ha)) (hclass b hb)

/-- It does not matter where a round begins. -/
theorem IsRound.append_comm (h : IsRound f (u ++ v)) : IsRound f (v ++ u) := by
  cases u with
  | nil => rwa [List.append_nil]
  | cons x u =>
    cases v with
    | nil => rwa [List.append_nil] at h
    | cons y v =>
      have hnodup : (y :: v ++ x :: u).Nodup := List.perm_append_comm.nodup_iff.mp h.1
      obtain ⟨hx, hy⟩ := leads_append.mp h.2
      exact ⟨hnodup, leads_append.mpr ⟨hy, hx⟩⟩

theorem IsRound.rotated {w' : List D} (h : IsRound f w) (hw : w ~r w') : IsRound f w' := by
  obtain ⟨n, hn, rfl⟩ := List.isRotated_iff_mod.mp hw
  rw [List.rotate_eq_drop_append_take hn]
  exact IsRound.append_comm (by rwa [List.take_append_drop])

theorem leads_iterate (f : D → D) (x : D) (n : ℕ) :
    Leads f x (List.iterate f (f x) n) (f^[n + 1] x) := by
  induction n generalizing x with
  | zero => rfl
  | succ n ih => exact ⟨rfl, ih (f x)⟩

section

variable (σ : Perm D)

/-- Every element is on a round. -/
theorem exists_isRound [Finite D] (x : D) : ∃ u, IsRound σ (x :: u) := by
  have hperiodic : x ∈ Function.periodicPts σ := by
    obtain ⟨n, hn, hx⟩ := isOfFinOrder_iff_pow_eq_one.mp (isOfFinOrder_of_finite σ)
    refine ⟨n, hn, ?_⟩
    rw [Function.IsPeriodicPt, Function.IsFixedPt, ← Perm.coe_pow, hx]
    rfl
  obtain ⟨n, hn⟩ :=
    Nat.exists_eq_succ_of_ne_zero (Function.minimalPeriod_pos_of_mem_periodicPts hperiodic).ne'
  refine ⟨List.iterate σ (σ x) n, ?_, ?_⟩
  · rw [← List.iterate, ← hn, List.nodup_iff_injective_getElem]
    intro i j hij
    simp only [List.getElem_iterate] at hij
    exact Fin.ext (Function.iterate_injOn_Iio_minimalPeriod (by simpa using i.2)
      (by simpa using j.2) hij)
  · have h := leads_iterate σ x n
    rwa [← Nat.succ_eq_add_one, ← hn, Function.iterate_minimalPeriod] at h

variable {σ}

/-- A round is closed. -/
theorem IsRound.apply_mem_iff (h : IsRound σ w) : σ a ∈ w ↔ a ∈ w := by
  cases w with
  | nil => simp
  | cons x u =>
    have hmaps := h.2.apply_mem
    -- A permutation that maps a finite set into itself maps it onto itself.
    have hbij : Set.BijOn σ {b | b ∈ x :: u} {b | b ∈ x :: u} :=
      ((List.finite_toSet _).injOn_iff_bijOn_of_mapsTo hmaps).mp σ.injective.injOn
    refine ⟨fun ha => ?_, hmaps a⟩
    obtain ⟨b, hb, hba⟩ := hbij.surjOn ha
    exact σ.injective hba ▸ hb

theorem IsRound.mem_iff_of_eqvGen (h : IsRound σ w) (hab : EqvGen (fun a b => σ a = b) a b) :
    a ∈ w ↔ b ∈ w := by
  refine iff_of_eqvGen (fun a b hab => ?_) hab
  rw [← hab, h.apply_mem_iff]

end

/-! ## Orbits -/

/-- The number of orbits of a permutation. -/
noncomputable def orbitCount (σ : Perm D) : ℕ :=
  classCount fun a b => σ a = b

section

variable [DecidableEq D] {σ : Perm D} {x y : D}

/-- The way through a list that avoids two elements, if the successors are exchanged with these
elements. -/
theorem Leads.swap_mul (h : Leads σ a u z) (hx : x ∉ u) (hy : y ∉ u) :
    Leads (swap x y * σ) a u (swap x y z) := by
  induction u generalizing a with
  | nil => exact congrArg (swap x y) h
  | cons b u ih =>
    obtain ⟨hab, h⟩ := h
    obtain ⟨hxb, hxu⟩ : x ≠ b ∧ x ∉ u := by simpa using hx
    obtain ⟨hyb, hyu⟩ : y ≠ b ∧ y ∉ u := by simpa using hy
    refine ⟨?_, ih h hxu hyu⟩
    rw [Perm.mul_apply, hab, Equiv.swap_apply_of_ne_of_ne (Ne.symm hxb) (Ne.symm hyb)]

/-- Two rounds become one. -/
theorem IsRound.join (hu : IsRound σ (x :: u)) (hv : IsRound σ (y :: v))
    (hdisjoint : List.Disjoint (x :: u) (y :: v)) : IsRound (swap x y * σ) (x :: u ++ y :: v) := by
  have hx : x ∉ u ∧ x ∉ v :=
    ⟨(List.nodup_cons.mp hu.1).1, fun h =>
      hdisjoint (List.mem_cons_self ..) (List.mem_cons_of_mem _ h)⟩
  have hy : y ∉ u ∧ y ∉ v :=
    ⟨fun h => hdisjoint (List.mem_cons_of_mem _ h) (List.mem_cons_self ..),
      (List.nodup_cons.mp hv.1).1⟩
  have hlu := hu.2.swap_mul hx.1 hy.1
  have hlv := hv.2.swap_mul hx.2 hy.2
  rw [Equiv.swap_apply_left] at hlu
  rw [Equiv.swap_apply_right] at hlv
  exact ⟨List.nodup_append'.mpr ⟨hu.1, hv.1, hdisjoint⟩, leads_append.mpr ⟨hlu, hlv⟩⟩

/-- One round becomes two. -/
theorem IsRound.cut (h : IsRound σ (x :: u ++ y :: v)) :
    IsRound (swap x y * σ) (x :: u) ∧ IsRound (swap x y * σ) (y :: v) := by
  obtain ⟨hu, hv, hdisjoint⟩ := List.nodup_append'.mp h.nodup
  have hx : x ∉ u ∧ x ∉ v :=
    ⟨(List.nodup_cons.mp hu).1, fun h =>
      hdisjoint (List.mem_cons_self ..) (List.mem_cons_of_mem _ h)⟩
  have hy : y ∉ u ∧ y ∉ v :=
    ⟨fun h => hdisjoint (List.mem_cons_of_mem _ h) (List.mem_cons_self ..),
      (List.nodup_cons.mp hv).1⟩
  obtain ⟨hlu, hlv⟩ := leads_append.mp h.2
  have hlu := hlu.swap_mul hx.1 hy.1
  have hlv := hlv.swap_mul hx.2 hy.2
  rw [Equiv.swap_apply_right] at hlu
  rw [Equiv.swap_apply_left] at hlv
  exact ⟨⟨hu, hlu⟩, ⟨hv, hlv⟩⟩

/-- An exchange stays within a class that has both elements. -/
theorem eqvGen_withPair_swap (r : D → D → Prop) (x y c : D) :
    EqvGen (withPair r x y) c (swap x y c) := by
  have hpair : EqvGen (withPair r x y) x y := .rel _ _ (Or.inr ⟨rfl, rfl⟩)
  by_cases hcx : c = x
  · rw [hcx, Equiv.swap_apply_left]
    exact hpair
  · by_cases hcy : c = y
    · rw [hcy, Equiv.swap_apply_right]
      exact .symm _ _ hpair
    · rw [Equiv.swap_apply_of_ne_of_ne hcx hcy]
      exact .refl c

theorem classCount_withPair_swap_mul (σ : Perm D) (x y : D) :
    classCount (withPair (fun a b => (swap x y * σ) a = b) x y) =
      classCount (withPair (fun a b => σ a = b) x y) := by
  refine classCount_withPair_congr (fun a b hab => ?_) fun a b hab => ?_
  · rw [← hab]
    exact .trans _ _ _ (.rel _ _ (Or.inl rfl)) (eqvGen_withPair_swap _ x y (σ a))
  · rw [← hab]
    exact .trans _ _ _ (.rel _ _ (Or.inl rfl)) (.symm _ _ (eqvGen_withPair_swap _ x y (σ a)))

variable [Finite D]

/-- Exchanging successors with two elements of different orbits joins the orbits, and with two
elements of the same orbit it separates them. -/
theorem eqvGen_swap_mul_iff (hxy : x ≠ y) :
    EqvGen (fun a b => (swap x y * σ) a = b) x y ↔ ¬ EqvGen (fun a b => σ a = b) x y := by
  obtain ⟨u, hu⟩ := exists_isRound σ x
  by_cases hyu : y ∈ u
  · obtain ⟨u, v, rfl⟩ := List.append_of_mem hyu
    have hsame : EqvGen (fun a b => σ a = b) x y := hu.2.eqvGen.2 y hyu
    have hnot : y ∉ x :: u :=
      fun h => (List.nodup_append'.mp hu.nodup).2.2 h (List.mem_cons_self ..)
    have hround : IsRound (swap x y * σ) (x :: u) := (IsRound.cut (v := v) hu).1
    refine iff_of_false (fun h => hnot ?_) (not_not.mpr hsame)
    exact (hround.mem_iff_of_eqvGen h).mp (List.mem_cons_self ..)
  · have hleads := hu.2.swap_mul (List.nodup_cons.mp hu.1).1 hyu
    rw [Equiv.swap_apply_left] at hleads
    refine iff_of_true hleads.eqvGen.1 fun h => ?_
    rcases List.mem_cons.mp ((hu.mem_iff_of_eqvGen h).mp (List.mem_cons_self ..)) with hyx | hyu'
    · exact hxy hyx.symm
    · exact hyu hyu'

/-- An exchange within an orbit makes two out of it. -/
theorem orbitCount_swap_mul_of_eqvGen (hxy : x ≠ y) (h : EqvGen (fun a b => σ a = b) x y) :
    orbitCount (swap x y * σ) = orbitCount σ + 1 := by
  have hnot : ¬ EqvGen (fun a b => (swap x y * σ) a = b) x y := by
    rw [eqvGen_swap_mul_iff hxy, not_not]
    exact h
  rw [orbitCount, orbitCount, ← classCount_withPair_of_not_eqvGen hnot,
    classCount_withPair_swap_mul, classCount_withPair_of_eqvGen h]

/-- An exchange between two orbits makes one out of them. -/
theorem orbitCount_swap_mul_of_not_eqvGen (hxy : x ≠ y) (h : ¬ EqvGen (fun a b => σ a = b) x y) :
    orbitCount (swap x y * σ) + 1 = orbitCount σ := by
  have hjoined : EqvGen (fun a b => (swap x y * σ) a = b) x y := (eqvGen_swap_mul_iff hxy).mpr h
  rw [orbitCount, orbitCount, ← classCount_withPair_of_not_eqvGen h, ← classCount_withPair_swap_mul,
    classCount_withPair_of_eqvGen hjoined]

end

/-! ## Maps -/

/-- How darts go around vertices, and which darts are the two halves of an edge. -/
structure DartMap (D : Type) where
  /-- The next dart around the vertex. -/
  turn : Perm D
  /-- The other half of the edge. -/
  opposite : Perm D
  /-- The two halves of an edge are opposite to each other. -/
  opposite_opposite : ∀ d, opposite (opposite d) = d

namespace DartMap

variable (m : DartMap D)

/-- Two darts that are neighbours at a vertex or two halves of an edge. -/
def Adjacent (m : DartMap D) (a b : D) : Prop :=
  m.turn a = b ∨ m.opposite a = b

/-- The next dart of the face. -/
def face (m : DartMap D) : Perm D :=
  m.opposite * m.turn

/-- Twice the genus of all components together. -/
noncomputable def defect (m : DartMap D) : ℤ :=
  Nat.card D + 2 * classCount m.Adjacent - orbitCount m.turn - orbitCount m.opposite -
    orbitCount m.face

/-- If all darts are dead, then every vertex is a component with one face. -/
theorem defect_of_dead (h : ∀ d, m.opposite d = d) : m.defect = 0 := by
  have hopposite : m.opposite = 1 := Equiv.ext h
  have hclasses : classCount m.Adjacent = orbitCount m.turn := by
    refine classCount_congr (fun a b hab => ?_) fun a b hab => .rel _ _ (Or.inl hab)
    rcases hab with hab | hab
    · exact .rel _ _ hab
    · rw [← hab, h]
      exact .refl a
  have hedges : orbitCount (1 : Perm D) = Nat.card D := by
    refine Nat.card_congr ⟨Quot.lift id fun a b hab => hab, Quot.mk _, ?_, fun a => rfl⟩
    rintro ⟨a⟩
    rfl
  rw [defect, face, hclasses, hopposite, one_mul, hedges]
  ring

theorem opposite_eq_iff : m.opposite a = b ↔ m.opposite b = a := by
  constructor
  · rintro rfl
    exact m.opposite_opposite a
  · rintro rfl
    exact m.opposite_opposite b

/-- A dead dart with a vertex of its own is a component. -/
theorem not_eqvGen_of_alone (hturn : m.turn x = x) (hopposite : m.opposite x = x) (hyx : y ≠ x) :
    ¬ EqvGen m.Adjacent x y := by
  have hclosed : ∀ a b, m.Adjacent a b → (a = x ↔ b = x) := by
    rintro a b (hab | hab)
    · rw [← hab]
      exact ⟨fun ha => ha ▸ hturn, fun hb => m.turn.injective (hb.trans hturn.symm)⟩
    · rw [← hab]
      exact ⟨fun ha => ha ▸ hopposite, fun hb => m.opposite.injective (hb.trans hopposite.symm)⟩
  exact fun h => hyx ((iff_of_eqvGen hclosed h).mp rfl)

variable [DecidableEq D]

/-- The map in which the orders around the vertices of two darts are exchanged in front of these
darts. -/
def join (m : DartMap D) (x y : D) : DartMap D where
  turn := swap x y * m.turn
  opposite := m.opposite
  opposite_opposite := m.opposite_opposite

/-- The map in which an edge is cut: its two halves are dead, and the orders in front of them are
exchanged. -/
def cut (m : DartMap D) (x : D) : DartMap D where
  turn := swap x (m.opposite x) * m.turn
  opposite := m.opposite * swap x (m.opposite x)
  opposite_opposite d := by
    by_cases hx : d = x
    · simp [hx, m.opposite_opposite]
    · by_cases hy : d = m.opposite x
      · simp [hy]
      · have hx' : m.opposite d ≠ m.opposite x := fun h => hx (m.opposite.injective h)
        have hy' : m.opposite d ≠ x := fun h => hy (m.opposite_eq_iff.mp h).symm
        simp [Equiv.swap_apply_of_ne_of_ne hx hy, Equiv.swap_apply_of_ne_of_ne hy' hx',
          m.opposite_opposite]

theorem opposite_cut_self (x : D) : (m.cut x).opposite x = x := by
  rw [cut, Perm.mul_apply, Equiv.swap_apply_left, m.opposite_opposite]

theorem opposite_cut_opposite (x : D) : (m.cut x).opposite (m.opposite x) = m.opposite x := by
  rw [cut, Perm.mul_apply, Equiv.swap_apply_right]

theorem opposite_cut_of_ne {d : D} (hx : d ≠ x) (hx' : d ≠ m.opposite x) :
    (m.cut x).opposite d = m.opposite d := by
  rw [cut, Perm.mul_apply, Equiv.swap_apply_of_ne_of_ne hx hx']

/-- Once two darts are linked, the classes are the same before and after their orders are
exchanged. -/
theorem classCount_withPair_join (x y : D) :
    classCount (withPair (m.join x y).Adjacent x y) = classCount (withPair m.Adjacent x y) := by
  refine classCount_withPair_congr (fun a b hab => ?_) fun a b hab => ?_
  · rcases hab with hab | hab
    · rw [← hab]
      exact .trans _ _ _ (.rel _ _ (Or.inl (Or.inl rfl))) (eqvGen_withPair_swap _ x y (m.turn a))
    · exact .rel _ _ (Or.inl (Or.inr hab))
  · rcases hab with hab | hab
    · rw [← hab]
      exact .trans _ _ _ (.rel _ _ (Or.inl (Or.inl rfl)))
        (.symm _ _ (eqvGen_withPair_swap _ x y (m.turn a)))
    · exact .rel _ _ (Or.inl (Or.inr hab))

/-- Once the two halves of an edge are linked, the classes are the same before and after it is
cut. -/
theorem classCount_withPair_cut (x : D) :
    classCount (withPair (m.cut x).Adjacent x (m.opposite x)) = classCount m.Adjacent := by
  have hpair : EqvGen m.Adjacent x (m.opposite x) := .rel _ _ (Or.inr rfl)
  rw [← classCount_withPair_of_eqvGen hpair]
  refine classCount_withPair_congr (fun a b hab => ?_) fun a b hab => ?_
  · rcases hab with hab | hab
    · rw [← hab]
      exact .trans _ _ _ (.rel _ _ (Or.inl (Or.inl rfl))) (eqvGen_withPair_swap _ x _ (m.turn a))
    · rw [← hab]
      exact .trans _ _ _ (eqvGen_withPair_swap _ x _ a) (.rel _ _ (Or.inl (Or.inr rfl)))
  · rcases hab with hab | hab
    · rw [← hab]
      exact .trans _ _ _ (.rel _ _ (Or.inl (Or.inl rfl)))
        (.symm _ _ (eqvGen_withPair_swap _ x _ (m.turn a)))
    · have ha : m.opposite a = (m.cut x).opposite (swap x (m.opposite x) a) := by
        rw [cut, Perm.mul_apply, Equiv.swap_apply_self]
      rw [← hab, ha]
      exact .trans _ _ _ (eqvGen_withPair_swap _ x _ a) (.rel _ _ (Or.inl (Or.inr rfl)))

theorem face_join (x y : D) : (m.join x y).face = swap (m.opposite x) (m.opposite y) * m.face := by
  rw [face, face, join, ← mul_assoc, Equiv.mul_swap_eq_swap_mul, mul_assoc]

theorem face_cut (x : D) : (m.cut x).face = m.face := by
  rw [face, face, cut, mul_assoc, Equiv.swap_mul_self_mul]

variable [Finite D]

/-- Cutting an edge gives one more edge, which is dead. -/
theorem orbitCount_opposite_cut (hx : m.opposite x ≠ x) :
    orbitCount (m.cut x).opposite = orbitCount m.opposite + 1 := by
  have hopposite : (m.cut x).opposite = m.opposite * swap x (m.opposite x) := rfl
  rw [hopposite, Equiv.mul_swap_eq_swap_mul, m.opposite_opposite]
  exact orbitCount_swap_mul_of_eqvGen hx (.rel _ _ (m.opposite_opposite x))

/-- Cutting an edge between two vertices. -/
theorem defect_cut_of_not_eqvGen (hx : m.opposite x ≠ x)
    (h : ¬ EqvGen (fun a b => m.turn a = b) x (m.opposite x)) : (m.cut x).defect = m.defect := by
  have hvertices : orbitCount (m.cut x).turn + 1 = orbitCount m.turn :=
    orbitCount_swap_mul_of_not_eqvGen hx.symm h
  have hedges := m.orbitCount_opposite_cut hx
  have hclasses : classCount (m.cut x).Adjacent = classCount m.Adjacent := by
    have hjoined : EqvGen (fun a b => (m.cut x).turn a = b) x (m.opposite x) :=
      (eqvGen_swap_mul_iff hx.symm).mpr h
    rw [← m.classCount_withPair_cut x, classCount_withPair_of_eqvGen]
    exact eqvGen_of_imp (fun a b hab => .rel _ _ (Or.inl hab)) hjoined
  rw [defect, defect, face_cut, hclasses, hedges, ← hvertices]
  push_cast
  ring

/-- Cutting an edge that is a loop, by the classes that are left. -/
theorem defect_cut_of_eqvGen (hx : m.opposite x ≠ x)
    (h : EqvGen (fun a b => m.turn a = b) x (m.opposite x)) :
    (m.cut x).defect = m.defect + 2 * classCount (m.cut x).Adjacent - 2 * classCount
      m.Adjacent - 2 := by
  have hvertices : orbitCount (m.cut x).turn = orbitCount m.turn + 1 :=
    orbitCount_swap_mul_of_eqvGen hx.symm h
  have hedges := m.orbitCount_opposite_cut hx
  rw [defect, defect, face_cut, hedges, hvertices]
  push_cast
  ring

/-- Cutting a loop that separates its two sides. -/
theorem defect_cut_of_separates (hx : m.opposite x ≠ x)
    (h : EqvGen (fun a b => m.turn a = b) x (m.opposite x))
    (hseparates : ¬ EqvGen (m.cut x).Adjacent x (m.opposite x)) : (m.cut x).defect = m.defect := by
  have hclasses := classCount_withPair_of_not_eqvGen hseparates
  rw [classCount_withPair_cut] at hclasses
  rw [m.defect_cut_of_eqvGen hx h, ← hclasses]
  push_cast
  ring

/-- Cutting an edge does not make the defect larger. -/
theorem defect_cut_le (hx : m.opposite x ≠ x) : (m.cut x).defect ≤ m.defect := by
  by_cases h : EqvGen (fun a b => m.turn a = b) x (m.opposite x)
  · by_cases hseparates : EqvGen (m.cut x).Adjacent x (m.opposite x)
    · have hclasses := classCount_withPair_of_eqvGen hseparates
      rw [classCount_withPair_cut] at hclasses
      rw [m.defect_cut_of_eqvGen hx h, hclasses]
      linarith
    · exact (m.defect_cut_of_separates hx h hseparates).le
  · exact (m.defect_cut_of_not_eqvGen hx h).le

/-- Joining two vertices does not make the defect smaller. -/
theorem defect_le_join (hxy : x ≠ y) (h : ¬ EqvGen (fun a b => m.turn a = b) x y) :
    m.defect ≤ (m.join x y).defect := by
  have hvertices : orbitCount (m.join x y).turn + 1 = orbitCount m.turn :=
    orbitCount_swap_mul_of_not_eqvGen hxy h
  have hjoined : EqvGen (m.join x y).Adjacent x y :=
    eqvGen_of_imp (fun a b hab => .rel _ _ (Or.inl hab)) ((eqvGen_swap_mul_iff hxy).mpr h)
  have hclasses : classCount (m.join x y).Adjacent = classCount (withPair m.Adjacent x y) := by
    rw [← classCount_withPair_join, classCount_withPair_of_eqvGen hjoined]
  have hopposite : m.opposite x ≠ m.opposite y := fun heq => hxy (m.opposite.injective heq)
  have hdefect : (m.join x y).defect = m.defect + 2 * classCount (withPair m.Adjacent x y) -
      2 * classCount m.Adjacent + 1 + orbitCount m.face - orbitCount (m.join x y).face := by
    rw [defect, defect, hclasses, ← hvertices]
    have hedges : (m.join x y).opposite = m.opposite := rfl
    rw [hedges]
    push_cast
    ring
  rw [hdefect, face_join]
  by_cases hface : EqvGen (fun a b => m.face a = b) (m.opposite x) (m.opposite y)
  · -- A face that has both vertices is divided, and both vertices are in one component.
    have hadjacent : ∀ a b, m.face a = b → EqvGen m.Adjacent a b := by
      rintro a b rfl
      exact .trans _ _ _ (.rel _ _ (Or.inl rfl)) (.rel _ _ (Or.inr rfl))
    have hsame : EqvGen m.Adjacent x y :=
      .trans _ _ _ (.rel _ _ (Or.inr rfl)) (.trans _ _ _ (eqvGen_of_imp hadjacent hface)
        (.rel _ _ (Or.inr (m.opposite_opposite y))))
    rw [orbitCount_swap_mul_of_eqvGen hopposite hface, classCount_withPair_of_eqvGen hsame]
    push_cast
    linarith
  · have hfaces := orbitCount_swap_mul_of_not_eqvGen hopposite hface
    have hone : classCount m.Adjacent ≤ classCount (withPair m.Adjacent x y) + 1 := by
      by_cases hsame : EqvGen m.Adjacent x y
      · rw [classCount_withPair_of_eqvGen hsame]
        omega
      · rw [classCount_withPair_of_not_eqvGen hsame]
    rw [← hfaces]
    push_cast
    have hone : (classCount m.Adjacent : ℤ) ≤ classCount (withPair m.Adjacent x y) + 1 := by
      exact_mod_cast hone
    linarith

/-- Taking a dead dart off its vertex. -/
theorem defect_detach (hdead : m.opposite x = x) (hx : m.turn x ≠ x) :
    (m.join x (m.turn x)).defect = m.defect := by
  have hturn : EqvGen (fun a b => m.turn a = b) x (m.turn x) := .rel _ _ rfl
  have hvertices : orbitCount (m.join x (m.turn x)).turn = orbitCount m.turn + 1 :=
    orbitCount_swap_mul_of_eqvGen hx.symm hturn
  have hfaces : orbitCount (m.join x (m.turn x)).face = orbitCount m.face + 1 := by
    rw [face_join, hdead]
    refine orbitCount_swap_mul_of_eqvGen (fun heq => hx ?_) (.rel _ _ rfl)
    rw [← m.opposite_eq_iff.mp heq.symm, hdead]
  have halone : (m.join x (m.turn x)).turn x = x := by
    rw [join, Perm.mul_apply, Equiv.swap_apply_right]
  have hclasses :=
    classCount_withPair_of_not_eqvGen ((m.join x (m.turn x)).not_eqvGen_of_alone halone hdead hx)
  have hbefore : EqvGen m.Adjacent x (m.turn x) := .rel _ _ (Or.inl rfl)
  rw [classCount_withPair_join, classCount_withPair_of_eqvGen hbefore] at hclasses
  have hedges : (m.join x (m.turn x)).opposite = m.opposite := rfl
  rw [defect, defect, hfaces, hvertices, hedges, ← hclasses]
  push_cast
  ring

/-- The defect is never negative. -/
theorem defect_nonneg : 0 ≤ m.defect := by
  -- All edges are cut one after another.
  induction hn :
      Nat.card { d // m.opposite d ≠ d } using Nat.strong_induction_on generalizing m with
  | _ n ih =>
    by_cases hdead : ∀ d, m.opposite d = d
    · exact (m.defect_of_dead hdead).ge
    · obtain ⟨x, hx⟩ := not_forall.mp hdead
      refine le_trans (ih _ ?_ (m.cut x) rfl) (m.defect_cut_le hx)
      rw [← hn]
      have hsub : {d | (m.cut x).opposite d ≠ d} ⊂ {d | m.opposite d ≠ d} := by
        refine (Set.ssubset_iff_of_subset fun d hd => ?_).mpr ⟨x, hx, fun h =>
          h (m.opposite_cut_self x)⟩
        by_cases hdx : d = x
        · exact absurd (hdx ▸ m.opposite_cut_self x) hd
        · by_cases hdx' : d = m.opposite x
          · exact absurd (hdx' ▸ m.opposite_cut_opposite x) hd
          · exact fun heq => hd ((m.opposite_cut_of_ne hdx hdx').trans heq)
      exact Set.ncard_lt_ncard hsub (Set.toFinite _)

end DartMap

end TensorDiagram
