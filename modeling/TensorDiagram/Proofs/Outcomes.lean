import Mathlib
import TensorDiagram.Error

/-!
# Computations that may fail

Every operation returns a value or an error.  A sequence of operations succeeds exactly if each of
them does, which the lemmas of this file say once and for all: for two steps, and for a step that is
done for every entry of a list.

Two computations are compared by `SameOutcome`: either both fail, or both succeed with values that
are related.  Which errors they fail with does not matter; where it does, `FailsWith` says which
ones there can be.
-/

namespace TensorDiagram

variable {ε α β : Type}

/-- Two steps succeed if the first one does and the second one succeeds on its value. -/
theorem bind_eq_ok_iff {x : Except ε α} {f : α → Except ε β} {b : β} :
    x >>= f = .ok b ↔ ∃ a, x = .ok a ∧ f a = .ok b := by
  cases x with
  | error e =>
    constructor
    · intro h
      cases h
    · rintro ⟨a, ha, -⟩
      cases ha
  | ok a =>
    constructor
    · exact fun h => ⟨a, rfl, h⟩
    · rintro ⟨a', ha, h⟩
      cases ha
      exact h

/-- A step that can not fail is of no account. -/
theorem exists_bind_ok_iff {x : Except ε α} {f : α → β} :
    (∃ b, (x >>= fun a => .ok (f a)) = .ok b) ↔ ∃ a, x = .ok a := by
  simp only [bind_eq_ok_iff]
  exact ⟨fun ⟨_, a, ha, _⟩ => ⟨a, ha⟩, fun ⟨a, ha⟩ => ⟨f a, a, ha, rfl⟩⟩

/-- Two computations of which neither needs the other's value. -/
theorem exists_bind_bind_ok_iff {γ : Type} {x : Except ε α} {y : Except ε β} {f : α → β → γ} :
    (∃ c, (x >>= fun a => y >>= fun b => .ok (f a b)) = .ok c) ↔
      (∃ a, x = .ok a) ∧ ∃ b, y = .ok b := by
  simp only [bind_eq_ok_iff]
  exact ⟨fun ⟨_, a, ha, b, hb, _⟩ => ⟨⟨a, ha⟩, b, hb⟩, fun ⟨⟨a, ha⟩, b, hb⟩ =>
    ⟨f a b, a, ha, b, hb, rfl⟩⟩

/-- A step after a success. -/
@[simp] theorem ok_bind (a : α) (f : α → Except ε β) : (Except.ok a : Except ε α) >>= f = f a := rfl

/-- A step after an error. -/
@[simp] theorem error_bind (e : ε) (f : α → Except ε β) :
    (Except.error e : Except ε α) >>= f = .error e := rfl

/-- A computation that succeeds has a value. -/
theorem exists_of_isOk {x : Except ε α} (h : x.isOk = true) : ∃ a, x = .ok a := by
  cases x with
  | ok a => exact ⟨a, rfl⟩
  | error e => cases h

/-- A step succeeds on a list with the values that it has on the entries. -/
theorem mapM_eq_ok_iff {f : α → Except ε β} {xs : List α} {ys : List β} :
    xs.mapM f = .ok ys ↔ List.Forall₂ (fun x y => f x = .ok y) xs ys := by
  induction xs generalizing ys with
  | nil =>
    rw [List.mapM_nil, List.forall₂_nil_left_iff]
    exact ⟨fun h => (Except.ok.inj h).symm, fun h => h ▸ rfl⟩
  | cons x xs ih =>
    rw [List.mapM_cons, bind_eq_ok_iff, List.forall₂_cons_left_iff]
    constructor
    · rintro ⟨y, hy, hrest⟩
      obtain ⟨rest, hrest, hys⟩ := bind_eq_ok_iff.mp hrest
      exact ⟨y, rest, hy, ih.mp hrest, (Except.ok.inj hys).symm⟩
    · rintro ⟨y, rest, hy, hrest, rfl⟩
      exact ⟨y, hy, bind_eq_ok_iff.mpr ⟨rest, ih.mpr hrest, rfl⟩⟩

/-- Entries that are each related to something are related to a list. -/
theorem exists_forall₂ {r : α → β → Prop} {xs : List α} (h : ∀ x ∈ xs, ∃ y, r x y) :
    ∃ ys, List.Forall₂ r xs ys := by
  induction xs with
  | nil => exact ⟨[], .nil⟩
  | cons x xs ih =>
    obtain ⟨⟨y, hy⟩, h⟩ := List.forall_mem_cons.mp h
    obtain ⟨ys, hys⟩ := ih h
    exact ⟨y :: ys, .cons hy hys⟩

/-- A step that succeeds on every entry of a list succeeds on the list. -/
theorem exists_mapM_eq_ok {f : α → Except ε β} {xs : List α} (h : ∀ x ∈ xs, ∃ y, f x = .ok y) :
    ∃ ys, xs.mapM f = .ok ys := by
  obtain ⟨ys, hys⟩ := exists_forall₂ h
  exact ⟨ys, mapM_eq_ok_iff.mpr hys⟩

/-- A step that succeeds on a list succeeds on every entry. -/
theorem exists_of_mapM_eq_ok {f : α → Except ε β} {xs : List α} {ys : List β}
    (h : xs.mapM f = .ok ys) {x : α} (hx : x ∈ xs) : ∃ y, f x = .ok y := by
  have hall := mapM_eq_ok_iff.mp h
  clear h
  induction hall with
  | nil => cases hx
  | @cons z y xs ys hy hrest ih =>
    rcases List.mem_cons.mp hx with rfl | hx
    · exact ⟨y, hy⟩
    · exact ih hx

theorem exists_mapM_iff {f : α → Except ε β} {xs : List α} :
    (∃ ys, xs.mapM f = .ok ys) ↔ ∀ x ∈ xs, ∃ y, f x = .ok y :=
  ⟨fun ⟨_, h⟩ _ hx => exists_of_mapM_eq_ok h hx, exists_mapM_eq_ok⟩

/-- The values of a step on a list are its values on the entries. -/
theorem mem_of_mapM_eq_ok {f : α → Except ε β} {xs : List α} {ys : List β}
    (h : xs.mapM f = .ok ys) {y : β} : y ∈ ys ↔ ∃ x ∈ xs, f x = .ok y := by
  have hall := mapM_eq_ok_iff.mp h
  clear h
  induction hall with
  | nil => simp
  | @cons x z xs ys hz hrest ih =>
    simp only [List.mem_cons, exists_eq_or_imp, ih, hz, Except.ok.injEq]
    rw [eq_comm]

/-- A check succeeds on a list if it does on all entries. -/
theorem forM_eq_ok_iff {f : α → Except ε Unit} {xs : List α} :
    xs.forM f = .ok () ↔ ∀ x ∈ xs, f x = .ok () := by
  induction xs with
  | nil => exact iff_of_true rfl (by simp)
  | cons x xs ih =>
    rw [List.forM, bind_eq_ok_iff, List.forall_mem_cons, ← ih]
    constructor
    · rintro ⟨⟨⟩, hx, hrest⟩
      exact ⟨hx, hrest⟩
    · exact fun h => ⟨(), h.1, h.2⟩

/-- What every step keeps holds after all of them. -/
theorem foldlM_keeps {P : β → Prop} {f : β → α → Except ε β} {xs : List α} {b c : β}
    (hstep : ∀ b, P b → ∀ x ∈ xs, ∀ b', f b x = .ok b' → P b') (hb : P b)
    (h : xs.foldlM f b = .ok c) : P c := by
  induction xs generalizing b with
  | nil => exact Except.ok.inj h ▸ hb
  | cons x xs ih =>
    rw [List.foldlM_cons] at h
    obtain ⟨b', hb', h⟩ := bind_eq_ok_iff.mp h
    exact ih (fun b hb y hy => hstep b hb y (List.mem_cons_of_mem x hy))
      (hstep b hb x List.mem_cons_self b' hb') h

/-! ## Computations that are compared -/

/-- Both computations fail, or both succeed with related values. -/
inductive SameOutcome (r : α → β → Prop) : Except ε α → Except ε β → Prop
  | ok {a : α} {b : β} (h : r a b) : SameOutcome r (.ok a) (.ok b)
  | error (e e' : ε) : SameOutcome r (.error e) (.error e')

namespace SameOutcome

variable {γ δ : Type} {r : α → β → Prop} {x : Except ε α} {y : Except ε β}

/-- Related values are carried on by related steps. -/
theorem bind {s : γ → δ → Prop} {f : α → Except ε γ} {g : β → Except ε δ} (h : SameOutcome r x y)
    (hstep : ∀ a b, r a b → SameOutcome s (f a) (g b)) : SameOutcome s (x >>= f) (y >>= g) := by
  cases h with
  | ok hab => exact hstep _ _ hab
  | error e e' => exact .error e e'

/-- Steps that are compared after the same computation. -/
theorem bind_self {s : γ → δ → Prop} {f : α → Except ε γ} {g : α → Except ε δ} (x : Except ε α)
    (hstep : ∀ a, SameOutcome s (f a) (g a)) : SameOutcome s (x >>= f) (x >>= g) := by
  cases x with
  | ok a => exact hstep a
  | error e => exact .error e e

theorem mono {s : α → β → Prop} (h : SameOutcome r x y) (hrs : ∀ a b, r a b → s a b) :
    SameOutcome s x y := by
  cases h with
  | ok hab => exact .ok (hrs _ _ hab)
  | error e e' => exact .error e e'

theorem trans {s : β → γ → Prop} {t : α → γ → Prop} {z : Except ε γ} (h : SameOutcome r x y)
    (h' : SameOutcome s y z) (hrst : ∀ a b c, r a b → s b c → t a c) : SameOutcome t x z := by
  cases h with
  | ok hab =>
    cases h' with
    | ok hbc => exact .ok (hrst _ _ _ hab hbc)
  | error e e' =>
    cases h' with
    | error _ e'' => exact .error e e''

theorem symm {s : β → α → Prop} (h : SameOutcome r x y) (hrs : ∀ a b, r a b → s b a) :
    SameOutcome s y x := by
  cases h with
  | ok hab => exact .ok (hrs _ _ hab)
  | error e e' => exact .error e' e

theorem refl {r : α → α → Prop} (hr : ∀ a, r a a) (x : Except ε α) : SameOutcome r x x := by
  cases x with
  | ok a => exact .ok (hr a)
  | error e => exact .error e e

/-- Related values are those of the computations. -/
theorem eq_ok (h : SameOutcome r x y) :
    SameOutcome (fun a b => r a b ∧ x = .ok a ∧ y = .ok b) x y := by
  cases h with
  | ok hab => exact .ok ⟨hab, rfl, rfl⟩
  | error e e' => exact .error e e'

/-- A success is matched by a success. -/
theorem exists_ok (h : SameOutcome r x y) {a : α} (hx : x = .ok a) : ∃ b, y = .ok b ∧ r a b := by
  subst hx
  cases h with
  | ok hab => exact ⟨_, rfl, hab⟩

/-- Steps that are compared entry by entry are compared on the whole lists. -/
theorem mapM {s : γ → δ → Prop} {f : α → Except ε γ} {g : β → Except ε δ}
    {xs : List α} {ys : List β} (h : List.Forall₂ (fun x y => SameOutcome s (f x) (g y)) xs ys) :
    SameOutcome (List.Forall₂ s) (xs.mapM f) (ys.mapM g) := by
  induction h with
  | nil => exact .ok .nil
  | cons hxy _ ih =>
    rw [List.mapM_cons, List.mapM_cons]
    refine hxy.bind fun a b hab => ih.bind fun as bs hrest => ?_
    exact .ok (.cons hab hrest)

/-- It is enough that successes are matched in both directions. -/
theorem of_exists_ok (h : ∀ a, x = .ok a → ∃ b, y = .ok b ∧ r a b)
    (h' : ∀ b, y = .ok b → ∃ a, x = .ok a) : SameOutcome r x y := by
  cases x with
  | ok a =>
    obtain ⟨b, rfl, hab⟩ := h a rfl
    exact .ok hab
  | error e =>
    cases y with
    | ok b =>
      obtain ⟨a, ha⟩ := h' b rfl
      cases ha
    | error e' => exact .error e e'

end SameOutcome

/-! ## Computations that fail with certain errors -/

/-- The computation fails with certain errors only. -/
def FailsWith {α : Type} (P : Error → Prop) (x : Except Error α) : Prop :=
  ∀ e, x = .error e → P e

namespace FailsWith

variable {P Q : Error → Prop}

theorem ok (a : α) : FailsWith P (.ok a : Except Error α) := by
  rintro _ ⟨⟩

theorem error {e : Error} (he : P e) : FailsWith P (.error e : Except Error α) := by
  rintro _ ⟨⟩
  exact he

theorem bind {x : Except Error α} {f : α → Except Error β} (hx : FailsWith P x)
    (hf : ∀ a, FailsWith P (f a)) : FailsWith P (x >>= f) := by
  cases x with
  | ok a => exact hf a
  | error e => exact .error (hx e rfl)

theorem mono {x : Except Error α} (hx : FailsWith P x) (hPQ : ∀ e, P e → Q e) : FailsWith Q x :=
  fun e he => hPQ e (hx e he)

theorem ite (p : Prop) [Decidable p] {x y : Except Error α} (hx : FailsWith P x)
    (hy : FailsWith P y) : FailsWith P (if p then x else y) := by
  split_ifs
  · exact hx
  · exact hy

theorem mapM {f : α → Except Error β} {xs : List α} (hf : ∀ a ∈ xs, FailsWith P (f a)) :
    FailsWith P (xs.mapM f) := by
  induction xs with
  | nil => exact .ok []
  | cons x xs ih =>
    rw [List.forall_mem_cons] at hf
    rw [List.mapM_cons]
    exact hf.1.bind fun y => (ih hf.2).bind fun ys => .ok _

theorem foldlM {f : β → α → Except Error β} {xs : List α}
    (hf : ∀ b, ∀ a ∈ xs, FailsWith P (f b a)) (b : β) : FailsWith P (xs.foldlM f b) := by
  induction xs generalizing b with
  | nil => exact .ok b
  | cons x xs ih =>
    rw [List.foldlM_cons]
    exact (hf b x List.mem_cons_self).bind
      (ih fun b a ha => hf b a (List.mem_cons_of_mem x ha))

theorem forM {f : α → Except Error Unit} (hf : ∀ a, FailsWith P (f a)) (xs : List α) :
    FailsWith P (xs.forM f) := by
  induction xs with
  | nil => exact .ok ()
  | cons x xs ih => exact (hf x).bind fun _ => ih

end FailsWith

end TensorDiagram
