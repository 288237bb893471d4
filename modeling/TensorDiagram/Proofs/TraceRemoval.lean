import TensorDiagram.Proofs.Rotation

/-!
# Traces come off a circle in any order

Taking one pair of equal neighbours off a circle is a step `Cancels`.  Two different steps can be
done one after the other, in either order, or they leave the same circle (`Cancels.diamond`), so all
ways of going on until no trace is left end with the same circle.

`removeTraces` is one of these ways: it goes by such steps (`drops_removeTraces`), and in the end no
two neighbours are equal (`not_cancels_removeTraces`).  Hence the result does not depend on where
the circle is cut open (`isRotated_removeTraces`), and a circle that is read backwards leaves the
same circle, read backwards (`isRotated_removeTraces_reverse`).  The steps can be followed on lists
as well: what can be left of a circle, cut open anywhere, are exactly the rotations of the result
(`isRotated_removeTraces_iff`).
-/

namespace TensorDiagram.Circle

open Relation (ReflGen ReflTransGen)

variable {α : Type}
variable {xs ys : List α} {s t : Cycle α}

/-- A rotation cuts a list in two pieces and exchanges them. -/
theorem exists_append_of_isRotated (h : xs ~r ys) : ∃ a b, xs = a ++ b ∧ ys = b ++ a := by
  obtain ⟨n, hn, rfl⟩ := List.isRotated_iff_mod.mp h
  exact ⟨xs.take n, xs.drop n, (List.take_append_drop n xs).symm,
    List.rotate_eq_drop_append_take hn⟩

/-- Two equal neighbours are taken off a circle. -/
def Cancels (s t : Cycle α) : Prop :=
  ∃ (x : α) (rest : List α), s = ↑(x :: x :: rest) ∧ t = ↑rest

/-- A pair can be taken out of the middle of a list. -/
theorem cancels_append (xs : List α) (x : α) (ys : List α) :
    Cancels (↑(xs ++ x :: x :: ys) : Cycle α) ↑(xs ++ ys) :=
  ⟨x, ys ++ xs, Cycle.coe_eq_coe.mpr List.isRotated_append,
    Cycle.coe_eq_coe.mpr List.isRotated_append⟩

/-- Two equal neighbours are taken out of a list.  There is nothing between the two, or nothing
around them: the last entry and the first one are neighbours. -/
def DropsPair (xs ys : List α) : Prop :=
  ∃ (x : α) (u v w : List α), xs = u ++ x :: (v ++ x :: w) ∧ ys = u ++ (v ++ w) ∧
    (v = [] ∨ u = [] ∧ w = [])

/-- Two neighbours of the list are neighbours on the circle. -/
theorem DropsPair.cancels (h : DropsPair xs ys) : Cancels (↑xs : Cycle α) ↑ys := by
  obtain ⟨x, u, v, w, rfl, rfl, rfl | ⟨rfl, rfl⟩⟩ := h
  · exact cancels_append u x w
  · have hrot : x :: v ++ [x] ~r [x] ++ (x :: v) := List.isRotated_append
    exact ⟨x, v, Cycle.coe_eq_coe.mpr hrot, by rw [List.nil_append, List.append_nil]⟩

/-- Two neighbours on the circle are neighbours of the list, wherever the circle is cut open. -/
theorem Cancels.exists_dropsPair (h : Cancels (↑xs : Cycle α) t) : ∃ ys, DropsPair xs ys := by
  obtain ⟨x, rest, hxs, -⟩ := h
  obtain ⟨a, b, rfl, hba⟩ := exists_append_of_isRotated (Cycle.coe_eq_coe.mp hxs)
  -- the pair is in the first piece, where the circle closes, or in the second piece
  match b with
  | [] =>
    rw [List.nil_append] at hba
    rw [List.append_nil, ← hba]
    exact ⟨rest, x, [], [], rest, rfl, rfl, Or.inl rfl⟩
  | [y] =>
    rw [List.singleton_append, List.cons.injEq] at hba
    obtain ⟨rfl, rfl⟩ := hba
    exact ⟨rest, x, [], rest, [], rfl, by rw [List.nil_append, List.append_nil], Or.inr ⟨rfl, rfl⟩⟩
  | y :: z :: b =>
    rw [List.cons_append, List.cons_append, List.cons.injEq, List.cons.injEq] at hba
    obtain ⟨rfl, rfl, -⟩ := hba
    exact ⟨a ++ b, x, a, [], b, rfl, rfl, Or.inl rfl⟩

theorem reduces_of_drops (h : ReflTransGen DropsPair xs ys) :
    ReflTransGen Cancels (↑xs : Cycle α) ↑ys :=
  ReflTransGen.lift (fun l : List α => (l : Cycle α)) (fun _ _ => DropsPair.cancels) _ _ h

/-- If a list is left, then any rotation of it is left when the circle is cut open at another
place. -/
theorem exists_drops_of_isRotated {ys' : List α} (h : ReflTransGen DropsPair xs ys)
    (hrot : ys' ~r ys) : ∃ xs', xs' ~r xs ∧ ReflTransGen DropsPair xs' ys' := by
  induction h generalizing ys' with
  | refl => exact ⟨ys', hrot, .refl⟩
  | tail _ hstep ih =>
    obtain ⟨x, rest, hpair, hrest⟩ := hstep.cancels
    obtain ⟨a, b, rfl, rfl⟩ := exists_append_of_isRotated (hrot.trans (Cycle.coe_eq_coe.mp hrest))
    -- the pair goes back between the two pieces of the rotation
    have hback : a ++ x :: x :: b ~r x :: x :: (b ++ a) := List.isRotated_append
    obtain ⟨xs', hxs', hdrops⟩ := ih (hback.trans (Cycle.coe_eq_coe.mp hpair).symm)
    exact ⟨xs', hxs', hdrops.tail ⟨x, a, [], b, rfl, rfl, Or.inl rfl⟩⟩

/-- Two steps from one circle lead to the same circle, or to circles from which one more step
does. -/
theorem Cancels.diamond {t' : Cycle α} (h : Cancels s t) (h' : Cancels s t') :
    t = t' ∨ ∃ u, Cancels t u ∧ Cancels t' u := by
  obtain ⟨x, u, rfl, rfl⟩ := h
  obtain ⟨y, v, hs, rfl⟩ := h'
  obtain ⟨a, b, hab, hba⟩ := exists_append_of_isRotated (Cycle.coe_eq_coe.mp hs)
  rw [Cycle.coe_eq_coe]
  -- the cut is before, within or behind the first pair
  match a with
  | [] =>
    rw [List.nil_append] at hab
    rw [List.append_nil, ← hab, List.cons.injEq, List.cons.injEq] at hba
    exact Or.inl (hba.2.2 ▸ .refl _)
  | [z] =>
    obtain ⟨rfl, rfl⟩ := List.cons.inj hab
    left
    cases u with
    | nil =>
      rw [List.singleton_append, List.cons.injEq, List.cons.injEq] at hba
      rw [hba.2.2]
    | cons z u =>
      rw [List.cons_append, List.cons_append, List.cons.injEq, List.cons.injEq] at hba
      obtain ⟨rfl, rfl, rfl⟩ := hba
      exact (List.isRotated_concat _ _).symm
  | z :: w :: p =>
    rw [List.cons_append, List.cons_append, List.cons.injEq, List.cons.injEq] at hab
    obtain ⟨rfl, rfl, rfl⟩ := hab
    -- the second pair starts with the first one, overlaps with it, or is apart from it
    match b with
    | [] =>
      rw [List.nil_append, List.cons.injEq, List.cons.injEq] at hba
      rw [List.append_nil, hba.2.2]
      exact Or.inl (.refl _)
    | [q] =>
      rw [List.cons_append, List.nil_append, List.cons.injEq, List.cons.injEq] at hba
      obtain ⟨rfl, rfl, rfl⟩ := hba
      exact Or.inl List.isRotated_append
    | q :: r :: b =>
      rw [List.cons_append, List.cons_append, List.cons.injEq, List.cons.injEq] at hba
      obtain ⟨rfl, rfl, rfl⟩ := hba
      refine Or.inr ⟨↑(p ++ b), cancels_append p _ b, ?_⟩
      have hpair := cancels_append b x p
      rwa [Cycle.coe_eq_coe.mpr (show (b ++ p) ~r (p ++ b) from List.isRotated_append)] at hpair

/-- A circle from which no pair can be taken is the only one in which any way of taking off pairs
ends. -/
theorem eq_of_reduces {t' : Cycle α} (h : ReflTransGen Cancels s t) (h' : ReflTransGen Cancels s t')
    (ht : ∀ u, ¬ Cancels t u) (ht' : ∀ u, ¬ Cancels t' u) : t = t' := by
  have hend : ∀ {a b : Cycle α}, ReflTransGen Cancels a b → (∀ u, ¬ Cancels a u) → a = b := by
    intro a b hab ha
    rcases ReflTransGen.cases_head hab with rfl | ⟨u, hu, -⟩
    · rfl
    · exact absurd hu (ha u)
  obtain ⟨u, hu, hu'⟩ := Relation.church_rosser (r := Cancels (α := α)) (fun a b c hb hc => by
    rcases hb.diamond hc with rfl | ⟨d, hd, hd'⟩
    · exact ⟨b, .refl, .refl⟩
    · exact ⟨d, .single hd, .single hd'⟩) h h'
  rw [hend hu ht, hend hu' ht']

/-- A pair of neighbours is one in the mirror as well. -/
theorem Cancels.reverse (h : Cancels s t) : Cancels s.reverse t.reverse := by
  obtain ⟨x, rest, rfl, rfl⟩ := h
  have hpair := cancels_append rest.reverse x []
  rw [List.append_nil] at hpair
  simpa using hpair

theorem reduces_reverse (h : ReflTransGen Cancels s t) :
    ReflTransGen Cancels s.reverse t.reverse := by
  induction h with
  | refl => exact .refl
  | tail _ hstep ih => exact ih.tail hstep.reverse

variable [DecidableEq α]

/-! ## Rounds -/

/-- A round takes off pairs of neighbours. -/
theorem drops_sweep (behind xs : List α) : ReflTransGen DropsPair (behind.reverse ++ xs)
    (sweep behind xs) := by
  induction behind, xs using sweep.induct with
  | case1 behind => rw [sweep, List.append_nil]
  | case2 behind x hnil => rw [sweep, hnil, List.nil_append]
  | case3 behind y rest hrev =>
    rw [sweep, hrev]
    simp only [if_true]
    exact .single ⟨y, [], rest, [], rfl, by rw [List.nil_append, List.append_nil],
      Or.inr ⟨rfl, rfl⟩⟩
  | case4 behind x y rest hrev hne =>
    rw [sweep, hrev]
    simp only [hne, if_false]
    rw [List.cons_append]
  | case5 behind y rest ih =>
    rw [sweep, if_pos rfl]
    exact .head ⟨y, behind.reverse, [], rest, rfl, rfl, Or.inl rfl⟩ ih
  | case6 behind x y rest hne ih =>
    rw [sweep, if_neg hne]
    simpa using ih

/-- A round in which nothing comes off has met no two equal neighbours: neither ahead of where it
began, nor at the place where the circle closes. -/
theorem sweep_cases (behind xs : List α) :
    (sweep behind xs).length < (behind.reverse ++ xs).length ∨
      sweep behind xs = behind.reverse ++ xs ∧ xs.IsChain (· ≠ ·) ∧
        ∀ x rest y, behind.reverse ++ xs = x :: rest → xs.getLast? = some y →
          rest ≠ [] → x ≠ y := by
  induction behind, xs using sweep.induct with
  | case1 behind => exact Or.inr ⟨by rw [sweep, List.append_nil], .nil, by simp⟩
  | case2 behind x hnil =>
    refine Or.inr ⟨by rw [sweep, hnil, List.nil_append], .singleton x,
      fun y rest z hxs hz hne => ?_⟩
    rw [hnil, List.nil_append, List.cons.injEq] at hxs
    exact absurd hxs.2.symm hne
  | case3 behind y rest hrev =>
    left
    rw [sweep, hrev]
    simp
  | case4 behind x y rest hrev hne =>
    right
    refine ⟨?_, .singleton x, fun z rest' w hxs hw _ => ?_⟩
    · rw [sweep, hrev]
      simp [hne]
    · rw [hrev, List.cons_append, List.cons.injEq] at hxs
      rw [List.getLast?_singleton, Option.some.injEq] at hw
      rw [← hxs.1, ← hw]
      exact Ne.symm hne
  | case5 behind y rest ih =>
    left
    rw [sweep, if_pos rfl]
    have hle : (sweep behind rest).length ≤ (behind.reverse ++ rest).length := by
      rcases ih with hlt | ⟨heq, -⟩
      · exact hlt.le
      · rw [heq]
    simp only [List.length_append, List.length_cons] at hle ⊢
    omega
  | case6 behind x y rest hne ih =>
    rw [sweep, if_neg hne]
    rw [List.reverse_cons, List.append_assoc, List.singleton_append] at ih
    rcases ih with hlt | ⟨heq, hchain, hclosed⟩
    · exact Or.inl hlt
    · refine Or.inr ⟨heq, .cons_cons hne hchain, fun z rest' w hxs hw => ?_⟩
      exact hclosed z rest' w hxs (by rwa [List.getLast?_cons_cons] at hw)

/-- If a round over the whole circle takes nothing off, there are no two equal neighbours. -/
theorem not_cancels_of_sweep (h : xs.length ≤ (sweep [] xs).length) (t : Cycle α) :
    ¬ Cancels (↑xs : Cycle α) t := by
  intro hcancels
  rcases sweep_cases [] xs with hlt | ⟨-, hchain, hclosed⟩
  · rw [List.reverse_nil, List.nil_append] at hlt
    omega
  · obtain ⟨-, x, u, v, w, rfl, -, rfl | ⟨rfl, rfl⟩⟩ := hcancels.exists_dropsPair
    · have hsecond := (List.isChain_append.mp hchain).2.1
      exact (List.isChain_cons_cons.mp hsecond).1 rfl
    · have hlast : (x :: (v ++ [x])).getLast? = some x := by
        rw [← List.cons_append, List.getLast?_concat]
      exact hclosed x (v ++ [x]) x rfl hlast (by simp) rfl

/-! ## All traces -/

theorem drops_removeTraces (xs : List α) : ReflTransGen DropsPair xs (removeTraces xs) := by
  have hiter : ∀ n : ℕ, ReflTransGen DropsPair xs (Nat.repeat (sweep []) n xs) := by
    intro n
    induction n with
    | zero => exact .refl
    | succ n ih => exact ih.trans (drops_sweep [] (Nat.repeat (sweep []) n xs))
  exact hiter xs.length

theorem reduces_removeTraces (xs : List α) :
    ReflTransGen Cancels (↑xs : Cycle α) ↑(removeTraces xs) :=
  reduces_of_drops (drops_removeTraces xs)

/-- Once the traces have been removed, a round takes nothing off. -/
theorem sweep_removeTraces (xs : List α) : sweep [] (removeTraces xs) = removeTraces xs := by
  -- every round takes something off until one changes nothing
  have hiter : ∀ n : ℕ, (Nat.repeat (sweep []) n xs).length + n ≤ xs.length ∨
      sweep [] (Nat.repeat (sweep []) n xs) = Nat.repeat (sweep []) n xs := by
    intro n
    induction n with
    | zero => exact Or.inl le_rfl
    | succ n ih =>
      rw [Nat.repeat]
      rcases ih with hle | hfix
      · have hcases := sweep_cases [] (Nat.repeat (sweep []) n xs)
        rw [List.reverse_nil, List.nil_append] at hcases
        rcases hcases with hlt | ⟨heq, -⟩
        · exact Or.inl (by omega)
        · exact Or.inr (by rw [heq, heq])
      · exact Or.inr (by rw [hfix, hfix])
  rcases hiter xs.length with hle | hfix
  · have hnil : removeTraces xs = [] := List.eq_nil_of_length_eq_zero (by
      rw [removeTraces]
      omega)
    rw [hnil]
    rfl
  · exact hfix

/-- No two neighbours are equal after the traces have been removed. -/
theorem not_cancels_removeTraces (xs : List α) (t : Cycle α) :
    ¬ Cancels (↑(removeTraces xs) : Cycle α) t :=
  not_cancels_of_sweep (by rw [sweep_removeTraces]) t

/-- Circles that are cut open at different places have the same circle without traces. -/
theorem isRotated_removeTraces (h : xs ~r ys) : removeTraces xs ~r removeTraces ys := by
  refine Cycle.coe_eq_coe.mp
    (eq_of_reduces (reduces_removeTraces xs) ?_ (not_cancels_removeTraces xs)
    (not_cancels_removeTraces ys))
  rw [Cycle.coe_eq_coe.mpr h]
  exact reduces_removeTraces ys

/-- The traces of the mirror image are the mirror images of the traces. -/
theorem isRotated_removeTraces_reverse (xs : List α) :
    removeTraces xs.reverse ~r (removeTraces xs).reverse := by
  have hmirror := reduces_reverse (reduces_removeTraces xs)
  rw [Cycle.reverse_coe, Cycle.reverse_coe] at hmirror
  refine Cycle.coe_eq_coe.mp (eq_of_reduces (reduces_removeTraces xs.reverse) hmirror
    (not_cancels_removeTraces xs.reverse) fun t ht => ?_)
  have hback := ht.reverse
  rw [Cycle.reverse_coe, List.reverse_reverse] at hback
  exact not_cancels_removeTraces xs t.reverse hback

/-- What can be left of a circle that is cut open anywhere, if pairs are taken off in any order. -/
theorem isRotated_removeTraces_iff {zs : List α} :
    zs ~r removeTraces xs ↔
      ∃ ys, ys ~r xs ∧ ReflTransGen DropsPair ys zs ∧ ∀ ws, ¬ DropsPair zs ws := by
  constructor
  · intro h
    obtain ⟨ys, hys, hdrops⟩ := exists_drops_of_isRotated (drops_removeTraces xs) h
    refine ⟨ys, hys, hdrops, fun ws hws => ?_⟩
    have hcancels := hws.cancels
    rw [Cycle.coe_eq_coe.mpr h] at hcancels
    exact not_cancels_removeTraces xs ws hcancels
  · rintro ⟨ys, hys, hdrops, hend⟩
    have hreduces := reduces_of_drops hdrops
    rw [Cycle.coe_eq_coe.mpr hys] at hreduces
    refine Cycle.coe_eq_coe.mp (eq_of_reduces hreduces (reduces_removeTraces xs) (fun t ht => ?_)
      (not_cancels_removeTraces xs))
    obtain ⟨ws, hws⟩ := ht.exists_dropsPair
    exact hend ws hws

/-- **Traces come off in any order.**  Up to rotation, the circle without traces does not depend on
where the circle is cut open, and it is read backwards if the circle is.  If pairs of neighbours are
taken off in any order until there are none, then exactly the rotations of the circle without traces
can be left. -/
theorem removeTraces_confluent (xs : List α) :
    (∀ ys, ys ~r xs → removeTraces ys ~r removeTraces xs) ∧
      removeTraces xs.reverse ~r (removeTraces xs).reverse ∧
      ∀ zs, zs ~r removeTraces xs ↔
        ∃ ys, ys ~r xs ∧ ReflTransGen DropsPair ys zs ∧ ∀ ws, ¬ DropsPair zs ws :=
  ⟨fun _ h => isRotated_removeTraces h, isRotated_removeTraces_reverse xs, fun _ =>
    isRotated_removeTraces_iff⟩

/-- A circle with a label that occurs once, one that occurs twice and one that occurs three
times. -/
def unevenCircle : List (Fin 3) :=
  [0, 0, 1, 2, 2, 0]

/-- Cut open at another place, or read backwards, the uneven circle leaves another list, but the
same circle. -/
theorem removeTraces_confluent_unevenCircle :
    [0, 1, 2, 2, 0, 0] ~r unevenCircle ∧
      removeTraces [0, 1, 2, 2, 0, 0] ~r removeTraces unevenCircle ∧
      removeTraces [0, 1, 2, 2, 0, 0] = [0, 1] ∧ removeTraces unevenCircle = [1, 0] ∧
      removeTraces unevenCircle.reverse ~r [0, 1] ∧
      ∃ ys, ys ~r unevenCircle ∧ ReflTransGen DropsPair ys [0, 1] ∧
        ∀ ws : List (Fin 3), ¬ DropsPair [0, 1] ws := by
  obtain ⟨hcut, hmirror, hleft⟩ := removeTraces_confluent unevenCircle
  have hrot : [0, 1, 2, 2, 0, 0] ~r unevenCircle := ⟨5, rfl⟩
  exact ⟨hrot, hcut _ hrot, by decide, by decide, hmirror, (hleft [0, 1]).mp ⟨1, by decide⟩⟩

end TensorDiagram.Circle
