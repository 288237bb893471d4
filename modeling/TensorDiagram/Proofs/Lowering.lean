import TensorDiagram.Planar.Lower
import TensorDiagram.Proofs.Admissible

/-!
# What lowering does

Lowering goes through an expression and emits definitions of temporaries.  `LowersTo target e d x
e'` says, in one rule for each form of expression, what a successful lowering of `d` towards
`target` does: from the emission `e` it makes the emission `e'`, and `x` stands in the place of `d`.
Everything that is proved about lowered diagrams is proved by induction on this relation, which a
successful lowering satisfies (`IsNormal.lowersTo`).

At a product the first contraction that fits is taken, and the two factors are lowered towards the
orders that this contraction asks for.  These orders are rotations of orders that the factors admit,
so the choice is never regretted: the lowering of a normal expression succeeds whenever the
expression admits the order of the target (`IsNormal.exists_lower`).
-/

open TensorDiagram.Circle (PairContraction IsPlanarPair)

namespace TensorDiagram

namespace Circle.PairContraction

variable {α : Type}

/-- The contraction with the two circles exchanged. -/
def swap (c : PairContraction α) : PairContraction α :=
  ⟨c.openSecond, c.openFirst, c.joinedSecond, c.joinedFirst⟩

/-- The order in which the first factor is wanted: its open indices on the left. -/
def firstTarget (c : PairContraction Index) : WantedOrder :=
  { left := c.openFirst, right := c.joinedFirst.reverse }

/-- The order in which the second factor is wanted: its open indices on the right. -/
def secondTarget (c : PairContraction Index) : WantedOrder :=
  { left := c.joinedSecond, right := c.openSecond.reverse }

/-- Exchanging the circles rotates the open order. -/
theorem openOrder_swap (c : PairContraction α) : c.swap.openOrder ~r c.openOrder :=
  List.isRotated_append

end Circle.PairContraction

namespace Circle.IsPlanarPair

/-- A planar contraction is one for the circles in the other order as well. -/
theorem swap {α : Type} {first second : List α} {c : PairContraction α}
    (h : IsPlanarPair first second c) : IsPlanarPair second first c.swap where
  first_order := h.second_order
  second_order := h.first_order
  reversed := by simp [PairContraction.swap, h.reversed]
  open_first := h.open_second
  open_second := h.open_first

variable {i j : List Index} {c : PairContraction Index}

/-- The target of the first factor is a rotation of its order. -/
theorem firstTarget_cyclicOrder (h : IsPlanarPair i j c) : i ~r c.firstTarget.cyclicOrder := by
  rw [PairContraction.firstTarget, WantedOrder.cyclicOrder, List.reverse_reverse]
  exact h.first_order.symm.trans List.isRotated_append

/-- The target of the second factor is a rotation of its order. -/
theorem secondTarget_cyclicOrder (h : IsPlanarPair i j c) : j ~r c.secondTarget.cyclicOrder := by
  rw [PairContraction.secondTarget, WantedOrder.cyclicOrder, List.reverse_reverse]
  exact h.second_order.symm

end Circle.IsPlanarPair

namespace Diagram

variable {a b d : Diagram} {target : WantedOrder} {e : Emission}

/-! ## The choice of a contraction -/

/-- The search finds a planar contraction with the wanted order if there is one. -/
theorem firstMatch_spec (wanted : List Index) {pairs : List (List Index × List Index)}
    (h : ∀ p ∈ pairs, p.1.Nodup ∧ p.2.Nodup) :
    ∃ found, firstMatch? wanted pairs = .ok found ∧
      (∀ c, found = some c → ∃ p ∈ pairs, IsPlanarPair p.1 p.2 c ∧ c.openOrder ~r wanted) ∧
      (found = none → ∀ p ∈ pairs, ∀ c, IsPlanarPair p.1 p.2 c → ¬ c.openOrder ~r wanted) := by
  induction pairs with
  | nil => exact ⟨none, rfl, by simp, by simp⟩
  | cons p rest ih =>
    obtain ⟨hnd1, hnd2⟩ := h p (List.mem_cons_self ..)
    obtain ⟨contractions, hok, henum⟩ := Circle.complements_spec hnd1 hnd2
    rcases hfind : contractions.find? fun c => Circle.isRotation c.openOrder wanted with _ | c
    · obtain ⟨found, hfound, hsome, hnone⟩ := ih fun q hq => h q (List.mem_cons_of_mem _ hq)
      refine ⟨found, ?_, ?_, ?_⟩
      · rw [firstMatch?, hok, ok_bind, hfind, hfound]
      · intro c hc
        obtain ⟨q, hq, hplanar⟩ := hsome c hc
        exact ⟨q, List.mem_cons_of_mem _ hq, hplanar⟩
      · intro hf q hq c hc hrot
        rcases List.mem_cons.mp hq with rfl | hq
        · obtain ⟨c', hc', hrot'⟩ := henum.complete c hc
          exact List.find?_eq_none.mp hfind c' hc' (Circle.isRotation_iff.mpr (hrot'.trans hrot))
        · exact hnone hf q hq c hc hrot
    · refine ⟨some c, by rw [firstMatch?, hok, ok_bind, hfind]; rfl, ?_, by simp⟩
      intro c' hc'
      obtain rfl := Option.some.inj hc'
      have hrot := List.find?_some hfind
      exact ⟨p, List.mem_cons_self .., henum.sound c (List.mem_of_find?_eq_some hfind),
        Circle.isRotation_iff.mp hrot⟩

/-- A contraction by which a product can be lowered: it joins orders of the two factors and has the
wanted order. -/
structure IsChoice (wanted : List Index) (a b : Diagram) (c : PairContraction Index) : Prop where
  /-- The factors admit the orders that their targets ask for. -/
  admits : a.Admits c.firstTarget.cyclicOrder ∧ b.Admits c.secondTarget.cyclicOrder
  /-- The contraction is planar. -/
  planar : IsPlanarPair c.firstTarget.cyclicOrder c.secondTarget.cyclicOrder c
  /-- The result has the wanted order. -/
  order : c.openOrder ~r wanted

/-- A choice is one for the factors in the other order as well. -/
theorem IsChoice.swap {wanted : List Index} {c : PairContraction Index}
    (h : IsChoice wanted a b c) : IsChoice wanted b a c.swap := by
  have hfirst := h.planar.swap.firstTarget_cyclicOrder
  have hsecond := h.planar.swap.secondTarget_cyclicOrder
  exact ⟨⟨h.admits.2.rotated hfirst, h.admits.1.rotated hsecond⟩,
    h.planar.swap.rotated hfirst.symm hsecond.symm, c.openOrder_swap.trans h.order⟩

/-- The contraction is searched for among all pairs of orders of the factors. -/
theorem choosePair_eq {first second : List (List Index)} (ha : a.admissibleOrders = .ok first)
    (hb : b.admissibleOrders = .ok second) (wanted : List Index) :
    choosePair wanted a b =
      firstMatch? wanted (first.flatMap fun i => second.map fun j => (i, j)) >>= fun found =>
        match found with
        | some c => .ok c
        | none => .error (.notPlanar (pair a b)) := by
  rw [choosePair, ha, ok_bind]
  by_cases hempty : first = []
  · subst hempty
    rfl
  · rw [if_neg (by simpa using hempty), hb]
    rfl

/-- A contraction is chosen if the product admits the wanted order, and else the product is at
fault. -/
theorem IsNormal.choosePair_spec (ha : a.IsNormal) (hb : b.IsNormal) (wanted : List Index) :
    (∃ c, choosePair wanted a b = .ok c ∧ IsChoice wanted a b c) ∨
      (choosePair wanted a b = .error (.notPlanar (Diagram.pair a b)) ∧
        ¬ (Diagram.pair a b).Admits wanted) := by
  obtain ⟨first, hfirst, hnd1⟩ := ha.exists_orders
  obtain ⟨second, hsecond, hnd2⟩ := hb.exists_orders
  rw [choosePair_eq hfirst hsecond]
  set pairs := first.flatMap fun i => second.map fun j => (i, j) with hpairs
  have hmem : ∀ p : List Index × List Index, p ∈ pairs ↔ p.1 ∈ first ∧ p.2 ∈ second := by
    rintro ⟨i, j⟩
    simp [hpairs]
  have hnd : ∀ p ∈ pairs, p.1.Nodup ∧ p.2.Nodup := fun p hp =>
    ⟨hnd1 _ ((hmem p).mp hp).1, hnd2 _ ((hmem p).mp hp).2⟩
  obtain ⟨found, hfound, hsome, hnone⟩ := firstMatch_spec wanted hnd
  rw [hfound, ok_bind]
  cases found with
  | some c =>
    obtain ⟨p, hp, hplanar, hrot⟩ := hsome c rfl
    obtain ⟨hi, hj⟩ := (hmem p).mp hp
    have hroti := hplanar.firstTarget_cyclicOrder
    have hrotj := hplanar.secondTarget_cyclicOrder
    exact Or.inl ⟨c, rfl, ⟨⟨first, hfirst, p.1, hi, hroti⟩, ⟨second, hsecond, p.2, hj, hrotj⟩⟩,
      hplanar.rotated hroti.symm hrotj.symm, hrot⟩
  | none =>
    refine Or.inr ⟨rfl, fun hadm => ?_⟩
    obtain ⟨i, j, c, hi, hj, hc, hrot⟩ := (ha.admits_pair_iff hb wanted).mp hadm
    obtain ⟨i', hi', hroti⟩ := (admits_iff hfirst i).mp hi
    obtain ⟨j', hj', hrotj⟩ := (admits_iff hsecond j).mp hj
    exact hnone rfl (i', j') ((hmem (i', j')).mpr ⟨hi', hj'⟩) c (hc.rotated hroti hrotj) hrot

/-! ## One rule for each form of expression -/

/-- What becomes of two lowered factors `a` and `b` that are joined by `c`.  A scalar factor is
multiplied in place.  Otherwise both become general tensors, and the product is given directly, if
it is wanted in the order of the two factors, or as a temporary. -/
inductive JoinsTo (target : WantedOrder) (c : PairContraction Index) (e : Emission)
    (a b : Diagram) : Diagram → Emission → Prop
  /-- A multiple, as a temporary. -/
  | scaledTemporary (hs : a.isScalar = true ∨ b.isScalar = true) (ht : target.isTemporary = true) :
      JoinsTo target c e a b (e.define (pair a b) c.openFirst c.openSecond.reverse).1
        (e.define (pair a b) c.openFirst c.openSecond.reverse).2
  /-- A multiple. -/
  | scaled (hs : a.isScalar = true ∨ b.isScalar = true) (ht : target.isTemporary = false) :
      JoinsTo target c e a b (pair a b) e
  /-- A contraction, as a temporary. -/
  | contractedTemporary (hs : ¬ a.isScalar = true ∧ ¬ b.isScalar = true) {e₁ e₂ : Emission}
      {x y p q : Diagram} {k : PairContraction Index}
      (hx : a.asGeneral c.firstTarget e = (x, e₁)) (hy : b.asGeneral c.secondTarget e₁ = (y, e₂))
      (hpq : (p = x ∧ q = y ∧ k = c) ∨ (p = y ∧ q = x ∧ k = c.swap)) :
      JoinsTo target c e a b (e₂.define (pair p q) k.openFirst k.openSecond.reverse).1
        (e₂.define (pair p q) k.openFirst k.openSecond.reverse).2
  /-- A contraction in the wanted order. -/
  | contracted (hs : ¬ a.isScalar = true ∧ ¬ b.isScalar = true) (ht : target.isTemporary = false)
      {e₁ e₂ : Emission} {x y p q : Diagram} {k : PairContraction Index}
      (hx : a.asGeneral c.firstTarget e = (x, e₁)) (hy : b.asGeneral c.secondTarget e₁ = (y, e₂))
      (hpq : (p = x ∧ q = y ∧ k = c) ∨ (p = y ∧ q = x ∧ k = c.swap))
      (hleft : target.left = k.openFirst) (hright : target.right = k.openSecond.reverse) :
      JoinsTo target c e a b (pair p q) e₂

/-- What a successful lowering does.  The terms of a sum are lowered one after another, so a sum is
looked at as a sum with one term less and its last term. -/
inductive LowersTo : WantedOrder → Emission → Diagram → Diagram → Emission → Prop
  /-- A scalar stays. -/
  | scalar {target : WantedOrder} {e : Emission} {d : Diagram} (hs : d.isScalar = true) :
      LowersTo target e d d e
  /-- A general tensor stays, if it is not to be a temporary with a trace. -/
  | general {target : WantedOrder} {e : Emission} {d : Diagram} {g : GeneralTensor}
      (hs : ¬ d.isScalar = true) (hg : d.general? = some g)
      (hkeep : target.isTemporary = false ∨ g.term.indices.Nodup) : LowersTo target e d d e
  /-- A trace is taken while a temporary is made. -/
  | traced {target : WantedOrder} {e : Emission} {d : Diagram} {g : GeneralTensor}
      (hs : ¬ d.isScalar = true) (hg : d.general? = some g) (ht : target.isTemporary = true)
      (htrace : ¬ g.term.indices.Nodup) :
      LowersTo target e d (e.define d target.left target.right).1
        (e.define d target.left target.right).2
  /-- The first term of a sum. -/
  | sumFirst {target : WantedOrder} {e e' : Emission} {sign : Sign} {a a' : Diagram}
      (ha : LowersTo target e a a' e') : LowersTo target e (.sum sign a []) (.sum sign a' []) e'
  /-- One more term of a sum. -/
  | sumNext {target : WantedOrder} {e e₁ e' : Emission} {sign next : Sign} {a a' d d' : Diagram}
      {rest rest' : List (Sign × Diagram)}
      (hsum : LowersTo target e (.sum sign a rest) (.sum sign a' rest') e₁)
      (hd : LowersTo target e₁ d d' e') :
      LowersTo target e (.sum sign a (rest ++ [(next, d)]))
      (.sum sign a' (rest' ++ [(next, d')])) e'
  /-- A product, of which one factor is lowered and then the other. -/
  | pair {target : WantedOrder} {e e₁ e₂ e' : Emission} {d a b x y z : Diagram}
      {c : PairContraction Index} (hd : d = Diagram.pair a b ∨ d = Diagram.pair b a)
      (hsimple : d.simpleOrders? = none) (hc : IsChoice target.cyclicOrder a b c)
      (ha : LowersTo c.firstTarget e a x e₁) (hb : LowersTo c.secondTarget e₁ b y e₂)
      (hjoin : JoinsTo target c e₂ x y z e') : LowersTo target e d z e'

/-- Lower two factors and join them. -/
def lowerFactors (target : WantedOrder) (e : Emission) (a b : Diagram) (c : PairContraction Index) :
    Except Error (Diagram × Emission) := do
  let (x, e) ← a.lower c.firstTarget e
  let (y, e) ← b.lower c.secondTarget e
  joinFactors target c.firstTarget c.secondTarget x y c.openFirst c.openSecond e

/-- What is not simple has no simple lowering. -/
theorem lowerSimple_eq_none (h : d.simpleOrders? = none) (target : WantedOrder) (e : Emission) :
    d.lowerSimple? target e = none := by
  rw [simpleOrders?] at h
  split_ifs at h with hs
  rw [lowerSimple?, if_neg hs, Option.map_eq_none_iff.mp h]
  rfl

/-- The lowering of a product that is neither a scalar nor a general tensor. -/
theorem lower_pair (h : (pair a b).simpleOrders? = none) (target : WantedOrder) (e : Emission) :
    (pair a b).lower target e = choosePair target.cyclicOrder a b >>= fun c =>
      if allIn c.openSecond target.left && allIn c.openFirst target.right then
        lowerFactors target e b a c.swap
      else lowerFactors target e a b c := by
  rw [lower, lowerSimple_eq_none h]
  rfl

/-- Scalars and general tensors are lowered at once. -/
theorem exists_lower_of_simple {orders : List (List Index)} (h : d.simpleOrders? = some orders)
    (target : WantedOrder) (e : Emission) :
    ∃ x e', d.lower target e = .ok (x, e') ∧ LowersTo target e d x e' := by
  have hlower : ∀ result, d.lowerSimple? target e = some result →
      d.lower target e = .ok result := by
    intro result hresult
    cases d <;> simp only [lower, hresult]
  by_cases hs : d.isScalar = true
  · exact ⟨d, e, hlower _ (by rw [lowerSimple?, if_pos hs]), .scalar hs⟩
  · rw [simpleOrders?, if_neg hs] at h
    obtain ⟨g, hg, -⟩ := Option.map_eq_some_iff.mp h
    have hsimple : d.lowerSimple? target e = some (d.lowerGeneral g.term target e) := by
      rw [lowerSimple?, if_neg hs, hg]
      rfl
    have htrace : (!(duplicates [] g.term.indices).isEmpty) = true ↔ ¬ g.term.indices.Nodup := by
      rw [Bool.not_eq_true', ← Bool.not_eq_true, isEmpty_duplicates_iff]
    by_cases hcond : (target.isTemporary && !(duplicates [] g.term.indices).isEmpty) = true
    · rw [lowerGeneral, if_pos hcond] at hsimple
      rw [Bool.and_eq_true, htrace] at hcond
      exact ⟨_, _, hlower _ hsimple, .traced hs hg hcond.1 hcond.2⟩
    · rw [lowerGeneral, if_neg hcond] at hsimple
      rw [Bool.and_eq_true, htrace, not_and_or, not_not, Bool.not_eq_true] at hcond
      exact ⟨d, e, hlower _ hsimple, .general hs hg hcond⟩

/-! ## Joining factors -/

/-- A temporary is a general tensor. -/
theorem general?_define (e : Emission) (rhs : Diagram) (left right : List Index) :
    (e.define rhs left right).1.general? =
      some ⟨⟨.handle (e.table.next .temporary), left, right, false⟩, []⟩ := rfl

/-- A factor can always be had as a general tensor. -/
theorem exists_general?_asGeneral (d : Diagram) (target : WantedOrder) (e : Emission) :
    ∃ g, (d.asGeneral target e).1.general? = some g := by
  rw [asGeneral]
  split_ifs with h
  · exact Option.isSome_iff_exists.mp h
  · exact ⟨_, general?_define ..⟩

/-- The contraction of two general tensors: a temporary, unless it can be given directly in the
wanted order. -/
def settlePair (target : WantedOrder) (a b : Diagram) (open1 open2 : List Index) (e : Emission) :
    Except Error (Diagram × Emission) :=
  if target.isTemporary then .ok (e.define (pair a b) open1 open2.reverse)
  else if target.left = open1 ∧ target.right = open2.reverse then .ok (pair a b, e)
  else if target.left = open2 ∧ target.right = open1.reverse then .ok (pair b a, e)
  else .ok (e.define (pair a b) open1 open2.reverse)

/-- Joining two factors always succeeds. -/
theorem exists_joinFactors (target : WantedOrder) (c : PairContraction Index) (a b : Diagram)
    (e : Emission) : ∃ z e', joinFactors target c.firstTarget c.secondTarget a b c.openFirst
      c.openSecond e = .ok (z, e') ∧ JoinsTo target c e a b z e' := by
  by_cases hs : a.isScalar = true ∨ b.isScalar = true
  · rw [joinFactors, if_pos (by simpa using hs)]
    by_cases ht : target.isTemporary = true
    · exact ⟨_, _, by rw [if_pos ht]; rfl, .scaledTemporary hs ht⟩
    · exact ⟨_, _, by rw [if_neg ht]; rfl, .scaled hs (by simpa using ht)⟩
  · have hs' := not_or.mp hs
    rcases hx : a.asGeneral c.firstTarget e with ⟨x, e₁⟩
    rcases hy : b.asGeneral c.secondTarget e₁ with ⟨y, e₂⟩
    obtain ⟨first, hfirst⟩ := exists_general?_asGeneral a c.firstTarget e
    obtain ⟨second, hsecond⟩ := exists_general?_asGeneral b c.secondTarget e₁
    rw [hx] at hfirst
    rw [hy] at hsecond
    -- the two factors in the order in which they are joined
    obtain ⟨p, q, k, hpq, heq⟩ : ∃ p q k, ((p = x ∧ q = y ∧ k = c) ∨ (p = y ∧ q = x ∧ k = c.swap)) ∧
        joinFactors target c.firstTarget c.secondTarget a b c.openFirst c.openSecond e =
          settlePair target p q k.openFirst k.openSecond e₂ := by
      rw [joinFactors, if_neg (by simpa using hs')]
      simp only [hx, hy, decompose, hfirst, hsecond, ok_bind]
      by_cases hside :
          (allIn c.openFirst first.term.right && allIn c.openSecond second.term.left) = true
      · rw [if_pos hside]
        exact ⟨y, x, c.swap, Or.inr ⟨rfl, rfl, rfl⟩, rfl⟩
      · rw [if_neg hside]
        exact ⟨x, y, c, Or.inl ⟨rfl, rfl, rfl⟩, rfl⟩
    rw [heq, settlePair]
    split_ifs with ht hdirect hswapped
    · exact ⟨_, _, rfl, .contractedTemporary hs' hx hy hpq⟩
    · exact ⟨_, _, rfl, .contracted hs' (by simpa using ht) hx hy hpq hdirect.1 hdirect.2⟩
    · have hqp : (q = x ∧ p = y ∧ k.swap = c) ∨ (q = y ∧ p = x ∧ k.swap = c.swap) := by
        rcases hpq with ⟨rfl, rfl, rfl⟩ | ⟨rfl, rfl, rfl⟩
        · exact Or.inr ⟨rfl, rfl, rfl⟩
        · exact Or.inl ⟨rfl, rfl, rfl⟩
      exact ⟨_, _, rfl, .contracted hs' (by simpa using ht) hx hy hqp hswapped.1 hswapped.2⟩
    · exact ⟨_, _, rfl, .contractedTemporary hs' hx hy hpq⟩

/-! ## Success and failure -/

/-- Lowering succeeds as the rules say, or it fails since the expression does not admit the order
that is wanted. -/
def LowersOrFails (target : WantedOrder) (e : Emission) (d : Diagram) : Prop :=
  (∃ x e', d.lower target e = .ok (x, e') ∧ LowersTo target e d x e') ∨
    ∃ err, d.lower target e = .error err ∧ err.kind = .planarity ∧ ¬ d.Admits target.cyclicOrder

/-- Lowering the further terms of a sum. -/
theorem lowerTerms_spec {e₁ : Emission} {sign : Sign} {a' : Diagram}
    {front front' rest : List (Sign × Diagram)}
    (hrest : ∀ p ∈ rest, ∀ e, LowersOrFails target e p.2)
    (hfront : LowersTo target e (.sum sign a front) (.sum sign a' front') e₁) :
    (∃ rest' e', lowerTerms target e₁ rest = .ok (rest', e') ∧
      LowersTo target e (.sum sign a (front ++ rest)) (.sum sign a' (front' ++ rest')) e') ∨
    ∃ err, lowerTerms target e₁ rest = .error err ∧ err.kind = .planarity ∧
      ∃ p ∈ rest, ¬ p.2.Admits target.cyclicOrder := by
  induction rest generalizing e₁ front front' with
  | nil => exact Or.inl ⟨[], e₁, rfl, by simpa using hfront⟩
  | cons p rest ih =>
    obtain ⟨next, d⟩ := p
    rcases hrest (next, d) (List.mem_cons_self ..) e₁ with
      ⟨d', e₂, hlower, hto⟩ | ⟨err, herr, hkind, hnot⟩
    · have hfront' := @LowersTo.sumNext target e e₁ e₂ sign next a a' d d' front front' hfront hto
      rcases ih (fun q hq => hrest q (List.mem_cons_of_mem _ hq)) hfront' with
        ⟨rest', e', hterms, hall⟩ | ⟨err, herr, hkind, q, hq, hnot⟩
      · refine Or.inl ⟨(next, d') :: rest', e', ?_, by simpa using hall⟩
        simp only [lowerTerms, hlower, ok_bind, hterms]
        rfl
      · refine Or.inr ⟨err, ?_, hkind, q, List.mem_cons_of_mem _ hq, hnot⟩
        simp only [lowerTerms, hlower, ok_bind, herr]
        rfl
    · refine Or.inr ⟨err, ?_, hkind, _, List.mem_cons_self .., hnot⟩
      rw [lowerTerms, herr]
      rfl

/-- Lowering two factors towards the orders of a contraction of them never fails. -/
theorem lowerFactors_spec {c : PairContraction Index} (ha : ∀ target e, LowersOrFails target e a)
    (hb : ∀ target e, LowersOrFails target e b) (hc : IsChoice target.cyclicOrder a b c)
    (hd : d = .pair a b ∨ d = .pair b a) (hsimple : d.simpleOrders? = none) :
    ∃ x e', lowerFactors target e a b c = .ok (x, e') ∧ LowersTo target e d x e' := by
  rcases ha c.firstTarget e with ⟨x, e₁, hx, hxto⟩ | ⟨-, -, -, hnot⟩
  · rcases hb c.secondTarget e₁ with ⟨y, e₂, hy, hyto⟩ | ⟨-, -, -, hnot⟩
    · obtain ⟨z, e', hz, hjoin⟩ := exists_joinFactors target c x y e₂
      refine ⟨z, e', ?_, .pair hd hsimple hc hxto hyto hjoin⟩
      simp only [lowerFactors, hx, hy, ok_bind, hz]
    · exact absurd hc.admits.2 hnot
  · exact absurd hc.admits.1 hnot

/-- The lowering of a normal expression follows the rules, or the expression does not admit the
order that is wanted. -/
theorem IsNormal.lowersOrFails (hd : d.IsNormal) (target : WantedOrder) (e : Emission) :
    LowersOrFails target e d := by
  induction hd generalizing target e with
  | ref t => exact Or.inl (exists_lower_of_simple rfl target e)
  | scalar s => exact Or.inl (exists_lower_of_simple rfl target e)
  | conj name => exact Or.inl (exists_lower_of_simple rfl target e)
  | @sum sign a rest ha hrest iha ihrest =>
    have hnormal : (Diagram.sum sign a rest).IsNormal := .sum ha hrest
    have hadmits := fun h => (hnormal.admits_sum_iff target.cyclicOrder).mp h
    by_cases hs : (Diagram.sum sign a rest).isScalar = true
    · exact Or.inl (exists_lower_of_simple (by rw [simpleOrders?, if_pos hs]) target e)
    have hnone : (Diagram.sum sign a rest).simpleOrders? = none := by
      rw [simpleOrders?, if_neg hs]
      rfl
    rcases iha target e with ⟨a', e₁, hlower, hto⟩ | ⟨err, herr, hkind, hnot⟩
    · have hfirst : LowersTo target e (.sum sign a []) (.sum sign a' []) e₁ := .sumFirst hto
      rcases lowerTerms_spec (fun p hp e => ihrest p hp target e) hfirst with
        ⟨rest', e', hterms, hall⟩ | ⟨err, herr, hkind, p, hp, hnot⟩
      · refine Or.inl ⟨_, e', ?_, hall⟩
        simp only [lower, lowerSimple_eq_none hnone, hlower, ok_bind, hterms]
        rfl
      · refine Or.inr ⟨err, ?_, hkind, fun h => hnot ((hadmits h).2 p hp)⟩
        simp only [lower, lowerSimple_eq_none hnone, hlower, ok_bind, herr]
        rfl
    · refine Or.inr ⟨err, ?_, hkind, fun h => hnot (hadmits h).1⟩
      rw [lower, lowerSimple_eq_none hnone, herr]
      rfl
  | @pair a b ha hb iha ihb =>
    rcases hsimple : (Diagram.pair a b).simpleOrders? with _ | orders
    · rw [LowersOrFails, lower_pair hsimple]
      rcases ha.choosePair_spec hb target.cyclicOrder with ⟨c, hchoose, hc⟩ | ⟨hchoose, hnot⟩
      · left
        rw [hchoose, ok_bind]
        split_ifs
        · exact lowerFactors_spec ihb iha hc.swap (Or.inr rfl) hsimple
        · exact lowerFactors_spec iha ihb hc (Or.inl rfl) hsimple
      · exact Or.inr ⟨_, by rw [hchoose, error_bind], rfl, hnot⟩
    · exact Or.inl (exists_lower_of_simple hsimple target e)

/-- A successful lowering of a normal expression follows the rules. -/
theorem IsNormal.lowersTo {x : Diagram} (hd : d.IsNormal) {e' : Emission}
    (h : d.lower target e = .ok (x, e')) : LowersTo target e d x e' := by
  rcases hd.lowersOrFails target e with ⟨x', e'', hlower, hto⟩ | ⟨err, herr, -⟩
  · rw [h, Except.ok.injEq, Prod.mk.injEq] at hlower
    rwa [hlower.1, hlower.2]
  · rw [h] at herr
    cases herr

/-- A normal expression that admits the wanted order can be lowered. -/
theorem IsNormal.exists_lower (hd : d.IsNormal) (h : d.Admits target.cyclicOrder) (e : Emission) :
    ∃ x e', d.lower target e = .ok (x, e') := by
  rcases hd.lowersOrFails target e with ⟨x, e', hlower, -⟩ | ⟨-, -, -, hnot⟩
  · exact ⟨x, e', hlower⟩
  · exact absurd h hnot

/-! ## Statements -/

/-- A left hand side that is a scalar or a reference without repeated indices. -/
def IsPlainLhs : Diagram → Prop
  | ref t => t.indices.Nodup
  | scalar _ => True
  | _ => False

/-- A plain left hand side asks for the order towards which its right hand side is lowered. -/
theorem IsPlainLhs.lhsOrder {lhs : Diagram} (h : lhs.IsPlainLhs) :
    lhs.lhsOrder = .ok (WantedOrder.ofLhs lhs).cyclicOrder := by
  cases lhs with
  | ref t =>
    have horders : (ref t).admissibleOrders = .ok [t.cyclicOrder] :=
      (admissibleOrders_of_general rfl (by simp [isScalar])).trans
        (congrArg _ (admissibleOrders_of_nodup h))
    rw [Diagram.lhsOrder, if_pos (by rw [isTensor]), horders]
    rfl
  | scalar s => rfl
  | _ => exact h.elim

/-- The first admissible order of an expression is the one towards which it is lowered when it
stands alone. -/
theorem IsNormal.lowerStatements_eq (hd : d.IsNormal) (htensor : d.isTensor = true)
    (table : HandleTable) :
    d.lowerStatements table = d.admissibleOrders >>= fun orders =>
      match orders with
      | [] => .error (.notPlanar d)
      | order :: _ => d.lower { left := order, right := [] } ⟨table, []⟩ >>= fun result =>
        .ok (block (result.2.definitions ++ [result.1]), result.2.table) := by
  have hexpr : d.lowerStatements table = d.lowerExpression table := by
    cases hd <;> rw [lowerStatements] <;> simp
  rw [hexpr, lowerExpression, if_pos htensor]
  refine bind_congr fun orders => ?_
  cases orders <;> rfl

/-- Lowering never gets stuck.  An assignment that is found planar is lowered; and an expression
that stands alone is lowered unless it has no admissible order, which is the only error. -/
theorem lowering_never_stuck (table : HandleTable) :
    (∀ lhs rhs isDefinition, lhs.IsPlainLhs → rhs.IsNormal →
      (assign lhs rhs isDefinition).checkPlanar = .ok () →
      ∃ lowered, (assign lhs rhs isDefinition).lowerStatements table = .ok lowered) ∧
    ∀ d : Diagram, d.IsNormal → d.isTensor = true →
      ((∃ err, d.lowerStatements table = .error err ∧ err.kind = .planarity) ↔
        d.admissibleOrders = .ok []) ∧
      ∀ err, d.lowerStatements table = .error err → err.kind = .planarity := by
  constructor
  · intro lhs rhs isDefinition hlhs hrhs hcheck
    rw [checkPlanar] at hcheck
    rw [lowerStatements, lowerAssignment]
    by_cases htensor : rhs.isTensor = true
    · obtain ⟨order, horder, hadm⟩ := (hrhs.checkAssignment_iff htensor).mp hcheck
      rw [hlhs.lhsOrder, Except.ok.injEq] at horder
      obtain ⟨x, e, hlower⟩ := hrhs.exists_lower (horder ▸ hadm) ⟨table, []⟩
      exact ⟨_, by rw [if_pos htensor, hlower, ok_bind]; rfl⟩
    · exact ⟨_, by rw [if_neg htensor]; rfl⟩
  · intro d hd htensor
    rw [hd.lowerStatements_eq htensor]
    obtain ⟨orders, horders, -⟩ := hd.exists_orders
    rw [horders, ok_bind]
    cases orders with
    | nil =>
      refine ⟨iff_of_true ⟨_, rfl, rfl⟩ rfl, fun err herr => ?_⟩
      obtain rfl := Except.error.inj herr
      rfl
    | cons order rest =>
      have hcyclic : (WantedOrder.mk order [] true).cyclicOrder = order := by
        rw [WantedOrder.cyclicOrder, List.reverse_nil, List.append_nil]
      have hadm : d.Admits (WantedOrder.mk order [] true).cyclicOrder :=
        ⟨_, horders, order, List.mem_cons_self .., by rw [hcyclic]⟩
      obtain ⟨x, e, hlower⟩ := hd.exists_lower hadm ⟨table, []⟩
      dsimp only
      rw [hlower, ok_bind]
      exact ⟨iff_of_false (by simp) (by simp), by simp⟩

/-- A planar triangle of three tensors, with the legs `1` and `2` open. -/
def triangle : Diagram :=
  .pair (.pair (.ref ⟨.name "A", [.number 1], [.number 4, .number 3], false⟩)
      (.ref ⟨.name "B", [.number 3, .number 2], [.number 5], false⟩))
    (.ref ⟨.name "D", [.number 4], [.number 5], false⟩)

/-- The triangle is a normal expression. -/
theorem isNormal_triangle : triangle.IsNormal :=
  .pair (.pair (.ref _) (.ref _)) (.ref _)

/-- A tensor with two traces that cross, beside another tensor. -/
def crossedTraces : Diagram :=
  .pair (.ref ⟨.name "A", [.number 1, .number 2, .number 1, .number 2], [], false⟩)
    (.ref ⟨.name "B", [.number 3], [], false⟩)

/-- The triangle is lowered in an assignment that is found planar, and the crossed traces are
not. -/
theorem lowering_of_triangle_and_crossedTraces :
    (assign (.ref ⟨.name "C", [.number 1], [.number 2], false⟩) triangle true).checkPlanar =
      .ok () ∧
    (∃ lowered, (assign (.ref ⟨.name "C", [.number 1], [.number 2], false⟩) triangle
      true).lowerStatements .empty = .ok lowered) ∧
    crossedTraces.admissibleOrders = .ok [] ∧
    ∃ err, crossedTraces.lowerStatements .empty = .error err ∧ err.kind = .planarity := by
  have hcheck : (assign (.ref ⟨.name "C", [.number 1], [.number 2], false⟩) triangle
      true).checkPlanar = .ok () := rfl
  have hcrossed : crossedTraces.admissibleOrders = .ok [] := rfl
  obtain ⟨hassign, halone⟩ := lowering_never_stuck .empty
  exact ⟨hcheck, hassign _ _ _ (by simp [IsPlainLhs, TensorRef.indices]) isNormal_triangle hcheck,
    hcrossed, (halone crossedTraces (.pair (.ref _) (.ref _)) rfl).1.mpr hcrossed⟩

end Diagram

end TensorDiagram
