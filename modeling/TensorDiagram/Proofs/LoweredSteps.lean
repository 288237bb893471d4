import TensorDiagram.Proofs.Lowering

/-!
# The steps of a lowered assignment

Lowering leaves statements that a planar backend can do one at a time.  Every one of them is an
assignment that is planar in itself, and its right hand side is elementary: scalars, general
tensors, contractions of two general tensors without traces, multiples of sums, and sums of these
(`IsElementary`).  A contraction has the open indices of its first factor as outputs and those of
the second factor as inputs.

The proof follows the rules of lowering.  What stands in the place of a factor is a nested sum of
scalars and of general tensors without traces (`IsLinear`), and it admits the order of its target
(`LowersTo.linear`).  In the place of the whole right hand side stands an elementary expression
(`LowersTo.elementary`).
-/

open TensorDiagram.Circle (PairContraction IsPlanarPair)

namespace TensorDiagram

namespace Diagram

variable {a b d x : Diagram} {e e' : Emission} {order : List Index} {target : WantedOrder}
  {next sign : Sign} {rest : List (Sign × Diagram)}

/-! ## Elementary right hand sides -/

/-- General tensors without repeated indices. -/
def IsTraceless (d : Diagram) : Prop :=
  ∃ g, d.general? = some g ∧ g.term.indices.Nodup

/-- Nested sums of scalars and of general tensors without traces. -/
inductive IsLinear : Diagram → Prop
  /-- A scalar. -/
  | scalar {d : Diagram} (h : d.isScalar = true) : IsLinear d
  /-- A general tensor. -/
  | general {d : Diagram} (h : d.IsTraceless) : IsLinear d
  /-- A sum. -/
  | sum {sign : Sign} {a : Diagram} {rest : List (Sign × Diagram)} (ha : IsLinear a)
      (hrest : ∀ p ∈ rest, IsLinear p.2) : IsLinear (.sum sign a rest)

/-- The right hand sides of lowered assignments. -/
inductive IsElementary : Diagram → Prop
  /-- A scalar. -/
  | scalar {d : Diagram} (h : d.isScalar = true) : IsElementary d
  /-- A general tensor. -/
  | general {d : Diagram} (h : d.isGeneral = true) : IsElementary d
  /-- The contraction of two general tensors without repeated indices. -/
  | contraction {x y : Diagram} (hx : x.IsTraceless) (hy : y.IsTraceless) : IsElementary (.pair x y)
  /-- A multiple of a general tensor or of a sum. -/
  | multiple {s x : Diagram} (hs : s.isScalar = true) (hx : x.IsLinear) : IsElementary (.pair s x)
  /-- A multiple, with the scalar behind. -/
  | multipleRight {s x : Diagram} (hs : s.isScalar = true) (hx : x.IsLinear) :
      IsElementary (.pair x s)
  /-- A sum. -/
  | sum {sign : Sign} {a : Diagram} {rest : List (Sign × Diagram)} (ha : IsElementary a)
      (hrest : ∀ p ∈ rest, IsElementary p.2) : IsElementary (.sum sign a rest)

/-- A nested sum is elementary. -/
theorem IsLinear.isElementary (h : d.IsLinear) : d.IsElementary := by
  induction h with
  | scalar h => exact .scalar h
  | general h =>
    obtain ⟨g, hg, -⟩ := h
    exact .general (by rw [isGeneral, hg]; rfl)
  | sum ha hrest iha ihrest => exact .sum iha ihrest

/-- A nested sum with one term more. -/
theorem IsLinear.sum_next (h : (Diagram.sum sign a rest).IsLinear) (hd : d.IsLinear) :
    (Diagram.sum sign a (rest ++ [(next, d)])).IsLinear := by
  have hlast : ∀ p ∈ [(next, d)], p.2.IsLinear := List.forall_mem_singleton.mpr hd
  cases h with
  | scalar hs =>
    obtain ⟨hsa, hsrest⟩ := isScalar_sum_iff.mp hs
    exact .sum (.scalar hsa) (List.forall_mem_append.mpr ⟨fun p hp => .scalar (hsrest p hp), hlast⟩)
  | general hg =>
    obtain ⟨g, hg, -⟩ := hg
    cases hg
  | sum ha hrest => exact .sum ha (List.forall_mem_append.mpr ⟨hrest, hlast⟩)

/-- An elementary sum with one term more. -/
theorem IsElementary.sum_next (h : (Diagram.sum sign a rest).IsElementary) (hd : d.IsElementary) :
    (Diagram.sum sign a (rest ++ [(next, d)])).IsElementary := by
  have hlast : ∀ p ∈ [(next, d)], p.2.IsElementary := List.forall_mem_singleton.mpr hd
  cases h with
  | scalar hs =>
    obtain ⟨hsa, hsrest⟩ := isScalar_sum_iff.mp hs
    exact .sum (.scalar hsa) (List.forall_mem_append.mpr ⟨fun p hp => .scalar (hsrest p hp), hlast⟩)
  | general hg => cases hg
  | sum ha hrest => exact .sum ha (List.forall_mem_append.mpr ⟨hrest, hlast⟩)

/-- A contraction of two general tensors has the open indices of the first as outputs and those of
the second as inputs. -/
structure SplitsIndices (left right first second : List Index) : Prop where
  /-- No index stands twice. -/
  nodup : (left ++ right).Nodup
  /-- The outputs are the indices that only the first has. -/
  mem_left : ∀ i, i ∈ left ↔ i ∈ first ∧ i ∉ second
  /-- The inputs are the indices that only the second has. -/
  mem_right : ∀ i, i ∈ right ↔ i ∈ second ∧ i ∉ first

/-- Wherever a diagram is the product of two general tensors, the lists are split between them. -/
def SplitsAt (left right : List Index) (d : Diagram) : Prop :=
  ∀ x y gx gy, d = .pair x y → x.general? = some gx → y.general? = some gy →
    SplitsIndices left right gx.term.indices gy.term.indices

/-- A step of a lowered assignment. -/
structure IsPlanarStep (lhs rhs : Diagram) (isDefinition : Bool) : Prop where
  /-- The step is planar. -/
  planar : (assign lhs rhs isDefinition).checkPlanar = .ok ()
  /-- The right hand side is elementary. -/
  elementary : rhs.IsElementary
  /-- A contraction has the open indices of its factors on either side. -/
  splits : SplitsAt (WantedOrder.ofLhs lhs).left (WantedOrder.ofLhs lhs).right rhs

/-- All definitions of an emission are steps. -/
def PlanarSteps (statements : List Diagram) : Prop :=
  ∀ s ∈ statements, ∃ lhs rhs isDefinition,
    s = assign lhs rhs isDefinition ∧ IsPlanarStep lhs rhs isDefinition

/-! ## Products of general tensors -/

/-- A product of two general tensors is not a scalar, and not a general tensor itself. -/
theorem simpleOrders?_pair_of_general {y : Diagram} {gx gy : GeneralTensor} (hnx : x.IsNormal)
    (hx : x.general? = some gx) (hy : y.general? = some gy) : (pair x y).simpleOrders? = none := by
  have hs : ¬ (pair x y).isScalar = true := by
    intro hs
    have hboth : x.isScalar = true ∧ y.isScalar = true := by simpa [isScalar, allScalar] using hs
    exact hnx.not_isScalar hx hboth.1
  rw [simpleOrders?, if_neg hs, Option.map_eq_none_iff]
  rcases hg : (pair x y).general? with _ | g
  · rfl
  · rcases general?_pair_cases hg with ⟨g', -, -, hnone, -⟩ | ⟨g', -, -, hnone, -⟩
    · rw [hnone] at hy
      cases hy
    · rw [hnone] at hx
      cases hx

/-- What is simple is not split. -/
theorem IsNormal.splitsAt_of_simple (hd : d.IsNormal) {orders : List (List Index)}
    (h : d.simpleOrders? = some orders) (left right : List Index) : SplitsAt left right d := by
  rintro x y gx gy rfl hx hy
  rw [simpleOrders?_pair_of_general hd.of_pair.1 hx hy] at h
  cases h

/-- A multiple is not split. -/
theorem IsNormal.splitsAt_of_isScalar (hd : (Diagram.pair a b).IsNormal)
    (hs : a.isScalar = true ∨ b.isScalar = true) (left right : List Index) :
    SplitsAt left right (Diagram.pair a b) := by
  intro x y gx gy heq hx hy
  obtain ⟨rfl, rfl⟩ : a = x ∧ b = y := by
    simpa [Diagram.pair] using heq
  rcases hs with hs | hs
  · exact absurd hs (hd.of_pair.1.not_isScalar hx)
  · exact absurd hs (hd.of_pair.2.not_isScalar hy)

/-- A nested sum is not split. -/
theorem IsLinear.splitsAt (h : d.IsLinear) (hd : d.IsNormal) (left right : List Index) :
    SplitsAt left right d := by
  cases h with
  | scalar hs => exact hd.splitsAt_of_simple (by rw [simpleOrders?, if_pos hs]) left right
  | general hg =>
    obtain ⟨g, hg, -⟩ := hg
    have hsimple : d.simpleOrders? = some g.term.admissibleOrders := by
      rw [simpleOrders?, if_neg (hd.not_isScalar hg), hg]
      rfl
    exact hd.splitsAt_of_simple hsimple left right
  | sum ha hrest =>
    intro x y gx gy heq
    cases heq

/-- A general tensor without traces has the order in which the legs go around its reference. -/
theorem IsNormal.cyclicOrder_isRotated {g : GeneralTensor} (hd : d.IsNormal)
    (hg : d.general? = some g) (hnd : g.term.indices.Nodup) (h : d.Admits order) :
    g.term.cyclicOrder ~r order := by
  rw [admits_iff (admissibleOrders_of_general hg (hd.not_isScalar hg)),
    admissibleOrders_of_nodup hnd] at h
  simpa using h

/-- A reference without repeated indices admits the order in which its legs go around it. -/
theorem admits_ref {t : TensorRef} (hnd : t.indices.Nodup) : (ref t).Admits t.cyclicOrder :=
  ⟨_, rfl, t.cyclicOrder, by simp [simpleOrders?, isScalar, general?,
    admissibleOrders_of_nodup hnd], List.IsRotated.refl _⟩

/-! ## Single steps -/

/-- What stands in the place of a factor that is wanted in an order. -/
structure FitsOrder (order : List Index) (d : Diagram) : Prop where
  /-- It is a normal expression. -/
  normal : d.IsNormal
  /-- It is a nested sum. -/
  linear : d.IsLinear
  /-- It admits the order. -/
  admits : d.Admits order

/-- An assignment is planar if the right hand side admits the order of the left hand side. -/
theorem IsNormal.checkPlanar_of_admits {lhs rhs : Diagram} {isDefinition : Bool}
    (hrhs : rhs.IsNormal) (hlhs : lhs.lhsOrder = .ok order) (h : rhs.Admits order) :
    (assign lhs rhs isDefinition).checkPlanar = .ok () := by
  rw [checkPlanar]
  by_cases htensor : rhs.isTensor = true
  · exact (hrhs.checkAssignment_iff htensor).mpr ⟨order, hlhs, h⟩
  · rw [checkAssignment, if_neg htensor]
    rfl

/-- What is emitted stays a sequence of planar steps. -/
def KeepsSteps (e e' : Emission) : Prop :=
  PlanarSteps e.definitions → PlanarSteps e'.definitions

theorem KeepsSteps.trans {e'' : Emission} (h : KeepsSteps e e') (h' : KeepsSteps e' e'') :
    KeepsSteps e e'' :=
  fun hsteps => h' (h hsteps)

/-- The definition of a temporary in an order that its right hand side admits is a step. -/
theorem define_steps {rhs : Diagram} {left right : List Index} (hrhs : rhs.IsNormal)
    (hadm : rhs.Admits (left ++ right.reverse)) (helem : rhs.IsElementary)
    (hsplit : SplitsAt left right rhs) :
    KeepsSteps e (e.define rhs left right).2 ∧
      FitsOrder (left ++ right.reverse) (e.define rhs left right).1 := by
  set t : TensorRef := ⟨.handle (e.table.next .temporary), left, right, false⟩ with ht
  have hnd : t.indices.Nodup := t.cyclicOrder_perm.nodup_iff.mp (hrhs.nodup_of_admits hadm)
  have hlhs : (ref t).lhsOrder = .ok (left ++ right.reverse) :=
    (show (ref t).IsPlainLhs from hnd).lhsOrder
  refine ⟨fun hsteps s hs => ?_, .ref t, .general ⟨_, rfl, hnd⟩, admits_ref hnd⟩
  rcases List.mem_append.mp hs with hs | hs
  · exact hsteps s hs
  · exact ⟨ref t, rhs, true, List.mem_singleton.mp hs, hrhs.checkPlanar_of_admits hlhs hadm, helem,
      hsplit⟩

/-- A factor as a general tensor. -/
theorem asGeneral_steps (h : d.asGeneral target e = (x, e')) (hd : FitsOrder target.cyclicOrder d) :
    FitsOrder target.cyclicOrder x ∧ x.IsTraceless ∧ KeepsSteps e e' := by
  rw [asGeneral] at h
  split_ifs at h with hgeneral
  · obtain ⟨rfl, rfl⟩ := Prod.mk.inj h
    refine ⟨hd, ?_, id⟩
    obtain ⟨g, hg⟩ := Option.isSome_iff_exists.mp hgeneral
    cases hd.linear with
    | scalar hs => exact absurd hs (hd.normal.not_isScalar hg)
    | general htraceless => exact htraceless
    | sum ha hrest => cases hg
  · obtain ⟨hsteps', hfits⟩ := define_steps (e := e) hd.normal hd.admits hd.linear.isElementary
      (hd.linear.splitsAt hd.normal target.left target.right)
    have hx : (e.define d target.left target.right).1 = x := congrArg Prod.fst h
    have he : (e.define d target.left target.right).2 = e' := congrArg Prod.snd h
    rw [he] at hsteps'
    rw [hx] at hfits
    refine ⟨hfits, ?_, hsteps'⟩
    rw [← hx]
    refine ⟨_, general?_define .., ?_⟩
    exact (List.Perm.append_left target.left (List.reverse_perm target.right)).nodup_iff.mp
      (hd.normal.nodup_of_admits hd.admits)

/-- The contraction of two general tensors without traces. -/
theorem contraction_spec {p q : Diagram} {i j : List Index} {k : PairContraction Index}
    (hp : FitsOrder i p) (hq : FitsOrder j q) (hptr : p.IsTraceless) (hqtr : q.IsTraceless)
    (hk : IsPlanarPair i j k) :
    (pair p q).Admits k.openOrder ∧ (pair p q).IsElementary ∧
      SplitsAt k.openFirst k.openSecond.reverse (pair p q) := by
  refine ⟨?_, .contraction hptr hqtr, ?_⟩
  · exact (hp.normal.admits_pair_iff hq.normal _).mpr
      ⟨i, j, k, hp.admits, hq.admits, hk, List.IsRotated.refl _⟩
  · intro x y gx gy heq hx hy
    obtain ⟨rfl, rfl⟩ : p = x ∧ q = y := by simpa [pair] using heq
    have hmem : ∀ {d : Diagram} {g : GeneralTensor} {order : List Index}, FitsOrder order d →
        d.IsTraceless → d.general? = some g → ∀ l, l ∈ order ↔ l ∈ g.term.indices := by
      intro d g order hd htr hg l
      obtain ⟨g', hg', hnd⟩ := htr
      obtain rfl : g' = g := Option.some.inj (hg'.symm.trans hg)
      rw [← (hd.normal.cyclicOrder_isRotated hg hnd hd.admits).mem_iff,
        g'.term.cyclicOrder_perm.mem_iff]
    refine ⟨?_, fun l => ?_, fun l => ?_⟩
    · have hperm : k.openOrder.Perm (k.openFirst ++ k.openSecond.reverse) :=
        List.Perm.append_left _ (List.reverse_perm _).symm
      exact hperm.nodup_iff.mp (hk.nodup_openOrder (hp.normal.nodup_of_admits hp.admits)
        (hq.normal.nodup_of_admits hq.admits))
    · rw [hk.mem_openFirst_iff, hmem hp hptr hx, hmem hq hqtr hy]
    · rw [List.mem_reverse, hk.mem_openSecond_iff, hmem hp hptr hx, hmem hq hqtr hy]

/-- Joining two factors leaves an elementary product that admits the open order of their
contraction. -/
theorem JoinsTo.spec {c : PairContraction Index} {z : Diagram} (h : JoinsTo target c e a b z e')
    (ha : FitsOrder c.firstTarget.cyclicOrder a) (hb : FitsOrder c.secondTarget.cyclicOrder b)
    (hc : IsPlanarPair c.firstTarget.cyclicOrder c.secondTarget.cyclicOrder c) :
    KeepsSteps e e' ∧ (z.IsNormal ∧ z.Admits c.openOrder) ∧
      (z.IsElementary ∧ SplitsAt target.left target.right z) ∧
      (target.isTemporary = true → z.IsLinear) := by
  -- a temporary is a reference: it is not a product, and admits the order of its definition
  have htemporary : ∀ {e : Emission} {rhs : Diagram} {k : PairContraction Index},
      rhs.IsNormal → rhs.Admits k.openOrder → rhs.IsElementary →
      SplitsAt k.openFirst k.openSecond.reverse rhs → k.openOrder ~r c.openOrder →
      ∀ z e', e.define rhs k.openFirst k.openSecond.reverse = (z, e') →
        KeepsSteps e e' ∧ (z.IsNormal ∧ z.Admits c.openOrder) ∧
          (z.IsElementary ∧ SplitsAt target.left target.right z) ∧
          (target.isTemporary = true → z.IsLinear) := by
    intro e rhs k hrhs hadm helem hsplit hrot z e' hz
    have horder : k.openFirst ++ k.openSecond.reverse.reverse = k.openOrder := by
      rw [List.reverse_reverse, PairContraction.openOrder]
    obtain ⟨hsteps', hfits⟩ := define_steps (e := e) hrhs (horder.symm ▸ hadm) helem hsplit
    rw [hz, horder] at hfits
    rw [hz] at hsteps'
    exact ⟨hsteps', ⟨hfits.normal, hfits.admits.rotated hrot⟩,
      ⟨hfits.linear.isElementary, hfits.linear.splitsAt hfits.normal _ _⟩, fun _ => hfits.linear⟩
  have hnormal : (pair a b).IsNormal := .pair ha.normal hb.normal
  have hadm : (pair a b).Admits c.openOrder := (ha.normal.admits_pair_iff hb.normal _).mpr
    ⟨_, _, c, ha.admits, hb.admits, hc, List.IsRotated.refl _⟩
  have hmultiple : a.isScalar = true ∨ b.isScalar = true → (pair a b).IsElementary := by
    rintro (hs | hs)
    · exact .multiple hs hb.linear
    · exact .multipleRight hs ha.linear
  cases h with
  | scaledTemporary hs ht =>
    exact htemporary hnormal hadm (hmultiple hs) (hnormal.splitsAt_of_isScalar hs _ _)
      (List.IsRotated.refl _) _ _ rfl
  | scaled hs ht =>
    exact ⟨id, ⟨hnormal, hadm⟩, ⟨hmultiple hs, hnormal.splitsAt_of_isScalar hs _ _⟩,
      fun h => absurd h (by simp [ht])⟩
  | contractedTemporary hs hx hy hpq =>
    obtain ⟨hxfits, hxtr, hsteps₁⟩ := asGeneral_steps hx ha
    obtain ⟨hyfits, hytr, hsteps₂⟩ := asGeneral_steps hy hb
    rcases hpq with ⟨rfl, rfl, rfl⟩ | ⟨rfl, rfl, rfl⟩
    · obtain ⟨hadm, helem, hsplit⟩ := contraction_spec hxfits hyfits hxtr hytr hc
      obtain ⟨hsteps, hz⟩ := htemporary (.pair hxfits.normal hyfits.normal) hadm helem hsplit
        (List.IsRotated.refl _) _ _ rfl
      exact ⟨(hsteps₁.trans hsteps₂).trans hsteps, hz⟩
    · obtain ⟨hadm, helem, hsplit⟩ := contraction_spec hyfits hxfits hytr hxtr hc.swap
      obtain ⟨hsteps, hz⟩ := htemporary (.pair hyfits.normal hxfits.normal) hadm helem hsplit
        c.openOrder_swap _ _ rfl
      exact ⟨(hsteps₁.trans hsteps₂).trans hsteps, hz⟩
  | contracted hs ht hx hy hpq hleft hright =>
    obtain ⟨hxfits, hxtr, hsteps₁⟩ := asGeneral_steps hx ha
    obtain ⟨hyfits, hytr, hsteps₂⟩ := asGeneral_steps hy hb
    rw [hleft, hright]
    rcases hpq with ⟨rfl, rfl, rfl⟩ | ⟨rfl, rfl, rfl⟩
    · obtain ⟨hadm, helem, hsplit⟩ := contraction_spec hxfits hyfits hxtr hytr hc
      exact ⟨hsteps₁.trans hsteps₂, ⟨.pair hxfits.normal hyfits.normal, hadm⟩, ⟨helem, hsplit⟩,
        fun h => absurd h (by simp [ht])⟩
    · obtain ⟨hadm, helem, hsplit⟩ := contraction_spec hyfits hxfits hytr hxtr hc.swap
      exact ⟨hsteps₁.trans hsteps₂,
        ⟨.pair hyfits.normal hxfits.normal, hadm.rotated c.openOrder_swap⟩,
        ⟨helem, hsplit⟩, fun h => absurd h (by simp [ht])⟩

/-! ## Whole expressions -/

/-- The orders of a sum with one term more. -/
theorem IsNormal.admits_sum_next (h : (Diagram.sum sign a (rest ++ [(next, d)])).IsNormal)
    (order : List Index) :
    (Diagram.sum sign a (rest ++ [(next, d)])).Admits order ↔
      (Diagram.sum sign a rest).Admits order ∧ d.Admits order := by
  rw [h.admits_sum_iff, (isNormal_sum_next.mp h).1.admits_sum_iff]
  simp only [List.forall_mem_append, List.forall_mem_singleton, and_assoc]

/-- A product admits the order for which its contraction was chosen. -/
theorem IsChoice.admits_pair {wanted : List Index} {c : PairContraction Index}
    (h : IsChoice wanted a b c) (hd : d = .pair a b ∨ d = .pair b a) (hnormal : d.IsNormal) :
    d.Admits wanted := by
  rcases hd with rfl | rfl
  · exact (hnormal.of_pair.1.admits_pair_iff hnormal.of_pair.2 wanted).mpr
      ⟨_, _, c, h.admits.1, h.admits.2, h.planar, h.order⟩
  · exact (hnormal.of_pair.1.admits_pair_iff hnormal.of_pair.2 wanted).mpr
      ⟨_, _, c.swap, h.swap.admits.1, h.swap.admits.2, h.swap.planar, h.swap.order⟩

/-- The factors of a normal product, in either order. -/
theorem IsNormal.of_pair_or (h : d.IsNormal) (hd : d = Diagram.pair a b ∨ d = Diagram.pair b a) :
    a.IsNormal ∧ b.IsNormal := by
  rcases hd with rfl | rfl
  · exact h.of_pair
  · exact h.of_pair.symm

/-- An expression that is lowered towards a temporary becomes a nested sum in the wanted order. -/
theorem LowersTo.linear (h : LowersTo target e d x e') (hd : d.IsNormal)
    (ht : target.isTemporary = true) (hadm : d.Admits target.cyclicOrder) :
    FitsOrder target.cyclicOrder x ∧ KeepsSteps e e' := by
  induction h with
  | scalar hs => exact ⟨⟨hd, .scalar hs, hadm⟩, id⟩
  | general hs hg hkeep =>
    have hnd := hkeep.resolve_left (by simp [ht])
    exact ⟨⟨hd, .general ⟨_, hg, hnd⟩, hadm⟩, id⟩
  | @traced target e d g hs hg _ htrace =>
    have hsimple : d.simpleOrders? = some g.term.admissibleOrders := by
      rw [simpleOrders?, if_neg hs, hg]
      rfl
    have helem : d.IsElementary := .general (by rw [isGeneral, hg]; rfl)
    exact (define_steps hd hadm helem (hd.splitsAt_of_simple hsimple _ _)).symm
  | @sumFirst target e e' sign a a' ha ih =>
    have hfirst := (hd.admits_sum_iff _).mp hadm
    obtain ⟨hfits, hsteps'⟩ := ih (isNormal_sum_iff.mp hd).1 ht hfirst.1
    have hnormal : (Diagram.sum sign a' []).IsNormal := .sum hfits.normal (by simp)
    exact ⟨⟨hnormal, .sum hfits.linear (by simp),
      (hnormal.admits_sum_iff _).mpr ⟨hfits.admits, by simp⟩⟩, hsteps'⟩
  | @sumNext target e e₁ e' sign next a a' d d' rest rest' hsum hd' ihsum ihd =>
    obtain ⟨hnsum, hnd⟩ := isNormal_sum_next.mp hd
    obtain ⟨hasum, had⟩ := (hd.admits_sum_next _).mp hadm
    obtain ⟨hfront, hsteps₁⟩ := ihsum hnsum ht hasum
    obtain ⟨hlast, hsteps'⟩ := ihd hnd ht had
    have hnormal : (Diagram.sum sign a' (rest' ++ [(next, d')])).IsNormal :=
      isNormal_sum_next.mpr ⟨hfront.normal, hlast.normal⟩
    exact ⟨⟨hnormal, hfront.linear.sum_next hlast.linear,
      (hnormal.admits_sum_next _).mpr ⟨hfront.admits, hlast.admits⟩⟩, hsteps₁.trans hsteps'⟩
  | pair hpair hsimple hc ha hb hjoin iha ihb =>
    obtain ⟨hna, hnb⟩ := hd.of_pair_or hpair
    obtain ⟨hx, hsteps₁⟩ := iha hna rfl hc.admits.1
    obtain ⟨hy, hsteps₂⟩ := ihb hnb rfl hc.admits.2
    obtain ⟨hsteps', ⟨hnormal, hz⟩, -, hlinear⟩ := hjoin.spec hx hy hc.planar
    exact ⟨⟨hnormal, hlinear ht, hz.rotated hc.order⟩, (hsteps₁.trans hsteps₂).trans hsteps'⟩

/-- A right hand side becomes an elementary expression, with the order that it is to have.  Where
the target has to be met, at a contraction, it has this order. -/
theorem LowersTo.elementary (h : LowersTo target e d x e') (hd : d.IsNormal)
    (ht : target.isTemporary = false) (hadm : d.Admits order)
    (horder : ∀ d : Diagram, d.IsNormal → d.Admits order → d.Admits target.cyclicOrder →
      order ~r target.cyclicOrder) :
    (x.IsNormal ∧ x.Admits order) ∧ (x.IsElementary ∧ SplitsAt target.left target.right x) ∧
      KeepsSteps e e' := by
  have hsplit : ∀ {sign : Sign} {a : Diagram} {rest : List (Sign × Diagram)},
      SplitsAt target.left target.right (Diagram.sum sign a rest) := by
    intro sign a rest x y gx gy heq
    cases heq
  induction h with
  | scalar hs =>
    have hsimple := hd.splitsAt_of_simple (by rw [simpleOrders?, if_pos hs])
    exact ⟨⟨hd, hadm⟩, ⟨.scalar hs, hsimple _ _⟩, id⟩
  | @general target e d g hs hg hkeep =>
    have hsimple : d.simpleOrders? = some g.term.admissibleOrders := by
      rw [simpleOrders?, if_neg hs, hg]
      rfl
    exact ⟨⟨hd, hadm⟩, ⟨.general (by rw [isGeneral, hg]; rfl), hd.splitsAt_of_simple hsimple _ _⟩,
      id⟩
  | traced hs hg htemporary htrace => rw [ht] at htemporary; cases htemporary
  | @sumFirst target e e' sign a a' ha ih =>
    have hfirst := (hd.admits_sum_iff _).mp hadm
    obtain ⟨⟨hna, hadm'⟩, ⟨helem, -⟩, hsteps'⟩ :=
      ih (isNormal_sum_iff.mp hd).1 ht hfirst.1 horder hsplit
    have hnormal : (Diagram.sum sign a' []).IsNormal := .sum hna (by simp)
    exact ⟨⟨hnormal, (hnormal.admits_sum_iff _).mpr ⟨hadm', by simp⟩⟩,
      ⟨.sum helem (by simp), hsplit⟩, hsteps'⟩
  | @sumNext target e e₁ e' sign next a a' d d' rest rest' hsum hd' ihsum ihd =>
    obtain ⟨hnsum, hnd⟩ := isNormal_sum_next.mp hd
    obtain ⟨hasum, had⟩ := (hd.admits_sum_next _).mp hadm
    obtain ⟨⟨hn₁, hadm₁⟩, ⟨helem₁, -⟩, hsteps₁⟩ := ihsum hnsum ht hasum horder hsplit
    obtain ⟨⟨hn₂, hadm₂⟩, ⟨helem₂, -⟩, hsteps'⟩ := ihd hnd ht had horder hsplit
    have hnormal : (Diagram.sum sign a' (rest' ++ [(next, d')])).IsNormal :=
      isNormal_sum_next.mpr ⟨hn₁, hn₂⟩
    exact ⟨⟨hnormal, (hnormal.admits_sum_next _).mpr ⟨hadm₁, hadm₂⟩⟩,
      ⟨helem₁.sum_next helem₂, hsplit⟩, hsteps₁.trans hsteps'⟩
  | pair hpair hsimple hc ha hb hjoin =>
    obtain ⟨hna, hnb⟩ := hd.of_pair_or hpair
    obtain ⟨hx, hsteps₁⟩ := ha.linear hna rfl hc.admits.1
    obtain ⟨hy, hsteps₂⟩ := hb.linear hnb rfl hc.admits.2
    obtain ⟨hsteps', ⟨hnormal, hz⟩, helem, -⟩ := hjoin.spec hx hy hc.planar
    have hrot := horder _ hd hadm (hc.admits_pair hpair hd)
    exact ⟨⟨hnormal, hz.rotated (hc.order.trans hrot.symm)⟩, helem,
      (hsteps₁.trans hsteps₂).trans hsteps'⟩

/-! ## The order of a left hand side -/

/-- If a right hand side admits the order of a left hand side and that of its target, then these are
the same: the target is only another one if it has repeated indices, or none at all. -/
theorem lhsOrder_isRotated {lhs : Diagram} (hlhs : lhs.lhsOrder = .ok order) (hd : d.IsNormal)
    (hadm : d.Admits order) (htarget : d.Admits (WantedOrder.ofLhs lhs).cyclicOrder) :
    order ~r (WantedOrder.ofLhs lhs).cyclicOrder := by
  by_cases hplain : lhs.IsPlainLhs
  · rw [hplain.lhsOrder, Except.ok.injEq] at hlhs
    rw [hlhs]
  · have hnil : (WantedOrder.ofLhs lhs).cyclicOrder = [] := by
      cases lhs with
      | ref t =>
        exact absurd (t.cyclicOrder_perm.nodup_iff.mp (hd.nodup_of_admits htarget)) hplain
      | _ => rfl
    rw [hnil] at htarget ⊢
    refine List.isRotated_nil_iff.mpr (List.eq_nil_iff_forall_not_mem.mpr fun i hi => ?_)
    exact List.not_mem_nil ((hd.mem_iff_isOpen htarget i).mpr ((hd.mem_iff_isOpen hadm i).mp hi))

/-- Every step of a lowered assignment is elementary and planar: if an assignment is found planar
and lowered to a block, then all statements of the block are assignments that are found planar, with
elementary right hand sides, and a contraction of two general tensors has the open indices of the
first as outputs and those of the second as inputs. -/
theorem lowered_steps_planar {table table' : HandleTable} {lhs rhs : Diagram} {isDefinition : Bool}
    {statements : List Diagram} (hrhs : rhs.IsNormal)
    (hcheck : (assign lhs rhs isDefinition).checkPlanar = .ok ())
    (hlower : (assign lhs rhs isDefinition).lowerStatements table =
      .ok (block statements, table')) : PlanarSteps statements := by
  rw [lowerStatements, lowerAssignment] at hlower
  split_ifs at hlower with htensor
  · obtain ⟨⟨x, e⟩, hx, hblock⟩ := bind_eq_ok_iff.mp hlower
    obtain rfl : e.definitions ++ [assign lhs x isDefinition] = statements := by
      simpa using congrArg Prod.fst (Except.ok.inj hblock)
    obtain ⟨order, horder, hadm⟩ := (hrhs.checkAssignment_iff htensor).mp hcheck
    have hfalse : (WantedOrder.ofLhs lhs).isTemporary = false := by
      cases lhs <;> rfl
    obtain ⟨⟨hnormal, hadm'⟩, ⟨helem, hsplit⟩, hsteps⟩ :=
      (hrhs.lowersTo hx).elementary hrhs hfalse hadm
      fun d hd hdadm hdtarget => lhsOrder_isRotated horder hd hdadm hdtarget
    intro s hs
    rcases List.mem_append.mp hs with hs | hs
    · exact hsteps (fun s hs => absurd hs List.not_mem_nil) s hs
    · exact ⟨lhs, x, isDefinition, List.mem_singleton.mp hs,
        hnormal.checkPlanar_of_admits horder hadm', helem, hsplit⟩
  · cases hlower

/-- The planar triangle is lowered to two contractions into temporaries, the second of which is then
brought to the order of the left hand side. -/
theorem lowered_steps_planar_triangle : ∃ first second last table,
    (assign (.ref ⟨.name "C", [.number 1], [.number 2], false⟩) triangle true).checkPlanar =
      .ok () ∧
    (assign (.ref ⟨.name "C", [.number 1], [.number 2], false⟩) triangle
      true).lowerStatements .empty = .ok (block [first, second, last], table) ∧
    PlanarSteps [first, second, last] := by
  have hcheck : (assign (.ref ⟨.name "C", [.number 1], [.number 2], false⟩) triangle
      true).checkPlanar = .ok () := rfl
  exact ⟨_, _, _, _, hcheck, rfl, lowered_steps_planar isNormal_triangle hcheck rfl⟩

end Diagram

end TensorDiagram
