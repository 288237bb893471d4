import TensorDiagram.Proofs.LoweredSteps
import TensorDiagram.Proofs.Monomials

/-!
# Lowering conserves indices

In a product every index is open, if it appears once, or contracted, if it appears twice.  When a
product is lowered, its references are spread over several statements, and temporaries carry indices
from one statement to another.

A temporary has the open indices of its definition (`IsTemporaryDefinition`).  So a definition takes
an index that is contracted in it out of the expression, both times, and leaves all others as they
are: what an expression has of an index is what its lowered form has, and two more for each
definition that contracts the index (`Conserves`).  This is kept when expressions are lowered one
after another, and in the end it says that every contraction is done by exactly one statement
(`lowering_conserves_indices`).
-/

open TensorDiagram.Circle (PairContraction IsPlanarPair)

namespace TensorDiagram

namespace Diagram

variable {d x : Diagram} {e e' : Emission} {left right : List Index} {target : WantedOrder}

/-- The factors of a product without sums, in either order. -/
theorem IsMonomial.of_pair_or {a b : Diagram} (h : d.IsMonomial)
    (hd : d = Diagram.pair a b ∨ d = Diagram.pair b a) : a.IsMonomial ∧ b.IsMonomial := by
  have hpair : ∀ {x y : Diagram}, (Diagram.pair x y).IsMonomial → x.IsMonomial ∧ y.IsMonomial := by
    intro x y hxy
    cases hxy with
    | factor hfactor => cases hfactor
    | pair hx hy => exact ⟨hx, hy⟩
  rcases hd with rfl | rfl
  · exact hpair h
  · exact (hpair h).symm

/-! ## Open indices -/

/-- The open indices of an expression without sums are those that appear once. -/
theorem IsMonomial.freeIndices_eq (hd : d.IsMonomial) :
    d.freeIndices = once (d.tensors.flatMap TensorRef.indices) := by
  cases hd with
  | factor hd => cases hd <;> rfl
  | pair ha hb => rfl

theorem IsMonomial.mem_freeIndices_iff (hd : d.IsMonomial) {i : Index} :
    i ∈ d.freeIndices ↔ d.indexBag.count i = 1 := by
  rw [hd.freeIndices_eq, mem_once, indexBag, Multiset.coe_count]

theorem IsMonomial.nodup_freeIndices (hd : d.IsMonomial) : d.freeIndices.Nodup := by
  rw [hd.freeIndices_eq]
  exact nodup_once _

/-- An order that is admitted consists of the open indices. -/
theorem IsMonomial.perm_freeIndices (hd : d.IsMonomial) (hcount : ∀ i, d.indexBag.count i ≤ 2)
    (h : d.Admits (left ++ right.reverse)) : (left ++ right).Perm d.freeIndices := by
  have hperm : (left ++ right.reverse).Perm (left ++ right) :=
    List.Perm.append_left left (List.reverse_perm right)
  have hnd : (left ++ right).Nodup := hperm.nodup_iff.mp (hd.isNormal.nodup_of_admits h)
  refine (List.perm_ext_iff_of_nodup hnd hd.nodup_freeIndices).mpr fun i => ?_
  have hle := hcount i
  rw [← hperm.mem_iff, hd.isNormal.mem_iff_isOpen h, hd.isOpen_iff, hd.mem_freeIndices_iff]
  omega

/-! ## Conservation -/

/-- The indices on the right hand side of an assignment. -/
def rhsBag : Diagram → Multiset Index
  | assign _ rhs _ => rhs.indexBag
  | _ => 0

/-- Whether the index is contracted in the statement. -/
def contracts (i : Index) (s : Diagram) : Bool :=
  s.rhsBag.count i = 2

/-- The definition of a temporary by an expression, the open indices of which are those of the
temporary. -/
def IsTemporaryDefinition (s : Diagram) : Prop :=
  ∃ t x, s = assign (ref t) x true ∧ (∃ n, t.object = .handle ⟨.temporary, n⟩) ∧
    t.indices.Perm x.freeIndices

/-- Definitions of temporaries, together with an expression that refers to them, conserve the
indices of an expression. -/
structure Conserves (new : List Diagram) (d x : Diagram) : Prop where
  /-- There are no sums. -/
  isMonomial : x.IsMonomial
  /-- The definitions of temporaries. -/
  definitions : ∀ s ∈ new, s.IsTemporaryDefinition
  /-- No definition has an index more than twice. -/
  count_le : ∀ s ∈ new, ∀ i, s.rhsBag.count i ≤ 2
  /-- A definition takes out an index that it contracts. -/
  count_eq : ∀ i, d.indexBag.count i = x.indexBag.count i + 2 * new.countP (contracts i)

namespace Conserves

variable {new new' : List Diagram} {a b d x y z : Diagram}

theorem refl (hd : d.IsMonomial) : Conserves [] d d where
  isMonomial := hd
  definitions s hs := absurd hs List.not_mem_nil
  count_le s hs := absurd hs List.not_mem_nil
  count_eq i := by simp

theorem trans (h : Conserves new d x) (h' : Conserves new' x z) : Conserves (new ++ new') d z where
  isMonomial := h'.isMonomial
  definitions := List.forall_mem_append.mpr ⟨h.definitions, h'.definitions⟩
  count_le := List.forall_mem_append.mpr ⟨h.count_le, h'.count_le⟩
  count_eq i := by
    rw [h.count_eq i, h'.count_eq i, List.countP_append]
    ring

/-- The factors of a product are lowered one after another. -/
theorem pair (ha : Conserves new a x) (hb : Conserves new' b y) :
    Conserves (new ++ new') (Diagram.pair a b) (Diagram.pair x y) where
  isMonomial := .pair ha.isMonomial hb.isMonomial
  definitions := List.forall_mem_append.mpr ⟨ha.definitions, hb.definitions⟩
  count_le := List.forall_mem_append.mpr ⟨ha.count_le, hb.count_le⟩
  count_eq i := by
    rw [indexBag_pair, indexBag_pair, Multiset.count_add, Multiset.count_add, ha.count_eq i,
      hb.count_eq i, List.countP_append]
    ring

/-- The order of the factors does not matter. -/
theorem of_pair_or (h : Conserves new (Diagram.pair a b) x)
    (hd : d = Diagram.pair a b ∨ d = Diagram.pair b a) : Conserves new d x := by
  rcases hd with rfl | rfl
  · exact h
  · refine ⟨h.isMonomial, h.definitions, h.count_le, fun i => ?_⟩
    rw [← h.count_eq i, indexBag_pair, indexBag_pair, add_comm]

/-- An index does not appear more often than before. -/
theorem count_le_two (h : Conserves new d x) (hcount : ∀ i, d.indexBag.count i ≤ 2) (i : Index) :
    x.indexBag.count i ≤ 2 := by
  have hle := hcount i
  have heq := h.count_eq i
  omega

/-- The open indices stay. -/
theorem perm_freeIndices (h : Conserves new d x) (hd : d.IsMonomial)
    (hcount : ∀ i, d.indexBag.count i ≤ 2) : x.freeIndices.Perm d.freeIndices := by
  refine (List.perm_ext_iff_of_nodup h.isMonomial.nodup_freeIndices hd.nodup_freeIndices).mpr
    fun i => ?_
  have hle := hcount i
  have heq := h.count_eq i
  rw [h.isMonomial.mem_freeIndices_iff, hd.mem_freeIndices_iff]
  omega

end Conserves

/-- The definition of a temporary in an order that its right hand side admits. -/
theorem IsMonomial.conserves_define (hd : d.IsMonomial) (hcount : ∀ i, d.indexBag.count i ≤ 2)
    (e : Emission) (h : d.Admits (left ++ right.reverse)) :
    Conserves [.assign (e.define d left right).1 d true] d (e.define d left right).1 := by
  set t : TensorRef := ⟨.handle (e.table.next .temporary), left, right, false⟩ with ht
  have hperm : t.indices.Perm d.freeIndices := hd.perm_freeIndices hcount h
  refine ⟨.factor (.ref t), List.forall_mem_singleton.mpr ⟨t, d, rfl, ⟨_, rfl⟩, hperm⟩,
    List.forall_mem_singleton.mpr hcount, fun i => ?_⟩
  have hmem : i ∈ t.indices ↔ d.indexBag.count i = 1 := by
    rw [hperm.mem_iff, hd.mem_freeIndices_iff]
  have hnd := List.nodup_iff_count_le_one.mp (hperm.nodup_iff.mpr hd.nodup_freeIndices) i
  have hbag : (ref t).indexBag.count i = t.indices.count i := by simp [indexBag, tensors]
  have hle := hcount i
  rw [← List.count_pos_iff] at hmem
  change d.indexBag.count i =
    (ref t).indexBag.count i + 2 * [assign (ref t) d true].countP (contracts i)
  rw [hbag, List.countP_singleton, contracts, rhsBag]
  split_ifs with htwo
  · rw [decide_eq_true_iff] at htwo
    omega
  · rw [decide_eq_true_iff] at htwo
    omega

/-- What is emitted from one point to another, together with an expression, conserves the indices of
an expression. -/
def EmitsConserving (e e' : Emission) (d x : Diagram) : Prop :=
  ∃ new, e'.definitions = e.definitions ++ new ∧ Conserves new d x

namespace EmitsConserving

variable {e e₁ e' : Emission} {a b d x y z : Diagram}

theorem refl (hd : d.IsMonomial) : EmitsConserving e e d d :=
  ⟨[], (List.append_nil _).symm, .refl hd⟩

theorem trans (h : EmitsConserving e e₁ d x) (h' : EmitsConserving e₁ e' x z) :
    EmitsConserving e e' d z := by
  obtain ⟨new, hnew, hd⟩ := h
  obtain ⟨new', hnew', hx⟩ := h'
  exact ⟨new ++ new', by rw [hnew', hnew, List.append_assoc], hd.trans hx⟩

theorem pair (ha : EmitsConserving e e₁ a x) (hb : EmitsConserving e₁ e' b y) :
    EmitsConserving e e' (Diagram.pair a b) (Diagram.pair x y) := by
  obtain ⟨new, hnew, ha⟩ := ha
  obtain ⟨new', hnew', hb⟩ := hb
  exact ⟨new ++ new', by rw [hnew', hnew, List.append_assoc], ha.pair hb⟩

theorem of_pair_or (h : EmitsConserving e e' (Diagram.pair a b) x)
    (hd : d = Diagram.pair a b ∨ d = Diagram.pair b a) : EmitsConserving e e' d x := by
  obtain ⟨new, hnew, h⟩ := h
  exact ⟨new, hnew, h.of_pair_or hd⟩

theorem define (hd : d.IsMonomial) (hcount : ∀ i, d.indexBag.count i ≤ 2)
    (h : d.Admits (left ++ right.reverse)) :
    EmitsConserving e (e.define d left right).2 d (e.define d left right).1 :=
  ⟨_, rfl, hd.conserves_define hcount e h⟩

theorem isMonomial (h : EmitsConserving e e' d x) : x.IsMonomial := by
  obtain ⟨_, -, h⟩ := h
  exact h.isMonomial

theorem count_le_two (h : EmitsConserving e e' d x)
    (hcount : ∀ i, d.indexBag.count i ≤ 2) (i : Index) : x.indexBag.count i ≤ 2 := by
  obtain ⟨_, -, h⟩ := h
  exact h.count_le_two hcount i

end EmitsConserving

/-! ## Lowering -/

/-- A factor as a general tensor. -/
theorem asGeneral_conserving (h : d.asGeneral target e = (x, e')) (hd : d.IsMonomial)
    (hcount : ∀ i, d.indexBag.count i ≤ 2) (hadm : d.Admits target.cyclicOrder) :
    EmitsConserving e e' d x := by
  rw [asGeneral] at h
  split_ifs at h with hgeneral
  · obtain ⟨rfl, rfl⟩ := Prod.mk.inj h
    exact .refl hd
  · have hdefine := EmitsConserving.define (e := e) hd hcount hadm
    rwa [h] at hdefine

/-- Joining two lowered factors conserves the indices of their product. -/
theorem JoinsTo.conserving {c : PairContraction Index} {a b z : Diagram}
    (h : JoinsTo target c e a b z e') (ha : a.IsMonomial) (hb : b.IsMonomial)
    (hcount : ∀ i, (pair a b).indexBag.count i ≤ 2) (hfa : FitsOrder c.firstTarget.cyclicOrder a)
    (hfb : FitsOrder c.secondTarget.cyclicOrder b)
    (hc : IsPlanarPair c.firstTarget.cyclicOrder c.secondTarget.cyclicOrder c) :
    EmitsConserving e e' (pair a b) z := by
  have hcounta : ∀ i, a.indexBag.count i ≤ 2 := fun i =>
    (Multiset.count_le_of_le i (indexBag_pair a b ▸ Multiset.le_add_right ..)).trans (hcount i)
  have hcountb : ∀ i, b.indexBag.count i ≤ 2 := fun i =>
    (Multiset.count_le_of_le i (indexBag_pair a b ▸ Multiset.le_add_left ..)).trans (hcount i)
  -- the two factors as general tensors, in the order in which they are joined
  have hgeneral : ∀ {e₁ e₂ : Emission} {x y p q : Diagram} {k : PairContraction Index},
      a.asGeneral c.firstTarget e = (x, e₁) → b.asGeneral c.secondTarget e₁ = (y, e₂) →
      (p = x ∧ q = y ∧ k = c) ∨ (p = y ∧ q = x ∧ k = c.swap) →
      EmitsConserving e e₂ (pair a b) (pair p q) ∧ (pair p q).Admits k.openOrder := by
    intro e₁ e₂ x y p q k hx hy hpq
    have hjoined := (asGeneral_conserving hx ha hcounta hfa.admits).pair
      (asGeneral_conserving hy hb hcountb hfb.admits)
    obtain ⟨hfx, hxtr, -⟩ := asGeneral_steps hx hfa
    obtain ⟨hfy, hytr, -⟩ := asGeneral_steps hy hfb
    rcases hpq with ⟨rfl, rfl, rfl⟩ | ⟨rfl, rfl, rfl⟩
    · exact ⟨hjoined, (contraction_spec hfx hfy hxtr hytr hc).1⟩
    · have hxy := hjoined.isMonomial.of_pair_or (Or.inl rfl)
      have hswap : EmitsConserving e₂ e₂ (pair q p) (pair p q) :=
        (EmitsConserving.refl (.pair hxy.2 hxy.1)).of_pair_or (Or.inr rfl)
      exact ⟨hjoined.trans hswap, (contraction_spec hfy hfx hytr hxtr hc.swap).1⟩
  have horder : ∀ k : PairContraction Index, k.openFirst ++ k.openSecond.reverse.reverse =
      k.openOrder := by
    intro k
    rw [List.reverse_reverse, PairContraction.openOrder]
  cases h with
  | scaledTemporary hs ht =>
    have hadm : (pair a b).Admits c.openOrder := (hfa.normal.admits_pair_iff hfb.normal _).mpr
      ⟨_, _, c, hfa.admits, hfb.admits, hc, List.IsRotated.refl _⟩
    exact .define (.pair ha hb) hcount ((horder c).symm ▸ hadm)
  | scaled hs ht => exact .refl (.pair ha hb)
  | @contractedTemporary _ _ _ _ _ _ _ k hx hy hpq =>
    obtain ⟨hjoined, hadm⟩ := hgeneral hx hy hpq
    exact hjoined.trans (.define hjoined.isMonomial (hjoined.count_le_two hcount)
      ((horder k).symm ▸ hadm))
  | contracted hs ht hx hy hpq hleft hright => exact (hgeneral hx hy hpq).1

/-- Lowering conserves the indices of an expression without sums. -/
theorem LowersTo.conserving (h : LowersTo target e d x e') (hd : d.IsMonomial)
    (hcount : ∀ i, d.indexBag.count i ≤ 2)
    (hadm : target.isTemporary = true → d.Admits target.cyclicOrder) :
    EmitsConserving e e' d x := by
  induction h with
  | scalar hs => exact .refl hd
  | general hs hg hkeep => exact .refl hd
  | traced hs hg ht htrace => exact .define hd hcount (hadm ht)
  | sumFirst ha ih =>
    cases hd with
    | factor hfactor => cases hfactor
  | sumNext hsum hd' ihsum ihd =>
    cases hd with
    | factor hfactor => cases hfactor
  | @pair target e e₁ e₂ e' d a b x y z c hpair hsimple hc ha hb hjoin iha ihb =>
    obtain ⟨hma, hmb⟩ := hd.of_pair_or hpair
    have hbag : d.indexBag = a.indexBag + b.indexBag := by
      rcases hpair with rfl | rfl
      · exact indexBag_pair a b
      · rw [indexBag_pair, add_comm]
    have hcounta : ∀ i, a.indexBag.count i ≤ 2 := fun i =>
      (Multiset.count_le_of_le i (hbag ▸ Multiset.le_add_right ..)).trans (hcount i)
    have hcountb : ∀ i, b.indexBag.count i ≤ 2 := fun i =>
      (Multiset.count_le_of_le i (hbag ▸ Multiset.le_add_left ..)).trans (hcount i)
    have hfactors :=
      (iha hma hcounta fun _ => hc.admits.1).pair (ihb hmb hcountb fun _ => hc.admits.2)
    have hfx := (ha.linear hma.isNormal rfl hc.admits.1).1
    have hfy := (hb.linear hmb.isNormal rfl hc.admits.2).1
    have hxy := hfactors.isMonomial.of_pair_or (Or.inl rfl)
    have hcountxy := hfactors.count_le_two fun i => (indexBag_pair a b ▸ hbag ▸ hcount i)
    exact (hfactors.trans (hjoin.conserving hxy.1 hxy.2 hcountxy hfx hfy hc.planar)).of_pair_or
      hpair

/-! ## Assignments -/

/-- Exactly one of the statements contracts the index, and it appears at most once in every other
one. -/
def ContractedOnce (i : Index) (statements : List Diagram) : Prop :=
  ∃ before s after, statements = before ++ s :: after ∧ s.rhsBag.count i = 2 ∧
    ∀ s' ∈ before ++ after, s'.rhsBag.count i ≤ 1

theorem contractedOnce_of_countP {i : Index} {statements : List Diagram}
    (hle : ∀ s ∈ statements, s.rhsBag.count i ≤ 2) (h : statements.countP (contracts i) = 1) :
    ContractedOnce i statements := by
  obtain ⟨s, hs, hcontracts⟩ := List.countP_pos_iff.mp (h ▸ Nat.one_pos)
  obtain ⟨before, after, rfl⟩ := List.append_of_mem hs
  refine ⟨before, s, after, rfl, of_decide_eq_true hcontracts, fun s' hs' => ?_⟩
  have hnone : (before ++ after).countP (contracts i) = 0 := by
    rw [List.countP_append, List.countP_cons_of_pos hcontracts] at h
    rw [List.countP_append]
    omega
  have hne : ¬ s'.rhsBag.count i = 2 :=
    fun htwo => List.countP_eq_zero.mp hnone s' hs' (decide_eq_true htwo)
  have hle' : s'.rhsBag.count i ≤ 2 := by
    refine hle s' ?_
    rw [List.mem_append] at hs'
    rw [List.mem_append, List.mem_cons]
    exact hs'.imp_right Or.inr
  omega

/-- Definitions of temporaries, followed by an assignment of a result, have the indices of a right
hand side. -/
structure ConservesIndices (lhs rhs : Diagram) (isDefinition : Bool) (definitions : List Diagram)
    (result : Diagram) : Prop where
  /-- The result has the open indices of the right hand side. -/
  openIndices : result.freeIndices.Perm rhs.freeIndices
  /-- Every temporary has the open indices of its definition. -/
  temporaries : ∀ s ∈ definitions, s.IsTemporaryDefinition
  /-- Every contraction is done by exactly one statement. -/
  contracted : ∀ i, rhs.indexBag.count i = 2 →
    ContractedOnce i (definitions ++ [assign lhs result isDefinition])

theorem Conserves.conservesIndices {new : List Diagram} (h : Conserves new d x) (hd : d.IsMonomial)
    (hcount : ∀ i, d.indexBag.count i ≤ 2) (lhs : Diagram) (isDefinition : Bool) :
    ConservesIndices lhs d isDefinition new x := by
  refine ⟨h.perm_freeIndices hd hcount, h.definitions, fun i hi => contractedOnce_of_countP ?_ ?_⟩
  · exact List.forall_mem_append.mpr
      ⟨fun s hs => h.count_le s hs i, List.forall_mem_singleton.mpr (h.count_le_two hcount i)⟩
  · have heq := h.count_eq i
    rw [List.countP_append, List.countP_singleton, contracts, rhsBag]
    split_ifs with htwo
    · rw [decide_eq_true_iff] at htwo
      omega
    · rw [decide_eq_true_iff] at htwo
      omega

/-- Only assignments are emitted, so a lowered assignment is not flattened any further. -/
theorem Conserves.flattenList_eq {new : List Diagram} (h : Conserves new d x) (lhs : Diagram)
    (isDefinition : Bool) :
    flattenList (new ++ [assign lhs x isDefinition]) = new ++ [assign lhs x isDefinition] := by
  have hnew := h.definitions
  clear h
  induction new with
  | nil => rfl
  | cons s new ih =>
    obtain ⟨⟨t, y, rfl, -⟩, hrest⟩ := List.forall_mem_cons.mp hnew
    have hflatten : (assign (ref t) y true).flatten = [assign (ref t) y true] := by simp [flatten]
    rw [List.cons_append, flattenList, hflatten, ih hrest, List.singleton_append]

/-- A planar assignment without sums is lowered to definitions of temporaries and a last assignment
to the same left hand side.  The open indices stay, every temporary has the open indices of its
definition, and every index that is contracted on the right hand side is contracted in exactly one
statement. -/
theorem lowering_conserves_indices (table : HandleTable) {lhs rhs : Diagram} {isDefinition : Bool}
    (hlhs : lhs.IsPlainLhs) (hrhs : rhs.IsMonomial) (hcount : ∀ i, rhs.indexBag.count i ≤ 2)
    (hplanar : (assign lhs rhs isDefinition).checkPlanar = .ok ()) :
    ∃ lowered table' definitions result,
      (assign lhs rhs isDefinition).lowerStatements table = .ok (lowered, table') ∧
      lowered.flatten = definitions ++ [assign lhs result isDefinition] ∧
      ConservesIndices lhs rhs isDefinition definitions result := by
  rw [checkPlanar] at hplanar
  rw [lowerStatements, lowerAssignment]
  by_cases htensor : rhs.isTensor = true
  · obtain ⟨order, horder, hadm⟩ := (hrhs.isNormal.checkAssignment_iff htensor).mp hplanar
    rw [hlhs.lhsOrder, Except.ok.injEq] at horder
    obtain ⟨x, e, hlower⟩ := hrhs.isNormal.exists_lower (horder ▸ hadm) ⟨table, []⟩
    obtain ⟨new, hnew, hconserves⟩ :=
      (hrhs.isNormal.lowersTo hlower).conserving hrhs hcount fun _ => horder ▸ hadm
    rw [List.nil_append] at hnew
    refine ⟨_, _, new, x, by rw [if_pos htensor, hlower, ok_bind]; rfl, ?_,
      hconserves.conservesIndices hrhs hcount lhs isDefinition⟩
    rw [flatten, hnew, hconserves.flattenList_eq]
  · exact ⟨_, _, [], rhs, by rw [if_neg htensor]; rfl, rfl,
      (Conserves.refl hrhs).conservesIndices hrhs hcount lhs isDefinition⟩

/-- A multiple of a tensor with a trace, joined to another tensor. -/
def tracedPair : Diagram :=
  .pair (.pair (.scalar (.name "x"))
    (.ref ⟨.name "A", [.number 1, .number 4, .number 4], [.number 2], false⟩))
    (.ref ⟨.name "B", [.number 2], [.number 3], false⟩)

/-- The trace is taken in one statement, and the pair is joined in another one. -/
theorem lowering_conserves_indices_tracedPair : ∃ lowered table' definitions result,
    (assign (.ref ⟨.name "E", [.number 1], [.number 3], false⟩) tracedPair true).checkPlanar =
      .ok () ∧
    (assign (.ref ⟨.name "E", [.number 1], [.number 3], false⟩) tracedPair true).lowerStatements
      .empty = .ok (lowered, table') ∧
    lowered.flatten =
      definitions ++ [assign (.ref ⟨.name "E", [.number 1], [.number 3], false⟩) result true] ∧
    ConservesIndices (.ref ⟨.name "E", [.number 1], [.number 3], false⟩) tracedPair true
      definitions result := by
  have hplanar : (assign (.ref ⟨.name "E", [.number 1], [.number 3], false⟩) tracedPair
      true).checkPlanar = .ok () := rfl
  have hmonomial : tracedPair.IsMonomial :=
    .pair (.pair (.factor (.scalar _)) (.factor (.ref _))) (.factor (.ref _))
  obtain ⟨lowered, table', definitions, result, hlower, hflatten, hconserves⟩ :=
    lowering_conserves_indices .empty
    (by simp [IsPlainLhs, TensorRef.indices]) hmonomial (count_indexBag_le (by decide)) hplanar
  exact ⟨lowered, table', definitions, result, hplanar, hlower, hflatten, hconserves⟩

end Diagram

end TensorDiagram
