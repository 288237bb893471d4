import TensorDiagram.Proofs.Agreement
import TensorDiagram.Proofs.LoweredSteps

/-!
# Lowering preserves meaning

Lowering turns an expression into definitions of temporaries and an expression that refers to them.
If a machine runs the definitions and then evaluates the lowered expression, the value has the
meaning of the original expression, and the run leaves everything alone but the new temporaries.
`Realizes` says this for an emission that grows.  It is transitive and holds part by part, so that
`LowersTo.realizes` follows by induction on how an expression is lowered.
-/

open TensorDiagram.Circle (PairContraction IsPlanarPair)

namespace TensorDiagram

variable {n : ℕ} {rhs : Diagram}

/-! ## Running definitions -/

namespace Machine

variable {R : Type} [Arithmetic R]
variable {m : Machine R}

theorem executeAll_append (m : Machine R) (xs ys : List Diagram) :
    m.executeAll (xs ++ ys) = (m.executeAll xs).bind fun m' => m'.executeAll ys := by
  induction xs generalizing m with
  | nil => simp only [List.nil_append, executeAll, Except.bind]
  | cons d xs ih =>
    simp only [List.cons_append, executeAll]
    rcases m.execute d with e | m'
    · rfl
    · exact ih m'

theorem executeAll_singleton (m : Machine R) (d : Diagram) : m.executeAll [d] = m.execute d := by
  simp only [executeAll]
  rcases m.execute d with e | m' <;> rfl

theorem execute_assign (m : Machine R) (lhs rhs : Diagram) (isDefinition : Bool) :
    m.execute (.assign lhs rhs isDefinition) =
      match m.assign lhs rhs isDefinition with
      | .ok m' => .ok m'
      | .error e => .error (e, m) := by
  rcases h : m.assign lhs rhs isDefinition with e | m' <;> simp only [execute, step, h]

theorem execute_assign_eq_ok_iff {m' : Machine R} {lhs : Diagram} {isDefinition : Bool} :
    m.execute (.assign lhs rhs isDefinition) = .ok m' ↔ m.assign lhs rhs isDefinition = .ok m' := by
  rw [execute_assign]
  rcases m.assign lhs rhs isDefinition with e | m₁ <;> simp

/-- The machine after some statements, if all of them can be done. -/
def after (m : Machine R) (statements : List Diagram) : Option (Machine R) :=
  (m.executeAll statements).toOption

theorem after_eq_some_iff {m' : Machine R} {statements : List Diagram} :
    m.after statements = some m' ↔ m.executeAll statements = .ok m' := by
  rw [after]
  rcases m.executeAll statements with e | m₁ <;> simp [Except.toOption]

/-- A run with an assignment at its end. -/
theorem executeAll_assign_eq_ok_iff {m'' : Machine R} {new : List Diagram} {lhs : Diagram}
    {isDefinition : Bool} :
    m.executeAll (new ++ [.assign lhs rhs isDefinition]) = .ok m'' ↔
      ∃ m', m.after new = some m' ∧ m'.assign lhs rhs isDefinition = .ok m'' := by
  rw [executeAll_append]
  simp only [after_eq_some_iff, ← execute_assign_eq_ok_iff, ← executeAll_singleton]
  rcases m.executeAll new with e | m₁ <;> simp [Except.bind]

@[simp] theorem after_nil (m : Machine R) : m.after [] = some m := by
  simp only [after, executeAll, Except.toOption]

theorem after_append (m : Machine R) (xs ys : List Diagram) :
    m.after (xs ++ ys) = (m.after xs).bind fun m' => m'.after ys := by
  rw [after, after, executeAll_append]
  rcases m.executeAll xs with e | m' <;> rfl

theorem after_assign (m : Machine R) (lhs rhs : Diagram) (isDefinition : Bool) :
    m.after [.assign lhs rhs isDefinition] = (m.assign lhs rhs isDefinition).toOption := by
  rw [after, executeAll_singleton, execute_assign]
  rcases m.assign lhs rhs isDefinition with e | m' <;> rfl

end Machine

namespace Emission

/-- The number of temporaries. -/
def count (e : Emission) : ℕ :=
  (e.table.handlesOf .temporary).length

/-- The reference that a new temporary is defined as. -/
theorem define_fst (e : Emission) (rhs : Diagram) (left right : List Index) :
    (e.define rhs left right).1 = .ref ⟨.handle ⟨.temporary, e.count⟩, left, right, false⟩ := rfl

theorem define_definitions (e : Emission) (rhs : Diagram) (left right : List Index) :
    (e.define rhs left right).2.definitions =
      e.definitions ++ [.assign (e.define rhs left right).1 rhs true] := rfl

theorem count_define (e : Emission) (rhs : Diagram) (left right : List Index) :
    (e.define rhs left right).2.count = e.count + 1 := by
  simp [count, define, HandleTable.freshTemporary, HandleTable.create, HandleTable.handlesOf,
    HandleTable.handles, HandleTable.next]

end Emission

/-- The object is not one of the temporaries from a number on. -/
def IsOld (n : ℕ) : ObjectRef → Prop
  | .handle h => h.kind = .temporary → h.index < n
  | .name _ => True

theorem IsOld.mono {n' : ℕ} (h : n ≤ n') {o : ObjectRef} (ho : IsOld n o) : IsOld n' o := by
  cases o with
  | handle k => exact fun hk => (ho hk).trans_le h
  | name text => trivial

namespace Diagram

variable (R : Type) [CommRing R] [Arithmetic R]
variable {e e' : Emission} {a b d x y z : Diagram} {target : WantedOrder}

/-- Some definitions of the temporaries from one number to another, together with an expression that
refers to them, stand for an expression. -/
structure StandsFor (n n' : ℕ) (new : List Diagram) (d x : Diagram) : Prop where
  /-- There are more and more temporaries. -/
  le : n ≤ n'
  /-- The expression refers to temporaries that are defined. -/
  uses : d.Uses (IsOld n) → x.Uses (IsOld n')
  /-- Only the new temporaries are bound. -/
  frame : ∀ m m' : Machine R, m.after new = some m' → m.AgreesOn (IsOld n) m'
  /-- After the definitions the expression has the meaning of the original one. -/
  meaning : ∀ m : Machine R, d.Uses (IsOld n) → (m.after new).bind (·.denote x) = m.denote d

/-- What is emitted from one point to another, together with an expression, stands for an
expression. -/
def Realizes (e e' : Emission) (d x : Diagram) : Prop :=
  ∃ new, e'.definitions = e.definitions ++ new ∧ StandsFor R e.count e'.count new d x

variable {R}

/-- An expression stands for any other with the same meaning. -/
theorem realizes_of_denote_eq (huses : ∀ P, d.Uses P → x.Uses P)
    (h : ∀ m : Machine R, m.denote x = m.denote d) : Realizes R e e d x := by
  refine ⟨[], by simp, le_rfl, huses _, ?_, fun m _ => ?_⟩
  · intro m m' hm
    rw [Machine.after_nil] at hm
    obtain rfl := Option.some.inj hm
    exact .refl _
  · rw [Machine.after_nil, Option.bind_some, h]

theorem Realizes.refl (e : Emission) (d : Diagram) : Realizes R e e d d :=
  realizes_of_denote_eq (fun _ => id) fun _ => rfl

/-- Only new temporaries are bound in two runs of definitions. -/
theorem StandsFor.frame_append {n₁ n₂ : ℕ} {new₁ new₂ : List Diagram}
    (h₁ : StandsFor R n n₁ new₁ a x) (h₂ : StandsFor R n₁ n₂ new₂ b y) (m m₂ : Machine R)
    (h : m.after (new₁ ++ new₂) = some m₂) : m.AgreesOn (IsOld n) m₂ := by
  rw [Machine.after_append] at h
  obtain ⟨m₁, hm₁, hm₂⟩ := Option.bind_eq_some_iff.mp h
  exact (h₁.frame m m₁ hm₁).trans ((h₂.frame m₁ m₂ hm₂).mono fun o => IsOld.mono h₁.le)

theorem Realizes.trans {e'' : Emission} (h : Realizes R e e' d x) (h' : Realizes R e' e'' x z) :
    Realizes R e e'' d z := by
  obtain ⟨new, hnew, hd⟩ := h
  obtain ⟨new', hnew', hx⟩ := h'
  refine ⟨new ++ new', by rw [hnew', hnew, List.append_assoc], hd.le.trans hx.le,
    fun hu => hx.uses (hd.uses hu), hd.frame_append hx, fun m hu => ?_⟩
  rw [Machine.after_append, Option.bind_assoc, ← hd.meaning m hu]
  exact Option.bind_congr fun m' _ => hx.meaning m' (hd.uses hu)

variable [StarRing R] [Arithmetic.IsExact R]

/-- The factors of a product can be exchanged. -/
theorem realizes_swap (e : Emission) (a b : Diagram) : Realizes R e e (pair a b) (pair b a) := by
  refine realizes_of_denote_eq (fun P h => ?_) fun m => ?_
  · rw [uses_pair] at h ⊢
    exact h.symm
  · rw [Machine.denote_pair, Machine.denote_pair]
    rcases m.denote a with _ | u <;> rcases m.denote b with _ | v
    · rfl
    · rfl
    · rfl
    · exact Meaning.mul_comm v u

/-- One expression is lowered after another.  Whatever is made from their two meanings can be made
afterwards. -/
theorem StandsFor.meaning_seq {n₁ n₂ : ℕ} {new₁ new₂ : List Diagram}
    (h₁ : StandsFor R n n₁ new₁ a x) (h₂ : StandsFor R n₁ n₂ new₂ b y) (hx : x.IsNormal)
    (hb : b.IsNormal) (hua : a.Uses (IsOld n)) (hub : b.Uses (IsOld n))
    (f : Meaning R → Meaning R → Option (Meaning R)) (m : Machine R) :
    ((m.after (new₁ ++ new₂)).bind fun m₂ => (m₂.denote x).bind fun u => (m₂.denote y).bind (f u)) =
      (m.denote a).bind fun u => (m.denote b).bind (f u) := by
  rw [Machine.after_append, ← h₁.meaning m hua, Option.bind_assoc, Option.bind_assoc]
  refine Option.bind_congr fun m₁ hm₁ => ?_
  have hb₁ : m.denote b = m₁.denote b := (h₁.frame m m₁ hm₁).denote_eq hb hub
  rw [hb₁, ← h₂.meaning m₁ (hub.mono fun o => IsOld.mono h₁.le)]
  -- the meaning of the first expression is still the same after the second one is lowered
  have hx₂ : ∀ m₂, m₁.after new₂ = some m₂ → m₂.denote x = m₁.denote x := fun m₂ hm₂ =>
    ((h₂.frame m₁ m₂ hm₂).denote_eq hx (h₁.uses hua)).symm
  rcases hm₂ : m₁.after new₂ with _ | m₂
  · simp
  · rw [Option.bind_some, hx₂ m₂ hm₂, Option.bind_some]

/-- A product is lowered factor by factor. -/
theorem Realizes.pair {e₁ e₂ : Emission} (h₁ : Realizes R e e₁ a x) (h₂ : Realizes R e₁ e₂ b y)
    (hb : b.IsNormal) (hx : x.IsNormal) :
    Realizes R e e₂ (Diagram.pair a b) (Diagram.pair x y) := by
  obtain ⟨new₁, hnew₁, h₁⟩ := h₁
  obtain ⟨new₂, hnew₂, h₂⟩ := h₂
  refine ⟨new₁ ++ new₂, by rw [hnew₂, hnew₁, List.append_assoc], h₁.le.trans h₂.le, fun hu => ?_,
    h₁.frame_append h₂, fun m hu => ?_⟩
  · obtain ⟨hua, hub⟩ := uses_pair.mp hu
    exact uses_pair.mpr ⟨(h₁.uses hua).mono fun o => IsOld.mono h₂.le,
      h₂.uses (hub.mono fun o => IsOld.mono h₁.le)⟩
  · obtain ⟨hua, hub⟩ := uses_pair.mp hu
    rw [Machine.denote_pair, ← h₁.meaning_seq h₂ hx hb hua hub Meaning.mul m]
    exact Option.bind_congr fun m₂ _ => Machine.denote_pair _ _

/-- A sum of one term. -/
theorem Realizes.sum_first (h : Realizes R e e' a x) (sign : Sign) :
    Realizes R e e' (sum sign a []) (sum sign x []) := by
  obtain ⟨new, hnew, h⟩ := h
  refine ⟨new, hnew, h.le, fun hu => ?_, h.frame, fun m hu => ?_⟩
  · exact uses_sum_first.mpr (h.uses (uses_sum_first.mp hu))
  · rw [Machine.denote_sum_first, ← h.meaning m (uses_sum_first.mp hu), Option.map_bind]
    exact Option.bind_congr fun m' _ => Machine.denote_sum_first sign _

/-- A sum is lowered term by term. -/
theorem Realizes.sum_next {e₁ e₂ : Emission} {sign : Sign} {rest rest' : List (Sign × Diagram)}
    (h₁ : Realizes R e e₁ (sum sign a rest) (sum sign x rest')) (h₂ : Realizes R e₁ e₂ d y)
    (next : Sign) (hd : d.IsNormal) (hsum' : (Diagram.sum sign x rest').IsNormal) :
    Realizes R e e₂ (sum sign a (rest ++ [(next, d)])) (sum sign x (rest' ++ [(next, y)])) := by
  obtain ⟨new₁, hnew₁, h₁⟩ := h₁
  obtain ⟨new₂, hnew₂, h₂⟩ := h₂
  refine ⟨new₁ ++ new₂, by rw [hnew₂, hnew₁, List.append_assoc], h₁.le.trans h₂.le, fun hu => ?_,
    h₁.frame_append h₂, fun m hu => ?_⟩
  · obtain ⟨husum, hud⟩ := uses_sum_next.mp hu
    exact uses_sum_next.mpr ⟨(h₁.uses husum).mono fun o => IsOld.mono h₂.le,
      h₂.uses (hud.mono fun o => IsOld.mono h₁.le)⟩
  · obtain ⟨husum, hud⟩ := uses_sum_next.mp hu
    rw [Machine.denote_sum_next,
      ← h₁.meaning_seq h₂ hsum' hd husum hud (Meaning.add next) m]
    exact Option.bind_congr fun m₂ _ => Machine.denote_sum_next sign next _ _ _

/-! ## Temporaries -/

omit [StarRing R] [Arithmetic.IsExact R] in
/-- What a reference to an object that was just bound means. -/
theorem denote_bind {m : Machine R} {t : TensorRef} {N : LegArray R} {w : Tensor R}
    (hadjoint : t.isAdjoint = false) (hw : Machine.IsArranged t N w) :
    (m.bind t.object (.tensor w)).denote (ref t) = some (.array N) := by
  have hlookup : (m.bind t.object (.tensor w)).lookup t.object = .ok (.tensor w) := by
    unfold Machine.lookup
    rw [Machine.bind, Table.find?_put_self]
  have hvalue : (m.bind t.object (.tensor w)).evaluate (ref t) =
      .ok (.labelled (.tensor w) t.indices) := by
    rw [Machine.evaluate, Machine.evaluateRef, Machine.referent, hlookup, hadjoint]
    simp only [ok_bind, Bool.false_eq_true, if_false]
    exact if_pos (isEmpty_duplicates_iff.mpr hw.nodup)
  rw [Machine.denote, hvalue, Evaluated.outcome?_ok, Evaluated.meaning?,
    if_pos hw.count_eq, hw.array_eq]

/-- A new temporary stands for its definition. -/
theorem realizes_define (e : Emission) {left right : List Index} (hrhs : rhs.IsNormal)
    (hs : ¬ rhs.isScalar = true) (hadm : rhs.Admits (left ++ right.reverse)) :
    Realizes R e (e.define rhs left right).2 rhs (e.define rhs left right).1 := by
  set t : TensorRef := ⟨.handle ⟨.temporary, e.count⟩, left, right, false⟩ with ht
  have hassign : ∀ m : Machine R, m.assign (ref t) rhs true =
      m.arrangedValue (ref t) rhs true >>= fun w => .ok (m.bind t.object (.tensor w)) :=
    fun m => rfl
  refine ⟨_, e.define_definitions rhs left right, by simp [e.count_define], fun _ => ?_, ?_,
    fun m _ => ?_⟩
  · rw [e.define_fst, e.count_define, uses_ref]
    exact fun _ => Nat.lt_succ_self _
  · intro m m' hm
    rw [Machine.after_assign, e.define_fst, ← ht, hassign] at hm
    rcases hw : m.arrangedValue (ref t) rhs true with err | w
    · rw [hw] at hm
      cases hm
    · rw [hw] at hm
      obtain rfl := Option.some.inj hm
      exact .bind_other m (fun hold => absurd (hold rfl) (lt_irrefl _)) _
  · rw [Machine.after_assign, e.define_fst, ← ht, hassign]
    rcases hd : m.denote rhs with _ | u
    · rcases hw : m.arrangedValue (ref t) rhs true with err | w
      · rfl
      · obtain ⟨N, hN, -⟩ := Machine.denote_of_arrangedValue hrhs hw
        rw [hd] at hN
        cases hN
    · obtain ⟨N, rfl⟩ := Machine.exists_array_of_denote_eq hrhs hs hd
      have hlabels : (t.indices : Multiset Index) = N.labels := by
        rw [Machine.labels_eq_of_admits hrhs hd hadm]
        exact Multiset.coe_eq_coe.mpr t.cyclicOrder_perm.symm
      obtain ⟨w, hw, harranged⟩ := Machine.exists_arrangedValue true hrhs hd hlabels
      rw [hw, ok_bind]
      exact denote_bind rfl harranged

/-- A factor as a general tensor. -/
theorem realizes_asGeneral (h : d.asGeneral target e = (x, e'))
    (hd : FitsOrder target.cyclicOrder d) (hs : ¬ d.isScalar = true) : Realizes R e e' d x := by
  rw [asGeneral] at h
  split_ifs at h
  · obtain ⟨rfl, rfl⟩ := Prod.mk.inj h
    exact .refl e d
  · have hdefine := realizes_define (R := R) e hd.normal hs hd.admits
    rwa [h] at hdefine

theorem isScalar_pair : (pair a b).isScalar = true ↔ a.isScalar = true ∧ b.isScalar = true := by
  simp [isScalar, allScalar]

/-! ## Products -/

/-- Joining two factors stands for their product. -/
theorem JoinsTo.realizes {c : PairContraction Index} (h : JoinsTo target c e a b z e')
    (ha : FitsOrder c.firstTarget.cyclicOrder a) (hb : FitsOrder c.secondTarget.cyclicOrder b)
    (hc : IsPlanarPair c.firstTarget.cyclicOrder c.secondTarget.cyclicOrder c)
    (hs : ¬ (Diagram.pair a b).isScalar = true) : Realizes R e e' (Diagram.pair a b) z := by
  -- the product of the two factors as general tensors, in either order
  have hcontraction : ∀ {e₁ e₂ : Emission} {x y p q : Diagram} {k : PairContraction Index},
      (¬ a.isScalar = true ∧ ¬ b.isScalar = true) → a.asGeneral c.firstTarget e = (x, e₁) →
      b.asGeneral c.secondTarget e₁ = (y, e₂) →
      (p = x ∧ q = y ∧ k = c) ∨ (p = y ∧ q = x ∧ k = c.swap) →
      Realizes R e e₂ (Diagram.pair a b) (Diagram.pair p q) ∧ (Diagram.pair p q).IsNormal ∧
        ¬ (Diagram.pair p q).isScalar = true ∧ (Diagram.pair p q).Admits k.openOrder := by
    intro e₁ e₂ x y p q k hns hx hy hpq
    obtain ⟨hxfits, hxtr, -⟩ := asGeneral_steps hx ha
    obtain ⟨hyfits, hytr, -⟩ := asGeneral_steps hy hb
    have hpair : Realizes R e e₂ (Diagram.pair a b) (Diagram.pair x y) :=
      (realizes_asGeneral hx ha hns.1).pair (realizes_asGeneral hy hb hns.2) hb.normal hxfits.normal
    have hxs : ¬ x.isScalar = true := by
      obtain ⟨g, hg, -⟩ := hxtr
      exact hxfits.normal.not_isScalar hg
    rcases hpq with ⟨rfl, rfl, rfl⟩ | ⟨rfl, rfl, rfl⟩
    · exact ⟨hpair, .pair hxfits.normal hyfits.normal, fun h => hxs (isScalar_pair.mp h).1,
        (contraction_spec hxfits hyfits hxtr hytr hc).1⟩
    · exact ⟨hpair.trans (realizes_swap e₂ _ _), .pair hyfits.normal hxfits.normal, fun h =>
        hxs (isScalar_pair.mp h).2, (contraction_spec hyfits hxfits hytr hxtr hc.swap).1⟩
  have horder : ∀ k : PairContraction Index,
      k.openFirst ++ k.openSecond.reverse.reverse = k.openOrder := fun k => by
    rw [List.reverse_reverse, PairContraction.openOrder]
  cases h with
  | scaledTemporary hscalar ht =>
    refine realizes_define e (.pair ha.normal hb.normal) hs ?_
    rw [horder c]
    exact (ha.normal.admits_pair_iff hb.normal _).mpr
      ⟨_, _, c, ha.admits, hb.admits, hc, List.IsRotated.refl _⟩
  | scaled hscalar ht => exact .refl e _
  | @contractedTemporary hns e₁ e₂ x y p q k hx hy hpq =>
    obtain ⟨hpair, hnormal, hscalar, hadm⟩ := hcontraction hns hx hy hpq
    exact hpair.trans (realizes_define e₂ hnormal hscalar ((horder k).symm ▸ hadm))
  | contracted hns ht hx hy hpq hleft hright => exact (hcontraction hns hx hy hpq).1

/-! ## Whole expressions -/

/-- A product of factors that are not both scalars is not joined to a scalar. -/
theorem JoinsTo.not_isScalar {c : PairContraction Index} (h : JoinsTo target c e a b z e')
    (hs : ¬ (Diagram.pair a b).isScalar = true) : ¬ z.isScalar = true := by
  have hgeneral : ∀ {d x : Diagram} {t : WantedOrder} {e e' : Emission}, d.asGeneral t e = (x, e') →
      ¬ d.isScalar = true → ¬ x.isScalar = true := by
    intro d x t e e' hx hd
    rw [asGeneral] at hx
    split_ifs at hx
    · obtain ⟨rfl, -⟩ := Prod.mk.inj hx
      exact hd
    · obtain rfl : (e.define d t.left t.right).1 = x := congrArg Prod.fst hx
      rw [e.define_fst]
      simp [isScalar]
  cases h with
  | scaledTemporary hscalar ht => rw [e.define_fst]; simp [isScalar]
  | scaled hscalar ht => exact hs
  | @contractedTemporary hns e₁ e₂ x y p q k hx hy hpq => rw [e₂.define_fst]; simp [isScalar]
  | contracted hns ht hx hy hpq hleft hright =>
    rcases hpq with ⟨rfl, rfl, -⟩ | ⟨rfl, rfl, -⟩
    · exact fun h => hgeneral hx hns.1 (isScalar_pair.mp h).1
    · exact fun h => hgeneral hy hns.2 (isScalar_pair.mp h).1

theorem isScalar_sum_next {sign next : Sign} {rest : List (Sign × Diagram)} :
    (sum sign a (rest ++ [(next, d)])).isScalar = true ↔
      (sum sign a rest).isScalar = true ∧ d.isScalar = true := by
  simp only [isScalar_sum_iff, List.forall_mem_append, List.forall_mem_singleton, and_assoc]

/-- Nothing but a scalar is lowered to a scalar. -/
theorem LowersTo.isScalar_of_isScalar (h : LowersTo target e d x e') (hx : x.isScalar = true) :
    d.isScalar = true := by
  induction h with
  | scalar hs => exact hs
  | general hs hg hkeep => exact hx
  | traced hs hg ht htrace => simp [Emission.define, isScalar] at hx
  | sumFirst ha ih => exact isScalar_sum_iff.mpr ⟨ih (isScalar_sum_iff.mp hx).1, by simp⟩
  | sumNext hsum hd ihsum ihd =>
    obtain ⟨hxsum, hxd⟩ := isScalar_sum_next.mp hx
    exact isScalar_sum_next.mpr ⟨ihsum hxsum, ihd hxd⟩
  | @pair target e e₁ e₂ e' d a b x y z c hpair hsimple hc ha hb hjoin iha ihb =>
    by_contra hd
    refine hjoin.not_isScalar (fun hxy => hd ?_) hx
    obtain ⟨hxs, hys⟩ := isScalar_pair.mp hxy
    rcases hpair with rfl | rfl
    · exact isScalar_pair.mpr ⟨iha hxs, ihb hys⟩
    · exact isScalar_pair.mpr ⟨ihb hys, iha hxs⟩

/-- An expression without simple orders is not a scalar. -/
theorem not_isScalar_of_simpleOrders?_eq_none (h : d.simpleOrders? = none) :
    ¬ d.isScalar = true := by
  intro hs
  rw [simpleOrders?, if_pos hs] at h
  cases h

/-- What lowering emits, together with the lowered expression, stands for the expression. -/
theorem LowersTo.realizes (h : LowersTo target e d x e') (hd : d.IsNormal)
    (hadm : target.isTemporary = true → d.Admits target.cyclicOrder) :
    x.IsNormal ∧ Realizes R e e' d x := by
  induction h with
  | @scalar target e d hs => exact ⟨hd, .refl e d⟩
  | @general target e d g hs hg hkeep => exact ⟨hd, .refl e d⟩
  | @traced target e d g hs hg ht htrace =>
    exact ⟨.ref _, realizes_define e hd hs (hadm ht)⟩
  | @sumFirst target e e' sign a a' ha ih =>
    have hna := (isNormal_sum_iff.mp hd).1
    obtain ⟨hn, hreal⟩ := ih hna fun ht => ((hd.admits_sum_iff _).mp (hadm ht)).1
    exact ⟨.sum hn (by simp), hreal.sum_first sign⟩
  | @sumNext target e e₁ e' sign next a a' d d' rest rest' hsum hd' ihsum ihd =>
    obtain ⟨hnsum, hnd⟩ := isNormal_sum_next.mp hd
    obtain ⟨hn₁, hreal₁⟩ := ihsum hnsum fun ht => ((hd.admits_sum_next _).mp (hadm ht)).1
    obtain ⟨hn₂, hreal₂⟩ := ihd hnd fun ht => ((hd.admits_sum_next _).mp (hadm ht)).2
    exact ⟨isNormal_sum_next.mpr ⟨hn₁, hn₂⟩, hreal₁.sum_next hreal₂ next hnd hn₁⟩
  | @pair target e e₁ e₂ e' d a b x y z c hpair hsimple hc ha hb hjoin iha ihb =>
    obtain ⟨hna, hnb⟩ := hd.of_pair_or hpair
    obtain ⟨hnx, hrealx⟩ := iha hna fun _ => hc.admits.1
    obtain ⟨hny, hrealy⟩ := ihb hnb fun _ => hc.admits.2
    obtain ⟨hxfits, -⟩ := ha.linear hna rfl hc.admits.1
    obtain ⟨hyfits, -⟩ := hb.linear hnb rfl hc.admits.2
    have hns : ¬ (Diagram.pair x y).isScalar = true := by
      intro hs
      obtain ⟨hxs, hys⟩ := isScalar_pair.mp hs
      have has := ha.isScalar_of_isScalar hxs
      have hbs := hb.isScalar_of_isScalar hys
      refine not_isScalar_of_simpleOrders?_eq_none hsimple ?_
      rcases hpair with rfl | rfl
      · exact isScalar_pair.mpr ⟨has, hbs⟩
      · exact isScalar_pair.mpr ⟨hbs, has⟩
    have hz := (hjoin.spec hxfits hyfits hc.planar).2.1.1
    have hreal : Realizes R e e' (Diagram.pair a b) z :=
      (hrealx.pair hrealy hnb hnx).trans (hjoin.realizes hxfits hyfits hc.planar hns)
    rcases hpair with rfl | rfl
    · exact ⟨hz, hreal⟩
    · exact ⟨hz, (realizes_swap e _ _).trans hreal⟩

end Diagram

end TensorDiagram
