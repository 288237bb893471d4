import TensorDiagram.Proofs.LoweringMeaning

/-!
# Running lowered assignments

A lowered assignment has the outcome of the assignment itself: both fail, or both leave machines
that agree about everything but the new temporaries (`lowerAssignment_sameOutcome`).

For a left hand side that is a tensor this is the meaning of the right hand side and nothing else.
A scalar that is assigned is the only entry of a tensor without legs, whatever its labels are.  The
labels matter where the right hand side is lowered at all, and there they are those of the tensor
(`LowersTo.eq_or_settled`).
-/

open TensorDiagram.Circle (PairContraction IsPlanarPair)

namespace TensorDiagram

/-! ## Assigned scalars -/

namespace Evaluated

variable {R : Type}

/-- The value has a label for each leg, or no labels at all. -/
def IsSettled : Evaluated R → Prop
  | labelled (.tensor t) labels => labels = [] ∨ labels.length = t.legs.count
  | _ => True

variable [Arithmetic R]

/-- The scalar that is assigned. -/
def assigned : Evaluated R → Except Error (Value R)
  | labelled v _ => v.toTensor >>= fun t => t.toScalar >>= fun x => .ok (.scalar x)
  | plain v => .ok v

theorem assignScalar_eq (m : Machine R) (s : Scalar) (rhs : Diagram) :
    m.assignScalar s rhs = m.evaluate rhs >>= fun x => x.assigned >>= fun v =>
      .ok (m.yield (.ofScalar s) v) := by
  rw [Machine.assignScalar]
  rcases m.evaluate rhs with e | x
  · rfl
  · cases x with
    | plain v => rfl
    | labelled v labels =>
      cases v with
      | scalar y => rfl
      | tensor t =>
        simp only [ok_bind, assigned, Value.toTensor]
        rcases t.toScalar with e | y <;> rfl

variable [CommRing R]

/-- The scalar that is assigned is the only entry of an array without legs. -/
theorem assigned_eq_ok_iff {v w : Value R} {labels : List Index}
    (h : (labelled v labels).IsSettled) : (labelled v labels).assigned = .ok w ↔ ∃ N : LegArray R,
      (labelled v labels).meaning? = some (.array N) ∧ N.legs = 0 ∧
        w = .scalar (N.entry fun _ => 0) := by
  cases v with
  | scalar x => simp [assigned, Value.toTensor, meaning?]
  | tensor t =>
    have hassigned : (labelled (.tensor t) labels).assigned =
        if t.legs.count = 0 then .ok (.scalar (t.grid.get [])) else .error
        (.notWithoutLegs t.legs) := by
      rw [assigned, Value.toTensor, ok_bind, Tensor.toScalar]
      split_ifs <;> rfl
    have hentry : [].length = t.legs.count →
        (t.toArray []).entry (fun _ => 0) = t.grid.get [] := fun hcount =>
      Tensor.entry_toArray hcount fun leg hleg => absurd hleg List.not_mem_nil
    rw [hassigned]
    constructor
    · intro hw
      split_ifs at hw with hcount
      obtain rfl : labels = [] :=
        h.elim id fun hlength => List.length_eq_zero_iff.mp (hlength.trans hcount)
      exact ⟨_, meaning?_eq_array_iff.mpr ⟨t, [], rfl, hcount.symm, rfl⟩, rfl,
        by rw [hentry hcount.symm, Except.ok.inj hw]⟩
    · rintro ⟨N, hN, hlegs, rfl⟩
      obtain ⟨u, labels', heq, hcount, rfl⟩ := meaning?_eq_array_iff.mp hN
      obtain ⟨rfl, rfl⟩ : t = u ∧ labels = labels' := by simpa using heq
      have hzero : (labels : Multiset Index) = 0 := by
        rw [← Tensor.labels_toArray hcount, LegArray.labels, hlegs, Multiset.map_zero]
      obtain rfl := (Multiset.coe_eq_zero labels).mp hzero
      rw [if_pos (show t.legs.count = 0 from hcount.symm), hentry hcount]

omit [CommRing R] in
/-- A value with a sign is settled if the value is. -/
theorem IsSettled.signed {x z : Evaluated R} {sign : Sign} (h : x.IsSettled)
    (hz : x.signed sign = .ok z) : z.IsSettled := by
  rcases productForm_of_signed hz with rfl | ⟨a, hform⟩
  · exact h
  · cases hform with
    | scalars => trivial
    | scaled a labels hlegs => exact h.imp_right fun hcount => hcount.trans (by rw [hlegs])

omit [CommRing R] in
/-- A sum of two terms is settled. -/
theorem isSettled_add {x y z : Evaluated R} {sign : Sign} (hz : x.add sign y = .ok z) :
    z.IsSettled := by
  cases sumForm_of_add hz with
  | scalars => trivial
  | tensors t others hlegs hcount => exact Or.inr hcount

end Evaluated

namespace Diagram

variable (R : Type) [Arithmetic R]

/-- Every value of the expression is settled. -/
def HasSettledValues (d : Diagram) : Prop :=
  ∀ (m : Machine R) (x : Evaluated R), m.evaluate d = .ok x → x.IsSettled

variable {R}

theorem HasSettledValues.sum_first {a : Diagram} (h : a.HasSettledValues R) (sign : Sign) :
    (sum sign a []).HasSettledValues R := by
  intro m x hx
  rw [Machine.evaluate_sum_first] at hx
  obtain ⟨y, hy, hx⟩ := bind_eq_ok_iff.mp hx
  exact (h m y hy).signed hx

theorem hasSettledValues_sum_next (sign next : Sign) (a d : Diagram)
    (rest : List (Sign × Diagram)) : (sum sign a (rest ++ [(next, d)])).HasSettledValues R := by
  intro m x hx
  rw [Machine.evaluate_sum_next] at hx
  obtain ⟨y, -, hx⟩ := bind_eq_ok_iff.mp hx
  obtain ⟨z, -, hx⟩ := bind_eq_ok_iff.mp hx
  exact Evaluated.isSettled_add hx

variable [CommRing R] [StarRing R] [Arithmetic.IsExact R]

/-- An expression without open indices has values without labels. -/
theorem IsNormal.hasSettledValues {d : Diagram} (hd : d.IsNormal) (hadm : d.Admits []) :
    d.HasSettledValues R := by
  intro m x hx
  have hform := hd.hasForm hx
  match x with
  | .plain v => trivial
  | .labelled (.scalar y) labels => trivial
  | .labelled (.tensor t) labels =>
    refine Or.inl (List.eq_nil_iff_forall_not_mem.mpr fun i hi => ?_)
    exact List.not_mem_nil ((hd.mem_iff_isOpen hadm i).mpr ((hform.2.2 i).mp hi))

/-- A right hand side for a scalar is left as it is, unless its values are settled. -/
theorem LowersTo.eq_or_settled {target : WantedOrder} {e e' : Emission} {d x : Diagram}
    (h : LowersTo target e d x e') (hd : d.IsNormal) (ht : target.isTemporary = false)
    (hnil : target.cyclicOrder = []) :
    (x = d ∧ e' = e) ∨ (d.HasSettledValues R ∧ x.HasSettledValues R) := by
  induction h with
  | scalar hs => exact Or.inl ⟨rfl, rfl⟩
  | general hs hg hkeep => exact Or.inl ⟨rfl, rfl⟩
  | traced hs hg htemporary htrace => rw [ht] at htemporary; cases htemporary
  | @sumFirst target e e' sign a a' ha ih =>
    rcases ih (isNormal_sum_iff.mp hd).1 ht hnil with ⟨rfl, rfl⟩ | ⟨hsettled, hsettled'⟩
    · exact Or.inl ⟨rfl, rfl⟩
    · exact Or.inr ⟨hsettled.sum_first sign, hsettled'.sum_first sign⟩
  | sumNext hsum hd' ihsum ihd =>
    exact Or.inr ⟨hasSettledValues_sum_next _ _ _ _ _, hasSettledValues_sum_next _ _ _ _ _⟩
  | pair hpair hsimple hc ha hb hjoin iha ihb =>
    obtain ⟨hna, hnb⟩ := hd.of_pair_or hpair
    obtain ⟨hxfits, -⟩ := ha.linear hna rfl hc.admits.1
    obtain ⟨hyfits, -⟩ := hb.linear hnb rfl hc.admits.2
    obtain ⟨hz, hadm⟩ := (hjoin.spec hxfits hyfits hc.planar).2.1
    have horder := hc.order
    rw [hnil] at horder
    exact Or.inr ⟨hd.hasSettledValues (hnil ▸ hc.admits_pair hpair hd),
      hz.hasSettledValues (hadm.rotated horder)⟩

/-- An expression with tensor indices is not a scalar. -/
theorem IsNormal.not_isScalar_of_isTensor {d : Diagram} (hd : d.IsNormal) (h : d.isTensor = true) :
    ¬ d.isScalar = true := by
  induction hd with
  | ref t => simp [isScalar]
  | scalar s => simp [isTensor] at h
  | conj name => simp [isTensor] at h
  | sum ha hrest iha ihrest =>
    rw [isTensor, Bool.and_eq_true] at h
    exact fun hs => iha h.1 (isScalar_sum_iff.mp hs).1
  | pair ha hb iha ihb =>
    simp only [isTensor, someTensor, Bool.or_false, Bool.or_eq_true] at h
    intro hs
    obtain ⟨has, hbs⟩ := isScalar_pair.mp hs
    exact h.elim (fun ha => iha ha has) fun hb => ihb hb hbs

/-- What is assigned to a scalar, by the meaning of the right hand side. -/
theorem IsNormal.assignScalar_eq_ok_iff {d : Diagram} (hd : d.IsNormal) (hs : ¬ d.isScalar = true)
    (hsettled : d.HasSettledValues R) {m m' : Machine R} {s : Scalar} :
    m.assignScalar s d = .ok m' ↔ ∃ N, m.denote d = some (.array N) ∧ N.legs = 0 ∧
      m' = m.yield (.ofScalar s) (.scalar (N.entry fun _ => 0)) := by
  rw [Evaluated.assignScalar_eq, Machine.denote]
  rcases hx : m.evaluate d with e | x
  · simp
  · obtain ⟨v, labels, rfl⟩ := (hd.hasForm hx).exists_labelled hs
    rw [ok_bind, Evaluated.outcome?_ok, bind_eq_ok_iff]
    constructor
    · rintro ⟨w, hw, hm'⟩
      obtain ⟨N, hN, hlegs, rfl⟩ := (Evaluated.assigned_eq_ok_iff (hsettled m _ hx)).mp hw
      exact ⟨N, hN, hlegs, (Except.ok.inj hm').symm⟩
    · rintro ⟨N, hN, hlegs, rfl⟩
      exact ⟨_, (Evaluated.assigned_eq_ok_iff (hsettled m _ hx)).mpr ⟨N, hN, hlegs, rfl⟩, rfl⟩

/-! ## Whole assignments -/

/-- The object is not a temporary. -/
abbrev IsLasting : ObjectRef → Prop :=
  IsOld 0

section

variable {new : List Diagram} {rhs x : Diagram} {n n' : ℕ} (hnew : StandsFor R n n' new rhs x)
  (huses : rhs.Uses IsLasting) (hrhs : rhs.IsNormal) (hx : x.IsNormal)

include hnew huses hrhs hx

/-- A tensor is assigned the same after the definitions. -/
theorem assign_ref_sameOutcome (t : TensorRef) (isDefinition : Bool) (m : Machine R) :
    SameOutcome (Machine.AgreesOn IsLasting) (m.execute (assign (ref t) rhs isDefinition))
      (m.executeAll (new ++ [assign (ref t) x isDefinition])) := by
  have hmeaning := hnew.meaning m (huses.mono fun o => IsOld.mono (Nat.zero_le n))
  refine .of_exists_ok (fun m₁ hm₁ => ?_) fun m₂ hm₂ => ?_
  · obtain ⟨w, hw, hm₁⟩ := bind_eq_ok_iff.mp (Machine.execute_assign_eq_ok_iff.mp hm₁)
    obtain rfl := Except.ok.inj hm₁
    obtain ⟨N, hN, harranged⟩ := Machine.denote_of_arrangedValue hrhs hw
    rw [hN] at hmeaning
    obtain ⟨m', hm', hx'⟩ := Option.bind_eq_some_iff.mp hmeaning
    obtain ⟨w', hw', harranged'⟩ :=
      Machine.exists_arrangedValue isDefinition hx hx' harranged.labels_eq
    refine ⟨m'.bind t.object (.tensor (if t.isAdjoint then w'.adjoint else w')),
      Machine.executeAll_assign_eq_ok_iff.mpr ⟨m', hm', bind_eq_ok_iff.mpr ⟨w', hw', rfl⟩⟩, ?_⟩
    refine ((hnew.frame m m' hm').mono fun o => IsOld.mono (Nat.zero_le n)).bind
      t.object (.tensor ?_)
    have hagrees := harranged.agrees harranged'
    split_ifs
    · exact hagrees.adjoint
    · exact hagrees
  · obtain ⟨m', hm', hm₂⟩ := Machine.executeAll_assign_eq_ok_iff.mp hm₂
    obtain ⟨w', hw', -⟩ := bind_eq_ok_iff.mp hm₂
    obtain ⟨N, hN, harranged⟩ := Machine.denote_of_arrangedValue hx hw'
    rw [hm', Option.bind_some, hN] at hmeaning
    obtain ⟨w, hw, -⟩ :=
      Machine.exists_arrangedValue isDefinition hrhs hmeaning.symm harranged.labels_eq
    exact ⟨_, Machine.execute_assign_eq_ok_iff.mpr (bind_eq_ok_iff.mpr ⟨w, hw, rfl⟩)⟩

/-- A scalar is assigned the same after the definitions. -/
theorem assign_scalar_sameOutcome (hs : ¬ rhs.isScalar = true) (hs' : ¬ x.isScalar = true)
    (hsettled : rhs.HasSettledValues R) (hsettled' : x.HasSettledValues R) (s : Scalar)
    (isDefinition : Bool) (m : Machine R) :
    SameOutcome (Machine.AgreesOn IsLasting) (m.execute (assign (scalar s) rhs isDefinition))
      (m.executeAll (new ++ [assign (scalar s) x isDefinition])) := by
  have hmeaning := hnew.meaning m (huses.mono fun o => IsOld.mono (Nat.zero_le n))
  refine .of_exists_ok (fun m₁ hm₁ => ?_) fun m₂ hm₂ => ?_
  · obtain ⟨N, hN, hlegs, rfl⟩ :=
      (hrhs.assignScalar_eq_ok_iff hs hsettled).mp (Machine.execute_assign_eq_ok_iff.mp hm₁)
    rw [hN] at hmeaning
    obtain ⟨m', hm', hx'⟩ := Option.bind_eq_some_iff.mp hmeaning
    refine ⟨_, Machine.executeAll_assign_eq_ok_iff.mpr ⟨m', hm',
      (hx.assignScalar_eq_ok_iff hs' hsettled').mpr ⟨N, hx', hlegs, rfl⟩⟩, ?_⟩
    exact ((hnew.frame m m' hm').mono fun o => IsOld.mono (Nat.zero_le n)).yield _ (.refl _)
  · obtain ⟨m', hm', hm₂⟩ := Machine.executeAll_assign_eq_ok_iff.mp hm₂
    obtain ⟨N, hN, hlegs, -⟩ := (hx.assignScalar_eq_ok_iff hs' hsettled').mp hm₂
    rw [hm', Option.bind_some, hN] at hmeaning
    exact ⟨_, Machine.execute_assign_eq_ok_iff.mpr
      ((hrhs.assignScalar_eq_ok_iff hs hsettled).mpr ⟨N, hmeaning.symm, hlegs, rfl⟩)⟩

end

/-- A lowered assignment has the outcome of the assignment. -/
theorem lowerAssignment_sameOutcome {table table' : HandleTable} {lhs rhs lowered : Diagram}
    {isDefinition : Bool} (hlhs : lhs.IsAssignable) (hrhs : rhs.IsNormal)
    (huses : rhs.Uses IsLasting)
    (h : lowerAssignment table lhs rhs isDefinition = .ok (lowered, table')) (m : Machine R) :
    SameOutcome (Machine.AgreesOn IsLasting) (m.execute (assign lhs rhs isDefinition))
      (m.execute lowered) := by
  rw [lowerAssignment] at h
  split_ifs at h with htensor
  · obtain ⟨⟨x, e⟩, hx, h⟩ := bind_eq_ok_iff.mp h
    obtain ⟨rfl, rfl⟩ := Prod.mk.inj (Except.ok.inj h)
    have hfalse : (WantedOrder.ofLhs lhs).isTemporary = false := by
      cases lhs <;> rfl
    have hlowers := hrhs.lowersTo hx
    obtain ⟨hnx, new, hnew, hstands⟩ := hlowers.realizes (R := R) hrhs fun ht => by
      rw [hfalse] at ht
      cases ht
    obtain rfl : e.definitions = new := hnew
    have hblock : m.execute (block (e.definitions ++ [assign lhs x isDefinition])) =
        m.executeAll (e.definitions ++ [assign lhs x isDefinition]) := by
      simp only [Machine.execute]
    rw [hblock]
    cases hlhs with
    | ref t => exact assign_ref_sameOutcome hstands huses hrhs hnx t isDefinition m
    | scalar s =>
      rcases hlowers.eq_or_settled (R := R) hrhs hfalse rfl with ⟨rfl, rfl⟩ | ⟨hsettled, hsettled'⟩
      · rw [List.nil_append, Machine.executeAll_singleton]
        exact .refl .refl _
      · have hs := hrhs.not_isScalar_of_isTensor htensor
        exact assign_scalar_sameOutcome hstands huses hrhs hnx hs
          (fun hs' => hs (hlowers.isScalar_of_isScalar hs')) hsettled hsettled' s isDefinition m
  · obtain ⟨rfl, -⟩ := Prod.mk.inj (Except.ok.inj h)
    exact .refl .refl _

end Diagram

end TensorDiagram
