import TensorDiagram.Proofs.Untangling

/-!
# Products in another order

A monomial means the contraction of the product of the arrays of its factors.  Conversely, if all
factors are arrays and the legs of their product can be joined, then the monomial means something,
however it is nested (`Machine.exists_denote_of_arrays`).  So monomials with the same factors mean
the same (`IsMonomial.denote_eq_of_perm`).

What is assigned to a left hand side is determined by what the right hand side means, with one
exception.  A scalar may be assigned a multiple of a tensor without legs whose reference has
indices, since nothing asks for these indices (`Machine.meaning_or_multiple`).  But then the
indices do not matter and may be left out (`IsMonomial.evaluate_bare`).  So what is assigned does
not depend on the order of the factors (`Machine.assignedTo_sameOutcome_of_perm`).
-/

namespace TensorDiagram

variable {d d' : Diagram}

/-! ## Arrays of products -/

namespace LegArray

variable {R : Type} [CommRing R] {N M : LegArray R}

/-- Legs that can be joined in a product can be joined in a factor. -/
theorem Joinable.of_mul (h : (N * M).Joinable) : N.Joinable := by
  intro l
  have hle : spacesAt N.legs l ≤ spacesAt (N * M).legs l := by
    rw [legs_mul, spacesAt_add]
    exact Multiset.le_add_right _ _
  rcases hcard : (spacesAt N.legs l).card with _ | _ | n
  · exact Or.inl (Multiset.card_eq_zero.mp hcard)
  · exact Or.inr (Or.inl (Multiset.card_eq_one.mp hcard))
  · have hge := Multiset.card_le_card hle
    rcases h l with hnone | ⟨v, hone⟩ | ⟨v, htwo⟩
    · rw [hnone, Multiset.card_zero] at hge
      omega
    · rw [hone, Multiset.card_singleton] at hge
      omega
    · rw [htwo] at hle
      exact Or.inr
        (Or.inr ⟨v, Multiset.eq_of_le_of_card_le hle (by rw [Multiset.card_pair]; omega)⟩)

/-- Legs that can be joined at once can be joined after both factors are contracted. -/
theorem Joinable.contract_mul_contract (h : (N * M).Joinable)
    (hcount : ∀ l, (N * M).labels.count l ≤ 2) : (N.contract * M.contract).Joinable := by
  have hNM : ∀ l ∈ N.joined, l ∉ M.labels := fun l => notMem_labels_of_mem_joined hcount
  have hMN : ∀ l ∈ M.joined, l ∉ N.contract.labels := fun l hl hl' =>
    notMem_labels_of_mem_joined (by rwa [mul_comm]) hl (mem_labels_of_mem_contract hl')
  have hhalf := ((joinable_mul_iff hNM).mp h).2
  rw [mul_comm] at hhalf ⊢
  exact ((joinable_mul_iff hMN).mp hhalf).2

end LegArray

namespace Meaning

variable {R : Type} [CommRing R]

/-- Meanings can be multiplied if their legs can be joined. -/
theorem exists_mul {u v : Meaning R} (h : (u.toArray * v.toArray).Joinable) :
    ∃ w, u.mul v = some w := by
  match u, v with
  | scalar x, scalar y => exact ⟨_, rfl⟩
  | scalar x, array M => exact ⟨_, rfl⟩
  | array N, scalar y => exact ⟨_, rfl⟩
  | array N, array M => exact ⟨_, if_pos h⟩

/-- The scalar that something without legs means. -/
def toScalar? : Meaning R → Option R
  | scalar x => some x
  | array N => if N.legs = 0 then some (N.entry fun _ => 0) else none

end Meaning

namespace Machine

open Diagram Evaluated

variable {R : Type} [CommRing R] [StarRing R] [Arithmetic R] [Arithmetic.IsExact R] {m : Machine R}

omit [StarRing R] [Arithmetic.IsExact R] in
theorem rightUnique_factorArray (m : Machine R) :
    Relator.RightUnique fun x N => m.factorArray x = some N :=
  fun _ _ _ hN hM => Option.some.inj (hN.symm.trans hM)

/-- A monomial whose factors are arrays with legs that can be joined means something. -/
theorem exists_denote_of_arrays (hd : d.IsMonomial) (hcount : ∀ i, d.indexBag.count i ≤ 2)
    {Ns : List (LegArray R)} (h : List.Forall₂ (fun x N => m.factorArray x = some N) d.factors Ns)
    (hjoin : Ns.prod.Joinable) : ∃ v, m.denote d = some v := by
  induction hd generalizing Ns with
  | @factor d hd =>
    rw [hd.factors_eq] at h
    obtain ⟨N, _, hN, hnil, rfl⟩ := List.forall₂_cons_left_iff.mp h
    obtain rfl := List.forall₂_nil_left_iff.mp hnil
    have hscalar : d.isScalar = true → ∃ v, m.denote d = some v := fun hs => by
      obtain ⟨x, hx, -⟩ := factorArray_of_isScalar hd.isNormal hs hN
      exact ⟨_, hx⟩
    cases hd with
    | ref t => exact exists_denote_of_refArray hN (by rwa [List.prod_singleton] at hjoin)
    | scalar s => exact hscalar rfl
    | conj name => exact hscalar rfl
  | @pair a b ha hb iha ihb =>
    have hcounts : ∀ i, a.indexBag.count i ≤ 2 ∧ b.indexBag.count i ≤ 2 := fun i => by
      have hle := hcount i
      rw [indexBag_pair, Multiset.count_add] at hle
      omega
    -- the arrays of both parts
    rw [factors_pair] at h
    have hAs := List.forall₂_take a.factors.length h
    have hBs := List.forall₂_drop a.factors.length h
    rw [List.take_left] at hAs
    rw [List.drop_left] at hBs
    rw [← List.take_append_drop a.factors.length Ns, List.prod_append] at hjoin
    obtain ⟨u, hu⟩ := iha (fun i => (hcounts i).1) hAs hjoin.of_mul
    obtain ⟨v, hv⟩ :=
      ihb (fun i => (hcounts i).2) hBs (by rw [mul_comm] at hjoin; exact hjoin.of_mul)
    obtain ⟨As, hAs', -, huAs⟩ := exists_arrays ha (fun i => (hcounts i).1) hu
    obtain ⟨Bs, hBs', -, hvBs⟩ := exists_arrays hb (fun i => (hcounts i).2) hv
    rw [m.rightUnique_factorArray.forall₂ hAs hAs',
      m.rightUnique_factorArray.forall₂ hBs hBs'] at hjoin
    have hmul : (u.toArray * v.toArray).Joinable := by
      rw [huAs, hvBs]
      refine hjoin.contract_mul_contract fun l => ?_
      rw [LegArray.labels_mul, labels_prod_factors ha hAs', labels_prod_factors hb hBs',
        ← indexBag_pair]
      exact hcount l
    obtain ⟨w, hw⟩ := Meaning.exists_mul hmul
    exact ⟨w, by rw [denote_pair, hu, Option.bind_some, hv, Option.bind_some, hw]⟩

end Machine

namespace Diagram

/-- A monomial is a scalar if all its factors are. -/
theorem IsMonomial.isScalar_iff (hd : d.IsMonomial) :
    d.isScalar = true ↔ ∀ x ∈ d.factors, x.isScalar = true := by
  induction hd with
  | factor hd => rw [hd.factors_eq, List.forall_mem_singleton]
  | pair _ _ iha ihb => rw [isScalar_pair, factors_pair, List.forall_mem_append, iha, ihb]

variable (hd : d.IsMonomial) (hd' : d'.IsMonomial) (hperm : d.factors.Perm d'.factors)

include hd hd' hperm

/-- The references of a monomial are those of its factors. -/
theorem IsMonomial.tensors_perm : d.tensors.Perm d'.tensors := by
  rw [hd.tensors_eq, hd'.tensors_eq]
  exact hperm.flatMap_right _

theorem IsMonomial.indexBag_eq_of_perm : d.indexBag = d'.indexBag := by
  rw [indexBag, indexBag, Multiset.coe_eq_coe]
  exact (hd.tensors_perm hd' hperm).flatMap_right _

variable {R : Type} [CommRing R] [StarRing R] [Arithmetic R] [Arithmetic.IsExact R] {m : Machine R}

theorem IsMonomial.denote_of_perm (hcount : ∀ i, d.indexBag.count i ≤ 2) {v : Meaning R}
    (h : m.denote d = some v) : m.denote d' = some v := by
  have hbag : d'.indexBag = d.indexBag := hd'.indexBag_eq_of_perm hd hperm.symm
  obtain ⟨Ns, hNs, hjoin, hv⟩ := Machine.exists_arrays hd hcount h
  obtain ⟨Ms, hMs, hMNs⟩ := List.perm_comp_forall₂ hperm.symm hNs
  rw [← hMNs.prod_eq] at hjoin hv
  obtain ⟨w, hw⟩ := Machine.exists_denote_of_arrays hd' (by rwa [hbag]) hMs hjoin
  obtain ⟨Ks, hKs, -, hwKs⟩ := Machine.exists_arrays hd' (by rwa [hbag]) hw
  rw [m.rightUnique_factorArray.forall₂ hKs hMs, ← hv] at hwKs
  -- both are scalars, or both are arrays
  have hscalar : d'.isScalar = true ↔ d.isScalar = true := by
    rw [hd.isScalar_iff, hd'.isScalar_iff]
    exact forall_congr' fun x => by rw [hperm.mem_iff]
  rw [hw]
  by_cases hs : d.isScalar = true
  · obtain ⟨x, rfl⟩ := Machine.exists_scalar_of_denote_eq hd.isNormal hs h
    obtain ⟨y, rfl⟩ := Machine.exists_scalar_of_denote_eq hd'.isNormal (hscalar.mpr hs) hw
    have hentry := congrArg (fun N : LegArray R => N.entry fun _ => 0) hwKs
    exact congrArg (some ∘ Meaning.scalar) hentry
  · obtain ⟨N, rfl⟩ := Machine.exists_array_of_denote_eq hd.isNormal hs h
    obtain ⟨M, rfl⟩ :=
      Machine.exists_array_of_denote_eq hd'.isNormal (fun hs' => hs (hscalar.mp hs')) hw
    exact congrArg (some ∘ Meaning.array) hwKs

/-- Monomials with the same factors mean the same. -/
theorem IsMonomial.denote_eq_of_perm (hcount : ∀ i, d.indexBag.count i ≤ 2) :
    m.denote d' = m.denote d := by
  have hbag : d'.indexBag = d.indexBag := hd'.indexBag_eq_of_perm hd hperm.symm
  exact Option.ext fun v =>
    ⟨hd'.denote_of_perm hd hperm.symm (by rwa [hbag]), hd.denote_of_perm hd' hperm hcount⟩

end Diagram

/-! ## What is assigned -/

namespace Evaluated

variable {R : Type}

/-- The value without its labels, if it has some. -/
def bare : Evaluated R → Evaluated R
  | labelled v _ => labelled v []
  | plain v => plain v

variable [CommRing R] [Arithmetic R]

omit [CommRing R] in
theorem assigned_bare (x : Evaluated R) : x.bare.assigned = x.assigned := by
  cases x <;> rfl

omit [CommRing R] in
theorem scaled_bare (v : Value R) (labels : List Index) (alpha : Value R) :
    scaled v [] alpha = (scaled v labels alpha).map bare := by
  rw [scaled, scaled]
  rcases v.toTensor with e | t
  · rfl
  · rcases alpha.toScalar with e | x
    · rfl
    · simp only [ok_bind]
      rcases t.scale x with e | u <;> rfl

/-- What is assigned to a scalar, by what the value means. -/
theorem assigned_eq_ok_iff_toScalar? {x : Evaluated R} {v : Meaning R} (h : x.meaning? = some v)
    {w : Value R} : x.assigned = .ok w ↔ ∃ y, v.toScalar? = some y ∧ w = .scalar y := by
  match x with
  | plain (.tensor t) => cases h
  | plain (.scalar y) =>
    obtain rfl := Option.some.inj h
    simp [assigned, Meaning.toScalar?, eq_comm]
  | labelled u labels =>
    obtain ⟨N, rfl⟩ := exists_array_of_labelled h
    obtain ⟨t, labels', heq, hcount, -⟩ := meaning?_eq_array_iff.mp h
    have hsettled : (labelled u labels).IsSettled := heq ▸ Or.inr hcount
    rw [assigned_eq_ok_iff hsettled, h]
    constructor
    · rintro ⟨M, hM, hlegs, rfl⟩
      obtain rfl := Meaning.array.inj (Option.some.inj hM)
      exact ⟨_, if_pos hlegs, rfl⟩
    · rintro ⟨y, hy, rfl⟩
      rw [Meaning.toScalar?] at hy
      split_ifs at hy with hlegs
      exact ⟨N, rfl, hlegs, by rw [Option.some.inj hy]⟩

end Evaluated

/-- The reference without indices. -/
def TensorRef.bare (t : TensorRef) : TensorRef :=
  { t with left := [], right := [] }

namespace Diagram

open Evaluated

variable {R : Type} [CommRing R] [StarRing R] [Arithmetic R] [Arithmetic.IsExact R] {m : Machine R}
  {d d' : Diagram}

theorem IsMonomial.isScalar_of_tensors_eq_nil (hd : d.IsMonomial) (h : d.tensors = []) :
    d.isScalar = true := by
  refine hd.isScalar_iff.mpr fun x hx => ?_
  rw [hd.tensors_eq, List.flatMap_eq_nil_iff] at h
  cases hd.isFactor x hx with
  | ref t => cases h _ hx
  | scalar s => rfl
  | conj name => rfl

/-- If there is at most one reference, and its indices are distinct, then they may be left out. -/
theorem IsMonomial.evaluate_bare (hd : d.IsMonomial) (hlength : d.tensors.length ≤ 1)
    (hnodup : ∀ t ∈ d.tensors, t.indices.Nodup) :
    m.evaluate (d.mapRefs TensorRef.bare) = (m.evaluate d).map Evaluated.bare := by
  induction hd with
  | @factor d hd =>
    have hscalar : d.isScalar = true → m.evaluate d = (m.evaluate d).map Evaluated.bare := by
      intro hs
      rcases hx : m.evaluate d with e | x
      · rfl
      · cases x with
        | plain v => rfl
        | labelled v labels => exact absurd hs (hd.isNormal.hasForm hx).1
    cases hd with
    | ref t =>
      have hdup := isEmpty_duplicates_iff.mpr (hnodup t (List.mem_singleton_self t))
      rw [Diagram.mapRefs, Machine.evaluate, Machine.evaluate, Machine.evaluateRef,
        Machine.evaluateRef]
      change (m.referent t.object t.isAdjoint >>= fun v => if (duplicates [] []).isEmpty =
        true then _ else _) = _
      rcases m.referent t.object t.isAdjoint with e | v
      · rfl
      · rw [ok_bind, ok_bind, if_pos hdup]
        rfl
    | scalar s => exact hscalar rfl
    | conj name => exact hscalar rfl
  | @pair a b ha hb iha ihb =>
    rw [tensors, listTensors, List.append_nil] at hlength hnodup
    rw [List.length_append] at hlength
    obtain ⟨hanodup, hbnodup⟩ := List.forall_mem_append.mp hnodup
    change m.evaluate (Diagram.pair (a.mapRefs TensorRef.bare) (b.mapRefs TensorRef.bare)) = _
    rw [Machine.evaluate_pair, Machine.evaluate_pair, iha (by omega) hanodup,
      ihb (by omega) hbnodup]
    rcases hx : m.evaluate a with e | x
    · rfl
    rcases hy : m.evaluate b with e | y
    · rfl
    have hxa := ha.isNormal.hasForm hx
    have hyb := hb.isNormal.hasForm hy
    rcases x with ⟨v, labels⟩ | v <;> rcases y with ⟨w, others⟩ | w
    · -- there is only one reference
      rcases Nat.eq_zero_or_pos a.tensors.length with hzero | hpos
      · exact absurd (ha.isScalar_of_tensors_eq_nil (List.length_eq_zero_iff.mp hzero)) hxa.1
      · exact absurd (hb.isScalar_of_tensors_eq_nil (List.length_eq_zero_iff.mp (by omega))) hyb.1
    · exact scaled_bare v labels w
    · exact scaled_bare w others v
    · change (plain v).mul (plain w) = ((plain v).mul (plain w)).map Evaluated.bare
      rw [Evaluated.mul]
      rcases v.toScalar with e | z
      · rfl
      · rcases w.toScalar with e | z'
        · rfl
        · simp only [ok_bind]
          rcases Arithmetic.mulScalars z z' with e | u <;> rfl

/-- If a value of the expression is assigned to a scalar, then it means something. -/
def AssignsMeaning (m : Machine R) (d : Diagram) : Prop :=
  ∀ x w, m.evaluate d = .ok x → x.assigned = .ok w → ∃ v, x.meaning? = some v

omit [StarRing R] [Arithmetic.IsExact R] in
/-- What is assigned to a scalar, by what the expression means. -/
theorem AssignsMeaning.assigned_iff (h : d.AssignsMeaning m) {w : Value R} :
    m.evaluate d >>= Evaluated.assigned = .ok w ↔
      ∃ v y, m.denote d = some v ∧ v.toScalar? = some y ∧ w = .scalar y := by
  rw [bind_eq_ok_iff]
  constructor
  · rintro ⟨x, hx, hw⟩
    obtain ⟨v, hv⟩ := h x w hx hw
    obtain ⟨y, hy, rfl⟩ := (assigned_eq_ok_iff_toScalar? hv).mp hw
    exact ⟨v, y, by rw [Machine.denote, hx, outcome?_ok, hv], hy, rfl⟩
  · rintro ⟨v, y, hv, hy, rfl⟩
    rw [Machine.denote] at hv
    rcases hx : m.evaluate d with e | x
    · rw [hx] at hv
      cases hv
    · rw [hx, outcome?_ok] at hv
      exact ⟨x, rfl, (assigned_eq_ok_iff_toScalar? hv).mpr ⟨y, hy, rfl⟩⟩

omit [StarRing R] [Arithmetic.IsExact R] in
theorem AssignsMeaning.sameOutcome (h : d.AssignsMeaning m) (h' : d'.AssignsMeaning m)
    (hdenote : m.denote d' = m.denote d) :
    SameOutcome Eq (m.evaluate d >>= Evaluated.assigned)
      (m.evaluate d' >>= Evaluated.assigned) := by
  have hiff : ∀ w, m.evaluate d >>= Evaluated.assigned = .ok w ↔
      m.evaluate d' >>= Evaluated.assigned = .ok w :=
    fun w => by rw [h.assigned_iff, h'.assigned_iff, hdenote]
  exact .of_exists_ok (fun w hw => ⟨w, (hiff w).mp hw, rfl⟩) fun w hw => ⟨w, (hiff w).mpr hw⟩

/-- A multiple of one reference, without its indices. -/
theorem IsMonomial.assignsMeaning_bare (hd : d.IsMonomial) {t : TensorRef} (ht : d.tensors = [t])
    (hnodup : t.indices.Nodup) : (d.mapRefs TensorRef.bare).AssignsMeaning m := by
  intro x w hx hw
  rw [hd.evaluate_bare (by rw [ht]; rfl) (by rwa [ht, List.forall_mem_singleton])] at hx
  rcases hy : m.evaluate d with e | y
  · rw [hy] at hx
    cases hx
  · rw [hy] at hx
    obtain rfl := Except.ok.inj hx
    match y with
    | plain v =>
      have hs : d.isScalar = true := hd.isNormal.hasForm hy
      rw [hd.tensors_of_isScalar hs] at ht
      cases ht
    | labelled (.scalar z) labels => cases hw
    | labelled (.tensor u) labels =>
      -- only a tensor without legs is a scalar
      rw [assigned_bare, assigned, Value.toTensor, ok_bind, Tensor.toScalar] at hw
      split_ifs at hw with hcount
      · exact ⟨_, if_pos hcount.symm⟩
      · cases hw

/-- A factor is the only monomial with this factor alone. -/
theorem IsFactor.eq_of_perm (hfactor : d.IsFactor) (hd' : d'.IsMonomial)
    (hperm : d.factors.Perm d'.factors) : d = d' := by
  have hpos : ∀ {x : Diagram}, x.IsMonomial → 0 < x.factors.length := by
    intro x hx
    induction hx with
    | factor hx => rw [hx.factors_eq]; exact Nat.one_pos
    | pair _ _ iha _ => rw [factors_pair, List.length_append]; omega
  rw [hfactor.factors_eq] at hperm
  cases hd' with
  | factor hd' =>
    rw [hd'.factors_eq, List.singleton_perm_singleton] at hperm
    exact hperm
  | pair ha hb =>
    have hlength := hperm.length_eq
    have hposa := hpos ha
    have hposb := hpos hb
    rw [factors_pair, List.length_append, List.length_singleton] at hlength
    omega

/-- What is assigned to a scalar does not depend on the order of the factors. -/
theorem IsMonomial.assigned_sameOutcome (hd : d.IsMonomial) (hd' : d'.IsMonomial)
    (hperm : d.factors.Perm d'.factors) (hcount : ∀ i, d.indexBag.count i ≤ 2) :
    SameOutcome Eq (m.evaluate d >>= Evaluated.assigned)
      (m.evaluate d' >>= Evaluated.assigned) := by
  by_cases hfactor : d.IsFactor
  · rw [hfactor.eq_of_perm hd' hperm]
    exact .refl (fun _ => rfl) _
  have hfactor' : ¬ d'.IsFactor := fun h => hfactor (h.eq_of_perm hd hperm.symm ▸ h)
  have htensors : d'.tensors.Perm d.tensors := hd'.tensors_perm hd hperm.symm
  by_cases hmultiple : ∃ t, d.tensors = [t] ∧ t.indices.Nodup
  · obtain ⟨t, ht, hnodup⟩ := hmultiple
    have ht' : d'.tensors = [t] := List.perm_singleton.mp (ht ▸ htensors)
    have hbare : ∀ {x : Diagram}, x.IsMonomial → x.tensors = [t] →
        m.evaluate x >>= Evaluated.assigned = m.evaluate (x.mapRefs TensorRef.bare) >>=
        Evaluated.assigned := by
      intro x hx hxt
      rw [hx.evaluate_bare (by rw [hxt]; rfl) (by rwa [hxt, List.forall_mem_singleton])]
      rcases m.evaluate x with e | y
      · rfl
      · exact (assigned_bare y).symm
    rw [hbare hd ht, hbare hd' ht']
    refine (hd.assignsMeaning_bare ht hnodup).sameOutcome (hd'.assignsMeaning_bare ht' hnodup) ?_
    refine (hd.mapRefs _).denote_eq_of_perm (hd'.mapRefs _) ?_ fun i => ?_
    · rw [hd.factors_mapRefs, hd'.factors_mapRefs]
      exact hperm.map _
    · rw [indexBag, tensors_mapRefs, ht]
      exact Nat.zero_le 2
  · have hmeaning : ∀ {x : Diagram}, x.IsMonomial → ¬ x.IsFactor → x.tensors.Perm d.tensors →
        x.AssignsMeaning m := by
      intro x hx hxfactor hxt y w hy _
      rcases Machine.meaning_or_multiple hx hy with hv | ⟨t, ht, hnodup, -⟩ | ⟨h, -⟩
      · exact hv
      · exact absurd ⟨t, List.perm_singleton.mp (ht ▸ hxt.symm), hnodup⟩ hmultiple
      · exact absurd h hxfactor
    exact (hmeaning hd hfactor (.refl _)).sameOutcome (hmeaning hd' hfactor' htensors)
      (hd.denote_eq_of_perm hd' hperm hcount)

end Diagram

namespace Machine

variable {R : Type} [CommRing R] [StarRing R] [Arithmetic R] [Arithmetic.IsExact R]
  {m m' : Machine R}

/-- The tensor that is assigned depends on what the right hand side means, and on the order of
legs. -/
theorem arrangedValue_sameOutcome {t t' : TensorRef} (hleft : t'.left = t.left)
    (hright : t'.right = t.right) (hd : d.IsNormal) (hd' : d'.IsNormal)
    (hdenote : m'.denote d' = m.denote d) (isDefinition : Bool) :
    SameOutcome Tensor.Agrees (m.arrangedValue (.ref t) d isDefinition)
      (m'.arrangedValue (.ref t') d' isDefinition) := by
  have hindices : t'.indices = t.indices := by
    rw [TensorRef.indices, hleft, hright, TensorRef.indices]
  refine .of_exists_ok (fun w hw => ?_) fun w hw => ?_
  · obtain ⟨N, hN, hw⟩ := denote_of_arrangedValue hd hw
    obtain ⟨w', hw', harranged⟩ :=
      exists_arrangedValue isDefinition hd' (hdenote.trans hN) (hindices ▸ hw.labels_eq)
    refine ⟨w', hw', hw.agrees ⟨hindices ▸ harranged.array_eq, hleft ▸ harranged.outputs,
      hindices ▸ harranged.count_eq, hindices ▸ harranged.nodup⟩⟩
  · obtain ⟨N, hN, hw⟩ := denote_of_arrangedValue hd' hw
    obtain ⟨w', hw', -⟩ :=
      exists_arrangedValue isDefinition hd (hdenote.symm.trans hN) (hindices ▸ hw.labels_eq)
    exact ⟨w', hw'⟩

/-- The value that is assigned to a left hand side. -/
def assignedTo (m : Machine R) (lhs rhs : Diagram) (isDefinition : Bool) : Except Error (Value R) :=
  match lhs with
  | .ref t => m.arrangedValue (.ref t) rhs isDefinition >>= fun w =>
      .ok (.tensor (if t.isAdjoint then w.adjoint else w))
  | .scalar _ => m.evaluate rhs >>= Evaluated.assigned
  | _ => .error .notTensor

/-- What is assigned does not depend on the order of the factors. -/
theorem assignedTo_sameOutcome_of_perm (hd : d.IsMonomial) (hd' : d'.IsMonomial)
    (hperm : d.factors.Perm d'.factors) (hcount : ∀ i, d.indexBag.count i ≤ 2) (lhs : Diagram)
    (isDefinition : Bool) :
    SameOutcome Value.Agrees (m.assignedTo lhs d isDefinition)
      (m.assignedTo lhs d' isDefinition) := by
  cases lhs with
  | ref t =>
    have hdenote : m.denote d' = m.denote d := hd.denote_eq_of_perm hd' hperm hcount
    refine (arrangedValue_sameOutcome rfl rfl hd.isNormal hd'.isNormal hdenote isDefinition).bind
      fun w w' hw => ?_
    refine .ok (.tensor ?_)
    split_ifs
    · exact hw.adjoint
    · exact hw
  | scalar s => exact (hd.assigned_sameOutcome hd' hperm hcount).mono fun v w hvw => hvw ▸ .refl v
  | _ => exact .error _ _

end Machine

end TensorDiagram
