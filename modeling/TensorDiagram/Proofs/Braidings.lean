import TensorDiagram.Proofs.Monomials
import TensorDiagram.Proofs.StrandSpaces

/-!
# Braidings

Two ways to get rid of the braidings of a statement are looked at here.

Where braidings are removed, they are dropped from products once the ends of their strands are
identified.  What remains of a product are its other factors (`IsMonomial.remainder_spec`).

Where they are constructed, each strand gets the space of a leg that it leads to.  The tensor of a
braiding is the product of two wires (`Tensor.IsCrossing.toArray_eq`).
-/

namespace TensorDiagram

/-! ## Tensors of braidings -/

namespace Tensor

variable {R : Type} [CommRing R] [StarRing R] [Arithmetic R] [Arithmetic.IsExact R]

/-- The entries of a braiding. -/
structure IsCrossing (v w : Space) (t : Tensor R) : Prop where
  /-- The legs. -/
  legs_eq : t.legs = ⟨[w, v], [v, w]⟩
  /-- Every strand is an identity. -/
  get_eq : ∀ y x a b : ℕ, List.Forall₂ (· < ·) [y, x, a, b] t.grid.shape →
    t.grid.get [y, x, a, b] = if x = a ∧ y = b then 1 else 0

theorem isCrossing_of_braiding {v w : Space} {t : Tensor R} (h : braiding v w = .ok t) :
    t.IsCrossing v w := by
  rw [braiding] at h
  split_ifs at h with hdim
  rw [ofGrid] at h
  split_ifs at h with hshape
  obtain rfl := Except.ok.inj h
  refine ⟨rfl, fun y x a b hposition => ?_⟩
  refine (Grid.get_ofFn hposition).trans ?_
  dsimp only
  rw [Arithmetic.ofInt_eq]
  split_ifs <;> simp

omit [StarRing R] [Arithmetic.IsExact R] in
/-- A braiding is the product of its strands. -/
theorem IsCrossing.toArray_eq {v w : Space} {t : Tensor R} (h : t.IsCrossing v w)
    (l₁ l₂ r₁ r₂ : Index) : t.toArray [l₁, l₂, r₁, r₂] = .wire r₁ l₂ v * .wire r₂ l₁ w := by
  have hlegs : t.labelledLegs [l₁, l₂, r₁, r₂] =
      [(l₁, w), (l₂, v), (r₁, v.dual), (r₂, w.dual)] := by
    rw [labelledLegs, h.legs_eq]
    rfl
  have hcount : [l₁, l₂, r₁, r₂].length = t.legs.count := by
    rw [h.legs_eq]
    rfl
  have hwires : (t.toArray [l₁, l₂, r₁, r₂]).legs =
      ((.wire r₁ l₂ v * .wire r₂ l₁ w : LegArray R)).legs := by
    rw [legs_toArray, hlegs]
    have hperm : List.Perm ([(l₂, v), (r₁, v.dual)] ++ (l₁, w) :: [(r₂, w.dual)])
        ((l₁, w) :: ([(l₂, v), (r₁, v.dual)] ++ [(r₂, w.dual)])) := List.perm_middle
    exact Multiset.coe_eq_coe.mpr hperm.symm
  refine LegArray.ext hwires fun g => ?_
  by_cases hg : ∀ leg ∈ t.labelledLegs [l₁, l₂, r₁, r₂], g leg.1 < leg.2.dim.toNat
  · rw [entry_toArray hcount hg, List.map_cons, List.map_cons, List.map_cons,
      List.map_cons, List.map_nil, h.get_eq _ _ _ _ (forall₂_lt_shape hcount hg)]
    rw [hlegs] at hg
    have hl₁ : g l₁ < w.dim.toNat := hg (l₁, w) (by simp)
    have hl₂ : g l₂ < v.dim.toNat := hg (l₂, v) (by simp)
    change _ = (if _ then _ else _) * (if _ then _ else _)
    rw [ite_zero_mul_ite_zero, mul_one]
    refine if_congr ⟨fun hg => ⟨⟨hg.1.symm, hl₂⟩, hg.2.symm, hl₁⟩, fun hg =>
      ⟨hg.1.1.symm, hg.2.1.symm⟩⟩ rfl rfl
  · push Not at hg
    obtain ⟨leg, hleg, hge⟩ := hg
    have hmem : leg ∈ (t.toArray [l₁, l₂, r₁, r₂]).legs := Multiset.mem_coe.mpr hleg
    rw [LegArray.entry_eq_zero _ g leg hmem hge, LegArray.entry_eq_zero _ g leg (hwires ▸ hmem) hge]

/-- The adjoint of a braiding is the braiding of the spaces in the other order. -/
theorem IsCrossing.adjoint {v w : Space} {t : Tensor R} (h : t.IsCrossing v w) :
    t.adjoint.IsCrossing w v := by
  have hlegs : t.adjoint.legs = ⟨[v, w], [w, v]⟩ := by
    change t.legs.adjoint = _
    rw [h.legs_eq]
    rfl
  refine ⟨hlegs, fun y x a b hposition => ?_⟩
  have hbelow : List.Forall₂ (· < ·) [a, b, y, x] t.grid.shape := by
    rw [shape_eq_map, hlegs] at hposition
    rw [shape_eq_map, h.legs_eq]
    obtain _ | ⟨hy, _ | ⟨hx, _ | ⟨ha, _ | ⟨hb, -⟩⟩⟩⟩ := hposition
    exact .cons ha (.cons hb (.cons hy (.cons hx .nil)))
  have hinputs : t.legs.domain.length = 2 := by
    rw [h.legs_eq]
    rfl
  refine (Grid.get_ofFn hposition).trans ?_
  rw [hinputs]
  change Arithmetic.conj (t.grid.get [a, b, y, x]) = _
  rw [Arithmetic.IsExact.conj_eq, h.get_eq a b y x hbelow]
  by_cases hstrands : x = a ∧ y = b
  · rw [if_pos hstrands, if_pos ⟨hstrands.2.symm, hstrands.1.symm⟩, star_one]
  · rw [if_neg hstrands, if_neg fun h => hstrands ⟨h.2.symm, h.1.symm⟩, star_zero]

end Tensor

/-! ## Strands -/

namespace TensorRef

variable {braidingName : String}

/-- A strand of one of the references. -/
def IsStrandOf (braidingName : String) (ts : List TensorRef) (e : Strand) : Prop :=
  ∃ t ∈ ts, ∃ s, t.strands braidingName = .ok s ∧ (e = s.1 ∨ e = s.2)

theorem mem_iff_of_allStrands_eq_ok {ts : List TensorRef} {strands : List Strand}
    (h : allStrands braidingName ts = .ok strands) (e : Strand) :
    e ∈ strands ↔ IsStrandOf braidingName ts e := by
  rw [allStrands] at h
  obtain ⟨pairs, hpairs, h⟩ := bind_eq_ok_iff.mp h
  obtain rfl := Except.ok.inj h
  simp only [List.mem_flatMap, List.mem_cons, List.not_mem_nil, or_false,
    mem_of_mapM_eq_ok hpairs, IsStrandOf]
  constructor
  · rintro ⟨s, ⟨t, ht, hs⟩, he⟩
    exact ⟨t, ht, s, hs, he⟩
  · rintro ⟨t, ht, s, hs, he⟩
    exact ⟨s, ⟨t, ht, hs⟩, he⟩

/-- A braiding can be removed if its strands are joined. -/
theorem checkRemovable_eq_ok_iff {t : TensorRef} :
    t.checkRemovable = .ok () ↔ ∃ a b, t.left = [a, b] ∧ t.right = [b, a] := by
  constructor
  · intro h
    rw [checkRemovable] at h
    split at h
    · rename_i a b c d hleft hright
      split_ifs at h with hends
      exact ⟨a, b, hleft, by rw [hright, hends.1, hends.2]⟩
    · cases h
  · rintro ⟨a, b, hleft, hright⟩
    rw [checkRemovable, hleft, hright]
    exact if_pos ⟨rfl, rfl⟩

/-- Where a braiding can be removed, the ends of its strands have been identified. -/
theorem eq_of_checkRemovable {t : TensorRef} {r : Index → Index}
    (h : (t.mapIndices r).checkRemovable = .ok ())
    {s : Strand × Strand} (hs : t.strands braidingName = .ok s) :
    r s.1.1 = r s.1.2 ∧ r s.2.1 = r s.2.2 := by
  obtain ⟨a, b, hleft, hright⟩ := checkRemovable_eq_ok_iff.mp h
  rw [strands] at hs
  split at hs
  · rename_i l₁ l₂ r₁ r₂ hl hr
    rw [mapIndices, hl] at hleft
    rw [mapIndices, hr] at hright
    obtain ⟨rfl, rfl⟩ : r l₁ = a ∧ r l₂ = b := by simpa using hleft
    obtain ⟨hr₁, hr₂⟩ : r r₁ = r l₂ ∧ r r₂ = r l₁ := by simpa using hright
    split_ifs at hs <;> obtain rfl := Except.ok.inj hs
    · exact ⟨hr₂, hr₁⟩
    · exact ⟨hr₁, hr₂⟩
  · cases hs

end TensorRef

/-! ## What remains of a product -/

namespace Diagram

variable {braidingName : String}

/-- A factor is a braiding, or it has none. -/
theorem IsFactor.braiding_cases {x : Diagram} (hx : x.IsFactor) (braidingName : String) :
    (x.braidingTerm? braidingName = none ∧ ∀ t ∈ x.tensors, ¬ t.isBraiding braidingName = true) ∨
      ∃ t, x = .ref t ∧ t.isBraiding braidingName = true := by
  cases hx with
  | ref t =>
    by_cases ht : t.isBraiding braidingName = true
    · exact Or.inr ⟨t, rfl, ht⟩
    · exact Or.inl ⟨if_neg ht, List.forall_mem_singleton.mpr ht⟩
  | scalar s => exact Or.inl ⟨rfl, by simp [tensors]⟩
  | conj name => exact Or.inl ⟨rfl, by simp [tensors]⟩

theorem IsFactor.mapRefs_eq {x : Diagram} (hx : x.IsFactor) {f : TensorRef → TensorRef}
    (h : ∀ t ∈ x.tensors, f t = t) : x.mapRefs f = x := by
  cases hx with
  | ref t => exact congrArg Diagram.ref (h t (List.mem_singleton_self t))
  | scalar s => rfl
  | conj name => rfl

/-- What remains of a monomial are its factors that are no braidings. -/
theorem IsMonomial.remainder_spec {d : Diagram} (hd : d.IsMonomial) {o : Option Diagram}
    (h : d.remainder braidingName = .ok o) : (∀ x ∈ o, x.IsMonomial) ∧
      o.toList.flatMap factors = d.factors.filter (fun x => (x.braidingTerm? braidingName).isNone) ∧
      ∀ t ∈ d.tensors, t.isBraiding braidingName = true → t.checkRemovable = .ok () := by
  induction hd generalizing o with
  | factor hd =>
    cases hd with
    | ref t =>
      rw [remainder] at h
      split_ifs at h with hbraiding
      · obtain ⟨⟨⟩, hremovable, h⟩ := bind_eq_ok_iff.mp h
        obtain rfl := Except.ok.inj h
        simp [factors, braidingTerm?, hbraiding, tensors, hremovable]
      · obtain rfl := Except.ok.inj h
        simp [factors, braidingTerm?, hbraiding, tensors, IsMonomial.factor (.ref t)]
    | scalar s =>
      obtain rfl := Except.ok.inj h
      simp [factors, braidingTerm?, tensors, IsMonomial.factor (.scalar s)]
    | conj name =>
      obtain rfl := Except.ok.inj h
      simp [factors, braidingTerm?, tensors, IsMonomial.factor (.conj name)]
  | pair ha hb iha ihb =>
    rw [Diagram.pair, remainder] at h
    obtain ⟨a', ha', h⟩ := bind_eq_ok_iff.mp h
    obtain ⟨b', hb', h⟩ := bind_eq_ok_iff.mp h
    obtain rfl := Except.ok.inj h
    obtain ⟨hmonomial, hfactors, hremovable⟩ := iha ha'
    obtain ⟨hmonomial', hfactors', hremovable'⟩ := ihb hb'
    rw [factors_pair, List.filter_append, ← hfactors, ← hfactors', List.append_nil]
    refine ⟨?_, ?_, ?_⟩
    · intro x hx
      rcases a' with _ | a' <;> rcases b' with _ | b' <;> cases hx
      · exact hmonomial' _ rfl
      · exact hmonomial _ rfl
      · exact .pair (hmonomial _ rfl) (hmonomial' _ rfl)
    · cases a' <;> cases b' <;> simp [ofFactors?, factors]
    · rw [tensors, listTensors, List.append_nil, List.forall_mem_append]
      exact ⟨hremovable, hremovable'⟩

end Diagram

end TensorDiagram
