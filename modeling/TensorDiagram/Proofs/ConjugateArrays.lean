import TensorDiagram.Proofs.Meaning

/-!
# Conjugates of arrays

The conjugate `star N` of an array with labelled legs has the same labels, dual spaces and conjugate
entries.  It is compatible with all that is done to arrays: products, contractions and sums of
conjugates are conjugates, and legs can be joined after conjugation if they can be joined before.
So the same holds for what values mean (`Meaning.mul_star`, `Meaning.signed_star` and
`Meaning.add_star`).

The adjoint of a tensor, with the labels of its outputs and inputs exchanged, is the conjugate array
(`Tensor.toArray_adjoint`).
-/

namespace TensorDiagram

theorem map_star_map_star {α : Type} [InvolutiveStar α] (x : Option α) :
    (x.map star).map star = x := by
  rw [Option.map_map, star_involutive.comp_self, Option.map_id_fun, id]

namespace LegArray

variable {R : Type} [CommRing R] [StarRing R]

/-! ## Dual legs -/

/-- The leg with the dual space. -/
def dualLeg (leg : LabelledLeg) : LabelledLeg :=
  (leg.1, leg.2.dual)

@[simp] theorem dualLeg_dualLeg (leg : LabelledLeg) : dualLeg (dualLeg leg) = leg := by
  rw [dualLeg, dualLeg, Space.dual_dual]

theorem dualLeg_injective : Function.Injective dualLeg :=
  Function.LeftInverse.injective dualLeg_dualLeg

theorem spacesAt_dualLegs (legs : Multiset LabelledLeg) (l : Index) :
    spacesAt (legs.map dualLeg) l = (spacesAt legs l).map Space.dual := by
  rw [spacesAt, spacesAt, Multiset.filter_map, Multiset.map_map, Multiset.map_map]
  rfl

/-! ## The conjugate of an array -/

/-- The conjugate, with dual spaces and conjugate entries. -/
instance : Star (LegArray R) where
  star N :=
    { legs := N.legs.map dualLeg
      entry := fun g => star (N.entry g)
      entry_congr := by
        intro g g' h
        rw [N.entry_congr g g' fun leg hleg => h (dualLeg leg) (Multiset.mem_map_of_mem _ hleg)]
      entry_eq_zero := by
        intro g leg hleg hdim
        obtain ⟨leg, hmem, rfl⟩ := Multiset.mem_map.mp hleg
        rw [N.entry_eq_zero g leg hmem hdim, star_zero] }

variable (N M : LegArray R)

@[simp] theorem legs_star : (star N).legs = N.legs.map dualLeg := rfl

@[simp] theorem entry_star (g : Index → ℕ) : (star N).entry g = star (N.entry g) := rfl

@[simp] theorem labels_star : (star N).labels = N.labels :=
  Multiset.map_map ..

/-- Conjugation reverses the order of factors, as it does in any ring, but the order does not
matter. -/
instance : StarMul (LegArray R) where
  star_involutive N := by
    refine LegArray.ext ?_ fun g => star_star _
    rw [legs_star, legs_star, Multiset.map_map]
    exact (Multiset.map_congr rfl fun leg _ => dualLeg_dualLeg leg).trans (Multiset.map_id' _)
  star_mul N M := by
    refine LegArray.ext ?_ fun g => star_mul _ _
    rw [legs_star, legs_mul, legs_mul, Multiset.map_add, add_comm]
    rfl

theorem star_const (x : R) : star (const x) = const (star x) := rfl

theorem size_star : (star N).size = N.size :=
  congrArg Multiset.sum (Multiset.map_map ..)

/-- The conjugate of a sum over labels. -/
theorem sumOver_star (S : Finset Index) : sumOver S (star N) = star (sumOver S N) := by
  refine LegArray.ext ?_ fun ρ => ?_
  · rw [legs_sumOver, legs_star, legs_star, legs_sumOver, Multiset.filter_map]
    rfl
  · change ∑ g ∈ valuations S (fun _ => (star N).size) ρ, star (N.entry g) =
      star (∑ g ∈ valuations S (fun _ => N.size) ρ, N.entry g)
    rw [size_star, star_sum]

/-- The conjugate of a contraction. -/
theorem contract_star : (star N).contract = star N.contract := by
  have hjoined : (star N).joined = N.joined := by
    ext l
    rw [mem_joined, mem_joined, labels_star]
  rw [contract, hjoined, sumOver_star, contract]

variable {N M}

theorem Joinable.star (h : N.Joinable) : (star N).Joinable := by
  intro l
  rw [legs_star, spacesAt_dualLegs]
  rcases h l with h | ⟨v, h⟩ | ⟨v, h⟩
  · exact Or.inl (by rw [h, Multiset.map_zero])
  · exact Or.inr (Or.inl ⟨v.dual, by rw [h, Multiset.map_singleton]⟩)
  · exact Or.inr
      (Or.inr ⟨v.dual, by rw [h, Multiset.insert_eq_cons, Multiset.map_cons,
        Multiset.map_singleton]; rfl⟩)

/-- Legs can be joined if the dual legs can be. -/
theorem joinable_star_iff : (star N).Joinable ↔ N.Joinable :=
  ⟨fun h => star_star N ▸ h.star, Joinable.star⟩

theorem legs_star_eq_iff : (star N).legs = (star M).legs ↔ N.legs = M.legs :=
  (Multiset.map_injective dualLeg_injective).eq_iff

/-- The conjugate of a sum of arrays with the same legs. -/
theorem add_star (h : N.legs = M.legs) : (star N).add (star M) = star (N.add M) := by
  refine LegArray.ext ?_ fun g => ?_
  · change (star N).legs ∪ (star M).legs = (N.legs ∪ M.legs).map dualLeg
    rw [legs_star, legs_star, h, Multiset.eq_union_left le_rfl, Multiset.eq_union_left le_rfl]
  · change (if _ then _ else _) = star (if _ then _ else _)
    rw [if_pos (legs_star_eq_iff.mpr h), if_pos h, star_add]
    rfl

end LegArray

/-! ## Conjugates of meanings -/

namespace Meaning

variable {R : Type} [CommRing R] [StarRing R]

/-- The conjugate of a scalar or of an array. -/
instance : InvolutiveStar (Meaning R) where
  star
    | scalar x => scalar (star x)
    | array N => array (star N)
  star_involutive
    | scalar x => congrArg scalar (star_star x)
    | array N => congrArg array (star_star N)

@[simp] theorem star_scalar (x : R) : star (scalar x) = scalar (star x) := rfl

@[simp] theorem star_array (N : LegArray R) : star (array N) = array (star N) := rfl

theorem const_mul_star (x : R) (N : LegArray R) :
    .const (star x) * star N = star (.const x * N) := by
  rw [star_mul', LegArray.star_const]

/-- The product of conjugates. -/
theorem mul_star (u v : Meaning R) : (star u).mul (star v) = (u.mul v).map star := by
  cases u with
  | scalar x =>
    cases v with
    | scalar y => exact congrArg (some ∘ scalar) (star_mul' x y).symm
    | array M => exact congrArg (some ∘ array) (const_mul_star x M)
  | array N =>
    cases v with
    | scalar y => exact congrArg (some ∘ array) (const_mul_star y N)
    | array M =>
      rw [star_array, star_array, mul, mul, ← star_mul', LegArray.contract_star]
      by_cases h : (N * M).Joinable
      · rw [if_pos h, if_pos h.star]
        rfl
      · rw [if_neg h, if_neg (mt LegArray.joinable_star_iff.mp h)]
        rfl

omit [StarRing R] in
theorem legs_signedArray (sign : Sign) (N : LegArray R) : (signedArray sign N).legs = N.legs := by
  cases sign with
  | plus => rfl
  | minus => exact zero_add N.legs

theorem signedArray_star (sign : Sign) (N : LegArray R) :
    signedArray sign (star N) = star (signedArray sign N) := by
  cases sign with
  | plus => rfl
  | minus => rw [signedArray, signedArray, ← const_mul_star, star_neg, star_one]

theorem sign_mul_star (sign : Sign) (x : R) :
    (sign.toInt : R) * star x = star (sign.toInt * x) := by
  rw [star_mul', star_intCast]

/-- The conjugate with a sign. -/
theorem signed_star (sign : Sign) (u : Meaning R) :
    (star u).signed sign = star (u.signed sign) := by
  cases u with
  | scalar x => exact congrArg scalar (sign_mul_star sign x)
  | array N => exact congrArg array (signedArray_star sign N)

/-- The sum of conjugates. -/
theorem add_star (sign : Sign) (u v : Meaning R) :
    (star u).add sign (star v) = (u.add sign v).map star := by
  cases u with
  | scalar x =>
    cases v with
    | scalar y =>
      rw [star_scalar, star_scalar, add, add, sign_mul_star, ← star_add]
      rfl
    | array M => rfl
  | array N =>
    cases v with
    | scalar y => rfl
    | array M =>
      rw [star_array, star_array, add, add]
      simp only [LegArray.legs_star_eq_iff]
      split_ifs with h
      · rw [signedArray_star, LegArray.add_star (h.trans (legs_signedArray sign M).symm)]
        rfl
      · rfl

/-- What is made from conjugates is conjugate, if it is made in a compatible way. -/
theorem bind_bind_star {f : Meaning R → Meaning R → Option (Meaning R)}
    (hf : ∀ u v, f (star u) (star v) = (f u v).map star) (x y : Option (Meaning R)) :
    ((x.map star).bind fun u => (y.map star).bind (f u)) =
      (x.bind fun u => y.bind (f u)).map star := by
  cases x with
  | none => rfl
  | some u =>
    cases y with
    | none => rfl
    | some v => exact hf u v

end Meaning

/-! ## Adjoint tensors -/

namespace Tensor

open LegArray

variable {R : Type} [Arithmetic R] {t : Tensor R} {left right : List Index}

/-- The legs of the adjoint are dual to those of the tensor. -/
theorem labelledLegs_adjoint (hleft : left.length = t.legs.codomain.length)
    (hright : right.length = t.legs.domain.length) :
    (t.adjoint.labelledLegs (right ++ left)).Perm
      ((t.labelledLegs (left ++ right)).map dualLeg) := by
  have hlegs : (t.labelledLegs (left ++ right)).map dualLeg =
      left.zip (t.legs.codomain.map Space.dual) ++ right.zip t.legs.domain := by
    have hleg : dualLeg = Prod.map id Space.dual := rfl
    have hdual : Space.dual ∘ Space.dual = id := funext Space.dual_dual
    rw [labelledLegs, Legs.spaces, List.zip_append hleft, List.map_append, hleg, ← List.zip_map,
      ← List.zip_map, List.map_map, hdual, List.map_id, List.map_id, List.map_id]
  have hadjoint : t.adjoint.labelledLegs (right ++ left) =
      right.zip t.legs.domain ++ left.zip (t.legs.codomain.map Space.dual) :=
    List.zip_append hright
  rw [hlegs, hadjoint]
  exact List.perm_append_comm

variable [CommRing R] [StarRing R] [Arithmetic.IsExact R]

/-- The adjoint of a tensor, with its labels exchanged, is the conjugate array. -/
theorem toArray_adjoint (hleft : left.length = t.legs.codomain.length)
    (hright : right.length = t.legs.domain.length) :
    t.adjoint.toArray (right ++ left) = star (t.toArray (left ++ right)) := by
  have hlegs := labelledLegs_adjoint hleft hright
  refine LegArray.ext (Multiset.coe_eq_coe.mpr hlegs) fun g => ?_
  have hcount : (left ++ right).length = t.legs.count := by
    rw [List.length_append, hleft, hright, Legs.count]
  have hcount' : (right ++ left).length = t.adjoint.legs.count := by
    rw [List.length_append, hleft, hright]
    rfl
  rw [entry_star]
  by_cases hg : ∀ leg ∈ t.labelledLegs (left ++ right), g leg.1 < leg.2.dim.toNat
  · have hg' : ∀ leg ∈ t.adjoint.labelledLegs (right ++ left), g leg.1 < leg.2.dim.toNat :=
      fun leg hleg => by
      obtain ⟨leg, hmem, rfl⟩ := List.mem_map.mp (hlegs.mem_iff.mp hleg)
      exact hg leg hmem
    -- the adjoint reads the entry of the tensor at the exchanged position
    rw [entry_toArray hcount hg, entry_toArray hcount' hg']
    refine (Grid.get_ofFn (forall₂_lt_shape hcount' hg')).trans ?_
    rw [Arithmetic.IsExact.conj_eq, List.map_append, List.map_append, ← hright, ← List.length_map g,
      List.drop_left, List.take_left]
  · push Not at hg
    obtain ⟨leg, hleg, hge⟩ := hg
    have hleg' : dualLeg leg ∈ t.adjoint.labelledLegs (right ++ left) :=
      hlegs.mem_iff.mpr (List.mem_map_of_mem hleg)
    rw [LegArray.entry_eq_zero (t.toArray _) g leg (Multiset.mem_coe.mpr hleg) hge, star_zero,
      LegArray.entry_eq_zero _ g (dualLeg leg) (Multiset.mem_coe.mpr hleg') hge]

end Tensor

end TensorDiagram
