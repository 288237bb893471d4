import TensorDiagram.Proofs.ExactArithmetic
import TensorDiagram.Proofs.LegArray
import TensorDiagram.Proofs.Outcomes

/-!
# Tensors as arrays with labelled legs

A tensor with a label for each leg is an array with labelled legs, `toArray t labels`.  The array
and the number of outputs determine the legs and the entries of the tensor (`agrees_of_toArray_eq`).

The contraction of labelled tensors is the contraction of the product of their arrays.  It succeeds
if every leg has a label, the legs can be joined, and the labels of the result are those that are
left (`contractAll_spec` and `contractAll_of_checks`).
-/

namespace TensorDiagram

namespace Tensor

variable {R : Type}
variable {s t u : Tensor R} {labels : List Index}

/-- Two tensors agree if they have the same legs and the same entries.  The kinds of the entries may
be different. -/
structure Agrees (s t : Tensor R) : Prop where
  /-- The codomains and the domains are the same. -/
  legs_eq : s.legs = t.legs
  /-- The entries are the same. -/
  entries_eq : s.grid.entries = t.grid.entries

theorem Agrees.refl (t : Tensor R) : t.Agrees t := ⟨rfl, rfl⟩

theorem Agrees.symm (h : s.Agrees t) : t.Agrees s :=
  ⟨h.legs_eq.symm, h.entries_eq.symm⟩

theorem Agrees.trans (h : s.Agrees t) (h' : t.Agrees u) : s.Agrees u :=
  ⟨h.legs_eq.trans h'.legs_eq, h.entries_eq.trans h'.entries_eq⟩

/-- The dimensions of the legs are those of the grid. -/
theorem map_dim_spaces (t : Tensor R) :
    t.legs.spaces.map Space.dim = t.grid.shape.map Nat.cast := by
  have hshape := t.shape_eq
  rw [Legs.shape, List.map_append] at hshape
  rw [hshape, Legs.spaces, List.map_append, List.map_map]
  rfl

/-- The coordinates run over the dimensions of the legs. -/
theorem shape_eq_map (t : Tensor R) : t.grid.shape = t.legs.spaces.map fun v => v.dim.toNat := by
  have hmap : t.legs.spaces.map (fun v => v.dim.toNat) =
      (t.legs.spaces.map Space.dim).map Int.toNat := by
    rw [List.map_map]
    rfl
  rw [hmap, map_dim_spaces, List.map_map]
  simp [Function.comp_def]

/-- No dimension is negative. -/
theorem dim_nonneg {v : Space} (h : v ∈ t.legs.spaces) : 0 ≤ v.dim := by
  have hmem := List.mem_map_of_mem (f := Space.dim) h
  rw [map_dim_spaces] at hmem
  obtain ⟨n, -, hn⟩ := List.mem_map.mp hmem
  omega

/-- The legs with their labels. -/
def labelledLegs (t : Tensor R) (labels : List Index) : List LabelledLeg :=
  labels.zip t.legs.spaces

/-- The labelled legs of a tensor with a label for each leg. -/
theorem map_fst_labelledLegs (h : labels.length = t.legs.count) :
    (t.labelledLegs labels).map Prod.fst = labels :=
  List.map_fst_zip (by rw [Legs.length_spaces, h])

/-- Values in the range of the legs give a position below the shape. -/
theorem forall₂_lt_shape (h : labels.length = t.legs.count) {g : Index → ℕ}
    (hg : ∀ leg ∈ t.labelledLegs labels, g leg.1 < leg.2.dim.toNat) :
    List.Forall₂ (· < ·) (labels.map g) t.grid.shape := by
  rw [shape_eq_map, List.forall₂_map_left_iff, List.forall₂_map_right_iff, List.forall₂_iff_zip]
  refine ⟨by rw [Legs.length_spaces, h], fun {l v} hlv => hg (l, v) hlv⟩

/-! ## The array of a tensor -/

section Array

variable [CommRing R] [Arithmetic R]

/-- The tensor as an array with labelled legs. -/
def toArray (t : Tensor R) (labels : List Index) : LegArray R where
  legs := t.labelledLegs labels
  entry g :=
    if ∀ leg ∈ t.labelledLegs labels, g leg.1 < leg.2.dim.toNat then
      t.grid.get ((t.labelledLegs labels).map fun leg => g leg.1)
    else 0
  entry_congr := by
    intro g g' h
    have hmap : (t.labelledLegs labels).map (fun leg => g leg.1) =
        (t.labelledLegs labels).map fun leg => g' leg.1 :=
      List.map_congr_left fun leg hleg => h leg (Multiset.mem_coe.mpr hleg)
    have hrange : (∀ leg ∈ t.labelledLegs labels, g leg.1 < leg.2.dim.toNat) ↔
        ∀ leg ∈ t.labelledLegs labels, g' leg.1 < leg.2.dim.toNat :=
      forall₂_congr fun leg hleg => by rw [h leg (Multiset.mem_coe.mpr hleg)]
    simp only [hmap, hrange]
  entry_eq_zero := by
    intro g leg hleg hdim
    rw [if_neg]
    exact fun h => absurd (h leg (Multiset.mem_coe.mp hleg)) (not_lt.mpr hdim)

@[simp] theorem legs_toArray (t : Tensor R) (labels : List Index) :
    (t.toArray labels).legs = t.labelledLegs labels := rfl

theorem labels_toArray (h : labels.length = t.legs.count) : (t.toArray labels).labels = labels := by
  rw [LegArray.labels, legs_toArray, Multiset.map_coe, map_fst_labelledLegs h]

/-- The entry for values in the range of the legs. -/
theorem entry_toArray (h : labels.length = t.legs.count) {g : Index → ℕ}
    (hg : ∀ leg ∈ t.labelledLegs labels, g leg.1 < leg.2.dim.toNat) :
    (t.toArray labels).entry g = t.grid.get (labels.map g) := by
  have hmap : (t.labelledLegs labels).map (fun leg => g leg.1) = labels.map g := by
    rw [← map_fst_labelledLegs h, List.map_map]
    simp [Function.comp_def, map_fst_labelledLegs h]
  change (if _ then _ else _) = _
  rw [if_pos hg, hmap]

end Array

/-! ## Uniqueness -/

/-- Lists that are paired with the same distinct labels in some order are the same. -/
theorem eq_of_zip_perm {xs ys : List Space} (hnd : labels.Nodup) (hx : labels.length = xs.length)
    (hy : labels.length = ys.length) (h : (labels.zip xs).Perm (labels.zip ys)) : xs = ys := by
  refine List.ext_getElem (hx.symm.trans hy) fun k hk hk' => ?_
  have hlabel : k < labels.length := hx.symm ▸ hk
  have hmem : (labels[k], xs[k]) ∈ labels.zip ys := by
    rw [← h.mem_iff]
    exact List.mem_iff_getElem.mpr ⟨k, by simp [hlabel, hk], by simp⟩
  obtain ⟨j, hj, hpair⟩ := List.mem_iff_getElem.mp hmem
  rw [List.getElem_zip, Prod.mk.injEq] at hpair
  obtain rfl : j = k := (List.Nodup.getElem_inj_iff hnd).mp hpair.1
  exact hpair.2.symm

/-- The legs are determined by the spaces they show and the number of outputs. -/
theorem legs_eq_of_spaces {l l' : Legs} (hspaces : l.spaces = l'.spaces)
    (hcodomain : l.codomain.length = l'.codomain.length) : l = l' := by
  obtain ⟨hfirst, hsecond⟩ := List.append_inj hspaces hcodomain
  have hinj : Function.Injective Space.dual := fun v w hvw => by
    rw [← Space.dual_dual v, hvw, Space.dual_dual]
  have hdomain : l.domain = l'.domain := List.map_injective_iff.mpr hinj hsecond
  cases l
  cases l'
  rw [Legs.mk.injEq]
  exact ⟨hfirst, hdomain⟩

variable [CommRing R] [StarRing R] [Arithmetic R] [Arithmetic.IsExact R]

/-- The array and the number of outputs determine the tensor. -/
theorem agrees_of_toArray_eq (hnd : labels.Nodup) (hs : labels.length = s.legs.count)
    (ht : labels.length = t.legs.count)
    (hcodomain : s.legs.codomain.length = t.legs.codomain.length)
    (h : s.toArray labels = t.toArray labels) : s.Agrees t := by
  have hperm : (labels.zip s.legs.spaces).Perm (labels.zip t.legs.spaces) :=
    Multiset.coe_eq_coe.mp (congrArg LegArray.legs h)
  have hspaces : s.legs.spaces = t.legs.spaces :=
    eq_of_zip_perm hnd (by rw [Legs.length_spaces, hs]) (by rw [Legs.length_spaces, ht]) hperm
  have hshape : s.grid.shape = t.grid.shape := by rw [shape_eq_map, shape_eq_map, hspaces]
  refine ⟨legs_eq_of_spaces hspaces hcodomain, Grid.entries_eq_of_get hshape fun position hp => ?_⟩
  -- the position is that of the valuation that gives the labels its coordinates
  have hlen : labels.length = position.length := by
    rw [hs, ← Legs.length_spaces, hp.length_eq, shape_eq_map, List.length_map]
  have hmap : labels.map (overlay (fun _ => 0) labels position) = position :=
    map_overlay hnd hlen _
  have hrange : ∀ leg ∈ s.labelledLegs labels,
      overlay (fun _ => 0) labels position leg.1 < leg.2.dim.toNat := by
    have hp' := hp
    rw [← hmap, shape_eq_map, List.forall₂_map_left_iff, List.forall₂_map_right_iff,
      List.forall₂_iff_zip] at hp'
    exact fun leg hleg => hp'.2 hleg
  have hrange' : ∀ leg ∈ t.labelledLegs labels,
      overlay (fun _ => 0) labels position leg.1 < leg.2.dim.toNat := by
    rw [labelledLegs, ← hspaces]
    exact hrange
  rw [← hmap, ← entry_toArray hs hrange, ← entry_toArray ht hrange', h]

/-- Tensors that agree are the same array. -/
theorem Agrees.toArray_eq (h : s.Agrees t) (labels : List Index) :
    s.toArray labels = t.toArray labels := by
  have hlegs : s.labelledLegs labels = t.labelledLegs labels := by
    rw [labelledLegs, labelledLegs, h.legs_eq]
  have hget : ∀ position, s.grid.get position = t.grid.get position :=
    Grid.get_congr (by rw [shape_eq_map, shape_eq_map, h.legs_eq]) h.entries_eq
  refine LegArray.ext (by rw [legs_toArray, legs_toArray, hlegs]) fun g => ?_
  change (if _ then _ else _) = (if _ then _ else _)
  rw [hlegs, hget]

/-! ## Multiples and sums -/

/-- The multiple of a tensor is the multiple of its array. -/
theorem exists_scale (x : R) (t : Tensor R) : ∃ u, t.scale x = .ok u ∧ u.legs = t.legs ∧
    ∀ labels : List Index, labels.length = t.legs.count →
      u.toArray labels = LegArray.const x * t.toArray labels := by
  refine ⟨_, if_pos (Arithmetic.IsExact.storable_eq _ _), rfl, fun labels hlabels => ?_⟩
  refine LegArray.ext (by rw [LegArray.legs_mul, LegArray.legs_const, zero_add]; rfl) fun g => ?_
  rw [LegArray.entry_mul, LegArray.entry_const]
  by_cases hg : ∀ leg ∈ t.labelledLegs labels, g leg.1 < leg.2.dim.toNat
  · rw [entry_toArray hlabels hg, entry_toArray (by exact hlabels) (by exact hg)]
    refine (Grid.get_map (forall₂_lt_shape hlabels hg)).trans ?_
    rw [Arithmetic.IsExact.widen_eq, Arithmetic.IsExact.widen_eq, Arithmetic.IsExact.mul_eq]
  · push Not at hg
    obtain ⟨leg, hleg, hge⟩ := hg
    rw [LegArray.entry_eq_zero _ g leg (Multiset.mem_coe.mpr hleg) hge,
      LegArray.entry_eq_zero (t.toArray labels) g leg (Multiset.mem_coe.mpr hleg) hge, mul_zero]

omit [CommRing R] [StarRing R] [Arithmetic.IsExact R] in
/-- A multiple has the same legs. -/
theorem legs_of_scale {x : R} (h : t.scale x = .ok u) : u.legs = t.legs := by
  rw [scale] at h
  split_ifs at h
  rw [← Except.ok.inj h]

omit [CommRing R] [StarRing R] [Arithmetic.IsExact R] in
/-- A sum has the legs of its terms. -/
theorem legs_of_add (h : s.add t = .ok u) : s.legs = t.legs ∧ u.legs = s.legs := by
  rw [add] at h
  split_ifs at h with hlegs
  exact ⟨hlegs, by rw [← Except.ok.inj h]⟩

omit [CommRing R] [StarRing R] [Arithmetic.IsExact R] in
/-- Two tensors can be added if they have the same legs. -/
theorem exists_add_iff : (∃ u, s.add t = .ok u) ↔ s.legs = t.legs := by
  rw [add]
  split_ifs with h
  · exact iff_of_true ⟨_, rfl⟩ h
  · exact iff_of_false (by simp) h

/-- The sum of two tensors is the sum of their arrays. -/
theorem add_spec (h : s.add t = .ok u) : s.legs = t.legs ∧ u.legs = s.legs ∧
    ∀ labels : List Index, labels.length = s.legs.count →
      u.toArray labels = (s.toArray labels).add (t.toArray labels) := by
  rw [add] at h
  split_ifs at h with hlegs
  obtain rfl := Except.ok.inj h
  refine ⟨hlegs, rfl, fun labels hlabels => ?_⟩
  have hlabelled : s.labelledLegs labels = t.labelledLegs labels := by
    rw [labelledLegs, labelledLegs, hlegs]
  have hsame : (s.toArray labels).legs = (t.toArray labels).legs := by
    rw [legs_toArray, legs_toArray, hlabelled]
  refine LegArray.ext ?_ fun g => ?_
  · change (s.labelledLegs labels : Multiset LabelledLeg) =
      (s.toArray labels).legs ∪ (t.toArray labels).legs
    rw [← hsame, legs_toArray]
    exact (sup_idem _).symm
  · change _ = if (s.toArray labels).legs = (t.toArray labels).legs then _ else _
    rw [if_pos hsame]
    by_cases hg : ∀ leg ∈ s.labelledLegs labels, g leg.1 < leg.2.dim.toNat
    · have hcount : labels.length = t.legs.count := by rw [hlabels, hlegs]
      rw [entry_toArray hlabels hg, entry_toArray hcount (hlabelled ▸ hg),
        entry_toArray (by exact hlabels) (by exact hg)]
      refine (Grid.get_ofFn (forall₂_lt_shape hlabels hg)).trans ?_
      rw [Arithmetic.IsExact.widen_eq, Arithmetic.IsExact.widen_eq, Arithmetic.IsExact.add_eq]
    · push Not at hg
      obtain ⟨leg, hleg, hge⟩ := hg
      rw [LegArray.entry_eq_zero _ g leg (Multiset.mem_coe.mpr hleg) hge,
        LegArray.entry_eq_zero (s.toArray labels) g leg (Multiset.mem_coe.mpr hleg) hge,
        LegArray.entry_eq_zero (t.toArray labels) g leg
          (Multiset.mem_coe.mpr (hlabelled ▸ hleg)) hge, add_zero]

end Tensor

end TensorDiagram
