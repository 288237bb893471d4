import TensorDiagram.Proofs.FittingSpaces
import TensorDiagram.Proofs.RoutedLegs

/-!
# Applied braidings

A braiding consists of two wires that cross each other.  A wire that is attached to a tensor, and
whose other end has a label of its own, does nothing but give that label to the leg
(`LegArray.contract_mul_wire`).  So to contract a tensor with a braiding of two of its legs is to
relabel the two legs, and the same holds for the adjoint of the braiding if its wires are attached
the other way round (`Tensor.braiding_relabels`).
-/

namespace TensorDiagram

/-! ## Attached wires -/

namespace LegArray

/-- Labels stay apart if one of them is replaced by a label that is none of them. -/
theorem injOn_update {labels : Multiset Index} {c : Index} (hc : c ∉ labels) (a : Index) :
    Set.InjOn (Function.update id a c) {l | l ∈ labels} := by
  have hnew : ∀ l ∈ labels, Function.update id a c l = c → l = a := by
    intro l hl heq
    by_contra hla
    rw [Function.update_of_ne hla] at heq
    exact hc (heq ▸ hl)
  intro k hk l hl hkl
  by_cases hka : k = a
  · rw [hka, Function.update_self] at hkl
    rw [hka, hnew l hl hkl.symm]
  · by_cases hla : l = a
    · rw [hla, Function.update_self] at hkl
      rw [hla, hnew k hk hkl]
    · rwa [Function.update_of_ne hka, Function.update_of_ne hla] at hkl

variable {R : Type} [CommRing R] {A : LegArray R} {a c : Index} {v : Space}

theorem mem_labels_of_spacesAt (ha : spacesAt A.legs a = {v}) : a ∈ A.labels :=
  mem_labels.mpr ⟨_, mem_spacesAt.mp (ha ▸ Multiset.mem_singleton_self v), rfl⟩

/-- Labels stay distinct if one of them is replaced by a label that is none of them. -/
theorem nodup_mapLabels_update (hA : A.labels.Nodup) (hc : c ∉ A.labels) (a : Index) :
    (A.mapLabels (Function.update id a c)).labels.Nodup := by
  rw [labels_mapLabels]
  exact hA.map_on fun k hk l hl => injOn_update hc a hk hl

variable (hA : A.labels.Nodup) (ha : spacesAt A.legs a = {v}) (hc : c ∉ A.labels)

include hA ha hc

/-- The only label that is joined is the one at which the wire is attached. -/
theorem joined_mul_wire : (A * wire a c v).joined = {a} := by
  have hmem := mem_labels_of_spacesAt ha
  have hac : a ≠ c := fun h => hc (h ▸ hmem)
  ext l
  rw [mem_joined, Finset.mem_singleton, labels_mul, labels_wire, Multiset.count_add,
    Multiset.insert_eq_cons, Multiset.count_cons, Multiset.count_singleton]
  have hle := Multiset.nodup_iff_count_le_one.mp hA l
  constructor
  · intro hcount
    by_contra hla
    by_cases hlc : l = c
    · have hnone := Multiset.count_eq_zero.mpr hc
      rw [hlc, if_neg hac.symm, if_pos rfl] at hcount
      omega
    · rw [if_neg hla, if_neg hlc] at hcount
      omega
  · rintro rfl
    rw [if_pos rfl, if_neg hac, Multiset.count_eq_one_of_mem hA hmem]

/-- A wire gives the label at its other end to the leg at which it is attached. -/
theorem contract_mul_wire : (A * wire a c v).contract = A.mapLabels (Function.update id a c) := by
  have hac : a ≠ c := fun h => hc (h ▸ mem_labels_of_spacesAt ha)
  rw [contract, joined_mul_wire hA ha hc, sumOver_wire hac ha]

/-- A wire does the same beside other arrays, as long as they do not have the label at which it is
attached. -/
theorem contract_mul_wire_mul {M : LegArray R} (hM : a ∉ M.labels) :
    ((A * wire a c v * M).Joinable ↔ (A.mapLabels (Function.update id a c) * M).Joinable) ∧
      (A * wire a c v * M).contract = (A.mapLabels (Function.update id a c) * M).contract := by
  have hac : a ≠ c := fun h => hc (h ▸ mem_labels_of_spacesAt ha)
  have hjoined := joined_mul_wire hA ha hc
  have hinner : ∀ l ∈ (A * wire a c v).joined, l ∉ M.labels := by
    rw [hjoined]
    exact fun l hl => Finset.mem_singleton.mp hl ▸ hM
  rw [joinable_mul_iff hinner, ← contract_contract_mul hinner, contract_mul_wire hA ha hc]
  refine ⟨and_iff_right fun l hl => ⟨v, ?_⟩, rfl⟩
  rw [hjoined, Finset.mem_singleton] at hl
  rw [hl, legs_mul, spacesAt_add, ha, spacesAt_wire hac]
  rfl

/-- Two wires give their labels to the two legs at which they are attached. -/
theorem contract_mul_wires {b d : Index} {w : Space} (hb : spacesAt A.legs b = {w}) (hab : a ≠ b)
    (hd : d ∉ A.labels) (hcd : c ≠ d) :
    (A * (wire a c v * wire b d w)).Joinable ∧
      (A * (wire a c v * wire b d w)).contract =
        A.mapLabels (Function.update (Function.update id b d) a c) ∧
      (A.mapLabels (Function.update (Function.update id b d) a c)).labels.Nodup := by
  have hamem := mem_labels_of_spacesAt ha
  have hbmem := mem_labels_of_spacesAt hb
  have had : a ≠ d := fun h => hd (h ▸ hamem)
  have hcb : c ≠ b := fun h => hc (h ▸ hbmem)
  have hwire : a ∉ (wire b d w : LegArray R).labels := by simp [labels_wire, hab, had]
  -- the second wire finds the array as before, but for the label that the first wire has replaced
  set A' := A.mapLabels (Function.update id a c) with hA'
  have hnodup : A'.labels.Nodup := nodup_mapLabels_update hA hc a
  have hspaces : spacesAt A'.legs b = {w} := by
    have hsame := spacesAt_mapLabels (injOn_update hc a) hbmem
    rwa [Function.update_of_ne hab.symm, id, hb] at hsame
  have hfresh : d ∉ A'.labels := by
    rw [hA', labels_mapLabels, Multiset.mem_map]
    rintro ⟨l, hl, heq⟩
    by_cases hla : l = a
    · rw [hla, Function.update_self] at heq
      exact hcd heq
    · rw [Function.update_of_ne hla, id] at heq
      exact hd (heq ▸ hl)
  have hboth : A'.mapLabels (Function.update id b d) =
      A.mapLabels (Function.update (Function.update id b d) a c) := by
    rw [hA', mapLabels_mapLabels, Function.comp_update, Function.comp_id,
      Function.update_of_ne hcb, id]
  have hnodup' := nodup_mapLabels_update hnodup hfresh b
  obtain ⟨hjoin, hcontract⟩ := contract_mul_wire_mul hA ha hc hwire
  obtain ⟨hjoin', -⟩ :=
    contract_mul_wire_mul hnodup hspaces hfresh (M := 1) (Multiset.notMem_zero b)
  rw [mul_one, mul_one] at hjoin'
  rw [← mul_assoc, hjoin, hcontract, contract_mul_wire hnodup hspaces hfresh, ← hboth]
  exact ⟨hjoin'.mpr (joinable_of_nodup hnodup'), rfl, hnodup'⟩

end LegArray

/-! ## Braidings of two legs -/

namespace Tensor

variable {R : Type} [CommRing R] [Arithmetic R]

theorem spacesAt_toArray {t : Tensor R} {labels : List Index} (ht : labels.length = t.legs.count)
    (hnodup : labels.Nodup) {i : ℕ} {a : Index} {v : Space} (ha : labels[i]? = some a)
    (hv : t.space i = .ok v) : LegArray.spacesAt (t.toArray labels).legs a = {v} := by
  have hmem : v ∈ LegArray.spacesAt (t.toArray labels).legs a := by
    rw [LegArray.mem_spacesAt, legs_toArray]
    exact List.mem_of_getElem? (List.getElem?_zip_eq_some.mpr ⟨ha, space_eq_ok_iff.mp hv⟩)
  have hcard : (LegArray.spacesAt (t.toArray labels).legs a).card = 1 := by
    rw [LegArray.card_spacesAt, labels_toArray ht, Multiset.coe_count]
    exact List.count_eq_one_of_mem hnodup (List.mem_of_getElem? ha)
  obtain ⟨w, hw⟩ := Multiset.card_eq_one.mp hcard
  rw [hw, Multiset.mem_singleton] at hmem
  rw [hw, hmem]

variable [StarRing R] [Arithmetic.IsExact R]

/-- The legs of a tensor with distinct labels can be brought to any order. -/
theorem exists_permute_iff {t : Tensor R} {labels : List Index} (ht : labels.length = t.legs.count)
    (hnodup : labels.Nodup) {left right : List Index} :
    (∃ u, t.permute labels left right = .ok u) ↔ (left ++ right).Perm labels := by
  constructor
  · rintro ⟨u, hu⟩
    have hlabels := (contractAll_spec hu).labels_eq
    rw [network_singleton, contract_toArray ht hnodup, labels_toArray ht] at hlabels
    exact Multiset.coe_eq_coe.mp hlabels
  · intro hperm
    obtain ⟨u, hu, -⟩ := exists_arranged ht hnodup hperm
    exact ⟨u, hu⟩

/-- The labels with `c` in the place of `a`, and `d` in the place of `b`. -/
def relabelled (labels : List Index) (a b c d : Index) : List Index :=
  labels.map fun l => if l = a then c else if l = b then d else l

theorem relabelled_eq_map (labels : List Index) (a b c d : Index) :
    relabelled labels a b c d = labels.map (Function.update (Function.update id b d) a c) := by
  refine List.map_congr_left fun l _ => ?_
  simp only [Function.update_apply, id]

theorem length_relabelled (labels : List Index) (a b c d : Index) :
    (relabelled labels a b c d).length = labels.length := by
  rw [relabelled, List.length_map]

section Attached

variable {t : Tensor R} {labels : List Index} {i j : ℕ} {a b c d : Index} {v w : Space}
  (ht : labels.length = t.legs.count) (hnodup : labels.Nodup)
  (ha : labels[i]? = some a) (hb : labels[j]? = some b) (hab : a ≠ b)
  (hc : c ∉ labels) (hd : d ∉ labels) (hcd : c ≠ d)
  (hv : t.space i = .ok v) (hw : t.space j = .ok w)

include ht hnodup ha hb hab hc hd hcd hv hw

omit [StarRing R] [Arithmetic.IsExact R] in
/-- Wires that are attached to two legs of a tensor relabel them. -/
theorem contract_toArray_wires :
    (t.toArray labels * (.wire a c v * .wire b d w)).Joinable ∧
      (t.toArray labels * (.wire a c v * .wire b d w)).contract =
        t.toArray (relabelled labels a b c d) ∧
      (relabelled labels a b c d).Nodup := by
  have hlabels := labels_toArray ht
  obtain ⟨hjoin, hcontract, hnew⟩ :=
    LegArray.contract_mul_wires (hlabels ▸ Multiset.coe_nodup.mpr hnodup)
    (spacesAt_toArray ht hnodup ha hv) (hlabels ▸ hc) (spacesAt_toArray ht hnodup hb hw) hab
      (hlabels ▸ hd) hcd
  rw [mapLabels_toArray, ← relabelled_eq_map] at hcontract hnew
  have hcount := (length_relabelled labels a b c d).trans ht
  rw [labels_toArray hcount, Multiset.coe_nodup] at hnew
  exact ⟨hjoin, hcontract, hnew⟩

/-- A tensor that consists of two wires relabels the two legs at which they are attached. -/
theorem contract_wires_sameOutcome {s : Tensor R} {ends : List Index}
    (hs : ends.length = s.legs.count) (hwires : s.toArray ends = .wire a c v * .wire b d w)
    (left right : List Index) :
    SameOutcome Agrees (s.contract ends t labels left right)
      (t.permute (relabelled labels a b c d) left right) := by
  obtain ⟨hjoin, hcontract, hnew⟩ := contract_toArray_wires ht hnodup ha hb hab hc hd hcd hv hw
  have hcount := (length_relabelled labels a b c d).trans ht
  refine contractAll_sameOutcome_of_network (iff_of_true ?_ ?_) (iff_of_true ?_ ?_) ?_ left right
  · exact List.forall_mem_cons.mpr ⟨hs, List.forall_mem_singleton.mpr ht⟩
  · exact List.forall_mem_singleton.mpr hcount
  · rwa [network_pair, hwires, mul_comm]
  · rw [network_singleton]
    exact joinable_toArray hcount hnew
  · rw [network_pair, hwires, mul_comm, hcontract, network_singleton, contract_toArray hcount hnew]

end Attached

/-- To contract a tensor with the braiding of two of its legs is to relabel the two legs.  So is to
contract it with the adjoint of the braiding, of which the outputs are attached and not the
inputs. -/
theorem braiding_relabels {t : Tensor R} {labels : List Index} (ht : labels.length = t.legs.count)
    (hnodup : labels.Nodup) {i j : ℕ} {a b c d : Index} (ha : labels[i]? = some a)
    (hb : labels[j]? = some b) (hab : a ≠ b) (hc : c ∉ labels) (hd : d ∉ labels) (hcd : c ≠ d)
    {v w : Space} (hv : t.space i = .ok v) (hw : t.space j = .ok w) :
    ∃ τ : Tensor R, braiding v w = .ok τ ∧ ∀ left right : List Index,
      SameOutcome Agrees (τ.contract [d, c, a, b] t labels left right)
        (t.permute (relabelled labels a b c d) left right) ∧
      SameOutcome Agrees (τ.adjoint.contract [c, d, b, a] t labels left right)
        (t.permute (relabelled labels a b c d) left right) ∧
      ((∃ u, t.permute (relabelled labels a b c d) left right = .ok u) ↔
        (left ++ right).Perm (relabelled labels a b c d)) := by
  obtain ⟨τ, hτ, -⟩ := Machine.exists_braiding (R := R)
    (dim_nonneg (List.mem_of_getElem? (space_eq_ok_iff.mp hv)))
    (dim_nonneg (List.mem_of_getElem? (space_eq_ok_iff.mp hw)))
  have hcrossing := isCrossing_of_braiding hτ
  have hrelabels {s : Tensor R} {ends : List Index} (hs : ends.length = s.legs.count)
      (hwires : s.toArray ends = .wire a c v * .wire b d w) :=
    contract_wires_sameOutcome ht hnodup ha hb hab hc hd hcd hv hw hs hwires
  refine ⟨τ, hτ, fun left right => ⟨hrelabels ?_ ?_ left right, hrelabels ?_ ?_ left right, ?_⟩⟩
  · rw [hcrossing.legs_eq]
    rfl
  · exact hcrossing.toArray_eq d c a b
  · rw [hcrossing.adjoint.legs_eq]
    rfl
  · rw [hcrossing.adjoint.toArray_eq c d b a, mul_comm]
  · obtain ⟨-, -, hnew⟩ := contract_toArray_wires ht hnodup ha hb hab hc hd hcd hv hw
    exact exists_permute_iff ((length_relabelled labels a b c d).trans ht) hnew

/-- A tensor with an input and an output whose legs do not stand next to each other. -/
def apartLegs : Operand ℤ :=
  ⟨numberedTensor [false, true] [false], [.name "b", .name "x", .name "a"]⟩

/-- A braiding and its adjoint relabel an input, which shows a dual space, and an output. -/
theorem braiding_relabels_apartLegs : apartLegs.IsProper ∧ apartLegs.labels.Nodup ∧
    ∃ τ u x y : Tensor ℤ, braiding ⟨2, true⟩ ⟨2, false⟩ = .ok τ ∧
    apartLegs.tensor.permute [.name "d", .name "x", .name "c"] [.name "c"]
      [.name "d", .name "x"] = .ok u ∧
    τ.contract [.name "d", .name "c", .name "a", .name "b"] apartLegs.tensor
      apartLegs.labels [.name "c"] [.name "d", .name "x"] = .ok x ∧ u.Agrees x ∧
    τ.adjoint.contract [.name "c", .name "d", .name "b", .name "a"] apartLegs.tensor
      apartLegs.labels [.name "c"] [.name "d", .name "x"] = .ok y ∧ u.Agrees y := by
  have hcount : apartLegs.labels.length = apartLegs.tensor.legs.count := rfl
  have hnodup : apartLegs.labels.Nodup := by decide
  have hrelabelled : relabelled apartLegs.labels (.name "a") (.name "b") (.name "c") (.name "d") =
      [.name "d", .name "x", .name "c"] := by decide
  obtain ⟨τ, hτ, hrelabels⟩ :=
    braiding_relabels hcount hnodup (i := 2) (j := 0) (a := .name "a") (b := .name "b")
    rfl rfl (by decide) (c := .name "c") (d := .name "d") (by decide) (by decide) (by decide)
      (v := ⟨2, true⟩)
    (w := ⟨2, false⟩) rfl rfl
  obtain ⟨hbraiding, hadjoint, hsuccess⟩ := hrelabels [.name "c"] [.name "d", .name "x"]
  rw [hrelabelled] at hbraiding hadjoint hsuccess
  obtain ⟨u, hu⟩ := hsuccess.mpr (by decide)
  obtain ⟨x, hx, hux⟩ := (hbraiding.symm fun _ _ h => h.symm).exists_ok hu
  obtain ⟨y, hy, huy⟩ := (hadjoint.symm fun _ _ h => h.symm).exists_ok hu
  exact ⟨hcount, hnodup, τ, u, x, y, hτ, hu, hx, hux, hy, huy⟩

end Tensor

end TensorDiagram
