import TensorDiagram.Proofs.Valuations
import TensorDiagram.Tensor.Contract

/-!
# Arrays with labelled legs

What a tensor with labelled legs means does not depend on the order of its legs.  A `LegArray` has a
multiset of labelled legs and an entry for every valuation of the labels; the entry is zero if a
label has a value beyond the dimension of its leg.

Arrays are multiplied entry by entry, and the labels that two legs have are then summed over.
`sumOver S N` sums over the labels of `S`, and `contract N` over all labels that appear twice.  The
main fact is that inner contractions can be done first: if no joined label of `N` is on `M`, then
contracting `contract N * M` is contracting `N * M` (`contract_contract_mul`).
-/

namespace TensorDiagram

/-- An array with labelled legs. -/
structure LegArray (R : Type) [Zero R] where
  /-- The legs with their labels and spaces. -/
  legs : Multiset LabelledLeg
  /-- The entry for given values of the labels. -/
  entry : (Index → ℕ) → R
  /-- The entry depends on the labels of the legs only. -/
  entry_congr : ∀ g g', (∀ leg ∈ legs, g leg.1 = g' leg.1) → entry g = entry g'
  /-- The entry is zero outside of the dimensions of the legs. -/
  entry_eq_zero : ∀ g, ∀ leg ∈ legs, leg.2.dim.toNat ≤ g leg.1 → entry g = 0

namespace LegArray

variable {R : Type} [CommRing R]
variable {M N : LegArray R} {S : Finset Index} {l : Index}

theorem ext (hlegs : N.legs = M.legs) (hentry : ∀ g, N.entry g = M.entry g) : N = M := by
  obtain ⟨legs, entry, _, _⟩ := N
  obtain ⟨legs', entry', _, _⟩ := M
  obtain rfl : legs = legs' := hlegs
  obtain rfl : entry = entry' := funext hentry
  rfl

/-- The labels of the legs. -/
def labels (N : LegArray R) : Multiset Index :=
  N.legs.map Prod.fst

theorem mem_labels : l ∈ N.labels ↔ ∃ leg ∈ N.legs, leg.1 = l :=
  Multiset.mem_map

/-- A number beyond which all entries are zero. -/
def size (N : LegArray R) : ℕ :=
  (N.legs.map fun leg => leg.2.dim.toNat).sum

/-- The values of the labels of an entry that is not zero are small. -/
theorem lt_size {g : Index → ℕ} (h : N.entry g ≠ 0) (hl : l ∈ N.labels) : g l < N.size := by
  obtain ⟨leg, hleg, rfl⟩ := mem_labels.mp hl
  by_contra hge
  have hdim : leg.2.dim.toNat ≤ N.size :=
    Multiset.single_le_sum (fun _ _ => Nat.zero_le _) _ (Multiset.mem_map_of_mem _ hleg)
  exact h (N.entry_eq_zero g leg hleg (hdim.trans (not_lt.mp hge)))

/-! ## Products -/

/-- The product, entry by entry. -/
instance : Mul (LegArray R) where
  mul N M :=
    { legs := N.legs + M.legs
      entry := fun g => N.entry g * M.entry g
      entry_congr := by
        intro g g' h
        rw [N.entry_congr g g' fun leg hleg => h leg (Multiset.mem_add.mpr (Or.inl hleg)),
          M.entry_congr g g' fun leg hleg => h leg (Multiset.mem_add.mpr (Or.inr hleg))]
      entry_eq_zero := by
        intro g leg hleg hdim
        rcases Multiset.mem_add.mp hleg with hleg | hleg
        · rw [N.entry_eq_zero g leg hleg hdim, zero_mul]
        · rw [M.entry_eq_zero g leg hleg hdim, mul_zero] }

/-- A scalar as an array without legs. -/
def const (x : R) : LegArray R where
  legs := 0
  entry _ := x
  entry_congr _ _ _ := rfl
  entry_eq_zero _ leg hleg _ := absurd hleg (Multiset.notMem_zero leg)

instance : One (LegArray R) where
  one := const 1

@[simp] theorem legs_mul (N M : LegArray R) : (N * M).legs = N.legs + M.legs := rfl

@[simp] theorem entry_mul (N M : LegArray R) (g : Index → ℕ) :
    (N * M).entry g = N.entry g * M.entry g := rfl

@[simp] theorem legs_const (x : R) : (const x).legs = 0 := rfl

@[simp] theorem entry_const (x : R) (g : Index → ℕ) : (const x).entry g = x := rfl

@[simp] theorem legs_one : (1 : LegArray R).legs = 0 := rfl

@[simp] theorem entry_one (g : Index → ℕ) : (1 : LegArray R).entry g = 1 := rfl

@[simp] theorem labels_mul (N M : LegArray R) : (N * M).labels = N.labels + M.labels :=
  Multiset.map_add _ _ _

@[simp] theorem labels_const (x : R) : (const x).labels = 0 := rfl

instance : CommMonoid (LegArray R) where
  mul_assoc N M K := by
    refine LegArray.ext ?_ fun g => ?_
    · simp [add_assoc]
    · simp [mul_assoc]
  one_mul N := LegArray.ext (by simp) fun g => by simp
  mul_one N := LegArray.ext (by simp) fun g => by simp
  mul_comm N M := by
    refine LegArray.ext ?_ fun g => ?_
    · simp [add_comm]
    · simp [mul_comm]

theorem const_mul_const (x y : R) : const x * const y = const (x * y) :=
  LegArray.ext (by simp) fun g => by simp

/-! ## The legs with a label -/

/-- The spaces of the legs with a label. -/
def spacesAt (legs : Multiset LabelledLeg) (l : Index) : Multiset Space :=
  (legs.filter fun leg => leg.1 = l).map Prod.snd

@[simp] theorem spacesAt_add (legs legs' : Multiset LabelledLeg) (l : Index) :
    spacesAt (legs + legs') l = spacesAt legs l + spacesAt legs' l := by
  rw [spacesAt, Multiset.filter_add, Multiset.map_add, spacesAt, spacesAt]

theorem mem_spacesAt {legs : Multiset LabelledLeg} {v : Space} :
    v ∈ spacesAt legs l ↔ (l, v) ∈ legs := by
  rw [spacesAt, Multiset.mem_map]
  constructor
  · rintro ⟨⟨k, w⟩, hleg, rfl⟩
    obtain ⟨hmem, rfl⟩ := Multiset.mem_filter.mp hleg
    exact hmem
  · exact fun h => ⟨(l, v), Multiset.mem_filter.mpr ⟨h, rfl⟩, rfl⟩

theorem card_spacesAt (N : LegArray R) (l : Index) :
    (spacesAt N.legs l).card = N.labels.count l := by
  rw [spacesAt, Multiset.card_map, labels, Multiset.count_map]
  exact congrArg _ (Multiset.filter_congr fun leg _ => eq_comm)

/-! ## Sums over labels -/

/-- The sum over some labels. -/
def sumOver (S : Finset Index) (N : LegArray R) : LegArray R where
  legs := N.legs.filter (·.1 ∉ S)
  entry ρ := ∑ g ∈ valuations S (fun _ => N.size) ρ, N.entry g
  entry_congr := by
    intro ρ ρ' h
    -- the labels that are not summed over keep their values
    refine Finset.sum_nbij' (fun g l => if l ∈ S then g l else ρ' l)
      (fun g l => if l ∈ S then g l else ρ l) ?_ ?_ ?_ ?_ ?_
    · intro g hg
      rw [mem_valuations] at hg ⊢
      exact ⟨fun l hl => by simpa [hl] using hg.1 l hl, fun l hl => by simp [hl]⟩
    · intro g hg
      rw [mem_valuations] at hg ⊢
      exact ⟨fun l hl => by simpa [hl] using hg.1 l hl, fun l hl => by simp [hl]⟩
    · intro g hg
      funext l
      by_cases hl : l ∈ S
      · simp [hl]
      · simp [hl, (mem_valuations.mp hg).2 l hl]
    · intro g hg
      funext l
      by_cases hl : l ∈ S
      · simp [hl]
      · simp [hl, (mem_valuations.mp hg).2 l hl]
    · intro g hg
      refine N.entry_congr _ _ fun leg hleg => ?_
      by_cases hl : leg.1 ∈ S
      · simp [hl]
      · simp only [hl, if_false]
        rw [(mem_valuations.mp hg).2 _ hl, h leg (Multiset.mem_filter.mpr ⟨hleg, hl⟩)]
  entry_eq_zero := by
    intro ρ leg hleg hdim
    obtain ⟨hleg, hl⟩ := Multiset.mem_filter.mp hleg
    refine Finset.sum_eq_zero fun g hg => N.entry_eq_zero g leg hleg ?_
    rwa [(mem_valuations.mp hg).2 _ hl]

@[simp] theorem legs_sumOver (S : Finset Index) (N : LegArray R) :
    (sumOver S N).legs = N.legs.filter (·.1 ∉ S) := rfl

/-- The legs that are left after a sum. -/
theorem spacesAt_sumOver (S : Finset Index) (N : LegArray R) (l : Index) :
    spacesAt (sumOver S N).legs l = if l ∈ S then 0 else spacesAt N.legs l := by
  rw [spacesAt, legs_sumOver, Multiset.filter_filter]
  split_ifs with hl
  · rw [Multiset.map_eq_zero, Multiset.filter_eq_nil]
    rintro leg - ⟨rfl, hnot⟩
    exact hnot hl
  · rw [spacesAt]
    refine congrArg _ (Multiset.filter_congr fun leg _ => ?_)
    constructor
    · exact fun h => h.1
    · rintro rfl
      exact ⟨rfl, hl⟩

/-- The labels that are summed over are gone. -/
theorem count_labels_sumOver (S : Finset Index) (N : LegArray R) (l : Index) :
    (sumOver S N).labels.count l = if l ∈ S then 0 else N.labels.count l := by
  rw [← card_spacesAt, spacesAt_sumOver]
  split_ifs
  · exact Multiset.card_zero
  · exact card_spacesAt N l

/-- A sum with another bound. -/
theorem entry_sumOver_eq (hS : ∀ l ∈ S, l ∈ N.labels) {bound : Index → ℕ}
    (hbound : ∀ g, N.entry g ≠ 0 → ∀ l ∈ S, g l < bound l) (ρ : Index → ℕ) :
    (sumOver S N).entry ρ = ∑ g ∈ valuations S bound ρ, N.entry g :=
  sum_valuations_congr_bound fun g hg l hl => ⟨lt_size hg (hS l hl), hbound g hg l hl⟩

/-- Nothing to sum over. -/
@[simp] theorem sumOver_empty (N : LegArray R) : sumOver ∅ N = N := by
  refine LegArray.ext (by simp) fun g => ?_
  change ∑ g' ∈ valuations ∅ (fun _ => N.size) g, N.entry g' = N.entry g
  rw [valuations_empty, Finset.sum_singleton]

/-- A sum over a set of labels, one part after another. -/
theorem sumOver_sumOver {T : Finset Index} (hdisj : Disjoint S T) (hT : ∀ l ∈ T, l ∈ N.labels) :
    sumOver T (sumOver S N) = sumOver (T ∪ S) N := by
  have hsize : ∀ g, (sumOver S N).entry g ≠ 0 → ∀ l ∈ T, g l < N.size := by
    intro g hg l hl
    obtain ⟨g', hg', hne⟩ := Finset.exists_ne_zero_of_sum_ne_zero hg
    rw [← (mem_valuations.mp hg').2 l (Finset.disjoint_right.mp hdisj hl)]
    exact lt_size hne (hT l hl)
  have hlabels : ∀ l ∈ T, l ∈ (sumOver S N).labels := by
    intro l hl
    obtain ⟨leg, hleg, rfl⟩ := mem_labels.mp (hT l hl)
    exact mem_labels.mpr
      ⟨leg, Multiset.mem_filter.mpr ⟨hleg, Finset.disjoint_right.mp hdisj hl⟩, rfl⟩
  refine LegArray.ext ?_ fun ρ => ?_
  · rw [legs_sumOver, legs_sumOver, legs_sumOver, Multiset.filter_filter]
    exact Multiset.filter_congr fun leg _ => by rw [Finset.notMem_union]
  · rw [entry_sumOver_eq hlabels hsize]
    exact (sum_valuations_union hdisj.symm (fun _ => N.size) ρ N.entry).symm

/-- A factor without the summed labels can be taken out of the sum. -/
theorem sumOver_mul (hS : ∀ l ∈ S, l ∈ N.labels) (hM : ∀ l ∈ S, l ∉ M.labels) :
    sumOver S N * M = sumOver S (N * M) := by
  refine LegArray.ext ?_ fun ρ => ?_
  · have hself : M.legs.filter (·.1 ∉ S) = M.legs := Multiset.filter_eq_self.mpr
      fun leg hleg hl => hM leg.1 hl (mem_labels.mpr ⟨leg, hleg, rfl⟩)
    rw [legs_mul, legs_sumOver, legs_sumOver, legs_mul, Multiset.filter_add, hself]
  · have hlabels : ∀ l ∈ S, l ∈ (N * M).labels := fun l hl => by
      rw [labels_mul]
      exact Multiset.mem_add.mpr (Or.inl (hS l hl))
    have hbound : ∀ g, (N * M).entry g ≠ 0 → ∀ l ∈ S, g l < N.size := fun g hg l hl =>
      lt_size (left_ne_zero_of_mul hg) (hS l hl)
    rw [entry_mul, entry_sumOver_eq hlabels hbound]
    change (∑ g ∈ valuations S (fun _ => N.size) ρ, N.entry g) * M.entry ρ = _
    rw [Finset.sum_mul]
    refine Finset.sum_congr rfl fun g hg => ?_
    have hentry : M.entry ρ = M.entry g := M.entry_congr _ _ fun leg hleg =>
      ((mem_valuations.mp hg).2 leg.1 fun hl => hM leg.1 hl (mem_labels.mpr ⟨leg, hleg, rfl⟩)).symm
    rw [entry_mul, hentry]

/-! ## Contraction -/

/-- The labels that appear twice. -/
def joined (N : LegArray R) : Finset Index :=
  N.labels.toFinset.filter fun l => N.labels.count l = 2

/-- The sum over all labels that appear twice. -/
def contract (N : LegArray R) : LegArray R :=
  sumOver N.joined N

theorem mem_joined : l ∈ N.joined ↔ N.labels.count l = 2 := by
  rw [joined, Finset.mem_filter, Multiset.mem_toFinset, ← Multiset.count_pos]
  omega

theorem mem_labels_of_mem_joined (h : l ∈ N.joined) : l ∈ N.labels := by
  rw [mem_joined] at h
  rw [← Multiset.count_pos]
  omega

/-- The labels that are left are those that do not appear twice. -/
theorem count_labels_contract (N : LegArray R) (l : Index) :
    N.contract.labels.count l = if N.labels.count l = 2 then 0 else N.labels.count l := by
  rw [contract, count_labels_sumOver]
  simp only [mem_joined]

/-- An array without repeated labels is contracted already. -/
theorem contract_of_nodup (h : N.labels.Nodup) : N.contract = N := by
  have hempty : N.joined = ∅ := by
    refine Finset.eq_empty_of_forall_notMem fun l hl => ?_
    have hle := Multiset.nodup_iff_count_le_one.mp h l
    rw [mem_joined] at hl
    omega
  rw [contract, hempty, sumOver_empty]

/-- Some of the labels that appear twice can be summed over first. -/
theorem contract_sumOver (hS : S ⊆ N.joined) : (sumOver S N).contract = N.contract := by
  have hjoined : (sumOver S N).joined = N.joined \ S := by
    ext l
    rw [mem_joined, count_labels_sumOver, Finset.mem_sdiff, mem_joined]
    split_ifs with hl <;> simp [hl]
  have hlabels : ∀ l ∈ N.joined \ S, l ∈ N.labels := fun l hl =>
    mem_labels_of_mem_joined (Finset.mem_sdiff.mp hl).1
  rw [contract, hjoined, sumOver_sumOver Finset.disjoint_sdiff hlabels,
    Finset.sdiff_union_of_subset hS, contract]

/-- Some of the labels that appear twice on one factor can be summed over first. -/
theorem contract_sumOver_mul (hS : S ⊆ N.joined) (h : ∀ l ∈ S, l ∉ M.labels) :
    (sumOver S N * M).contract = (N * M).contract := by
  rw [sumOver_mul (fun l hl => mem_labels_of_mem_joined (hS hl)) h, contract_sumOver]
  intro l hl
  rw [mem_joined, labels_mul, Multiset.count_add, Multiset.count_eq_zero.mpr (h l hl), add_zero]
  exact mem_joined.mp (hS hl)

/-- Inner contractions can be done first. -/
theorem contract_contract_mul (h : ∀ l ∈ N.joined, l ∉ M.labels) :
    (N.contract * M).contract = (N * M).contract :=
  contract_sumOver_mul (Finset.Subset.refl _) h

/-! ## Legs that can be joined -/

/-- All labels appear at most twice, and legs with one label show dual spaces. -/
def Joinable (N : LegArray R) : Prop :=
  ∀ l, spacesAt N.legs l = 0 ∨ (∃ v, spacesAt N.legs l = {v}) ∨ ∃ v, spacesAt N.legs l = {v, v.dual}

/-- Distinct labels are no obstacle. -/
theorem joinable_of_nodup (h : N.labels.Nodup) : N.Joinable := by
  intro l
  have hcard := N.card_spacesAt l
  have hle : N.labels.count l ≤ 1 := Multiset.nodup_iff_count_le_one.mp h l
  rcases Nat.le_one_iff_eq_zero_or_eq_one.mp (hcard ▸ hle) with hzero | hone
  · exact Or.inl (Multiset.card_eq_zero.mp hzero)
  · exact Or.inr (Or.inl (Multiset.card_eq_one.mp hone))

/-- No label appears more than twice. -/
theorem Joinable.count_le (h : N.Joinable) (l : Index) : N.labels.count l ≤ 2 := by
  rw [← card_spacesAt]
  rcases h l with h | ⟨v, h⟩ | ⟨v, h⟩ <;> simp [h]

/-- Legs can still be joined after a sum. -/
theorem Joinable.sumOver (h : N.Joinable) (S : Finset Index) : (LegArray.sumOver S N).Joinable := by
  intro l
  rw [spacesAt_sumOver]
  split_ifs
  · exact Or.inl rfl
  · exact h l

/-- The legs that are left after a contraction. -/
theorem spacesAt_contract (N : LegArray R) (l : Index) :
    spacesAt N.contract.legs l = if l ∈ N.joined then 0 else spacesAt N.legs l :=
  spacesAt_sumOver N.joined N l

/-- Legs can be joined at once if they can be joined one part after another, and conversely. -/
theorem joinable_mul_iff (h : ∀ l ∈ N.joined, l ∉ M.labels) :
    (N * M).Joinable ↔ (∀ l ∈ N.joined, ∃ v, spacesAt N.legs l = {v, v.dual}) ∧
      (N.contract * M).Joinable := by
  have hjoined : ∀ l ∈ N.joined, spacesAt (N * M).legs l = spacesAt N.legs l := by
    intro l hl
    have hM : spacesAt M.legs l = 0 := by
      rw [← Multiset.card_eq_zero, card_spacesAt, Multiset.count_eq_zero.mpr (h l hl)]
    rw [legs_mul, spacesAt_add, hM, add_zero]
  have hinner : ∀ l ∈ N.joined, spacesAt (N.contract * M).legs l = 0 := by
    intro l hl
    have hM : spacesAt M.legs l = 0 := by
      rw [← Multiset.card_eq_zero, card_spacesAt, Multiset.count_eq_zero.mpr (h l hl)]
    rw [legs_mul, spacesAt_add, hM, spacesAt_contract, if_pos hl, add_zero]
  have houter : ∀ l ∉ N.joined, spacesAt (N.contract * M).legs l = spacesAt (N * M).legs l := by
    intro l hl
    rw [legs_mul, spacesAt_add, spacesAt_contract, if_neg hl, legs_mul, spacesAt_add]
  constructor
  · intro hjoin
    refine ⟨fun l hl => ?_, fun l => ?_⟩
    · have hcard : (spacesAt N.legs l).card = 2 := by rw [card_spacesAt, mem_joined.mp hl]
      have hl' := hjoin l
      rw [hjoined l hl] at hl'
      rcases hl' with h | ⟨v, h⟩ | hv
      · simp [h] at hcard
      · simp [h] at hcard
      · exact hv
    · by_cases hl : l ∈ N.joined
      · exact Or.inl (hinner l hl)
      · rw [houter l hl]
        exact hjoin l
  · rintro ⟨hjoin, hrest⟩ l
    by_cases hl : l ∈ N.joined
    · rw [hjoined l hl]
      exact Or.inr (Or.inr (hjoin l hl))
    · rw [← houter l hl]
      exact hrest l

/-! ## Sums -/

/-- The sum of two arrays with the same legs. -/
def add (N M : LegArray R) : LegArray R where
  legs := N.legs ∪ M.legs
  entry g := if N.legs = M.legs then N.entry g + M.entry g else 0
  entry_congr := by
    intro g g' h
    rw [N.entry_congr g g' fun leg hleg => h leg (Multiset.mem_union.mpr (Or.inl hleg)),
      M.entry_congr g g' fun leg hleg => h leg (Multiset.mem_union.mpr (Or.inr hleg))]
  entry_eq_zero := by
    intro g leg hleg hdim
    split_ifs with h
    · have hN : leg ∈ N.legs := by
        rcases Multiset.mem_union.mp hleg with hleg | hleg
        · exact hleg
        · rwa [h]
      rw [N.entry_eq_zero g leg hN hdim, M.entry_eq_zero g leg (h ▸ hN) hdim, add_zero]
    · rfl

end LegArray

end TensorDiagram
