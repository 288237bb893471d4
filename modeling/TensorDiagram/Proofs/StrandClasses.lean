import TensorDiagram.Braiding.Strand
import TensorDiagram.Proofs.DartMap
import TensorDiagram.Proofs.Valuations

/-!
# Classes of indices that strands connect

The factors of a product have legs, and its braidings have strands.  No index appears more than
twice among the legs and the ends of strands, so the strands form chains.  All indices of a chain
get one representative, and this is how the indices fall into classes (`Web`).

There are as many classes as the strands allow, so a class with `n` indices has at most `n - 1`
strands, unless it is a closed chain.  Counting ends shows what a class looks like that leads to a
leg: it has one leg and one index that appears once, or it has two legs and no such index
(`Web.legs_add_once_eq_two`).  Hence a sum over the values of all indices that appear twice, of
which only those count that are constant on strands, is the sum over the values of the
representatives that are left (`Web.sum_valuations_eq`).

A closed chain contributes a factor of its own instead (`Web.two_le_card_valuations`).
-/

namespace TensorDiagram

variable {i : Index}

/-- The indices that appear twice. -/
def doubled (bag : Multiset Index) : Finset Index :=
  bag.toFinset.filter fun i => bag.count i = 2

theorem mem_doubled {bag : Multiset Index} : i ∈ doubled bag ↔ bag.count i = 2 := by
  rw [doubled, Finset.mem_filter, Multiset.mem_toFinset, ← Multiset.count_pos,
    and_iff_right_iff_imp]
  exact fun h => h ▸ Nat.two_pos

/-- The ends of strands. -/
def strandEnds (strands : List Strand) : Multiset Index :=
  (strands.map Prod.fst : Multiset Index) + (strands.map Prod.snd : Multiset Index)

theorem mem_strandEnds {strands : List Strand} :
    i ∈ strandEnds strands ↔ ∃ e ∈ strands, i = e.1 ∨ i = e.2 := by
  rw [strandEnds, Multiset.mem_add, Multiset.mem_coe, Multiset.mem_coe, List.mem_map,
    List.mem_map, ← exists_or]
  refine exists_congr fun e => ?_
  rw [← and_or_left, eq_comm, @eq_comm _ e.2]

/-- A multiset is counted class by class. -/
theorem count_map_eq_sum {bag : Multiset Index} {V : Finset Index} (hV : ∀ i ∈ bag, i ∈ V)
    (r : Index → Index) (k : Index) :
    (bag.map r).count k = ∑ i ∈ V.filter (fun i => r i = k), bag.count i := by
  induction bag using Multiset.induction_on with
  | empty => simp
  | cons a bag ih =>
    obtain ⟨ha, hbag⟩ := Multiset.forall_mem_cons.mp hV
    have hone : ∑ i ∈ V.filter (fun i => r i = k), (if i = a then 1 else 0) = if k =
        r a then 1 else 0 := by
      rw [Finset.sum_ite_eq']
      refine if_congr (Finset.mem_filter.trans ⟨fun h => h.2.symm, fun h => ⟨ha, h.symm⟩⟩) rfl rfl
    simp only [Multiset.map_cons, Multiset.count_cons, Finset.sum_add_distrib, hone, ih hbag]

/-- Every strand joins two classes at most. -/
theorem card_le_classCount (V : Finset Index) (strands : List Strand) :
    V.card ≤ classCount (fun a b : V => (a.1, b.1) ∈ strands) + strands.length := by
  induction strands with
  | nil =>
    have hinjective : Function.Injective (Quot.mk fun a b : V =>
        (a.1, b.1) ∈ ([] : List Strand)) := by
      intro a b hab
      have hclass := iff_of_eqvGen (P := (· = a)) (fun c d hcd => absurd hcd List.not_mem_nil)
        (Quot.eqvGen_exact hab)
      exact (hclass.mp rfl).symm
    have hcard := Nat.card_le_card_of_injective _ hinjective
    simpa [classCount] using hcard
  | cons e strands ih =>
    by_cases hends : e.1 ∈ V ∧ e.2 ∈ V
    · have hrel : (fun a b : V => (a.1, b.1) ∈ e :: strands) =
          withPair (fun a b : V => (a.1, b.1) ∈ strands) ⟨e.1, hends.1⟩ ⟨e.2, hends.2⟩ := by
        funext a b
        rw [withPair, List.mem_cons, or_comm, Subtype.ext_iff, Subtype.ext_iff]
        exact congrArg₂ Or rfl (propext Prod.ext_iff)
      rw [hrel, List.length_cons]
      by_cases hclass : Relation.EqvGen (fun a b : V => (a.1, b.1) ∈ strands) ⟨e.1, hends.1⟩
        ⟨e.2, hends.2⟩
      · rw [classCount_withPair_of_eqvGen hclass]
        omega
      · have hjoin := classCount_withPair_of_not_eqvGen hclass
        omega
    · have hrel : (fun a b : V => (a.1, b.1) ∈ e :: strands) = fun a b : V =>
          (a.1, b.1) ∈ strands := by
        funext a b
        rw [List.mem_cons]
        refine propext (or_iff_right fun heq => hends ?_)
        rw [← heq]
        exact ⟨a.2, b.2⟩
      rw [hrel, List.length_cons]
      omega

/-- The legs of factors and the strands between them, with a representative for each class of
indices. -/
structure Web (legs : Multiset Index) (strands : List Strand) (r : Index → Index) : Prop where
  /-- No index appears more than twice. -/
  count_le : ∀ i, (legs + strandEnds strands).count i ≤ 2
  /-- The ends of strands are identified. -/
  constant : ∀ e ∈ strands, r e.1 = r e.2
  /-- Nothing else is identified. -/
  identified : ∀ {α : Type} (g : Index → α), (∀ e ∈ strands, g e.1 = g e.2) → ∀ i, g (r i) = g i

namespace Web

variable {legs : Multiset Index} {strands : List Strand} {r : Index →
  Index} (h : Web legs strands r)

/-- All indices. -/
def indices (legs : Multiset Index) (strands : List Strand) : Finset Index :=
  (legs + strandEnds strands).toFinset

theorem mem_indices : i ∈ indices legs strands ↔ i ∈ legs + strandEnds strands :=
  Multiset.mem_toFinset

theorem fst_mem_indices {e : Strand} (he : e ∈ strands) : e.1 ∈ indices legs strands :=
  mem_indices.mpr (Multiset.mem_add.mpr (Or.inr (mem_strandEnds.mpr ⟨e, he, Or.inl rfl⟩)))

theorem snd_mem_indices {e : Strand} (he : e ∈ strands) : e.2 ∈ indices legs strands :=
  mem_indices.mpr (Multiset.mem_add.mpr (Or.inr (mem_strandEnds.mpr ⟨e, he, Or.inr rfl⟩)))

theorem leg_mem_indices (hi : i ∈ legs) : i ∈ indices legs strands :=
  mem_indices.mpr (Multiset.mem_add.mpr (Or.inl hi))

/-- The number of legs in a class. -/
def legCount (legs : Multiset Index) (r : Index → Index) (k : Index) : ℕ :=
  (legs.map r).count k

/-- The indices of a class that appear once. -/
def onceIn (legs : Multiset Index) (strands : List Strand) (r : Index → Index) (k : Index) :
    Finset Index :=
  (indices legs strands).filter fun i => r i = k ∧ (legs + strandEnds strands).count i = 1

/-- The valuation that gives an index that appears twice the value of its representative. -/
def spread (legs : Multiset Index) (strands : List Strand) (r : Index → Index) (ρ g : Index → ℕ) :
    Index → ℕ :=
  fun i => if i ∈ doubled (legs + strandEnds strands) then g (r i) else ρ i

theorem mem_onceIn {k : Index} :
    i ∈ onceIn legs strands r k ↔ r i = k ∧ (legs + strandEnds strands).count i = 1 := by
  rw [onceIn, Finset.mem_filter, mem_indices, ← Multiset.count_pos, and_iff_right_iff_imp]
  exact fun hi => hi.2 ▸ Nat.one_pos

include h

/-- The representative of a representative. -/
theorem rep_rep (i : Index) : r (r i) = r i :=
  h.identified r h.constant i

theorem rep_mem_indices : r i ∈ indices legs strands ↔ i ∈ indices legs strands :=
  iff_of_eq (h.identified (fun i => i ∈ indices legs strands)
    (fun _ he => propext (iff_of_true (fst_mem_indices he) (snd_mem_indices he))) i)

/-- An index that is not at the end of a strand represents itself. -/
theorem rep_of_notMem (hi : i ∉ strandEnds strands) : r i = i := by
  have hends : ∀ e ∈ strands, (e.1 = i) = (e.2 = i) := by
    intro e he
    have hfst : e.1 ≠ i := fun heq => hi (mem_strandEnds.mpr ⟨e, he, Or.inl heq.symm⟩)
    have hsnd : e.2 ≠ i := fun heq => hi (mem_strandEnds.mpr ⟨e, he, Or.inr heq.symm⟩)
    rw [eq_false hfst, eq_false hsnd]
  exact (h.identified (· = i) hends i).mpr rfl

/-- There are at most as many classes as representatives. -/
theorem classCount_le : classCount (fun a b : indices legs strands => (a.1, b.1) ∈ strands) ≤
    ((indices legs strands).image r).card := by
  set V := indices legs strands with hV
  let rep : Quot (fun a b : V => (a.1, b.1) ∈ strands) → (V.image r : Finset Index) :=
    Quot.lift (fun a => ⟨r a.1, Finset.mem_image_of_mem r a.2⟩) fun a b hab =>
      Subtype.ext (h.constant _ hab)
  -- the class is determined by the representative, since it is constant on strands
  let classOf (i : Index) : Option (Quot fun a b : V => (a.1, b.1) ∈ strands) :=
    if hi : i ∈ V then some (Quot.mk _ ⟨i, hi⟩) else none
  have hclass : ∀ i, classOf (r i) = classOf i := by
    refine h.identified classOf fun e he => ?_
    have hfst : e.1 ∈ V := fst_mem_indices he
    have hsnd : e.2 ∈ V := snd_mem_indices he
    simp only [classOf, hfst, hsnd, dif_pos]
    exact congrArg some (Quot.sound he)
  have hinjective : Function.Injective rep := by
    rintro ⟨a⟩ ⟨b⟩ hab
    have hr : r a.1 = r b.1 := congrArg Subtype.val hab
    have hsome : classOf a.1 = classOf b.1 := by rw [← hclass a.1, ← hclass b.1, hr]
    simp only [classOf, a.2, b.2, dif_pos] at hsome
    exact Option.some.inj hsome
  have hcard := Nat.card_le_card_of_injective rep hinjective
  rwa [Nat.card_eq_fintype_card (α := (V.image r : Finset Index)), Fintype.card_coe] at hcard

/-- The ends in a class are counted. -/
theorem legCount_add_card_onceIn (k : Index) :
    legCount legs r k + 2 * (strands.map fun e => r e.1).count k + (onceIn legs strands r k).card =
      2 * ((indices legs strands).filter fun i => r i = k).card := by
  set V := indices legs strands with hV
  have hends : ((strandEnds strands).map r).count k = 2 * (strands.map fun e => r e.1).count k := by
    have hsnd : strands.map (r ∘ Prod.snd) = strands.map fun e => r e.1 :=
      List.map_congr_left fun e he => (h.constant e he).symm
    rw [strandEnds, Multiset.map_add, Multiset.map_coe, Multiset.map_coe, List.map_map,
      List.map_map, hsnd, Multiset.count_add, Multiset.coe_count, Multiset.coe_count, two_mul]
    rfl
  have hcount := count_map_eq_sum (V := V) (fun i hi => mem_indices.mpr hi) r k
  rw [Multiset.map_add, Multiset.count_add, hends] at hcount
  have honce : (onceIn legs strands r k).card = ∑ i ∈ V.filter (fun i => r i = k),
      if (legs + strandEnds strands).count i = 1 then 1 else 0 := by
    rw [← Finset.card_filter, Finset.filter_filter]
    rfl
  rw [legCount, hcount, honce, ← Finset.sum_add_distrib, Finset.card_eq_sum_ones, Finset.mul_sum]
  refine Finset.sum_congr rfl fun i hi => ?_
  have hpos := Multiset.count_pos.mpr (mem_indices.mp (Finset.mem_filter.mp hi).1)
  have hle := h.count_le i
  split_ifs <;> omega

/-- A class that leads to a leg has one leg and one index that appears once, or two legs and no such
index. -/
theorem legs_add_once_eq_two (hlegs : ∀ i ∈ indices legs strands, 0 < legCount legs r (r i))
    (hi : i ∈ indices legs strands) :
    legCount legs r (r i) + (onceIn legs strands r (r i)).card = 2 := by
  set V := indices legs strands with hV
  have hclass := h.legCount_add_card_onceIn
  rw [← hV] at hclass
  have hle : ∀ k ∈ V.image r, (strands.map fun e => r e.1).count k + 1 ≤
      (V.filter fun i => r i = k).card := by
    intro k hk
    obtain ⟨i, hi, rfl⟩ := Finset.mem_image.mp hk
    have hpos := hlegs i hi
    have hcount := hclass (r i)
    omega
  have hstrands : ∑ k ∈ V.image r, (strands.map fun e => r e.1).count k = strands.length := by
    have hsum :=
      Multiset.sum_count_eq_card (m := (strands.map fun e => r e.1 : Multiset Index))
        (s := V.image r)
      (fun k hk => by
        obtain ⟨e, he, rfl⟩ := List.mem_map.mp (Multiset.mem_coe.mp hk)
        exact Finset.mem_image_of_mem r (fst_mem_indices he))
    simpa using hsum
  have hV' : ∑ k ∈ V.image r, (V.filter fun i => r i = k).card = V.card :=
    (Finset.card_eq_sum_card_image r V).symm
  have hbound : V.card ≤ (V.image r).card + strands.length :=
    (card_le_classCount V strands).trans (Nat.add_le_add_right h.classCount_le _)
  -- equality in the sum is equality in every class
  have heq : ∀ k ∈ V.image r, (strands.map fun e => r e.1).count k + 1 =
      (V.filter fun i => r i = k).card := by
    refine (Finset.sum_eq_sum_iff_of_le hle).mp (le_antisymm (Finset.sum_le_sum hle) ?_)
    rw [hV', Finset.sum_add_distrib, hstrands, Finset.sum_const, smul_eq_mul, mul_one]
    omega
  have hcount := hclass (r i)
  have hi' := heq (r i) (Finset.mem_image_of_mem r hi)
  omega

/-- An index that is not summed over appears once. -/
theorem count_eq_one_of_notMem (hi : i ∈ indices legs strands)
    (hnot : i ∉ doubled (legs + strandEnds strands)) : (legs + strandEnds strands).count i = 1 := by
  have hpos := Multiset.count_pos.mpr (mem_indices.mp hi)
  have hle := h.count_le i
  have hne := mem_doubled.not.mp hnot
  omega

/-! ## Sums over classes -/

section

variable (hlegs : ∀ i ∈ indices legs strands, 0 < legCount legs r (r i))
variable {g : Index → ℕ}

include hlegs

/-- A class that leads to a leg has at most one index that appears once. -/
theorem eq_of_once {j : Index} (hij : r i = r j) (hi : (legs + strandEnds strands).count i = 1)
    (hj : (legs + strandEnds strands).count j = 1) : i = j := by
  have hmem : j ∈ indices legs strands := mem_indices.mpr (Multiset.count_pos.mp (hj ▸ Nat.one_pos))
  have hcount := h.legs_add_once_eq_two hlegs hmem
  have hpos := hlegs j hmem
  refine Finset.card_le_one.mp (by omega) i (mem_onceIn.mpr ⟨hij, hi⟩) j (mem_onceIn.mpr ⟨rfl, hj⟩)

/-- A class that leads to a leg has at most two legs. -/
theorem legCount_le_two (k : Index) : legCount legs r k ≤ 2 := by
  by_contra hlt
  obtain ⟨i, hi, rfl⟩ := Multiset.mem_map.mp
    (Multiset.count_pos.mp (by omega : 0 < legCount legs r k))
  have hcount := h.legs_add_once_eq_two hlegs (leg_mem_indices hi)
  omega

variable (honce : ∀ i, (legs + strandEnds strands).count i = 1 → r i = i)

include honce

/-- The legs that are left show the indices that appear once. -/
theorem legCount_eq_one_iff (k : Index) : legCount legs r k = 1 ↔
    (legs + strandEnds strands).count k = 1 := by
  constructor
  · intro hk
    obtain ⟨i, hi, rfl⟩ :=
      Multiset.mem_map.mp (Multiset.count_pos.mp (hk ▸ Nat.one_pos : 0 < legCount legs r k))
    have hcount := h.legs_add_once_eq_two hlegs (leg_mem_indices hi)
    obtain ⟨j, hj⟩ := Finset.card_pos.mp (by omega : 0 < (onceIn legs strands r (r i)).card)
    obtain ⟨hji, hj⟩ := mem_onceIn.mp hj
    rwa [← hji, honce j hj]
  · intro hk
    have hmem : k ∈ indices legs strands :=
      mem_indices.mpr (Multiset.count_pos.mp (hk ▸ Nat.one_pos))
    have hcount := h.legs_add_once_eq_two hlegs hmem
    have hpos := hlegs k hmem
    have hcard : 0 < (onceIn legs strands r (r k)).card :=
      Finset.card_pos.mpr ⟨k, mem_onceIn.mpr ⟨rfl, hk⟩⟩
    rw [honce k hk] at hcount hpos hcard
    omega

/-- A representative appears once, or it is summed over. -/
theorem once_or_mem_doubled (hi : i ∈ indices legs strands) :
    (legs + strandEnds strands).count (r i) = 1 ∨ r i ∈ doubled (legs.map r) := by
  rw [← h.legCount_eq_one_iff hlegs honce, mem_doubled]
  have hcount := h.legs_add_once_eq_two hlegs hi
  have hpos := hlegs i hi
  rw [legCount] at *
  omega

/-- What is summed over in the end is a representative that was summed over before. -/
theorem of_mem_doubled {k : Index} (hk : k ∈ doubled (legs.map r)) :
    k ∈ doubled (legs + strandEnds strands) ∧ r k = k := by
  have htwo : legCount legs r k = 2 := mem_doubled.mp hk
  obtain ⟨i, hi, rfl⟩ :=
    Multiset.mem_map.mp (Multiset.count_pos.mp (htwo ▸ Nat.two_pos : 0 < legCount legs r k))
  have hne := (h.legCount_eq_one_iff hlegs honce (r i)).not.mp (by omega)
  have hpos := Multiset.count_pos.mpr (mem_indices.mp (h.rep_mem_indices.mpr (leg_mem_indices hi)))
  have hle := h.count_le (r i)
  exact ⟨mem_doubled.mpr (by omega), h.rep_rep i⟩

/-- The values of the representatives, spread over their classes. -/
theorem spread_apply {dim ρ : Index → ℕ} (hg : g ∈ valuations (doubled (legs.map r)) dim ρ)
    (hi : i ∈ indices legs strands) : spread legs strands r ρ g i = g (r i) := by
  rw [spread]
  split_ifs with hdoubled
  · rfl
  · rw [honce i (h.count_eq_one_of_notMem hi hdoubled)]
    exact ((mem_valuations.mp hg).2 i fun hmem =>
      hdoubled (h.of_mem_doubled hlegs honce hmem).1).symm

section

variable {dim ρ : Index → ℕ} (hdim : ∀ e ∈ strands, dim e.1 = dim e.2)
  (hρ : ∀ i, (legs + strandEnds strands).count i = 1 → ρ i < dim i)

include hdim hρ

theorem spread_mem (hg : g ∈ valuations (doubled (legs.map r)) dim ρ) :
    spread legs strands r ρ g ∈ (valuations (doubled (legs + strandEnds strands)) dim ρ).filter
      (fun g => ∀ e ∈ strands, g e.1 = g e.2) := by
  refine Finset.mem_filter.mpr ⟨mem_valuations.mpr ⟨fun i hi => ?_, fun i hi => if_neg hi⟩,
    fun e he => ?_⟩
  · have hmem : i ∈ indices legs strands :=
      mem_indices.mpr (Multiset.count_pos.mp (mem_doubled.mp hi ▸ Nat.two_pos))
    rw [h.spread_apply hlegs honce hg hmem, ← h.identified dim hdim i]
    rcases h.once_or_mem_doubled hlegs honce hmem with hone | hdoubled
    · have hnot : r i ∉ doubled (legs.map r) := fun hdoubled =>
        absurd (hone.symm.trans (mem_doubled.mp (h.of_mem_doubled hlegs honce hdoubled).1))
          (by decide)
      rw [(mem_valuations.mp hg).2 _ hnot]
      exact hρ _ hone
    · exact (mem_valuations.mp hg).1 _ hdoubled
  · rw [h.spread_apply hlegs honce hg (fst_mem_indices he),
      h.spread_apply hlegs honce hg (snd_mem_indices he), h.constant e he]

omit hdim hρ in
theorem exists_spread (hg : g ∈ valuations (doubled (legs + strandEnds strands)) dim ρ)
    (hconstant : ∀ e ∈ strands, g e.1 = g e.2) :
    ∃ g' ∈ valuations (doubled (legs.map r)) dim ρ, spread legs strands r ρ g' = g := by
  refine ⟨fun k => if k ∈ doubled (legs.map r) then g k else ρ k, ?_, ?_⟩
  · refine mem_valuations.mpr ⟨fun k hk => ?_, fun k hk => if_neg hk⟩
    rw [if_pos hk]
    exact (mem_valuations.mp hg).1 k (h.of_mem_doubled hlegs honce hk).1
  · funext i
    rw [spread]
    split_ifs with hi hrep
    · exact h.identified g hconstant i
    · -- the representative appears once, so its value is given
      have hmem : i ∈ indices legs strands :=
        mem_indices.mpr (Multiset.count_pos.mp (mem_doubled.mp hi ▸ Nat.two_pos))
      have hone := (h.once_or_mem_doubled hlegs honce hmem).resolve_right hrep
      have hnot : r i ∉ doubled (legs + strandEnds strands) := fun hdoubled =>
        absurd (hone.symm.trans (mem_doubled.mp hdoubled)) (by decide)
      rw [← (mem_valuations.mp hg).2 _ hnot, h.identified g hconstant]
    · exact ((mem_valuations.mp hg).2 i hi).symm

/-- Where strands are constant, summing over all indices that appear twice is summing over
representatives. -/
theorem sum_valuations_eq {R : Type} [AddCommMonoid R] {F : (Index → ℕ) → R}
    (hF : ∀ g g' : Index → ℕ, (∀ i ∈ legs, g i = g' i) → F g = F g') :
    ∑ g ∈ (valuations (doubled (legs + strandEnds strands)) dim ρ).filter
        (fun g => ∀ e ∈ strands, g e.1 = g e.2), F g =
      ∑ g ∈ valuations (doubled (legs.map r)) dim ρ, F (g ∘ r) := by
  symm
  refine Finset.sum_nbij (spread legs strands r ρ) (fun g hg => h.spread_mem hlegs honce hdim hρ hg)
    ?_ ?_ ?_
  · intro g hg g' hg' heq
    funext k
    by_cases hk : k ∈ doubled (legs.map r)
    · obtain ⟨hdoubled, hrep⟩ := h.of_mem_doubled hlegs honce hk
      have hmem : k ∈ indices legs strands :=
        mem_indices.mpr (Multiset.count_pos.mp (mem_doubled.mp hdoubled ▸ Nat.two_pos))
      have hvalue := congrFun heq k
      rwa [h.spread_apply hlegs honce hg hmem, h.spread_apply hlegs honce hg' hmem, hrep] at hvalue
    · rw [(mem_valuations.mp hg).2 k hk, (mem_valuations.mp hg').2 k hk]
  · intro g hg
    obtain ⟨hg, hconstant⟩ := Finset.mem_filter.mp hg
    exact h.exists_spread hlegs honce hg hconstant
  · intro g hg
    exact hF _ _ fun i hi => (h.spread_apply hlegs honce hg (leg_mem_indices hi)).symm

end

end

/-! ## Closed classes -/

section

variable {i₀ : Index} (hi₀ : i₀ ∈ indices legs strands) (hnone : legCount legs r (r i₀) = 0)

include hnone

/-- Without a leg in the class, the indices that appear once come in pairs, so there is none if they
represent themselves. -/
theorem onceIn_eq_empty (honce : ∀ i, (legs + strandEnds strands).count i = 1 →
    i ∈ strandEnds strands → r i = i) : onceIn legs strands r (r i₀) = ∅ := by
  have hrep : ∀ i ∈ onceIn legs strands r (r i₀), i = r i₀ := by
    intro i hi
    obtain ⟨hclass, hone⟩ := mem_onceIn.mp hi
    by_cases hend : i ∈ strandEnds strands
    · rw [← hclass, honce i hone hend]
    · -- it would be a leg
      have hleg : i ∈ legs := by
        have hmem := Multiset.mem_add.mp (Multiset.count_pos.mp (hone ▸ Nat.one_pos))
        exact hmem.resolve_right hend
      have hpos : 0 < legCount legs r (r i) :=
        Multiset.count_pos.mpr (Multiset.mem_map_of_mem r hleg)
      rw [hclass] at hpos
      omega
  have hcard : (onceIn legs strands r (r i₀)).card ≤ 1 :=
    Finset.card_le_one.mpr fun i hi j hj => (hrep i hi).trans (hrep j hj).symm
  have hcount := h.legCount_add_card_onceIn (r i₀)
  exact Finset.card_eq_zero.mp (by omega)

/-- Without a leg in the class, nothing that is left is summed over more than one value. -/
theorem valuations_of_closed :
    valuations (doubled (legs.map r)) (fun i => if r i = r i₀ then 2 else 1)
      (fun _ => 0) = {fun _ => 0} := by
  ext g
  rw [mem_valuations, Finset.mem_singleton]
  constructor
  · rintro ⟨hlt, heq⟩
    funext k
    by_cases hk : k ∈ doubled (legs.map r)
    · have htwo := mem_doubled.mp hk
      obtain ⟨j, hj, rfl⟩ := Multiset.mem_map.mp (Multiset.count_pos.mp (htwo ▸ Nat.two_pos))
      have hne : r (r j) ≠ r i₀ := by
        intro heq
        rw [h.rep_rep] at heq
        rw [heq] at htwo
        exact absurd (htwo.symm.trans hnone) (by decide)
      have hone := hlt (r j) hk
      rw [if_neg hne] at hone
      exact Nat.lt_one_iff.mp hone
    · exact heq k hk
  · rintro rfl
    exact ⟨fun k _ => by split_ifs <;> exact Nat.succ_pos _, fun _ _ => rfl⟩

omit hnone

include hi₀

/-- A class whose indices all appear twice can take both values. -/
theorem two_le_card_valuations (honce : onceIn legs strands r (r i₀) = ∅) :
    2 ≤ ((valuations (doubled (legs + strandEnds strands)) (fun i => if r i = r i₀ then 2 else 1)
      (fun _ => 0)).filter (fun g => ∀ e ∈ strands, g e.1 = g e.2)).card := by
  classical
  refine Finset.one_lt_card.mpr ⟨fun _ => 0, ?_, fun i => if r i = r i₀ ∧
    i ∈ indices legs strands then 1 else 0, ?_, ?_⟩
  · refine Finset.mem_filter.mpr ⟨mem_valuations.mpr ⟨fun i _ => ?_, fun _ _ => rfl⟩,
      fun _ _ => rfl⟩
    split_ifs <;> exact Nat.succ_pos _
  · refine Finset.mem_filter.mpr ⟨mem_valuations.mpr ⟨fun i _ => ?_, fun i hi => if_neg ?_⟩,
      fun e he => ?_⟩
    · by_cases hclass : r i = r i₀
      · rw [if_pos hclass]
        split_ifs <;> decide
      · rw [if_neg hclass, if_neg fun hboth => hclass hboth.1]
        decide
    · rintro ⟨hclass, hmem⟩
      have hone : i ∈ onceIn legs strands r (r i₀) :=
        mem_onceIn.mpr ⟨hclass, h.count_eq_one_of_notMem hmem hi⟩
      rw [honce] at hone
      exact Finset.notMem_empty i hone
    · simp only [h.constant e he, fst_mem_indices he, snd_mem_indices he, and_true]
  · intro heq
    have hzero := congrFun heq i₀
    rw [if_pos ⟨rfl, hi₀⟩] at hzero
    cases hzero

end

end Web

end TensorDiagram
