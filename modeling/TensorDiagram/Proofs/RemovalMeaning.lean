import TensorDiagram.Proofs.ProductValues

/-!
# What removing braidings means

Removing the braidings of an assignment keeps the left hand side and the array of the right hand
side exactly if every strand leads to a factor that is no braiding (`removal_keeps_array_iff`).  The
open ends of strands are to be indices of the left hand side.

If a strand does not, then it is part of a closed chain, whose sum gets lost, or of a chain between
two indices of the left hand side, of which one takes the place of the other.  The removal fails for
neither of them (`removal_loses_strands`).
-/

namespace TensorDiagram.Diagram

open TensorRef (IsStrandOf)
open Machine (ConstantOnStrands)

variable {braidingName : String}

/-- Two indices are connected by a chain of strands. -/
def Connected (braidingName : String) (d : Diagram) : Index → Index → Prop :=
  Relation.EqvGen fun i j =>
    IsStrandOf braidingName (d.tensors.filter fun t => t.isBraiding braidingName) (i, j)

/-- Every strand leads to a factor that is no braiding. -/
def IsAnchored (braidingName : String) (d : Diagram) : Prop :=
  ∀ e, IsStrandOf braidingName (d.tensors.filter fun t => t.isBraiding braidingName) e →
    ∃ i ∈ d.otherLegs braidingName, Connected braidingName d e.1 i

/-- An assignment has the left hand side of another one, and its right hand side denotes the same
labelled array in all readings in which every strand has one dimension. -/
def KeepsArray (R : Type) [CommRing R] [StarRing R] (braidingName : String) (lhs rhs : Diagram)
    (isDefinition : Bool) (removed : Diagram) : Prop :=
  ∃ rhs', removed = assign lhs rhs' isDefinition ∧ (∀ i, rhs'.indexBag.count i ≤ 2) ∧
    (∀ i, rhs'.indexBag.count i = 1 ↔ rhs.indexBag.count i = 1) ∧
    ∀ I : Reading R, ConstantOnStrands braidingName rhs I.dim →
      ∀ ρ : Index → ℕ, (∀ i, rhs.indexBag.count i = 1 → ρ i < I.dim i) →
        I.array braidingName rhs' ρ = I.array braidingName rhs ρ

variable {lhs rhs rhs' removed : Diagram} {isDefinition : Bool} {r : Index → Index}

/-- Indices have one representative exactly if they are connected. -/
theorem Identifies.eq_iff (hr : Identifies braidingName lhs rhs r) (i j : Index) :
    r i = r j ↔ Connected braidingName rhs i j := by
  constructor
  · intro hij
    -- the class of an index is the same at both ends of every strand
    have hclass := hr.identified (Quot.mk fun i j => IsStrandOf braidingName
      (rhs.tensors.filter fun t => t.isBraiding braidingName) (i, j)) fun e he => Quot.sound he
    exact Quot.eqvGen_exact ((hclass i).symm.trans (hij ▸ hclass j))
  · intro hij
    have hsame :=
      iff_of_eqvGen (P := fun k => r i = r k) (fun a b hab => by rw [hr.constant (a, b) hab]) hij
    exact hsame.mp rfl

/-- A class leads to a leg exactly if its indices are connected to one. -/
theorem Identifies.legCount_pos_iff (hr : Identifies braidingName lhs rhs r) (i : Index) :
    0 < Web.legCount (rhs.otherLegs braidingName) r (r i) ↔
      ∃ j ∈ rhs.otherLegs braidingName, Connected braidingName rhs i j := by
  rw [Web.legCount, Multiset.count_pos, Multiset.mem_map]
  refine exists_congr fun j => and_congr_right fun _ => ?_
  rw [← hr.eq_iff, eq_comm]

/-- A strand does not lead to another factor if something is true of it that is true at both ends of
a strand as soon as at one, but at no leg of another factor. -/
theorem not_isAnchored {d : Diagram} {strands : List Strand}
    (hstrands : TensorRef.allStrands braidingName (d.tensors.filter fun t =>
      t.isBraiding braidingName) = .ok strands) {P : Index → Prop}
    (hP : ∀ e ∈ strands, P e.1 ↔ P e.2) (hlegs : ∀ i ∈ d.otherLegs braidingName, ¬ P i) {e : Strand}
    (he : e ∈ strands) (hPe : P e.1) : ¬ d.IsAnchored braidingName := by
  intro hanchored
  have hmem := TensorRef.mem_iff_of_allStrands_eq_ok hstrands
  obtain ⟨i, hi, hconnected⟩ := hanchored e ((hmem e).mp he)
  exact hlegs i hi ((iff_of_eqvGen (fun a b hab => hP (a, b) ((hmem _).mpr hab)) hconnected).mp hPe)

/-! ## Arrays of an assignment -/

section

variable {R : Type} [CommRing R] [StarRing R]

/-- The array of what remains. -/
theorem Remains.array_eq (h : Remains braidingName rhs r rhs') (I : Reading R) (ρ : Index → ℕ) :
    I.array braidingName rhs' ρ =
      ∑ g ∈ valuations (doubled ((rhs.otherLegs braidingName).map r)) I.dim ρ,
      rhs.valueOf (I.factorAt braidingName (g ∘ r)) I.scalar := by
  rw [Reading.array, h.indexBag_eq]
  refine Finset.sum_congr rfl fun g _ => ?_
  rw [← h.valueOf_eq]
  refine h.hasNoSum.valueOf_congr _ fun t ht => ?_
  rw [Reading.refAt, Reading.factorAt, if_neg (h.not_isBraiding t ht),
    if_neg (h.not_isBraiding t ht)]

/-- The value of the other factors depends on their legs. -/
theorem HasNoSum.valueOf_factorAt_congr (hrhs : rhs.HasNoSum) (I : Reading R) {g g' : Index → ℕ}
    (h : ∀ i ∈ rhs.otherLegs braidingName, g i = g' i) :
    rhs.valueOf (I.factorAt braidingName g) I.scalar = rhs.valueOf (I.factorAt braidingName g')
      I.scalar := by
  refine hrhs.valueOf_congr _ fun t ht => ?_
  rw [Reading.factorAt, Reading.factorAt]
  split_ifs with hbraiding
  · rfl
  · have hlegs : ∀ i ∈ t.indices, g i = g' i := fun i hi =>
      h i (Multiset.mem_coe.mpr
        (List.mem_flatMap.mpr ⟨t, List.mem_filter.mpr ⟨ht, by simpa using hbraiding⟩, hi⟩))
    rw [TensorRef.indices, List.forall_mem_append] at hlegs
    rw [List.map_congr_left hlegs.1, List.map_congr_left hlegs.2]

end

section

variable {strands : List Strand} (hstrands : TensorRef.allStrands braidingName
  (rhs.tensors.filter fun t => t.isBraiding braidingName) = .ok strands)

include hstrands

theorem constantOnStrands_iff {α : Type} {g : Index → α} :
    ConstantOnStrands braidingName rhs g ↔ ∀ e ∈ strands, g e.1 = g e.2 :=
  forall_congr' fun e => imp_congr_left (TensorRef.mem_iff_of_allStrands_eq_ok hstrands e).symm

/-- If every strand leads to another factor, then so does every class. -/
theorem Identifies.legCount_pos (hr : Identifies braidingName lhs rhs r)
    (hanchored : rhs.IsAnchored braidingName) :
    ∀ i ∈ Web.indices (rhs.otherLegs braidingName) strands,
      0 < Web.legCount (rhs.otherLegs braidingName) r (r i) := by
  have hstrand : ∀ e ∈ strands, 0 < Web.legCount (rhs.otherLegs braidingName) r (r e.1) :=
    fun e he =>
    (hr.legCount_pos_iff e.1).mpr
      (hanchored e ((TensorRef.mem_iff_of_allStrands_eq_ok hstrands e).mp he))
  intro i hi
  rcases Multiset.mem_add.mp (Web.mem_indices.mp hi) with hi | hi
  · exact Multiset.count_pos.mpr (Multiset.mem_map_of_mem r hi)
  · obtain ⟨e, he, hie⟩ := mem_strandEnds.mp hi
    rcases hie with rfl | rfl
    · exact hstrand e he
    · rw [← hr.constant e ((TensorRef.mem_iff_of_allStrands_eq_ok hstrands e).mp he)]
      exact hstrand e he

variable {R : Type} [CommRing R] [StarRing R]

/-- The array of a product with braidings. -/
theorem HasNoSum.array_eq (hrhs : rhs.HasNoSum) (I : Reading R) (ρ : Index → ℕ) :
    I.array braidingName rhs ρ =
      ∑ g ∈ (valuations (doubled (rhs.otherLegs braidingName + strandEnds strands)) I.dim ρ).filter
      (fun g => ∀ e ∈ strands, g e.1 = g e.2),
        rhs.valueOf (I.factorAt braidingName g) I.scalar := by
  classical
  have hwell : ∀ t ∈ rhs.tensors, t.isBraiding braidingName = true →
      ∃ s, t.strands braidingName = .ok s :=
    fun t ht hbraiding =>
      TensorRef.exists_strands_of_allStrands hstrands (List.mem_filter.mpr ⟨ht, hbraiding⟩)
  rw [Reading.array, indexBag_eq_add hstrands, Finset.sum_filter]
  refine Finset.sum_congr rfl fun g _ => ?_
  rw [I.valueOf_refAt hrhs hwell g]
  exact if_congr (constantOnStrands_iff hstrands) rfl rfl

end

/-! ## Removal -/

section

variable (hlhs : lhs.IsAssignable) (hrhs : rhs.HasNoSum) (hcount : ∀ i, rhs.indexBag.count i ≤ 2)
  (hends : ∀ e, IsStrandOf braidingName (rhs.tensors.filter fun t => t.isBraiding braidingName) e →
    ∀ i, i = e.1 ∨ i = e.2 → rhs.indexBag.count i = 1 → i ∈ lhs.indexBag)
  (h : RemovesTo braidingName lhs rhs isDefinition r rhs' removed)

include hlhs hrhs hcount hends h

/-- If every strand leads to another factor, then the array is kept. -/
theorem RemovesTo.keepsArray (R : Type) [CommRing R] [StarRing R]
    (honce : ∀ i ∈ lhs.indexBag, rhs.indexBag.count i = 1)
    (hanchored : rhs.IsAnchored braidingName) :
    KeepsArray R braidingName lhs rhs isDefinition removed := by
  obtain ⟨strands, hstrands⟩ := h.exists_allStrands
  have hweb := h.web hstrands hcount
  have hremains := hrhs.remains h.remainder
  have hlegs := h.legCount_pos hstrands hanchored
  have hbag := indexBag_eq_add hstrands
  -- an index of the left hand side is represented by one, which is the only one in its class
  have hkept : ∀ i ∈ lhs.indexBag, r i = i := by
    intro i hi
    have hri : r i ∈ lhs.indexBag := by
      cases hlhs with
      | ref t =>
        simpa [indexBag, tensors] using h.outgoing t rfl i (by simpa [indexBag, tensors] using hi)
      | scalar s => exact absurd hi (Multiset.notMem_zero i)
    exact hweb.eq_of_once hlegs (hweb.rep_rep i) (hbag ▸ honce _ hri) (hbag ▸ honce i hi)
  have hrep : ∀ i, (rhs.otherLegs braidingName + strandEnds strands).count i = 1 → r i = i := by
    intro i hi
    by_cases hend : i ∈ strandEnds strands
    · obtain ⟨e, he, hie⟩ := mem_strandEnds.mp hend
      exact hkept i (hends e ((TensorRef.mem_iff_of_allStrands_eq_ok hstrands e).mp he) i
        hie (hbag ▸ hi))
    · exact hweb.rep_of_notMem hend
  refine ⟨rhs', ?_, fun i => ?_, fun i => ?_, fun I hdim ρ hρ => ?_⟩
  · rw [h.eq_assign, hlhs.mapIndices_eq_iff.mpr hkept]
  · rw [hremains.indexBag_eq]
    exact hweb.legCount_le_two hlegs i
  · rw [hremains.indexBag_eq, hbag]
    exact hweb.legCount_eq_one_iff hlegs hrep i
  · rw [hremains.array_eq, hrhs.array_eq hstrands]
    rw [hbag] at hρ
    exact (hweb.sum_valuations_eq hlegs hrep ((constantOnStrands_iff hstrands).mp hdim) hρ
      fun g g' hg => hrhs.valueOf_factorAt_congr I hg).symm

/-- If the array is kept, then every strand leads to another factor. -/
theorem RemovesTo.isAnchored {R : Type} [CommRing R] [StarRing R] [CharZero R]
    (hkeeps : KeepsArray R braidingName lhs rhs isDefinition removed) :
    rhs.IsAnchored braidingName := by
  obtain ⟨strands, hstrands⟩ := h.exists_allStrands
  have hweb := h.web hstrands hcount
  have hremains := hrhs.remains h.remainder
  have hbag := indexBag_eq_add hstrands
  obtain ⟨rhs'', heq, -, -, harray⟩ := hkeeps
  obtain ⟨hkept, rfl, -⟩ := Diagram.assign.inj (h.eq_assign.symm.trans heq)
  rw [hlhs.mapIndices_eq_iff] at hkept
  intro e he
  have hmem := (TensorRef.mem_iff_of_allStrands_eq_ok hstrands e).mpr he
  by_contra hnot
  have hnone : Web.legCount (rhs.otherLegs braidingName) r (r e.1) = 0 :=
    Nat.eq_zero_of_not_pos ((h.legCount_pos_iff e.1).not.mpr hnot)
  -- two indices of the left hand side can not be identified
  have honce : Web.onceIn (rhs.otherLegs braidingName) strands r (r e.1) = ∅ := by
    refine hweb.onceIn_eq_empty hnone fun i hi hend => ?_
    obtain ⟨f, hf, hif⟩ := mem_strandEnds.mp hend
    refine hkept i (hends f ((TensorRef.mem_iff_of_allStrands_eq_ok hstrands f).mp hf) i hif ?_)
    rw [hbag]
    exact hi
  -- the sum over a closed chain gets lost
  let I : Reading R := ⟨fun i => if r i = r e.1 then 2 else 1, fun _ _ _ _ => 1, fun _ => 1⟩
  have hone : ∀ g : Index → ℕ, rhs.valueOf (I.factorAt braidingName g) I.scalar = 1 := by
    intro g
    have hfactor : I.factorAt braidingName g = fun _ => 1 := by
      funext t
      exact ite_self 1
    rw [hfactor]
    exact hrhs.valueOf_one
  have hdim : ConstantOnStrands braidingName rhs I.dim := fun f hf => by
    simp only [I, h.constant f hf]
  have hvalues := harray I hdim (fun _ => 0) fun i _ => by
    simp only [I]
    split_ifs <;> decide
  have htwo := hweb.two_le_card_valuations (Web.fst_mem_indices hmem) honce
  rw [hremains.array_eq, hrhs.array_eq hstrands, hweb.valuations_of_closed hnone,
    Finset.sum_singleton, hone, Finset.sum_congr rfl fun g _ => hone g, Finset.sum_const, nsmul_one,
    eq_comm, Nat.cast_eq_one] at hvalues
  exact absurd (htwo.trans_eq hvalues) (by decide)

end

section

variable (hlhs : lhs.IsAssignable) (hrhs : rhs.HasNoSum) (hcount : ∀ i, rhs.indexBag.count i ≤ 2)
  (hends : ∀ e, IsStrandOf braidingName (rhs.tensors.filter fun t => t.isBraiding braidingName) e →
    ∀ i, i = e.1 ∨ i = e.2 → rhs.indexBag.count i = 1 → i ∈ lhs.indexBag)
  (h : (assign lhs rhs isDefinition).removeBraidings braidingName = .ok removed)

include hrhs h in
/-- Without braidings there is nothing to remove. -/
theorem removed_or_eq : (∃ r rhs', RemovesTo braidingName lhs rhs isDefinition r rhs' removed) ∨
    (removed = assign lhs rhs isDefinition ∧
      ∀ t ∈ rhs.tensors, ¬ t.isBraiding braidingName = true) := by
  by_cases hbraiding : ∃ t ∈ rhs.tensors, t.isBraiding braidingName = true
  · have ⟨t, ht, _⟩ := hbraiding
    exact Or.inl (exists_removesTo (hrhs.isTensor_of_mem ht) hbraiding h)
  · push Not at hbraiding
    refine Or.inr ⟨?_, hbraiding⟩
    have heq := removeStatement_of_none lhs isDefinition hbraiding
    exact (Except.ok.inj (heq.symm.trans h)).symm

include hlhs hrhs hcount hends h

theorem isAnchored_of_keepsArray {R : Type} [CommRing R] [StarRing R] [CharZero R]
    (hkeeps : KeepsArray R braidingName lhs rhs isDefinition removed) :
    rhs.IsAnchored braidingName := by
  rcases removed_or_eq hrhs h with ⟨r, rhs', hremoves⟩ | ⟨-, hnone⟩
  · exact hremoves.isAnchored hlhs hrhs hcount hends hkeeps
  · rintro e ⟨t, ht, -⟩
    obtain ⟨ht, hbraiding⟩ := List.mem_filter.mp ht
    exact absurd hbraiding (hnone t ht)

/-- Removing the braidings of an assignment keeps its left hand side and its array exactly if every
strand leads to a factor that is no braiding.  The right hand side is a product in which no index
appears more than twice.  The indices of the left hand side appear there once, and an end of a
strand that appears there once is an index of the left hand side. -/
theorem removal_keeps_array_iff (R : Type) [CommRing R] [StarRing R] [CharZero R]
    (honce : ∀ i ∈ lhs.indexBag, rhs.indexBag.count i = 1) :
    KeepsArray R braidingName lhs rhs isDefinition removed ↔ rhs.IsAnchored braidingName := by
  refine ⟨isAnchored_of_keepsArray hlhs hrhs hcount hends h, fun hanchored => ?_⟩
  rcases removed_or_eq hrhs h with ⟨r, rhs', hremoves⟩ | ⟨rfl, -⟩
  · exact hremoves.keepsArray hlhs hrhs hcount hends R honce hanchored
  · exact ⟨rhs, rfl, hcount, fun _ => Iff.rfl, fun _ _ _ _ => rfl⟩

end

/-- The ends of strands are looked at one by one. -/
theorem ends_mem_of_strands {strands : List Strand} (hstrands : TensorRef.allStrands braidingName
    (rhs.tensors.filter fun t => t.isBraiding braidingName) = .ok strands)
    (hends : ∀ e ∈ strands, ∀ i ∈ [e.1, e.2], rhs.indexBag.count i = 1 → i ∈ lhs.indexBag) :
    ∀ e, IsStrandOf braidingName (rhs.tensors.filter fun t => t.isBraiding braidingName) e →
      ∀ i, i = e.1 ∨ i = e.2 → rhs.indexBag.count i = 1 → i ∈ lhs.indexBag := by
  intro e he i hi
  exact hends e ((TensorRef.mem_iff_of_allStrands_eq_ok hstrands e).mpr he) i (by simpa using hi)

/-- Three legs of a tensor are taken across each other by two braidings that meet. -/
def crossedLegs : Diagram :=
  product (ref ⟨.name "τ", [.name "y", .name "x"], [.name "a", .name "b"], false⟩)
    (ref ⟨.name "τ", [.name "z", .name "w"], [.name "x", .name "c"], false⟩)
    [ref ⟨.name "A", [.name "a", .name "b", .name "c"], [], false⟩]

/-- All strands of the crossed legs lead to the tensor, so removing the braidings keeps its
array. -/
theorem removal_keeps_array_crossedLegs : ∃ removed,
    (assign (ref ⟨.name "E", [.name "y", .name "z", .name "w"], [], false⟩) crossedLegs
      true).removeBraidings "τ" = .ok removed ∧
    KeepsArray ℤ "τ" (ref ⟨.name "E", [.name "y", .name "z", .name "w"], [], false⟩) crossedLegs
      true removed := by
  have hstrands : TensorRef.allStrands "τ" (crossedLegs.tensors.filter fun t => t.isBraiding "τ") =
      .ok [(.name "a", .name "x"), (.name "b", .name "y"), (.name "x", .name "w"),
        (.name "c", .name "z")] := rfl
  have hmem := TensorRef.mem_iff_of_allStrands_eq_ok hstrands
  have hrel : ∀ {i j}, (i, j) ∈ [(Index.name "a", Index.name "x"), (.name "b", .name "y"),
    (.name "x", .name "w"),
      (.name "c", .name "z")] → Connected "τ" crossedLegs i j :=
      fun hij => .rel _ _ ((hmem _).mp hij)
  have hlegs : ∀ i, i = .name "a" ∨ i = .name "b" ∨ i = .name "c" →
      i ∈ crossedLegs.otherLegs "τ" := by
    rintro i (rfl | rfl | rfl) <;> decide
  have hanchored : crossedLegs.IsAnchored "τ" := by
    intro e he
    have he := (hmem e).mpr he
    simp only [List.mem_cons, List.not_mem_nil, or_false] at he
    rcases he with rfl | rfl | rfl | rfl
    · exact ⟨.name "a", hlegs _ (by simp), .refl _⟩
    · exact ⟨.name "b", hlegs _ (by simp), .refl _⟩
    · exact ⟨.name "a", hlegs _ (by simp), .symm _ _ (hrel (by simp))⟩
    · exact ⟨.name "c", hlegs _ (by simp), .refl _⟩
  refine ⟨_, rfl,
    (removal_keeps_array_iff (.ref _) ?_ (count_indexBag_le (by decide)) ?_ rfl ℤ (by decide)).mpr
    hanchored⟩
  · exact .product (.ref _) (.ref _) (by simpa using .ref _)
  · exact ends_mem_of_strands hstrands (by decide)

/-- A strand that is closed by the index that it begins and ends with. -/
def closedStrand : Diagram :=
  pair (ref ⟨.name "B", [.name "y"], [], false⟩)
    (ref ⟨.name "τ", [.name "x", .name "a"], [.name "a", .name "y"], false⟩)

/-- A strand between two indices of the left hand side. -/
def bridgingStrand : Diagram :=
  pair (ref ⟨.name "B", [.name "y"], [], false⟩)
    (ref ⟨.name "τ", [.name "x", .name "u"], [.name "v", .name "y"], false⟩)

/-- The removal does not fail for a closed strand, whose sum gets lost, and not for a strand between
two indices of the left hand side, of which one takes the place of the other. -/
theorem removal_loses_strands :
    (∃ removed,
      (assign (ref ⟨.name "E", [.name "x"], [], false⟩) closedStrand true).removeBraidings "τ" =
        .ok removed ∧
      ¬ KeepsArray ℤ "τ" (ref ⟨.name "E", [.name "x"], [], false⟩) closedStrand true removed) ∧
    ∃ removed,
      (assign (ref ⟨.name "E", [.name "u", .name "v", .name "x"], [], false⟩) bridgingStrand
        true).removeBraidings "τ" = .ok removed ∧
      ¬ KeepsArray ℤ "τ" (ref ⟨.name "E", [.name "u", .name "v", .name "x"], [], false⟩)
        bridgingStrand true removed := by
  refine ⟨⟨_, rfl, fun hkeeps => ?_⟩, ⟨_, rfl, fun hkeeps => ?_⟩⟩
  · have hstrands : TensorRef.allStrands "τ" (closedStrand.tensors.filter fun t =>
      t.isBraiding "τ") =
        .ok [(.name "a", .name "a"), (.name "y", .name "x")] := rfl
    refine not_isAnchored hstrands (P := (· = .name "a")) (by decide) (by decide)
      List.mem_cons_self rfl (isAnchored_of_keepsArray (.ref _) ?_ (count_indexBag_le (by decide))
        ?_ rfl hkeeps)
    · exact .product (.ref _) (.ref _) (by simp)
    · exact ends_mem_of_strands hstrands (by decide)
  · have hstrands : TensorRef.allStrands "τ" (bridgingStrand.tensors.filter fun t =>
      t.isBraiding "τ") =
        .ok [(.name "v", .name "u"), (.name "y", .name "x")] := rfl
    refine not_isAnchored hstrands (P := fun i => i = .name "u" ∨
      i = .name "v") (by decide) (by decide) List.mem_cons_self (Or.inr rfl)
      (isAnchored_of_keepsArray (.ref _) ?_ (count_indexBag_le (by decide)) ?_ rfl hkeeps)
    · exact .product (.ref _) (.ref _) (by simp)
    · exact ends_mem_of_strands hstrands (by decide)

end TensorDiagram.Diagram
