import TensorDiagram.Proofs.Untangling

/-!
# Assignments without their braidings

The braidings of an assignment are removed in two steps.  First the ends of their strands are
identified: every index gets a representative, on both sides of the assignment (`Identifies`).  That
never fails if all braidings have two outputs and two inputs (`exists_identifies`).  Then the
braidings are dropped from the products of the right hand side, which fails if nothing is left.

If it does not fail, the assignment becomes the one that `RemovesTo` describes (`exists_removesTo`).
-/

namespace TensorDiagram

variable {braidingName : String}

theorem TensorRef.exists_allStrands {ts : List TensorRef}
    (h : ∀ t ∈ ts, ∃ s, t.strands braidingName = .ok s) :
    ∃ strands, allStrands braidingName ts = .ok strands := by
  obtain ⟨pairs, hpairs⟩ := exists_mapM_eq_ok h
  exact ⟨_, by rw [allStrands, hpairs, ok_bind]; rfl⟩

theorem TensorRef.exists_strands_of_allStrands {ts : List TensorRef} {strands : List Strand}
    (h : allStrands braidingName ts = .ok strands) {t : TensorRef} (ht : t ∈ ts) :
    ∃ s, t.strands braidingName = .ok s := by
  rw [allStrands] at h
  obtain ⟨pairs, hpairs, -⟩ := bind_eq_ok_iff.mp h
  exact exists_of_mapM_eq_ok hpairs ht

namespace Diagram

variable {lhs rhs : Diagram}

/-- How indices are represented if the braidings of an assignment are to be removed. -/
structure Identifies (braidingName : String) (lhs rhs : Diagram) (r : Index → Index) : Prop where
  /-- All braidings have two outputs and two inputs. -/
  well : ∀ t ∈ rhs.tensors, t.isBraiding braidingName = true → ∃ s, t.strands braidingName = .ok s
  /-- Only ends of strands are identified. -/
  identified : ∀ {α : Type} (g : Index → α), Machine.ConstantOnStrands braidingName rhs g →
    ∀ i, g (r i) = g i
  /-- The ends of all strands are identified. -/
  constant : Machine.ConstantOnStrands braidingName rhs r
  /-- Indices of the left hand side are represented by such. -/
  outgoing : ∀ t, lhs = .ref t → ∀ i ∈ t.indices, r i ∈ t.indices

/-- The braidings of an assignment are dropped from its right hand side. -/
theorem purgeBraidings_assign (lhs rhs : Diagram) (isDefinition : Bool) :
    (assign lhs rhs isDefinition).purgeBraidings braidingName =
      (wholeOf braidingName rhs (rhs.remainder braidingName) >>= fun rhs' =>
        .ok (assign lhs rhs' isDefinition)) := by
  rw [purgeBraidings, wholeOf, if_neg (by simp [braidingTerm?]), remainder]
  rcases wholeOf braidingName rhs (rhs.remainder braidingName) with e | rhs' <;> rfl

/-- The indices of an assignment are identified before its braidings are dropped. -/
theorem exists_identifies (lhs : Diagram) (isDefinition : Bool) (htensor : rhs.isTensor = true)
    (hbraiding : ∃ t ∈ rhs.tensors, t.isBraiding braidingName = true)
    (hwell : ∀ t ∈ rhs.tensors, t.isBraiding braidingName = true →
      ∃ s, t.strands braidingName = .ok s) :
    ∃ r, Identifies braidingName lhs rhs r ∧
      (assign lhs rhs isDefinition).removeStatement braidingName =
      (wholeOf braidingName (rhs.mapIndices r)
        ((rhs.mapIndices r).remainder braidingName) >>= fun rhs' =>
        .ok (assign (lhs.mapIndices r) rhs' isDefinition)) := by
  obtain ⟨strands, hstrands⟩ : ∃ strands, TensorRef.allStrands braidingName
      (rhs.tensors.filter fun t => t.isBraiding braidingName) = .ok strands :=
    TensorRef.exists_allStrands fun t ht =>
      hwell t (List.mem_filter.mp ht).1 (List.mem_filter.mp ht).2
  obtain ⟨map, closed, hmap, hclosed, hends⟩ :=
    IndexMap.exists_closure (assign lhs rhs isDefinition).outgoing strands
  have hmem := TensorRef.mem_iff_of_allStrands_eq_ok hstrands
  refine ⟨fun i => closed.findD i i, ⟨hwell, fun g hg i => ?_, fun e he => ?_, ?_⟩, ?_⟩
  · exact IndexMap.findD_closure_eq hmap hclosed (fun e he => hg e ((hmem e).mp he)) i
  · exact hends e ((hmem e).mpr he)
  · rintro t rfl i hi
    exact IndexMap.findD_closure_mem hmap hclosed hi
  · have hne : ¬ (rhs.tensors.filter fun t => t.isBraiding braidingName).isEmpty = true := by
      obtain ⟨t, ht, hbraiding⟩ := hbraiding
      rw [List.isEmpty_iff]
      exact List.ne_nil_of_mem (List.mem_filter.mpr ⟨ht, hbraiding⟩)
    rw [removeStatement, statementTerms?, if_pos htensor]
    simp only [if_neg hne, hstrands, hmap, hclosed, ok_bind]
    exact purgeBraidings_assign _ _ _

/-- Without braidings there is nothing to remove. -/
theorem removeStatement_of_none (lhs : Diagram) (isDefinition : Bool)
    (h : ∀ t ∈ rhs.tensors, ¬ t.isBraiding braidingName = true) :
    (assign lhs rhs isDefinition).removeStatement braidingName =
      .ok (assign lhs rhs isDefinition) := by
  have hnil : (rhs.tensors.filter fun t => t.isBraiding braidingName) = [] :=
    List.filter_eq_nil_iff.mpr h
  rw [removeStatement, statementTerms?]
  split_ifs
  · simp only [hnil]
    rfl
  · rfl

/-- What is left of an assignment with braidings once they are removed. -/
structure RemovesTo (braidingName : String) (lhs rhs : Diagram) (isDefinition : Bool)
    (r : Index → Index) (rhs' removed : Diagram) :
    Prop extends Identifies braidingName lhs rhs r where
  /-- The braidings are dropped. -/
  remainder : (rhs.mapIndices r).remainder braidingName = .ok (some rhs')
  /-- The assignment that is left. -/
  eq_assign : removed = assign (lhs.mapIndices r) rhs' isDefinition

theorem wholeOf_eq_ok {d x : Diagram} {remaining : Except Error (Option Diagram)}
    (h : wholeOf braidingName d remaining = .ok x) : remaining = .ok (some x) := by
  rw [wholeOf] at h
  split_ifs at h
  obtain ⟨o, ho, h⟩ := bind_eq_ok_iff.mp h
  cases o with
  | none => cases h
  | some y => rw [ho, Except.ok.inj h]

/-- Removing the braidings of an assignment. -/
theorem exists_removesTo {removed : Diagram} {isDefinition : Bool} (htensor : rhs.isTensor = true)
    (hbraiding : ∃ t ∈ rhs.tensors, t.isBraiding braidingName = true)
    (h : (assign lhs rhs isDefinition).removeStatement braidingName = .ok removed) :
    ∃ r rhs', RemovesTo braidingName lhs rhs isDefinition r rhs' removed := by
  have hwell : ∀ t ∈ rhs.tensors, t.isBraiding braidingName = true →
      ∃ s, t.strands braidingName = .ok s := by
    have hne : ¬ (rhs.tensors.filter fun t => t.isBraiding braidingName).isEmpty = true := by
      obtain ⟨t, ht, hbraiding⟩ := hbraiding
      rw [List.isEmpty_iff]
      exact List.ne_nil_of_mem (List.mem_filter.mpr ⟨ht, hbraiding⟩)
    intro t ht hbraiding
    rw [removeStatement, statementTerms?, if_pos htensor] at h
    simp only [if_neg hne] at h
    obtain ⟨strands, hstrands, -⟩ := bind_eq_ok_iff.mp h
    exact TensorRef.exists_strands_of_allStrands hstrands (List.mem_filter.mpr ⟨ht, hbraiding⟩)
  obtain ⟨r, hr, heq⟩ := exists_identifies lhs isDefinition htensor hbraiding hwell
  rw [heq] at h
  obtain ⟨rhs', hrhs', h⟩ := bind_eq_ok_iff.mp h
  exact ⟨r, rhs', hr, wholeOf_eq_ok hrhs', (Except.ok.inj h).symm⟩

theorem Identifies.exists_allStrands {r : Index → Index} (h : Identifies braidingName lhs rhs r) :
    ∃ strands, TensorRef.allStrands braidingName (rhs.tensors.filter fun t =>
      t.isBraiding braidingName) = .ok strands :=
  TensorRef.exists_allStrands fun t ht =>
    h.well t (List.mem_filter.mp ht).1 (List.mem_filter.mp ht).2

/-- A left hand side stays as it is if its indices do. -/
theorem IsAssignable.mapIndices_eq_iff (hlhs : lhs.IsAssignable) {r : Index → Index} :
    lhs.mapIndices r = lhs ↔ ∀ i ∈ lhs.indexBag, r i = i := by
  cases hlhs with
  | ref t =>
    have hmem : ∀ i, i ∈ (Diagram.ref t).indexBag ↔ i ∈ t.left ++ t.right := by
      simp [indexBag, tensors, TensorRef.indices]
    have hself : ∀ l : List Index, l.map r = l ↔ ∀ i ∈ l, r i = i := fun l => by
      rw [← List.map_inj_left (g := fun i => i), List.map_id']
    simp only [hmem, List.forall_mem_append, mapIndices, mapRefs, Diagram.ref.injEq]
    rw [TensorRef.mapIndices, TensorRef.mk.injEq]
    simp only [true_and, and_true, hself]
  | scalar s => exact iff_of_true rfl fun i hi => absurd hi (Multiset.notMem_zero i)

end Diagram

end TensorDiagram
