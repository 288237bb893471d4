import TensorDiagram.Proofs.StatementTrees

/-!
# Flattened statements

Opening the blocks and sealed regions of a statement changes nothing about how it runs
(`Machine.executeAll_flatten`).  What is left has no blocks around it, also inside the bodies of
control constructs (`Diagram.IsFlattened`), so there is nothing to be opened a second time.

A control construct stops a run before its body is looked at.  So what a run does says nothing about
the bodies, and it is said separately that they keep their statements
(`Diagram.flatMap_singles_flatten`).
-/

namespace TensorDiagram

namespace Diagram

/-! ## No blocks are left -/

/-- Statements that are neither blocks nor control constructs. -/
def IsSingle : Diagram → Prop
  | block _ | sealed _ | control .. => False
  | _ => True

/-- Statements with no blocks around them: single statements, and control constructs with a body of
such statements. -/
inductive IsFlattened : Diagram → Prop
  | single {d : Diagram} (h : d.IsSingle) : IsFlattened d
  | control {kind : String} {body : List Diagram} (h : ∀ s ∈ body, s.IsFlattened) :
    IsFlattened (.control kind (.block body))

/-- The statements of a flattened diagram are flattened. -/
theorem isFlattened_of_mem_flatten (d : Diagram) : ∀ s ∈ d.flatten, s.IsFlattened := by
  induction d with
  | block statements ih | sealed statements ih =>
    rw [flatten, flattenList_eq]
    exact List.forall_mem_flatMap.mpr ih
  | control kind body ih => exact List.forall_mem_singleton.mpr (.control ih)
  | _ => exact List.forall_mem_singleton.mpr (.single trivial)

/-- There is nothing to be opened around a flattened statement. -/
theorem IsFlattened.flatten_eq {s : Diagram} (h : s.IsFlattened) : s.flatten = [s] := by
  induction h with
  | @single s hs =>
    cases s with
    | block statements => exact hs.elim
    | sealed statements => exact hs.elim
    | control kind body => exact hs.elim
    | _ => rfl
  | control h ih => rw [flatten, flatten, flattenList_eq_self ih]

/-! ## No statement is lost -/

mutual
/-- The single statements of a diagram in order, with those in the bodies of control constructs. -/
def singles : Diagram → List Diagram
  | block statements => singlesOfList statements
  | sealed statements => singlesOfList statements
  | control _ body => body.singles
  | d => [d]
/-- The single statements of a list of diagrams. -/
def singlesOfList : List Diagram → List Diagram
  | [] => []
  | d :: rest => d.singles ++ singlesOfList rest
end

theorem singlesOfList_eq (ds : List Diagram) : singlesOfList ds = ds.flatMap singles := by
  induction ds with
  | nil => rfl
  | cons d ds ih => rw [singlesOfList, ih, List.flatMap_cons]

/-- Flattening keeps the single statements. -/
theorem flatMap_singles_flatten (d : Diagram) : d.flatten.flatMap singles = d.singles := by
  induction d with
  | block statements ih | sealed statements ih =>
    rw [flatten, singles, flattenList_eq, singlesOfList_eq, List.flatMap_assoc,
      List.flatMap_congr ih]
  | control kind body ih =>
    rw [flatten, List.flatMap_singleton, singles, singles, singlesOfList_eq]
    exact ih
  | _ => rfl

/-- Running the statements of a diagram without the blocks around them is running the diagram: every
machine ends in the same state, or with the same error in the same state.  Flattening the statements
again changes nothing.  No blocks are left, neither around the statements nor in the bodies of
control constructs, and all single statements are kept in their order. -/
theorem flattened_statements_run_alike (d : Diagram) :
    (∀ {R : Type} [Arithmetic R] (m : Machine R), m.executeAll d.flatten = m.execute d) ∧
    flattenList d.flatten = d.flatten ∧
    (∀ s ∈ d.flatten, s.IsFlattened) ∧
    d.flatten.flatMap singles = d.singles := by
  have hflattened := d.isFlattened_of_mem_flatten
  refine ⟨fun m => m.executeAll_flatten d, ?_, hflattened, d.flatMap_singles_flatten⟩
  exact flattenList_eq_self fun s hs => (hflattened s hs).flatten_eq

end Diagram

end TensorDiagram
