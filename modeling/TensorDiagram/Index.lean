import TensorDiagram.Text.Listing
import TensorDiagram.Text.Quoted

/-!
# Indices

The labels of the legs of a tensor. A label is a name or a number; the number `1` and the name `1`
are different labels that are written alike.
-/

namespace TensorDiagram

/-- The label of a leg. -/
inductive Index where
  | name (text : String)
  | number (n : Int)
deriving DecidableEq, Repr

namespace Index

/-- The label as it is written in a diagram. -/
def text : Index → String
  | name s => s
  | number n => toString n

/-- The label as it is written in a message, with names quoted. -/
def quotedText : Index → String
  | name s => Text.quoted s
  | number n => toString n

end Index

/-- The two lists of labels of a tensor. Without inputs the semicolon is left out. -/
def legsText (left right : List Index) : String :=
  if right.isEmpty then Text.bracketed (left.map Index.text)
  else "[" ++ Text.commas (left.map Index.text) ++ "; " ++ Text.commas (right.map Index.text) ++ "]"

/-- The entries that occur more than once and are not among those to ignore, each listed once. -/
def duplicates {α : Type} [DecidableEq α] (ignored : List α) : List α → List α
  | [] => []
  | x :: rest =>
    let others := duplicates ignored rest
    if x ∈ rest ∧ x ∉ ignored ∧ x ∉ others then x :: others else others

/-- The entries without repetitions, each at its first place. -/
def distinct {α : Type} [DecidableEq α] : List α → List α
  | [] => []
  | x :: rest => x :: (distinct rest).filter (· ≠ x)

theorem mem_duplicates {α : Type} [DecidableEq α] (ignored : List α) (xs : List α) (x : α) :
    x ∈ duplicates ignored xs ↔ 2 ≤ xs.count x ∧ x ∉ ignored := by
  induction xs with
  | nil => simp [duplicates]
  | cons y rest ih =>
    have hcount : x ∈ rest ↔ 1 ≤ rest.count x := by
      rw [Nat.succ_le_iff, List.count_pos_iff]
    simp only [duplicates]
    by_cases hxy : y = x
    · subst hxy
      simp only [List.count_cons_self]
      split
      · rename_i h
        simp only [List.mem_cons, true_or, true_iff]
        exact ⟨by have := hcount.mp h.1; omega, h.2.1⟩
      · rename_i h
        rw [ih]
        constructor
        · rintro ⟨h1, h2⟩; exact ⟨by omega, h2⟩
        · rintro ⟨h1, h2⟩
          have hmem : y ∈ rest := hcount.mpr (by omega)
          by_cases ho : y ∈ duplicates ignored rest
          · exact ih.mp ho
          · exact absurd ⟨hmem, h2, ho⟩ h
    · have hne : ¬ x = y := fun h => hxy h.symm
      rw [List.count_cons_of_ne hxy]
      split
      · simp only [List.mem_cons, hne, false_or]; exact ih
      · exact ih

end TensorDiagram
