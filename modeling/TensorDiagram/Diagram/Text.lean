import TensorDiagram.Diagram.Basic

/-!
# Written diagrams

The text of a diagram. Sums stand in parentheses inside sums and products, products inside products;
the statements of a block stand on lines of their own, and the body of a control construct is
indented.
-/

namespace TensorDiagram

/-- The reference as it is written. -/
def TensorRef.text (t : TensorRef) : String :=
  t.object.text ++ (if t.isAdjoint then "'" else "") ++ legsText t.left t.right

/-- The space of a leg as it is written. -/
def LegSpace.text (s : LegSpace) : String :=
  let inner :=
    "space(" ++ s.object.text ++ (if s.isAdjoint then "'" else "") ++ ", " ++ toString s.position
      ++ ")"
  if s.isDual then "dual(" ++ inner ++ ")" else inner

/-- The scalar as it is written. -/
def Scalar.text : Scalar → String
  | number x => x.text
  | name s => s

namespace Diagram

/-- A text in parentheses, if the condition holds. -/
def parenthesizedIf (condition : Bool) (text : String) : String :=
  if condition then "(" ++ text ++ ")" else text

mutual
/-- The diagram as it is written, with nested lines indented by `indent`. -/
def text (indent : Nat) : Diagram → String
  | ref t => t.text
  | scalar s => s.text
  | conj a => "conj(" ++ a.text indent ++ ")"
  | sum sign first rest =>
    (match sign with | .plus => "" | .minus => "-") ++
      parenthesizedIf first.isSum (first.text indent) ++ termsText indent rest
  | product first second rest =>
    parenthesizedIf (first.isSum || first.isProduct) (first.text indent) ++ " * " ++
      parenthesizedIf (second.isSum || second.isProduct) (second.text indent) ++
        factorsText indent rest
  | assign lhs rhs isDefinition =>
    lhs.text indent ++ (if isDefinition then " := " else " = ") ++ rhs.text indent
  | block statements => "\n".intercalate (statementTexts indent statements)
  | control kind body => kind ++ ":\n" ++ Text.indented indent (body.text indent)
  | sealed statements => "\n".intercalate (statementTexts indent statements)
  | space s => s.text
  | bind handle name => handle.text ++ " = " ++ name.text
  | checkArity handle name outputs inputs =>
    "check_arity(" ++ handle.text ++ ", " ++ toString outputs ++ ", " ++ toString inputs ++
      ")  # " ++ name.text
  | exportAs name handle => name.text ++ " = " ++ handle.text
  | braid handle first second =>
    handle.text ++ " = braiding_tensor(" ++ first.text ++ ", " ++ second.text ++ ")"
/-- The later terms of a sum, each behind its sign. -/
def termsText (indent : Nat) : List (Sign × Diagram) → String
  | [] => ""
  | (sign, term) :: rest =>
    (match sign with | .plus => " + " | .minus => " - ") ++
      parenthesizedIf term.isSum (term.text indent) ++ termsText indent rest
/-- The later factors of a product, each behind a star. -/
def factorsText (indent : Nat) : List Diagram → String
  | [] => ""
  | factor :: rest =>
    " * " ++ parenthesizedIf (factor.isSum || factor.isProduct) (factor.text indent) ++
      factorsText indent rest
/-- The texts of statements. -/
def statementTexts (indent : Nat) : List Diagram → List String
  | [] => []
  | statement :: rest => statement.text indent :: statementTexts indent rest
end

end Diagram

end TensorDiagram
