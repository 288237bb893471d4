import TensorDiagram.Text.Listing
import TensorDiagram.Text.Quoted

/-!
# Nested groups of names

The form in which a contraction order is written down: names in nested groups. Only groups of two
make a contraction tree.
-/

namespace TensorDiagram

/-- A name, or a group of such. A place without a name counts as a name too. -/
inductive Nest where
  | name (text : Option String)
  | group (items : List Nest)

namespace Nest

/-- A possibly missing name, quoted. -/
def quotedName : Option String → String
  | some text => Text.quoted text
  | none => "None"

mutual
/-- The nest as messages show it. -/
def text : Nest → String
  | name n => quotedName n
  | group items => Text.parenthesized (texts items)
/-- The members of a group as messages show them. -/
def texts : List Nest → List String
  | [] => []
  | item :: rest => item.text :: texts rest
end

end Nest

end TensorDiagram
