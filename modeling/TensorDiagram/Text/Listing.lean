/-!
# Written lists

The ways in which lists of texts are put on one line, and the indentation of a text of several
lines. Diagrams, tables of handles and error messages are all written with these.
-/

namespace TensorDiagram.Text

/-- The items in order, with a comma and a blank between neighbours. -/
def commas (items : List String) : String :=
  ", ".intercalate items

/-- A list in square brackets. -/
def bracketed (items : List String) : String :=
  "[" ++ commas items ++ "]"

/-- A list in parentheses. A single item keeps a comma behind it, so that it differs from a
parenthesized expression. -/
def parenthesized : List String → String
  | [item] => "(" ++ item ++ ",)"
  | items => "(" ++ commas items ++ ")"

/-- Pairs in braces, every key with its value behind a colon. -/
def braced (pairs : List (String × String)) : String :=
  "\x7b" ++ commas (pairs.map fun pair => pair.1 ++ ": " ++ pair.2) ++ "\x7d"

/-- A text of `n` blanks. -/
def blanks (n : Nat) : String :=
  String.ofList (List.replicate n ' ')

/-- The lines of a text. There is always at least one, and a final line end starts an empty one. -/
def lines (text : String) : List String :=
  text.splitOn "\n"

/-- The text with `n` blanks in front of each of its lines. -/
def indented (n : Nat) (text : String) : String :=
  "\n".intercalate ((lines text).map (blanks n ++ ·))

end TensorDiagram.Text
