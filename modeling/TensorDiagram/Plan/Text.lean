import TensorDiagram.Diagram.Map
import TensorDiagram.Error
import TensorDiagram.Options
import TensorDiagram.Plan.Basic
import TensorDiagram.Text.Fill

/-!
# The text of a plan

A heading with the numbers of inputs, outputs and temporaries, then the statements, indented and
broken into lines. Objects are shown by name where they have one, unless handles are asked for.
-/

namespace TensorDiagram.Plan

/-- A statement with the names of its objects in the place of handles. Only references in
expressions, assignments and control constructs are replaced. -/
def display (p : Plan) (d : Diagram) : Diagram :=
  match d with
  | .assign .. | .control .. => d.mapObjects p.table.displayName
  | _ => if d.isExpression then d.mapObjects p.table.displayName else d

/-- The heading of a plan. -/
def heading (p : Plan) : String :=
  "ContractionPlan(" ++ toString p.inputs.length ++ " inputs, " ++ toString p.outputs.length ++
    " outputs, " ++ toString p.temporaries.length ++ " temporaries)"

/-- How the lines of statements are broken. -/
def lineForm (options : Options) : Text.FillForm :=
  ⟨options.lineWidth, Text.blanks options.indent, Text.blanks (2 * options.indent)⟩

/-- The lines for one line of a statement. A blank one is shown as just the indentation. -/
def fillLine (options : Options) (line : String) : Except Error (List String) :=
  match Text.fill? (lineForm options) line with
  | none => .error .lineWidth
  | some [] => .ok [Text.blanks options.indent]
  | some lines => .ok lines

/-- The text of a plan. -/
def text (options : Options) (p : Plan) : Except Error String := do
  let shown := if options.showHandles then p.statements else p.statements.map p.display
  let lines := shown.flatMap fun d => Text.lines (d.text options.indent)
  let filled ← lines.mapM (fillLine options)
  return "\n".intercalate (p.heading :: filled.flatten)

end TensorDiagram.Plan
