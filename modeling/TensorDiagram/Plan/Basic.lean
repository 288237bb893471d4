import TensorDiagram.Diagram.Text
import TensorDiagram.HandleTable

/-!
# Plans

A plan is a flat list of statements together with the handles of its compilation. Blocks and sealed
regions are opened; a control construct is kept, with a body that is flat.
-/

namespace TensorDiagram

namespace Diagram

mutual
/-- The statements of a diagram without blocks around them. -/
def flatten : Diagram → List Diagram
  | block statements => flattenList statements
  | sealed statements => flattenList statements
  | control kind body => [control kind (block body.flatten)]
  | d => [d]
/-- The statements of a list of diagrams without blocks around them. -/
def flattenList : List Diagram → List Diagram
  | [] => []
  | d :: rest => d.flatten ++ flattenList rest
end

end Diagram

/-- A plan. -/
structure Plan where
  /-- The statements in the order in which they are run. -/
  statements : List Diagram
  /-- The handles of the compilation. -/
  table : HandleTable

namespace Plan

/-- The plan with the statements of a diagram. -/
def ofDiagram (d : Diagram) (table : HandleTable) : Plan :=
  ⟨d.flatten, table⟩

/-- The handles of intermediate results. -/
def temporaries (p : Plan) : List Handle :=
  p.table.temporaries

/-- The objects that have to be passed in. -/
def inputs (p : Plan) : List ObjectRef :=
  p.statements.filterMap fun
    | .bind _ name => some name
    | _ => none

/-- The objects that are handed back. -/
def exports (p : Plan) : List ObjectRef :=
  p.statements.filterMap fun
    | .exportAs name _ => some name
    | _ => none

/-- The scalars that are assigned to. -/
def assignedScalars (p : Plan) : List Scalar :=
  p.statements.filterMap fun
    | .assign (.scalar s) _ _ => some s
    | _ => none

/-- The names of everything that is handed back, scalars last. -/
def outputs (p : Plan) : List ObjectRef :=
  p.exports ++ p.assignedScalars.map fun s => .name s.text

/-- The plan in brief. -/
def summary (p : Plan) : String :=
  "<ContractionPlan with " ++ toString p.statements.length ++ " statements>"

end Plan

end TensorDiagram
