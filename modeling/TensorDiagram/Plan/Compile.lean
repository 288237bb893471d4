import TensorDiagram.Adjoint
import TensorDiagram.Binary
import TensorDiagram.Binding
import TensorDiagram.Braiding.Construct
import TensorDiagram.Braiding.Remove
import TensorDiagram.Plan.Basic
import TensorDiagram.Planar.Check
import TensorDiagram.Planar.Lower

/-!
# Compilation

Two ways from a diagram to a plan. Both move conjugation to references, nest products into pairs and
bind the objects. The planar way constructs the braidings as tensors, checks that all assignments
are planar, and lowers them to binary contractions. The symmetric way removes the braidings, which
is right if crossings over and under are the same, and leaves products as they are written.
-/

namespace TensorDiagram.Plan

/-- The normal form of a diagram, bound to handles. -/
def bound (options : Options) (order : Option ContractionOrder) (d : Diagram) :
    Except Error (Binding × HandleTable) := do
  let d ← d.pushConj.binarize order
  d.bindNames options options.checkArity .empty

/-- Compile a diagram into planar binary contractions. -/
def forBraided (options : Options) (order : Option ContractionOrder) (d : Diagram) :
    Except Error Plan := do
  let (binding, table) ← bound options order d
  let (body, table) ← binding.body.constructBraidings options.braidingName table
  if options.checkPlanarity then body.checkPlanar
  let (body, table) ← body.lowerStatements table
  return ofDiagram { binding with body := body }.toBlock table

/-- Compile a diagram for crossings that are the same over and under. -/
def forSymmetric (options : Options) (order : Option ContractionOrder) (d : Diagram) :
    Except Error Plan := do
  let (binding, table) ← bound options order d
  let body ← binding.body.removeBraidings options.braidingName
  return ofDiagram { binding with body := body }.toBlock table

end TensorDiagram.Plan
