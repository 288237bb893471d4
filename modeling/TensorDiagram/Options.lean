/-!
# Options

The choices that hold for one compilation and for the text of its plan.
-/

namespace TensorDiagram

/-- The options of a compilation. -/
structure Options where
  /-- The object name that stands for a braiding, the crossing of two strands. -/
  braidingName : String := "τ"
  /-- Whether the references to objects that are passed in are checked for their number of legs. -/
  checkArity : Bool := true
  /-- Whether the planar pathway checks assignments before it lowers them. -/
  checkPlanarity : Bool := true
  /-- The backend that is used if none is named. -/
  defaultBackend : String := "numpy"
  /-- The greatest width of a line of a plan. -/
  lineWidth : Int := 100
  /-- By how much nested lines are moved to the right. -/
  indent : Nat := 4
  /-- Whether plans show handles where an object has a name. -/
  showHandles : Bool := false

end TensorDiagram
