import TensorDiagram.Diagram.Text
import TensorDiagram.Order.Nest
import TensorDiagram.Space
import TensorDiagram.Table

/-!
# Errors

Everything that can go wrong, by cause. Each cause belongs to a kind, and most causes are told in a
message, which quotes the diagram at fault.
-/

namespace TensorDiagram

/-- The kinds of errors. -/
inductive ErrorKind where
  /-- An object has another number of legs than its reference. -/
  | arity
  /-- The name of the braiding is assigned to. -/
  | reservedName
  /-- A braiding is malformed, or strands can not be identified. -/
  | braiding
  /-- The space of a strand can not be determined. -/
  | braidingSpace
  /-- A braiding can not be left out. -/
  | braidingRemoval
  /-- A diagram can not be drawn in the plane. -/
  | planarity
  /-- A diagram of a form that an operation does not know. -/
  | unknownExpression
  /-- A statement that is compiled but can not be run. -/
  | unsupported
  /-- An argument with a wrong value. -/
  | value
  /-- An argument of a wrong type. -/
  | type
  /-- A name or handle that nothing is known about. -/
  | missing
  /-- Something other than a tensor where a tensor is needed. -/
  | notTensor
  /-- A condition on the arguments that callers have to meet. -/
  | precondition
  /-- An integer that is too large. -/
  | overflow
deriving DecidableEq, Repr

/-- The causes of errors. -/
inductive Error where
  -- writing diagrams
  | signCount
  | invalidSigns (signs : List Int)
  | tooFewFactors
  | noFactors
  | notAnExpression (typeName : String)
  | badOperand
  -- analysing diagrams
  | notBinary (product : Diagram)
  | notGeneralTensor (diagram : Diagram)
  | unknownExpression (diagram : Diagram)
  -- contraction orders
  | notAPair (nest : Nest)
  | emptyOrder
  | selfContraction (name : String)
  | disconnectedOrder
  | repeatedLeaves (leaves : List (Option String))
  | loneChild
  | singleLeaf
  -- binding
  | reservedName (name : ObjectRef) (statement : Diagram)
  -- braidings
  | braidingLegs (braidingName : String) (t : TensorRef)
  | unresolvedSpaces (strands : List (Index × Index)) (statement : Diagram)
  | indexCycle (map : Table Index Index)
  | notRemovable (t : TensorRef)
  | notContracted (diagram : Diagram)
  | nothingRemains (product : Diagram)
  -- planarity
  | notBipartition
  | lhsNotPlanar (lhs : Diagram)
  | notPlanar (diagram : Diagram)
  -- plans
  | lineWidth
  -- tensors
  | shapeMismatch (data legs : List Int)
  | legOutOfBounds (position : Int) (count : Nat)
  | mismatchingLegs (first second : Legs)
  | notWithoutLegs (legs : Legs)
  | labelCount (expected actual : Nat)
  | labelRepeated (label : Index)
  | incompatibleLegs (first second : Space) (label : Index)
  | outputLabels (given free : List Index)
  | negativeDimension
  | overflow
  -- running
  | unknownBackend (name : String)
  | backendType (typeName : String)
  | arity (wantedOut wantedIn : Int) (actualOut actualIn : Nat) (name : ObjectRef)
  | missingObject (name : ObjectRef)
  | unknownObject (object : ObjectRef)
  | scalarToTensor (statement : Diagram)
  | scalarPlusTensor
  | conjugateTensor (diagram : Diagram)
  | unknownStatement (statement : Diagram)
  | controlBlock (kind : String)
  | notTensor
  | missing
  | precondition

namespace Error

/-- The kind of an error. -/
def kind : Error → ErrorKind
  | arity .. => .arity
  | reservedName .. => .reservedName
  | braidingLegs .. | indexCycle _ => .braiding
  | unresolvedSpaces .. => .braidingSpace
  | notRemovable _ | notContracted _ | nothingRemains _ => .braidingRemoval
  | lhsNotPlanar _ | notPlanar _ => .planarity
  | notGeneralTensor _ | unknownExpression _ | conjugateTensor _ | unknownStatement _ =>
    .unknownExpression
  | controlBlock _ => .unsupported
  | notAnExpression _ | badOperand | backendType _ => .type
  | notTensor => .notTensor
  | missing => .missing
  | precondition => .precondition
  | overflow => .overflow
  | _ => .value

/-- A strand as messages show it. -/
def strandText (strand : Index × Index) : String :=
  Text.parenthesized [strand.1.quotedText, strand.2.quotedText]

/-- The message of an error, with nested lines of diagrams indented by `indent`. -/
def message? (indent : Nat) : Error → Option String
  | signCount => some "Need a (non-empty) sign for each term"
  | invalidSigns signs =>
    some ("Invalid signs: " ++ Text.parenthesized (signs.map fun s => toString s))
  | tooFewFactors => some "A Product needs at least two factors"
  | noFactors => some "Need at least one factor"
  | notAnExpression typeName => some ("Can not convert " ++ typeName ++ " to an expression")
  | badOperand => none
  | notBinary d => some ("Not a binary product: " ++ d.text indent)
  | notGeneralTensor d => some ("Not a general tensor: " ++ d.text indent)
  | unknownExpression d => some ("Unknown tensor expression: " ++ d.text indent)
  | notAPair nest => some ("Expected pairs. Got " ++ nest.text)
  | emptyOrder => some "Can not be empty"
  | selfContraction name => some ("Can not contract " ++ name ++ " with itself")
  | disconnectedOrder => some "The contraction order does not connect all tensors"
  | repeatedLeaves leaves =>
    some ("Duplicate names in contraction order: " ++
      Text.bracketed (leaves.map Nest.quotedName))
  | loneChild => some "Must have either none or two child nodes"
  | singleLeaf => some "Can not pop a contraction from a single leaf"
  | reservedName name statement =>
    some ("The name " ++ name.text ++
      " is reserved for the braiding tensor and can not be assigned to: " ++
      statement.text indent)
  | braidingLegs braidingName t =>
    some ("The name " ++ braidingName ++
      " is reserved for the braiding and should have two output and two input indices: " ++ t.text)
  | unresolvedSpaces strands statement =>
    some ("Can not determine the spaces of indices " ++
      Text.parenthesized (strands.map strandText) ++ " for the braiding tensors in " ++
      statement.text indent)
  | indexCycle map =>
    some ("Index map does not converge: " ++
      Text.braced (map.map fun entry => (entry.1.quotedText, entry.2.quotedText)))
  | notRemovable t => some ("Unable to remove braiding tensor " ++ t.text)
  | notContracted d =>
    some ("Unable to remove braiding tensor " ++ d.text indent ++
      ", it is not part of a contraction")
  | nothingRemains d =>
    some ("Unable to remove braiding tensors from " ++ d.text indent ++
      ", nothing would remain")
  | notBipartition => some "Not a planar bipartition"
  | lhsNotPlanar d => some ("Not a planar left hand side: " ++ d.text indent)
  | notPlanar d => some ("Not a planar diagram expression: " ++ d.text indent)
  | lineWidth => none
  | shapeMismatch data legs =>
    some ("Shape mismatch: data has " ++
      Text.parenthesized (data.map fun n => toString n) ++ ", legs have " ++
      Text.parenthesized (legs.map fun n => toString n))
  | legOutOfBounds position count =>
    some ("Leg " ++ toString position ++ " out of bounds for " ++ toString count ++ " legs")
  | mismatchingLegs first second =>
    some ("Mismatching legs: " ++ first.text ++ " and " ++ second.text)
  | notWithoutLegs legs => some ("Expected a tensor without legs. Got " ++ legs.text)
  | labelCount expected actual =>
    some ("Expected " ++ toString expected ++ " labels. Got " ++ toString actual)
  | labelRepeated label => some ("Label " ++ label.quotedText ++ " appears more than twice")
  | incompatibleLegs first second label =>
    some ("Incompatible legs " ++ first.longText ++ " and " ++ second.longText ++
      " for label " ++ label.quotedText)
  | outputLabels given free =>
    some ("Output labels " ++ Text.bracketed (given.map Index.quotedText) ++
      " do not match open labels " ++ Text.bracketed (free.map Index.quotedText))
  | negativeDimension => none
  | overflow => none
  | unknownBackend name => some ("Unknown backend: " ++ name)
  | backendType typeName =>
    some ("Invalid type for `name`. Expected ExecutionBackend or str. Got " ++ typeName)
  | arity wantedOut wantedIn actualOut actualIn name =>
    some ("incorrect number of output-input indices: (" ++ toString wantedOut ++ ", " ++
      toString wantedIn ++ ") instead of (" ++ toString actualOut ++ ", " ++
      toString actualIn ++ ") for " ++ name.text ++ ".")
  | missingObject name => some ("Missing object: " ++ name.text)
  | unknownObject object => some ("Unknown object: " ++ object.text)
  | scalarToTensor statement =>
    some ("Can not assign a scalar to a tensor: " ++ statement.text indent)
  | scalarPlusTensor => some "Can not add a scalar and a tensor"
  | conjugateTensor d =>
    some ("Conjugate of a tensor should be an adjoint: " ++ d.text indent)
  | unknownStatement d => some ("Unknown statement: " ++ d.text indent)
  | controlBlock kind => some ("Can not execute a " ++ kind ++ " block")
  | notTensor => none
  | missing => none
  | precondition => none

end Error

end TensorDiagram
