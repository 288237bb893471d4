import TensorDiagram.Diagram.Classify
import TensorDiagram.Diagram.Map
import TensorDiagram.Options
import TensorDiagram.HandleTable

/-!
# Binding objects

The objects of a diagram are replaced by handles. An object that is used before it is defined, or
without being defined, exists already: it is bound to its handle at the start, and every reference
to it can be checked for the right number of legs. Objects that are defined or assigned to are
handed back at the end.

The references are read in the order of evaluation, in which the right hand side of an assignment
comes before the left hand side. Braidings are not bound.
-/

namespace TensorDiagram

/-- The part that a reference plays. -/
inductive Role where
  /-- The object is read. -/
  | use
  /-- The object is defined. -/
  | define
  /-- The object is assigned to. -/
  | assign
deriving DecidableEq, Repr

/-- A reference with the part it plays in a statement. -/
structure Reference where
  /-- The reference. -/
  term : TensorRef
  /-- Its part. -/
  role : Role
  /-- The statement. -/
  statement : Diagram

namespace Diagram

/-- The references of an expression as uses in a statement. -/
def uses (d statement : Diagram) : List Reference :=
  d.tensors.map fun t => ⟨t, .use, statement⟩

/-- What an assignment does to its left hand side. -/
def assignRole (isDefinition : Bool) : Role :=
  if isDefinition then .define else .assign

mutual
/-- All references outside sealed regions, in order of evaluation. Of a left hand side only a plain
reference counts. -/
def references : Diagram → List Reference
  | sealed _ => []
  | assign lhs rhs isDefinition =>
    let statement := assign lhs rhs isDefinition
    rhs.uses statement ++
      match lhs with
      | ref t => [⟨t, assignRole isDefinition, statement⟩]
      | _ => []
  | block statements => listReferences statements
  | control _ body => body.references
  | d => d.uses d
/-- The references of a list of statements. -/
def listReferences : List Diagram → List Reference
  | [] => []
  | d :: rest => d.references ++ listReferences rest
end

end Diagram

/-- What the references read so far tell about the objects. -/
structure ObjectUse where
  /-- The objects in order of first appearance. -/
  objects : List ObjectRef
  /-- Those that exist already. -/
  existing : List ObjectRef
  /-- Those that are defined or assigned to. -/
  exported : List ObjectRef

namespace ObjectUse

/-- An object entered in a list, unless it is there already. -/
def enter (object : ObjectRef) (objects : List ObjectRef) : List ObjectRef :=
  if object ∈ objects then objects else objects ++ [object]

/-- Read one more reference. -/
def read (braidingName : String) (u : ObjectUse) (r : Reference) : Except Error ObjectUse :=
  if r.term.isBraiding braidingName then
    if r.role = .use then .ok u else .error (.reservedName r.term.object r.statement)
  else
    let object := r.term.object
    let isNew := object ∉ u.objects
    .ok
      { objects := enter object u.objects
        existing := if isNew ∧ r.role ≠ .define then enter object u.existing else u.existing
        exported := if r.role ≠ .use then enter object u.exported else u.exported }

end ObjectUse

/-- A diagram with its objects bound. -/
structure Binding where
  /-- The objects in order of first appearance. -/
  objects : List ObjectRef
  /-- The diagram with handles in the place of objects. -/
  body : Diagram
  /-- The statements that bind the objects that exist already. -/
  prologue : List Diagram
  /-- The statements that check their numbers of legs. -/
  checks : List Diagram
  /-- The statements that hand back new and assigned objects. -/
  epilogue : List Diagram

namespace Binding

/-- The binding as one block. -/
def toBlock (b : Binding) : Diagram :=
  .block [.sealed b.prologue, .sealed b.checks, b.body, .sealed b.epilogue]

/-- The handles of objects, in order. -/
def handleAll (table : HandleTable) : List ObjectRef → Table ObjectRef Handle × HandleTable
  | [] => ([], table)
  | object :: rest =>
    let (handle, table) := table.handleFor object
    let (handles, table) := handleAll table rest
    ((object, handle) :: handles, table)

/-- A reference with a handle in the place of its object. -/
def bindRef (braidingName : String) (handles : Table ObjectRef Handle) (t : TensorRef) :
    TensorRef :=
  if t.isBraiding braidingName then t
  else
    match handles.find? t.object with
    | some handle => t.withObject (.handle handle)
    | none => t

/-- The check for a reference to an object that exists already. The lists of a reference to an
adjoint are exchanged. -/
def arityCheck? (braidingName : String) (use : ObjectUse) (handles : Table ObjectRef Handle)
    (r : Reference) : Option Diagram :=
  if r.term.isBraiding braidingName ∨ r.term.object ∉ use.existing ∨ r.role = .define then none
  else
    let t := if r.term.isAdjoint then r.term.flipped else r.term
    (handles.find? t.object).map fun handle =>
      .checkArity handle t.object t.left.length t.right.length

end Binding

namespace Diagram

/-- Bind the objects of a diagram. It is an error if a tensor stands on a left hand side that is not
a plain reference and is not referred to elsewhere. -/
def bindNames (options : Options) (checkArity : Bool) (table : HandleTable) (d : Diagram) :
    Except Error (Binding × HandleTable) := do
  let references := d.references
  let use ← references.foldlM (ObjectUse.read options.braidingName) ⟨[], [], []⟩
  let (handles, table) := Binding.handleAll table use.objects
  let bound (t : TensorRef) : Bool :=
    t.isBraiding options.braidingName || handles.has t.object
  if !d.allRefs.all bound then throw .missing
  let binding : Binding :=
    { objects := use.objects
      body := d.mapRefs (Binding.bindRef options.braidingName handles)
      prologue := handles.filterMap fun entry =>
        if entry.1 ∈ use.existing then some (.bind entry.2 entry.1) else none
      checks :=
        if checkArity then
          references.filterMap (Binding.arityCheck? options.braidingName use handles)
        else []
      epilogue := handles.filterMap fun entry =>
        if entry.1 ∈ use.exported then some (.exportAs entry.1 entry.2) else none }
  return (binding, table)

end Diagram

end TensorDiagram
