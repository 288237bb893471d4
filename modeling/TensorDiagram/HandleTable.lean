import TensorDiagram.Object
import TensorDiagram.Text.Listing

/-!
# Handle tables

The handles of one compilation, in the order in which they were created, each with the name it
stands for if it has one. A new handle gets as its number the count of the handles of its kind, so
that two compilations of one diagram create the same handles.
-/

namespace TensorDiagram

/-- The handles of one compilation. -/
structure HandleTable where
  /-- All handles in order of creation, with their names. -/
  entries : List (Handle × Option ObjectRef) := []
deriving DecidableEq, Repr

namespace HandleTable

/-- The table without any handle. -/
def empty : HandleTable := {}

/-- All handles in order of creation. -/
def handles (s : HandleTable) : List Handle :=
  s.entries.map Prod.fst

/-- The handles of one kind in order of creation. -/
def handlesOf (s : HandleTable) (kind : HandleKind) : List Handle :=
  s.handles.filter (·.kind = kind)

/-- The handles of intermediate results. -/
def temporaries (s : HandleTable) : List Handle :=
  s.handlesOf .temporary

/-- The number of handles. -/
def size (s : HandleTable) : Nat :=
  s.entries.length

/-- The next handle of a kind. -/
def next (s : HandleTable) (kind : HandleKind) : Handle :=
  ⟨kind, (s.handlesOf kind).length⟩

/-- The table with one more handle. -/
def create (s : HandleTable) (kind : HandleKind) (name : Option ObjectRef) :
    Handle × HandleTable :=
  (s.next kind, ⟨s.entries ++ [(s.next kind, name)]⟩)

/-- The named objects with their handles, in order of creation. -/
def namedObjects (s : HandleTable) : List (ObjectRef × Handle) :=
  s.entries.filterMap fun entry =>
    match entry with
    | (h, some name) => if h.kind = .object then some (name, h) else none
    | (_, none) => none

/-- The handle of a named object, if it has one. -/
def handleFor? (s : HandleTable) (name : ObjectRef) : Option Handle :=
  (s.namedObjects.find? (·.1 = name)).map Prod.snd

/-- The handle of a named object. It is created when the name is met for the first time. -/
def handleFor (s : HandleTable) (name : ObjectRef) : Handle × HandleTable :=
  match s.handleFor? name with
  | some h => (h, s)
  | none => s.create .object (some name)

/-- A new intermediate result. -/
def freshTemporary (s : HandleTable) : Handle × HandleTable :=
  s.create .temporary none

/-- A new braiding tensor. -/
def freshBraiding (s : HandleTable) : Handle × HandleTable :=
  s.create .braiding none

/-- The name that the table has for a handle. -/
def nameOf? (s : HandleTable) (h : Handle) : Option ObjectRef :=
  (s.entries.find? (·.1 = h)).bind Prod.snd

/-- The name by which an object is shown: the name of a handle, if it has one, else its text. -/
def displayName (s : HandleTable) : ObjectRef → ObjectRef
  | .name text => .name text
  | .handle h => (s.nameOf? h).getD (.name h.text)

/-- The table on one line. -/
def text (s : HandleTable) : String :=
  let entryText (entry : Handle × Option ObjectRef) : String :=
    entry.1.text ++ "=" ++ (entry.2.map ObjectRef.text).getD "None"
  "SymbolTable(" ++ Text.commas (s.entries.map entryText) ++ ")"

end HandleTable

end TensorDiagram
