import TensorDiagram.Diagram.Classify
import TensorDiagram.Order.Tree

/-!
# Binary products

Products of many factors are nested into products of two. By default they are contracted from left
to right. A contraction tree sets the order of all products that have exactly its leaves as tensors;
their scalars are multiplied in front.

Along a tree the factors are kept in a table by name. Contracting two of them takes both out and
enters the product under a name made of theirs, which may displace a factor that has this very name;
then a later contraction misses it.
-/

namespace TensorDiagram

/-- The name of a factor in a contraction tree. A reference to an adjoint is marked. -/
def TensorRef.factorName (t : TensorRef) : String :=
  t.object.text ++ if t.isAdjoint then "'" else ""

namespace Diagram

/-- The factors of a product, sorted into scalars and named tensors. -/
structure SortedFactors where
  /-- The scalar factors in order. -/
  scalars : List Diagram
  /-- The tensor factors by name. -/
  tensors : Table String Diagram

/-- Sort factors into scalars and named tensors. There is no result if a factor is neither a scalar
nor a general tensor, or if two tensors have one name. -/
def sortFactors? (sorted : SortedFactors) : List Diagram → Option SortedFactors
  | [] => some sorted
  | d :: rest =>
    if d.isScalar then sortFactors? { sorted with scalars := sorted.scalars ++ [d] } rest
    else
      match d.general? with
      | none => none
      | some g =>
        let name := g.term.factorName
        if sorted.tensors.has name then none
        else sortFactors? { sorted with tensors := sorted.tensors.put name d } rest

/-- Whether the tensors are exactly those at the leaves of the tree. -/
def namesMatch (tensors : Table String Diagram) (tree : ContractionTree) : Bool :=
  (tensors.keys.all fun name => some name ∈ tree.leaves) &&
    tree.leaves.all fun leaf => leaf ∈ tensors.keys.map some

/-- Take a factor out of the table. -/
def takeFactor (name : Option String) (tensors : Table String Diagram) :
    Except Error (Diagram × Table String Diagram) :=
  match tensors.find? (leafText name) with
  | some d => .ok (d, tensors.erase (leafText name))
  | none => .error .missing

/-- Perform the contractions of a tree, inner ones first and from left to right. The result is
entered in the table; its name is returned. -/
def contractAlong : ContractionTree → Table String Diagram →
    Except Error (Option String × Table String Diagram)
  | .leaf name, tensors => .ok (name, tensors)
  | .fuse left right, tensors => do
    let (a, tensors) ← contractAlong left tensors
    let (b, tensors) ← contractAlong right tensors
    let (x, tensors) ← takeFactor a tensors
    let (y, tensors) ← takeFactor b tensors
    let name := fusedName a b
    return (some name, tensors.put name (pair x y))

/-- The product of factors along a tree, or `none` if the factors do not match the tree. -/
def nestAlong? (factors : List Diagram) (tree : ContractionTree) :
    Except Error (Option Diagram) := do
  match sortFactors? ⟨[], []⟩ factors with
  | none => return none
  | some sorted =>
    if namesMatch sorted.tensors tree then
      let (name, tensors) ← contractAlong tree sorted.tensors
      let (result, _) ← takeFactor name tensors
      return some (sorted.scalars.foldr pair result)
    else return none

/-- The product of factors from left to right. -/
def nestLeft (first second : Diagram) (rest : List Diagram) : Diagram :=
  rest.foldl pair (pair first second)

/-- The nested product of factors, along the tree if there is one and they match it. -/
def nest (order : Option ContractionTree) (first second : Diagram) (rest : List Diagram) :
    Except Error Diagram := do
  match order with
  | none => return nestLeft first second rest
  | some tree =>
    match ← nestAlong? (first :: second :: rest) tree with
    | some d => return d
    | none => return nestLeft first second rest

mutual
/-- The diagram with all products nested, those inside first. Left hand sides and sealed regions
stay. -/
def nestProducts (order : Option ContractionTree) : Diagram → Except Error Diagram
  | product a b rest => do
    let a ← a.nestProducts order
    let b ← b.nestProducts order
    let rest ← nestProductsList order rest
    nest order a b rest
  | conj a => return conj (← a.nestProducts order)
  | sum sign a rest => do
    let a ← a.nestProducts order
    let rest ← nestProductsTerms order rest
    return sum sign a rest
  | assign lhs rhs isDefinition => return assign lhs (← rhs.nestProducts order) isDefinition
  | block statements => return block (← nestProductsList order statements)
  | control kind body => return control kind (← body.nestProducts order)
  | d => return d
/-- The diagrams of a list with all products nested. -/
def nestProductsList (order : Option ContractionTree) : List Diagram → Except Error (List Diagram)
  | [] => return []
  | d :: rest => do
    let d ← d.nestProducts order
    let rest ← nestProductsList order rest
    return d :: rest
/-- The terms of a sum with all products nested. -/
def nestProductsTerms (order : Option ContractionTree) :
    List (Sign × Diagram) → Except Error (List (Sign × Diagram))
  | [] => return []
  | (sign, d) :: rest => do
    let d ← d.nestProducts order
    let rest ← nestProductsTerms order rest
    return (sign, d) :: rest
end

/-- The diagram with all products nested into pairs. The leaves of a given order must be
distinct. -/
def binarize (order : Option ContractionOrder) (d : Diagram) : Except Error Diagram := do
  match order with
  | none => d.nestProducts none
  | some order =>
    let tree ← order.toTree
    if (duplicates [] tree.leaves).isEmpty then d.nestProducts (some tree)
    else throw (.repeatedLeaves tree.leaves)

end Diagram

end TensorDiagram
