import TensorDiagram.Diagram.Basic

/-!
# Replacing references

Every reference to a tensor in a statement tree can be replaced: on both sides of assignments, in
blocks and in the bodies of control constructs, but not in sealed regions.
-/

namespace TensorDiagram.Diagram

mutual
/-- The diagram with every reference outside sealed regions replaced. -/
def mapRefs (f : TensorRef → TensorRef) : Diagram → Diagram
  | ref t => ref (f t)
  | conj a => conj (a.mapRefs f)
  | product a b rest => product (a.mapRefs f) (b.mapRefs f) (mapRefsList f rest)
  | sum sign a rest => sum sign (a.mapRefs f) (mapRefsTerms f rest)
  | assign lhs rhs isDefinition => assign (lhs.mapRefs f) (rhs.mapRefs f) isDefinition
  | block statements => block (mapRefsList f statements)
  | control kind body => control kind (body.mapRefs f)
  | d => d
/-- The diagrams of a list with every reference replaced. -/
def mapRefsList (f : TensorRef → TensorRef) : List Diagram → List Diagram
  | [] => []
  | d :: rest => d.mapRefs f :: mapRefsList f rest
/-- The terms of a sum with every reference replaced. -/
def mapRefsTerms (f : TensorRef → TensorRef) : List (Sign × Diagram) → List (Sign × Diagram)
  | [] => []
  | (sign, d) :: rest => (sign, d.mapRefs f) :: mapRefsTerms f rest
end

/-- The diagram with every index outside sealed regions replaced. -/
def mapIndices (f : Index → Index) (d : Diagram) : Diagram :=
  d.mapRefs (TensorRef.mapIndices f)

/-- The diagram with every object outside sealed regions replaced. -/
def mapObjects (f : ObjectRef → ObjectRef) (d : Diagram) : Diagram :=
  d.mapRefs fun t => t.withObject (f t.object)

mutual
/-- The references that `mapRefs` replaces, in order of appearance. -/
def allRefs : Diagram → List TensorRef
  | ref t => [t]
  | conj a => a.allRefs
  | product a b rest => a.allRefs ++ b.allRefs ++ allRefsList rest
  | sum _ a rest => a.allRefs ++ allRefsTerms rest
  | assign lhs rhs _ => lhs.allRefs ++ rhs.allRefs
  | block statements => allRefsList statements
  | control _ body => body.allRefs
  | _ => []
/-- The references in a list of diagrams. -/
def allRefsList : List Diagram → List TensorRef
  | [] => []
  | d :: rest => d.allRefs ++ allRefsList rest
/-- The references in the terms of a sum. -/
def allRefsTerms : List (Sign × Diagram) → List TensorRef
  | [] => []
  | (_, d) :: rest => d.allRefs ++ allRefsTerms rest
end

end TensorDiagram.Diagram
