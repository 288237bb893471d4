import Mathlib.Data.List.Basic
import TensorDiagram.Plan.Compile

/-!
# Induction over diagrams

A diagram has lists of other diagrams in it, and so a function on diagrams comes with functions on
lists.  These are `map`, `flatMap` and the like of the function itself, as the equations here say.
With them a statement about all diagrams is shown by `Diagram.induction`, where the hypothesis holds
for every entry of a list.
-/

namespace TensorDiagram.Diagram

/-- Induction over diagrams, with a hypothesis for every entry of a list. -/
@[induction_eliminator]
theorem induction {motive : Diagram → Prop} (ref : ∀ t, motive (.ref t))
    (scalar : ∀ s, motive (.scalar s)) (conj : ∀ a, motive a → motive (.conj a))
    (sum : ∀ sign a rest, motive a → (∀ p ∈ rest, motive p.2) → motive (.sum sign a rest))
    (product : ∀ a b rest, motive a → motive b → (∀ d ∈ rest, motive d) →
      motive (.product a b rest))
    (assign : ∀ lhs rhs isDefinition, motive lhs → motive rhs →
      motive (.assign lhs rhs isDefinition))
    (block : ∀ statements, (∀ d ∈ statements, motive d) → motive (.block statements))
    (control : ∀ kind body, motive body → motive (.control kind body))
    (sealed : ∀ statements, (∀ d ∈ statements, motive d) → motive (.sealed statements))
    (space : ∀ s, motive (.space s)) (bind : ∀ handle name, motive (.bind handle name))
    (checkArity : ∀ handle name outputs inputs, motive (.checkArity handle name outputs inputs))
    (exportAs : ∀ name handle, motive (.exportAs name handle))
    (braid : ∀ handle first second, motive (.braid handle first second)) (d : Diagram) : motive d :=
  @Diagram.rec motive (fun ps => ∀ p ∈ ps, motive p.2) (fun ds => ∀ d ∈ ds, motive d)
    (fun p => motive p.2) ref scalar conj sum product assign block control sealed space bind
    checkArity exportAs braid (by simp) (fun _ _ hp hps => List.forall_mem_cons.mpr ⟨hp, hps⟩)
    (by simp) (fun _ _ hd hds => List.forall_mem_cons.mpr ⟨hd, hds⟩) (fun _ _ hd => hd) d

/-! ## Functions on lists -/

section Lists

variable (ds : List Diagram) (ps : List (Sign × Diagram))

theorem someTensor_eq : someTensor ds = (ds.map isTensor).or := by
  induction ds with
  | nil => rfl
  | cons d ds ih => rw [someTensor, ih, List.map_cons, List.or_cons]

theorem allTensorTerms_eq : allTensorTerms ps = (ps.map fun p => p.2.isTensor).and := by
  induction ps with
  | nil => rfl
  | cons p ps ih => rw [allTensorTerms, ih, List.map_cons, List.and_cons]

theorem allScalar_eq : allScalar ds = (ds.map isScalar).and := by
  induction ds with
  | nil => rfl
  | cons d ds ih => rw [allScalar, ih, List.map_cons, List.and_cons]

theorem allScalarTerms_eq : allScalarTerms ps = (ps.map fun p => p.2.isScalar).and := by
  induction ps with
  | nil => rfl
  | cons p ps ih => rw [allScalarTerms, ih, List.map_cons, List.and_cons]

theorem listTensors_eq : listTensors ds = ds.flatMap tensors := by
  induction ds with
  | nil => rfl
  | cons d ds ih => rw [listTensors, ih, List.flatMap_cons]

theorem termTensors_eq : termTensors ps = ps.flatMap fun p => p.2.tensors := by
  induction ps with
  | nil => rfl
  | cons p ps ih => rw [termTensors, ih, List.flatMap_cons]

theorem allRefsList_eq : allRefsList ds = ds.flatMap allRefs := by
  induction ds with
  | nil => rfl
  | cons d ds ih => rw [allRefsList, ih, List.flatMap_cons]

theorem allRefsTerms_eq : allRefsTerms ps = ps.flatMap fun p => p.2.allRefs := by
  induction ps with
  | nil => rfl
  | cons p ps ih => rw [allRefsTerms, ih, List.flatMap_cons]

theorem listReferences_eq : listReferences ds = ds.flatMap references := by
  induction ds with
  | nil => rfl
  | cons d ds ih => rw [listReferences, ih, List.flatMap_cons]

theorem flattenList_eq : flattenList ds = ds.flatMap flatten := by
  induction ds with
  | nil => rfl
  | cons d ds ih => rw [flattenList, ih, List.flatMap_cons]

theorem mapRefsList_eq (f : TensorRef → TensorRef) : mapRefsList f ds = ds.map (mapRefs f) := by
  induction ds with
  | nil => rfl
  | cons d ds ih => rw [mapRefsList, ih, List.map_cons]

theorem mapRefsTerms_eq (f : TensorRef → TensorRef) :
    mapRefsTerms f ps = ps.map fun p => (p.1, p.2.mapRefs f) := by
  induction ps with
  | nil => rfl
  | cons p ps ih => rw [mapRefsTerms, ih, List.map_cons]

theorem adjointFormList_eq (odd : Bool) : adjointFormList odd ds = ds.map (adjointForm odd) := by
  induction ds with
  | nil => rfl
  | cons d ds ih => rw [adjointFormList, ih, List.map_cons]

theorem adjointFormTerms_eq (odd : Bool) :
    adjointFormTerms odd ps = ps.map fun p => (p.1, p.2.adjointForm odd) := by
  induction ps with
  | nil => rfl
  | cons p ps ih => rw [adjointFormTerms, ih, List.map_cons]

theorem nestProductsList_eq (order : Option ContractionTree) :
    nestProductsList order ds = ds.mapM (nestProducts order) := by
  induction ds with
  | nil => rfl
  | cons d ds ih => rw [nestProductsList, ih, List.mapM_cons]

theorem nestProductsTerms_eq (order : Option ContractionTree) :
    nestProductsTerms order ps =
      ps.mapM fun p => p.2.nestProducts order >>= fun d => .ok (p.1, d) := by
  induction ps with
  | nil => rfl
  | cons p ps ih =>
    obtain ⟨sign, d⟩ := p
    rw [nestProductsTerms, ih, List.mapM_cons]
    rcases d.nestProducts order with e | d' <;> rfl

end Lists

/-- A product has the references of its factors. -/
theorem tensors_product (a b : Diagram) (rest : List Diagram) :
    (product a b rest).tensors = (a :: b :: rest).flatMap tensors := by
  rw [tensors, listTensors_eq, List.flatMap_cons, List.flatMap_cons, List.append_assoc]

end TensorDiagram.Diagram
