import TensorDiagram.Proofs.DiagramInduction
import TensorDiagram.Proofs.Outcomes

/-!
# Other indices and names

A renaming replaces the indices of a diagram and the names of its objects by others, different ones
by different ones.  Handles and scalars stay.  It acts on all data of a compilation, also on the
diagrams that errors quote.

This file has the operations that look at the form of a diagram only.  They do not see a renaming,
as `isTensor_rename` says, or they commute with it: what an operation makes of a renamed diagram is
the renamed result, as in `tensors_rename` and `nestProducts_rename`.  For operations that may fail,
`Renaming.carry` renames the result or the error.
-/

namespace TensorDiagram

/-! ## Lists and tables -/

section

variable {α β γ δ : Type} [DecidableEq α] [DecidableEq β] {f : α → β} (hf : Function.Injective f)

include hf

/-- The distinct entries of a renamed list. -/
theorem distinct_map (xs : List α) : distinct (xs.map f) = (distinct xs).map f := by
  induction xs with
  | nil => rfl
  | cons x xs ih =>
    rw [List.map_cons, distinct, distinct, ih, List.map_cons, List.filter_map]
    simp only [Function.comp_def, ne_eq, hf.eq_iff]

/-- Looking up a renamed key. -/
theorem Table.find?_prodMap (g : γ → δ) (t : Table α γ) (key : α) :
    Table.find? (f key) (t.map (Prod.map f g)) = (t.find? key).map g := by
  induction t with
  | nil => rfl
  | cons entry rest ih =>
    obtain ⟨k, v⟩ := entry
    rw [List.map_cons, Prod.map_apply, find?, find?, ih]
    simp only [hf.eq_iff]
    split_ifs <;> rfl

/-- An entry for a renamed key. -/
theorem Table.put_prodMap (g : γ → δ) (t : Table α γ) (key : α) (value : γ) :
    Table.put (f key) (g value) (t.map (Prod.map f g)) = (t.put key value).map (Prod.map f g) := by
  induction t with
  | nil => rfl
  | cons entry rest ih =>
    obtain ⟨k, v⟩ := entry
    rw [List.map_cons, Prod.map_apply, put, put, ih]
    simp only [hf.eq_iff]
    split_ifs <;> rfl

end

/-! ## Renamings -/

/-- Other indices and other names for objects. -/
structure Renaming where
  /-- The new index. -/
  index : Index → Index
  /-- The new name of an object. -/
  name : String → String
  /-- Different indices stay different. -/
  index_injective : Function.Injective index
  /-- Different names stay different. -/
  name_injective : Function.Injective name

namespace Renaming

variable (r : Renaming)

/-- A renamed object.  Handles stay. -/
def object : ObjectRef → ObjectRef
  | .name text => .name (r.name text)
  | .handle h => .handle h

/-- Different objects stay different. -/
theorem object_injective : Function.Injective r.object := by
  rintro (a | h) (b | h') hab
  · rw [r.name_injective (ObjectRef.name.inj hab)]
  · cases hab
  · cases hab
  · rw [ObjectRef.handle.inj hab]

/-- Renamed objects are the same if the objects are. -/
@[simp] theorem object_inj {a b : ObjectRef} : r.object a = r.object b ↔ a = b :=
  r.object_injective.eq_iff

end Renaming

variable (r : Renaming)

/-! ## Data -/

/-- The reference with other indices and another name. -/
def TensorRef.rename (t : TensorRef) : TensorRef :=
  ⟨r.object t.object, t.left.map r.index, t.right.map r.index, t.isAdjoint⟩

/-- The space of a leg of a renamed object. -/
def LegSpace.rename (s : LegSpace) : LegSpace :=
  { s with object := r.object s.object }

namespace Diagram

mutual
/-- The diagram with other indices and names, also in sealed regions. -/
@[simp] def rename : Diagram → Diagram
  | ref t => ref (t.rename r)
  | scalar s => scalar s
  | conj a => conj a.rename
  | sum sign a rest => sum sign a.rename (renameTerms rest)
  | product a b rest => product a.rename b.rename (renameList rest)
  | assign lhs rhs isDefinition => assign lhs.rename rhs.rename isDefinition
  | block statements => block (renameList statements)
  | control kind body => control kind body.rename
  | sealed statements => sealed (renameList statements)
  | space s => space (s.rename r)
  | bind handle name => bind handle (r.object name)
  | checkArity handle name outputs inputs => checkArity handle (r.object name) outputs inputs
  | exportAs name handle => exportAs (r.object name) handle
  | braid handle first second => braid handle (first.rename r) (second.rename r)
/-- The diagrams of a list with other indices and names. -/
@[simp] def renameList : List Diagram → List Diagram
  | [] => []
  | d :: rest => d.rename :: renameList rest
/-- The terms of a sum with other indices and names. -/
@[simp] def renameTerms : List (Sign × Diagram) → List (Sign × Diagram)
  | [] => []
  | (sign, d) :: rest => (sign, d.rename) :: renameTerms rest
end

/-- A renamed list has the renamed diagrams. -/
@[simp] theorem renameList_eq (ds : List Diagram) : renameList r ds = ds.map (rename r) := by
  induction ds with
  | nil => rfl
  | cons d ds ih => rw [renameList, ih, List.map_cons]

/-- Renamed terms keep their signs. -/
@[simp] theorem renameTerms_eq (ps : List (Sign × Diagram)) :
    renameTerms r ps = ps.map fun p => (p.1, p.2.rename r) := by
  induction ps with
  | nil => rfl
  | cons p ps ih => rw [renameTerms, ih, List.map_cons]

end Diagram

/-- The table with other names for its objects. -/
def HandleTable.rename (s : HandleTable) : HandleTable :=
  ⟨s.entries.map fun entry => (entry.1, entry.2.map r.object)⟩

/-- The error about the renamed diagram.  The errors that do not stop a compilation are not about
one. -/
def Error.rename : Error → Error
  | notBinary d => notBinary (d.rename r)
  | notGeneralTensor d => notGeneralTensor (d.rename r)
  | unknownExpression d => unknownExpression (d.rename r)
  | reservedName name statement => reservedName (r.object name) (statement.rename r)
  | braidingLegs braidingName t => braidingLegs braidingName (t.rename r)
  | unresolvedSpaces strands statement =>
    unresolvedSpaces (strands.map (Prod.map r.index r.index)) (statement.rename r)
  | lhsNotPlanar d => lhsNotPlanar (d.rename r)
  | notPlanar d => notPlanar (d.rename r)
  | e => e

/-- Renaming keeps the kind of an error. -/
@[simp] theorem Error.kind_rename (e : Error) : (e.rename r).kind = e.kind := by
  cases e <;> rfl

namespace Renaming

variable {α β α' β' : Type}

/-- The outcome of the renamed computation, for values that are renamed by `φ`. -/
def carry (φ : α → β) : Except Error α → Except Error β
  | .ok a => .ok (φ a)
  | .error e => .error (e.rename r)

/-- A success is renamed by `φ`. -/
@[simp] theorem carry_ok (φ : α → β) (a : α) : r.carry φ (.ok a) = .ok (φ a) := rfl

/-- An error is renamed as such. -/
@[simp] theorem carry_error (φ : α → β) (e : Error) : r.carry φ (.error e) = .error (e.rename r) :=
  rfl

/-- Two steps commute with renaming if both do. -/
theorem carry_bind {φ : α → β} {ψ : α' → β'} (x : Except Error α) {k : α → Except Error α'}
    {k' : β → Except Error β'} (h : ∀ a, k' (φ a) = r.carry ψ (k a)) :
    r.carry φ x >>= k' = r.carry ψ (x >>= k) := by
  cases x with
  | error e => rfl
  | ok a => exact h a

/-- A list of steps commutes with renaming if each of them does. -/
theorem carry_mapM {φ : α → β} {ψ : α' → β'} {k : α → Except Error α'}
    {k' : β → Except Error β'} (xs : List α) (h : ∀ a ∈ xs, k' (φ a) = r.carry ψ (k a)) :
    (xs.map φ).mapM k' = r.carry (List.map ψ) (xs.mapM k) := by
  induction xs with
  | nil => rfl
  | cons x xs ih =>
    rw [List.map_cons, List.mapM_cons, List.mapM_cons, h x (List.mem_cons_self ..)]
    refine r.carry_bind (k x) fun y => ?_
    rw [ih fun a ha => h a (List.mem_cons_of_mem _ ha)]
    exact r.carry_bind (xs.mapM k) fun ys => rfl

end Renaming

/-! ## Handle tables -/

namespace HandleTable

variable (s : HandleTable)

/-- The handles of a renamed table. -/
@[simp] theorem handles_rename : (s.rename r).handles = s.handles := by
  rw [handles, handles, rename, List.map_map]
  rfl

/-- The next free handle of a renamed table. -/
@[simp] theorem next_rename (kind : HandleKind) : (s.rename r).next kind = s.next kind := by
  rw [next, next, handlesOf, handlesOf, handles_rename]

/-- A renamed object gets the same handle. -/
theorem create_rename (kind : HandleKind) (name : Option ObjectRef) :
    (s.rename r).create kind (name.map r.object) = Prod.map id (rename r) (s.create kind name) := by
  rw [create, create, next_rename]
  simp [rename]

end HandleTable

/-! ## References -/

namespace TensorRef

variable (t : TensorRef)

/-- The indices of a renamed reference. -/
@[simp] theorem indices_rename : (t.rename r).indices = t.indices.map r.index :=
  (List.map_append ..).symm

/-- The cyclic order of a renamed reference. -/
@[simp] theorem cyclicOrder_rename : (t.rename r).cyclicOrder = t.cyclicOrder.map r.index := by
  simp [cyclicOrder, rename]

/-- A renamed reference with its sides exchanged. -/
@[simp] theorem flipped_rename : (t.rename r).flipped = t.flipped.rename r := rfl

/-- Different references stay different. -/
theorem rename_injective : Function.Injective (rename r) := by
  intro t t' h
  obtain ⟨hobject, hleft, hright, hadjoint⟩ := TensorRef.mk.inj h
  cases t
  cases t'
  rw [TensorRef.mk.injEq]
  exact ⟨r.object_injective hobject, r.index_injective.list_map hleft,
    r.index_injective.list_map hright, hadjoint⟩

variable {r} {braidingName : String}

/-- Braidings stay braidings if their name does. -/
theorem isBraiding_rename (hbraiding : r.name braidingName = braidingName) :
    (t.rename r).isBraiding braidingName = t.isBraiding braidingName := by
  have hobject : r.object t.object = r.object (.name braidingName) ↔
    t.object = .name braidingName := r.object_inj
  rw [isBraiding, isBraiding, decide_eq_decide, ← hobject, Renaming.object, hbraiding]
  rfl

end TensorRef

namespace Diagram

/-! ## The form of expressions -/

/-- A renaming keeps whether an expression has tensor indices. -/
@[simp] theorem isTensor_rename (d : Diagram) : (d.rename r).isTensor = d.isTensor := by
  induction d with
  | conj a ih => exact ih
  | product a b rest iha ihb ih =>
    simp only [rename, isTensor, iha, ihb, renameList_eq, someTensor_eq, List.map_map,
      Function.comp_def, List.map_congr_left ih]
  | sum sign a rest iha ih =>
    simp only [rename, isTensor, iha, renameTerms_eq, allTensorTerms_eq, List.map_map,
      Function.comp_def, List.map_congr_left ih]
  | _ => rfl

/-- A renaming keeps whether an expression is a scalar. -/
@[simp] theorem isScalar_rename (d : Diagram) : (d.rename r).isScalar = d.isScalar := by
  induction d with
  | conj a ih => exact ih
  | product a b rest iha ihb ih =>
    simp only [rename, isScalar, iha, ihb, renameList_eq, allScalar_eq, List.map_map,
      Function.comp_def, List.map_congr_left ih]
  | sum sign a rest iha ih =>
    simp only [rename, isScalar, iha, renameTerms_eq, allScalarTerms_eq, List.map_map,
      Function.comp_def, List.map_congr_left ih]
  | _ => rfl

/-- The references of a renamed expression. -/
@[simp] theorem tensors_rename (d : Diagram) :
    (d.rename r).tensors = d.tensors.map (TensorRef.rename r) := by
  induction d with
  | conj a ih => exact ih
  | product a b rest iha ihb ih =>
    simp only [rename, tensors, iha, ihb, renameList_eq, listTensors_eq, List.map_append,
      List.map_flatMap, List.flatMap_map, List.flatMap_congr ih]
  | sum sign a rest iha ih =>
    simp only [rename, tensors, iha, renameTerms_eq, termTensors_eq, List.map_append,
      List.map_flatMap, List.flatMap_map, List.flatMap_congr ih]
  | _ => rfl

/-- All references of a renamed diagram. -/
@[simp] theorem allRefs_rename (d : Diagram) :
    (d.rename r).allRefs = d.allRefs.map (TensorRef.rename r) := by
  induction d with
  | conj a ih => exact ih
  | product a b rest iha ihb ih =>
    simp only [rename, allRefs, iha, ihb, renameList_eq, allRefsList_eq, List.map_append,
      List.map_flatMap, List.flatMap_map, List.flatMap_congr ih]
  | sum sign a rest iha ih =>
    simp only [rename, allRefs, iha, renameTerms_eq, allRefsTerms_eq, List.map_append,
      List.map_flatMap, List.flatMap_map, List.flatMap_congr ih]
  | assign lhs rhs isDefinition ihl ihr => rw [rename, allRefs, allRefs, ihl, ihr, List.map_append]
  | block statements ih =>
    simp only [rename, allRefs, renameList_eq, allRefsList_eq, List.map_flatMap, List.flatMap_map,
      List.flatMap_congr ih]
  | control kind body ih => exact ih
  | _ => rfl

end Diagram

/-! ## General tensors with other parts -/

section

variable {f : TensorRef → TensorRef} {h : Diagram → Diagram}

/-- The general tensor with another reference and other scalars. -/
def GeneralTensor.map (f : TensorRef → TensorRef) (h : Diagram → Diagram) (g : GeneralTensor) :
    GeneralTensor :=
  ⟨f g.term, g.scalars.map h⟩

namespace FactorParts

/-- The parts with other references and other scalars. -/
def map (f : TensorRef → TensorRef) (h : Diagram → Diagram) (x : FactorParts) : FactorParts :=
  ⟨x.terms.map f, x.scalars.map h⟩

/-- Other parts of two factors. -/
theorem map_append (x y : FactorParts) : (x.append y).map f h = (x.map f h).append (y.map f h) := by
  simp only [append, map, List.map_append]

/-- The single tensor among other parts. -/
theorem single?_map (x : FactorParts) :
    (x.map f h).single? = x.single?.map (GeneralTensor.map f h) := by
  obtain ⟨terms, scalars⟩ := x
  rcases terms with _ | ⟨t, _ | ⟨u, rest⟩⟩ <;> rfl

end FactorParts

namespace Diagram

/-- A factor with other parts. -/
theorem factorParts?_map {d : Diagram} (hscalar : (h d).isScalar = d.isScalar)
    (hgeneral : (h d).general? = d.general?.map (GeneralTensor.map f h)) :
    (h d).factorParts? (h d).general? = (d.factorParts? d.general?).map (FactorParts.map f h) := by
  rw [hgeneral]
  rcases d.general? with _ | g
  · rw [Option.map_none, factorParts?, factorParts?, hscalar]
    split_ifs <;> rfl
  · rfl

/-- Factors with other parts. -/
theorem generalFactors?_map {ds : List Diagram} (hds : ∀ d ∈ ds, (h d).isScalar = d.isScalar ∧
      (h d).general? = d.general?.map (GeneralTensor.map f h)) :
    generalFactors? (ds.map h) = (generalFactors? ds).map (FactorParts.map f h) := by
  induction ds with
  | nil => rfl
  | cons d ds ih =>
    obtain ⟨hd, hds⟩ := List.forall_mem_cons.mp hds
    rw [List.map_cons, generalFactors?, generalFactors?, factorParts?_map hd.1 hd.2, ih hds]
    rcases d.factorParts? d.general? with _ | x
    · rfl
    · rcases generalFactors? ds with _ | y
      · rfl
      · exact congrArg some (FactorParts.map_append x y).symm

/-- A product has the parts of all its factors. -/
theorem general?_product (a b : Diagram) (rest : List Diagram) :
    (product a b rest).general? = (generalFactors? (a :: b :: rest)).bind FactorParts.single? := by
  rw [general?, generalFactors?, generalFactors?]
  rcases a.factorParts? a.general? with _ | x
  · rfl
  rcases b.factorParts? b.general? with _ | y
  · rfl
  rcases generalFactors? rest with _ | z
  · rfl
  rfl

/-- If all factors of a product get other parts, then so does the product. -/
theorem general?_product_map {a b : Diagram} {rest : List Diagram}
    (hfactors : ∀ d ∈ a :: b :: rest, (h d).isScalar = d.isScalar ∧
      (h d).general? = d.general?.map (GeneralTensor.map f h)) :
    (product (h a) (h b) (rest.map h)).general? =
      (product a b rest).general?.map (GeneralTensor.map f h) := by
  rw [general?_product, general?_product, ← List.map_cons, ← List.map_cons,
    generalFactors?_map hfactors]
  rcases generalFactors? (a :: b :: rest) with _ | x
  · rfl
  · exact x.single?_map

end Diagram

end

/-- The general tensor with other indices and names. -/
abbrev GeneralTensor.rename : GeneralTensor → GeneralTensor :=
  map (TensorRef.rename r) (Diagram.rename r)

namespace Diagram

/-- A renamed expression as a general tensor. -/
@[simp] theorem general?_rename (d : Diagram) :
    (d.rename r).general? = d.general?.map (GeneralTensor.rename r) := by
  induction d with
  | conj a ih =>
    rw [rename, general?, general?, ih, Option.map_map, Option.map_map]
    exact congrArg (Option.map · _) (funext fun g => by
      simp [GeneralTensor.conj, GeneralTensor.map, rename])
  | product a b rest iha ihb ih =>
    rw [rename, renameList_eq]
    refine general?_product_map (List.forall_mem_cons.mpr ⟨⟨isScalar_rename r a, iha⟩,
      List.forall_mem_cons.mpr ⟨⟨isScalar_rename r b, ihb⟩, fun d hd => ?_⟩⟩)
    exact ⟨isScalar_rename r d, ih d hd⟩
  | _ => rfl

/-- The conjugates around a diagram are dropped before or after a renaming. -/
theorem withoutConj_rename (d : Diagram) : (d.rename r).withoutConj = d.withoutConj.rename r := by
  induction d with
  | conj a ih => exact ih
  | _ => rfl

/-- The general tensor of a renamed factor, if it is one. -/
theorem decompose_rename (d : Diagram) :
    (d.rename r).decompose = r.carry (GeneralTensor.rename r) d.decompose := by
  rw [decompose, decompose, general?_rename, withoutConj_rename]
  cases d.general? <;> rfl

/-! ## Replacing references -/

section

variable {r} {f f' : TensorRef → TensorRef}

/-- References are replaced before or after a renaming. -/
theorem mapRefs_rename (h : ∀ t, f' (t.rename r) = (f t).rename r) (d : Diagram) :
    (d.rename r).mapRefs f' = (d.mapRefs f).rename r := by
  induction d with
  | ref t => exact congrArg ref (h t)
  | conj a ih => exact congrArg conj ih
  | product a b rest iha ihb ih =>
    simp only [rename, mapRefs, iha, ihb, renameList_eq, mapRefsList_eq, List.map_map]
    exact congrArg (product _ _) (List.map_congr_left ih)
  | sum sign a rest iha ih =>
    simp only [rename, mapRefs, iha, renameTerms_eq, mapRefsTerms_eq, List.map_map]
    exact congrArg (sum _ _) (List.map_congr_left fun p hp => congrArg (Prod.mk p.1) (ih p hp))
  | assign lhs rhs isDefinition ihl ihr => simp only [rename, mapRefs, ihl, ihr]
  | block statements ih =>
    simp only [rename, mapRefs, renameList_eq, mapRefsList_eq, List.map_map]
    exact congrArg block (List.map_congr_left ih)
  | control kind body ih => exact congrArg (control kind) ih
  | _ => rfl

end

/-! ## Normal forms -/

/-- Conjugation is moved to references before or after a renaming. -/
theorem adjointForm_rename (odd : Bool) (d : Diagram) :
    (d.rename r).adjointForm odd = (d.adjointForm odd).rename r := by
  induction d generalizing odd with
  | scalar s => cases s <;> cases odd <;> rfl
  | conj a ih => rw [rename, adjointForm, adjointForm, ih]
  | product a b rest iha ihb ih =>
    simp only [rename, adjointForm, iha, ihb, renameList_eq, adjointFormList_eq, List.map_map]
    exact congrArg (product _ _) (List.map_congr_left fun d hd => ih d hd odd)
  | sum sign a rest iha ih =>
    simp only [rename, adjointForm, iha, renameTerms_eq, adjointFormTerms_eq, List.map_map]
    exact congrArg (sum _ _) (List.map_congr_left fun p hp => congrArg (Prod.mk p.1) (ih p hp odd))
  | assign lhs rhs isDefinition ihl ihr =>
    rw [rename, adjointForm, adjointForm, ihr]
    cases odd <;> rfl
  | block statements ih =>
    have hlist : (renameList r statements).map (adjointForm false) =
        renameList r (statements.map (adjointForm false)) := by
      rw [renameList_eq, renameList_eq, List.map_map, List.map_map]
      exact List.map_congr_left fun d hd => ih d hd false
    rw [rename, adjointForm, adjointForm, adjointFormList_eq, adjointFormList_eq, hlist]
    cases odd <;> rfl
  | control kind body ih =>
    rw [rename, adjointForm, adjointForm, ih]
    cases odd <;> rfl
  | _ => cases odd <;> rfl

/-- Renamed factors, nested from left to right. -/
theorem nestLeft_rename (a b : Diagram) (rest : List Diagram) :
    nestLeft (a.rename r) (b.rename r) (renameList r rest) = (nestLeft a b rest).rename r := by
  have hfold : ∀ d : Diagram, (renameList r rest).foldl pair (d.rename r) =
      (rest.foldl pair d).rename r := by
    induction rest with
    | nil => exact fun _ => rfl
    | cons x rest ih => exact fun d => ih (pair d x)
  exact hfold (pair a b)

/-- Products are nested before or after a renaming. -/
theorem nestProducts_rename (d : Diagram) :
    (d.rename r).nestProducts none = r.carry (rename r) (d.nestProducts none) := by
  have hlist : ∀ ds : List Diagram,
      (∀ d ∈ ds, (d.rename r).nestProducts none = r.carry (rename r) (d.nestProducts none)) →
      nestProductsList none (renameList r ds) =
        r.carry (renameList r) (nestProductsList none ds) := by
    intro ds hds
    rw [renameList_eq, nestProductsList_eq, nestProductsList_eq, r.carry_mapM ds hds,
      funext (renameList_eq r)]
  induction d with
  | product a b rest iha ihb ih =>
    rw [rename, nestProducts, nestProducts, iha]
    refine r.carry_bind _ fun a => ?_
    rw [ihb]
    refine r.carry_bind _ fun b => ?_
    rw [hlist rest ih]
    exact r.carry_bind _ fun rest => congrArg Except.ok (nestLeft_rename r a b rest)
  | conj a ih =>
    rw [rename, nestProducts, nestProducts, ih]
    exact r.carry_bind _ fun a => rfl
  | sum sign a rest iha ih =>
    have hterms : nestProductsTerms none (renameTerms r rest) =
        r.carry (renameTerms r) (nestProductsTerms none rest) := by
      rw [renameTerms_eq, nestProductsTerms_eq, nestProductsTerms_eq, funext (renameTerms_eq r)]
      refine r.carry_mapM rest fun p hp => ?_
      rw [ih p hp]
      exact r.carry_bind _ fun d => rfl
    rw [rename, nestProducts, nestProducts, iha]
    refine r.carry_bind _ fun a => ?_
    rw [hterms]
    exact r.carry_bind _ fun rest => rfl
  | assign lhs rhs isDefinition ihl ihr =>
    rw [rename, nestProducts, nestProducts, ihr]
    exact r.carry_bind _ fun rhs => rfl
  | block statements ih =>
    rw [rename, nestProducts, nestProducts, hlist statements ih]
    exact r.carry_bind _ fun statements => rfl
  | control kind body ih =>
    rw [rename, nestProducts, nestProducts, ih]
    exact r.carry_bind _ fun body => rfl
  | _ => rfl

/-! ## Statements -/

/-- The statements of a renamed diagram. -/
theorem flatten_rename (d : Diagram) : (d.rename r).flatten = d.flatten.map (rename r) := by
  induction d with
  | block statements ih | sealed statements ih =>
    simp only [rename, flatten, flattenList_eq, renameList_eq, List.map_flatMap, List.flatMap_map,
      List.flatMap_congr ih]
  | control kind body ih =>
    rw [rename, flatten, flatten, ih, List.map_singleton, rename, rename, renameList_eq]
  | _ => rfl

end Diagram

end TensorDiagram
