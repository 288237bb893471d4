import TensorDiagram.Proofs.LoweredRun
import TensorDiagram.Proofs.Nesting

/-!
# Bound programs

A program is a block of assignments.  Before any contraction is planned, conjugation is moved to
references, products are nested, and the objects are replaced by handles.  The result is a block of
assignments with normal right hand sides, whose objects are handles of objects or braidings
(`bound_spec`).

A plan is flat.  Running it is running the blocks that it was made from (`executeAll_flatten`), so a
compiled program is run part by part: objects are bound and checked, the assignments are done, and
objects are handed back.
-/

namespace TensorDiagram

/-! ## Runs of flat plans -/

namespace Machine

variable {R : Type} [Arithmetic R]

mutual
/-- Running the statements of a diagram without the blocks around them is running the diagram. -/
theorem executeAll_flatten (m : Machine R) (d : Diagram) :
    m.executeAll d.flatten = m.execute d := by
  cases d with
  | block statements =>
    rw [Diagram.flatten, execute]
    exact executeAll_flattenList m statements
  | sealed statements =>
    rw [Diagram.flatten, execute]
    exact executeAll_flattenList m statements
  | _ => simp only [Diagram.flatten, executeAll_singleton, execute, step]
/-- Running a list of diagrams without the blocks around them. -/
theorem executeAll_flattenList (m : Machine R) (ds : List Diagram) :
    m.executeAll (Diagram.flattenList ds) = m.executeAll ds := by
  cases ds with
  | nil => rw [Diagram.flattenList]
  | cons d ds =>
    rw [Diagram.flattenList, executeAll_append, executeAll_flatten m d]
    simp only [executeAll]
    rcases m.execute d with e | m'
    · rfl
    · exact executeAll_flattenList m' ds
end

end Machine

/-! ## Binding -/

/-- The handle of an object. -/
def IsBoundObject : ObjectRef → Prop
  | .handle h => h.kind = .object
  | .name _ => False

theorem IsBoundObject.isLasting {o : ObjectRef} (h : IsBoundObject o) : Diagram.IsLasting o := by
  cases o with
  | handle k =>
    intro hk
    have hobject : k.kind = .object := h
    rw [hobject] at hk
    cases hk
  | name text => exact h.elim

/-- What is found for an object is entered with its name. -/
theorem HandleTable.mem_of_handleFor? {table : HandleTable} {object : ObjectRef} {h : Handle}
    (hfound : table.handleFor? object = some h) :
    (h, some object) ∈ table.entries ∧ h.kind = .object := by
  obtain ⟨⟨name, k⟩, hfind, rfl⟩ := Option.map_eq_some_iff.mp hfound
  obtain rfl : name = object := by simpa using List.find?_some hfind
  obtain ⟨⟨k', name'⟩, hentry, hk⟩ := List.mem_filterMap.mp (List.mem_of_find?_eq_some hfind)
  cases name' with
  | none => cases hk
  | some name' =>
    dsimp only at hk
    split_ifs at hk with hkind
    obtain ⟨rfl, rfl⟩ := Prod.mk.inj (Option.some.inj hk)
    exact ⟨hentry, hkind⟩

/-- The handles of named objects are handles of objects. -/
theorem HandleTable.kind_handleFor (table : HandleTable) (object : ObjectRef) :
    (table.handleFor object).1.kind = .object := by
  rw [handleFor]
  rcases hfound : table.handleFor? object with _ | h
  · rfl
  · exact (mem_of_handleFor? hfound).2

theorem Binding.kind_of_mem_handleAll {objects : List ObjectRef} {table : HandleTable}
    {entry : ObjectRef × Handle} (h : entry ∈ (handleAll table objects).1) :
    entry.2.kind = .object := by
  induction objects generalizing table with
  | nil => cases h
  | cons object rest ih =>
    rw [handleAll] at h
    rcases List.mem_cons.mp h with rfl | h
    · exact table.kind_handleFor object
    · exact ih h

namespace ObjectUse

variable {braidingName : String} {u u' : ObjectUse}

theorem mem_enter {o o' : ObjectRef} {objects : List ObjectRef} : o' ∈ enter o objects ↔
    o' ∈ objects ∨ o' = o := by
  rw [enter]
  split_ifs with h
  · exact ⟨Or.inl, fun h' => h'.elim id fun heq => heq ▸ h⟩
  · rw [List.mem_append, List.mem_singleton]

/-- Reading one more reference.  A braiding can only be used, and nothing is entered for it.  Any
other object is entered.  It exists before if it is new and not defined here, and it is handed back
unless it is only used. -/
theorem read_cases {r : Reference} (h : u.read braidingName r = .ok u') :
    (r.term.object = .name braidingName ∧ r.role = .use ∧ u' = u) ∨
    (r.term.object ≠ .name braidingName ∧ u'.objects = enter r.term.object u.objects ∧
      (∀ o, o ∈ u'.existing ↔
        o ∈ u.existing ∨ (o = r.term.object ∧ r.term.object ∉ u.objects ∧ r.role ≠ .define)) ∧
      ∀ o, o ∈ u'.exported ↔ o ∈ u.exported ∨ (o = r.term.object ∧ r.role ≠ .use)) := by
  unfold read at h
  by_cases hbraiding : r.term.isBraiding braidingName = true
  · rw [if_pos hbraiding] at h
    split_ifs at h with huse
    exact Or.inl ⟨of_decide_eq_true hbraiding, huse, (Except.ok.inj h).symm⟩
  · rw [if_neg hbraiding] at h
    obtain rfl := Except.ok.inj h
    refine Or.inr ⟨fun heq => hbraiding (decide_eq_true heq), rfl, fun o => ?_, fun o => ?_⟩
    · dsimp only
      split_ifs with hnew
      · rw [mem_enter, and_iff_left hnew]
      · rw [or_iff_left fun h => hnew h.2]
    · dsimp only
      split_ifs with hrole
      · rw [mem_enter, and_iff_left hrole]
      · rw [or_iff_left fun h => hrole h.2]

/-- The name of braidings is not assigned to. -/
theorem not_isBraiding_of_foldlM {references : List Reference}
    (h : references.foldlM (read braidingName) u = .ok u') :
    ∀ r ∈ references, r.role ≠ .use → ¬ r.term.isBraiding braidingName = true := by
  induction references generalizing u with
  | nil => simp
  | cons r references ih =>
    rw [List.foldlM_cons] at h
    obtain ⟨u₁, hr, h⟩ := bind_eq_ok_iff.mp h
    refine List.forall_mem_cons.mpr ⟨fun hrole hbraiding => ?_, ih h⟩
    rcases read_cases hr with ⟨-, huse, -⟩ | ⟨hname, -⟩
    · exact hrole huse
    · exact hname (of_decide_eq_true hbraiding)

end ObjectUse

namespace Diagram

/-- How references are bound: braidings stay, and all other objects become handles. -/
structure BindsRefs (braidingName : String) (f : TensorRef → TensorRef) (d : Diagram) : Prop where
  /-- Braidings stay. -/
  braiding : ∀ t : TensorRef, t.isBraiding braidingName = true → f t = t
  /-- All other objects of the diagram become handles. -/
  object : ∀ t ∈ d.allRefs, ¬ t.isBraiding braidingName = true →
    ∃ h : Handle, h.kind = .object ∧ f t = t.withObject (.handle h)

/-- Binding succeeds if no braiding is written and all references are to objects that have been
met. -/
theorem bindNames_eq_ok_iff {options : Options} {checkArity : Bool} {table table' : HandleTable}
    {d : Diagram} {binding : Binding} :
    d.bindNames options checkArity table = .ok (binding, table') ↔
      ∃ use handles, d.references.foldlM (ObjectUse.read options.braidingName) ⟨[], [], []⟩ =
        .ok use ∧ Binding.handleAll table use.objects = (handles, table') ∧
        (∀ t ∈ d.allRefs, ¬ t.isBraiding options.braidingName = true →
          handles.has t.object = true) ∧
        binding =
          { objects := use.objects
            body := d.mapRefs (Binding.bindRef options.braidingName handles)
            prologue := handles.filterMap fun entry =>
              if entry.1 ∈ use.existing then some (.bind entry.2 entry.1) else none
            checks :=
              if checkArity then
                d.references.filterMap (Binding.arityCheck? options.braidingName use handles)
              else []
            epilogue := handles.filterMap fun entry =>
              if entry.1 ∈ use.exported then some (.exportAs entry.1 entry.2) else none } := by
  rw [bindNames, bind_eq_ok_iff]
  refine exists_congr fun use => ?_
  rcases hhandles : Binding.handleAll table use.objects with ⟨handles, table₁⟩
  have hall : (d.allRefs.all fun t => t.isBraiding options.braidingName || handles.has t.object) =
      true ↔ ∀ t ∈ d.allRefs, ¬ t.isBraiding options.braidingName = true →
      handles.has t.object = true := by
    simp only [List.all_eq_true, Bool.or_eq_true, or_iff_not_imp_left]
  rw [exists_and_left]
  refine and_congr_right fun _ => ?_
  dsimp only
  by_cases hbound :
    (d.allRefs.all fun t => t.isBraiding options.braidingName || handles.has t.object) = true
  · rw [if_neg (by simp [hbound])]
    constructor
    · intro h
      obtain ⟨rfl, rfl⟩ := Prod.mk.inj (Except.ok.inj h)
      exact ⟨handles, rfl, hall.mp hbound, rfl⟩
    · rintro ⟨_, heq, -, rfl⟩
      obtain ⟨rfl, rfl⟩ := Prod.mk.inj heq
      rfl
  · rw [if_pos (by simpa using hbound)]
    refine iff_of_false (by rintro ⟨⟩) ?_
    rintro ⟨_, heq, hbound', -⟩
    obtain ⟨rfl, rfl⟩ := Prod.mk.inj heq
    exact hbound (hall.mpr hbound')

/-- The parts of a bound diagram. -/
theorem bindNames_spec {options : Options} {checkArity : Bool}
    {table table' : HandleTable} {d : Diagram} {binding : Binding}
    (h : d.bindNames options checkArity table = .ok (binding, table')) :
    (∃ f, BindsRefs options.braidingName f d ∧ binding.body = d.mapRefs f) ∧
      (∀ r ∈ d.references, r.role ≠ .use → ¬ r.term.isBraiding options.braidingName = true) ∧
      ∀ s ∈ binding.epilogue, ∃ name handle, s = exportAs name handle ∧ handle.kind = .object := by
  obtain ⟨use, handles, huse, hhandles, hall, rfl⟩ := bindNames_eq_ok_iff.mp h
  have hkind : ∀ entry ∈ handles, entry.2.kind = .object := fun entry hentry =>
    Binding.kind_of_mem_handleAll (show entry ∈ (Binding.handleAll table use.objects).1 by
      rwa [hhandles])
  refine ⟨⟨_, ⟨fun t ht => by rw [Binding.bindRef, if_pos ht], fun t ht hbraiding => ?_⟩, rfl⟩,
    ObjectUse.not_isBraiding_of_foldlM huse, fun s hs => ?_⟩
  · obtain ⟨handle, hhandle⟩ := Option.isSome_iff_exists.mp (hall t ht hbraiding)
    refine ⟨handle, hkind _ (Table.mem_of_find?_eq_some hhandle), ?_⟩
    rw [Binding.bindRef, if_neg hbraiding, hhandle]
  · obtain ⟨entry, hentry, hs⟩ := List.mem_filterMap.mp hs
    split_ifs at hs
    exact ⟨entry.1, entry.2, (Option.some.inj hs).symm, hkind entry hentry⟩

/-! ## Replaced references -/

/-- The diagram with references replaced is normal. -/
theorem IsNormal.mapRefs {d : Diagram} (hd : d.IsNormal) (f : TensorRef → TensorRef) :
    (d.mapRefs f).IsNormal := by
  induction hd with
  | ref t => exact .ref _
  | scalar s => exact .scalar s
  | conj name => exact .conj name
  | @sum sign a rest ha hrest iha ihrest =>
    rw [Diagram.mapRefs, mapRefsTerms_eq]
    refine .sum iha fun p hp => ?_
    obtain ⟨q, hq, rfl⟩ := List.mem_map.mp hp
    exact ihrest q hq
  | pair ha hb iha ihb => exact .pair iha ihb

/-- The references of an expression are replaced one by one. -/
theorem tensors_mapRefs (f : TensorRef → TensorRef) (d : Diagram) :
    (d.mapRefs f).tensors = d.tensors.map f := by
  induction d with
  | conj a ih => exact ih
  | product a b rest iha ihb ih =>
    simp only [mapRefs, tensors, iha, ihb, mapRefsList_eq, listTensors_eq, List.map_append,
      List.map_flatMap, List.flatMap_map, List.flatMap_congr ih]
  | sum sign a rest iha ih =>
    simp only [mapRefs, tensors, iha, mapRefsTerms_eq, termTensors_eq, List.map_append,
      List.map_flatMap, List.flatMap_map, List.flatMap_congr ih]
  | _ => rfl

/-- Whether an expression has tensor indices does not depend on its references. -/
theorem isTensor_mapRefs (f : TensorRef → TensorRef) (d : Diagram) :
    (d.mapRefs f).isTensor = d.isTensor := by
  induction d with
  | conj a ih => exact ih
  | product a b rest iha ihb ih =>
    simp only [mapRefs, isTensor, iha, ihb, mapRefsList_eq, someTensor_eq, List.map_map,
      Function.comp_def, List.map_congr_left ih]
  | sum sign a rest iha ih =>
    simp only [mapRefs, isTensor, iha, mapRefsTerms_eq, allTensorTerms_eq, List.map_map,
      Function.comp_def, List.map_congr_left ih]
  | _ => rfl

/-- Whether an expression is a scalar does not depend on its references. -/
theorem isScalar_mapRefs (f : TensorRef → TensorRef) (d : Diagram) :
    (d.mapRefs f).isScalar = d.isScalar := by
  induction d with
  | conj a ih => exact ih
  | product a b rest iha ihb ih =>
    simp only [mapRefs, isScalar, iha, ihb, mapRefsList_eq, allScalar_eq, List.map_map,
      Function.comp_def, List.map_congr_left ih]
  | sum sign a rest iha ih =>
    simp only [mapRefs, isScalar, iha, mapRefsTerms_eq, allScalarTerms_eq, List.map_map,
      Function.comp_def, List.map_congr_left ih]
  | _ => rfl

/-- References can be replaced one after another. -/
theorem mapRefs_mapRefs (f f' : TensorRef → TensorRef) (d : Diagram) :
    (d.mapRefs f).mapRefs f' = d.mapRefs (f' ∘ f) := by
  induction d with
  | conj a ih => exact congrArg conj ih
  | product a b rest iha ihb ih =>
    simp only [mapRefs, iha, ihb, mapRefsList_eq, List.map_map]
    exact congrArg (product _ _) (List.map_congr_left ih)
  | sum sign a rest iha ih =>
    simp only [mapRefs, iha, mapRefsTerms_eq, List.map_map]
    exact congrArg (sum _ _) (List.map_congr_left fun p hp => congrArg (Prod.mk p.1) (ih p hp))
  | assign lhs rhs isDefinition ihl ihr => simp only [mapRefs, ihl, ihr]
  | block statements ih =>
    simp only [mapRefs, mapRefsList_eq, List.map_map]
    exact congrArg block (List.map_congr_left ih)
  | control kind body ih => exact congrArg (control kind) ih
  | _ => rfl

/-- Replacing every reference by itself changes nothing. -/
theorem mapRefs_id (d : Diagram) : d.mapRefs id = d := by
  induction d with
  | conj a ih => exact congrArg conj ih
  | product a b rest iha ihb ih =>
    rw [mapRefs, iha, ihb, mapRefsList_eq, List.map_congr_left ih, List.map_id']
  | sum sign a rest iha ih =>
    rw [mapRefs, iha, mapRefsTerms_eq,
      List.map_congr_left fun p hp => congrArg (Prod.mk p.1) (ih p hp), List.map_id']
  | assign lhs rhs isDefinition ihl ihr => rw [mapRefs, ihl, ihr]
  | block statements ih => rw [mapRefs, mapRefsList_eq, List.map_congr_left ih, List.map_id']
  | control kind body ih => exact congrArg (control kind) ih
  | _ => rfl

/-- Only the references of a diagram are replaced. -/
theorem mapRefs_congr {f g : TensorRef → TensorRef} {d : Diagram} (h : ∀ t ∈ d.allRefs, f t = g t) :
    d.mapRefs f = d.mapRefs g := by
  have hlist : ∀ ds : List Diagram, (∀ t ∈ allRefsList ds, f t = g t) →
      (∀ d ∈ ds, (∀ t ∈ d.allRefs, f t = g t) → d.mapRefs f = d.mapRefs g) →
      mapRefsList f ds = mapRefsList g ds := by
    intro ds h ih
    rw [allRefsList_eq, List.forall_mem_flatMap] at h
    rw [mapRefsList_eq, mapRefsList_eq, List.map_congr_left fun d hd => ih d hd (h d hd)]
  induction d with
  | ref t => exact congrArg ref (h t (List.mem_singleton_self t))
  | conj a ih => exact congrArg conj (ih h)
  | product a b rest iha ihb ih =>
    obtain ⟨hpair, hrest⟩ := List.forall_mem_append.mp h
    obtain ⟨ha, hb⟩ := List.forall_mem_append.mp hpair
    rw [mapRefs, mapRefs, iha ha, ihb hb, hlist rest hrest ih]
  | sum sign a rest iha ih =>
    obtain ⟨ha, hrest⟩ := List.forall_mem_append.mp h
    rw [allRefsTerms_eq, List.forall_mem_flatMap] at hrest
    rw [mapRefs, mapRefs, iha ha, mapRefsTerms_eq, mapRefsTerms_eq,
      List.map_congr_left fun p hp => congrArg (Prod.mk p.1) (ih p hp (hrest p hp))]
  | assign lhs rhs isDefinition ihl ihr =>
    obtain ⟨hlhs, hrhs⟩ := List.forall_mem_append.mp h
    rw [mapRefs, mapRefs, ihl hlhs, ihr hrhs]
  | block statements ih => exact congrArg block (hlist statements h ih)
  | control kind body ih => exact congrArg (control kind) (ih h)
  | _ => rfl

theorem mapIndices_id (d : Diagram) : d.mapIndices id = d := by
  have hid : TensorRef.mapIndices id = id := funext fun t => by simp [TensorRef.mapIndices]
  rw [mapIndices, hid, mapRefs_id]

/-- Indices can be replaced one after another. -/
theorem mapIndices_mapIndices (f f' : Index → Index) (d : Diagram) :
    (d.mapIndices f).mapIndices f' = d.mapIndices (f' ∘ f) := by
  rw [mapIndices, mapIndices, mapIndices, mapRefs_mapRefs]
  refine congrArg (mapRefs · d) (funext fun t => ?_)
  simp [TensorRef.mapIndices]

/-- All references of a formula can be replaced. -/
theorem IsFormula.allRefs_eq {d : Diagram} (hd : d.IsFormula) : d.allRefs = d.tensors := by
  induction hd with
  | ref t => rfl
  | scalar s => rfl
  | conj _ ih => exact ih
  | sum _ _ iha ihrest =>
    rw [allRefs, tensors, iha, allRefsTerms_eq, termTensors_eq, List.flatMap_congr ihrest]
  | product _ _ _ iha ihb ihrest =>
    rw [allRefs, tensors, iha, ihb, allRefsList_eq, listTensors_eq, List.flatMap_congr ihrest]

/-- All references of a normal expression can be replaced. -/
theorem IsNormal.allRefs_eq {d : Diagram} (hd : d.IsNormal) : d.allRefs = d.tensors := by
  induction hd with
  | ref t => rfl
  | scalar s => rfl
  | conj name => rfl
  | @sum sign a rest ha hrest iha ihrest =>
    rw [allRefs, tensors, iha, allRefsTerms_eq, termTensors_eq, List.flatMap_congr ihrest]
  | pair ha hb iha ihb => simp only [allRefs, tensors, allRefsList, listTensors, iha, ihb]

/-! ## Bound programs -/

/-- An assignment with sides of some sort. -/
inductive IsAssignment (Lhs Rhs : Diagram → Prop) : Diagram → Prop
  | mk {lhs rhs : Diagram} {isDefinition : Bool} (hlhs : Lhs lhs) (hrhs : Rhs rhs) :
      IsAssignment Lhs Rhs (assign lhs rhs isDefinition)

/-- How an assignment looks once it is bound. -/
inductive BoundAs (braidingName : String) (order : Option ContractionTree)
    (f : TensorRef → TensorRef) : Diagram → Diagram → Prop
  | mk {lhs rhs rhs' : Diagram} {isDefinition : Bool}
      (hlhs : ∀ t, lhs = ref t → ¬ t.isBraiding braidingName = true)
      (hrhs : (rhs.adjointForm false).nestProducts order = .ok rhs')
      (hbinds : BindsRefs braidingName f (assign lhs rhs' isDefinition)) :
      BoundAs braidingName order f (assign lhs rhs isDefinition)
        (assign (lhs.mapRefs f) (rhs'.mapRefs f) isDefinition)

/-- The parts of a bound program. -/
theorem bound_spec {options : Options} {order : Option ContractionOrder} {statements : List Diagram}
    {Lhs Rhs : Diagram → Prop} {binding : Binding} {table : HandleTable}
    (hstatements : ∀ s ∈ statements, s.IsAssignment Lhs Rhs)
    (h : Plan.bound options order (block statements) = .ok (binding, table)) :
    (∃ order' f body, binding.body = block body ∧
      List.Forall₂ (BoundAs options.braidingName order' f) statements body) ∧
      ∀ s ∈ binding.epilogue, ∃ name handle, s = exportAs name handle ∧ handle.kind = .object := by
  rw [Plan.bound] at h
  obtain ⟨d, hd, h⟩ := bind_eq_ok_iff.mp h
  obtain ⟨⟨f, hbinds, hbody⟩, hroles, hepilogue⟩ := bindNames_spec h
  refine ⟨?_, hepilogue⟩
  obtain ⟨order', hd⟩ : ∃ order', (block statements).pushConj.nestProducts order' = .ok d := by
    cases order with
    | none => exact ⟨none, hd⟩
    | some order =>
      rw [binarize] at hd
      obtain ⟨tree, -, hd⟩ := bind_eq_ok_iff.mp hd
      split_ifs at hd
      exact ⟨some tree, hd⟩
  obtain ⟨nested, rfl, hnested⟩ := forall₂_of_nestProducts_block hd
  refine ⟨order', f, nested.map (mapRefs f), by rw [hbody, Diagram.mapRefs, mapRefsList_eq], ?_⟩
  rw [List.forall₂_map_right_iff]
  -- every nested statement is one of the bound program, so it is enough to look at it alone
  suffices hall : ∀ xs ys : List Diagram, (∀ s ∈ xs, s.IsAssignment Lhs Rhs) →
    (∀ s ∈ ys, s ∈ nested) →
      List.Forall₂ (fun s s' => (s.adjointForm false).nestProducts order' = .ok s') xs ys →
      List.Forall₂ (fun s s' => BoundAs options.braidingName order' f s (s'.mapRefs f)) xs ys from
    hall _ _ hstatements (fun s hs => hs) hnested
  intro xs ys hxs hys hxy
  induction hxy with
  | nil => exact .nil
  | @cons s s' xs ys hs hrest ih =>
    obtain ⟨hs', hxs⟩ := List.forall_mem_cons.mp hxs
    obtain ⟨hmem, hys⟩ := List.forall_mem_cons.mp hys
    refine .cons ?_ (ih hxs hys)
    cases hs' with
    | @mk lhs rhs isDefinition hlhs hrhs =>
      obtain ⟨rhs', hrhs', rfl⟩ := nestProducts_assign_eq_ok_iff.mp hs
      refine .mk (fun t ht => ?_) hrhs' ⟨hbinds.braiding, fun t ht => hbinds.object t ?_⟩
      · subst ht
        refine hroles ⟨t, assignRole isDefinition, assign (ref t) rhs' isDefinition⟩ ?_
          (by cases isDefinition <;> simp [assignRole])
        rw [references, listReferences_eq]
        exact List.mem_flatMap.mpr ⟨_, hmem, by simp [references]⟩
      · rw [allRefs, allRefsList_eq]
        exact List.mem_flatMap.mpr ⟨_, hmem, ht⟩

end Diagram

end TensorDiagram
