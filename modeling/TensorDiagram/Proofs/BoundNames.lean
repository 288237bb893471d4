import TensorDiagram.Proofs.EvaluationOrder
import TensorDiagram.Proofs.NamedRuns

/-!
# Names of bound objects

Every handle of an object remembers the name that it was created for, also in a table that was used
before (`Binding.displayName_of_mem_handleAll`).  So binding can be undone: with the names in the
place of the handles, the bound tree is the tree that was written.  In particular different objects
have different handles.

The objects are entered in the order in which they are evaluated first (`ObjectUse.objects_eq`).
Those that exist before are those that are not defined by their first reference, and those that are
handed back stand on a left hand side.
-/

namespace TensorDiagram

variable {o : ObjectRef} {table : HandleTable} {handle : Handle} {t : TensorRef}

/-! ## Handles and their names -/

namespace HandleTable

/-- The tables that are reached by asking for handles of objects, temporaries and braidings. -/
inductive IsReached : HandleTable → Prop
  | empty : IsReached .empty
  | object {table : HandleTable} (h : table.IsReached) (name : ObjectRef) :
      IsReached (table.handleFor name).2
  | temporary {table : HandleTable} (h : table.IsReached) : IsReached table.freshTemporary.2
  | braiding {table : HandleTable} (h : table.IsReached) : IsReached table.freshBraiding.2

theorem IsReached.isNumbered (h : table.IsReached) : table.IsNumbered := by
  induction h with
  | empty => exact isNumbered_empty
  | @object table _ name ih =>
    obtain ⟨hs, hgrows, -⟩ := table.exists_grows_handleFor name
    exact ih.grow hgrows
  | temporary _ ih => exact ih.grow ((Grows.refl _).create .temporary none)
  | braiding _ ih => exact ih.grow ((Grows.refl _).create .braiding none)

theorem Grows.entries_subset {table' : HandleTable} {hs : List Handle} (h : table.Grows hs table') :
    table.entries ⊆ table'.entries := by
  induction h with
  | refl => exact List.Subset.refl _
  | create _ _ _ ih => exact List.Subset.trans ih (List.subset_append_left _ _)

theorem IsNumbered.nodup_handles (h : table.IsNumbered) : table.handles.Nodup := by
  refine List.nodup_iff_count_le_one.mpr fun handle => ?_
  have hcount := List.nodup_iff_count_le_one.mp (h.nodup handle.kind) handle
  rwa [handlesOf, List.count_filter (by simp)] at hcount

/-- The name in an entry is the name of the handle. -/
theorem IsNumbered.nameOf?_of_mem (h : table.IsNumbered) {name : Option ObjectRef}
    (hmem : (handle, name) ∈ table.entries) : table.nameOf? handle = name := by
  obtain ⟨entry, hfind⟩ : ∃ entry, table.entries.find? (·.1 = handle) = some entry :=
    Option.isSome_iff_exists.mp (List.find?_isSome.mpr ⟨_, hmem, decide_eq_true rfl⟩)
  have hentry : entry = (handle, name) := by
    refine List.inj_on_of_nodup_map h.nodup_handles (List.mem_of_find?_eq_some hfind) hmem ?_
    simpa using List.find?_some hfind
  rw [nameOf?, hfind, hentry]
  rfl

/-- The handle of an object is entered with its name. -/
theorem mem_entries_handleFor (table : HandleTable) (o : ObjectRef) :
    ((table.handleFor o).1, some o) ∈ (table.handleFor o).2.entries := by
  rw [handleFor]
  rcases hfound : table.handleFor? o with _ | handle
  · exact List.mem_append_right _ (List.mem_singleton_self _)
  · exact (mem_of_handleFor? hfound).1

/-- A reference with the name of its object in the place of a handle. -/
def displayRef (table : HandleTable) (t : TensorRef) : TensorRef :=
  t.withObject (table.displayName t.object)

theorem displayRef_of_isName (table : HandleTable) (h : t.object.IsName) :
    table.displayRef t = t := by
  obtain ⟨o, left, right, isAdjoint⟩ := t
  cases o with
  | name text => rfl
  | handle k => exact h.elim

end HandleTable

namespace Binding

theorem mem_entries_of_mem_handleAll {objects : List ObjectRef}
    (h : (o, handle) ∈ (handleAll table objects).1) :
    (handle, some o) ∈ (handleAll table objects).2.entries := by
  induction objects generalizing table with
  | nil => cases h
  | cons o' objects ih =>
    rw [handleAll] at h ⊢
    rcases List.mem_cons.mp h with heq | h
    · obtain ⟨rfl, rfl⟩ := Prod.mk.inj heq
      obtain ⟨hs, hgrows, -⟩ := handleAll_grows (table.handleFor o).2 objects
      exact hgrows.entries_subset (table.mem_entries_handleFor o)
    · exact ih h

/-- A handle is shown by the name of its object. -/
theorem displayName_of_mem_handleAll {table' : HandleTable} (htable : table.IsNumbered)
    {objects : List ObjectRef} {handles : Table ObjectRef Handle}
    (hhandles : handleAll table objects = (handles, table')) (h : (o, handle) ∈ handles) :
    table'.displayName (.handle handle) = o := by
  obtain ⟨hs, hgrows, -⟩ := handleAll_grows table objects
  have hentry : (o, handle) ∈ (handleAll table objects).1 := by rwa [hhandles]
  have hname := (htable.grow hgrows).nameOf?_of_mem (mem_entries_of_mem_handleAll hentry)
  rw [hhandles] at hname
  rw [HandleTable.displayName, hname, Option.getD_some]

end Binding

/-! ## Replaced references -/

namespace Diagram

variable {d : Diagram} {f g : TensorRef → TensorRef}

theorem mapRefs_eq_self (h : ∀ t ∈ d.allRefs, f t = t) : d.mapRefs f = d :=
  (mapRefs_congr h).trans (mapRefs_id d)

mutual
/-- The statement tree with every reference replaced, also in sealed regions. -/
def mapRefsThroughout (f : TensorRef → TensorRef) : Diagram → Diagram
  | block statements => block (mapRefsThroughoutList f statements)
  | sealed statements => sealed (mapRefsThroughoutList f statements)
  | control kind body => control kind (body.mapRefsThroughout f)
  | d => d.mapRefs f
/-- The statement trees of a list with every reference replaced, also in sealed regions. -/
def mapRefsThroughoutList (f : TensorRef → TensorRef) : List Diagram → List Diagram
  | [] => []
  | d :: rest => d.mapRefsThroughout f :: mapRefsThroughoutList f rest
end

theorem mapRefsThroughoutList_eq (f : TensorRef → TensorRef) (ds : List Diagram) :
    mapRefsThroughoutList f ds = ds.map (mapRefsThroughout f) := by
  induction ds with
  | nil => rfl
  | cons d ds ih => rw [mapRefsThroughoutList, ih, List.map_cons]

/-- In an expression there are no sealed regions. -/
theorem mapRefsThroughout_of_isExpression (h : d.isExpression = true) :
    d.mapRefsThroughout f = d.mapRefs f := by
  cases d with
  | block => cases h
  | sealed => cases h
  | control => cases h
  | _ => rfl

theorem isExpression_mapRefs (d : Diagram) : (d.mapRefs f).isExpression = d.isExpression := by
  cases d <;> rfl

/-- Replacing handles changes nothing in a tree over names. -/
theorem IsSurface.mapRefsThroughout_eq_self (hd : d.IsSurface)
    (hf : ∀ t, t.object.IsName → f t = t) : d.mapRefsThroughout f = d := by
  have hformula : ∀ {d : Diagram}, d.IsNamedFormula → d.mapRefs f = d :=
    fun hd => mapRefs_eq_self fun t ht => hf t (hd.isName t ht)
  induction hd with
  | expression hd =>
    rw [mapRefsThroughout_of_isExpression hd.isFormula.isExpression_eq]
    exact hformula hd
  | assign ht hrhs =>
    change Diagram.assign (.ref (f _)) (mapRefs f _) _ = _
    rw [hf _ ht, hformula hrhs]
  | assignScalar hrhs =>
    change Diagram.assign (.scalar _) (mapRefs f _) _ = _
    rw [hformula hrhs]
  | block _ ih =>
    rw [mapRefsThroughout, mapRefsThroughoutList_eq, List.map_congr_left ih, List.map_id']
  | control _ ih => rw [mapRefsThroughout, ih]
  | sealed _ ih =>
    rw [mapRefsThroughout, mapRefsThroughoutList_eq, List.map_congr_left ih, List.map_id']

/-- If every reference comes back, so does the tree.  What stands in sealed regions was not
replaced. -/
theorem IsSurface.mapRefsThroughout_mapRefs (hd : d.IsSurface) (hf : ∀ t, t.object.IsName → f t = t)
    (hg : ∀ t ∈ d.allRefs, f (g t) = t) : (d.mapRefs g).mapRefsThroughout f = d := by
  have hback : ∀ {d : Diagram}, (∀ t ∈ d.allRefs, f (g t) = t) → (d.mapRefs g).mapRefs f = d := by
    intro d hg
    rw [mapRefs_mapRefs]
    exact mapRefs_eq_self hg
  induction hd with
  | @expression d hd =>
    rw [mapRefsThroughout_of_isExpression
      ((isExpression_mapRefs d).trans hd.isFormula.isExpression_eq)]
    exact hback hg
  | assign => exact hback hg
  | assignScalar => exact hback hg
  | block _ ih =>
    rw [mapRefs, mapRefsList_eq, mapRefsThroughout, mapRefsThroughoutList_eq, List.map_map]
    rw [allRefs, allRefsList_eq] at hg
    refine congrArg Diagram.block ((List.map_congr_left fun s hs => ?_).trans (List.map_id _))
    exact ih s hs fun t ht => hg t (List.mem_flatMap.mpr ⟨s, hs, ht⟩)
  | control _ ih => exact congrArg (Diagram.control _) (ih hg)
  | sealed h => exact (IsSurface.sealed h).mapRefsThroughout_eq_self hf

end Diagram

/-! ## What the references tell -/

namespace ObjectUse

variable {braidingName : String} {u u' : ObjectUse} {references : List Reference}

/-- Objects that are entered one after another come in the order of their first appearance. -/
theorem foldl_enter (xs objects : List ObjectRef) :
    xs.foldl (fun objects o => enter o objects) objects =
      objects ++ (distinct xs).filter (· ∉ objects) := by
  induction xs generalizing objects with
  | nil => rw [List.foldl_nil, distinct, List.filter_nil, List.append_nil]
  | cons x xs ih =>
    rw [List.foldl_cons, ih, enter, distinct, List.filter_cons, List.filter_filter]
    by_cases hx : x ∈ objects
    · rw [if_pos hx, if_neg (by simpa using hx)]
      refine congrArg (objects ++ ·) (List.filter_congr fun o _ => ?_)
      by_cases ho : o ∈ objects
      · simp [ho]
      · have hne : o ≠ x := fun heq => ho (heq ▸ hx)
        simp [ho, hne]
    · rw [if_neg hx, if_pos (by simpa using hx), List.append_assoc, List.singleton_append]
      simp only [List.mem_append, List.mem_singleton, not_or, Bool.decide_and]

/-- The objects come in the order in which they are referred to first, without braidings. -/
theorem objects_eq (h : references.foldlM (read braidingName) ⟨[], [], []⟩ = .ok u) : u.objects =
    distinct ((references.map fun r => r.term.object).filter (· ≠ .name braidingName)) := by
  have hfold : ∀ {u u' : ObjectUse}, references.foldlM (read braidingName) u = .ok u' → u'.objects =
      ((references.map fun r => r.term.object).filter (· ≠ .name braidingName)).foldl
        (fun objects o => enter o objects) u.objects := by
    clear h
    induction references with
    | nil =>
      intro u u' h
      obtain rfl := Except.ok.inj h
      rfl
    | cons r references ih =>
      intro u u' h
      rw [List.foldlM_cons] at h
      obtain ⟨u₁, hr, h⟩ := bind_eq_ok_iff.mp h
      rw [ih h, List.map_cons, List.filter_cons]
      rcases read_cases hr with ⟨hbraiding, -, rfl⟩ | ⟨hbraiding, hobjects, -, -⟩
      · rw [if_neg (by simpa using hbraiding)]
      · rw [if_pos (by simpa using hbraiding), List.foldl_cons, hobjects]
  rw [hfold h, foldl_enter]
  simp

end ObjectUse

/-! ## Binding is undone by names -/

/-- A reference with a handle in the place of its object, unless it is a braiding. -/
def TensorRef.boundBy (braidingName : String) (handle : ObjectRef → Handle) (t : TensorRef) :
    TensorRef :=
  if t.isBraiding braidingName then t else t.withObject (.handle (handle t.object))

namespace Binding

/-- The handle of an object in a table of handles. -/
def handleOf (handles : Table ObjectRef Handle) (o : ObjectRef) : Handle :=
  (handles.find? o).getD ⟨.object, 0⟩

section Handles

variable {handles : Table ObjectRef Handle}

theorem mem_handleOf (h : o ∈ handles.keys) : (o, handleOf handles o) ∈ handles := by
  obtain ⟨handle, hfind⟩ := Option.isSome_iff_exists.mp (Table.has_iff_mem_keys.mpr h)
  rw [handleOf, hfind]
  exact Table.mem_of_find?_eq_some hfind

theorem eq_map_handleOf (hkeys : handles.keys.Nodup) :
    handles = handles.keys.map fun o => (o, handleOf handles o) := by
  rw [Table.keys, List.map_map]
  refine (List.map_id handles).symm.trans (List.map_congr_left fun entry hentry => ?_)
  rw [Function.comp_apply, handleOf, Table.find?_eq_some_of_mem hkeys hentry]
  rfl

/-- The statements for some of the objects, in the order of the objects. -/
theorem filterMap_eq_map_handleOf (hkeys : handles.keys.Nodup) (chosen : List ObjectRef)
    (f : ObjectRef × Handle → Diagram) :
    (handles.filterMap fun entry => if entry.1 ∈ chosen then some (f entry) else none) =
      (handles.keys.filter (· ∈ chosen)).map fun o => f (o, handleOf handles o) := by
  rw [filterMap_ite_eq, eq_map_handleOf hkeys, List.filter_map, List.map_map,
    ← eq_map_handleOf hkeys]
  rfl

/-- A reference to an object that has been met is bound to the handle of this object. -/
theorem bindRef_eq_boundBy {braidingName : String}
    (h : ¬ t.isBraiding braidingName = true → handles.has t.object = true) :
    bindRef braidingName handles t = t.boundBy braidingName (handleOf handles) := by
  rw [bindRef, TensorRef.boundBy]
  refine ite_congr rfl (fun _ => rfl) fun hbraiding => ?_
  obtain ⟨handle, hfind⟩ := Option.isSome_iff_exists.mp (h hbraiding)
  rw [handleOf, hfind]
  rfl

section Names

variable {table table' : HandleTable} (htable : table.IsNumbered) {objects : List ObjectRef}
  (hhandles : handleAll table objects = (handles, table'))

include htable hhandles

theorem displayName_handleOf (ho : handles.has o = true) :
    table'.displayName (.handle (handleOf handles o)) = o :=
  displayName_of_mem_handleAll htable hhandles (mem_handleOf (Table.has_iff_mem_keys.mp ho))

/-- Different objects have different handles. -/
theorem handleOf_eq_iff {o' : ObjectRef} (ho : handles.has o = true) (ho' : handles.has o' = true) :
    handleOf handles o = handleOf handles o' ↔ o = o' := by
  refine ⟨fun heq => ?_, congrArg (handleOf handles)⟩
  rw [← displayName_handleOf htable hhandles ho, heq, displayName_handleOf htable hhandles ho']

/-- A bound reference is shown as it was written. -/
theorem displayRef_boundBy {braidingName : String}
    (h : ¬ t.isBraiding braidingName = true → handles.has t.object = true) :
    table'.displayRef (t.boundBy braidingName (handleOf handles)) = t := by
  rw [TensorRef.boundBy]
  split_ifs with hbraiding
  · refine table'.displayRef_of_isName ?_
    rw [of_decide_eq_true hbraiding]
    trivial
  · rw [HandleTable.displayRef, TensorRef.withObject, TensorRef.withObject,
      displayName_handleOf htable hhandles (h hbraiding)]

end Names

end Handles

end Binding

namespace Diagram

open Binding

variable {options : Options} {checkArity : Bool} {table : HandleTable} {d : Diagram}

section Read

variable (hd : d.IsSurface) {use : ObjectUse}
  (huse : d.references.foldlM (ObjectUse.read options.braidingName) ⟨[], [], []⟩ = .ok use)

include hd huse

theorem IsSurface.objects_eq :
    use.objects =
      distinct ((d.evaluated.map TensorRef.object).filter (· ≠ .name options.braidingName)) := by
  rw [ObjectUse.objects_eq huse, ← hd.map_term_references, List.map_map]
  rfl

/-- The objects that are entered are those that are referred to, without braidings. -/
theorem IsSurface.mem_objects_iff :
    o ∈ use.objects ↔ o ≠ .name options.braidingName ∧ d.RefersTo o := by
  rw [hd.objects_eq huse, mem_distinct, List.mem_filter,
    (hd.perm_evaluated.map TensorRef.object).mem_iff, List.mem_map, decide_eq_true_eq, and_comm]
  rfl

theorem IsSurface.mem_exported_iff : o ∈ use.exported ↔ d.AssignsTo o := by
  obtain ⟨hroles, -, hexported⟩ := ObjectUse.mem_of_foldlM huse
  rw [hexported, hd.assignsTo_iff, or_iff_right List.not_mem_nil]
  refine exists_congr fun r => and_congr_right fun hr => ⟨fun ⟨heq, _, hrole⟩ => ⟨hrole, heq⟩, ?_⟩
  rintro ⟨hrole, rfl⟩
  exact ⟨rfl, fun hbraiding => hrole (hroles r hr hbraiding), hrole⟩

theorem IsSurface.mem_existing_iff : o ∈ use.existing ↔
    o ≠ .name options.braidingName ∧ ∃ role, d.FirstReference o role ∧ role ≠ .define := by
  rw [ObjectUse.mem_existing_iff huse]
  refine and_congr_right fun _ =>
    Citation.preExists_iff_firstRole.trans (exists_congr fun role => ?_)
  rw [hd.firstReference_iff]
  rfl

/-- What is handed back has been entered. -/
theorem IsSurface.exported_subset : use.exported ⊆ use.objects := by
  intro o ho
  obtain ⟨r, hr, hrole, rfl⟩ := hd.assignsTo_iff.mp ((hd.mem_exported_iff huse).mp ho)
  have hterm : r.term ∈ d.evaluated := hd.map_term_references ▸ List.mem_map_of_mem hr
  refine (hd.mem_objects_iff huse).mpr ⟨fun heq => ?_, r.term,
    hd.perm_evaluated.mem_iff.mp hterm, rfl⟩
  exact ObjectUse.not_isBraiding_of_foldlM huse r hr hrole (decide_eq_true heq)

end Read

/-- Binding a tree over names succeeds if no braiding is written. -/
theorem IsSurface.exists_bindNames_iff (hd : d.IsSurface) :
    (∃ result, d.bindNames options checkArity table = .ok result) ↔
      ¬ d.AssignsTo (.name options.braidingName) := by
  constructor
  · rintro ⟨⟨binding, table'⟩, h⟩ hassigns
    obtain ⟨use, -, huse, -⟩ := bindNames_eq_ok_iff.mp h
    obtain ⟨r, hr, hrole, hobject⟩ := hd.assignsTo_iff.mp hassigns
    exact ObjectUse.not_isBraiding_of_foldlM huse r hr hrole (decide_eq_true hobject)
  · intro hassigns
    have hroles : ∀ r ∈ d.references, r.term.object = .name options.braidingName → r.role = .use :=
      fun r hr heq => not_not.mp fun hrole => hassigns (hd.assignsTo_iff.mpr ⟨r, hr, hrole, heq⟩)
    obtain ⟨use, huse⟩ := ObjectUse.exists_foldlM hroles ⟨[], [], []⟩
    refine ⟨(_, _), bindNames_eq_ok_iff.mpr ⟨use, _, huse, rfl, fun t ht hbraiding => ?_, rfl⟩⟩
    rw [Table.has_iff_mem_keys, keys_handleAll, hd.mem_objects_iff huse]
    exact ⟨fun heq => hbraiding (decide_eq_true heq), t, ht, rfl⟩

/-- Binding a tree over names succeeds unless a braiding is written, and it is undone by names: with
the names in the place of all handles, the bound tree is the tree that was written.  Two references
have the same handle exactly if they have the same name.  The objects come in the order in which
they are evaluated first.  Some of them are bound at the start, in this order and none twice: those
that are not defined by their first reference.  Some are handed back at the end, in this order and
none twice: those on a left hand side outside sealed regions. -/
theorem bindNames_undone_by_displayName (options : Options) (checkArity : Bool)
    (htable : table.IsReached) (hd : d.IsSurface) :
    ((∃ result, d.bindNames options checkArity table = .ok result) ↔
      ¬ d.AssignsTo (.name options.braidingName)) ∧
    ∀ (binding : Binding) (table' : HandleTable), d.bindNames options checkArity table =
      .ok (binding, table') → binding.body.mapRefsThroughout table'.displayRef = d ∧
      binding.objects =
        distinct ((d.evaluated.map TensorRef.object).filter (· ≠ .name options.braidingName)) ∧
      ∃ (handle : ObjectRef → Handle) (pre post : List ObjectRef),
        binding.body = d.mapRefs (TensorRef.boundBy options.braidingName handle) ∧
        (∀ t ∈ d.allRefs, ∀ t' ∈ d.allRefs, ¬ t.isBraiding options.braidingName →
          ¬ t'.isBraiding options.braidingName →
            (handle t.object = handle t'.object ↔ t.object = t'.object)) ∧
        (binding.prologue = pre.map (fun o => .bind (handle o) o) ∧ pre.Nodup ∧
          pre.Sublist binding.objects ∧ ∀ o, o ∈ pre ↔ o ≠ .name options.braidingName ∧
            ∃ role, d.FirstReference o role ∧ role ≠ .define) ∧
        (binding.epilogue = post.map (fun o => .exportAs o (handle o)) ∧ post.Nodup ∧
          post.Sublist binding.objects ∧ ∀ o, o ∈ post ↔ d.AssignsTo o) := by
  refine ⟨hd.exists_bindNames_iff, fun binding table' h => ?_⟩
  obtain ⟨use, handles, huse, hhandles, hall, rfl⟩ := bindNames_eq_ok_iff.mp h
  obtain ⟨known, htracks⟩ := ObjectUse.exists_tracks huse
  have hkeys : handles.keys = use.objects := by
    rw [← keys_handleAll table use.objects, hhandles]
  have hnodup : handles.keys.Nodup := hkeys ▸ htracks.nodup
  have hbody : d.mapRefs (bindRef options.braidingName handles) =
      d.mapRefs (TensorRef.boundBy options.braidingName (handleOf handles)) :=
    mapRefs_congr fun t ht => bindRef_eq_boundBy (hall t ht)
  refine ⟨?_, hd.objects_eq huse, handleOf handles, use.objects.filter (· ∈ use.existing),
    use.objects.filter (· ∈ use.exported), hbody, ?_,
    ⟨?_, htracks.nodup.filter _, List.filter_sublist, ?_⟩,
    ⟨?_, htracks.nodup.filter _, List.filter_sublist, ?_⟩⟩
  · dsimp only
    rw [hbody]
    exact hd.mapRefsThroughout_mapRefs (fun t => table'.displayRef_of_isName) fun t ht =>
      displayRef_boundBy htable.isNumbered hhandles (hall t ht)
  · intro t ht t' ht' hbraiding hbraiding'
    exact handleOf_eq_iff htable.isNumbered hhandles (hall t ht hbraiding) (hall t' ht' hbraiding')
  · rw [← hkeys]
    exact filterMap_eq_map_handleOf hnodup use.existing bindStatement
  · intro o
    rw [List.mem_filter, decide_eq_true_eq, and_iff_right_of_imp fun ho => htracks.existing ho]
    exact hd.mem_existing_iff huse
  · rw [← hkeys]
    exact filterMap_eq_map_handleOf hnodup use.exported exportStatement
  · intro o
    rw [List.mem_filter, decide_eq_true_eq, and_iff_right_of_imp fun ho =>
      hd.exported_subset huse ho]
    exact hd.mem_exported_iff huse

/-- A tree with a definition, an assignment in a control construct, a sealed region and a
braiding. -/
def mixedTree : Diagram :=
  .block [
    .assign (.ref ⟨.name "C", [.name "a"], [.name "b"], false⟩)
      (.product (.ref ⟨.name "A", [.name "c"], [], true⟩)
        (.ref ⟨.name "τ", [.name "a", .name "c"], [.name "d", .name "b"], false⟩)
        [.conj (.ref ⟨.name "B", [.name "d"], [], false⟩)]) true,
    .control "loop" (.block [.assign (.ref ⟨.name "A", [.name "c"], [], false⟩)
      (.ref ⟨.name "B", [.name "c"], [], false⟩) false]),
    .sealed [.assign (.ref ⟨.name "D", [.name "a"], [], false⟩)
      (.ref ⟨.name "E", [.name "a"], [], false⟩) true],
    .assign (.scalar (.name "s")) (.ref ⟨.name "C", [.name "a"], [.name "a"], false⟩) false]

/-- A table in which an object, a temporary and a braiding have handles. -/
def usedTable : HandleTable :=
  (HandleTable.empty.handleFor (.name "C")).2.freshTemporary.2.freshBraiding.2

/-- In the tree, `A` is used and assigned to, `B` is used, and `C` is defined and had a handle
before. -/
theorem mixedTree_undone_by_displayName : usedTable.IsReached ∧ mixedTree.IsSurface ∧
    ∃ (binding : Binding) (table' : HandleTable), mixedTree.bindNames {} true usedTable =
      .ok (binding, table') ∧ binding.body.mapRefsThroughout table'.displayRef = mixedTree ∧
      binding.objects = [.name "A", .name "B", .name "C"] ∧
      binding.prologue = [.bind ⟨.object, 1⟩ (.name "A"), .bind ⟨.object, 2⟩ (.name "B")] ∧
      binding.epilogue =
        [.exportAs (.name "A") ⟨.object, 1⟩, .exportAs (.name "C") ⟨.object, 0⟩] := by
  have htable : usedTable.IsReached := .braiding (.temporary (.object .empty _))
  have hformula : ∀ {d : Diagram}, d.IsFormula → (∀ t ∈ d.tensors, t.object.IsName) →
      d.IsNamedFormula :=
    fun hd hnames => ⟨hd, hd.allRefs_eq ▸ hnames⟩
  have hd : mixedTree.IsSurface := by
    refine .block ?_
    simp only [List.forall_mem_cons]
    refine ⟨.assign trivial
      (hformula (.product (.ref _) (.ref _) (by simpa using .conj (.ref _))) ?_),
      .control (.block ?_), .sealed ?_, .assignScalar (hformula (.ref _) ?_), List.forall_mem_nil _⟩
    · simp [tensors, listTensors, ObjectRef.IsName]
    · exact List.forall_mem_singleton.mpr
        (.assign trivial (hformula (.ref _) (by simp [tensors, ObjectRef.IsName])))
    · exact List.forall_mem_singleton.mpr
        (.assign trivial (hformula (.ref _) (by simp [tensors, ObjectRef.IsName])))
    · simp [tensors, ObjectRef.IsName]
  obtain ⟨-, hbound⟩ := bindNames_undone_by_displayName {} true htable hd
  exact ⟨htable, hd, _, _, rfl, (hbound _ _ rfl).1, rfl, rfl, rfl⟩

end Diagram

end TensorDiagram
