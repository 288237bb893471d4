import TensorDiagram.Proofs.RenamedOrders
import TensorDiagram.Proofs.StrandSpaces

/-!
# Plans with other indices and names

Binding searches objects by name, and the construction of braidings searches legs by index.  Neither
depends on what names and indices are (`bindNames_rename`, `constructBraidings_rename`), as long as
the name of the braiding stays.

With the check for planarity and the lowering this makes the whole compilation commute with a
renaming: a renamed diagram has the renamed plan, with the same handles in the same statements, or
it fails with an error of the same kind (`Plan.forBraided_equivariant`).
-/

namespace TensorDiagram

variable (r : Renaming)

/-! ## Binding -/

/-- Steps one after another commute with renaming if each of them does. -/
theorem Renaming.carry_foldlM {α β α' β' : Type} {φ : α → β} {ψ : α' → β'}
    {k : α → α' → Except Error α} {k' : β → β' → Except Error β}
    (h : ∀ a x, k' (φ a) (ψ x) = r.carry φ (k a x)) (a : α) (xs : List α') :
    (xs.map ψ).foldlM k' (φ a) = r.carry φ (xs.foldlM k a) := by
  induction xs generalizing a with
  | nil => rfl
  | cons x xs ih =>
    rw [List.map_cons, List.foldlM_cons, List.foldlM_cons, h]
    exact r.carry_bind _ fun b => ih b

/-- A renamed object is among renamed ones if it was among them. -/
theorem Renaming.mem_map_object {object : ObjectRef} {objects : List ObjectRef} :
    r.object object ∈ objects.map r.object ↔ object ∈ objects :=
  List.mem_map_of_injective r.object_injective

/-- The reference to a renamed object in a renamed statement. -/
def Reference.rename (x : Reference) : Reference :=
  ⟨x.term.rename r, x.role, x.statement.rename r⟩

/-- The renamed objects that were met. -/
def ObjectUse.rename (u : ObjectUse) : ObjectUse :=
  ⟨u.objects.map r.object, u.existing.map r.object, u.exported.map r.object⟩

namespace Diagram

/-- The references of a renamed expression. -/
theorem uses_rename (d statement : Diagram) :
    (d.rename r).uses (statement.rename r) = (d.uses statement).map (Reference.rename r) := by
  rw [uses, uses, tensors_rename, List.map_map, List.map_map]
  rfl

/-- The references of a renamed diagram, in order. -/
theorem references_rename (d : Diagram) :
    (d.rename r).references = d.references.map (Reference.rename r) := by
  induction d with
  | assign lhs rhs isDefinition ihl ihr =>
    have huses := uses_rename r rhs (assign lhs rhs isDefinition)
    rw [rename] at huses
    rw [rename, references.eq_def, references.eq_def]
    dsimp only
    rw [huses, List.map_append]
    cases lhs <;> rfl
  | block statements ih =>
    simp only [rename, references, renameList_eq, listReferences_eq, List.map_flatMap,
      List.flatMap_map, List.flatMap_congr ih]
  | control kind body ih => exact ih
  | ref t => exact uses_rename r (ref t) (ref t)
  | conj a => exact uses_rename r (conj a) (conj a)
  | sum sign a rest => exact uses_rename r (sum sign a rest) (sum sign a rest)
  | product a b rest => exact uses_rename r (product a b rest) (product a b rest)
  | _ => rfl

end Diagram

/-- A renamed object is entered once. -/
theorem ObjectUse.enter_rename (object : ObjectRef) (objects : List ObjectRef) :
    enter (r.object object) (objects.map r.object) = (enter object objects).map r.object := by
  simp only [enter, r.mem_map_object]
  split_ifs <;> simp

/-- What is learnt from a renamed reference. -/
theorem ObjectUse.read_rename {braidingName : String}
    (hbraiding : r.name braidingName = braidingName) (u : ObjectUse)
    (x : Reference) : (u.rename r).read braidingName (x.rename r) = r.carry (rename r)
    (u.read braidingName x) := by
  have hterm : (x.rename r).term.isBraiding braidingName = x.term.isBraiding braidingName :=
    x.term.isBraiding_rename hbraiding
  have hobject : (x.rename r).term.object = r.object x.term.object := rfl
  have hrole : (x.rename r).role = x.role := rfl
  simp only [read, hterm, hobject, hrole, rename, enter_rename, r.mem_map_object]
  by_cases h : x.term.isBraiding braidingName = true
  · rw [if_pos h, if_pos h]
    split_ifs <;> rfl
  · rw [if_neg h, if_neg h]
    refine congrArg Except.ok ?_
    split_ifs <;> rfl

namespace HandleTable

/-- The named objects of a renamed table. -/
theorem namedObjects_rename (s : HandleTable) :
    (s.rename r).namedObjects = s.namedObjects.map (Prod.map r.object id) := by
  rw [namedObjects, namedObjects, rename, List.filterMap_map, List.map_filterMap]
  refine congrArg (List.filterMap · s.entries) (funext fun entry => ?_)
  obtain ⟨h, _ | name⟩ := entry
  · rfl
  · simp only [Function.comp_apply, Option.map_some]
    split_ifs <;> rfl

/-- A renamed object has the same handle. -/
theorem handleFor_rename (s : HandleTable) (name : ObjectRef) :
    (s.rename r).handleFor (r.object name) = Prod.map id (rename r) (s.handleFor name) := by
  have hfind : (s.rename r).handleFor? (r.object name) = s.handleFor? name := by
    rw [handleFor?, handleFor?, namedObjects_rename, List.find?_map, Option.map_map]
    simp only [Function.comp_def, Prod.map_fst, r.object_inj]
    rfl
  rw [handleFor, handleFor, hfind]
  rcases s.handleFor? name with _ | h
  · exact s.create_rename r .object (some name)
  · rfl

end HandleTable

namespace Binding

/-- The handles of renamed objects. -/
abbrev renameHandles (handles : Table ObjectRef Handle) : Table ObjectRef Handle :=
  handles.map (Prod.map r.object id)

/-- Renamed objects have the same handles. -/
theorem handleAll_rename (table : HandleTable) (objects : List ObjectRef) :
    handleAll (table.rename r) (objects.map r.object) =
      Prod.map (renameHandles r) (HandleTable.rename r) (handleAll table objects) := by
  induction objects generalizing table with
  | nil => rfl
  | cons object objects ih =>
    rw [List.map_cons, handleAll, handleAll, HandleTable.handleFor_rename]
    rcases table.handleFor object with ⟨handle, table⟩
    dsimp only [Prod.map_apply]
    rw [ih]
    rfl

/-- Looking up the handle of a renamed object. -/
theorem find?_renameHandles (handles : Table ObjectRef Handle) (object : ObjectRef) :
    Table.find? (r.object object) (renameHandles r handles) = handles.find? object := by
  rw [renameHandles, Table.find?_prodMap r.object_injective, Option.map_id, id]

/-- The statements about the objects of a list. -/
theorem filterMap_renameHandles (statement : Handle → ObjectRef → Diagram)
    (hstatement : ∀ h object, statement h (r.object object) = (statement h object).rename r)
    (handles : Table ObjectRef Handle) (objects : List ObjectRef) :
    (renameHandles r handles).filterMap (fun entry =>
        if entry.1 ∈ objects.map r.object then some (statement entry.2 entry.1) else none) =
      (handles.filterMap fun entry =>
        if entry.1 ∈ objects then some (statement entry.2 entry.1) else none).map
            (Diagram.rename r) := by
  rw [List.filterMap_map, List.map_filterMap]
  refine congrArg (List.filterMap · handles) (funext fun entry => ?_)
  simp only [Function.comp_apply, Prod.map_fst, Prod.map_snd, r.mem_map_object, hstatement]
  split_ifs <;> rfl

section

variable {r} {braidingName : String} (hbraiding : r.name braidingName = braidingName)

include hbraiding

/-- A renamed reference is bound to the same handle. -/
theorem bindRef_rename (handles : Table ObjectRef Handle) (t : TensorRef) :
    bindRef braidingName (renameHandles r handles)
      (t.rename r) = (bindRef braidingName handles t).rename r := by
  have hfind : Table.find? (t.rename r).object (renameHandles r handles) = handles.find? t.object :=
    find?_renameHandles r handles t.object
  rw [bindRef, bindRef, t.isBraiding_rename hbraiding, hfind]
  split_ifs
  · rfl
  · rcases handles.find? t.object with _ | handle <;> rfl

/-- A renamed object is checked in the same way. -/
theorem arityCheck?_rename (use : ObjectUse) (handles : Table ObjectRef Handle) (x : Reference) :
    arityCheck? braidingName (use.rename r) (renameHandles r handles) (x.rename r) =
      (arityCheck? braidingName use handles x).map (Diagram.rename r) := by
  have hterm : (x.rename r).term.isBraiding braidingName = x.term.isBraiding braidingName :=
    x.term.isBraiding_rename hbraiding
  have hexisting : (x.rename r).term.object ∈ (use.rename r).existing ↔
      x.term.object ∈ use.existing :=
    r.mem_map_object
  have hrole : (x.rename r).role = x.role := rfl
  have hcheck : ∀ t : TensorRef, (Table.find? (t.rename r).object (renameHandles r handles)).map
      (fun handle =>
      Diagram.checkArity handle (t.rename r).object (t.rename r).left.length
        (t.rename r).right.length) =
      ((handles.find? t.object).map fun handle =>
        Diagram.checkArity handle t.object t.left.length t.right.length).map
            (Diagram.rename r) := by
    intro t
    rw [show Table.find? (t.rename r).object (renameHandles r handles) =
      _ from find?_renameHandles r handles t.object, Option.map_map]
    simp [Function.comp_def, TensorRef.rename, Diagram.rename]
  simp only [arityCheck?, hterm, hexisting, hrole]
  split_ifs with h hadjoint hadjoint'
  · rfl
  · exact hcheck x.term.flipped
  · exact absurd hadjoint hadjoint'
  · exact absurd ‹_› hadjoint
  · exact hcheck x.term

end

/-- The binding of a renamed diagram. -/
def rename (b : Binding) : Binding :=
  ⟨b.objects.map r.object, b.body.rename r, b.prologue.map (Diagram.rename r),
    b.checks.map (Diagram.rename r), b.epilogue.map (Diagram.rename r)⟩

/-- The statements of a renamed binding. -/
theorem toBlock_rename (b : Binding) : (b.rename r).toBlock = b.toBlock.rename r := by
  simp [toBlock, rename, Diagram.rename]

end Binding

/-- Objects are bound in the same way under other names. -/
theorem Diagram.bindNames_rename {options : Options}
    (hbraiding : r.name options.braidingName = options.braidingName)
    (checkArity : Bool) (table : HandleTable) (d : Diagram) :
    (d.rename r).bindNames options checkArity (table.rename r) =
      r.carry (Prod.map (Binding.rename r) (HandleTable.rename r))
        (d.bindNames options checkArity table) := by
  have hfold :=
    r.carry_foldlM (fun u x => ObjectUse.read_rename r hbraiding u x) ⟨[], [], []⟩ d.references
  have hstart : ObjectUse.rename r ⟨[], [], []⟩ = ⟨[], [], []⟩ := rfl
  rw [bindNames, bindNames, references_rename, ← hstart, hfold]
  refine r.carry_bind _ fun use => ?_
  have hall : ∀ handles : Table ObjectRef Handle, ((d.rename r).allRefs.all fun t =>
      t.isBraiding options.braidingName || (Binding.renameHandles r handles).has t.object) =
      d.allRefs.all fun t => t.isBraiding options.braidingName || handles.has t.object := by
    intro handles
    rw [allRefs_rename, List.all_map]
    refine congrArg _ (funext fun t => ?_)
    rw [Function.comp_apply, t.isBraiding_rename hbraiding, Table.has, Table.has]
    exact congrArg _ (congrArg _ (Binding.find?_renameHandles r handles t.object))
  rw [show (use.rename r).objects = use.objects.map r.object from rfl, Binding.handleAll_rename]
  rcases Binding.handleAll table use.objects with ⟨handles, table⟩
  dsimp only [Prod.map_apply]
  rw [hall]
  cases d.allRefs.all fun t => t.isBraiding options.braidingName || handles.has t.object with
  | false => rfl
  | true =>
    have hbody := mapRefs_rename (fun t => Binding.bindRef_rename hbraiding handles t) d
    have hchecks : (d.references.map (Reference.rename r)).filterMap
        (Binding.arityCheck? options.braidingName (use.rename r) (Binding.renameHandles r handles))
        = (d.references.filterMap
          (Binding.arityCheck? options.braidingName use handles)).map (rename r) := by
      rw [List.filterMap_map, List.map_filterMap]
      exact congrArg (List.filterMap · _) (funext fun x =>
        Binding.arityCheck?_rename hbraiding use handles x)
    have hprologue := Binding.filterMap_renameHandles r bind (fun _ _ => rfl) handles use.existing
    have hepilogue :=
      Binding.filterMap_renameHandles r (fun h object => exportAs object h) (fun _ _ => rfl) handles
      use.exported
    have hchecks' :
        (if checkArity then (d.references.map (Reference.rename r)).filterMap (Binding.arityCheck?
        options.braidingName (use.rename r) (Binding.renameHandles r handles)) else []) =
        (if checkArity then d.references.filterMap
          (Binding.arityCheck? options.braidingName use handles) else []).map (rename r) := by
      rw [hchecks]
      cases checkArity <;> rfl
    refine congrArg Except.ok (Prod.ext ?_ rfl)
    exact (Binding.mk.injEq ..).mpr ⟨rfl, hbody, hprologue, hchecks', hepilogue⟩

/-! ## Braidings -/

/-- A renamed index is on the same leg. -/
theorem findLeg?_rename (index : Index) (ts : List TensorRef) :
    findLeg? (r.index index) (ts.map (TensorRef.rename r)) =
      (findLeg? index ts).map (Prod.map (TensorRef.rename r) id) := by
  induction ts with
  | nil => rfl
  | cons t ts ih =>
    rw [List.map_cons, findLeg?, findLeg?, ih, TensorRef.indices_rename,
      Circle.idxOf_map r.index_injective]
    simp only [List.mem_map_of_injective r.index_injective]
    split_ifs <;> rfl

/-- The strand between renamed indices. -/
abbrev Renaming.strand : Strand → Strand :=
  Prod.map r.index r.index

/-- The strands of a renamed braiding. -/
theorem TensorRef.strands_rename (braidingName : String) (t : TensorRef) :
    (t.rename r).strands braidingName = r.carry (Prod.map r.strand r.strand)
    (t.strands braidingName) := by
  obtain ⟨object, left, right, isAdjoint⟩ := t
  match left, right with
  | [_, _], [_, _] => cases isAdjoint <;> rfl
  | [], _ | [_], _ | _ :: _ :: _ :: _, _ | [_, _], [] | [_, _], [_]
  | [_, _], _ :: _ :: _ :: _ => rfl

/-- The strands of renamed braidings. -/
theorem TensorRef.allStrands_rename (braidingName : String) (ts : List TensorRef) :
    allStrands braidingName (ts.map (rename r)) = r.carry (List.map r.strand)
      (allStrands braidingName ts) := by
  rw [allStrands, allStrands, r.carry_mapM ts fun t _ => t.strands_rename r braidingName]
  refine r.carry_bind _ fun strands => congrArg Except.ok ?_
  rw [List.flatMap_map, List.map_flatMap]
  rfl

namespace StrandSpaces

/-- The spaces of renamed strands. -/
def rename (s : StrandSpaces) : StrandSpaces :=
  ⟨s.spaces.map (Prod.map r.index (LegSpace.rename r)), s.unresolved.map r.strand⟩

/-- A renamed strand gets the same space. -/
theorem assign_rename (s : StrandSpaces) (strand : Strand) (space : LegSpace) :
    (s.rename r).assign (r.strand strand) (space.rename r) = (s.assign strand space).rename r := by
  simp only [assign, rename, Renaming.strand, Prod.map_fst, Prod.map_snd,
    Table.put_prodMap r.index_injective]

/-- A renamed strand is left for later. -/
theorem leave_rename (s : StrandSpaces) (strand : Strand) :
    (s.rename r).leave (r.strand strand) = (s.leave strand).rename r := by
  simp [leave, rename]

/-- A renamed strand ends at the same leg. -/
theorem anchor_rename (neighbours : List TensorRef) (s : StrandSpaces) (strand : Strand) :
    anchor (neighbours.map (TensorRef.rename r)) (s.rename r) (r.strand strand) =
      (anchor neighbours s strand).rename r := by
  rw [anchor, anchor, Renaming.strand, Prod.map_fst, Prod.map_snd, findLeg?_rename, findLeg?_rename]
  rcases findLeg? strand.1 neighbours with _ | ⟨t, position⟩
  · rcases findLeg? strand.2 neighbours with _ | ⟨t, position⟩
    · exact s.leave_rename r strand
    · exact s.assign_rename r strand ⟨t.object, position, t.isAdjoint, true⟩
  · exact s.assign_rename r strand ⟨t.object, position, t.isAdjoint, false⟩

/-- A renamed strand takes over the same space. -/
theorem join_rename (s : StrandSpaces) (strand : Strand) :
    (s.rename r).join (r.strand strand) = (s.join strand).rename r := by
  have hfind : ∀ i, Table.find? (r.index i) (s.rename r).spaces =
      (s.spaces.find? i).map (LegSpace.rename r) :=
    Table.find?_prodMap r.index_injective _ s.spaces
  rw [join, join, Renaming.strand, Prod.map_fst, Prod.map_snd, hfind, hfind]
  rcases s.spaces.find? strand.1 with _ | space
  · rcases s.spaces.find? strand.2 with _ | space
    · exact s.leave_rename r strand
    · exact s.assign_rename r strand space
  · exact s.assign_rename r strand space

/-- What is found out about strands one after the other is renamed if each step is. -/
theorem foldl_rename {step step' : StrandSpaces → Strand → StrandSpaces}
    (h : ∀ s strand, step' (s.rename r) (r.strand strand) = (step s strand).rename r)
    (s : StrandSpaces) (strands : List Strand) :
    (strands.map r.strand).foldl step' (s.rename r) = (strands.foldl step s).rename r := by
  induction strands generalizing s with
  | nil => rfl
  | cons strand strands ih => rw [List.map_cons, List.foldl_cons, List.foldl_cons, h, ih]

/-- The spaces of all renamed strands. -/
theorem ofStrands_rename (neighbours : List TensorRef) (strands : List Strand) :
    ofStrands (neighbours.map (TensorRef.rename r)) (strands.map r.strand) =
      (ofStrands neighbours strands).rename r := by
  have hrepeat : ∀ (n : ℕ) (s : StrandSpaces), Nat.repeat joinAll n (s.rename r) =
      (Nat.repeat joinAll n s).rename r := by
    intro n s
    induction n with
    | zero => rfl
    | succ n ih =>
      rw [Nat.repeat, Nat.repeat, ih]
      exact foldl_rename r (fun s strand => s.join_rename r strand) ⟨_, []⟩ _
  have hstart : (strands.map r.strand).foldl (anchor (neighbours.map (TensorRef.rename r))) ⟨[],
      []⟩ = (strands.foldl (anchor neighbours) ⟨[], []⟩).rename r :=
    foldl_rename r (fun s strand => anchor_rename r neighbours s strand) ⟨[], []⟩ strands
  have hlength : ∀ s : StrandSpaces, (s.rename r).unresolved.length = s.unresolved.length :=
    fun s => List.length_map _
  rw [ofStrands, ofStrands, hstart, hrepeat, hlength]

/-- Looking up the space of a renamed index. -/
theorem get_rename (s : StrandSpaces) (index : Index) :
    (s.rename r).get (r.index index) = r.carry (LegSpace.rename r) (s.get index) := by
  rw [get, get, rename, Table.find?_prodMap r.index_injective]
  cases s.spaces.find? index <;> rfl

end StrandSpaces

namespace Diagram

/-- The references that a renamed statement reads. -/
theorem statementTerms?_rename (d : Diagram) :
    (d.rename r).statementTerms? = d.statementTerms?.map (List.map (TensorRef.rename r)) := by
  have hterms : ∀ d : Diagram, (if (d.rename r).isTensor then some (d.rename r).tensors else none) =
      (if d.isTensor then some d.tensors else none).map (List.map (TensorRef.rename r)) := by
    intro d
    rw [isTensor_rename, tensors_rename]
    split_ifs <;> rfl
  cases d with
  | assign lhs rhs isDefinition => exact hterms rhs
  | ref t => exact hterms (ref t)
  | conj a => exact hterms (conj a)
  | sum sign a rest => exact hterms (sum sign a rest)
  | product a b rest => exact hterms (product a b rest)
  | _ => rfl

/-- The neighbours of the strands of a renamed statement. -/
theorem neighbourTerms?_rename (d : Diagram) :
    (d.rename r).neighbourTerms? = d.neighbourTerms?.map (List.map (TensorRef.rename r)) := by
  cases d with
  | assign lhs rhs isDefinition =>
    have hother := statementTerms?_rename r (assign lhs rhs isDefinition)
    rw [rename] at hother ⊢
    cases lhs with
    | ref t =>
      cases isDefinition with
      | true => exact hother
      | false =>
        rw [rename, neighbourTerms?, neighbourTerms?, isTensor_rename, tensors_rename]
        split_ifs
        · simp
        · rfl
    | _ => exact hother
  | ref t => exact statementTerms?_rename r (ref t)
  | conj a => exact statementTerms?_rename r (conj a)
  | sum sign a rest => exact statementTerms?_rename r (sum sign a rest)
  | product a b rest => exact statementTerms?_rename r (product a b rest)
  | _ => rfl

/-- Renamed braidings are constructed in the same way. -/
theorem constructions_rename (braidingName : String) (spaces : StrandSpaces) (table : HandleTable)
    (ts : List TensorRef) :
    constructions braidingName (spaces.rename r) (table.rename r) (ts.map (TensorRef.rename r)) =
      r.carry (Prod.map (List.map (rename r))
        (Prod.map (List.map (Prod.map (TensorRef.rename r) id))
        (HandleTable.rename r))) (constructions braidingName spaces table ts) := by
  induction ts generalizing table with
  | nil => rfl
  | cons t ts ih =>
    rw [List.map_cons, constructions, constructions, TensorRef.strands_rename]
    refine r.carry_bind _ fun strands => ?_
    obtain ⟨⟨start1, end1⟩, ⟨start2, end2⟩⟩ := strands
    have hfresh : (table.rename r).freshBraiding =
        Prod.map id (HandleTable.rename r) table.freshBraiding :=
      table.create_rename r .braiding none
    dsimp only [Prod.map_apply]
    rw [hfresh]
    rcases table.freshBraiding with ⟨handle, table⟩
    dsimp only [Prod.map_apply]
    rw [StrandSpaces.get_rename]
    refine r.carry_bind _ fun space1 => ?_
    rw [StrandSpaces.get_rename]
    refine r.carry_bind _ fun space2 => ?_
    rw [ih]
    exact r.carry_bind _ fun _ => rfl

section

variable {r} {braidingName : String}

/-- The braidings of a renamed statement get the same handles. -/
theorem constructStatement_rename (hbraiding : r.name braidingName = braidingName)
    (table : HandleTable) (d : Diagram) :
    (d.rename r).constructStatement braidingName (table.rename r) =
      r.carry (Prod.map (rename r) (HandleTable.rename r))
        (d.constructStatement braidingName table) := by
  rw [constructStatement, constructStatement, neighbourTerms?_rename]
  rcases d.neighbourTerms? with _ | terms
  · rfl
  · dsimp only [Option.map_some]
    simp only [List.filter_map, Function.comp_def, TensorRef.isBraiding_rename _ hbraiding]
    rw [distinct_map (TensorRef.rename_injective r), List.isEmpty_map, TensorRef.allStrands_rename]
    split_ifs
    · rfl
    · refine r.carry_bind _ fun strands => ?_
      rw [StrandSpaces.ofStrands_rename]
      generalize StrandSpaces.ofStrands _ strands = spaces
      rw [show (spaces.rename r).unresolved = spaces.unresolved.map r.strand from rfl,
        List.isEmpty_map]
      cases spaces.unresolved.isEmpty with
      | false => rfl
      | true =>
        change constructions _ _ _ _ >>= _ = r.carry _ (constructions _ _ _ _ >>= _)
        rw [constructions_rename]
        refine r.carry_bind _ fun parts => ?_
        obtain ⟨statements, handles, table⟩ := parts
        have hresolve : ∀ t : TensorRef, resolveRef (handles.map (Prod.map (TensorRef.rename r) id))
            (t.rename r) = (resolveRef handles t).rename r := by
          intro t
          rw [resolveRef, resolveRef, Table.find?_prodMap (TensorRef.rename_injective r),
            Option.map_id, id]
          rcases Table.find? t handles with _ | handle <;> rfl
        have hbody := mapRefs_rename hresolve d
        refine congrArg Except.ok (Prod.ext ?_ rfl)
        change block [sealed (statements.map (rename r)), (d.rename r).mapRefs (resolveRef _)] =
          block [sealed (renameList r statements), (d.mapRefs (resolveRef handles)).rename r]
        rw [← hbody, renameList_eq]
        rfl

/-- The braidings of a renamed program get the same handles. -/
theorem constructBraidings_rename (hbraiding : r.name braidingName = braidingName)
    (table : HandleTable) (d : Diagram) :
    (d.rename r).constructBraidings braidingName (table.rename r) =
      r.carry (Prod.map (rename r) (HandleTable.rename r))
        (d.constructBraidings braidingName table) := by
  have hstatement := constructStatement_rename hbraiding
  induction d generalizing table with
  | block statements ih =>
    rw [rename, constructBraidings, constructBraidings,
      passList_rename r (constructBraidingsList braidingName) (fun _ => rfl) (fun _ _ _ => rfl) ih]
    exact r.carry_bind _ fun _ => rfl
  | control kind body ih =>
    rw [rename, constructBraidings, constructBraidings, ih]
    exact r.carry_bind _ fun _ => rfl
  | assign lhs rhs isDefinition => exact hstatement table (assign lhs rhs isDefinition)
  | ref t => exact hstatement table (ref t)
  | conj a => exact hstatement table (conj a)
  | sum sign a rest => exact hstatement table (sum sign a rest)
  | product a b rest => exact hstatement table (product a b rest)
  | _ => rfl

end

end Diagram

/-! ## Compilation -/

namespace Plan

/-- The plan with other indices and names, and with the same handles. -/
def rename (p : Plan) : Plan :=
  ⟨p.statements.map (Diagram.rename r), p.table.rename r⟩

/-- A renamed diagram is bound in the same way. -/
theorem bound_rename {options : Options}
    (hbraiding : r.name options.braidingName = options.braidingName) (d : Diagram) :
    bound options none (d.rename r) =
      r.carry (Prod.map (Binding.rename r) (HandleTable.rename r)) (bound options none d) := by
  rw [bound, bound, Diagram.pushConj, Diagram.pushConj, Diagram.binarize, Diagram.binarize,
    Diagram.adjointForm_rename, Diagram.nestProducts_rename]
  exact r.carry_bind _ fun d => d.bindNames_rename r hbraiding options.checkArity .empty

/-- The plan of a renamed body. -/
theorem ofLowered_rename (binding : Binding) (body : Diagram) (table : HandleTable) :
    (do
      let (body, table) ← (body.rename r).lowerStatements (table.rename r)
      return ofDiagram { binding.rename r with body := body }.toBlock table) =
      r.carry (rename r) (do
        let (body, table) ← body.lowerStatements table
        return ofDiagram { binding with body := body }.toBlock table) := by
  rw [Diagram.lowerStatements_rename]
  refine r.carry_bind _ fun lowered => congrArg Except.ok ?_
  obtain ⟨body, table⟩ := lowered
  have hblock := Binding.toBlock_rename r { binding with body := body }
  change ofDiagram (Binding.rename r { binding with body := body }).toBlock (table.rename r) = _
  rw [ofDiagram, hblock, Diagram.flatten_rename]
  rfl

/-- Compilation commutes with renaming. -/
theorem forBraided_rename {options : Options}
    (hbraiding : r.name options.braidingName = options.braidingName)
    (d : Diagram) : forBraided options none (d.rename r) = r.carry (rename r)
    (forBraided options none d) := by
  rw [forBraided, forBraided, bound_rename r hbraiding]
  refine r.carry_bind _ fun bound => ?_
  obtain ⟨binding, table⟩ := bound
  dsimp only [Prod.map_apply]
  rw [show (binding.rename r).body = binding.body.rename r from rfl,
    Diagram.constructBraidings_rename hbraiding]
  refine r.carry_bind _ fun constructed => ?_
  obtain ⟨body, table⟩ := constructed
  dsimp only [Prod.map_apply]
  have hlower := ofLowered_rename r binding body table
  cases options.checkPlanarity with
  | true =>
    change (body.rename r).checkPlanar >>= _ = r.carry _ (body.checkPlanar >>= _)
    rw [Diagram.checkPlanar_rename]
    exact r.carry_bind _ fun _ => hlower
  | false => exact hlower

/-- The compilation of a renamed diagram gives the renamed plan, or fails with an error of the same
kind.  The handles of the plan and the number of its temporaries are the same. -/
theorem forBraided_equivariant {options : Options}
    (hbraiding : r.name options.braidingName = options.braidingName) (d : Diagram) :
    (∀ p, forBraided options none d = .ok p →
      forBraided options none (d.rename r) = .ok (p.rename r) ∧
      (p.rename r).table.handles = p.table.handles ∧ (p.rename r).temporaries = p.temporaries) ∧
    ∀ e, forBraided options none d = .error e →
      ∃ e', forBraided options none (d.rename r) = .error e' ∧ e'.kind = e.kind := by
  have hrename := forBraided_rename r hbraiding d
  constructor
  · intro p hp
    rw [hp] at hrename
    refine ⟨hrename, p.table.handles_rename r, ?_⟩
    rw [temporaries, temporaries, HandleTable.temporaries, HandleTable.temporaries,
      HandleTable.handlesOf, HandleTable.handlesOf]
    exact congrArg _ (p.table.handles_rename r)
  · intro e he
    rw [he] at hrename
    exact ⟨e.rename r, hrename, e.kind_rename r⟩

end Plan

/-- A name and a number are exchanged among the indices, and two names among the objects. -/
def exchange : Renaming where
  index := Equiv.swap (.name "a") (.number 1)
  name := Equiv.swap "A" "E"
  index_injective := Equiv.injective _
  name_injective := Equiv.injective _

/-- Two legs of a tensor cross, and the result is paired with another tensor. -/
def crossedContraction : Diagram :=
  .assign (.ref ⟨.name "E", [.name "d"], [], false⟩)
    (.product (.ref ⟨.name "A", [.name "a", .number 1], [], false⟩)
      (.ref ⟨.name "τ", [.name "d", .name "c"], [.name "a", .number 1], false⟩)
      [.conj (.ref ⟨.name "B", [.name "c"], [], false⟩)]) true

/-- The traces of a tensor cross each other. -/
def crossedTracesAssignment : Diagram :=
  .assign (.ref ⟨.name "E", [.number 3], [], false⟩)
    (.pair (.ref ⟨.name "A", [.name "a", .number 1, .name "a", .number 1], [], false⟩)
      (.ref ⟨.name "B", [.number 3], [], false⟩)) true

/-- The crossed contraction is compiled under both names, and the crossed traces under neither. -/
theorem forBraided_equivariant_exchange :
    (∃ p, Plan.forBraided {} none crossedContraction = .ok p ∧
      Plan.forBraided {} none (crossedContraction.rename exchange) = .ok (p.rename exchange)) ∧
    ∃ e e', Plan.forBraided {} none crossedTracesAssignment = .error e ∧
      Plan.forBraided {} none (crossedTracesAssignment.rename exchange) = .error e' ∧
        e'.kind = e.kind := by
  have hbraiding : exchange.name ({} : Options).braidingName = ({} : Options).braidingName := by
    decide
  obtain ⟨p, hp⟩ := exists_of_isOk
    (show (Plan.forBraided {} none crossedContraction).isOk = true by decide +kernel)
  have hfails : (Plan.forBraided {} none crossedTracesAssignment).isOk = false := by decide +kernel
  refine ⟨⟨p, hp, ((Plan.forBraided_equivariant exchange hbraiding _).1 p hp).1⟩, ?_⟩
  cases he : Plan.forBraided {} none crossedTracesAssignment with
  | ok q =>
    rw [he] at hfails
    cases hfails
  | error e =>
    obtain ⟨e', he', hkind⟩ := (Plan.forBraided_equivariant exchange hbraiding _).2 e he
    exact ⟨e, e', rfl, he', hkind⟩

end TensorDiagram
