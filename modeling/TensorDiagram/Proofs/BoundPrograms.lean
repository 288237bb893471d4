import TensorDiagram.Proofs.LinearBraidings

/-!
# Bound programs are closed

Whether an object exists before a program is found out from its first reference: if it is used or
assigned to, it does.  So an object that a statement uses or assigns to exists already, or an
earlier statement has written it (`ObjectUse.Tracks`, `closedFrom_of_read`).

The objects that exist are bound at the start, and all other ones are written before they are used.
With handles in the place of objects a program is therefore closed, and what is checked and handed
back is there (`IsBoundProgram`).
-/

namespace TensorDiagram

variable {o : ObjectRef} {s : Diagram}

/-! ## Reading references -/

namespace ObjectUse

variable {braidingName : String} {known : List ObjectRef} {u u' : ObjectUse}

/-- Entering an object does not enter it twice. -/
theorem nodup_enter {objects : List ObjectRef} (h : objects.Nodup) : (enter o objects).Nodup := by
  rw [enter]
  split_ifs with ho
  · exact h
  · exact h.append (List.nodup_singleton o) (by simpa using ho)

/-- What the references read so far tell, when the objects in `known` have been written. -/
structure Tracks (braidingName : String) (known : List ObjectRef) (u : ObjectUse) : Prop where
  /-- No object is entered twice. -/
  nodup : u.objects.Nodup
  /-- Braidings are not entered. -/
  not_braiding : .name braidingName ∉ u.objects
  /-- What exists already has been entered. -/
  existing : u.existing ⊆ u.objects
  /-- An object that has been entered exists already or has been written. -/
  found : ∀ o ∈ u.objects, o ∈ u.existing ∨ o ∈ known
  /-- What is handed back has been written. -/
  exported : u.exported ⊆ known

/-- What a reference writes. -/
def written (r : Reference) : List ObjectRef :=
  if r.role = .use then [] else [r.term.object]

/-- Reading one more reference: what it uses or assigns to exists or has been written before. -/
theorem Tracks.read {r : Reference} (h : u.Tracks braidingName known)
    (hread : u.read braidingName r = .ok u') :
    u'.Tracks braidingName (known ++ written r) ∧ u.existing ⊆ u'.existing ∧
      (r.role ≠ .define → ¬ r.term.isBraiding braidingName = true →
        r.term.object ∈ u'.existing ++ known) := by
  rcases read_cases hread with ⟨hname, huse, rfl⟩ | ⟨hname, hobjects, hexisting, hexported⟩
  · rw [written, if_pos huse, List.append_nil]
    exact ⟨h, List.Subset.refl _, fun _ hnot => absurd (decide_eq_true hname) hnot⟩
  · have hkept : u.existing ⊆ u'.existing := fun o ho => (hexisting o).mpr (Or.inl ho)
    have hfound : ∀ o ∈ u.objects, o ∈ u'.existing ∨ o ∈ known := fun o ho =>
      (h.found o ho).imp_left fun he => hkept he
    -- an object that is used or assigned to is an old one, or it exists before
    have hobject : r.role ≠ .define → r.term.object ∈ u'.existing ∨ r.term.object ∈ known := by
      intro hdefine
      by_cases hold : r.term.object ∈ u.objects
      · exact hfound _ hold
      · exact Or.inl ((hexisting _).mpr (Or.inr ⟨rfl, hold, hdefine⟩))
    refine ⟨⟨?_, ?_, ?_, ?_, ?_⟩, hkept, fun hdefine _ => List.mem_append.mpr (hobject hdefine)⟩
    · rw [hobjects]
      exact nodup_enter h.nodup
    · rw [hobjects, mem_enter, not_or]
      exact ⟨h.not_braiding, fun heq => hname heq.symm⟩
    · intro o ho
      rw [hobjects, mem_enter]
      exact ((hexisting o).mp ho).imp (fun he => h.existing he) And.left
    · intro o ho
      rw [hobjects, mem_enter] at ho
      rw [List.mem_append]
      rcases ho with ho | rfl
      · exact (hfound o ho).imp_right Or.inl
      · by_cases hdefine : r.role = .define
        · exact Or.inr (Or.inr (by simp [written, hdefine]))
        · exact (hobject hdefine).imp_right Or.inl
    · intro o ho
      rw [List.mem_append]
      refine ((hexported o).mp ho).imp (fun he => h.exported he) ?_
      rintro ⟨rfl, hrole⟩
      rw [written, if_neg hrole]
      exact List.mem_singleton_self _

/-- Reading references that only use objects. -/
theorem Tracks.foldlM_uses {references : List Reference} (h : u.Tracks braidingName known)
    (huses : ∀ r ∈ references, r.role = .use)
    (hread : references.foldlM (ObjectUse.read braidingName) u = .ok u') :
    u'.Tracks braidingName known ∧ u.existing ⊆ u'.existing ∧
      ∀ r ∈ references, ¬ r.term.isBraiding braidingName = true →
        r.term.object ∈ u'.existing ++ known := by
  induction references generalizing u with
  | nil =>
    obtain rfl := Except.ok.inj hread
    exact ⟨h, List.Subset.refl _, by simp⟩
  | cons r references ih =>
    obtain ⟨hr, huses⟩ := List.forall_mem_cons.mp huses
    rw [List.foldlM_cons] at hread
    obtain ⟨u₁, hfirst, hread⟩ := bind_eq_ok_iff.mp hread
    obtain ⟨htracks, hexisting, hobject⟩ := h.read hfirst
    rw [written, if_pos hr, List.append_nil] at htracks
    obtain ⟨htracks', hexisting', hobjects⟩ := ih htracks huses hread
    refine ⟨htracks', List.Subset.trans hexisting hexisting',
      List.forall_mem_cons.mpr ⟨fun hbraiding => ?_, hobjects⟩⟩
    exact append_subset_append hexisting' (List.Subset.refl _) (hobject (by simp [hr]) hbraiding)

end ObjectUse

namespace Diagram

open ObjectUse

variable {braidingName : String} {known : List ObjectRef} {u u' : ObjectUse}

/-- Reading the references of a statement. -/
theorem IsStatement.tracks (hs : s.IsStatement IsPrepared) (h : u.Tracks braidingName known)
    (hread : s.references.foldlM (ObjectUse.read braidingName) u = .ok u') :
    u'.Tracks braidingName (known ++ s.writes) ∧ u.existing ⊆ u'.existing ∧
      s.sources braidingName ⊆ u'.existing ++ known := by
  have huses : ∀ d statement : Diagram, ∀ r ∈ d.uses statement, r.role = .use := by
    intro d statement r hr
    obtain ⟨t, -, rfl⟩ := List.mem_map.mp hr
    rfl
  have hsources : ∀ {references : List Reference}, s.references = references →
      (∀ r ∈ references, r.role ≠ .define → ¬ r.term.isBraiding braidingName = true →
        r.term.object ∈ u'.existing ++ known) → s.sources braidingName ⊆ u'.existing ++ known := by
    intro references heq hall o ho
    obtain ⟨r, hr, hrole, hbraiding, rfl⟩ := mem_sources.mp ho
    exact hall r (heq ▸ hr) hrole hbraiding
  cases hs with
  | @assign rhs lhs isDefinition _ =>
    rcases assign_lhs_cases lhs rhs isDefinition with ⟨t, rfl⟩ | ⟨hreferences, hwrites⟩
    · have hreferences : (Diagram.assign (.ref t) rhs isDefinition).references = rhs.uses _ ++
          [⟨t, assignRole isDefinition, .assign (.ref t) rhs isDefinition⟩] :=
        references_assign _ _ _
      rw [hreferences, List.foldlM_append] at hread
      obtain ⟨u₁, hrhs, hread⟩ := bind_eq_ok_iff.mp hread
      rw [List.foldlM_cons] at hread
      obtain ⟨u₂, hlhs, hpure⟩ := bind_eq_ok_iff.mp hread
      obtain rfl := Except.ok.inj hpure
      obtain ⟨htracks, hexisting, hobjects⟩ := h.foldlM_uses (huses _ _) hrhs
      obtain ⟨htracks', hexisting', hobject⟩ := htracks.read hlhs
      have hwritten : written ⟨t, assignRole isDefinition, .assign (.ref t) rhs isDefinition⟩ =
          [t.object] := by
        cases isDefinition <;> rfl
      rw [hwritten] at htracks'
      refine ⟨htracks', List.Subset.trans hexisting hexisting',
        hsources hreferences (List.forall_mem_append.mpr
        ⟨fun r hr _ hbraiding => ?_, List.forall_mem_singleton.mpr hobject⟩)⟩
      exact append_subset_append hexisting' (List.Subset.refl _) (hobjects r hr hbraiding)
    · rw [hreferences] at hread
      obtain ⟨htracks, hexisting, hobjects⟩ := h.foldlM_uses (huses _ _) hread
      rw [hwrites, List.append_nil]
      exact ⟨htracks, hexisting, hsources hreferences fun r hr _ => hobjects r hr⟩
  | expression hexpression _ =>
    have hreferences := references_of_isExpression hexpression
    rw [hreferences] at hread
    obtain ⟨htracks, hexisting, hobjects⟩ := h.foldlM_uses (huses _ _) hread
    rw [writes_of_isExpression hexpression, List.append_nil]
    exact ⟨htracks, hexisting, hsources hreferences fun r hr _ => hobjects r hr⟩

/-- Reading the references of statements: what they use or assign to exists already or was written
before. -/
theorem closedFrom_of_read {statements : List Diagram}
    (hstatements : ∀ s ∈ statements, s.IsStatement IsPrepared) (h : u.Tracks braidingName known)
    (hread : (statements.flatMap references).foldlM (ObjectUse.read braidingName) u = .ok u') :
    u'.Tracks braidingName (known ++ statements.flatMap writes) ∧ u.existing ⊆ u'.existing ∧
      ClosedFrom (sources braidingName) (u'.existing ++ known) statements := by
  induction statements generalizing u known with
  | nil =>
    obtain rfl := Except.ok.inj hread
    exact ⟨by rwa [List.flatMap_nil, List.append_nil], List.Subset.refl _, trivial⟩
  | cons s statements ih =>
    obtain ⟨hs, hstatements⟩ := List.forall_mem_cons.mp hstatements
    rw [List.flatMap_cons, List.foldlM_append] at hread
    obtain ⟨u₁, hfirst, hread⟩ := bind_eq_ok_iff.mp hread
    obtain ⟨htracks, hexisting, hsources⟩ := hs.tracks h hfirst
    obtain ⟨htracks', hexisting', hclosed⟩ := ih hstatements htracks hread
    refine ⟨by rwa [List.flatMap_cons, ← List.append_assoc],
      List.Subset.trans hexisting hexisting', ?_, ?_⟩
    · exact List.Subset.trans hsources (append_subset_append hexisting' (List.Subset.refl _))
    · rwa [List.append_assoc]

end Diagram

/-! ## Bound programs -/

/-- Asking for the handle of an object creates it, or nothing. -/
theorem HandleTable.exists_grows_handleFor (table : HandleTable) (o : ObjectRef) :
    ∃ hs, table.Grows hs (table.handleFor o).2 ∧ ∀ h ∈ hs, h.kind = .object := by
  rw [handleFor]
  rcases table.handleFor? o with _ | h
  · exact ⟨_, (Grows.refl table).create .object (some o), by simp [next]⟩
  · exact ⟨[], .refl table, by simp⟩

namespace Binding

theorem keys_handleAll (table : HandleTable) (objects : List ObjectRef) :
    Table.keys (handleAll table objects).1 = objects := by
  induction objects generalizing table with
  | nil => rfl
  | cons o objects ih => exact congrArg (o :: ·) (ih _)

theorem handleAll_grows (table : HandleTable) (objects : List ObjectRef) :
    ∃ hs, table.Grows hs (handleAll table objects).2 ∧ ∀ h ∈ hs, h.kind = .object := by
  induction objects generalizing table with
  | nil => exact ⟨[], .refl table, by simp⟩
  | cons o objects ih =>
    obtain ⟨hs₁, hgrows₁, hkind₁⟩ := table.exists_grows_handleFor o
    obtain ⟨hs, hgrows, hkind⟩ := ih (table.handleFor o).2
    exact ⟨hs₁ ++ hs, hgrows₁.trans hgrows, List.forall_mem_append.mpr ⟨hkind₁, hkind⟩⟩

/-- An object is bound to its handle, unless it is a braiding. -/
def boundObject (braidingName : String) (handles : Table ObjectRef Handle) (o : ObjectRef) :
    ObjectRef :=
  if o = .name braidingName then o else ((handles.find? o).map .handle).getD o

theorem bindRef_eq (braidingName : String) (handles : Table ObjectRef Handle) (t : TensorRef) :
    bindRef braidingName handles t = t.withObject (boundObject braidingName handles t.object) := by
  rw [bindRef, boundObject, TensorRef.isBraiding]
  by_cases h : t.object = .name braidingName
  · simp [h, TensorRef.withObject]
    cases t
    simp_all
  · rw [if_neg (by simpa using h), if_neg h]
    rcases handles.find? t.object with _ | handle <;> rfl

theorem boundObject_eq_iff (braidingName : String) (handles : Table ObjectRef Handle)
    (o : ObjectRef) :
    boundObject braidingName handles o = .name braidingName ↔ o = .name braidingName := by
  rw [boundObject]
  split_ifs with h
  · exact Iff.rfl
  · rcases handles.find? o with _ | handle <;> simp [h]

end Binding

namespace Diagram

variable {d : Diagram} {binding : Binding} {options : Options} {table table' : HandleTable}

section MapRefs

variable {s : Diagram} (hs : s.IsStatement IsPrepared) {f : TensorRef → TensorRef}

include hs

/-- References are replaced one by one and keep their parts. -/
theorem IsStatement.exists_of_mem_references {r' : Reference} (h : r' ∈ (s.mapRefs f).references) :
    ∃ r ∈ s.references, r'.term = f r.term ∧ r'.role = r.role := by
  have huses : ∀ {d statement statement' : Diagram}, d.IsNormal →
      r' ∈ (d.mapRefs f).uses statement' → ∃ r ∈ d.uses statement, r'.term = f r.term ∧
      r'.role = r.role := by
    intro d statement statement' hd hr'
    rw [uses, tensors_mapRefs] at hr'
    obtain ⟨_, hmap, rfl⟩ := List.mem_map.mp hr'
    obtain ⟨t, ht, rfl⟩ := List.mem_map.mp hmap
    exact ⟨⟨t, .use, statement⟩, List.mem_map_of_mem ht, rfl, rfl⟩
  cases hs with
  | @assign rhs lhs isDefinition hrhs =>
    rw [Diagram.mapRefs, references_assign] at h
    rw [references_assign]
    rcases List.mem_append.mp h with h | h
    · obtain ⟨r, hr, heq⟩ := huses hrhs.1 h
      exact ⟨r, List.mem_append_left _ hr, heq⟩
    · cases lhs with
      | ref t =>
        obtain rfl := List.mem_singleton.mp h
        exact ⟨_, List.mem_append_right _ (List.mem_singleton_self _), rfl, rfl⟩
      | _ => cases h
  | expression hexpression hd =>
    rw [references_of_isExpression (hd.1.mapRefs f).isExpression_eq] at h
    rw [references_of_isExpression hexpression]
    exact huses hd.1 h

theorem IsStatement.mapRefs_writes_eq {g : ObjectRef → ObjectRef}
    (hf : ∀ t, f t = t.withObject (g t.object)) : (s.mapRefs f).writes = s.writes.map g := by
  cases hs with
  | @assign rhs lhs isDefinition _ =>
    cases lhs with
    | ref t =>
      rw [Diagram.mapRefs, Diagram.mapRefs, hf]
      rfl
    | _ => rfl
  | expression hexpression hd =>
    rw [writes_of_isExpression (hd.1.mapRefs f).isExpression_eq,
      writes_of_isExpression hexpression, List.map_nil]

/-- What is written is the object of a reference that is not just used. -/
theorem IsStatement.exists_of_mem_writes (ho : o ∈ s.writes) :
    ∃ r ∈ s.references, r.role ≠ .use ∧ r.term.object = o := by
  cases hs with
  | @assign rhs lhs isDefinition _ =>
    rcases assign_lhs_cases lhs rhs isDefinition with ⟨t, rfl⟩ | ⟨-, hwrites⟩
    · rw [references_assign]
      refine ⟨⟨t, assignRole isDefinition, _⟩, List.mem_append_right _ (List.mem_singleton_self _),
        ?_, (List.mem_singleton.mp ho).symm⟩
      cases isDefinition <;> simp [assignRole]
    · rw [hwrites] at ho
      cases ho
  | expression hexpression _ =>
    rw [writes_of_isExpression hexpression] at ho
    cases ho

/-- All references of a statement can be replaced. -/
theorem IsStatement.term_mem_allRefs {r : Reference} (hr : r ∈ s.references) :
    r.term ∈ s.allRefs := by
  cases hs with
  | @assign rhs lhs isDefinition hrhs =>
    rw [references_assign] at hr
    rw [allRefs, List.mem_append]
    rcases List.mem_append.mp hr with hr | hr
    · obtain ⟨t, ht, rfl⟩ := List.mem_map.mp hr
      exact Or.inr (hrhs.1.allRefs_eq ▸ ht)
    · cases lhs with
      | ref t =>
        obtain rfl := List.mem_singleton.mp hr
        exact Or.inl (List.mem_singleton_self _)
      | _ => cases hr
  | expression hexpression hd =>
    rw [references_of_isExpression hexpression] at hr
    obtain ⟨t, ht, rfl⟩ := List.mem_map.mp hr
    exact hd.1.allRefs_eq ▸ ht

end MapRefs

theorem IsTree.allRefs_subset {Rhs : Diagram → Prop} (hd : d.IsTree (IsStatement Rhs)) :
    ∀ s ∈ d.flatten, s.allRefs ⊆ d.allRefs := by
  induction hd with
  | leaf hs =>
    rw [hs.flatten_eq]
    simp
  | block _ ih =>
    intro s hs
    rw [flatten, flattenList_eq] at hs
    obtain ⟨d, hd, hs⟩ := List.mem_flatMap.mp hs
    rw [allRefs, allRefsList_eq]
    exact fun t ht => List.mem_flatMap.mpr ⟨d, hd, ih d hd s hs ht⟩

/-- What holds of all statements of a tree holds of its leaves. -/
theorem IsTree.of_forall {Rhs P : Diagram → Prop} (hd : d.IsTree (IsStatement Rhs))
    (h : ∀ s ∈ d.flatten, P s) : d.IsTree fun s => s.IsStatement Rhs ∧ P s := by
  induction hd with
  | leaf hs =>
    rw [hs.flatten_eq, List.forall_mem_singleton] at h
    exact .leaf ⟨hs, h⟩
  | block _ ih =>
    rw [flatten, flattenList_eq] at h
    exact .block fun d hd => ih d hd fun s hs => h s (List.mem_flatMap.mpr ⟨d, hd, hs⟩)

/-- Statements in which all objects are replaced are closed if they were. -/
theorem ClosedFrom.map {needs : Diagram → List ObjectRef} {g : Diagram → Diagram}
    {φ : ObjectRef → ObjectRef} {known : List ObjectRef} {statements : List Diagram}
    (h : ClosedFrom needs known statements)
    (hneeds : ∀ s ∈ statements, needs (g s) ⊆ (needs s).map φ)
    (hwrites : ∀ s ∈ statements, (g s).writes = s.writes.map φ) :
    ClosedFrom needs (known.map φ) (statements.map g) := by
  induction statements generalizing known with
  | nil => trivial
  | cons s statements ih =>
    obtain ⟨hs, hneeds⟩ := List.forall_mem_cons.mp hneeds
    obtain ⟨hws, hwrites⟩ := List.forall_mem_cons.mp hwrites
    refine ⟨List.Subset.trans hs (List.map_subset φ h.1), ?_⟩
    rw [hws, ← List.map_append]
    exact ih h.2 hneeds hwrites

/-- A program whose objects are bound. -/
structure IsBoundProgram (braidingName : String) (binding : Binding) : Prop where
  /-- The body is a tree of statements that do not assign to braidings. -/
  tree : binding.body.IsTree (IsConstructible braidingName)
  /-- All that the body writes, uses or assigns to are handles of objects. -/
  bound : ∀ s ∈ binding.body.flatten, ∀ o, o ∈ s.writes ∨ o ∈ s.sources braidingName →
    IsBoundObject o
  /-- What the body uses or assigns to is bound at the start or written before. -/
  closed : ClosedFrom (sources braidingName) (binding.prologue.flatMap writes) binding.body.flatten
  /-- Objects are bound at the start. -/
  prologue : ∀ s ∈ binding.prologue, ∃ h o, s = bind h o ∧ h.kind = .object
  /-- Only objects that are bound at the start are checked. -/
  checks : ∀ s ∈ binding.checks, ∃ h o m n, s = checkArity h o m n ∧
    .handle h ∈ binding.prologue.flatMap writes
  /-- Only objects that the body writes are handed back. -/
  epilogue : ∀ s ∈ binding.epilogue, ∃ o h, s = exportAs o h ∧
    .handle h ∈ binding.body.flatten.flatMap writes

section Bound

variable {handles : Table ObjectRef Handle}

/-- The handle that a name is bound to. -/
theorem boundObject_eq {h : Handle} (hname : o ≠ .name braidingName)
    (hfind : handles.find? o = some h) :
    Binding.boundObject braidingName handles o = .handle h := by
  rw [Binding.boundObject, if_neg hname, hfind]
  rfl

/-- A bound statement needs what the statement needed. -/
theorem IsStatement.sources_bindRef (hs : s.IsStatement IsPrepared) :
    (s.mapRefs (Binding.bindRef braidingName handles)).sources braidingName ⊆
      (s.sources braidingName).map (Binding.boundObject braidingName handles) := by
  intro o ho
  obtain ⟨r', hr', hrole, hbraiding, rfl⟩ := mem_sources.mp ho
  obtain ⟨r, hr, hterm, hrole'⟩ := hs.exists_of_mem_references hr'
  have hnot : ¬ r.term.isBraiding braidingName = true := by
    intro hr
    rw [hterm, Binding.bindRef, if_pos hr] at hbraiding
    exact hbraiding hr
  refine List.mem_map.mpr ⟨r.term.object, mem_sources.mpr ⟨r, hr, hrole' ▸ hrole, hnot, rfl⟩, ?_⟩
  rw [hterm, Binding.bindRef_eq]
  rfl

variable {d : Diagram} (hd : d.IsTree (IsStatement IsPrepared))
  (hroles : ∀ r ∈ d.references, r.role ≠ .use → ¬ r.term.isBraiding braidingName = true)
  (hall : ∀ t ∈ d.allRefs, ¬ t.isBraiding braidingName = true →
    ∃ h : Handle, h.kind = .object ∧ handles.find? t.object = some h)

include hd hroles hall

/-- All that a bound program writes, uses or assigns to are handles of objects. -/
theorem IsTree.isBoundObject_of_mem (hs : s ∈ d.flatten)
    (ho : o ∈ s.writes ∨ o ∈ s.sources braidingName) :
    IsBoundObject (Binding.boundObject braidingName handles o) := by
  have hstatement := hd.isStatement_of_mem s hs
  have hreference : ∀ r ∈ s.references, ¬ r.term.isBraiding braidingName = true →
      IsBoundObject (Binding.boundObject braidingName handles r.term.object) := by
    intro r hr hbraiding
    obtain ⟨h, hkind, hfind⟩ :=
      hall r.term (hd.allRefs_subset s hs (hstatement.term_mem_allRefs hr)) hbraiding
    rw [boundObject_eq (fun heq => hbraiding (decide_eq_true heq)) hfind]
    exact hkind
  rcases ho with ho | ho
  · obtain ⟨r, hr, hrole, rfl⟩ := hstatement.exists_of_mem_writes ho
    refine hreference r hr (hroles r ?_ hrole)
    rw [hd.references_eq]
    exact List.mem_flatMap.mpr ⟨s, hs, hr⟩
  · obtain ⟨r, hr, -, hbraiding, rfl⟩ := mem_sources.mp ho
    exact hreference r hr hbraiding

end Bound

/-- The parts of a bound diagram, with what has been found out about its objects. -/
theorem exists_of_bindNames {checkArity : Bool}
    (h : d.bindNames options checkArity table = .ok (binding, table')) :
    ∃ use handles, d.references.foldlM (ObjectUse.read options.braidingName) ⟨[], [], []⟩ =
      .ok use ∧ Binding.handleAll table use.objects = (handles, table') ∧
      (∀ t ∈ d.allRefs, ¬ t.isBraiding options.braidingName = true →
        ∃ h : Handle, h.kind = .object ∧ handles.find? t.object = some h) ∧
      binding.body = d.mapRefs (Binding.bindRef options.braidingName handles) ∧
      (∀ s, s ∈ binding.prologue ↔ ∃ o h, (o, h) ∈ handles ∧ o ∈ use.existing ∧ s = .bind h o) ∧
      (∀ s ∈ binding.checks, ∃ r, Binding.arityCheck? options.braidingName use handles r = some s) ∧
      ∀ s ∈ binding.epilogue, ∃ o h, (o, h) ∈ handles ∧ o ∈ use.exported ∧ s = .exportAs o h := by
  obtain ⟨use, handles, huse, hhandles, hall, rfl⟩ := bindNames_eq_ok_iff.mp h
  refine ⟨use, handles, huse, hhandles, fun t ht hbraiding => ?_, rfl, fun s => ?_, fun s hs => ?_,
    fun s hs => ?_⟩
  · obtain ⟨handle, hfind⟩ := Option.isSome_iff_exists.mp (hall t ht hbraiding)
    have hmem : (t.object, handle) ∈ (Binding.handleAll table use.objects).1 := by
      rw [hhandles]
      exact Table.mem_of_find?_eq_some hfind
    exact ⟨handle, Binding.kind_of_mem_handleAll hmem, hfind⟩
  · rw [List.mem_filterMap]
    constructor
    · rintro ⟨⟨o, handle⟩, hentry, hs⟩
      split_ifs at hs with hexisting
      exact ⟨o, handle, hentry, hexisting, (Option.some.inj hs).symm⟩
    · rintro ⟨o, handle, hentry, hexisting, rfl⟩
      exact ⟨(o, handle), hentry, if_pos hexisting⟩
  · dsimp only at hs
    split_ifs at hs
    · obtain ⟨r, -, hr⟩ := List.mem_filterMap.mp hs
      exact ⟨r, hr⟩
    · cases hs
  · obtain ⟨⟨o, handle⟩, hentry, hs⟩ := List.mem_filterMap.mp hs
    split_ifs at hs with hexported
    exact ⟨o, handle, hentry, hexported, (Option.some.inj hs).symm⟩

/-- Binding the objects of a program. -/
theorem isBoundProgram_of_bindNames {checkArity : Bool} (hd : d.IsTree (IsStatement IsPrepared))
    (h : d.bindNames options checkArity table = .ok (binding, table')) :
    IsBoundProgram options.braidingName binding ∧ ∃ hs, table.Grows hs table' ∧
      ∀ h ∈ hs, h.kind = .object := by
  obtain ⟨use, handles, huse, hhandles, hall, hbody, hprologue, hchecks, hepilogue⟩ :=
    exists_of_bindNames h
  have hroles := ObjectUse.not_isBraiding_of_foldlM huse
  rw [hd.references_eq] at huse
  obtain ⟨htracks, -, hclosed⟩ := closedFrom_of_read hd.isStatement_of_mem
    ⟨List.nodup_nil, by simp, by simp, by simp, List.nil_subset _⟩ huse
  rw [List.append_nil] at hclosed
  rw [List.nil_append] at htracks
  have hkeys := Binding.keys_handleAll table use.objects
  have hgrows := Binding.handleAll_grows table use.objects
  rw [hhandles] at hkeys hgrows
  dsimp only at hkeys hgrows
  have hfind : ∀ {o h}, (o, h) ∈ handles → handles.find? o = some h :=
    Table.find?_eq_some_of_mem (hkeys ▸ htracks.nodup)
  have hbound : ∀ {o h}, (o, h) ∈ handles →
      Binding.boundObject options.braidingName handles o = .handle h := by
    intro o h hentry
    refine boundObject_eq (fun heq => htracks.not_braiding ?_) (hfind hentry)
    rw [← heq, ← hkeys]
    exact List.mem_map_of_mem (f := Prod.fst) hentry
  have hexisting : ∀ {o h}, (o, h) ∈ handles → o ∈ use.existing →
      .handle h ∈ binding.prologue.flatMap writes :=
    fun hentry ho => List.mem_flatMap.mpr ⟨_, (hprologue _).mpr ⟨_, _, hentry, ho, rfl⟩,
      List.mem_singleton_self _⟩
  have hstatements := hd.isStatement_of_mem
  have hflat : binding.body.flatten =
      d.flatten.map (mapRefs (Binding.bindRef options.braidingName handles)) := by
    rw [hbody, hd.flatten_mapRefs]
  have hwrites : ∀ s ∈ d.flatten,
      (s.mapRefs (Binding.bindRef options.braidingName handles)).writes =
      s.writes.map (Binding.boundObject options.braidingName handles) := fun s hs =>
    (hstatements s hs).mapRefs_writes_eq (Binding.bindRef_eq _ _)
  have hobjects : ∀ s ∈ binding.body.flatten, ∀ o, o ∈ s.writes ∨
      o ∈ s.sources options.braidingName → IsBoundObject o := by
    rw [hflat, List.forall_mem_map]
    intro s hs o ho
    have hmem : o ∈ (s.writes ++ s.sources options.braidingName).map
        (Binding.boundObject options.braidingName handles) := by
      rw [List.map_append, List.mem_append, ← hwrites s hs]
      exact ho.imp_right fun ho => (hstatements s hs).sources_bindRef ho
    obtain ⟨o', ho', rfl⟩ := List.mem_map.mp hmem
    exact hd.isBoundObject_of_mem hroles hall hs (List.mem_append.mp ho')
  refine ⟨⟨?_, hobjects, ?_, fun s hs => ?_, fun s hs => ?_, fun s hs => ?_⟩, hgrows⟩
  · refine IsTree.of_forall (by rw [hbody]; exact hd.mapRefs _) fun s hs hmem => ?_
    exact hobjects s hs _ (Or.inl hmem)
  · rw [hflat]
    refine (hclosed.map (fun s hs => (hstatements s hs).sources_bindRef) hwrites).mono
      fun o ho => ?_
    obtain ⟨o', ho', rfl⟩ := List.mem_map.mp ho
    have hkey : o' ∈ handles.keys := by
      rw [hkeys]
      exact htracks.existing ho'
    obtain ⟨⟨o'', h⟩, hentry, rfl⟩ := List.mem_map.mp hkey
    rw [hbound hentry]
    exact hexisting hentry ho'
  · obtain ⟨o, h, hentry, -, rfl⟩ := (hprologue s).mp hs
    exact ⟨h, o, rfl, Binding.kind_of_mem_handleAll (by rw [hhandles]; exact hentry)⟩
  · obtain ⟨r, hr⟩ := hchecks s hs
    rw [Binding.arityCheck?] at hr
    split_ifs at hr with hnone hadjoint
    all_goals
      obtain ⟨h, hh, rfl⟩ := Option.map_eq_some_iff.mp hr
      push Not at hnone
      exact ⟨h, _, _, _, rfl, hexisting (Table.mem_of_find?_eq_some hh) hnone.2.1⟩
  · obtain ⟨o, h, hentry, hexported, rfl⟩ := hepilogue s hs
    refine ⟨o, h, rfl, ?_⟩
    obtain ⟨s, hs, ho⟩ := List.mem_flatMap.mp (htracks.exported hexported)
    rw [hflat, List.flatMap_map]
    refine List.mem_flatMap.mpr ⟨s, hs, ?_⟩
    rw [hwrites s hs, ← hbound hentry]
    exact List.mem_map_of_mem ho

end Diagram

end TensorDiagram
