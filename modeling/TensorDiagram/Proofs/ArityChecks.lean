import TensorDiagram.Proofs.Citations
import TensorDiagram.Proofs.ClosedRuns

/-!
# Checks of numbers of legs

A plan begins by binding the objects that exist to their handles, each to a handle of its own.  Then
it checks every citation of such an object that does not define it, in order of evaluation.  These
statements leave the scope and the results as they are (`Machine.BindsAll`), so a check sees the
object that was passed in.

If a citation gives an object other numbers of outputs and inputs than it has, then the first such
citation stops the run before anything is computed, and running the checks alone ends in the same
way (`Plan.arity_checks_stop_at_first_misuse`).
-/

namespace TensorDiagram

variable {c : Citation} {s : Diagram} {braidingName : String}

/-! ## Handles of objects -/

namespace HandleTable

/-- A new handle of an object is found for it, unless it had one before, and for no other object. -/
theorem handleFor?_create (table : HandleTable) (o o' : ObjectRef) :
    (table.create .object (some o)).2.handleFor? o' =
      (table.handleFor? o').or (if o = o' then some (table.next .object) else none) := by
  have hnamed : (table.create .object (some o)).2.namedObjects =
      table.namedObjects ++ [(o, table.next .object)] := by
    simp [namedObjects, create, next]
  rw [handleFor?, handleFor?, hnamed, List.find?_append, Option.map_or]
  by_cases h : o = o' <;> simp [h]

end HandleTable

namespace Binding

variable {objects : List ObjectRef}

/-- Objects that are new to a table get new handles. -/
theorem handleAll_grows_of_new {table : HandleTable} (hnodup : objects.Nodup)
    (hnew : ∀ o ∈ objects, table.handleFor? o = none) :
    table.Grows ((handleAll table objects).1.map Prod.snd) (handleAll table objects).2 := by
  induction objects generalizing table with
  | nil => exact .refl table
  | cons o objects ih =>
    obtain ⟨ho, hnodup⟩ := List.nodup_cons.mp hnodup
    obtain ⟨hfirst, hnew⟩ := List.forall_mem_cons.mp hnew
    have hcreate : table.handleFor o = table.create .object (some o) := by
      rw [HandleTable.handleFor, hfirst]
    have hgrows := (HandleTable.Grows.refl table).create .object (some o)
    have hstill : ∀ o' ∈ objects, (table.create .object (some o)).2.handleFor? o' = none := by
      intro o' ho'
      have hne : o' ≠ o := fun heq => ho (heq ▸ ho')
      rw [HandleTable.handleFor?_create, if_neg hne.symm, Option.or_none]
      exact hnew o' ho'
    have hrest := ih hnodup hstill
    simp only [handleAll, hcreate]
    exact hgrows.trans hrest

/-- Different objects have different handles. -/
theorem nodup_handles (h : objects.Nodup) : ((handleAll .empty objects).1.map Prod.snd).Nodup := by
  have hgrows : HandleTable.Grows .empty _ _ := handleAll_grows_of_new h fun _ _ => rfl
  have hnodup := (HandleTable.isNumbered_empty.grow hgrows).nodup .object
  rw [hgrows.handlesOf_eq] at hnodup
  have hall : ((handleAll .empty objects).1.map Prod.snd).filter (·.kind = .object) =
      (handleAll .empty objects).1.map Prod.snd :=
    List.filter_eq_self.mpr (List.forall_mem_map.mpr fun _ hentry =>
      decide_eq_true (kind_of_mem_handleAll hentry))
  rw [hall] at hnodup
  exact hnodup.of_append_right

/-- The statement that binds an object to its handle. -/
def bindStatement (entry : ObjectRef × Handle) : Diagram :=
  .bind entry.2 entry.1

/-- The statement that hands back an object. -/
def exportStatement (entry : ObjectRef × Handle) : Diagram :=
  .exportAs entry.1 entry.2

/-- The check of a citation, if there is one. -/
def citationCheck? (braidingName : String) (existing : List ObjectRef)
    (handles : Table ObjectRef Handle) (c : Citation) : Option Diagram :=
  if c.object = .name braidingName ∨ c.object ∉ existing ∨ c.role = .define then none
  else (handles.find? c.object).map fun handle => .checkArity handle c.object c.arity.1 c.arity.2

theorem arityCheck?_eq (braidingName : String) (use : ObjectUse) (handles : Table ObjectRef Handle)
    (r : Reference) :
    arityCheck? braidingName use handles r = citationCheck? braidingName use.existing handles
      r.citation := by
  rw [arityCheck?, citationCheck?]
  simp only [TensorRef.isBraiding, decide_eq_true_eq]
  refine if_congr Iff.rfl rfl ?_
  rcases hadjoint : r.term.isAdjoint <;>
    simp [Reference.citation, TensorRef.arity, TensorRef.flipped, hadjoint]

theorem exists_of_citationCheck? {existing : List ObjectRef} {handles : Table ObjectRef Handle}
    (h : citationCheck? braidingName existing handles c = some s) :
    c.object ≠ .name braidingName ∧ c.object ∈ existing ∧ c.role ≠ .define ∧
      ∃ handle, handles.find? c.object = some handle ∧
        s = .checkArity handle c.object c.arity.1 c.arity.2 := by
  rw [citationCheck?] at h
  split_ifs at h with hnone
  push Not at hnone
  obtain ⟨handle, hfind, rfl⟩ := Option.map_eq_some_iff.mp h
  exact ⟨hnone.1, hnone.2.1, hnone.2.2, handle, hfind, rfl⟩

theorem filterMap_ite_eq (handles : Table ObjectRef Handle) (f : ObjectRef × Handle → Diagram) :
    (handles.filterMap fun entry => if entry.1 ∈ objects then some (f entry) else none) =
      (handles.filter (·.1 ∈ objects)).map f := by
  induction handles with
  | nil => rfl
  | cons entry handles ih => by_cases h : entry.1 ∈ objects <;> simp [h, ih]

end Binding

namespace ObjectUse

/-- The handles of the objects. -/
def handles (u : ObjectUse) : Table ObjectRef Handle :=
  (Binding.handleAll .empty u.objects).1

/-- The objects that exist, with their handles. -/
def inputs (u : ObjectUse) : List (ObjectRef × Handle) :=
  u.handles.filter (·.1 ∈ u.existing)

/-- The objects that are handed back, with their handles. -/
def outputs (u : ObjectUse) : List (ObjectRef × Handle) :=
  u.handles.filter (·.1 ∈ u.exported)

/-- The checks of the citations of objects that exist. -/
def checks (u : ObjectUse) (options : Options) (d : Diagram) : List Diagram :=
  if options.checkArity then d.citations.filterMap
    (Binding.citationCheck? options.braidingName u.existing u.handles)
  else []

/-- The diagram with its objects bound. -/
def toBinding (u : ObjectUse) (options : Options) (d : Diagram) : Binding where
  objects := u.objects
  body := d.mapRefs (Binding.bindRef options.braidingName u.handles)
  prologue := u.inputs.map Binding.bindStatement
  checks := u.checks options d
  epilogue := u.outputs.map Binding.exportStatement

/-- The statements of a plan. -/
theorem flatten_toBlock (u : ObjectUse) (options : Options) (d body : Diagram) :
    { u.toBinding options d with body := body }.toBlock.flatten =
      u.inputs.map Binding.bindStatement ++
        (u.checks options d ++ (body.flatten ++ u.outputs.map Binding.exportStatement)) := by
  have hprologue : Diagram.flattenList (u.inputs.map Binding.bindStatement) =
      u.inputs.map Binding.bindStatement :=
    Diagram.flattenList_eq_self (List.forall_mem_map.mpr fun _ _ => rfl)
  have hepilogue : Diagram.flattenList (u.outputs.map Binding.exportStatement) =
      u.outputs.map Binding.exportStatement :=
    Diagram.flattenList_eq_self (List.forall_mem_map.mpr fun _ _ => rfl)
  have hchecks : Diagram.flattenList (u.checks options d) = u.checks options d := by
    refine Diagram.flattenList_eq_self fun s hs => ?_
    rw [checks] at hs
    split_ifs at hs
    · obtain ⟨c, -, hc⟩ := List.mem_filterMap.mp hs
      obtain ⟨-, -, -, handle, -, rfl⟩ := Binding.exists_of_citationCheck? hc
      rfl
    · cases hs
  simp only [toBinding, Binding.toBlock, Diagram.flatten, Diagram.flattenList, hprologue,
    hchecks, hepilogue, List.append_nil]

theorem exists_tracks_of_foldlM {references : List Reference} {u u' : ObjectUse}
    {known : List ObjectRef} (hu : u.Tracks braidingName known)
    (h : references.foldlM (ObjectUse.read braidingName) u = .ok u') :
    ∃ known', u'.Tracks braidingName known' := by
  refine foldlM_keeps (P := fun u => ∃ known, u.Tracks braidingName known)
    (fun u hu r _ u' hr => ?_) ⟨known, hu⟩ h
  obtain ⟨known, hu⟩ := hu
  exact ⟨_, (hu.read hr).1⟩

section

variable {braidingName : String} {references : List Reference} {u : ObjectUse}
  (h : references.foldlM (ObjectUse.read braidingName) ⟨[], [], []⟩ = .ok u)
variable {o : ObjectRef}

include h

theorem exists_tracks : ∃ known, u.Tracks braidingName known :=
  exists_tracks_of_foldlM ⟨List.nodup_nil, by simp, by simp, by simp, List.nil_subset []⟩ h

theorem nodup_inputs : (u.inputs.map Prod.snd).Nodup := by
  obtain ⟨known, htracks⟩ := exists_tracks h
  exact (Binding.nodup_handles htracks.nodup).sublist (List.filter_sublist.map Prod.snd)

omit h in
/-- Every object has a handle. -/
theorem exists_handle (ho : o ∈ u.objects) :
    ∃ handle, u.handles.find? o = some handle ∧ (o, handle) ∈ u.handles := by
  have hmem : o ∈ u.handles.keys := by
    rw [handles, Binding.keys_handleAll]
    exact ho
  rcases hfind : u.handles.find? o with _ | handle
  · exact absurd hmem ((Table.find?_eq_none_iff _ _).mp hfind)
  · exact ⟨handle, rfl, Table.mem_of_find?_eq_some hfind⟩

/-- The objects that exist are those that are bound. -/
theorem exists_input (ho : o ∈ u.existing) :
    ∃ handle, u.handles.find? o = some handle ∧ (o, handle) ∈ u.inputs := by
  obtain ⟨known, htracks⟩ := exists_tracks h
  obtain ⟨handle, hfind, hmem⟩ := exists_handle (htracks.existing ho)
  exact ⟨handle, hfind, List.mem_filter.mpr ⟨hmem, decide_eq_true ho⟩⟩

/-- What exists is what is cited, and not first of all to define it. -/
theorem mem_existing_iff : o ∈ u.existing ↔
    o ≠ .name braidingName ∧ Citation.PreExists (references.map Reference.citation) o := by
  by_cases ho : o = .name braidingName
  · subst ho
    exact iff_of_false (not_mem_existing_of_foldlM h List.not_mem_nil) fun h => h.1 rfl
  · rw [mem_existing_iff_of_foldlM h ho]
    simp [ho]

end

end ObjectUse

/-! ## Binding and checking -/

/-- The numbers of outputs and inputs of a tensor. -/
def Tensor.arity {R : Type} (t : Tensor R) : ℕ × ℕ :=
  (t.legs.codomain.length, t.legs.domain.length)

namespace Machine

variable {R : Type}

/-- Objects in scope have been bound to handles, and nothing else has changed. -/
structure BindsAll (m : Machine R) (entries : List (ObjectRef × Handle)) (m' : Machine R) :
    Prop where
  /-- The scope is the same. -/
  scope : m'.scope = m.scope
  /-- Nothing is handed back. -/
  results : m'.results = m.results
  /-- The handles are bound to what the objects stand for. -/
  bound : ∀ entry ∈ entries, m'.bound.find? (.handle entry.2) = m.scope.find? (.object entry.1)
  /-- Nothing else is bound. -/
  other : ∀ o, (∀ entry ∈ entries, o ≠ .handle entry.2) → m'.bound.find? o = m.bound.find? o

/-- The citation gives an object that was passed in other numbers of outputs and inputs than it has,
without defining it. -/
def Misuses (m : Machine R) (braidingName : String) (cs : List Citation) (c : Citation) : Prop :=
  c.object ≠ .name braidingName ∧ Citation.PreExists cs c.object ∧ c.role ≠ .define ∧
    ∃ t, m.scope.find? (.object c.object) = some (.tensor t) ∧ t.arity ≠ c.arity

theorem misuses_congr (m : Machine R) (braidingName : String) {cs cs' : List Citation}
    (h : ∀ o, Citation.PreExists cs o ↔ Citation.PreExists cs' o) (c : Citation) :
    m.Misuses braidingName cs c ↔ m.Misuses braidingName cs' c := by
  rw [Misuses, Misuses, h]

variable [Arithmetic R] {m : Machine R}

theorem executeAll_cons_of_isFlat (hs : s.IsFlat) (rest : List Diagram) :
    m.executeAll (s :: rest) = match m.step s with
      | .ok m' => m'.executeAll rest
      | .error e => .error (e, m) := by
  rw [executeAll, execute_of_isFlat m hs]
  rcases m.step s with e | m' <;> rfl

theorem step_bindStatement {entry : ObjectRef × Handle} {v : Value R}
    (h : m.scope.find? (.object entry.1) = some v) :
    m.step (Binding.bindStatement entry) = .ok (m.bind (.handle entry.2) v) := by
  simp only [Binding.bindStatement, step, h]
  rfl

/-- Objects that are in scope can be bound to different handles. -/
theorem exists_bindsAll {entries : List (ObjectRef × Handle)}
    (hnodup : (entries.map Prod.snd).Nodup)
    (hgiven : ∀ entry ∈ entries, m.scope.has (.object entry.1) = true) :
    ∃ m', m.executeAll (entries.map Binding.bindStatement) = .ok m' ∧ m.BindsAll entries m' := by
  induction entries generalizing m with
  | nil => exact ⟨m, rfl, rfl, rfl, by simp, fun _ _ => rfl⟩
  | cons entry entries ih =>
    obtain ⟨hentry, hnodup⟩ := List.nodup_cons.mp hnodup
    obtain ⟨hfirst, hgiven⟩ := List.forall_mem_cons.mp hgiven
    obtain ⟨v, hv⟩ := Option.isSome_iff_exists.mp hfirst
    obtain ⟨m', hrun, hbinds⟩ := ih (m := m.bind (.handle entry.2) v) hnodup hgiven
    refine ⟨m', ?_, hbinds.scope, hbinds.results, List.forall_mem_cons.mpr ⟨?_, hbinds.bound⟩,
      fun o ho => ?_⟩
    · rw [List.map_cons, executeAll_cons_of_isFlat (by trivial), step_bindStatement hv]
      exact hrun
    · -- the handle is not bound again
      have hnew : ∀ e ∈ entries, ObjectRef.handle entry.2 ≠ .handle e.2 := by
        intro e he heq
        rw [ObjectRef.handle.inj heq] at hentry
        exact hentry (List.mem_map_of_mem he)
      rw [hbinds.other _ hnew, hv]
      exact Table.find?_put_self _ _ _
    · obtain ⟨hne, ho⟩ := List.forall_mem_cons.mp ho
      rw [hbinds.other o ho]
      exact Table.find?_put_of_ne _ _ hne

/-- If binding succeeds, the objects are in scope. -/
theorem has_of_executeAll_binds {entries : List (ObjectRef × Handle)} {m' : Machine R}
    (h : m.executeAll (entries.map Binding.bindStatement) = .ok m') :
    ∀ entry ∈ entries, m.scope.has (.object entry.1) = true := by
  induction entries generalizing m with
  | nil => simp
  | cons entry entries ih =>
    rw [List.map_cons, executeAll_cons_of_isFlat (by trivial)] at h
    rcases hv : m.scope.find? (.object entry.1) with _ | v
    · simp only [Binding.bindStatement, step, hv] at h
      cases h
    · rw [step_bindStatement hv] at h
      exact List.forall_mem_cons.mpr ⟨Option.isSome_iff_exists.mpr ⟨v, hv⟩,
        ih (m := m.bind (.handle entry.2) v) h⟩

/-- A check compares the numbers of outputs and inputs. -/
theorem step_checkArity {handle : Handle} {t : Tensor R}
    (h : m.bound.find? (.handle handle) = some (.tensor t))
    (name : ObjectRef) (a : ℕ × ℕ) : m.step (.checkArity handle name a.1 a.2) =
      if t.arity = a then .ok m else .error (.arity a.1 a.2 t.arity.1 t.arity.2 name) := by
  have hiff : ((t.legs.codomain.length : Int) = a.1 ∧ (t.legs.domain.length : Int) = a.2) ↔
      t.arity = a := by
    rw [Nat.cast_inj, Nat.cast_inj, Prod.ext_iff]
    rfl
  have hcheck : m.checkArity handle name a.1 a.2 =
      if t.arity = a then .ok () else .error (.arity a.1 a.2 t.arity.1 t.arity.2 name) := by
    simp only [checkArity, boundTo, h, Value.toTensor, ok_bind]
    exact if_congr hiff rfl rfl
  change (m.checkArity handle name a.1 a.2 >>= fun _ => .ok m) = _
  rw [hcheck]
  split_ifs <;> rfl

/-- The check of a citation of an object that was passed in. -/
theorem BindsAll.step_check {references : List Reference} {u : ObjectUse}
    (hread : references.foldlM (ObjectUse.read braidingName) ⟨[], [], []⟩ = .ok u) {m' : Machine R}
    (h : m.BindsAll u.inputs m')
    (hs : Binding.citationCheck? braidingName u.existing u.handles c = some s) {t : Tensor R}
    (ht : m.scope.find? (.object c.object) = some (.tensor t)) :
    s.IsFlat ∧ Plan.isArityStatement s = true ∧ m'.step s =
      if t.arity =
        c.arity then .ok m' else .error
          (.arity c.arity.1 c.arity.2 t.arity.1 t.arity.2 c.object) := by
  obtain ⟨-, hexisting, -, handle, hfind, rfl⟩ := Binding.exists_of_citationCheck? hs
  obtain ⟨handle', hfind', hmem⟩ := ObjectUse.exists_input hread hexisting
  obtain rfl := Option.some.inj (hfind.symm.trans hfind')
  exact ⟨trivial, rfl, step_checkArity ((h.bound _ hmem).trans ht) _ _⟩

/-- Checks that find nothing wrong change nothing. -/
theorem executeAll_filterMap {α : Type} {f : α → Option Diagram} {xs : List α}
    (h : ∀ x ∈ xs, ∀ s, f x = some s → s.IsFlat ∧ m.step s = .ok m) :
    m.executeAll (xs.filterMap f) = .ok m := by
  induction xs with
  | nil => rfl
  | cons x xs ih =>
    obtain ⟨hx, hxs⟩ := List.forall_mem_cons.mp h
    rcases hs : f x with _ | s
    · rw [List.filterMap_cons_none hs]
      exact ih hxs
    · rw [List.filterMap_cons_some hs, executeAll_cons_of_isFlat (hx s hs).1, (hx s hs).2]
      exact ih hxs

end Machine

namespace Machine

variable {R : Type} [Arithmetic R] {m m' : Machine R} {braidingName : String}
  {references : List Reference} {u : ObjectUse}
  (hread : references.foldlM (ObjectUse.read braidingName) ⟨[], [], []⟩ = .ok u)

include hread

/-- Citations that misuse no object pass their checks. -/
theorem BindsAll.executeAll_checks (h : m.BindsAll u.inputs m')
    (hgiven : ∀ o ∈ u.existing, ∃ t, m.scope.find? (.object o) = some (.tensor t))
    {cs : List Citation}
    (hcs : ∀ c ∈ cs, ¬ m.Misuses braidingName (references.map Reference.citation) c) :
    m'.executeAll (cs.filterMap (Binding.citationCheck? braidingName u.existing u.handles)) =
      .ok m' := by
  refine executeAll_filterMap fun c hc s hs => ?_
  obtain ⟨hname, hexisting, hrole, -⟩ := Binding.exists_of_citationCheck? hs
  obtain ⟨t, ht⟩ := hgiven _ hexisting
  obtain ⟨hflat, -, hstep⟩ := h.step_check hread hs ht
  have hfits : t.arity = c.arity := by
    by_contra hne
    exact hcs c hc ⟨hname, ((ObjectUse.mem_existing_iff hread).mp hexisting).2, hrole, t, ht, hne⟩
  rw [if_pos hfits] at hstep
  exact ⟨hflat, hstep⟩

/-- A citation that misuses an object does not pass its check. -/
theorem BindsAll.exists_check (h : m.BindsAll u.inputs m')
    (hc : m.Misuses braidingName (references.map Reference.citation) c) :
    ∃ s t, Binding.citationCheck? braidingName u.existing u.handles c = some s ∧ s.IsFlat ∧
      Plan.isArityStatement s = true ∧ m.scope.find? (.object c.object) = some (.tensor t) ∧
      m'.step s = .error (.arity c.arity.1 c.arity.2 t.arity.1 t.arity.2 c.object) := by
  obtain ⟨hname, hexists, hrole, t, ht, hne⟩ := hc
  have hexisting := (ObjectUse.mem_existing_iff hread).mpr ⟨hname, hexists⟩
  obtain ⟨handle, hfind, -⟩ := ObjectUse.exists_input hread hexisting
  have hs : Binding.citationCheck? braidingName u.existing u.handles c =
      some (.checkArity handle c.object c.arity.1 c.arity.2) := by
    rw [Binding.citationCheck?, if_neg (by simp [hname, hexisting, hrole]), hfind]
    rfl
  obtain ⟨hflat, harity, hstep⟩ := h.step_check hread hs ht
  rw [if_neg hne] at hstep
  exact ⟨_, t, hs, hflat, harity, ht, hstep⟩

omit hread in
theorem executeAll_of_step_error {first rest : List Diagram} {e : Error}
    (hfirst : m.executeAll first = .ok m') (hs : s.IsFlat) (hstep : m'.step s = .error e) :
    m.executeAll (first ++ s :: rest) = .error (e, m') := by
  rw [executeAll_append, hfirst]
  change m'.executeAll (s :: rest) = _
  rw [executeAll_cons_of_isFlat hs, hstep]

end Machine

/-- The first of the members with some property. -/
theorem exists_first {α : Type} {P : α → Prop} {xs : List α} (h : ∃ x ∈ xs, P x) :
    ∃ before x after, xs = before ++ x :: after ∧ P x ∧ ∀ y ∈ before, ¬ P y := by
  induction xs with
  | nil => simp at h
  | cons x xs ih =>
    by_cases hx : P x
    · exact ⟨[], x, xs, rfl, hx, by simp⟩
    · obtain ⟨before, y, after, rfl, hy, hbefore⟩ := ih (by simpa [hx] using h)
      exact ⟨x :: before, y, after, rfl, hy, List.forall_mem_cons.mpr ⟨hx, hbefore⟩⟩

namespace Plan

/-- Binding a diagram succeeds if its normal form can be bound. -/
theorem bound_eq_ok_iff {options : Options} {order : Option ContractionOrder} {d : Diagram}
    {binding : Binding} {table : HandleTable} : Plan.bound options order d = .ok (binding, table) ↔
      ∃ d' u, d.pushConj.binarize order = .ok d' ∧
        d'.references.foldlM (ObjectUse.read options.braidingName) ⟨[], [], []⟩ = .ok u ∧
        (∀ t ∈ d'.allRefs, ¬ t.isBraiding options.braidingName = true →
          u.handles.has t.object = true) ∧
        binding = u.toBinding options d' ∧ table = (Binding.handleAll .empty u.objects).2 := by
  have hparts : ∀ (u : ObjectUse) (d' : Diagram), u.toBinding options d' =
      { objects := u.objects
        body := d'.mapRefs (Binding.bindRef options.braidingName u.handles)
        prologue := u.handles.filterMap fun entry =>
          if entry.1 ∈ u.existing then some (.bind entry.2 entry.1) else none
        checks :=
          if options.checkArity then
            d'.references.filterMap (Binding.arityCheck? options.braidingName u u.handles)
          else []
        epilogue := u.handles.filterMap fun entry =>
          if entry.1 ∈ u.exported then some (.exportAs entry.1 entry.2) else none } := by
    intro u d'
    have hcheck : Binding.arityCheck? options.braidingName u u.handles =
        Binding.citationCheck? options.braidingName u.existing u.handles ∘ Reference.citation :=
      funext fun r => Binding.arityCheck?_eq _ _ _ r
    rw [ObjectUse.toBinding, ObjectUse.inputs, ObjectUse.outputs, ← Binding.filterMap_ite_eq,
      ← Binding.filterMap_ite_eq, ObjectUse.checks, Diagram.citations, List.filterMap_map, hcheck]
    rfl
  rw [Plan.bound, bind_eq_ok_iff]
  refine exists_congr fun d' => ?_
  rw [exists_and_left]
  refine and_congr_right fun _ => ?_
  rw [Diagram.bindNames_eq_ok_iff]
  refine exists_congr fun u => ?_
  rw [exists_and_left]
  refine and_congr_right fun _ => ?_
  constructor
  · rintro ⟨handles, hhandles, hall, rfl⟩
    obtain rfl : u.handles = handles := by rw [ObjectUse.handles, hhandles]
    exact ⟨hall, (hparts u d').symm, by rw [hhandles]⟩
  · rintro ⟨hall, rfl, rfl⟩
    exact ⟨u.handles, rfl, hall, hparts u d'⟩

/-- The two ways from a bound diagram to the body of a plan. -/
def CompilesTo (braidingName : String) (d body : Diagram) : Prop :=
  (∃ table constructed table₁ table₂, d.constructBraidings braidingName table =
    .ok (constructed, table₁) ∧ constructed.lowerStatements table₁ = .ok (body, table₂)) ∨
    d.removeBraidings braidingName = .ok body

/-- A plan binds objects, checks citations, runs its body and hands objects back. -/
theorem exists_frame {options : Options} {order : Option ContractionOrder} {d : Diagram} {p : Plan}
    (h : Plan.forBraided options order d = .ok p ∨ Plan.forSymmetric options order d = .ok p) :
    ∃ d' u body, d.pushConj.binarize order = .ok d' ∧
      d'.references.foldlM (ObjectUse.read options.braidingName) ⟨[], [], []⟩ = .ok u ∧
      CompilesTo options.braidingName (u.toBinding options d').body body ∧
      p.statements = u.inputs.map Binding.bindStatement ++
        (u.checks options d' ++ (body.flatten ++ u.outputs.map Binding.exportStatement)) := by
  rcases h with h | h
  · obtain ⟨binding, table, constructed, table₁, body, table₂, hbound, hconstruct, hlower, rfl⟩ :=
      forBraided_spec h
    obtain ⟨d', u, hd', hread, -, rfl, -⟩ := bound_eq_ok_iff.mp hbound
    exact ⟨d', u, body, hd', hread, Or.inl ⟨table, constructed, table₁, table₂, hconstruct, hlower⟩,
      u.flatten_toBlock options d' body⟩
  · obtain ⟨binding, table, body, hbound, hremove, rfl⟩ := forSymmetric_spec h
    obtain ⟨d', u, hd', hread, -, rfl, -⟩ := bound_eq_ok_iff.mp hbound
    exact ⟨d', u, body, hd', hread, Or.inr hremove, u.flatten_toBlock options d' body⟩

/-- The run stops with the error after statements that bind and check only, and running these
statements alone stops in the same way. -/
def StopsInChecks {R : Type} [Arithmetic R] (p : Plan) (m : Machine R) (e : Error) : Prop :=
  ∃ first s rest m', p.statements = first ++ s :: rest ∧
    (∀ s' ∈ first ++ [s], isArityStatement s' = true) ∧
    m.executeAll first = .ok m' ∧ p.run m = .error (e, m') ∧ p.runArityChecks m = .error (e, m')

section Runs

variable {R : Type} [Arithmetic R] {options : Options} {d : Diagram} {u : ObjectUse} {m : Machine R}
  (hread : d.references.foldlM (ObjectUse.read options.braidingName) ⟨[], [], []⟩ = .ok u)
  (hgiven : ∀ o ∈ u.existing, ∃ t, m.scope.find? (.object o) = some (.tensor t))

include hread hgiven

/-- Objects that are given can be bound. -/
theorem exists_bindsAll_inputs :
    ∃ m', m.executeAll (u.inputs.map Binding.bindStatement) = .ok m' ∧ m.BindsAll u.inputs m' := by
  refine Machine.exists_bindsAll (ObjectUse.nodup_inputs hread) fun entry hentry => ?_
  obtain ⟨t, ht⟩ := hgiven entry.1 (of_decide_eq_true (List.mem_filter.mp hentry).2)
  rw [Table.has, ht]
  rfl

/-- The first citation that misuses an object stops the run. -/
theorem stopsInChecks_of_first {p : Plan} {rest : List Diagram} (hcheck : options.checkArity = true)
    (hstatements : p.statements = u.inputs.map Binding.bindStatement ++
      (u.checks options d ++ rest)) {before after : List Citation}
    (heq : d.citations = before ++ c :: after) (hc : m.Misuses options.braidingName d.citations c)
    (hbefore : ∀ c' ∈ before, ¬ m.Misuses options.braidingName d.citations c') :
    ∃ t, m.scope.find? (.object c.object) = some (.tensor t) ∧
      p.StopsInChecks m (.arity c.arity.1 c.arity.2 t.arity.1 t.arity.2 c.object) := by
  obtain ⟨m', hbind, hbinds⟩ := exists_bindsAll_inputs hread hgiven
  obtain ⟨s, t, hs, hflat, harity, ht, hstep⟩ := hbinds.exists_check hread hc
  set checks :=
    before.filterMap
      (Binding.citationCheck? options.braidingName u.existing u.handles) with hbeforeChecks
  have hfirst : m.executeAll (u.inputs.map Binding.bindStatement ++ checks) = .ok m' := by
    rw [Machine.executeAll_append, hbind]
    exact hbinds.executeAll_checks hread hgiven hbefore
  have hsplit : p.statements = (u.inputs.map Binding.bindStatement ++ checks) ++
      s :: (after.filterMap (Binding.citationCheck? options.braidingName u.existing u.handles) ++
        rest) := by
    rw [hstatements, ObjectUse.checks, if_pos hcheck, heq, List.filterMap_append,
      List.filterMap_cons_some hs, ← hbeforeChecks]
    simp only [List.append_assoc, List.cons_append]
  have hall : ∀ s' ∈ u.inputs.map Binding.bindStatement ++ checks, isArityStatement s' = true := by
    refine List.forall_mem_append.mpr ⟨List.forall_mem_map.mpr fun _ _ => rfl, fun s' hs' => ?_⟩
    obtain ⟨c', -, hc'⟩ := List.mem_filterMap.mp hs'
    obtain ⟨-, -, -, handle, -, rfl⟩ := Binding.exists_of_citationCheck? hc'
    rfl
  refine ⟨t, ht, _, s, _, m', hsplit, List.forall_mem_append.mpr ⟨hall, by simpa using harity⟩,
    hfirst, ?_, ?_⟩
  · rw [Plan.run, hsplit]
    exact Machine.executeAll_of_step_error hfirst hflat hstep
  · rw [Plan.runArityChecks, hsplit, List.filter_append, List.filter_eq_self.mpr hall,
      List.filter_cons_of_pos harity]
    exact Machine.executeAll_of_step_error hfirst hflat hstep

end Runs

/-- If all inputs of a plan are given as tensors and a citation of the program misuses one of them,
then the run stops in the checks.  The error is that of the first such citation in the order of
evaluation, which is the order of the normal form: it has the citations of the program up to uses
that are exchanged, and in the same order if there is no order of contractions. -/
theorem arity_checks_stop_at_first_misuse {R : Type} [Arithmetic R] {options : Options}
    {order : Option ContractionOrder} {d : Diagram} {p : Plan} (hd : d.IsScript)
    (hcheck : options.checkArity = true) (hp : Plan.forBraided options order d = .ok p ∨
      Plan.forSymmetric options order d = .ok p) {m : Machine R}
    (hinputs : ∀ o ∈ p.inputs, ∃ t, m.scope.find? (.object o) = some (.tensor t))
    (hmisuse : ∃ c ∈ d.citations, m.Misuses options.braidingName d.citations c) :
    ∃ d' before c after t, d.pushConj.binarize order = .ok d' ∧
      Citation.Reorders d.citations d'.citations ∧ (order = none → d'.citations = d.citations) ∧
        d'.citations = before ++ c :: after ∧
      (∀ c' ∈ before, ¬ m.Misuses options.braidingName d.citations c') ∧
      m.Misuses options.braidingName d.citations c ∧
        m.scope.find? (.object c.object) = some (.tensor t) ∧
      p.StopsInChecks m (.arity c.arity.1 c.arity.2 t.arity.1 t.arity.2 c.object) := by
  obtain ⟨d', u, body, hd', hread, -, hstatements⟩ := exists_frame hp
  obtain ⟨hreorders, hnone⟩ := hd.citations_nested hd'
  have hcongr := m.misuses_congr options.braidingName hreorders.preExists_iff
  have hgiven : ∀ o ∈ u.existing, ∃ t, m.scope.find? (.object o) = some (.tensor t) := by
    intro o ho
    obtain ⟨handle, -, hentry⟩ := ObjectUse.exists_input hread ho
    refine hinputs o (List.mem_filterMap.mpr ⟨Binding.bindStatement (o, handle), ?_, rfl⟩)
    rw [hstatements]
    exact List.mem_append_left _ (List.mem_map_of_mem hentry)
  obtain ⟨c₀, hmem, hc₀⟩ := hmisuse
  obtain ⟨before, c, after, heq, hc, hbefore⟩ :=
    exists_first ⟨c₀, hreorders.perm.mem_iff.mp hmem, (hcongr c₀).mp hc₀⟩
  obtain ⟨t, ht, hstops⟩ := stopsInChecks_of_first hread hgiven hcheck hstatements heq hc hbefore
  exact ⟨d', before, c, after, t, hd', hreorders, hnone, heq, fun c' hc' =>
    (hcongr c').not.mpr (hbefore c' hc'), (hcongr c).mpr hc, ht, hstops⟩

/-- A vector is renamed, and then paired with itself by the adjoint of a tensor. -/
def adjointPairing : Diagram :=
  .block [.assign (.ref ⟨.name "C", [.name "a"], [], false⟩)
    (.ref ⟨.name "B", [.name "a"], [], false⟩) true,
    .block [.assign (.scalar (.name "s")) (.product (.scalar (.name "alpha"))
      (.conj (.ref ⟨.name "A", [.name "p"], [.name "q"], false⟩))
      [.ref ⟨.name "C", [.name "p"], [], false⟩, .conj (.ref ⟨.name "C", [.name "q"], [], false⟩)])
      false]]

/-- The vector, and a tensor with two outputs. -/
def adjointPairingObjects : Table String (Value ℤ) :=
  [("A", .tensor (numberedTensor [false, false] [])), ("B", .tensor (numberedTensor [false] []))]

/-- The tensor is found to be misused before the vector is renamed. -/
theorem arity_checks_stop_at_first_misuse_adjointPairing :
    ∃ p, Plan.forBraided {} none adjointPairing = .ok p ∧
    (∀ o ∈ p.inputs, ∃ t, (Machine.start adjointPairingObjects).scope.find? (.object o) =
      some (.tensor t)) ∧
    p.StopsInChecks (.start adjointPairingObjects) (.arity 1 1 2 0 (.name "A")) := by
  obtain ⟨p, hp⟩ :=
    exists_of_isOk (show (Plan.forBraided {} none adjointPairing).isOk = true by decide +kernel)
  have hscript : adjointPairing.IsScript := by
    refine .block
      (List.forall_mem_cons.mpr ⟨.leaf (.assign _ _ (.ref _)), List.forall_mem_singleton.mpr (.block
      (List.forall_mem_singleton.mpr
        (.leaf (.assign _ _ (.product (.scalar _) (.conj (.ref _)) ?_)))))⟩)
    exact List.forall_mem_cons.mpr ⟨.ref _, List.forall_mem_singleton.mpr (.conj (.ref _))⟩
  have hgiven : ((Plan.forBraided {} none adjointPairing).toOption.any fun p =>
      p.inputs.all fun o => o = .name "A" || o = .name "B") = true := by
    decide +kernel
  rw [hp, Except.toOption, Option.any_some, List.all_eq_true] at hgiven
  have hinputs : ∀ o ∈ p.inputs,
      ∃ t, (Machine.start adjointPairingObjects).scope.find? (.object o) = some (.tensor t) := by
    intro o ho
    have hcases := hgiven o ho
    rw [Bool.or_eq_true, decide_eq_true_eq, decide_eq_true_eq] at hcases
    rcases hcases with rfl | rfl <;> exact ⟨_, rfl⟩
  have hcitations : adjointPairing.citations =
    [⟨.name "B", .use, (1, 0)⟩, ⟨.name "C", .define, (1, 0)⟩,
      ⟨.name "A", .use, (1, 1)⟩, ⟨.name "C", .use, (1, 0)⟩, ⟨.name "C", .use, (1, 0)⟩] := rfl
  have hmisuse : (Machine.start adjointPairingObjects).Misuses "τ" adjointPairing.citations
      ⟨.name "A", .use, (1, 1)⟩ :=
    ⟨by decide, by rw [hcitations]; decide, by decide, _, rfl, by decide⟩
  have hcheck : ({} : Options).checkArity = true := rfl
  obtain ⟨d', before, c, after, t, -, -, hnone, heq, -, hc, ht, hstops⟩ :=
    arity_checks_stop_at_first_misuse hscript
    hcheck (Or.inl hp) hinputs ⟨_, by rw [hcitations]; simp, hmisuse⟩
  have hmem : c ∈ adjointPairing.citations := by
    rw [← hnone rfl, heq]
    exact List.mem_append_right _ List.mem_cons_self
  -- the vector is used as it is, and its new name does not exist before
  obtain rfl : c = ⟨.name "A", .use, (1, 1)⟩ := by
    obtain ⟨-, hexists, -, t', ht', hne⟩ := hc
    rw [hcitations] at hmem hexists
    simp only [List.mem_cons, List.not_mem_nil, or_false] at hmem
    rcases hmem with rfl | rfl | rfl | rfl | rfl
    · obtain rfl := Value.tensor.inj (Option.some.inj ht')
      exact absurd (by decide) hne
    · exact absurd hexists (by decide)
    · rfl
    · exact absurd hexists (by decide)
    · exact absurd hexists (by decide)
  obtain rfl := Value.tensor.inj (Option.some.inj ht)
  exact ⟨p, hp, hinputs, hstops⟩

end Plan

end TensorDiagram
