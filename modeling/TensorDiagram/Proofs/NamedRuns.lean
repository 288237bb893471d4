import TensorDiagram.Proofs.ArityChecks
import TensorDiagram.Proofs.ReorderedProducts

/-!
# Runs by name

The plan of an assignment binds objects to handles, checks their numbers of legs, assigns, and hands
back what it has assigned.  Which handles it uses depends on the order in which the objects are
read, but what it does can be told without them.  The plan can be started if the machine supports
its citations (`Machine.Supports`), and then it hands back what the assignment itself would assign
on a machine where everything in scope is bound under its own name (`Machine.named`):  see
`AssignmentPlan.results_of_run` and `AssignmentPlan.exists_run`.
-/

namespace TensorDiagram

/-! ## References that are read -/

namespace ObjectUse

variable {braidingName : String} {references : List Reference} {u u' : ObjectUse}

/-- References can be read as long as no braiding is written. -/
theorem exists_foldlM (h : ∀ r ∈ references, r.term.object = .name braidingName → r.role = .use)
    (u : ObjectUse) : ∃ u', references.foldlM (ObjectUse.read braidingName) u = .ok u' := by
  induction references generalizing u with
  | nil => exact ⟨u, rfl⟩
  | cons r references ih =>
    obtain ⟨hr, h⟩ := List.forall_mem_cons.mp h
    have hread : ∃ u₁, u.read braidingName r = .ok u₁ := by
      rw [ObjectUse.read]
      by_cases hbraiding : r.term.isBraiding braidingName = true
      · rw [if_pos hbraiding, if_pos (hr (of_decide_eq_true hbraiding))]
        exact ⟨u, rfl⟩
      · rw [if_neg hbraiding]
        exact ⟨_, rfl⟩
    obtain ⟨u₁, hu₁⟩ := hread
    obtain ⟨u', hu'⟩ := ih h u₁
    exact ⟨u', by rw [List.foldlM_cons, hu₁, ok_bind, hu']⟩

/-- What is known after some references have been read. -/
theorem mem_of_foldlM (h : references.foldlM (ObjectUse.read braidingName) u = .ok u') :
    (∀ r ∈ references, r.term.object = .name braidingName → r.role = .use) ∧
    (∀ o, o ∈ u'.objects ↔ o ∈ u.objects ∨ ∃ r ∈ references, r.term.object = o ∧
      o ≠ .name braidingName) ∧
    ∀ o, o ∈ u'.exported ↔
      o ∈ u.exported ∨ ∃ r ∈ references, r.term.object = o ∧ o ≠ .name braidingName ∧
        r.role ≠ .use := by
  induction references generalizing u with
  | nil =>
    obtain rfl := Except.ok.inj h
    simp
  | cons r references ih =>
    rw [List.foldlM_cons] at h
    obtain ⟨u₁, hr, h⟩ := bind_eq_ok_iff.mp h
    obtain ⟨huses, hobjects, hexported⟩ := ih h
    simp only [List.forall_mem_cons, List.exists_mem_cons_iff, hobjects, hexported, ← or_assoc]
    rcases read_cases hr with ⟨hname, huse, rfl⟩ | ⟨hname, hobjects₁, -, hexported₁⟩
    · refine ⟨⟨fun _ => huse, huses⟩, fun o => or_congr_left ?_, fun o => or_congr_left ?_⟩
      · exact (or_iff_left fun h => h.2 (h.1 ▸ hname)).symm
      · exact (or_iff_left fun h => h.2.1 (h.1 ▸ hname)).symm
    · refine ⟨⟨fun heq => absurd heq hname, huses⟩, fun o => or_congr_left ?_, fun o =>
        or_congr_left ?_⟩
      · rw [hobjects₁, mem_enter]
        exact or_congr_right ⟨fun heq => ⟨heq.symm, heq ▸ hname⟩, fun h => h.1.symm⟩
      · rw [hexported₁]
        exact or_congr_right ⟨fun h => ⟨h.1.symm, h.1 ▸ hname, h.2⟩, fun h => ⟨h.1.symm, h.2.2⟩⟩

end ObjectUse

/-! ## Objects that are passed in -/

namespace Machine

variable {R : Type}

/-- The objects that exist before some citations are in scope, and have the cited numbers of outputs
and inputs if this is checked. -/
structure Supports (m : Machine R) (options : Options) (cs : List Citation) : Prop where
  /-- What exists before is in scope. -/
  given : ∀ o, o ≠ .name options.braidingName → Citation.PreExists cs o →
    m.scope.has (.object o) = true
  /-- What is cited fits, if this is checked. -/
  fits : options.checkArity = true → ∀ c ∈ cs, c.object ≠ .name options.braidingName →
    Citation.PreExists cs c.object → c.role ≠ .define →
      ∃ t, m.scope.find? (.object c.object) = some (.tensor t) ∧ t.arity = c.arity

theorem Supports.reorders {m : Machine R} {options : Options} {cs cs' : List Citation}
    (h : m.Supports options cs) (hperm : cs.Perm cs') (hexists : ∀ o, Citation.PreExists cs' o ↔
      Citation.PreExists cs o) : m.Supports options cs' where
  given o hname ho := h.given o hname ((hexists o).mp ho)
  fits hcheck c hc hname ho := h.fits hcheck c (hperm.mem_iff.mpr hc) hname ((hexists _).mp ho)

variable [Arithmetic R] {m m₀ : Machine R}

/-- If statements that change nothing can be done, then every one of them can. -/
theorem step_of_executeAll_filterMap {α : Type} {f : α → Option Diagram} {xs : List α}
    (hsame : ∀ x s, f x = some s → s.IsFlat ∧ ∀ m', m.step s = .ok m' → m' = m)
    (h : m.executeAll (xs.filterMap f) = .ok m₀) : m₀ = m ∧ ∀ x ∈ xs, ∀ s, f x = some s →
      m.step s = .ok m := by
  induction xs with
  | nil =>
    obtain rfl := Except.ok.inj h
    simp
  | cons x xs ih =>
    rcases hs : f x with _ | s
    · rw [List.filterMap_cons_none hs] at h
      exact ⟨(ih h).1, List.forall_mem_cons.mpr ⟨fun s hs' => by simp [hs] at hs', (ih h).2⟩⟩
    · rw [List.filterMap_cons_some hs, executeAll_cons_of_isFlat (hsame x s hs).1] at h
      rcases hstep : m.step s with e | m'
      · rw [hstep] at h
        cases h
      · obtain rfl := (hsame x s hs).2 m' hstep
        rw [hstep] at h
        refine ⟨(ih h).1, List.forall_mem_cons.mpr ⟨fun s' hs' => ?_, (ih h).2⟩⟩
        rwa [← Option.some.inj (hs.symm.trans hs')]

section Frame

variable {options : Options} {d : Diagram} {u : ObjectUse}
  (hread : d.references.foldlM (ObjectUse.read options.braidingName) ⟨[], [], []⟩ = .ok u)

include hread

/-- A check is passed by a tensor with the cited numbers of outputs and inputs, and by nothing
else. -/
theorem BindsAll.step_check_iff (h : m.BindsAll u.inputs m₀) {c : Citation} {s : Diagram}
    (hs : Binding.citationCheck? options.braidingName u.existing u.handles c = some s) :
    m₀.step s = .ok m₀ ↔ ∃ t, m.scope.find? (.object c.object) = some (.tensor t) ∧
      t.arity = c.arity := by
  constructor
  · intro hstep
    obtain ⟨-, hexisting, -, handle, hfind, rfl⟩ := Binding.exists_of_citationCheck? hs
    obtain ⟨handle', hfind', hmem⟩ := ObjectUse.exists_input hread hexisting
    obtain rfl := Option.some.inj (hfind.symm.trans hfind')
    have hbound := h.bound _ hmem
    have hcheck : m₀.checkArity handle c.object c.arity.1 c.arity.2 = .ok () := by
      change (m₀.checkArity handle c.object c.arity.1 c.arity.2 >>= fun _ => .ok m₀) = _ at hstep
      obtain ⟨_, hcheck, -⟩ := bind_eq_ok_iff.mp hstep
      exact hcheck
    rw [checkArity, boundTo, hbound] at hcheck
    rcases hv : m.scope.find? (.object c.object) with _ | (t | x)
    · rw [hv] at hcheck
      cases hcheck
    · refine ⟨t, hv, ?_⟩
      rw [step_checkArity (hbound.trans hv)] at hstep
      by_contra hne
      rw [if_neg hne] at hstep
      cases hstep
    · rw [hv] at hcheck
      cases hcheck
  · rintro ⟨t, ht, hfits⟩
    rw [(h.step_check hread hs ht).2.2, if_pos hfits]

/-- If objects can be bound and checked, then their citations are supported. -/
theorem supports_of_executeAll
    (h : m.executeAll (u.inputs.map Binding.bindStatement ++ u.checks options d) = .ok m₀) :
    m.Supports options d.citations ∧ m.BindsAll u.inputs m₀ := by
  rw [executeAll_append] at h
  obtain ⟨m₁, hbind, hchecks⟩ := bind_eq_ok_iff.mp h
  have hhas := has_of_executeAll_binds hbind
  obtain ⟨m₂, hbind', hbinds⟩ := exists_bindsAll (ObjectUse.nodup_inputs hread) hhas
  obtain rfl := Except.ok.inj (hbind.symm.trans hbind')
  have hgiven : ∀ o, o ≠ .name options.braidingName → Citation.PreExists d.citations o →
      m.scope.has (.object o) = true := by
    intro o hname ho
    obtain ⟨handle, -, hmem⟩ :=
      ObjectUse.exists_input hread ((ObjectUse.mem_existing_iff hread).mpr ⟨hname, ho⟩)
    exact hhas _ hmem
  rw [ObjectUse.checks] at hchecks
  split_ifs at hchecks with hcheck
  · have hsame : ∀ c s, Binding.citationCheck? options.braidingName u.existing u.handles c =
        some s → s.IsFlat ∧ ∀ m', m₁.step s = .ok m' → m' = m₁ := by
      intro c s hs
      obtain ⟨-, -, -, handle, -, rfl⟩ := Binding.exists_of_citationCheck? hs
      refine ⟨trivial, fun m' hstep => ?_⟩
      obtain ⟨_, -, hstep⟩ := bind_eq_ok_iff.mp hstep
      exact (Except.ok.inj hstep).symm
    obtain ⟨rfl, hall⟩ := step_of_executeAll_filterMap hsame hchecks
    refine ⟨⟨hgiven, fun _ c hc hname ho hrole => ?_⟩, hbinds⟩
    have hexisting := (ObjectUse.mem_existing_iff hread).mpr ⟨hname, ho⟩
    obtain ⟨handle, hfind, -⟩ := ObjectUse.exists_input hread hexisting
    have hs : Binding.citationCheck? options.braidingName u.existing u.handles c =
        some (.checkArity handle c.object c.arity.1 c.arity.2) := by
      rw [Binding.citationCheck?, if_neg (by simp [hname, hexisting, hrole]), hfind]
      rfl
    exact (hbinds.step_check_iff hread hs).mp (hall c hc _ hs)
  · obtain rfl := Except.ok.inj hchecks
    exact ⟨⟨hgiven, fun h => absurd h hcheck⟩, hbinds⟩

/-- If the citations are supported, then objects can be bound and checked. -/
theorem Supports.exists_bindsAll (h : m.Supports options d.citations) :
    ∃ m₀, m.executeAll (u.inputs.map Binding.bindStatement ++ u.checks options d) = .ok m₀ ∧
      m.BindsAll u.inputs m₀ := by
  obtain ⟨m₀, hbind, hbinds⟩ : ∃ m₀, m.executeAll (u.inputs.map Binding.bindStatement) = .ok m₀ ∧
      m.BindsAll u.inputs m₀ := by
    refine Machine.exists_bindsAll (ObjectUse.nodup_inputs hread) fun entry hentry => ?_
    have hexisting := of_decide_eq_true (List.mem_filter.mp hentry).2
    obtain ⟨hname, ho⟩ := (ObjectUse.mem_existing_iff hread).mp hexisting
    exact h.given _ hname ho
  refine ⟨m₀, ?_, hbinds⟩
  rw [executeAll_append, hbind, ObjectUse.checks]
  change m₀.executeAll _ = _
  split_ifs with hcheck
  · refine executeAll_filterMap fun c hc s hs => ?_
    obtain ⟨hname, hexisting, hrole, handle, -, rfl⟩ := Binding.exists_of_citationCheck? hs
    have ho := ((ObjectUse.mem_existing_iff hread).mp hexisting).2
    exact ⟨trivial, (hbinds.step_check_iff hread hs).mpr (h.fits hcheck c hc hname ho hrole)⟩
  · rfl

end Frame

/-! ## Names in the place of handles -/

/-- Everything in scope, as something bound under its own name. -/
def nameEntry? : ResultName × Value R → Option (ObjectRef × Value R)
  | (.object o, v) => some (o, v)
  | (.number _, _) => none

/-- The machine with everything in scope bound under its own name. -/
def named (m : Machine R) : Machine R :=
  { m with bound := m.scope.filterMap nameEntry? }

omit [Arithmetic R] in
theorem find?_named (m : Machine R) (o : ObjectRef) :
    m.named.bound.find? o = m.scope.find? (.object o) := by
  have hfind : ∀ scope : Table ResultName (Value R),
      Table.find? o (scope.filterMap nameEntry?) = scope.find? (.object o) := by
    intro scope
    induction scope with
    | nil => rfl
    | cons entry scope ih =>
      obtain ⟨name | x, v⟩ := entry
      · have hentry : nameEntry? (.object name, v) = some (name, v) := rfl
        rw [List.filterMap_cons_some hentry, Table.find?, Table.find?, ih]
        simp only [ResultName.object.injEq]
      · have hentry : nameEntry? (.number x, v) = none := rfl
        rw [List.filterMap_cons_none hentry, ih, Table.find?, if_neg (by rintro ⟨⟩)]
  exact hfind m.scope

/-- A reference to a handle has the value of the reference to the object that was bound to it. -/
theorem BindsAll.evaluateRef_bindRef {braidingName : String} {references : List Reference}
    {u : ObjectUse} (hread : references.foldlM (ObjectUse.read braidingName) ⟨[], [], []⟩ = .ok u)
    (h : m.BindsAll u.inputs m₀) {t : TensorRef} (hexisting : t.object ∈ u.existing)
    (hgiven : m.scope.has (.object t.object) = true) :
    m₀.evaluateRef (Binding.bindRef braidingName u.handles t) = m.named.evaluateRef t := by
  obtain ⟨handle, hfind, hmem⟩ := ObjectUse.exists_input hread hexisting
  have hname : ¬ t.isBraiding braidingName = true := fun heq =>
    ((ObjectUse.mem_existing_iff hread).mp hexisting).1 (of_decide_eq_true heq)
  obtain ⟨v, hv⟩ := Option.isSome_iff_exists.mp hgiven
  have hlookup : m₀.lookup (.handle handle) = .ok v := by
    simp only [lookup, (h.bound _ hmem).trans hv]
  have hlookup' : m.named.lookup t.object = .ok v := by
    simp only [lookup, (find?_named m t.object).trans hv]
  have hreferent : m₀.referent (.handle handle) t.isAdjoint =
      m.named.referent t.object t.isAdjoint := by
    rw [referent, referent, hlookup, hlookup']
  rw [Binding.bindRef, if_neg hname, hfind]
  change (m₀.referent (.handle handle) t.isAdjoint >>= _) =
    (m.named.referent t.object t.isAdjoint >>= _)
  rw [hreferent]
  rfl

end Machine

/-- An entry with its key is alone in a table without repeated keys. -/
theorem Table.filter_key_eq {κ α : Type} [DecidableEq κ] {t : Table κ α} (hnodup : t.keys.Nodup)
    {k : κ} {v : α} (h : t.find? k = some v) : t.filter (·.1 = k) = [(k, v)] := by
  induction t with
  | nil => cases h
  | cons entry t ih =>
    obtain ⟨k', v'⟩ := entry
    obtain ⟨hk', hnodup⟩ := List.nodup_cons.mp hnodup
    rw [Table.find?] at h
    split_ifs at h with heq
    · subst heq
      obtain rfl := Option.some.inj h
      rw [List.filter_cons_of_pos (by simp), List.filter_eq_nil_iff.mpr]
      rintro ⟨k, v⟩ hmem hk
      obtain rfl : k = k' := of_decide_eq_true hk
      exact hk' (List.mem_map.mpr ⟨(k, v), hmem, rfl⟩)
    · rw [List.filter_cons_of_neg (by simpa using heq), ih hnodup h]

/-- What is cited by a use at the start exists before. -/
theorem Citation.preExists_of_mem_tensors {ts : List TensorRef} {t : TensorRef} (ht : t ∈ ts)
    (cs : List Citation) : Citation.PreExists (ts.map TensorRef.asUse ++ cs) t.object := by
  induction ts with
  | nil => cases ht
  | cons t' ts ih =>
    rw [List.map_cons, List.cons_append, Citation.preExists_cons]
    split_ifs with heq
    · exact nofun
    · exact ih ((List.mem_cons.mp ht).resolve_left fun h => heq (congrArg TensorRef.object h.symm))

theorem Binding.bindRef_parts (braidingName : String) (handles : Table ObjectRef Handle)
    (t : TensorRef) :
    (bindRef braidingName handles t).left = t.left ∧
      (bindRef braidingName handles t).right = t.right ∧
      (bindRef braidingName handles t).isAdjoint = t.isAdjoint := by
  rw [bindRef]
  split_ifs
  · exact ⟨rfl, rfl, rfl⟩
  · split <;> exact ⟨rfl, rfl, rfl⟩

namespace Diagram

/-- A monomial with other references, on a machine where they have the same values. -/
theorem IsMonomial.evaluate_mapRefs {R : Type} [Arithmetic R] {d : Diagram} (hd : d.IsMonomial)
    {m m' : Machine R} {f : TensorRef → TensorRef} (hscope : m'.scope = m.scope)
    (href : ∀ t ∈ d.tensors, m'.evaluateRef (f t) = m.evaluateRef t) :
    m'.evaluate (d.mapRefs f) = m.evaluate d := by
  have hscalar : ∀ s, m'.evaluate (.scalar s) = m.evaluate (.scalar s) := by
    intro s
    rw [Machine.evaluate, Machine.evaluate]
    cases s with
    | number x => rfl
    | name text =>
      rw [Machine.evaluateScalar, Machine.evaluateScalar, Machine.namedScalar, hscope,
        Machine.namedScalar]
  induction hd with
  | factor hd =>
    cases hd with
    | ref t =>
      rw [Diagram.mapRefs, Machine.evaluate, Machine.evaluate]
      exact href t (List.mem_singleton_self t)
    | scalar s => exact hscalar s
    | conj name =>
      have hconj : ∀ n : Machine R, n.evaluate (.conj (.scalar (.name name))) =
          n.evaluate (.scalar (.name name)) >>= Evaluated.conj (.scalar (.name name)) :=
        fun n => by simp only [Machine.evaluate]
      exact (hconj m').trans ((hscalar _).symm ▸ (hconj m).symm)
  | @pair a b ha hb iha ihb =>
    rw [tensors, listTensors, List.append_nil] at href
    obtain ⟨hrefa, hrefb⟩ := List.forall_mem_append.mp href
    change m'.evaluate (Diagram.pair (a.mapRefs f) (b.mapRefs f)) = _
    rw [Machine.evaluate_pair, Machine.evaluate_pair, iha hrefa, ihb hrefb]

/-- The name under which an assigned value is handed back. -/
def resultName : Diagram → ResultName
  | ref t => .object t.object
  | scalar s => .ofScalar s
  | _ => .standalone

end Diagram

/-! ## Plans of assignments -/

open Diagram

/-- The plan of an assignment without braidings, whose references tell how the objects are used. -/
structure AssignmentPlan (options : Options) (lhs rhs : Diagram) (isDefinition : Bool)
    (u : ObjectUse) (p : Plan) : Prop where
  /-- The left hand side. -/
  isAssignable : lhs.IsAssignable
  /-- The right hand side. -/
  isMonomial : rhs.IsMonomial
  /-- There are no braidings. -/
  uses : ∀ t ∈ rhs.tensors, t.object ≠ .name options.braidingName
  /-- The references. -/
  read : (assign lhs rhs isDefinition).references.foldlM (ObjectUse.read options.braidingName) ⟨[],
    [], []⟩ = .ok u
  /-- The statements. -/
  statements : p.statements = u.inputs.map Binding.bindStatement ++
    (u.checks options (assign lhs rhs isDefinition) ++
    ((assign lhs rhs isDefinition).mapRefs (Binding.bindRef options.braidingName u.handles) ::
      u.outputs.map Binding.exportStatement))

namespace AssignmentPlan

variable {options : Options} {lhs rhs : Diagram} {isDefinition : Bool} {u : ObjectUse} {p : Plan}
  (h : AssignmentPlan options lhs rhs isDefinition u p)

include h

theorem mem_existing {t : TensorRef} (ht : t ∈ rhs.tensors) : t.object ∈ u.existing := by
  refine (ObjectUse.mem_existing_iff h.read).mpr ⟨h.uses t ht, ?_⟩
  change Citation.PreExists (assign lhs rhs isDefinition).citations t.object
  rw [citations_assign]
  exact Citation.preExists_of_mem_tensors ht _

/-- The left hand side is not a braiding. -/
theorem object_ne {t : TensorRef} (ht : lhs = .ref t) : t.object ≠ .name options.braidingName := by
  subst ht
  intro heq
  have hrole :=
    (ObjectUse.mem_of_foldlM h.read).1 ⟨t, assignRole isDefinition,
      assign (.ref t) rhs isDefinition⟩
    (by rw [references_assign]; exact List.mem_append_right _ (List.mem_singleton_self _)) heq
  cases isDefinition <;> cases hrole

/-- A reference on the left hand side gets a handle, and it alone is handed back. -/
theorem exists_outputs {t : TensorRef} (ht : lhs = .ref t) :
    ∃ handle, u.outputs = [(t.object, handle)] ∧ Binding.bindRef options.braidingName u.handles t =
      t.withObject (.handle handle) := by
  have hname := h.object_ne ht
  subst ht
  obtain ⟨-, hobjects, hexported⟩ := ObjectUse.mem_of_foldlM h.read
  set r : Reference := ⟨t, assignRole isDefinition, assign (.ref t) rhs isDefinition⟩
  have hr : r ∈ (assign (.ref t) rhs isDefinition).references := by
    rw [references_assign]
    exact List.mem_append_right _ (List.mem_singleton_self r)
  have hrole : r.role ≠ .use := by
    change assignRole isDefinition ≠ .use
    cases isDefinition <;> exact nofun
  obtain ⟨handle, hfind, -⟩ :=
    ObjectUse.exists_handle ((hobjects t.object).mpr (Or.inr ⟨r, hr, rfl, hname⟩))
  refine ⟨handle, ?_, ?_⟩
  · obtain ⟨known, htracks⟩ := ObjectUse.exists_tracks h.read
    have hkeys : u.handles.keys.Nodup := by
      rw [ObjectUse.handles, Binding.keys_handleAll]
      exact htracks.nodup
    have hiff : ∀ o, o ∈ u.exported ↔ o = t.object := by
      intro o
      rw [hexported, references_assign]
      constructor
      · rintro (ho | ⟨r', hr', rfl, -, hrole'⟩)
        · cases ho
        · rcases List.mem_append.mp hr' with huse | hlhs
          · obtain ⟨t', -, rfl⟩ := List.mem_map.mp huse
            exact absurd rfl hrole'
          · rw [List.mem_singleton.mp hlhs]
      · rintro rfl
        exact Or.inr ⟨r, List.mem_append_right _ (List.mem_singleton_self r), rfl, hname, hrole⟩
    rw [ObjectUse.outputs]
    simp only [hiff]
    exact Table.filter_key_eq hkeys hfind
  · have hbraiding' : ¬ t.isBraiding options.braidingName = true :=
      fun heq => hname (of_decide_eq_true heq)
    rw [Binding.bindRef, if_neg hbraiding', hfind]

/-- A scalar is handed back at once. -/
theorem outputs_eq_nil {s : Scalar} (hs : lhs = .scalar s) : u.outputs = [] := by
  subst hs
  obtain ⟨-, -, hexported⟩ := ObjectUse.mem_of_foldlM h.read
  refine List.filter_eq_nil_iff.mpr fun entry _ hentry => ?_
  rcases (hexported entry.1).mp (of_decide_eq_true hentry) with ho | ⟨r, hr, -, -, hrole⟩
  · cases ho
  · rw [references_assign, List.append_nil] at hr
    obtain ⟨t, -, rfl⟩ := List.mem_map.mp hr
    exact hrole rfl

section

variable {R : Type} [Arithmetic R]

/-- Once the objects are bound, what is assigned is handed back. -/
theorem exists_executeAll (m₀ : Machine R) : ∃ final : Value R → Machine R,
    (∀ v, (final v).results = m₀.results.put (m₀.written lhs.resultName) v) ∧
    m₀.executeAll
      ((assign lhs rhs isDefinition).mapRefs (Binding.bindRef options.braidingName u.handles) ::
      u.outputs.map Binding.exportStatement) =
        match m₀.assignedTo (lhs.mapRefs (Binding.bindRef options.braidingName u.handles))
          (rhs.mapRefs (Binding.bindRef options.braidingName u.handles)) isDefinition with
        | .ok v => .ok (final v)
        | .error e => .error (e, m₀) := by
  have hstep : ∀ lhs' rhs' : Diagram, m₀.step (assign lhs' rhs' isDefinition) =
      m₀.assign lhs' rhs' isDefinition :=
    fun _ _ => rfl
  have hflat : ∀ lhs' rhs' : Diagram, (assign lhs' rhs' isDefinition).IsFlat := fun _ _ => trivial
  rw [Diagram.mapRefs, Machine.executeAll_cons_of_isFlat (hflat _ _), hstep]
  generalize rhs.mapRefs (Binding.bindRef options.braidingName u.handles) = rhs'
  cases h.isAssignable with
  | ref t =>
    obtain ⟨handle, houtputs, hbind⟩ := h.exists_outputs rfl
    refine ⟨fun v => (m₀.bind (.handle handle) v).yield (.object t.object) v, fun v => rfl, ?_⟩
    rw [houtputs, Diagram.mapRefs, hbind]
    have hassign : ∀ t' : TensorRef, m₀.assign (.ref t') rhs' isDefinition =
        m₀.assignedTo (.ref t') rhs' isDefinition >>= fun v => .ok (m₀.bind t'.object v) := by
      intro t'
      change (m₀.arrangedValue (.ref t') rhs' isDefinition >>= _) = _
      rw [Machine.assignedTo]
      rcases m₀.arrangedValue (.ref t') rhs' isDefinition with e | w <;> rfl
    rw [hassign]
    rcases m₀.assignedTo (.ref (t.withObject (.handle handle))) rhs' isDefinition with e | v
    · rfl
    · have hexport : (m₀.bind (.handle handle) v).step
          (Binding.exportStatement (t.object, handle)) =
          .ok ((m₀.bind (.handle handle) v).yield (.object t.object) v) := by
        simp only [Binding.exportStatement, Machine.step, Machine.boundTo, Machine.bind,
          Table.find?_put_self]
        rfl
      change (m₀.bind (.handle handle) v).executeAll [Binding.exportStatement (t.object, handle)] =
        _
      rw [Machine.executeAll_cons_of_isFlat (by trivial), hexport]
      rfl
  | scalar s =>
    refine ⟨fun v => m₀.yield (.ofScalar s) v, fun v => rfl, ?_⟩
    have hassign : m₀.assign (.scalar s) rhs' isDefinition =
        m₀.assignedTo (.scalar s) rhs' isDefinition >>= fun v =>
        .ok (m₀.yield (.ofScalar s) v) := by
      change m₀.assignScalar s rhs' = _
      rw [Evaluated.assignScalar_eq, Machine.assignedTo]
      rcases m₀.evaluate rhs' with e | x <;> rfl
    have hmap : (Diagram.scalar s).mapRefs (Binding.bindRef options.braidingName u.handles) =
      .scalar s := rfl
    rw [h.outputs_eq_nil rfl, hmap, hassign]
    rcases m₀.assignedTo (.scalar s) rhs' isDefinition with e | v <;> rfl

/-- A run binds and checks objects, assigns, and hands back what is assigned. -/
theorem run_eq (m : Machine R) : p.run m =
    (m.executeAll
      (u.inputs.map Binding.bindStatement ++ u.checks options (assign lhs rhs isDefinition))).bind
      fun m₀ =>
      m₀.executeAll
          ((assign lhs rhs isDefinition).mapRefs (Binding.bindRef options.braidingName u.handles) ::
        u.outputs.map Binding.exportStatement) := by
  rw [Plan.run, h.statements, ← List.append_assoc, Machine.executeAll_append]

end

section

variable {R : Type} [CommRing R] [StarRing R] [Arithmetic R] [Arithmetic.IsExact R]
  {m m₀ : Machine R}

/-- Handles and names lead to the same values. -/
theorem assignedTo_sameOutcome (hbinds : m.BindsAll u.inputs m₀)
    (hgiven : ∀ t ∈ rhs.tensors, m.scope.has (.object t.object) = true) :
    SameOutcome Value.Agrees (m.named.assignedTo lhs rhs isDefinition)
      (m₀.assignedTo (lhs.mapRefs (Binding.bindRef options.braidingName u.handles))
        (rhs.mapRefs (Binding.bindRef options.braidingName u.handles)) isDefinition) := by
  have hevaluate : m₀.evaluate (rhs.mapRefs (Binding.bindRef options.braidingName u.handles)) =
      m.named.evaluate rhs :=
    h.isMonomial.evaluate_mapRefs hbinds.scope fun t ht =>
      hbinds.evaluateRef_bindRef h.read (h.mem_existing ht) (hgiven t ht)
  cases h.isAssignable with
  | scalar s =>
    change SameOutcome _ (m.named.evaluate rhs >>= _) (m₀.evaluate _ >>= _)
    rw [hevaluate]
    exact .refl Value.Agrees.refl _
  | ref t =>
    obtain ⟨hleft, hright, hadjoint⟩ := Binding.bindRef_parts options.braidingName u.handles t
    have hdenote : m₀.denote (rhs.mapRefs (Binding.bindRef options.braidingName u.handles)) =
        m.named.denote rhs := by
      rw [Machine.denote, hevaluate, Machine.denote]
    refine (Machine.arrangedValue_sameOutcome hleft hright h.isMonomial.isNormal
      (h.isMonomial.mapRefs _).isNormal hdenote isDefinition).bind fun w w' hw => .ok (.tensor ?_)
    rw [hadjoint]
    split_ifs
    · exact hw.adjoint
    · exact hw

/-- If the plan can be run, it hands back what is assigned by name. -/
theorem results_of_run {m' : Machine R} (hrun : p.run m = .ok m') :
    m.Supports options (assign lhs rhs isDefinition).citations ∧
      ∃ v, m.named.assignedTo lhs rhs isDefinition = .ok v ∧
        m'.results.Agrees (m.results.put (m.written lhs.resultName) v) := by
  rw [h.run_eq] at hrun
  obtain ⟨m₀, hframe, hrun⟩ := bind_eq_ok_iff.mp hrun
  obtain ⟨hsupports, hbinds⟩ := Machine.supports_of_executeAll h.read hframe
  obtain ⟨final, hfinal, heq⟩ := h.exists_executeAll m₀
  have hsame := h.assignedTo_sameOutcome hbinds fun t ht =>
    hsupports.given _ (h.uses t ht) ((ObjectUse.mem_existing_iff h.read).mp (h.mem_existing ht)).2
  rw [heq] at hrun
  split at hrun
  · rename_i w hw
    obtain rfl := Except.ok.inj hrun
    obtain ⟨v, hv, hwv⟩ := (hsame.symm fun _ _ => Value.Agrees.symm).exists_ok hw
    refine ⟨hsupports, v, hv, ?_⟩
    rw [hfinal, Machine.written, hbinds.results]
    exact (Table.Agrees.refl _).put _ hwv
  · cases hrun

/-- If the citations are supported and something is assigned by name, then the plan can be run and
hands it back. -/
theorem exists_run (hsupports : m.Supports options (assign lhs rhs isDefinition).citations)
    {v : Value R} (hv : m.named.assignedTo lhs rhs isDefinition = .ok v) :
    ∃ m', p.run m = .ok m' ∧ (m.results.put (m.written lhs.resultName) v).Agrees m'.results := by
  obtain ⟨m₀, hframe, hbinds⟩ := hsupports.exists_bindsAll h.read
  obtain ⟨final, hfinal, heq⟩ := h.exists_executeAll m₀
  have hsame := h.assignedTo_sameOutcome hbinds fun t ht =>
    hsupports.given _ (h.uses t ht) ((ObjectUse.mem_existing_iff h.read).mp (h.mem_existing ht)).2
  obtain ⟨w, hw, hvw⟩ := hsame.exists_ok hv
  refine ⟨final w, by simp only [h.run_eq, hframe, Except.bind, heq, hw], ?_⟩
  rw [hfinal, Machine.written, Machine.written, hbinds.results]
  exact (Table.Agrees.refl _).put _ hvw

end

end AssignmentPlan

end TensorDiagram
