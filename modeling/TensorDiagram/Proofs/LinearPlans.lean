import TensorDiagram.Proofs.BoundPrograms

/-!
# Linear plans

A plan binds objects, checks them, runs the compiled statements and hands objects back.  The
compiled statements come from a bound program in good order, whichever way braidings are dealt with.
So a plan is linear (`Plan.IsLinear`): all that a statement reads was written before, the
temporaries are defined one after another and read once each, and every braiding is built once
(`Plan.isLinear_of_program`).
-/

namespace TensorDiagram

/-! ## Plans -/

open Diagram

/-- Plans in which handles are used in good order. -/
structure Plan.IsLinear (p : Plan) : Prop where
  /-- All that a statement reads was written by an earlier statement. -/
  closed : ∀ before s after, p.statements = before ++ s :: after →
    ∀ o ∈ s.reads, ∃ s' ∈ before, o ∈ s'.writes
  /-- The temporaries are numbered from zero. -/
  numbered : p.temporaries = (List.range p.temporaries.length).map (Handle.mk .temporary)
  /-- The temporaries are written once each, in their order. -/
  defined : handlesIn .temporary (p.statements.flatMap writes) = p.temporaries
  /-- Every temporary is read once. -/
  readOnce : ∀ h ∈ p.temporaries, (p.statements.flatMap reads).count (.handle h) = 1
  /-- The braidings are written once each. -/
  built : handlesIn .braiding (p.statements.flatMap writes) = p.table.handlesOf .braiding ∧
    (p.table.handlesOf .braiding).Nodup
  /-- Temporaries are written by definitions, and braidings where they are built. -/
  byKind : ∀ s ∈ p.statements, s.WritesByKind

theorem handlesIn_eq_nil_of_bound {kind : HandleKind} (hkind : kind ≠ .object)
    {objects : List ObjectRef} (h : ∀ o ∈ objects, IsBoundObject o) : handlesIn kind objects = [] :=
  List.eq_nil_iff_forall_not_mem.mpr fun _ hmem =>
    hkind ((mem_handlesIn.mp hmem).2.symm.trans (h _ (mem_handlesIn.mp hmem).1))

theorem Diagram.WritesByKind.of_bound {s : Diagram} (h : ∀ o ∈ s.writes, IsBoundObject o) :
    s.WritesByKind := by
  intro k hk
  have hkind : k.kind = .object := h _ hk
  rw [hkind]
  exact ⟨nofun, nofun⟩

section

variable {braidingName : String} {binding : Binding}
  (hbinding : IsBoundProgram braidingName binding)

include hbinding

/-- The statements around the body write and read handles of objects. -/
theorem Diagram.IsBoundProgram.isBoundObject :
    (∀ o ∈ binding.prologue.flatMap writes, IsBoundObject o) ∧
      (∀ o ∈ binding.checks.flatMap reads, IsBoundObject o) ∧
      ∀ o ∈ binding.epilogue.flatMap reads, IsBoundObject o := by
  have hprologue : ∀ o ∈ binding.prologue.flatMap writes, IsBoundObject o := by
    intro o ho
    obtain ⟨s, hs, ho⟩ := List.mem_flatMap.mp ho
    obtain ⟨h, name, rfl, hkind⟩ := hbinding.prologue s hs
    rw [List.mem_singleton.mp ho]
    exact hkind
  refine ⟨hprologue, fun o ho => ?_, fun o ho => ?_⟩
  · obtain ⟨s, hs, ho⟩ := List.mem_flatMap.mp ho
    obtain ⟨h, name, m, n, rfl, hwritten⟩ := hbinding.checks s hs
    rw [List.mem_singleton.mp ho]
    exact hprologue _ hwritten
  · obtain ⟨s, hs, ho⟩ := List.mem_flatMap.mp ho
    obtain ⟨name, h, rfl, hwritten⟩ := hbinding.epilogue s hs
    obtain ⟨s', hs', ho'⟩ := List.mem_flatMap.mp hwritten
    rw [List.mem_singleton.mp ho]
    exact hbinding.bound s' hs' _ (Or.inl ho')

/-- Binding reads nothing, and checking and handing back write nothing. -/
theorem Diagram.IsBoundProgram.flatMap_eq_nil : binding.prologue.flatMap reads = [] ∧
    binding.checks.flatMap writes = [] ∧ binding.epilogue.flatMap writes = [] := by
  simp only [List.flatMap_eq_nil_iff]
  refine ⟨fun s hs => ?_, fun s hs => ?_, fun s hs => ?_⟩
  · obtain ⟨h, name, rfl, -⟩ := hbinding.prologue s hs
    rfl
  · obtain ⟨h, name, m, n, rfl, -⟩ := hbinding.checks s hs
    rfl
  · obtain ⟨name, h, rfl, -⟩ := hbinding.epilogue s hs
    rfl

/-- The statements of a plan. -/
theorem Diagram.IsBoundProgram.flatten_toBlock (body : Diagram) :
    { binding with body := body }.toBlock.flatten =
      binding.prologue ++ (binding.checks ++ (body.flatten ++ binding.epilogue)) := by
  have hprologue : flattenList binding.prologue = binding.prologue :=
    flattenList_eq_self fun s hs => by
    obtain ⟨h, name, rfl, -⟩ := hbinding.prologue s hs
    rfl
  have hchecks : flattenList binding.checks = binding.checks := flattenList_eq_self fun s hs => by
    obtain ⟨h, name, m, n, rfl, -⟩ := hbinding.checks s hs
    rfl
  have hepilogue : flattenList binding.epilogue = binding.epilogue :=
    flattenList_eq_self fun s hs => by
    obtain ⟨name, h, rfl, -⟩ := hbinding.epilogue s hs
    rfl
  simp only [Binding.toBlock, flatten, flattenList, hprologue, hchecks, hepilogue, List.append_nil]

variable {body : Diagram} {hs : List Handle}
  (hrewrites : Rewrites (sources braidingName) binding.body.flatten hs body.flatten)

include hrewrites

/-- The statements of a plan are closed. -/
theorem Diagram.IsBoundProgram.closedFrom :
    ClosedFrom reads [] { binding with body := body }.toBlock.flatten := by
  obtain ⟨hprologue, hchecks, -⟩ := hbinding.flatMap_eq_nil
  rw [hbinding.flatten_toBlock, closedFrom_append, closedFrom_append, closedFrom_append, hchecks,
    List.nil_append, List.append_nil]
  refine ⟨closedFrom_of_subset fun s hs => ?_, closedFrom_of_subset fun s hs => ?_,
    hrewrites.closed hbinding.closed, closedFrom_of_subset fun s hs => ?_⟩
  · rw [List.flatMap_eq_nil_iff.mp hprologue s hs]
    exact List.nil_subset _
  · obtain ⟨h, name, m, n, rfl, hwritten⟩ := hbinding.checks s hs
    exact List.cons_subset.mpr ⟨hwritten, List.nil_subset _⟩
  · obtain ⟨name, h, rfl, hwritten⟩ := hbinding.epilogue s hs
    exact List.cons_subset.mpr ⟨List.mem_append_right _ (hrewrites.written hwritten),
      List.nil_subset _⟩

/-- The statements of a plan write all new handles that are not those of objects, in the order of
creation. -/
theorem Diagram.IsBoundProgram.handlesIn_writes {kind : HandleKind} (hkind : kind ≠ .object) :
    handlesIn kind ({ binding with body := body }.toBlock.flatten.flatMap writes) =
      hs.filter (·.kind = kind) := by
  obtain ⟨-, hchecks, hepilogue⟩ := hbinding.flatMap_eq_nil
  have hbody : handlesIn kind (binding.body.flatten.flatMap writes) = [] := by
    refine handlesIn_eq_nil_of_bound hkind fun o ho => ?_
    obtain ⟨s, hs, ho⟩ := List.mem_flatMap.mp ho
    exact hbinding.bound s hs o (Or.inl ho)
  rw [hbinding.flatten_toBlock, List.flatMap_append, List.flatMap_append, List.flatMap_append,
    hchecks, hepilogue, handlesIn_append, handlesIn_eq_nil_of_bound hkind hbinding.isBoundObject.1,
    List.nil_append, List.nil_append, List.append_nil, hrewrites.created hbody]

/-- The statements of a plan read every new temporary once. -/
theorem Diagram.IsBoundProgram.handlesIn_reads :
    (handlesIn .temporary ({ binding with body := body }.toBlock.flatten.flatMap reads)).Perm
      (hs.filter (·.kind = .temporary)) := by
  obtain ⟨-, hchecks, hepilogue⟩ := hbinding.isBoundObject
  have hbody : handlesIn .temporary (binding.body.flatten.flatMap (sources braidingName)) = [] := by
    refine handlesIn_eq_nil_of_bound (by simp) fun o ho => ?_
    obtain ⟨s, hs, ho⟩ := List.mem_flatMap.mp ho
    exact hbinding.bound s hs o (Or.inr ho)
  rw [hbinding.flatten_toBlock, List.flatMap_append, List.flatMap_append, List.flatMap_append,
    hbinding.flatMap_eq_nil.1, List.nil_append, handlesIn_append, handlesIn_append,
    handlesIn_eq_nil_of_bound (by simp) hchecks, handlesIn_eq_nil_of_bound (by simp) hepilogue,
    List.nil_append, List.append_nil]
  exact hrewrites.readOnce hbody

theorem Diagram.IsBoundProgram.writesByKind :
    ∀ s ∈ { binding with body := body }.toBlock.flatten, s.WritesByKind := by
  obtain ⟨-, hchecks, hepilogue⟩ := hbinding.flatMap_eq_nil
  rw [hbinding.flatten_toBlock]
  simp only [List.forall_mem_append]
  refine ⟨fun s hs => .of_bound fun o ho => ?_, fun s hs => .of_bound fun o ho => ?_,
    hrewrites.byKind fun s hs => .of_bound fun o ho => hbinding.bound s hs o (Or.inl ho),
    fun s hs => .of_bound fun o ho => ?_⟩
  · exact hbinding.isBoundObject.1 o (List.mem_flatMap.mpr ⟨s, hs, ho⟩)
  · rw [List.flatMap_eq_nil_iff.mp hchecks s hs] at ho
    cases ho
  · rw [List.flatMap_eq_nil_iff.mp hepilogue s hs] at ho
    cases ho

/-- A plan is linear if its body comes from a bound program in good order. -/
theorem Plan.isLinear_of_rewrites {table table' : HandleTable} {created : List Handle}
    (hcreated : HandleTable.empty.Grows created table) (hobjects : ∀ h ∈ created, h.kind = .object)
    (hgrows : table.Grows hs table') :
    (Plan.ofDiagram { binding with body := body }.toBlock table').IsLinear := by
  have hnumbered : table'.IsNumbered := (HandleTable.isNumbered_empty.grow hcreated).grow hgrows
  have htable : ∀ {kind}, kind ≠ .object → table'.handlesOf kind = hs.filter (·.kind = kind) := by
    intro kind hkind
    have hnone : created.filter (·.kind = kind) = [] :=
      List.filter_eq_nil_iff.mpr fun h hh => by simpa [hobjects h hh] using hkind.symm
    rw [hgrows.handlesOf_eq, hcreated.handlesOf_eq, hnone]
    rfl
  have hclosed := hbinding.closedFrom hrewrites
  have hwritten : ∀ {kind}, kind ≠ .object → handlesIn kind
      ({ binding with body := body }.toBlock.flatten.flatMap writes) = table'.handlesOf kind :=
    fun hkind => by
    rw [hbinding.handlesIn_writes hrewrites hkind, htable hkind]
  refine ⟨fun before s after heq o ho => ?_, hnumbered .temporary, hwritten (by simp),
    fun h hh => ?_, ⟨hwritten (by simp), hnumbered.nodup .braiding⟩,
    hbinding.writesByKind hrewrites⟩
  · change { binding with body := body }.toBlock.flatten = _ at heq
    rw [heq] at hclosed
    exact hclosed.exists_earlier ho
  · have hkind : h.kind = .temporary := of_decide_eq_true (List.mem_filter.mp hh).2
    have hperm := hbinding.handlesIn_reads hrewrites
    rw [← htable (by simp)] at hperm
    rw [← count_handlesIn, hkind]
    exact (hperm.count_eq h).trans (List.count_eq_one_of_mem (hnumbered.nodup .temporary) hh)

end

/-- Plans of programs are linear. -/
theorem Plan.isLinear_of_program {options : Options} {order : Option ContractionOrder}
    {d : Diagram} {p : Plan} (hd : d.IsProgram) (h : Plan.forBraided options order d = .ok p ∨
      Plan.forSymmetric options order d = .ok p) : p.IsLinear := by
  have hbound : ∀ {binding : Binding} {table : HandleTable}, Plan.bound options order d =
      .ok (binding, table) → IsBoundProgram options.braidingName binding ∧
        ∃ hs, HandleTable.empty.Grows hs table ∧ ∀ h ∈ hs, h.kind = .object := by
    intro binding table h
    obtain ⟨d', hd', h⟩ := bind_eq_ok_iff.mp h
    exact isBoundProgram_of_bindNames (hd.nested hd') h
  rcases h with h | h
  · obtain ⟨binding, table, constructed, table₁, lowered, table₂, h', hconstruct, hlower, rfl⟩ :=
      Plan.forBraided_spec h
    obtain ⟨hbinding, created, hcreated, hobjects⟩ := hbound h'
    obtain ⟨htree, braidings, hgrows, hbraidings, hrewrites⟩ :=
      hbinding.tree.constructBraidings_rewrites hconstruct
    obtain ⟨temporaries, hgrows', htemporaries, hrewrites'⟩ := htree.lowerStatements_rewrites hlower
    exact Plan.isLinear_of_rewrites hbinding (hrewrites.trans hrewrites' hbraidings htemporaries)
      hcreated hobjects (hgrows.trans hgrows')
  · obtain ⟨binding, table, body, h', hremove, rfl⟩ := Plan.forSymmetric_spec h
    obtain ⟨hbinding, created, hcreated, hobjects⟩ := hbound h'
    exact Plan.isLinear_of_rewrites hbinding (hbinding.tree.removeBraidings_rewrites hremove)
      hcreated hobjects (.refl _)

end TensorDiagram
