import TensorDiagram.Proofs.CrossingSymmetry
import TensorDiagram.Proofs.LinearLowering

/-!
# Braidings are built once

Constructing braidings puts statements in front of an assignment that build them.  These read the
spaces of neighbouring legs, among which are those of the left hand side if it is assigned to and
not defined.  All of them belong to objects that have to be there before the assignment (`sources`).

Removing braidings only drops references.  So both ways to deal with braidings rewrite the
statements of a program in good order (`IsTree.constructBraidings_rewrites`,
`IsTree.removeBraidings_rewrites`), and what is read then are handles.
-/

namespace TensorDiagram

namespace Diagram

variable {d s s' : Diagram} {table table' : HandleTable}

/-! ## Constructing braidings -/

/-- The objects that have to be there before a statement: those that it uses or assigns to, without
braidings. -/
def sources (braidingName : String) (s : Diagram) : List ObjectRef :=
  (s.references.filter fun r => r.role ≠ .define ∧ ¬ r.term.isBraiding braidingName = true).map
    fun r => r.term.object

variable {braidingName : String}

theorem mem_sources {o : ObjectRef} : o ∈ s.sources braidingName ↔
    ∃ r ∈ s.references, r.role ≠ .define ∧ ¬ r.term.isBraiding braidingName = true ∧
      r.term.object = o := by
  simp only [sources, List.mem_map, List.mem_filter, decide_eq_true_iff, and_assoc]

/-- The references of which a statement reads the objects. -/
def readTerms : Diagram → List TensorRef
  | assign _ rhs _ => rhs.tensors
  | d => d.tensors

theorem references_of_isExpression (h : d.isExpression = true) : d.references = d.uses d := by
  cases d <;> simp_all [isExpression, references]

theorem readTerms_of_isExpression (h : d.isExpression = true) : d.readTerms = d.tensors := by
  cases d <;> simp_all [isExpression, readTerms]

section ReadTerms

variable {s : Diagram} (hs : s.IsStatement IsPrepared)

include hs

theorem IsStatement.reads_eq : s.reads = s.readTerms.map TensorRef.object := by
  cases hs with
  | assign => rfl
  | expression h _ => rw [reads_of_isExpression h, readTerms_of_isExpression h]

theorem IsStatement.readTerms_mapRefs (f : TensorRef → TensorRef) :
    (s.mapRefs f).readTerms = s.readTerms.map f := by
  cases hs with
  | assign => exact tensors_mapRefs f _
  | expression h hd =>
    rw [readTerms_of_isExpression (hd.1.mapRefs f).isExpression_eq, readTerms_of_isExpression h,
      tensors_mapRefs]

omit hs in
theorem references_assign (lhs rhs : Diagram) (isDefinition : Bool) :
    (assign lhs rhs isDefinition).references = rhs.uses (assign lhs rhs isDefinition) ++
      match lhs with
      | ref t => [⟨t, assignRole isDefinition, assign lhs rhs isDefinition⟩]
      | _ => [] := by
  cases lhs <;> rfl

omit hs in
/-- An assignment that is not to a reference only uses objects. -/
theorem assign_lhs_cases (lhs rhs : Diagram) (isDefinition : Bool) : (∃ t, lhs = .ref t) ∨
    ((assign lhs rhs isDefinition).references = rhs.uses (assign lhs rhs isDefinition) ∧
      (assign lhs rhs isDefinition).writes = []) := by
  cases lhs with
  | ref t => exact Or.inl ⟨t, rfl⟩
  | _ => exact Or.inr ⟨by simp [references_assign], rfl⟩

/-- What a statement reads has to be there before, unless it is a braiding. -/
theorem IsStatement.object_mem_sources {t : TensorRef} (ht : t ∈ s.readTerms)
    (hbraiding : ¬ t.isBraiding braidingName = true) : t.object ∈ s.sources braidingName := by
  rw [mem_sources]
  cases hs with
  | @assign rhs lhs isDefinition _ =>
    refine ⟨⟨t, .use, .assign lhs rhs isDefinition⟩, ?_, by simp, hbraiding, rfl⟩
    rw [references_assign]
    exact List.mem_append_left _ (List.mem_map_of_mem ht)
  | expression hexpression _ =>
    refine ⟨⟨t, .use, s⟩, ?_, by simp, hbraiding, rfl⟩
    rw [readTerms_of_isExpression hexpression] at ht
    rw [references_of_isExpression hexpression]
    exact List.mem_map_of_mem ht

/-- The neighbours of the strands of a statement are the references that it reads, and maybe the
left hand side. -/
theorem IsStatement.mem_neighbourTerms (braidingName : String) :
    (∀ t ∈ s.readTerms, t ∈ s.neighbourTerms?.getD []) ∧
    ∀ t ∈ s.neighbourTerms?.getD [], ¬ t.isBraiding braidingName = true →
      t.object ∈ s.sources braidingName := by
  have hsources : ∀ t ∈ s.readTerms, ¬ t.isBraiding braidingName = true →
      t.object ∈ s.sources braidingName :=
    fun t ht => hs.object_mem_sources ht
  cases hs with
  | @assign rhs lhs isDefinition hrhs =>
    by_cases htensor : rhs.isTensor = true
    · obtain ⟨others, hterms, hothers⟩ := neighbourTerms?_assign lhs isDefinition htensor
      rw [hterms, Option.getD_some, List.forall_mem_append]
      refine ⟨fun t ht => List.mem_append_left _ ht, hsources, fun u hu hbraiding => ?_⟩
      obtain ⟨t, rfl, rfl, rfl⟩ := hothers u hu
      refine mem_sources.mpr ⟨⟨t, .assign, .assign (.ref t) rhs false⟩, ?_, by simp, hbraiding, rfl⟩
      rw [references_assign]
      exact List.mem_append_right _ (List.mem_singleton_self _)
    · have hnone : (Diagram.assign lhs rhs isDefinition).neighbourTerms? = none := by
        unfold neighbourTerms?
        split
        · rename_i heq
          obtain ⟨-, rfl, -⟩ := Diagram.assign.inj heq
          rw [if_neg htensor]
        · rw [statementTerms?, if_neg htensor]
      have hnil : (Diagram.assign lhs rhs isDefinition).readTerms = [] :=
        hrhs.1.tensors_of_isScalar (hrhs.2.resolve_left htensor)
      rw [hnone, hnil]
      simp
  | expression hexpression hd =>
    have hterms : s.neighbourTerms? = if s.isTensor then some s.tensors else none := by
      cases s <;> simp_all [isExpression, neighbourTerms?, statementTerms?]
    rw [readTerms_of_isExpression hexpression] at hsources ⊢
    rw [hterms]
    split_ifs with htensor
    · exact ⟨fun _ => id, hsources⟩
    · rw [hd.1.tensors_of_isScalar (hd.2.resolve_left htensor)]
      simp

end ReadTerms

/-- What is put in front of a statement writes handles of braidings and reads what has to be there
before the statement. -/
theorem rewrites_of_prologue {final : Diagram} {statements : List Diagram} {hs : List Handle}
    (hkind : ∀ h ∈ hs, h.kind = .braiding) (hwritten : statements.flatMap writes = hs.map .handle)
    (hbraid : ∀ x ∈ statements, ∃ h first second, x = braid h first second)
    (hreads : ∀ x ∈ statements, x.reads ⊆ s.sources braidingName)
    (hfinal : final.reads ⊆ s.sources braidingName ++ hs.map .handle)
    (hwrites : final.writes = s.writes) (hbykind : s.WritesByKind → final.WritesByKind) :
    Rewrites (sources braidingName) [s] hs (statements ++ [final]) := by
  have hnone : hs.filter (·.kind = .temporary) = [] :=
    List.filter_eq_nil_iff.mpr fun h hh => by simp [hkind h hh]
  refine .of_statement ?_ ?_ ?_ ?_
  · intro known hknown
    refine closedFrom_append.mpr ⟨closedFrom_of_subset fun x hx =>
      List.Subset.trans (hreads x hx) hknown, ?_, trivial⟩
    rw [hwritten]
    exact List.Subset.trans hfinal (append_subset_append hknown (List.Subset.refl _))
  · rw [List.flatMap_append, List.flatMap_singleton, hwritten, hwrites]
  · intro hsources
    rw [hnone, List.perm_nil]
    have hsub : (statements ++ [final]).flatMap reads ⊆
        s.sources braidingName ++ hs.map .handle := by
      intro o ho
      obtain ⟨x, hx, hox⟩ := List.mem_flatMap.mp ho
      rcases List.mem_append.mp hx with hx | hx
      · exact List.mem_append_left _ (hreads x hx hox)
      · obtain rfl := List.mem_singleton.mp hx
        exact hfinal hox
    refine handlesIn_eq_nil_of_subset hsub ?_
    rw [handlesIn_append, hsources, handlesIn_map_handle, hnone, List.append_nil]
  · intro hs'
    refine List.forall_mem_append.mpr ⟨fun x hx k hk => ?_,
      List.forall_mem_singleton.mpr (hbykind hs')⟩
    have hmem : ObjectRef.handle k ∈ hs.map ObjectRef.handle :=
      hwritten ▸ List.mem_flatMap.mpr ⟨x, hx, hk⟩
    obtain ⟨k', hk', heq⟩ := List.mem_map.mp hmem
    obtain rfl := ObjectRef.handle.inj heq
    refine ⟨fun htemporary => ?_, fun _ => ?_⟩
    · rw [hkind k' hk'] at htemporary
      cases htemporary
    · obtain ⟨h, first, second, rfl⟩ := hbraid x hx
      obtain rfl : k' = h := by simpa [writes] using hk
      exact ⟨first, second, rfl⟩

/-- The statements that construct braidings write their handles and read spaces of the
neighbours. -/
theorem constructions_writes {spaces : StrandSpaces} {ts : List TensorRef}
    {statements : List Diagram} {handles : Table TensorRef Handle} {objects : List ObjectRef}
    (h : constructions braidingName spaces table ts = .ok (statements, handles, table'))
    (hspaces : ∀ i space, spaces.spaces.find? i = some space → space.object ∈ objects) :
    table.Grows (handles.map Prod.snd) table' ∧
      statements.flatMap writes = (handles.map Prod.snd).map .handle ∧
        ∀ x ∈ statements, x.reads ⊆ objects := by
  induction ts generalizing table table' statements handles with
  | nil =>
    obtain ⟨rfl, htable⟩ := Prod.mk.inj (Except.ok.inj h)
    obtain ⟨rfl, rfl⟩ := Prod.mk.inj htable
    exact ⟨.refl _, rfl, by simp⟩
  | cons t ts ih =>
    obtain ⟨s, first, second, rest, others, -, hfirst, hsecond, hrest, rfl, rfl⟩ :=
      exists_of_constructions_cons h
    obtain ⟨hgrows, hwrites, hreads⟩ := ih hrest
    have hcreate := (HandleTable.Grows.refl table).create .braiding none
    refine ⟨hcreate.trans hgrows, ?_, List.forall_mem_cons.mpr ⟨?_, hreads⟩⟩
    · rw [List.flatMap_cons, hwrites]
      rfl
    · simp [reads, hspaces _ _ hfirst, hspaces _ _ hsecond]

/-- The spaces of strands are spaces of neighbours. -/
theorem object_of_mem_spaces {neighbours : List TensorRef} {strands : List Strand}
    (h : (StrandSpaces.ofStrands neighbours strands).unresolved = []) {i : Index} {space : LegSpace}
    (hspace : (StrandSpaces.ofStrands neighbours strands).spaces.find? i = some space) :
    ∃ t ∈ neighbours, t.object = space.object := by
  obtain ⟨done, -, hassigned⟩ := StrandSpaces.exists_assigned h
  refine hassigned.holds (P := fun _ space => ∃ t ∈ neighbours, t.object = space.object) ?_ ?_
    i space hspace
  · intro x _ space hleg
    obtain ⟨t, ht, ⟨-, rfl⟩ | ⟨-, rfl⟩⟩ := StrandSpaces.exists_of_legSpace? hleg
    · exact ⟨⟨t, ht, rfl⟩, t, ht, rfl⟩
    · exact ⟨⟨t, ht, rfl⟩, t, ht, rfl⟩
  · intro x _ _ space hspace
    exact ⟨hspace.elim id id, hspace.elim id id⟩

/-- Replacing references that are not written keeps what is written. -/
theorem IsStatement.mapRefs_writes (hs : s.IsStatement IsPrepared) {f : TensorRef → TensorRef}
    (hf : ∀ t : TensorRef, t.object ∈ s.writes → (f t).object = t.object) :
    (s.mapRefs f).writes = s.writes ∧ (s.WritesByKind → (s.mapRefs f).WritesByKind) := by
  cases hs with
  | @assign rhs lhs isDefinition _ =>
    have hwrites : (Diagram.assign (lhs.mapRefs f) (rhs.mapRefs f) isDefinition).writes =
        (Diagram.assign lhs rhs isDefinition).writes := by
      cases lhs with
      | ref t => exact congrArg (fun o => [o]) (hf t (List.mem_singleton_self _))
      | _ => rfl
    exact ⟨hwrites, WritesByKind.assign hwrites⟩
  | expression hexpression hd =>
    have hnone := writes_of_isExpression (hd.1.mapRefs f).isExpression_eq
    refine ⟨by rw [hnone, writes_of_isExpression hexpression], fun _ k hk => ?_⟩
    rw [hnone] at hk
    cases hk

/-- With handles for its braidings, a statement reads its sources and these handles. -/
theorem IsStatement.reads_mapRefs_resolveRef (hs : s.IsStatement IsPrepared)
    {handles : Table TensorRef Handle} {terms : List TensorRef}
    (hkeys : handles.keys = distinct (terms.filter fun t => t.isBraiding braidingName))
    (hterms : ∀ t ∈ s.readTerms, t ∈ terms) : (s.mapRefs (resolveRef handles)).reads ⊆
      s.sources braidingName ++ (handles.map Prod.snd).map .handle := by
  intro o ho
  rw [(hs.mapRefs _).reads_eq, hs.readTerms_mapRefs, List.map_map] at ho
  obtain ⟨t, ht, rfl⟩ := List.mem_map.mp ho
  rw [Function.comp_apply]
  by_cases hbraiding : t.isBraiding braidingName = true
  · obtain ⟨handle, hentry, heq⟩ := exists_resolveRef_eq hkeys (hterms t ht) hbraiding
    rw [heq]
    exact List.mem_append_right _ (List.mem_map_of_mem (List.mem_map_of_mem (f := Prod.snd) hentry))
  · rw [resolveRef_eq_self hkeys hbraiding]
    exact List.mem_append_left _ (hs.object_mem_sources ht hbraiding)

/-- Constructing the braidings of a statement. -/
theorem IsStatement.constructStatement_rewrites (hs : s.IsStatement IsPrepared)
    (hwrites : .name braidingName ∉ s.writes)
    (h : s.constructStatement braidingName table = .ok (s', table')) :
    s'.IsTree IsLowerable ∧
      RewritesWith (sources braidingName) .braiding table s.flatten table' s'.flatten := by
  obtain ⟨hread, hneighbours⟩ := hs.mem_neighbourTerms braidingName
  have hcases := constructStatement_cases rfl h
  rw [hs.flatten_eq]
  rcases hcases with ⟨hnone, rfl, rfl⟩ | ⟨strands, statements, handles, -, hresolved,
    hconstructions, rfl⟩
  · have hreads : s'.reads ⊆ s'.sources braidingName ++ [] := by
      intro o ho
      rw [hs.reads_eq] at ho
      obtain ⟨t, ht, rfl⟩ := List.mem_map.mp ho
      refine List.mem_append_left _ (hs.object_mem_sources ht fun hbraiding => ?_)
      have hmem := mem_distinct.mpr (List.mem_filter.mpr ⟨hread t ht, hbraiding⟩)
      rw [hnone] at hmem
      cases hmem
    have hrewrites : Rewrites (sources braidingName) [s'] [] ([] ++ [s']) :=
      rewrites_of_prologue (by simp) rfl (by simp) (by simp) hreads rfl id
    rw [hs.flatten_eq]
    exact ⟨.leaf (Or.inl hs), .of_rewrites hrewrites⟩
  · have hspaces : ∀ i space, (StrandSpaces.ofStrands
        ((s.neighbourTerms?.getD []).filter fun t => !t.isBraiding braidingName)
        strands).spaces.find? i = some space → space.object ∈ s.sources braidingName := by
      intro i space hspace
      obtain ⟨t, ht, hobject⟩ := object_of_mem_spaces hresolved hspace
      obtain ⟨ht, hother⟩ := List.mem_filter.mp ht
      rw [← hobject]
      exact hneighbours t ht (by simpa using hother)
    obtain ⟨hkeys, hconstructs, -⟩ := constructions_spec hconstructions
    obtain ⟨hgrows, hwritten, hreads⟩ := constructions_writes hconstructions hspaces
    have hkind : ∀ h ∈ handles.map Prod.snd, h.kind = .braiding :=
      forall_mem_of_forall₂ (hconstructs.imp fun _ _ h => h.1)
    have hbraid : ∀ x ∈ statements, ∃ h first second, x = braid h first second := by
      have hflip : List.Forall₂ (fun _ x => ∃ h first second, x = braid h first second)
        (handles.map Prod.snd)
          statements := hconstructs.flip.imp fun h _ hx => ⟨h, hx.2⟩
      exact forall_mem_of_forall₂ hflip
    have hfinal := hs.reads_mapRefs_resolveRef hkeys hread
    have hkeeps := hs.mapRefs_writes (f := resolveRef handles) fun t ht => by
      rw [resolveRef_eq_self hkeys]
      exact fun hbraiding => hwrites (of_decide_eq_true hbraiding ▸ ht)
    have hflat : (block [sealed statements, s.mapRefs (resolveRef handles)]).flatten =
        statements ++ [s.mapRefs (resolveRef handles)] := by
      rw [flatten, flattenList, flattenList, flattenList, flatten,
        flattenList_constructs hconstructs, (hs.mapRefs _).flatten_eq, List.append_nil]
    rw [hflat]
    refine ⟨.block ?_, _, hgrows, hkind, rewrites_of_prologue hkind hwritten hbraid hreads hfinal
      hkeeps.1 hkeeps.2⟩
    simp only [List.forall_mem_cons, List.not_mem_nil, IsEmpty.forall_iff, implies_true, and_true]
    exact ⟨.leaf (Or.inr ⟨statements, rfl⟩), .leaf (Or.inl (hs.mapRefs _))⟩

theorem isTreePass_constructBraidings (braidingName : String) :
    IsTreePass (constructBraidings braidingName) (constructBraidingsList braidingName) :=
  .of_eq (fun _ _ => rfl) (fun _ => rfl) fun _ _ _ => rfl

/-- A single statement with a normal expression that does not write the name of braidings. -/
def IsConstructible (braidingName : String) (s : Diagram) : Prop :=
  s.IsStatement IsPrepared ∧ .name braidingName ∉ s.writes

/-- Constructing the braidings of a tree. -/
theorem IsTree.constructBraidings_rewrites {d' : Diagram}
    (hd : d.IsTree (IsConstructible braidingName))
    (h : d.constructBraidings braidingName table = .ok (d', table')) :
    d'.IsTree IsLowerable ∧
      RewritesWith (sources braidingName) .braiding table d.flatten table' d'.flatten := by
  refine hd.passes (isTreePass_constructBraidings braidingName) (fun _ => .of_rewrites .nil)
    (fun hxs hys => hxs.append hys) (fun {s s' table table'} hs h => ?_) h
  have heq : s.constructBraidings braidingName table = s.constructStatement braidingName table := by
    cases hs.1 with
    | assign => rfl
    | expression hexpression _ => cases s <;> simp_all [isExpression, constructBraidings]
  exact hs.1.constructStatement_rewrites hs.2 (heq ▸ h)

/-! ## Removing braidings -/

/-- The terms that remain of a sum remain of its terms. -/
theorem exists_of_mem_termRemainders {rest rest' : List (Sign × Diagram)}
    (h : termRemainders braidingName rest = .ok rest') :
    ∀ p' ∈ rest', ∃ p ∈ rest, p.2.remainder braidingName = .ok (some p'.2) := by
  induction rest generalizing rest' with
  | nil =>
    obtain rfl := Except.ok.inj h
    simp
  | cons p rest ih =>
    obtain ⟨sign, d⟩ := p
    rw [termRemainders] at h
    obtain ⟨d', hd', h⟩ := bind_eq_ok_iff.mp h
    obtain ⟨others, hothers, h⟩ := bind_eq_ok_iff.mp h
    obtain rfl := Except.ok.inj h
    refine List.forall_mem_cons.mpr ⟨⟨_, List.mem_cons_self, wholeOf_eq_ok hd'⟩, fun p' hp' => ?_⟩
    obtain ⟨p, hp, heq⟩ := ih hothers p' hp'
    exact ⟨p, List.mem_cons_of_mem _ hp, heq⟩

/-- What remains of a normal expression without its braidings is normal, with references of the
expression. -/
theorem IsNormal.remainder_spec {x : Diagram} (hd : d.IsNormal)
    (h : d.remainder braidingName = .ok (some x)) :
    x.IsNormal ∧ ∀ t ∈ x.tensors, t ∈ d.tensors ∧ ¬ t.isBraiding braidingName = true := by
  induction hd generalizing x with
  | ref t =>
    rw [remainder] at h
    split_ifs at h with hbraiding
    · obtain ⟨⟨⟩, -, h⟩ := bind_eq_ok_iff.mp h
      cases h
    · obtain rfl := Option.some.inj (Except.ok.inj h)
      refine ⟨.ref t, fun u hu => ⟨hu, ?_⟩⟩
      rw [List.mem_singleton.mp hu]
      exact hbraiding
  | scalar s =>
    obtain rfl := Option.some.inj (Except.ok.inj h)
    exact ⟨.scalar s, by simp [tensors]⟩
  | conj name =>
    obtain rfl := Option.some.inj (Except.ok.inj h)
    exact ⟨.conj name, by simp [tensors]⟩
  | @sum sign a rest ha hrest iha ihrest =>
    rw [remainder] at h
    obtain ⟨a', ha', h⟩ := bind_eq_ok_iff.mp h
    obtain ⟨rest', hrest', h⟩ := bind_eq_ok_iff.mp h
    obtain rfl := Option.some.inj (Except.ok.inj h)
    obtain ⟨hnormal, hterms⟩ := iha (wholeOf_eq_ok ha')
    have hothers : ∀ p' ∈ rest', p'.2.IsNormal ∧
        ∀ t ∈ p'.2.tensors, t ∈ termTensors rest ∧ ¬ t.isBraiding braidingName = true := by
      intro p' hp'
      obtain ⟨p, hp, hremains⟩ := exists_of_mem_termRemainders hrest' p' hp'
      obtain ⟨hnormal, hterms⟩ := ihrest p hp hremains
      refine ⟨hnormal, fun t ht => ⟨?_, (hterms t ht).2⟩⟩
      rw [termTensors_eq]
      exact List.mem_flatMap.mpr ⟨p, hp, (hterms t ht).1⟩
    refine ⟨.sum hnormal fun p' hp' => (hothers p' hp').1, fun t ht => ?_⟩
    rw [tensors, termTensors_eq, List.mem_append] at ht
    rw [tensors, List.mem_append]
    rcases ht with ht | ht
    · exact ⟨Or.inl (hterms t ht).1, (hterms t ht).2⟩
    · obtain ⟨p', hp', ht⟩ := List.mem_flatMap.mp ht
      exact ⟨Or.inr ((hothers p' hp').2 t ht).1, ((hothers p' hp').2 t ht).2⟩
  | @pair a b ha hb iha ihb =>
    rw [Diagram.pair, remainder] at h
    obtain ⟨a', ha', h⟩ := bind_eq_ok_iff.mp h
    obtain ⟨b', hb', h⟩ := bind_eq_ok_iff.mp h
    have h := Except.ok.inj h
    simp only [tensors, listTensors, List.append_nil, List.mem_append]
    rcases a' with _ | a' <;> rcases b' with _ | b'
    · cases h
    · obtain rfl := Option.some.inj h
      obtain ⟨hnormal, hterms⟩ := ihb hb'
      exact ⟨hnormal, fun t ht => ⟨Or.inr (hterms t ht).1, (hterms t ht).2⟩⟩
    · obtain rfl := Option.some.inj h
      obtain ⟨hnormal, hterms⟩ := iha ha'
      exact ⟨hnormal, fun t ht => ⟨Or.inl (hterms t ht).1, (hterms t ht).2⟩⟩
    · obtain rfl : Diagram.pair a' b' = x := Option.some.inj h
      obtain ⟨hnormal, hterms⟩ := iha ha'
      obtain ⟨hnormal', hterms'⟩ := ihb hb'
      refine ⟨.pair hnormal hnormal', fun t ht => ?_⟩
      simp only [tensors, listTensors, List.append_nil, List.mem_append] at ht
      rcases ht with ht | ht
      · exact ⟨Or.inl (hterms t ht).1, (hterms t ht).2⟩
      · exact ⟨Or.inr (hterms' t ht).1, (hterms' t ht).2⟩

theorem IsStatement.statementTerms?_getD (hs : s.IsStatement IsPrepared) :
    s.statementTerms?.getD [] = s.readTerms := by
  cases hs with
  | @assign rhs lhs isDefinition hrhs =>
    rw [statementTerms?, readTerms]
    split_ifs with htensor
    · rfl
    · exact (hrhs.1.tensors_of_isScalar (hrhs.2.resolve_left htensor)).symm
  | expression hexpression hd =>
    have hterms : s.statementTerms? = if s.isTensor then some s.tensors else none := by
      cases s <;> simp_all [isExpression, statementTerms?]
    rw [readTerms_of_isExpression hexpression, hterms]
    split_ifs with htensor
    · rfl
    · exact (hd.1.tensors_of_isScalar (hd.2.resolve_left htensor)).symm

/-- Either there is no braiding to be removed, or the indices are replaced before all braidings are
dropped. -/
theorem removeStatement_cases (h : s.removeStatement braidingName = .ok s') :
    ((∀ t ∈ s.statementTerms?.getD [], ¬ t.isBraiding braidingName = true) ∧ s' = s) ∨
      ∃ g, (s.mapIndices g).purgeBraidings braidingName = .ok s' := by
  rw [removeStatement] at h
  rcases hterms : s.statementTerms? with _ | terms
  · rw [hterms] at h
    exact Or.inl ⟨by simp, (Except.ok.inj h).symm⟩
  · rw [hterms] at h
    dsimp only at h
    split_ifs at h with hnone
    · refine Or.inl ⟨fun t ht => ?_, (Except.ok.inj h).symm⟩
      exact List.filter_eq_nil_iff.mp (List.isEmpty_iff.mp hnone) t ht
    · obtain ⟨strands, -, h⟩ := bind_eq_ok_iff.mp h
      obtain ⟨map, -, h⟩ := bind_eq_ok_iff.mp h
      obtain ⟨closed, -, h⟩ := bind_eq_ok_iff.mp h
      exact Or.inr ⟨_, h⟩

/-- Removing the braidings of a statement leaves a statement that writes the same and reads no
braidings. -/
theorem IsStatement.removeStatement_rewrites (hs : s.IsStatement IsPrepared)
    (h : s.removeStatement braidingName = .ok s') :
    Rewrites (sources braidingName) s.flatten [] s'.flatten := by
  suffices hspec : s'.flatten = [s'] ∧ s'.reads ⊆ s.sources braidingName ++ [] ∧
      s'.writes = s.writes ∧ (s.WritesByKind → s'.WritesByKind) by
    obtain ⟨hflat, hreads, hwrites, hkind⟩ := hspec
    have hrewrites : Rewrites (sources braidingName) [s] [] ([] ++ [s']) :=
      rewrites_of_prologue (by simp) rfl (by simp) (by simp) hreads hwrites hkind
    rw [hs.flatten_eq, hflat]
    exact hrewrites
  have hsources : ∀ t ∈ s.readTerms, ¬ t.isBraiding braidingName = true →
      t.object ∈ s.sources braidingName ++ [] :=
    fun t ht hbraiding => List.mem_append_left _ (hs.object_mem_sources ht hbraiding)
  rcases removeStatement_cases h with ⟨hnone, rfl⟩ | ⟨g, hpurge⟩
  · rw [hs.statementTerms?_getD] at hnone
    refine ⟨hs.flatten_eq, fun o ho => ?_, rfl, id⟩
    rw [hs.reads_eq] at ho
    obtain ⟨t, ht, rfl⟩ := List.mem_map.mp ho
    exact hsources t ht (hnone t ht)
  · -- what remains are references of the statement with other indices
    have hremains : ∀ {d x : Diagram}, d.IsNormal → d.tensors = s.readTerms →
        (d.mapIndices g).remainder braidingName = .ok (some x) →
        x.IsNormal ∧ x.tensors.map TensorRef.object ⊆ s.sources braidingName ++ [] := by
      intro d x hd hterms hx
      obtain ⟨hnormal, htensors⟩ := (hd.mapRefs _).remainder_spec hx
      refine ⟨hnormal, fun o ho => ?_⟩
      obtain ⟨t, ht, rfl⟩ := List.mem_map.mp ho
      obtain ⟨ht, hbraiding⟩ := htensors t ht
      rw [tensors_mapRefs, hterms] at ht
      obtain ⟨u, hu, rfl⟩ := List.mem_map.mp ht
      exact hsources u hu hbraiding
    cases hs with
    | @assign rhs lhs isDefinition hrhs =>
      change (Diagram.assign (lhs.mapIndices g) (rhs.mapIndices g) isDefinition).purgeBraidings
        braidingName = _ at hpurge
      rw [purgeBraidings_assign] at hpurge
      obtain ⟨rhs', hrhs', heq⟩ := bind_eq_ok_iff.mp hpurge
      obtain rfl := Except.ok.inj heq
      have hwrites : (Diagram.assign (lhs.mapIndices g) rhs' isDefinition).writes =
          (Diagram.assign lhs rhs isDefinition).writes := by
        cases lhs <;> rfl
      exact ⟨rfl, (hremains hrhs.1 rfl (wholeOf_eq_ok hrhs')).2, hwrites,
        WritesByKind.assign hwrites⟩
    | expression hexpression hd =>
      obtain ⟨hnormal, hreads⟩ :=
        hremains hd.1 (readTerms_of_isExpression hexpression).symm (wholeOf_eq_ok hpurge)
      have hs' : s'.IsStatement fun _ => True := .expression hnormal.isExpression_eq trivial
      refine ⟨hs'.flatten_eq, by rwa [reads_of_isExpression hnormal.isExpression_eq], ?_,
        fun _ k hk => ?_⟩
      · rw [writes_of_isExpression hnormal.isExpression_eq, writes_of_isExpression hexpression]
      · rw [writes_of_isExpression hnormal.isExpression_eq] at hk
        cases hk

theorem isTreePass_removeBraidings (braidingName : String) :
    IsTreePass (fun table d => d.removeBraidings braidingName >>= fun d' => .ok (d', table))
      (fun table ds => removeBraidingsList braidingName ds >>= fun ds' => .ok (ds', table)) where
  block h := by
    obtain ⟨d', hd', h⟩ := bind_eq_ok_iff.mp h
    obtain ⟨rfl, rfl⟩ := Prod.mk.inj (Except.ok.inj h)
    rw [removeBraidings] at hd'
    obtain ⟨statements', hlist, hd'⟩ := bind_eq_ok_iff.mp hd'
    exact ⟨statements', by rw [hlist, ok_bind], (Except.ok.inj hd').symm⟩
  nil h := by
    obtain ⟨rfl, rfl⟩ := Prod.mk.inj (Except.ok.inj h)
    exact ⟨rfl, rfl⟩
  cons h := by
    obtain ⟨ds', hds', h⟩ := bind_eq_ok_iff.mp h
    obtain ⟨rfl, rfl⟩ := Prod.mk.inj (Except.ok.inj h)
    rw [removeBraidingsList] at hds'
    obtain ⟨d', hd', hds'⟩ := bind_eq_ok_iff.mp hds'
    obtain ⟨rest', hrest', hds'⟩ := bind_eq_ok_iff.mp hds'
    exact ⟨d', _, rest', by rw [hd', ok_bind], by rw [hrest', ok_bind], (Except.ok.inj hds').symm⟩

/-- Removing the braidings of a tree. -/
theorem IsTree.removeBraidings_rewrites {d' : Diagram}
    (hd : d.IsTree (IsConstructible braidingName)) (h : d.removeBraidings braidingName = .ok d') :
    Rewrites (sources braidingName) d.flatten [] d'.flatten := by
  suffices hpass : d'.IsTree (fun _ => True) ∧
    Rewrites (sources braidingName) d.flatten [] d'.flatten from hpass.2
  have hrun : (d.removeBraidings braidingName >>= fun d' => .ok (d', HandleTable.empty)) =
      .ok (d', .empty) := by
    rw [h, ok_bind]
  refine hd.passes (R := fun _ statements _ out =>
    Rewrites (sources braidingName) statements [] out)
    (isTreePass_removeBraidings braidingName) (fun _ => .nil) (fun hxs hys => hxs.append hys)
    (fun {s s' table table'} ⟨hs, _⟩ h => ?_) hrun
  obtain ⟨x, hx, h⟩ := bind_eq_ok_iff.mp h
  obtain ⟨rfl, rfl⟩ := Prod.mk.inj (Except.ok.inj h)
  have heq : s.removeBraidings braidingName = s.removeStatement braidingName := by
    cases hs with
    | assign => rfl
    | expression hexpression _ => cases s <;> simp_all [isExpression, removeBraidings]
  exact ⟨.leaf trivial, hs.removeStatement_rewrites (heq ▸ hx)⟩

end Diagram

end TensorDiagram
