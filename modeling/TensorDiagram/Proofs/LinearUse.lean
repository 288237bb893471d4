import TensorDiagram.Diagram.Classify
import TensorDiagram.Plan.Basic
import TensorDiagram.Proofs.Outcomes

/-!
# Reading and writing

A statement reads the objects of the references on its right hand side and of the spaces it asks
for, and it writes at most one object.  A list of statements is closed from some objects on, if
every object is written before it is read or is one of these (`ClosedFrom`).

A compilation replaces statements by others and creates handles for that.  `Rewrites needs
statements handles out` says that it does so in good order: the new statements are closed if the old
ones were, they write what the old ones wrote and the new handles, each once and in the order of
creation, and they read every new temporary once.  What a statement needs to be replaced may be more
than what it reads, so the objects that it needs are a parameter.

Lists of statements can be replaced one after another (`Rewrites.append`) and in two steps
(`Rewrites.trans`).
-/

namespace TensorDiagram

/-! ## Handle tables that grow -/

namespace HandleTable

/-- The table comes from another one by creating handles, one after another. -/
inductive Grows : HandleTable → List Handle → HandleTable → Prop
  /-- No handle is created. -/
  | refl (s : HandleTable) : Grows s [] s
  /-- One more handle is created. -/
  | create {s s' : HandleTable} {hs : List Handle} (h : Grows s hs s') (kind : HandleKind)
      (name : Option ObjectRef) : Grows s (hs ++ [s'.next kind]) (s'.create kind name).2

namespace Grows

variable {s s' s'' : HandleTable} {hs hs' : List Handle}

/-- Handles are created by one step after another. -/
theorem trans (h : Grows s hs s') (h' : Grows s' hs' s'') : Grows s (hs ++ hs') s'' := by
  induction h' with
  | refl => rwa [List.append_nil]
  | create _ kind name ih =>
    rw [← List.append_assoc]
    exact ih.create kind name

/-- New handles are appended. -/
theorem handles_eq (h : Grows s hs s') : s'.handles = s.handles ++ hs := by
  induction h with
  | refl => rw [List.append_nil]
  | @create s' hs _ kind name ih =>
    rw [← List.append_assoc, ← ih]
    simp [handles, HandleTable.create]

/-- So are those of one kind. -/
theorem handlesOf_eq (h : Grows s hs s') (kind : HandleKind) :
    s'.handlesOf kind = s.handlesOf kind ++ hs.filter (·.kind = kind) := by
  rw [handlesOf, h.handles_eq, List.filter_append, handlesOf]

end Grows

/-- The handles of every kind are numbered in the order of creation. -/
def IsNumbered (s : HandleTable) : Prop :=
  ∀ kind, s.handlesOf kind = (List.range (s.handlesOf kind).length).map (Handle.mk kind)

/-- The empty table is numbered. -/
theorem isNumbered_empty : empty.IsNumbered := fun _ => rfl

/-- New handles are numbered on. -/
theorem IsNumbered.grow {s s' : HandleTable} {hs : List Handle} (hs' : s.IsNumbered)
    (h : Grows s hs s') : s'.IsNumbered := by
  induction h with
  | refl => exact hs'
  | @create s' hs _ kind name ih =>
    have hcreate := (Grows.refl s').create kind name
    intro k
    rw [hcreate.handlesOf_eq, List.nil_append, List.filter_singleton, next]
    by_cases hk : kind = k
    · subst hk
      simp only [decide_true, Bool.cond_true, List.length_append, List.length_singleton,
        List.range_succ, List.map_append, List.map_singleton]
      rw [← ih kind]
    · simp only [hk, decide_false, Bool.cond_false, List.append_nil]
      exact ih k

/-- Handles of one kind differ in their numbers. -/
theorem IsNumbered.nodup {s : HandleTable} (h : s.IsNumbered) (kind : HandleKind) :
    (s.handlesOf kind).Nodup := by
  rw [h kind]
  exact List.nodup_range.map fun m n hmn => (Handle.mk.inj hmn).2

end HandleTable

/-- The handles of a kind among some objects. -/
def handlesIn (kind : HandleKind) (objects : List ObjectRef) : List Handle :=
  objects.filterMap fun
    | .handle h => if h.kind = kind then some h else none
    | .name _ => none

/-- Parts of two lists. -/
theorem append_subset_append {α : Type} {xs xs' ys ys' : List α} (hx : xs ⊆ xs') (hy : ys ⊆ ys') :
    xs ++ ys ⊆ xs' ++ ys' :=
  List.append_subset.mpr
    ⟨List.Subset.trans hx (List.subset_append_left _ _),
      List.Subset.trans hy (List.subset_append_right _ _)⟩

section HandlesIn

variable {kind : HandleKind} {xs ys : List ObjectRef}

/-- No handles are in the empty list. -/
@[simp] theorem handlesIn_nil : handlesIn kind [] = [] := rfl

/-- The handles in two lists. -/
@[simp] theorem handlesIn_append :
    handlesIn kind (xs ++ ys) = handlesIn kind xs ++ handlesIn kind ys :=
  List.filterMap_append

/-- The handles of one kind among some handles. -/
theorem handlesIn_map_handle (hs : List Handle) :
    handlesIn kind (hs.map .handle) = hs.filter (·.kind = kind) := by
  rw [handlesIn, List.filterMap_map, ← List.filterMap_eq_filter]
  refine List.filterMap_congr fun h _ => ?_
  simp [Option.guard]

/-- A handle in a list is one of its objects. -/
theorem mem_handlesIn {h : Handle} : h ∈ handlesIn kind xs ↔ .handle h ∈ xs ∧ h.kind = kind := by
  rw [handlesIn, List.mem_filterMap]
  constructor
  · rintro ⟨o, ho, hsome⟩
    cases o with
    | name text => cases hsome
    | handle h' =>
      dsimp only at hsome
      split_ifs at hsome with hkind
      obtain rfl := Option.some.inj hsome
      exact ⟨ho, hkind⟩
  · rintro ⟨ho, hkind⟩
    exact ⟨_, ho, if_pos hkind⟩

/-- Fewer objects have fewer handles. -/
theorem handlesIn_eq_nil_of_subset (hsub : xs ⊆ ys) (h : handlesIn kind ys = []) :
    handlesIn kind xs = [] :=
  List.eq_nil_iff_forall_not_mem.mpr fun _ hmem =>
    List.eq_nil_iff_forall_not_mem.mp
      h _ (mem_handlesIn.mpr ⟨hsub (mem_handlesIn.mp hmem).1, (mem_handlesIn.mp hmem).2⟩)

/-- The order of the objects does not matter. -/
theorem handlesIn_perm (h : xs.Perm ys) : (handlesIn kind xs).Perm (handlesIn kind ys) :=
  h.filterMap _

/-- Handles are counted among the handles of their kind. -/
theorem count_handlesIn (h : Handle) : (handlesIn h.kind xs).count h = xs.count (.handle h) := by
  induction xs with
  | nil => rfl
  | cons o xs ih =>
    cases o with
    | name text => simpa [handlesIn] using ih
    | handle h' =>
      have hcons : handlesIn h.kind (.handle h' :: xs) =
          (if h'.kind = h.kind then [h'] else []) ++ handlesIn h.kind xs := by
        simp only [handlesIn, List.filterMap_cons]
        split_ifs <;> rfl
      rw [hcons, List.count_append, ih, List.count_cons, add_comm]
      split_ifs with hkind heq heq
      · simp_all
      · simp_all
      · exact absurd (congrArg Handle.kind (ObjectRef.handle.inj (eq_of_beq heq))) hkind
      · rfl

end HandlesIn

namespace Diagram

/-! ## What statements read and write -/

/-- The objects that a statement reads. -/
def reads : Diagram → List ObjectRef
  | assign _ rhs _ => rhs.tensors.map TensorRef.object
  | checkArity handle _ _ _ => [.handle handle]
  | exportAs _ handle => [.handle handle]
  | braid _ first second => [first.object, second.object]
  | space s => [s.object]
  | d => d.tensors.map TensorRef.object

/-- The object that a statement writes. -/
def writes : Diagram → List ObjectRef
  | bind handle _ => [.handle handle]
  | braid handle _ _ => [.handle handle]
  | assign (ref t) _ _ => [t.object]
  | _ => []

/-- An expression reads its references. -/
theorem reads_of_isExpression {d : Diagram} (h : d.isExpression = true) :
    d.reads = d.tensors.map TensorRef.object := by
  cases d <;> simp_all [isExpression, reads]

/-- An expression writes nothing. -/
theorem writes_of_isExpression {d : Diagram} (h : d.isExpression = true) : d.writes = [] := by
  cases d <;> simp_all [isExpression, writes]

/-- Every temporary is written by its definition, and every braiding where it is built. -/
def WritesByKind (s : Diagram) : Prop :=
  ∀ h, .handle h ∈ s.writes → (h.kind = .temporary → ∃ t rhs, s = assign (ref t) rhs true) ∧
    (h.kind = .braiding → ∃ first second, s = braid h first second)

/-- An assignment to the same object is one of the same kind. -/
theorem WritesByKind.assign {lhs lhs' rhs rhs' : Diagram} {isDefinition : Bool}
    (hwrites : (assign lhs' rhs' isDefinition).writes = (assign lhs rhs isDefinition).writes)
    (h : (assign lhs rhs isDefinition).WritesByKind) :
    (assign lhs' rhs' isDefinition).WritesByKind := by
  intro k hk
  obtain ⟨htemporary, hbraiding⟩ := h k (hwrites ▸ hk)
  refine ⟨fun hkind => ?_, fun hkind => ?_⟩
  · obtain ⟨t, _, heq⟩ := htemporary hkind
    obtain ⟨-, -, rfl⟩ := Diagram.assign.inj heq
    cases lhs' with
    | ref t' => exact ⟨t', rhs', rfl⟩
    | _ => cases hk
  · obtain ⟨_, _, heq⟩ := hbraiding hkind
    cases heq

/-- Every statement needs only objects that are known or were written before. -/
def ClosedFrom (needs : Diagram → List ObjectRef) (known : List ObjectRef) : List Diagram → Prop
  | [] => True
  | s :: rest => needs s ⊆ known ∧ ClosedFrom needs (known ++ s.writes) rest

section ClosedFrom

variable {needs : Diagram → List ObjectRef} {known known' : List ObjectRef}

/-- What comes later may need what was written before. -/
theorem closedFrom_append {xs ys : List Diagram} : ClosedFrom needs known (xs ++ ys) ↔
    ClosedFrom needs known xs ∧ ClosedFrom needs (known ++ xs.flatMap writes) ys := by
  induction xs generalizing known with
  | nil => simp [ClosedFrom]
  | cons x xs ih => simp [ClosedFrom, ih, and_assoc]

/-- More may be known from the start. -/
theorem ClosedFrom.mono {xs : List Diagram} (h : ClosedFrom needs known xs)
    (hsub : known ⊆ known') : ClosedFrom needs known' xs := by
  induction xs generalizing known known' with
  | nil => trivial
  | cons x xs ih =>
    exact ⟨List.Subset.trans h.1 hsub, ih h.2 (append_subset_append hsub (List.Subset.refl _))⟩

/-- Statements that need only known objects are closed. -/
theorem closedFrom_of_subset {xs : List Diagram} (h : ∀ x ∈ xs, needs x ⊆ known) :
    ClosedFrom needs known xs := by
  induction xs generalizing known with
  | nil => trivial
  | cons x xs ih =>
    obtain ⟨hx, hxs⟩ := List.forall_mem_cons.mp h
    exact ⟨hx, ih fun y hy => List.Subset.trans (hxs y hy) (List.subset_append_left _ _)⟩

/-- In closed statements everything that is needed was written by an earlier statement. -/
theorem ClosedFrom.exists_earlier {before after : List Diagram} {s : Diagram}
    (h : ClosedFrom needs [] (before ++ s :: after)) {o : ObjectRef} (ho : o ∈ needs s) :
    ∃ s' ∈ before, o ∈ s'.writes := by
  obtain ⟨-, hs, -⟩ := closedFrom_append.mp h
  exact List.mem_flatMap.mp (hs ho)

end ClosedFrom

/-! ## Statements that replace others -/

/-- Some statements are replaced by others, for which handles are created. -/
structure Rewrites (needs : Diagram → List ObjectRef) (statements : List Diagram) (hs : List Handle)
    (out : List Diagram) : Prop where
  /-- What the new statements read is written before, if that holds of what the old ones need. -/
  closed : ∀ {known}, ClosedFrom needs known statements → ClosedFrom reads known out
  /-- What the old statements write is written. -/
  written : statements.flatMap writes ⊆ out.flatMap writes
  /-- If the old statements write no handle of a kind, the new ones write the new handles. -/
  created : ∀ {kind}, handlesIn kind (statements.flatMap writes) = [] →
    handlesIn kind (out.flatMap writes) = hs.filter (·.kind = kind)
  /-- If there is no new handle of a kind, the same handles are written. -/
  kept : ∀ {kind}, hs.filter (·.kind = kind) = [] →
    handlesIn kind (out.flatMap writes) = handlesIn kind (statements.flatMap writes)
  /-- If the old statements need no temporary, the new ones read every new temporary once. -/
  readOnce : handlesIn .temporary (statements.flatMap needs) = [] →
    (handlesIn .temporary (out.flatMap reads)).Perm (hs.filter (·.kind = .temporary))
  /-- Temporaries and braidings are written as they should be. -/
  byKind : (∀ s ∈ statements, s.WritesByKind) → ∀ s ∈ out, s.WritesByKind

namespace Rewrites

variable {needs : Diagram → List ObjectRef} {statements statements' out out' : List Diagram}
  {hs hs' : List Handle}

/-- Statements are rewritten to themselves. -/
theorem refl (statements : List Diagram) : Rewrites reads statements [] statements :=
  ⟨id, List.Subset.refl _, fun h => h, fun _ => rfl, fun h => by rw [h]; exact .nil, id⟩

/-- No statements are rewritten to none. -/
theorem nil : Rewrites needs [] [] [] :=
  ⟨fun _ => trivial, List.Subset.refl _, fun h => h, fun _ => rfl, fun _ => .nil, id⟩

/-- Lists of statements are rewritten one after another. -/
theorem append (h : Rewrites needs statements hs out) (h' : Rewrites needs statements' hs' out') :
    Rewrites needs (statements ++ statements') (hs ++ hs') (out ++ out') where
  closed := by
    intro known hclosed
    obtain ⟨hfirst, hsecond⟩ := closedFrom_append.mp hclosed
    exact closedFrom_append.mpr
      ⟨h.closed hfirst,
        (h'.closed hsecond).mono (append_subset_append (List.Subset.refl _) h.written)⟩
  written := by
    rw [List.flatMap_append, List.flatMap_append]
    exact append_subset_append h.written h'.written
  created := by
    intro kind hnone
    rw [List.flatMap_append, handlesIn_append, List.append_eq_nil_iff] at hnone
    rw [List.flatMap_append, handlesIn_append, h.created hnone.1, h'.created hnone.2,
      List.filter_append]
  kept := by
    intro kind hnone
    rw [List.filter_append, List.append_eq_nil_iff] at hnone
    rw [List.flatMap_append, List.flatMap_append, handlesIn_append, handlesIn_append,
      h.kept hnone.1, h'.kept hnone.2]
  readOnce := by
    intro hnone
    rw [List.flatMap_append, handlesIn_append, List.append_eq_nil_iff] at hnone
    rw [List.flatMap_append, handlesIn_append, List.filter_append]
    exact (h.readOnce hnone.1).append (h'.readOnce hnone.2)
  byKind := by
    intro hstatements
    obtain ⟨hfirst, hsecond⟩ := List.forall_mem_append.mp hstatements
    exact List.forall_mem_append.mpr ⟨h.byKind hfirst, h'.byKind hsecond⟩

/-- Statements are replaced in two steps, of which the first one creates braidings and the second
one temporaries. -/
theorem trans (h : Rewrites needs statements hs out) (h' : Rewrites reads out hs' out')
    (hhs : ∀ x ∈ hs, x.kind = .braiding) (hhs' : ∀ x ∈ hs', x.kind = .temporary) :
    Rewrites needs statements (hs ++ hs') out' where
  closed := fun hclosed => h'.closed (h.closed hclosed)
  written := List.Subset.trans h.written h'.written
  created := by
    intro kind hnone
    have hwritten := h.created hnone
    rw [List.filter_append]
    by_cases hkind : hs.filter (·.kind = kind) = []
    · rw [hkind] at hwritten ⊢
      exact h'.created hwritten
    · -- a kind of which the first step has created handles is not that of a temporary
      obtain ⟨x, hx⟩ := List.exists_mem_of_ne_nil _ hkind
      obtain ⟨hx, hxkind⟩ := List.mem_filter.mp hx
      obtain rfl : HandleKind.braiding = kind := (hhs x hx).symm.trans (of_decide_eq_true hxkind)
      have hnone' : hs'.filter (·.kind = .braiding) = [] :=
        List.filter_eq_nil_iff.mpr fun y hy => by simp [hhs' y hy]
      rw [h'.kept hnone', hwritten, hnone', List.append_nil]
  kept := by
    intro kind hnone
    rw [List.filter_append, List.append_eq_nil_iff] at hnone
    rw [h'.kept hnone.2, h.kept hnone.1]
  readOnce := by
    intro hnone
    have hfirst : hs.filter (·.kind = .temporary) = [] :=
      List.filter_eq_nil_iff.mpr fun x hx => by simp [hhs x hx]
    have hread := h.readOnce hnone
    rw [hfirst] at hread
    rw [List.filter_append, hfirst]
    exact h'.readOnce hread.eq_nil
  byKind := fun hstatements => h'.byKind (h.byKind hstatements)

/-- One statement is replaced by some that first write the new handles and then what it writes. -/
theorem of_statement {s : Diagram} (hclosed : ∀ {known}, needs s ⊆ known →
    ClosedFrom reads known out) (hwrites : out.flatMap writes = hs.map .handle ++ s.writes)
    (hreads : handlesIn .temporary (needs s) = [] →
      (handlesIn .temporary (out.flatMap reads)).Perm (hs.filter (·.kind = .temporary)))
    (hkind : s.WritesByKind → ∀ x ∈ out, x.WritesByKind) : Rewrites needs [s] hs out where
  closed := fun h => hclosed h.1
  written := by
    rw [hwrites, List.flatMap_singleton]
    exact List.subset_append_right _ _
  created := by
    intro kind hnone
    rw [List.flatMap_singleton] at hnone
    rw [hwrites, handlesIn_append, hnone, List.append_nil, handlesIn_map_handle]
  kept := by
    intro kind hnone
    rw [hwrites, handlesIn_append, handlesIn_map_handle, hnone, List.nil_append,
      List.flatMap_singleton]
  readOnce := by
    rw [List.flatMap_singleton]
    exact hreads
  byKind := fun h => hkind (h s (List.mem_singleton_self s))

end Rewrites

/-- Statements are rewritten with new handles of one kind. -/
def RewritesWith (needs : Diagram → List ObjectRef) (kind : HandleKind) (table : HandleTable)
    (statements : List Diagram) (table' : HandleTable) (out : List Diagram) : Prop :=
  ∃ hs, table.Grows hs table' ∧ (∀ h ∈ hs, h.kind = kind) ∧ Rewrites needs statements hs out

namespace RewritesWith

variable {needs : Diagram → List ObjectRef} {kind : HandleKind} {table table₁ table₂ : HandleTable}

/-- A rewriting without new handles. -/
theorem of_rewrites {statements out : List Diagram} (h : Rewrites needs statements [] out) :
    RewritesWith needs kind table statements table out :=
  ⟨[], .refl table, by simp, h⟩

/-- Rewritings with new handles, one after another. -/
theorem append {statements statements' out out' : List Diagram}
    (h : RewritesWith needs kind table statements table₁ out)
    (h' : RewritesWith needs kind table₁ statements' table₂ out') :
    RewritesWith needs kind table (statements ++ statements') table₂ (out ++ out') := by
  obtain ⟨hs, hgrows, hkind, hrewrites⟩ := h
  obtain ⟨hs', hgrows', hkind', hrewrites'⟩ := h'
  exact ⟨hs ++ hs', hgrows.trans hgrows', List.forall_mem_append.mpr ⟨hkind, hkind'⟩,
    hrewrites.append hrewrites'⟩

end RewritesWith

end Diagram

end TensorDiagram
