import TensorDiagram.Proofs.BoundNames

/-!
# Runs of a handle table

Binding asks a table for the handles of objects, the lowering for new temporaries, and the
construction of crossings for new braidings.  A run answers such requests one after another, in any
order, and keeps a log of the handles that it gave out.

The table agrees with the log (`Records`): it has the handles of the log, each once and in the order
in which they were given out first, and the handle that it finds for an object is the one in the
log.  One answer keeps this (`Records.answer`), so whole runs do (`Records.answerAll`).  It follows
that two answers are the same handle only if the same object was asked for
(`answerAll_collision_free`).
-/

namespace TensorDiagram.HandleTable

/-! ## Requests -/

/-- What a table can be asked for. -/
inductive Request where
  /-- The handle of an object. -/
  | object (name : ObjectRef)
  /-- A new intermediate result. -/
  | temporary
  /-- A new braiding tensor. -/
  | braiding
deriving DecidableEq, Repr

/-- The kind of handle that is asked for. -/
def Request.kind : Request → HandleKind
  | object _ => .object
  | temporary => .temporary
  | braiding => .braiding

/-- The name of the object that is asked for. -/
def Request.name? : Request → Option ObjectRef
  | object name => some name
  | temporary => none
  | braiding => none

theorem Request.name?_eq_some_iff {r : Request} {name : ObjectRef} : r.name? = some name ↔
    r = .object name := by
  cases r <;> simp [name?]

/-- The handle that answers a request, and the table afterwards. -/
def answer (s : HandleTable) : Request → Handle × HandleTable
  | .object name => s.handleFor name
  | .temporary => s.freshTemporary
  | .braiding => s.freshBraiding

/-- The requests with the handles that answer them one after another, and the table at the end. -/
def answerAll (s : HandleTable) : List Request → List (Request × Handle) × HandleTable
  | [] => ([], s)
  | r :: requests =>
    let (handle, s') := s.answer r
    let (log, s'') := s'.answerAll requests
    ((r, handle) :: log, s'')

theorem map_fst_answerAll (s : HandleTable) (requests : List Request) :
    (s.answerAll requests).1.map Prod.fst = requests := by
  induction requests generalizing s with
  | nil => rfl
  | cons r requests ih => exact congrArg (r :: ·) (ih _)

/-- A request is answered by the handle that the object has already, or by a new handle. -/
theorem answer_cases (s : HandleTable) (r : Request) :
    (∃ name handle, r = .object name ∧ s.handleFor? name = some handle ∧ s.answer r = (handle, s)) ∨
      (∀ name, r = .object name → s.handleFor? name = none) ∧
        s.answer r = s.create r.kind r.name? := by
  cases r with
  | temporary => exact Or.inr ⟨by simp, rfl⟩
  | braiding => exact Or.inr ⟨by simp, rfl⟩
  | object name =>
    cases hfound : s.handleFor? name with
    | some handle => exact Or.inl ⟨name, handle, rfl, hfound, by rw [answer, handleFor, hfound]⟩
    | none =>
      refine Or.inr ⟨fun name' h => ?_, by rw [answer, handleFor, hfound, Request.kind,
        Request.name?]⟩
      rwa [← Request.object.inj h]

/-- A new handle is found for the object that was asked for, and for no other object. -/
theorem handleFor?_create_request (s : HandleTable) (r : Request) (name : ObjectRef) :
    (s.create r.kind r.name?).2.handleFor? name =
      (s.handleFor? name).or (if r = .object name then some (s.next r.kind) else none) := by
  cases r with
  | object o => simpa [Request.kind, Request.name?] using s.handleFor?_create o name
  | temporary => simp [Request.kind, Request.name?, handleFor?, namedObjects, create]
  | braiding => simp [Request.kind, Request.name?, handleFor?, namedObjects, create]

/-- A new handle has not been given out before. -/
theorem IsNumbered.next_notMem {s : HandleTable} (h : s.IsNumbered) (kind : HandleKind) :
    s.next kind ∉ s.handles := by
  have hcreate := (Grows.refl s).create kind none
  have hnodup := (h.grow hcreate).nodup_handles
  rw [hcreate.handles_eq, List.nil_append, List.nodup_append] at hnodup
  exact fun hmem => hnodup.2.2 _ hmem _ (List.mem_singleton_self _) rfl

/-! ## The log of a run -/

/-- The first occurrences are kept: one more entry counts only if it is new. -/
theorem eraseDups_concat {α : Type} [DecidableEq α] (xs : List α) (x : α) :
    (xs ++ [x]).eraseDups = if x ∈ xs then xs.eraseDups else xs.eraseDups ++ [x] := by
  rw [List.eraseDups_append]
  by_cases h : x ∈ xs <;> simp [List.removeAll, List.eraseDups_cons, h]

/-- A table after a run that gave out the handles of the log. -/
structure Records (log : List (Request × Handle)) (s : HandleTable) : Prop where
  /-- The handles of every kind are numbered. -/
  isNumbered : s.IsNumbered
  /-- The handles are those of the log, each once and in the order in which they were given out
  first. -/
  handles_eq : s.handles = (log.map Prod.snd).eraseDups
  /-- The handles are of the kind that was asked for. -/
  kind_eq : ∀ p ∈ log, p.2.kind = p.1.kind
  /-- The handles are entered with the names that were asked for. -/
  mem_entries : ∀ p ∈ log, (p.2, p.1.name?) ∈ s.entries
  /-- The handle that is found for an object was given out for it. -/
  handleFor?_iff : ∀ name handle, s.handleFor? name = some handle ↔ (.object name, handle) ∈ log
  /-- A handle is given out again only for the same object. -/
  pairwise : log.Pairwise fun earlier later =>
    later.2 = earlier.2 ↔ ∃ name, earlier.1 = .object name ∧ later.1 = .object name

namespace Records

variable {log : List (Request × Handle)} {s : HandleTable}

/-- Before the first request. -/
theorem empty : Records [] .empty where
  isNumbered := isNumbered_empty
  handles_eq := rfl
  kind_eq := by simp
  mem_entries := by simp
  handleFor?_iff name handle := iff_of_false (by rintro ⟨⟩) List.not_mem_nil
  pairwise := .nil

theorem mem_handles (h : Records log s) {p : Request × Handle} (hp : p ∈ log) : p.2 ∈ s.handles :=
  List.mem_map_of_mem (h.mem_entries p hp)

/-- An object that has a handle gets it again. -/
theorem again (h : Records log s) {name : ObjectRef} {handle : Handle}
    (hfound : s.handleFor? name = some handle) : Records (log ++ [(.object name, handle)]) s := by
  have hlog : (.object name, handle) ∈ log := (h.handleFor?_iff name handle).mp hfound
  refine ⟨h.isNumbered, ?_, ?_, ?_, fun name' handle' => ?_, ?_⟩
  · rw [List.map_append, List.map_singleton, eraseDups_concat, if_pos (List.mem_map_of_mem hlog)]
    exact h.handles_eq
  · exact List.forall_mem_append.mpr ⟨h.kind_eq, List.forall_mem_singleton.mpr (h.kind_eq _ hlog)⟩
  · exact List.forall_mem_append.mpr ⟨h.mem_entries,
      List.forall_mem_singleton.mpr (h.mem_entries _ hlog)⟩
  · rw [h.handleFor?_iff, List.mem_append, List.mem_singleton]
    exact ⟨Or.inl, fun hmem => hmem.elim id fun heq => heq ▸ hlog⟩
  · refine List.pairwise_append.mpr ⟨h.pairwise, List.pairwise_singleton _ _, fun p hp => ?_⟩
    refine List.forall_mem_singleton.mpr ⟨fun heq => ?_, ?_⟩
    · -- the table has one name for the handle
      have hname := h.isNumbered.nameOf?_of_mem (h.mem_entries p hp)
      rw [← heq, h.isNumbered.nameOf?_of_mem (h.mem_entries _ hlog)] at hname
      exact ⟨name, Request.name?_eq_some_iff.mp hname.symm, rfl⟩
    · rintro ⟨name', hp', hname⟩
      obtain rfl := Request.object.inj hname
      have hearlier := (h.handleFor?_iff name p.2).mpr (hp' ▸ hp)
      exact Option.some.inj (hfound.symm.trans hearlier)

/-- A new handle is created, unless it is for an object that has one. -/
theorem create (h : Records log s) {r : Request}
    (hnew : ∀ name, r = .object name → s.handleFor? name = none) :
    Records (log ++ [(r, s.next r.kind)]) (s.create r.kind r.name?).2 := by
  have hgrows := (Grows.refl s).create r.kind r.name?
  have hfresh := h.isNumbered.next_notMem r.kind
  refine ⟨h.isNumbered.grow hgrows, ?_, ?_, ?_, fun name handle => ?_, ?_⟩
  · have hlog : s.next r.kind ∉ log.map Prod.snd := by
      rw [List.mem_map]
      rintro ⟨p, hp, heq⟩
      exact hfresh (heq ▸ h.mem_handles hp)
    rw [hgrows.handles_eq, h.handles_eq, List.map_append, List.map_singleton,
      eraseDups_concat, if_neg hlog, List.nil_append]
  · exact List.forall_mem_append.mpr ⟨h.kind_eq, List.forall_mem_singleton.mpr rfl⟩
  · refine List.forall_mem_append.mpr ⟨fun p hp => hgrows.entries_subset (h.mem_entries p hp), ?_⟩
    exact List.forall_mem_singleton.mpr (List.mem_append_right _ (List.mem_singleton_self _))
  · rw [handleFor?_create_request, List.mem_append, List.mem_singleton, ← h.handleFor?_iff,
      Prod.mk.injEq]
    by_cases hr : r = .object name
    · rw [hnew name hr, if_pos hr, hr]
      simp [eq_comm]
    · simp [hr, eq_comm]
  · refine List.pairwise_append.mpr ⟨h.pairwise, List.pairwise_singleton _ _, fun p hp => ?_⟩
    refine List.forall_mem_singleton.mpr (iff_of_false (fun heq => ?_) ?_)
    · have hmem := h.mem_handles hp
      rw [← heq] at hmem
      exact hfresh hmem
    · rintro ⟨name, hp', hr⟩
      have hearlier := (h.handleFor?_iff name p.2).mpr (hp' ▸ hp)
      rw [hnew name hr] at hearlier
      cases hearlier

/-- One answer. -/
theorem answer (h : Records log s) (r : Request) :
    Records (log ++ [(r, (s.answer r).1)]) (s.answer r).2 := by
  rcases s.answer_cases r with ⟨name, handle, rfl, hfound, hanswer⟩ | ⟨hnew, hanswer⟩
  · rw [hanswer]
    exact h.again hfound
  · rw [hanswer]
    exact h.create hnew

/-- A whole run. -/
theorem answerAll (h : Records log s) (requests : List Request) :
    Records (log ++ (s.answerAll requests).1) (s.answerAll requests).2 := by
  induction requests generalizing log s with
  | nil => rwa [HandleTable.answerAll, List.append_nil]
  | cons r requests ih =>
    have hrest := ih (h.answer r)
    rwa [List.append_assoc] at hrest

end Records

/-- **Handles do not collide.**  A run that starts with the empty table answers every request by a
handle of the kind that was asked for.  The handles of every kind are numbered from zero, without
gaps, and the table lists the handles that were given out, each once and in the order of their
creation.  A later answer is the same handle as an earlier one if and only if both are for the same
object, so a new temporary or braiding differs from all handles before.  The handle of an object is
shown by the name of the object. -/
theorem answerAll_collision_free (requests : List Request) :
    ∃ (log : List (Request × Handle)) (table : HandleTable), empty.answerAll requests =
      (log, table) ∧ log.map Prod.fst = requests ∧ (∀ p ∈ log, p.2.kind = p.1.kind) ∧
      (∀ kind, ∃ n, table.handlesOf kind = (List.range n).map (Handle.mk kind)) ∧
      table.handles = (log.map Prod.snd).eraseDups ∧ table.handles.Nodup ∧
      log.Pairwise (fun earlier later =>
        later.2 = earlier.2 ↔ ∃ name, earlier.1 = .object name ∧ later.1 = .object name) ∧
      ∀ name handle, (.object name, handle) ∈ log → table.displayName (.handle handle) = name := by
  have h : Records (empty.answerAll requests).1 (empty.answerAll requests).2 :=
    Records.empty.answerAll requests
  refine ⟨_, _, rfl, map_fst_answerAll _ requests, h.kind_eq, fun kind =>
    ⟨_, h.isNumbered kind⟩, h.handles_eq, h.isNumbered.nodup_handles, h.pairwise,
    fun name handle hmem => ?_⟩
  have hname : _ = some name := h.isNumbered.nameOf?_of_mem (h.mem_entries _ hmem)
  rw [displayName, hname, Option.getD_some]

/-- Two objects are asked for, one of them again after handles of the other kinds were created. -/
def mixedRequests : List Request :=
  [.object (.name "A"), .temporary, .object (.name "B"), .braiding, .object (.name "A"), .temporary]

/-- The second temporary is new, and `A` has its first handle again. -/
theorem mixedRequests_collision_free :
    ∃ (log : List (Request × Handle)) (table : HandleTable), empty.answerAll mixedRequests =
      (log, table) ∧ log.map Prod.snd =
        [⟨.object, 0⟩, ⟨.temporary, 0⟩, ⟨.object, 1⟩, ⟨.braiding, 0⟩, ⟨.object, 0⟩,
          ⟨.temporary, 1⟩] ∧
      table.handles = [⟨.object, 0⟩, ⟨.temporary, 0⟩, ⟨.object, 1⟩, ⟨.braiding, 0⟩,
        ⟨.temporary, 1⟩] ∧
      table.handles.Nodup ∧ (.object (.name "B"), ⟨.object, 1⟩) ∈ log ∧
      table.displayName (.handle ⟨.object, 1⟩) = .name "B" := by
  obtain ⟨log, table, hrun, -, -, -, -, hnodup, -, hname⟩ := answerAll_collision_free mixedRequests
  obtain ⟨rfl, rfl⟩ := Prod.mk.inj hrun
  have hlog : (.object (.name "B"), ⟨.object, 1⟩) ∈ (empty.answerAll mixedRequests).1 := by decide
  exact ⟨_, _, rfl, by decide, by decide, hnodup, hlog, hname _ _ hlog⟩

end TensorDiagram.HandleTable
