import TensorDiagram.Proofs.BoundPrograms

/-!
# Citations of objects

Whether a reference fits an object depends on its numbers of outputs and inputs only, which a
reference to an adjoint has exchanged (`TensorRef.arity`).  A citation is what is left of a
reference: the object, the part it plays, and these two numbers.

Conjugation moves to the references without changing their citations.  Nesting products along a tree
may exchange references of one expression, and these are all uses; without a tree the citations come
in the order in which they were written (`IsTree.citations_nested`).  An order that differs by
exchanged uses only (`Citation.Reorders`) does not matter for what exists before a program runs.
-/

namespace TensorDiagram

/-- The numbers of outputs and inputs that a reference gives to its object. -/
def TensorRef.arity (t : TensorRef) : ℕ × ℕ :=
  if t.isAdjoint then (t.right.length, t.left.length) else (t.left.length, t.right.length)

/-- Both sides count alike. -/
theorem TensorRef.arity_flipped (t : TensorRef) : t.flipped.arity = t.arity := by
  rcases h : t.isAdjoint <;> simp [arity, flipped, h]

/-- An object that is referred to, with the part that the reference plays and its numbers of outputs
and inputs. -/
structure Citation where
  /-- The object. -/
  object : ObjectRef
  /-- What happens to the object. -/
  role : Role
  /-- The numbers of outputs and inputs. -/
  arity : ℕ × ℕ
deriving DecidableEq

/-- The citation of a reference. -/
def Reference.citation (r : Reference) : Citation :=
  ⟨r.term.object, r.role, r.term.arity⟩

/-- The citation of a reference that is used. -/
def TensorRef.asUse (t : TensorRef) : Citation :=
  ⟨t.object, .use, t.arity⟩

/-- A flipped reference is the same use. -/
theorem TensorRef.asUse_flipped (t : TensorRef) : t.flipped.asUse = t.asUse := by
  rw [asUse, arity_flipped]
  rfl

namespace Citation

/-! ## Exchanged uses -/

/-- The citations are the same, up to uses that are exchanged. -/
inductive Reorders : List Citation → List Citation → Prop
  /-- Nothing is exchanged. -/
  | refl (cs : List Citation) : Reorders cs cs
  /-- Uses are exchanged further on. -/
  | cons (c : Citation) {cs cs' : List Citation} (h : Reorders cs cs') :
      Reorders (c :: cs) (c :: cs')
  /-- Two uses in front are exchanged. -/
  | swap {a b : Citation} (ha : a.role = .use) (hb : b.role = .use) (cs : List Citation) :
      Reorders (a :: b :: cs) (b :: a :: cs)
  /-- One exchange after another. -/
  | trans {as bs cs : List Citation} (h : Reorders as bs) (h' : Reorders bs cs) : Reorders as cs

namespace Reorders

variable {as as' bs bs' cs : List Citation}

/-- Citations that stay in front. -/
theorem append_left (as : List Citation) (h : Reorders bs bs') :
    Reorders (as ++ bs) (as ++ bs') := by
  induction as with
  | nil => exact h
  | cons c as ih => exact ih.cons c

/-- Citations that stay behind. -/
theorem append_right (h : Reorders as as') (bs : List Citation) :
    Reorders (as ++ bs) (as' ++ bs) := by
  induction h with
  | refl => exact .refl _
  | cons c _ ih => exact ih.cons c
  | swap ha hb => exact .swap ha hb _
  | trans _ _ ih ih' => exact ih.trans ih'

/-- Two lists are reordered. -/
theorem append (h : Reorders as as') (h' : Reorders bs bs') : Reorders (as ++ bs) (as' ++ bs') :=
  (h.append_right bs).trans (h'.append_left as')

/-- Many lists are reordered. -/
theorem flatMap {α β : Type} {f : α → List Citation} {g : β → List Citation}
    {xs : List α} {ys : List β} (h : List.Forall₂ (fun x y => Reorders (f x) (g y)) xs ys) :
    Reorders (xs.flatMap f) (ys.flatMap g) := by
  induction h with
  | nil => exact .refl []
  | cons hxy _ ih =>
    rw [List.flatMap_cons, List.flatMap_cons]
    exact hxy.append ih

/-- Uses can be permuted. -/
theorem of_perm (h : as.Perm as') (huses : ∀ c ∈ as, c.role = .use) : Reorders as as' := by
  induction h with
  | nil => exact .refl []
  | cons c _ ih => exact (ih (List.forall_mem_cons.mp huses).2).cons c
  | swap a b cs =>
    obtain ⟨hb, ha, -⟩ := by simpa using huses
    exact .swap hb ha cs
  | trans h _ ih ih' => exact (ih huses).trans (ih' fun c hc => huses c (h.mem_iff.mpr hc))

/-- Nothing is lost by reordering. -/
theorem perm (h : Reorders as as') : as.Perm as' := by
  induction h with
  | refl => exact .refl _
  | cons c _ ih => exact ih.cons c
  | swap _ _ cs => exact .swap _ _ cs
  | trans _ _ ih ih' => exact ih.trans ih'

end Reorders

/-- The object is there before: it is cited, and not first of all to define it. -/
def PreExists (cs : List Citation) (o : ObjectRef) : Prop :=
  ∃ c, cs.find? (·.object = o) = some c ∧ c.role ≠ .define

instance (cs : List Citation) (o : ObjectRef) : Decidable (PreExists cs o) :=
  decidable_of_iff ((cs.find? (·.object = o)).any (·.role ≠ .define) = true) (by
    rcases h : cs.find? (·.object = o) with _ | c <;> simp [PreExists, h])

/-- The first citation of an object decides. -/
theorem preExists_cons {c : Citation} {cs : List Citation} {o : ObjectRef} :
    PreExists (c :: cs) o ↔ if c.object = o then c.role ≠ .define else PreExists cs o := by
  rw [PreExists, List.find?_cons]
  by_cases h : c.object = o <;> simp [h, PreExists]

/-- Reordering does not change what exists before. -/
theorem Reorders.preExists_iff {cs cs' : List Citation} (h : Reorders cs cs') (o : ObjectRef) :
    PreExists cs o ↔ PreExists cs' o := by
  induction h with
  | refl => rfl
  | cons c _ ih => rw [preExists_cons, preExists_cons, ih]
  | swap ha hb =>
    simp only [preExists_cons, ha, hb]
    split_ifs <;> rfl
  | trans _ _ ih ih' => exact ih.trans ih'

end Citation

/-! ## What exists -/

namespace ObjectUse

open Citation

variable {braidingName : String} {u u' : ObjectUse}

/-- What exists after some references have been read. -/
theorem mem_existing_iff_of_foldlM {references : List Reference}
    (h : references.foldlM (ObjectUse.read braidingName) u = .ok u') {o : ObjectRef}
    (ho : o ≠ .name braidingName) :
    o ∈ u'.existing ↔
      o ∈ u.existing ∨ (o ∉ u.objects ∧ PreExists (references.map Reference.citation) o) := by
  induction references generalizing u with
  | nil =>
    obtain rfl := Except.ok.inj h
    simp [PreExists]
  | cons r references ih =>
    rw [List.foldlM_cons] at h
    obtain ⟨u₁, hr, h⟩ := bind_eq_ok_iff.mp h
    rw [ih h, List.map_cons, preExists_cons]
    change _ ↔ _ ∨ (_ ∧ if r.term.object = o then r.role ≠ .define else _)
    rcases read_cases hr with ⟨hbraiding, -, rfl⟩ | ⟨-, hobjects, hexisting, -⟩
    · rw [if_neg fun heq : r.term.object = o => ho (heq ▸ hbraiding)]
    · rw [hobjects, mem_enter, hexisting]
      by_cases heq : r.term.object = o
      · simp only [heq, if_true, true_and, or_true, not_true_eq_false, false_and, or_false]
      · simp only [heq, if_false, Ne.symm heq, false_and, or_false]

/-- Braidings do not exist before. -/
theorem not_mem_existing_of_foldlM {references : List Reference}
    (h : references.foldlM (ObjectUse.read braidingName) u = .ok u')
    (hu : .name braidingName ∉ u.existing) : .name braidingName ∉ u'.existing := by
  refine foldlM_keeps (P := fun u => .name braidingName ∉ u.existing)
    (fun u hu r _ u' hr => ?_) hu h
  rcases read_cases hr with ⟨-, -, rfl⟩ | ⟨hne, -, hexisting, -⟩
  · exact hu
  · rw [hexisting, not_or]
    exact ⟨hu, fun heq => hne heq.1.symm⟩

end ObjectUse

namespace Diagram

open Citation

/-- All citations outside sealed regions, in order of evaluation. -/
def citations (d : Diagram) : List Citation :=
  d.references.map Reference.citation

/-- The citation of a left hand side, if it is a reference. -/
def lhsCitations (isDefinition : Bool) : Diagram → List Citation
  | ref t => [⟨t.object, assignRole isDefinition, t.arity⟩]
  | _ => []

/-- Uses are cited as uses. -/
theorem map_citation_uses (d statement : Diagram) :
    (d.uses statement).map Reference.citation = d.tensors.map TensorRef.asUse := by
  rw [uses, List.map_map]
  rfl

/-- The right hand side is cited first. -/
theorem citations_assign (lhs rhs : Diagram) (isDefinition : Bool) :
    (assign lhs rhs isDefinition).citations = rhs.tensors.map TensorRef.asUse ++ lhs.lhsCitations
      isDefinition := by
  rw [citations, references_assign, List.map_append, map_citation_uses]
  cases lhs <;> rfl

/-- An expression only uses its references. -/
theorem citations_of_isExpression {d : Diagram} (h : d.isExpression = true) :
    d.citations = d.tensors.map TensorRef.asUse := by
  rw [citations, references_of_isExpression h, map_citation_uses]

/-- Statements are cited in order. -/
theorem citations_block (statements : List Diagram) :
    (block statements).citations = statements.flatMap citations := by
  rw [citations, references, listReferences_eq, List.map_flatMap]
  rfl

/-! ## Nested products -/

section Nested

variable {κ : Type} {order : Option ContractionTree}

/-- The same list up to a permutation, and in the same order if there is no tree. -/
def Follows (order : Option ContractionTree) (xs ys : List κ) : Prop :=
  xs.Perm ys ∧ (order = none → ys = xs)

/-- A list follows itself. -/
theorem Follows.refl (xs : List κ) : Follows order xs xs :=
  ⟨.refl xs, fun _ => rfl⟩

/-- Following is passed on. -/
theorem Follows.trans {xs ys zs : List κ} (h : Follows order xs ys) (h' : Follows order ys zs) :
    Follows order xs zs :=
  ⟨h.1.trans h'.1, fun hnone => (h'.2 hnone).trans (h.2 hnone)⟩

/-- Two lists follow two others. -/
theorem Follows.append {xs ys xs' ys' : List κ} (h : Follows order xs ys)
    (h' : Follows order xs' ys') : Follows order (xs ++ xs') (ys ++ ys') :=
  ⟨h.1.append h'.1, fun hnone => by rw [h.2 hnone, h'.2 hnone]⟩

/-- Many lists follow as many others. -/
theorem Follows.flatMap {α β : Type} {f : α → List κ} {g : β → List κ} {xs : List α} {ys : List β}
    (h : List.Forall₂ (fun x y => Follows order (f x) (g y)) xs ys) :
    Follows order (xs.flatMap f) (ys.flatMap g) := by
  induction h with
  | nil => exact .refl []
  | cons hxy _ ih =>
    rw [List.flatMap_cons, List.flatMap_cons]
    exact hxy.append ih

/-- What is built from factors has their references. -/
theorem BuiltFrom.coe_tensors {s : Multiset Diagram} {d : Diagram} (h : BuiltFrom s d) :
    (d.tensors : Multiset TensorRef) = s.bind fun x => (x.tensors : Multiset TensorRef) := by
  induction h with
  | factor d => rw [Multiset.singleton_bind]
  | pair _ _ iha ihb =>
    rw [Multiset.add_bind, ← iha, ← ihb, tensors_product, Multiset.coe_add]
    simp

/-- Nesting keeps the order of references. -/
theorem tensors_nestLeft (a b : Diagram) (rest : List Diagram) :
    (nestLeft a b rest).tensors = (a :: b :: rest).flatMap tensors := by
  have hfold : ∀ d : Diagram, (rest.foldl pair d).tensors = d.tensors ++ rest.flatMap tensors := by
    induction rest with
    | nil => simp
    | cons x rest ih =>
      intro d
      rw [List.foldl_cons, ih, tensors_product]
      simp
  rw [nestLeft, hfold, tensors_product]
  simp

/-- A nested product has the references of its factors. -/
theorem follows_of_nest (horder : HasDistinctLeaves order) {a b d : Diagram} {rest : List Diagram}
    (h : nest order a b rest = .ok d) :
    Follows order ((a :: b :: rest).flatMap tensors) d.tensors := by
  refine ⟨?_, ?_⟩
  · rw [← Multiset.coe_eq_coe, (nest_builtFrom_all horder h).coe_tensors, Multiset.coe_bind]
  · rintro rfl
    obtain rfl := Except.ok.inj h
    exact tensors_nestLeft a b rest

/-- Lists follow each other entry by entry. -/
theorem Follows.map {α : Type} (f : α → κ) {xs ys : List α} (h : Follows order xs ys) :
    Follows order (xs.map f) (ys.map f) :=
  ⟨h.1.map f, fun hnone => by rw [h.2 hnone]⟩

/-- Moving conjugation to references and nesting products keep all that conjugation leaves of the
references of a formula. -/
theorem IsFormula.follows_nested (horder : HasDistinctLeaves order) {f : TensorRef → κ}
    (hf : ∀ t, f t.flipped = f t) {d d' : Diagram} {odd : Bool} (hd : d.IsFormula)
    (h : (d.adjointForm odd).nestProducts order = .ok d') :
    Follows order (d.tensors.map f) (d'.tensors.map f) := by
  refine IsFormula.nested_induction ?ref ?scalar ?conj ?sum ?product hd h
  case ref =>
    intro odd t
    cases odd with
    | false => exact .refl _
    | true =>
      change Follows order [f t] [f t.flipped]
      rw [hf]
      exact .refl _
  case scalar => intro odd s; cases odd <;> cases s <;> exact .refl _
  case conj => exact fun odd a d' ih => ih
  case sum =>
    intro odd sign a a' rest rest' iha hterms
    simp only [tensors, termTensors_eq, List.map_append, List.map_flatMap]
    exact iha.append (.flatMap hterms)
  case product =>
    intro odd a b rest a' b' rest' d' hfactors h
    have hflat := Follows.flatMap hfactors
    rw [← List.map_flatMap, ← List.map_flatMap] at hflat
    rw [tensors_product]
    exact hflat.trans ((follows_of_nest horder h).map f)

/-- A program as it is written: blocks of assignments and of expressions that stand alone. -/
abbrev IsScript (d : Diagram) : Prop :=
  d.IsTree (IsStatement IsFormula)

/-- Nesting the products of a program exchanges uses at most. -/
theorem IsTree.citations_nestProducts (horder : HasDistinctLeaves order) {d d' : Diagram}
    (hd : d.IsScript) (h : (d.adjointForm false).nestProducts order = .ok d') :
    Reorders d.citations d'.citations ∧ (order = none → d'.citations = d.citations) := by
  have huses : ∀ {x x' : Diagram}, x.IsFormula → (x.adjointForm false).nestProducts order = .ok x' →
      Reorders (x.tensors.map TensorRef.asUse) (x'.tensors.map TensorRef.asUse) ∧
        (order = none → x'.tensors.map TensorRef.asUse = x.tensors.map TensorRef.asUse) := by
    intro x x' hx hx'
    have hfollows := hx.follows_nested horder TensorRef.asUse_flipped hx'
    exact ⟨.of_perm hfollows.1 (List.forall_mem_map.mpr fun _ _ => rfl), hfollows.2⟩
  induction hd generalizing d' with
  | leaf hs =>
    cases hs with
    | assign lhs isDefinition hrhs =>
      obtain ⟨rhs', hrhs', rfl⟩ := nestProducts_assign_eq_ok_iff.mp h
      obtain ⟨hreorders, heq⟩ := huses hrhs hrhs'
      rw [citations_assign, citations_assign]
      exact ⟨hreorders.append_right _, fun hnone => by rw [heq hnone]⟩
    | expression hexpression hd =>
      rw [citations_of_isExpression hexpression,
        citations_of_isExpression (hd.nested h).1.isExpression_eq]
      exact huses hd h
  | @block statements _ ih =>
    obtain ⟨nested, rfl, hnested⟩ := forall₂_of_nestProducts_block h
    have hall :=
      ((List.forall₂_and_left statements nested).mpr ⟨ih, hnested⟩).imp fun _ _ h => h.1 h.2
    rw [citations_block, citations_block]
    exact ⟨.flatMap (hall.imp fun _ _ h => h.1),
      (Follows.flatMap (hall.imp fun _ _ h => ⟨h.1.perm, h.2⟩)).2⟩

/-- The normal form of a program has the citations of the program, up to uses that are exchanged if
there is an order of contractions. -/
theorem IsTree.citations_nested {order : Option ContractionOrder} {d d' : Diagram} (hd : d.IsScript)
    (h : d.pushConj.binarize order = .ok d') :
    Reorders d.citations d'.citations ∧ (order = none → d'.citations = d.citations) := by
  cases order with
  | none =>
    have hleaves : HasDistinctLeaves none := nofun
    have hnested := IsTree.citations_nestProducts hleaves hd h
    exact ⟨hnested.1, fun _ => hnested.2 rfl⟩
  | some order =>
    obtain ⟨tree, hleaves, htree⟩ := exists_tree_of_binarize h
    rw [htree] at h
    exact ⟨(IsTree.citations_nestProducts hleaves hd h).1, nofun⟩

end Nested

end Diagram

end TensorDiagram
