import TensorDiagram.Proofs.Programs
import TensorDiagram.Proofs.StrandSpaces
import TensorDiagram.Proofs.WholeProducts

/-!
# Trees of statements

A program is a tree of blocks.  Its leaves are assignments and expressions that stand alone, and
each of its expressions has a kind: it is a tensor expression or a scalar expression.  Moving
conjugation to references and nesting products keep all of this (`IsTree.nested`).

The later steps of a compilation go through the tree from left to right and replace every leaf by a
smaller tree, while they hand on a table of handles.  A plan shows only the statements at the
leaves, and for these the tree does not matter: what a step does to one statement after another it
does to the statements of the tree (`IsTree.passes`).
-/

namespace TensorDiagram

namespace Diagram

variable {d d' : Diagram} {order : Option ContractionTree}

/-! ## Kinds of expressions -/

/-- The expression is a tensor expression or a scalar expression. -/
def HasKind (d : Diagram) : Prop :=
  d.isTensor = true ∨ d.isScalar = true

theorem BuiltFrom.isTensor_iff {s : Multiset Diagram} (h : BuiltFrom s d) :
    d.isTensor = true ↔ ∃ x ∈ s, x.isTensor = true := by
  induction h with
  | factor d => simp
  | pair _ _ iha ihb =>
    simp only [isTensor_product_iff, List.exists_mem_cons_iff, List.not_mem_nil, false_and,
      exists_false, or_false, iha, ihb, Multiset.mem_add, or_and_right, exists_or]

theorem BuiltFrom.isScalar_iff {s : Multiset Diagram} (h : BuiltFrom s d) :
    d.isScalar = true ↔ ∀ x ∈ s, x.isScalar = true := by
  induction h with
  | factor d => simp
  | pair _ _ iha ihb =>
    simp only [isScalar_product_iff, List.forall_mem_cons, List.not_mem_nil, IsEmpty.forall_iff,
      implies_true, and_true, iha, ihb, Multiset.mem_add, or_imp, forall_and]

theorem forall_mem_iff_of_forall₂ {α β : Type} {P : α → Prop} {Q : β → Prop}
    {xs : List α} {ys : List β} (h : List.Forall₂ (fun x y => Q y ↔ P x) xs ys) : (∀ y ∈ ys, Q y) ↔
      ∀ x ∈ xs, P x := by
  induction h with
  | nil => simp
  | cons hxy _ ih => rw [List.forall_mem_cons, List.forall_mem_cons, hxy, ih]

/-- A formula has the same kind before and after conjugation is moved to references and products are
nested. -/
theorem IsFormula.kind_nested (horder : HasDistinctLeaves order) {odd : Bool} (hd : d.IsFormula)
    (h : (d.adjointForm odd).nestProducts order = .ok d') :
    (d'.isTensor = true ↔ d.isTensor = true) ∧ (d'.isScalar = true ↔ d.isScalar = true) := by
  refine IsFormula.nested_induction ?ref ?scalar ?conj ?sum ?product hd h
  case ref => exact fun odd t => ⟨Iff.rfl, Iff.rfl⟩
  case scalar => intro odd s; cases odd <;> cases s <;> exact ⟨Iff.rfl, Iff.rfl⟩
  case conj => exact fun odd a d' ih => ih
  case sum =>
    rintro odd sign a a' rest rest' ⟨htensor, hscalar⟩ hterms
    rw [isTensor_sum_iff, isTensor_sum_iff, isScalar_sum_iff, isScalar_sum_iff,
      List.forall_mem_cons, List.forall_mem_cons, htensor, hscalar,
      forall_mem_iff_of_forall₂ (P := fun p : Sign × Diagram => p.2.isTensor = true)
      (hterms.imp fun _ _ h => h.1),
      forall_mem_iff_of_forall₂ (P := fun p : Sign × Diagram => p.2.isScalar = true)
      (hterms.imp fun _ _ h => h.2)]
    exact ⟨Iff.rfl, Iff.rfl⟩
  case product =>
    intro odd a b rest a' b' rest' d' hfactors h
    have hbuilt := nest_builtFrom_all horder h
    rw [hbuilt.isTensor_iff, hbuilt.isScalar_iff, isTensor_product_iff, isScalar_product_iff]
    exact ⟨exists_mem_iff_of_forall₂ (hfactors.imp fun _ _ h => h.1),
      forall_mem_iff_of_forall₂ (hfactors.imp fun _ _ h => h.2)⟩

/-- A scalar expression has no references. -/
theorem IsNormal.tensors_of_isScalar (hd : d.IsNormal) (h : d.isScalar = true) :
    d.tensors = [] := by
  induction hd with
  | ref t => cases h
  | scalar s => rfl
  | conj name => rfl
  | @sum sign a rest _ _ iha ihrest =>
    obtain ⟨ha, hrest⟩ := isScalar_sum_iff.mp h
    rw [tensors, termTensors_eq, iha ha, List.nil_append, List.flatMap_eq_nil_iff]
    exact fun p hp => ihrest p hp (hrest p hp)
  | pair _ _ iha ihb =>
    rw [isScalar_product_iff] at h
    simp only [List.forall_mem_cons] at h
    rw [tensors, iha h.1, ihb h.2.1, listTensors]
    rfl

theorem IsNormal.isExpression_eq (hd : d.IsNormal) : d.isExpression = true := by
  cases hd <;> rfl

/-! ## Statements -/

/-- A single statement: an assignment of an expression, or an expression that stands alone. -/
inductive IsStatement (Rhs : Diagram → Prop) : Diagram → Prop
  /-- An assignment, to whatever it may be. -/
  | assign {rhs : Diagram} (lhs : Diagram) (isDefinition : Bool) (hrhs : Rhs rhs) :
      IsStatement Rhs (.assign lhs rhs isDefinition)
  /-- An expression that stands alone. -/
  | expression {d : Diagram} (hexpression : d.isExpression = true) (hd : Rhs d) : IsStatement Rhs d

/-- A formula with a kind, as it is written. -/
def IsWritten (d : Diagram) : Prop :=
  d.IsFormula ∧ d.HasKind

/-- A normal expression with a kind. -/
def IsPrepared (d : Diagram) : Prop :=
  d.IsNormal ∧ d.HasKind

theorem IsPrepared.mapRefs (hd : d.IsPrepared) (f : TensorRef → TensorRef) :
    (d.mapRefs f).IsPrepared := by
  refine ⟨hd.1.mapRefs f, ?_⟩
  rw [HasKind, isTensor_mapRefs, isScalar_mapRefs]
  exact hd.2

theorem IsWritten.nested (horder : HasDistinctLeaves order) (hd : d.IsWritten)
    (h : (d.adjointForm false).nestProducts order = .ok d') : d'.IsPrepared := by
  refine ⟨(hd.1.nested h).1, ?_⟩
  rw [HasKind, (hd.1.kind_nested horder h).1, (hd.1.kind_nested horder h).2]
  exact hd.2

section Statements

variable {Rhs : Diagram → Prop} {s : Diagram}

/-- A single statement is flat. -/
theorem IsStatement.flatten_eq (hs : s.IsStatement Rhs) : s.flatten = [s] := by
  cases hs with
  | assign => rfl
  | expression hexpression _ => cases s <;> simp_all [isExpression, flatten]

theorem IsStatement.mapRefs (hs : s.IsStatement IsPrepared) (f : TensorRef → TensorRef) :
    (s.mapRefs f).IsStatement IsPrepared := by
  cases hs with
  | assign lhs isDefinition hrhs => exact .assign _ _ (hrhs.mapRefs f)
  | expression _ hd => exact .expression (hd.mapRefs f).1.isExpression_eq (hd.mapRefs f)

theorem IsStatement.nested (horder : HasDistinctLeaves order) {s' : Diagram}
    (hs : s.IsStatement IsWritten) (h : (s.adjointForm false).nestProducts order = .ok s') :
    s'.IsStatement IsPrepared := by
  cases hs with
  | assign lhs isDefinition hrhs =>
    obtain ⟨rhs', hrhs', rfl⟩ := nestProducts_assign_eq_ok_iff.mp h
    exact .assign _ _ (hrhs.nested horder hrhs')
  | expression _ hd =>
    have hd' := hd.nested horder h
    exact .expression hd'.1.isExpression_eq hd'

end Statements

/-! ## Trees -/

/-- A tree of blocks with leaves of some sort. -/
inductive IsTree (Leaf : Diagram → Prop) : Diagram → Prop
  /-- A leaf. -/
  | leaf {s : Diagram} (hs : Leaf s) : IsTree Leaf s
  /-- A block of trees. -/
  | block {statements : List Diagram} (hstatements : ∀ s ∈ statements, IsTree Leaf s) :
      IsTree Leaf (.block statements)

/-- A program: blocks of assignments and of expressions that stand alone, where every expression is
a tensor expression or a scalar expression. -/
abbrev IsProgram (d : Diagram) : Prop :=
  d.IsTree (IsStatement IsWritten)

/-- Statements without blocks around them are flat. -/
theorem flattenList_eq_self {ds : List Diagram} (h : ∀ d ∈ ds, d.flatten = [d]) :
    flattenList ds = ds := by
  rw [flattenList_eq, List.flatMap_congr h]
  exact List.flatMap_singleton' ds

section Trees

variable {Leaf Leaf' : Diagram → Prop} {d : Diagram}

/-- The statements of a tree of single statements. -/
theorem IsTree.isStatement_of_mem {Rhs : Diagram → Prop} (hd : d.IsTree (IsStatement Rhs)) :
    ∀ s ∈ d.flatten, s.IsStatement Rhs := by
  induction hd with
  | leaf hs =>
    rw [hs.flatten_eq]
    simpa using hs
  | block _ ih =>
    intro s hs
    rw [flatten, flattenList_eq] at hs
    obtain ⟨d, hd, hs⟩ := List.mem_flatMap.mp hs
    exact ih d hd s hs

/-- The references of a tree are those of its statements. -/
theorem IsTree.references_eq {Rhs : Diagram → Prop} (hd : d.IsTree (IsStatement Rhs)) :
    d.references = d.flatten.flatMap references := by
  induction hd with
  | leaf hs => rw [hs.flatten_eq, List.flatMap_singleton]
  | block _ ih =>
    rw [references, flatten, listReferences_eq, flattenList_eq, List.flatMap_assoc]
    exact List.flatMap_congr ih

/-- References are replaced statement by statement. -/
theorem IsTree.flatten_mapRefs (hd : d.IsTree (IsStatement IsPrepared))
    (f : TensorRef → TensorRef) : (d.mapRefs f).flatten = d.flatten.map (mapRefs f) := by
  induction hd with
  | leaf hs => rw [hs.flatten_eq, (hs.mapRefs f).flatten_eq, List.map_singleton]
  | block _ ih =>
    rw [mapRefs, mapRefsList_eq, flatten, flatten, flattenList_eq, flattenList_eq, List.map_flatMap,
      List.flatMap_map]
    exact List.flatMap_congr ih

/-- References are replaced leaf by leaf. -/
theorem IsTree.mapRefs_of {f : TensorRef → TensorRef}
    (hleaf : ∀ {s : Diagram}, Leaf s → Leaf' (s.mapRefs f))
    (hd : d.IsTree Leaf) : (d.mapRefs f).IsTree Leaf' := by
  induction hd with
  | leaf hs => exact .leaf (hleaf hs)
  | block _ ih =>
    rw [Diagram.mapRefs, mapRefsList_eq]
    exact .block (List.forall_mem_map.mpr ih)

theorem IsTree.mapRefs (hd : d.IsTree (IsStatement IsPrepared)) (f : TensorRef → TensorRef) :
    (d.mapRefs f).IsTree (IsStatement IsPrepared) :=
  hd.mapRefs_of fun hs => hs.mapRefs f

/-- Conjugation is moved and products are nested leaf by leaf. -/
theorem IsTree.nestProducts_of
    (hleaf : ∀ {s s' : Diagram}, Leaf s → (s.adjointForm false).nestProducts order = .ok s' →
      Leaf' s') (hd : d.IsTree Leaf) (h : (d.adjointForm false).nestProducts order = .ok d') :
    d'.IsTree Leaf' := by
  induction hd generalizing d' with
  | leaf hs => exact .leaf (hleaf hs h)
  | @block statements _ ih =>
    obtain ⟨nested, rfl, hnested⟩ := forall₂_of_nestProducts_block h
    have htrees : List.Forall₂ (fun _ s' => s'.IsTree Leaf') statements nested :=
      ((List.forall₂_and_left statements nested).mpr ⟨ih, hnested⟩).imp fun _ _ h => h.1 h.2
    exact .block (forall_mem_of_forall₂ htrees)

/-- The order of contractions is looked at before the products, and its leaves are distinct. -/
theorem exists_tree_of_binarize {order : Option ContractionOrder} {d : Diagram}
    (h : d.binarize order = .ok d') :
    ∃ tree, HasDistinctLeaves tree ∧ ∀ x, binarize order x = x.nestProducts tree := by
  cases order with
  | none => exact ⟨none, nofun, fun _ => rfl⟩
  | some order =>
    obtain ⟨tree, htree, h⟩ := bind_eq_ok_iff.mp h
    split_ifs at h with hdistinct
    refine ⟨some tree, ?_, fun x => ?_⟩
    · rintro _ ⟨⟩
      exact isEmpty_duplicates_iff.mp hdistinct
    · simp only [binarize, htree, ok_bind, if_pos hdistinct]

/-- A program with conjugation moved to references and nested products is a tree of the same kind
with normal expressions. -/
theorem IsTree.nested {order : Option ContractionOrder} (hd : d.IsProgram)
    (h : d.pushConj.binarize order = .ok d') : d'.IsTree (IsStatement IsPrepared) := by
  obtain ⟨tree, hleaves, htree⟩ := exists_tree_of_binarize h
  rw [htree] at h
  exact hd.nestProducts_of (fun hs => hs.nested hleaves) h

end Trees

/-! ## Passes -/

section Passes

/-- A step of a compilation that goes through the statements of blocks in order. -/
structure IsTreePass (pass : HandleTable → Diagram → Except Error (Diagram × HandleTable))
    (passList : HandleTable → List Diagram → Except Error (List Diagram × HandleTable)) : Prop where
  /-- The statements of a block are replaced. -/
  block : ∀ {table table' statements d'}, pass table (.block statements) = .ok (d', table') →
    ∃ statements', passList table statements = .ok (statements', table') ∧ d' = .block statements'
  /-- Nothing happens to no statements. -/
  nil : ∀ {table table' ds'}, passList table [] = .ok (ds', table') → ds' = [] ∧ table' = table
  /-- The table is handed on from each statement to the next. -/
  cons : ∀ {table table' d rest ds'}, passList table (d :: rest) = .ok (ds', table') →
    ∃ d' table₁ rest', pass table d = .ok (d', table₁) ∧
    passList table₁ rest = .ok (rest', table') ∧ ds' = d' :: rest'

variable {R : HandleTable → List Diagram → HandleTable → List Diagram → Prop}
  {pass : HandleTable → Diagram → Except Error (Diagram × HandleTable)}
  {passList : HandleTable → List Diagram → Except Error (List Diagram × HandleTable)}

/-- A step that is defined by these equations goes through the statements of blocks in order. -/
theorem IsTreePass.of_eq
    (hblock : ∀ table statements, pass table (.block statements) =
      passList table statements >>= fun p => .ok (.block p.1, p.2))
    (hnil : ∀ table, passList table [] = .ok ([], table))
    (hcons : ∀ table d rest, passList table (d :: rest) =
      pass table d >>= fun p => passList p.2 rest >>= fun q => .ok (p.1 :: q.1, q.2)) :
    IsTreePass pass passList where
  block h := by
    rw [hblock] at h
    obtain ⟨⟨statements', table₁⟩, hlist, h⟩ := bind_eq_ok_iff.mp h
    obtain ⟨rfl, rfl⟩ := Prod.mk.inj (Except.ok.inj h)
    exact ⟨statements', hlist, rfl⟩
  nil h := by
    rw [hnil] at h
    obtain ⟨rfl, rfl⟩ := Prod.mk.inj (Except.ok.inj h)
    exact ⟨rfl, rfl⟩
  cons h := by
    rw [hcons] at h
    obtain ⟨⟨d', table₁⟩, hd, h⟩ := bind_eq_ok_iff.mp h
    obtain ⟨⟨rest', table₂⟩, hrest, h⟩ := bind_eq_ok_iff.mp h
    obtain ⟨rfl, rfl⟩ := Prod.mk.inj (Except.ok.inj h)
    exact ⟨d', table₁, rest', hd, hrest, rfl⟩

/-- What a step does to leaves it does to trees: the result is a tree, and the statements of the
result come from those of the tree in the same way, if this is a way that can be gone one list after
another. -/
theorem IsTree.passes {Leaf Leaf' : Diagram → Prop} {table table' : HandleTable}
    (hpass : IsTreePass pass passList) (hnil : ∀ table, R table [] table [])
    (happend : ∀ {table table₁ table₂ xs ys out out'}, R table xs table₁ out →
      R table₁ ys table₂ out' → R table (xs ++ ys) table₂ (out ++ out'))
    (hleaf : ∀ {s s' : Diagram} {table table' : HandleTable}, Leaf s →
      pass table s = .ok (s', table') → s'.IsTree Leaf' ∧ R table s.flatten table' s'.flatten)
    (hd : d.IsTree Leaf) (h : pass table d = .ok (d', table')) :
    d'.IsTree Leaf' ∧ R table d.flatten table' d'.flatten := by
  induction hd generalizing table table' d' with
  | leaf hs => exact hleaf hs h
  | @block statements htrees ih =>
    obtain ⟨statements', hlist, rfl⟩ := hpass.block h
    rw [flatten, flatten]
    clear h htrees
    suffices hall : (∀ s ∈ statements', s.IsTree Leaf') ∧
        R table (flattenList statements) table' (flattenList statements') from ⟨.block hall.1,
          hall.2⟩
    induction statements generalizing table statements' with
    | nil =>
      obtain ⟨rfl, rfl⟩ := hpass.nil hlist
      exact ⟨by simp, hnil _⟩
    | cons s statements ih' =>
      obtain ⟨s', table₁, rest', hs, hrest, rfl⟩ := hpass.cons hlist
      obtain ⟨ihs, ihrest⟩ := List.forall_mem_cons.mp ih
      obtain ⟨htree, hfirst⟩ := ihs hs
      obtain ⟨htrees, hothers⟩ := ih' ihrest _ hrest
      exact ⟨List.forall_mem_cons.mpr ⟨htree, htrees⟩, happend hfirst hothers⟩

end Passes

end Diagram

end TensorDiagram
