import TensorDiagram.Proofs.Admissible
import TensorDiagram.Proofs.DiagramInduction

/-!
# Nested products

A product of many factors is nested into products of two, from left to right or along a contraction
tree.  The result is a nested product of some of the factors, each of which is used once at most
(`nest_builtFrom`).  So what holds of all factors and is kept by products of two holds of the
result.

A formula is an expression all the way down.  It and its normal form, with conjugation moved to its
references and with nested products, are taken apart together (`IsFormula.nested_induction`).  The
normal form is normal, and has no references that were not there before (`IsFormula.nested`).
-/

namespace TensorDiagram.Diagram

variable {d : Diagram} {s : Multiset Diagram} {order : Option ContractionTree}
  {table : Table String Diagram}

/-! ## Products of two from a multiset of factors -/

/-- The diagram is a nested product of exactly these factors. -/
inductive BuiltFrom : Multiset Diagram → Diagram → Prop
  /-- A factor. -/
  | factor (d : Diagram) : BuiltFrom {d} d
  /-- A product of two. -/
  | pair {s t : Multiset Diagram} {a b : Diagram} (ha : BuiltFrom s a) (hb : BuiltFrom t b) :
      BuiltFrom (s + t) (.pair a b)

/-- What holds of the factors and is kept by products of two holds of the nested product. -/
theorem BuiltFrom.closed {Q : Diagram → Prop} (hQ : ∀ a b, Q a → Q b → Q (.pair a b))
    (h : BuiltFrom s d) (hs : ∀ a ∈ s, Q a) : Q d := by
  induction h with
  | factor d => exact hs d (Multiset.mem_singleton_self d)
  | pair _ _ iha ihb =>
    exact hQ _ _ (iha fun a ha => hs a (Multiset.mem_add.mpr (Or.inl ha)))
      (ihb fun b hb => hs b (Multiset.mem_add.mpr (Or.inr hb)))

/-- The diagrams of a table are nested products of exactly these factors. -/
inductive TableFrom : Multiset Diagram → Table String Diagram → Prop
  /-- The empty table. -/
  | nil : TableFrom 0 []
  /-- A table with one more entry. -/
  | cons {s t : Multiset Diagram} {d : Diagram} {rest : Table String Diagram} (name : String)
      (hd : BuiltFrom s d) (hrest : TableFrom t rest) : TableFrom (s + t) ((name, d) :: rest)

/-- A factor that is taken out of a table. -/
theorem TableFrom.take {rest : Table String Diagram} {name : Option String} (h : TableFrom s table)
    (htake : takeFactor name table = .ok (d, rest)) :
    ∃ t u, t + u = s ∧ BuiltFrom t d ∧ TableFrom u rest := by
  rw [takeFactor] at htake
  rcases hfind : table.find? (leafText name) with _ | x
  · rw [hfind] at htake
    cases htake
  · rw [hfind] at htake
    obtain ⟨rfl, rfl⟩ := Prod.mk.inj (Except.ok.inj htake)
    clear htake
    induction h with
    | nil => cases hfind
    | @cons s t x' rest' key hx hrest ih =>
      rw [Table.find?] at hfind
      rw [Table.erase]
      split_ifs at hfind ⊢ with hkey
      · obtain rfl := Option.some.inj hfind
        exact ⟨s, t, rfl, hx, hrest⟩
      · obtain ⟨t', u', hsum, hd, hrest'⟩ := ih hfind
        exact ⟨t', s + u', by rw [← hsum, add_left_comm], hd, .cons key hx hrest'⟩

/-- A diagram that is entered in a table may displace another. -/
theorem TableFrom.put {t : Multiset Diagram} (h : TableFrom s table) (hd : BuiltFrom t d)
    (name : String) : ∃ u ≤ t + s, TableFrom u (table.put name d) := by
  induction h with
  | nil => exact ⟨t + 0, le_rfl, .cons name hd .nil⟩
  | @cons s' t' x rest key hx hrest ih =>
    rw [Table.put]
    split_ifs with hkey
    · exact ⟨t + t', add_le_add le_rfl (Multiset.le_add_left t' s'), .cons key hd hrest⟩
    · obtain ⟨u, hu, htable⟩ := ih
      exact ⟨s' + u, by rw [add_left_comm]; exact add_le_add le_rfl hu, .cons key hx htable⟩

/-- Contractions along a tree. -/
theorem TableFrom.contractAlong {tree : ContractionTree} {table' : Table String Diagram}
    {name : Option String} (h : TableFrom s table)
    (hrun : Diagram.contractAlong tree table = .ok (name, table')) :
    ∃ t ≤ s, TableFrom t table' := by
  induction tree generalizing s table table' name with
  | leaf leaf =>
    obtain ⟨-, rfl⟩ := Prod.mk.inj (Except.ok.inj hrun)
    exact ⟨s, le_rfl, h⟩
  | fuse left right ihleft ihright =>
    rw [Diagram.contractAlong] at hrun
    obtain ⟨⟨a, table₁⟩, ha, hrun⟩ := bind_eq_ok_iff.mp hrun
    obtain ⟨⟨b, table₂⟩, hb, hrun⟩ := bind_eq_ok_iff.mp hrun
    obtain ⟨⟨x, table₃⟩, hx, hrun⟩ := bind_eq_ok_iff.mp hrun
    obtain ⟨⟨y, table₄⟩, hy, hrun⟩ := bind_eq_ok_iff.mp hrun
    obtain ⟨-, rfl⟩ := Prod.mk.inj (Except.ok.inj hrun)
    obtain ⟨s₁, hs₁, h₁⟩ := ihleft h ha
    obtain ⟨s₂, hs₂, h₂⟩ := ihright h₁ hb
    obtain ⟨t, u, htu, hxb, h₃⟩ := h₂.take hx
    obtain ⟨t', u', htu', hyb, h₄⟩ := h₃.take hy
    obtain ⟨v, hv, hput⟩ := h₄.put (hxb.pair hyb) (fusedName a b)
    refine ⟨v, hv.trans ?_, hput⟩
    calc t + t' + u' = s₂ := by rw [add_assoc, htu', htu]
      _ ≤ s := hs₂.trans hs₁

/-- Sorted factors: the scalars and the tensors together are the factors that were read. -/
theorem sortFactors?_tableFrom {factors : List Diagram} {sorted result : SortedFactors}
    (h : TableFrom s sorted.tensors) (hsort : sortFactors? sorted factors = some result) :
    ∃ t, TableFrom t result.tensors ∧
      (result.scalars : Multiset Diagram) + t ≤ sorted.scalars + s + factors := by
  induction factors generalizing sorted s with
  | nil =>
    obtain rfl := Option.some.inj hsort
    exact ⟨s, h, by simp⟩
  | cons d factors ih =>
    have hcons : ((d :: factors : List Diagram) : Multiset Diagram) =
        {d} + (factors : Multiset Diagram) := by
      rw [← Multiset.cons_coe, Multiset.singleton_add]
    rw [sortFactors?] at hsort
    split_ifs at hsort with hscalar
    · obtain ⟨t, ht, hle⟩ := @ih s ⟨sorted.scalars ++ [d], sorted.tensors⟩ h hsort
      refine ⟨t, ht, hle.trans (le_of_eq ?_)⟩
      rw [hcons, ← Multiset.coe_add, Multiset.coe_singleton]
      abel
    · rcases hg : d.general? with _ | g
      · rw [hg] at hsort
        cases hsort
      · rw [hg] at hsort
        dsimp only at hsort
        split_ifs at hsort with hname
        obtain ⟨u, hu, hput⟩ := h.put (.factor d) g.term.factorName
        obtain ⟨t, ht, hle⟩ := ih hput hsort
        refine ⟨t, ht, hle.trans ?_⟩
        rw [hcons]
        calc (sorted.scalars : Multiset Diagram) + u + factors
            ≤ sorted.scalars + ({d} + s) + factors := by gcongr
          _ = sorted.scalars + s + ({d} + (factors : Multiset Diagram)) := by abel

/-- Scalars that are multiplied in front. -/
theorem BuiltFrom.foldr_pair (h : BuiltFrom s d) (scalars : List Diagram) :
    BuiltFrom (scalars + s) (scalars.foldr Diagram.pair d) := by
  induction scalars with
  | nil => simpa using h
  | cons a scalars ih =>
    have hpair := (BuiltFrom.factor a).pair ih
    rwa [← add_assoc, Multiset.singleton_add, Multiset.cons_coe] at hpair

/-- Factors that are multiplied from left to right. -/
theorem BuiltFrom.foldl_pair (h : BuiltFrom s d) (factors : List Diagram) :
    BuiltFrom (s + factors) (factors.foldl Diagram.pair d) := by
  induction factors generalizing s d with
  | nil => simpa using h
  | cons a factors ih =>
    have hpair := ih (h.pair (.factor a))
    rwa [add_assoc, Multiset.singleton_add, Multiset.cons_coe] at hpair

theorem nestLeft_builtFrom (a b : Diagram) (rest : List Diagram) :
    BuiltFrom (a :: b :: rest : List Diagram) (nestLeft a b rest) := by
  have hpair := ((BuiltFrom.factor a).pair (.factor b)).foldl_pair rest
  rwa [add_assoc, Multiset.singleton_add, Multiset.singleton_add, Multiset.cons_coe,
    Multiset.cons_coe] at hpair

/-- A nested product is built from some of the factors. -/
theorem nest_builtFrom {a b : Diagram} {rest : List Diagram} (h : nest order a b rest = .ok d) :
    ∃ s ≤ ((a :: b :: rest : List Diagram) : Multiset Diagram), BuiltFrom s d := by
  have hleft : ∃ s ≤ ((a :: b :: rest : List Diagram) : Multiset Diagram),
      BuiltFrom s (nestLeft a b rest) := ⟨_, le_rfl, nestLeft_builtFrom a b rest⟩
  cases order with
  | none =>
    obtain rfl := Except.ok.inj h
    exact hleft
  | some tree =>
    obtain ⟨found, hfound, h⟩ := bind_eq_ok_iff.mp h
    cases found with
    | none =>
      obtain rfl := Except.ok.inj h
      exact hleft
    | some x =>
      obtain rfl := Except.ok.inj h
      rw [nestAlong?] at hfound
      rcases hsort : sortFactors? ⟨[], []⟩ (a :: b :: rest) with _ | sorted
      · rw [hsort] at hfound
        cases hfound
      · rw [hsort] at hfound
        dsimp only at hfound
        split_ifs at hfound with hmatch
        · obtain ⟨⟨name, table⟩, hrun, hfound⟩ := bind_eq_ok_iff.mp hfound
          obtain ⟨⟨result, table'⟩, htake, hfound⟩ := bind_eq_ok_iff.mp hfound
          obtain rfl := Option.some.inj (Except.ok.inj hfound)
          obtain ⟨t, ht, hle⟩ := sortFactors?_tableFrom .nil hsort
          obtain ⟨t', ht', hrun⟩ := ht.contractAlong hrun
          obtain ⟨u, v, huv, hresult, -⟩ := hrun.take htake
          refine ⟨_, ?_, hresult.foldr_pair sorted.scalars⟩
          calc (sorted.scalars : Multiset Diagram) + u
              ≤ sorted.scalars + t :=
            add_le_add le_rfl ((huv ▸ Multiset.le_add_right u v).trans ht')
            _ ≤ _ := by simpa using hle
        · cases hfound

/-! ## Formulas -/

/-- An expression all the way down. -/
inductive IsFormula : Diagram → Prop
  /-- A reference. -/
  | ref (t : TensorRef) : IsFormula (.ref t)
  /-- A scalar. -/
  | scalar (s : Scalar) : IsFormula (.scalar s)
  /-- A conjugate. -/
  | conj {a : Diagram} (ha : IsFormula a) : IsFormula (.conj a)
  /-- A sum. -/
  | sum {sign : Sign} {a : Diagram} {rest : List (Sign × Diagram)} (ha : IsFormula a)
      (hrest : ∀ p ∈ rest, IsFormula p.2) : IsFormula (.sum sign a rest)
  /-- A product. -/
  | product {a b : Diagram} {rest : List Diagram} (ha : IsFormula a) (hb : IsFormula b)
      (hrest : ∀ d ∈ rest, IsFormula d) : IsFormula (.product a b rest)

/-- What holds of all factors of a product. -/
theorem forall_mem_factors {P : Diagram → Prop} {a b : Diagram} {rest : List Diagram}
    (ha : P a) (hb : P b) (hrest : ∀ d ∈ rest, P d) : ∀ d ∈ a :: b :: rest, P d :=
  List.forall_mem_cons.mpr ⟨ha, List.forall_mem_cons.mpr ⟨hb, hrest⟩⟩

/-- What stays of a reference when it is conjugated: the object and the indices. -/
def occurrence (t : TensorRef) : ObjectRef × Multiset Index :=
  (t.object, t.indices)

theorem occurrence_flipped (t : TensorRef) : occurrence t.flipped = occurrence t := by
  have hperm : (t.right ++ t.left).Perm (t.left ++ t.right) := List.perm_append_comm
  exact Prod.ext rfl (Multiset.coe_eq_coe.mpr hperm)

/-- The objects and indices of all references of an expression. -/
def occurrences (d : Diagram) : Multiset (ObjectRef × Multiset Index) :=
  d.tensors.map occurrence

theorem occurrences_pair (a b : Diagram) :
    (pair a b).occurrences = a.occurrences + b.occurrences := by
  simp [occurrences, tensors, listTensors]

/-- A nested product has the references of its factors. -/
theorem BuiltFrom.occurrences_eq (h : BuiltFrom s d) : d.occurrences = (s.map occurrences).sum := by
  induction h with
  | factor d => simp
  | pair _ _ iha ihb => rw [occurrences_pair, iha, ihb, Multiset.map_add, Multiset.sum_add]

theorem forall_mem_of_forall₂ {α β : Type} {Q : β → Prop} {xs : List α} {ys : List β}
    (h : List.Forall₂ (fun _ y => Q y) xs ys) : ∀ y ∈ ys, Q y := by
  induction h with
  | nil => simp
  | cons hy _ ih => exact List.forall_mem_cons.mpr ⟨hy, ih⟩

theorem sum_le_sum_of_forall₂ {α β γ : Type} {f : α → Multiset γ} {g : β → Multiset γ} {xs : List α}
    {ys : List β} (h : List.Forall₂ (fun x y => g y ≤ f x) xs ys) :
    (ys.map g).sum ≤ (xs.map f).sum := by
  induction h with
  | nil => rfl
  | cons hxy _ ih =>
    rw [List.map_cons, List.map_cons, List.sum_cons, List.sum_cons]
    exact add_le_add hxy ih

theorem coe_flatMap_occurrence {α : Type} (f : α → Diagram) (xs : List α) :
    (((xs.flatMap fun x => (f x).tensors).map occurrence : List _) :
      Multiset (ObjectRef × Multiset Index)) = (xs.map fun x => (f x).occurrences).sum := by
  induction xs with
  | nil => rfl
  | cons x xs ih =>
    rw [List.flatMap_cons, List.map_append, ← Multiset.coe_add, ih, List.map_cons,
      List.sum_cons, occurrences]

theorem occurrences_product (a b : Diagram) (rest : List Diagram) :
    (product a b rest).occurrences = ((a :: b :: rest).map occurrences).sum := by
  rw [occurrences, tensors, listTensors_eq, List.map_append, List.map_append, ← Multiset.coe_add,
    ← Multiset.coe_add, coe_flatMap_occurrence fun d => d, List.map_cons, List.map_cons,
    List.sum_cons, List.sum_cons, ← add_assoc]
  rfl

theorem occurrences_sum (sign : Sign) (a : Diagram) (rest : List (Sign × Diagram)) :
    (sum sign a rest).occurrences = a.occurrences + (rest.map fun p => p.2.occurrences).sum := by
  rw [occurrences, tensors, termTensors_eq, List.map_append, ← Multiset.coe_add,
    coe_flatMap_occurrence fun p : Sign × Diagram => p.2]
  rfl

/-- Induction over a formula and its normal form, with conjugation moved to references and with
nested products.  The normal form of a product is nested out of normal forms of its factors. -/
@[elab_as_elim]
theorem IsFormula.nested_induction {motive : Bool → Diagram → Diagram → Prop}
    (ref : ∀ odd t, motive odd (.ref t) (.ref (if odd then t.flipped else t)))
    (scalar : ∀ odd s, motive odd (.scalar s) (if odd then s.conjugate else .scalar s))
    (conj : ∀ odd a d', motive (!odd) a d' → motive odd (.conj a) d')
    (sum : ∀ odd sign a a' rest rest', motive odd a a' →
      List.Forall₂ (fun p p' : Sign × Diagram => motive odd p.2 p'.2) rest rest' →
      motive odd (.sum sign a rest) (.sum sign a' rest'))
    (product : ∀ odd a b rest a' b' rest' d', List.Forall₂ (motive odd) (a :: b :: rest)
      (a' :: b' :: rest') → nest order a' b' rest' = .ok d' → motive odd (.product a b rest) d')
    {d' : Diagram} {odd : Bool} (hd : d.IsFormula)
    (h : (d.adjointForm odd).nestProducts order = .ok d') : motive odd d d' := by
  induction hd generalizing odd d' with
  | ref t =>
    obtain rfl := Except.ok.inj h
    exact ref odd t
  | scalar s =>
    have hscalar : ((Diagram.scalar s).adjointForm odd).nestProducts order =
        .ok (if odd then s.conjugate else .scalar s) := by
      cases odd <;> cases s <;> rfl
    obtain rfl := Except.ok.inj (hscalar.symm.trans h)
    exact scalar odd s
  | @conj a _ ih =>
    rw [adjointForm] at h
    exact conj odd a d' (ih h)
  | @sum sign a rest _ _ iha ihrest =>
    rw [adjointForm, adjointFormTerms_eq, nestProducts, nestProductsTerms_eq] at h
    obtain ⟨a', ha', h⟩ := bind_eq_ok_iff.mp h
    obtain ⟨rest', hrest', h⟩ := bind_eq_ok_iff.mp h
    obtain rfl := Except.ok.inj h
    rw [mapM_eq_ok_iff, List.forall₂_map_left_iff] at hrest'
    refine sum odd sign a a' rest rest' (iha ha') ?_
    refine ((List.forall₂_and_left rest rest').mpr ⟨ihrest, hrest'⟩).imp fun p p' hp => ?_
    obtain ⟨x, hx, hp'⟩ := bind_eq_ok_iff.mp hp.2
    obtain rfl := Except.ok.inj hp'
    exact hp.1 hx
  | @product a b rest _ _ _ iha ihb ihrest =>
    rw [adjointForm, adjointFormList_eq, nestProducts, nestProductsList_eq] at h
    obtain ⟨a', ha', h⟩ := bind_eq_ok_iff.mp h
    obtain ⟨b', hb', h⟩ := bind_eq_ok_iff.mp h
    obtain ⟨rest', hrest', h⟩ := bind_eq_ok_iff.mp h
    rw [mapM_eq_ok_iff, List.forall₂_map_left_iff] at hrest'
    refine product odd a b rest a' b' rest' d' (.cons (iha ha') (.cons (ihb hb') ?_)) h
    exact ((List.forall₂_and_left rest rest').mpr ⟨ihrest, hrest'⟩).imp fun x x' hx => hx.1 hx.2

/-- The right hand side of an assignment is nested. -/
theorem nestProducts_assign_eq_ok_iff {lhs rhs : Diagram} {isDefinition : Bool} :
    ((assign lhs rhs isDefinition).adjointForm false).nestProducts order = .ok d ↔
      ∃ rhs', (rhs.adjointForm false).nestProducts order = .ok rhs' ∧
        d = assign lhs rhs' isDefinition := by
  rw [adjointForm, if_neg Bool.false_ne_true, nestProducts, bind_eq_ok_iff]
  exact exists_congr fun rhs' => and_congr_right fun _ => (Except.ok.injEq _ _).to_iff.trans eq_comm

/-- The statements of a block are nested one by one. -/
theorem forall₂_of_nestProducts_block {statements : List Diagram}
    (h : ((block statements).adjointForm false).nestProducts order = .ok d) :
    ∃ nested, d = block nested ∧
      List.Forall₂ (fun s s' => (s.adjointForm false).nestProducts order = .ok s')
        statements nested := by
  rw [adjointForm, if_neg Bool.false_ne_true, adjointFormList_eq, nestProducts,
    nestProductsList_eq] at h
  obtain ⟨nested, hnested, h⟩ := bind_eq_ok_iff.mp h
  rw [mapM_eq_ok_iff, List.forall₂_map_left_iff] at hnested
  exact ⟨nested, (Except.ok.inj h).symm, hnested⟩

theorem occurrences_flipped (t : TensorRef) (odd : Bool) :
    (ref (if odd then t.flipped else t)).occurrences = (ref t).occurrences := by
  cases odd with
  | false => rfl
  | true => simp [occurrences, tensors, occurrence_flipped]

/-- A formula with conjugation moved to its references and with nested products is normal, and has
no references that were not there before. -/
theorem IsFormula.nested {d' : Diagram} {odd : Bool} (hd : d.IsFormula)
    (h : (d.adjointForm odd).nestProducts order = .ok d') :
    d'.IsNormal ∧ d'.occurrences ≤ d.occurrences := by
  refine IsFormula.nested_induction ?ref ?scalar ?conj ?sum ?product hd h
  case ref => exact fun odd t => ⟨.ref _, (occurrences_flipped t odd).le⟩
  case scalar =>
    intro odd s
    cases odd with
    | false => exact ⟨.scalar s, le_rfl⟩
    | true =>
      cases s with
      | number x => exact ⟨.scalar _, le_rfl⟩
      | name text => exact ⟨.conj text, le_rfl⟩
  case conj => exact fun odd a d' ih => ih
  case sum =>
    rintro odd sign a a' rest rest' ⟨hna, hoa⟩ hterms
    rw [occurrences_sum, occurrences_sum]
    exact ⟨.sum hna (forall_mem_of_forall₂ (hterms.imp fun _ _ h => h.1)),
      add_le_add hoa (sum_le_sum_of_forall₂ (hterms.imp fun _ _ h => h.2))⟩
  case product =>
    intro odd a b rest a' b' rest' d' hfactors h
    have hnormal := forall_mem_of_forall₂ (hfactors.imp fun _ _ h => h.1)
    obtain ⟨s, hs, hbuilt⟩ := nest_builtFrom h
    refine ⟨hbuilt.closed (fun _ _ => .pair) fun x hx => hnormal x (Multiset.mem_of_le hs hx), ?_⟩
    rw [hbuilt.occurrences_eq, occurrences_product]
    calc (s.map occurrences).sum ≤ ((a' :: b' :: rest').map occurrences).sum := by
          obtain ⟨t, ht⟩ := Multiset.le_iff_exists_add.mp hs
          rw [← Multiset.sum_coe, ← Multiset.map_coe, ht, Multiset.map_add, Multiset.sum_add]
          exact Multiset.le_add_right _ _
      _ ≤ _ := sum_le_sum_of_forall₂ (hfactors.imp fun _ _ h => h.2)

/-- Products can always be nested from left to right. -/
theorem IsFormula.exists_nestProducts (hd : d.IsFormula) (odd : Bool) :
    ∃ d', (d.adjointForm odd).nestProducts none = .ok d' := by
  induction hd generalizing odd with
  | ref t => cases odd <;> exact ⟨_, rfl⟩
  | scalar s =>
    cases odd with
    | false => exact ⟨_, rfl⟩
    | true => cases s <;> exact ⟨_, rfl⟩
  | conj _ ih =>
    rw [adjointForm]
    exact ih _
  | @sum sign a rest _ _ iha ihrest =>
    obtain ⟨a', ha'⟩ := iha odd
    have hterms : ∀ p ∈ rest.map fun p => (p.1, p.2.adjointForm odd),
        ∃ q : Sign × Diagram, (p.2.nestProducts none >>= fun d => .ok (p.1, d)) = .ok q := by
      refine List.forall_mem_map.mpr fun p hp => ?_
      obtain ⟨d', hd'⟩ := ihrest p hp odd
      exact ⟨(p.1, d'), by rw [hd', ok_bind]⟩
    obtain ⟨rest', hrest'⟩ := exists_mapM_eq_ok hterms
    refine ⟨.sum sign a' rest', ?_⟩
    rw [adjointForm, adjointFormTerms_eq, nestProducts, nestProductsTerms_eq, ha', hrest']
    rfl
  | @product a b rest _ _ _ iha ihb ihrest =>
    obtain ⟨a', ha'⟩ := iha odd
    obtain ⟨b', hb'⟩ := ihb odd
    obtain ⟨rest', hrest'⟩ : ∃ rest', (rest.map (adjointForm odd)).mapM (nestProducts none) =
        .ok rest' :=
      exists_mapM_eq_ok (List.forall_mem_map.mpr fun z hz => ihrest z hz odd)
    refine ⟨nestLeft a' b' rest', ?_⟩
    rw [adjointForm, adjointFormList_eq, nestProducts, nestProductsList_eq, ha', hb', hrest']
    rfl

end TensorDiagram.Diagram
