import TensorDiagram.Proofs.AdjointForms
import TensorDiagram.Proofs.Relabelling
import TensorDiagram.Proofs.Untangling

/-!
# Compiling with other indices

No step of a compilation looks at what indices are, only at which of them are the same.  Hence the
steps can be done before or after the indices of an expression are replaced: moving conjugation to
references and nesting products (`HasNoSum.nestProducts_mapIndices`) for any replacement, and
checking that braidings can be dropped (`checkRemovable_mapIndices`) for one that keeps different
indices different.

Binding looks at the objects of references and at their numbers of legs (`bindNames_congr`).
-/

namespace TensorDiagram

variable {g : Index → Index}

/-! ## Tables -/

section Tables

variable {κ α β : Type} [DecidableEq κ]

/-- An entry of a table with other values. -/
theorem Table.put_map (f : α → β) (t : Table κ α) (key : κ) (value : α) :
    Table.put key (f value) (t.map fun entry => (entry.1, f entry.2)) =
      (t.put key value).map fun entry => (entry.1, f entry.2) :=
  put_prodMap Function.injective_id f t key value

/-- An entry is erased from a table with other values. -/
theorem Table.erase_map (f : α → β) (t : Table κ α) (key : κ) :
    Table.erase key (t.map fun entry => (entry.1, f entry.2)) =
      (t.erase key).map fun entry => (entry.1, f entry.2) := by
  induction t with
  | nil => rfl
  | cons entry rest ih =>
    rw [List.map_cons, erase, erase]
    split_ifs
    · rfl
    · rw [ih, List.map_cons]

omit [DecidableEq κ] in
/-- Other values have the same keys. -/
theorem Table.keys_map (f : α → β) (t : Table κ α) :
    Table.keys (t.map fun entry => (entry.1, f entry.2)) = t.keys := by
  rw [keys, keys, List.map_map]
  rfl

end Tables

namespace Diagram

/-- The factors of a product get the other indices. -/
@[simp] theorem mapIndices_pair (a b : Diagram) : (pair a b).mapIndices g = pair (a.mapIndices g)
    (b.mapIndices g) := by
  rw [mapIndices, mapRefs, mapRefsList]
  rfl

/-- Only the indices of the expression matter. -/
theorem HasNoSum.mapIndices_congr {d : Diagram} (hd : d.HasNoSum) {f f' : Index → Index}
    (h : ∀ i ∈ d.indices, f i = f' i) : d.mapIndices f = d.mapIndices f' := by
  refine mapRefs_congr fun t ht => ?_
  rw [hd.isFormula.allRefs_eq] at ht
  have ht' : ∀ i ∈ t.left ++ t.right, f i = f' i :=
    fun i hi => h i (List.mem_flatMap.mpr ⟨t, ht, hi⟩)
  rw [List.forall_mem_append] at ht'
  rw [TensorRef.mapIndices, TensorRef.mapIndices, List.map_congr_left ht'.1,
    List.map_congr_left ht'.2]

/-- The other indices. -/
theorem indices_mapIndices (f : Index → Index) (d : Diagram) :
    (d.mapIndices f).indices = d.indices.map f := by
  rw [indices, indices, mapIndices, tensors_mapRefs, List.flatMap_map, List.map_flatMap]
  exact List.flatMap_congr fun t _ => (List.map_append ..).symm

/-! ## Products along a tree -/

/-- The reference and the scalars of a general tensor get the other indices. -/
theorem IsMonomial.general?_mapIndices {d : Diagram} (hd : d.IsMonomial) :
    (d.mapIndices g).general? =
      d.general?.map fun x => ⟨x.term.mapIndices g, x.scalars.map (mapIndices g)⟩ := by
  induction hd with
  | factor hd => cases hd <;> rfl
  | pair _ _ iha ihb =>
    rw [mapIndices_pair]
    exact general?_product_map (f := TensorRef.mapIndices g) (h := mapIndices g)
      (List.forall_mem_cons.mpr ⟨⟨isScalar_mapRefs _ _, iha⟩,
        List.forall_mem_singleton.mpr ⟨isScalar_mapRefs _ _, ihb⟩⟩)

/-- The tensors of a table with other indices. -/
def mapTable (g : Index → Index) (tensors : Table String Diagram) : Table String Diagram :=
  tensors.map fun entry => (entry.1, entry.2.mapIndices g)

/-- Factors with other indices are sorted alike. -/
theorem sortFactors?_mapIndices {factors : List Diagram} (hfactors : ∀ x ∈ factors, x.IsMonomial)
    (sorted : SortedFactors) :
    sortFactors? ⟨sorted.scalars.map (mapIndices g), mapTable g sorted.tensors⟩
      (factors.map (mapIndices g)) = (sortFactors? sorted factors).map fun x =>
        ⟨x.scalars.map (mapIndices g), mapTable g x.tensors⟩ := by
  induction factors generalizing sorted with
  | nil => rfl
  | cons d factors ih =>
    obtain ⟨hd, hfactors⟩ := List.forall_mem_cons.mp hfactors
    rw [List.map_cons, sortFactors?, sortFactors?, hd.general?_mapIndices, mapIndices,
      isScalar_mapRefs]
    split_ifs with hscalar
    · rw [← ih hfactors, List.map_append]
      rfl
    · rcases d.general? with _ | x
      · rfl
      · have hhas : (mapTable g sorted.tensors).has (x.term.mapIndices g).factorName =
            sorted.tensors.has x.term.factorName := by
          rw [Table.has, Table.has, mapTable, Table.find?_map, Option.isSome_map]
          rfl
        simp only [Option.map_some, hhas]
        split_ifs
        · rfl
        · rw [← ih hfactors, mapTable, mapTable, ← Table.put_map]
          rfl

/-- A factor with other indices is taken. -/
theorem takeFactor_mapIndices (name : Option String) (tensors : Table String Diagram) :
    SameOutcome (fun x y => y = (x.1.mapIndices g, mapTable g x.2)) (takeFactor name tensors)
      (takeFactor name (mapTable g tensors)) := by
  rw [takeFactor, takeFactor, mapTable, Table.find?_map, Table.erase_map]
  rcases tensors.find? (leafText name) with _ | d
  · exact .error _ _
  · exact .ok rfl

/-- Tensors with other indices are contracted alike. -/
theorem contractAlong_mapIndices (tree : ContractionTree) (tensors : Table String Diagram) :
    SameOutcome (fun x y => y = (x.1, mapTable g x.2)) (contractAlong tree tensors)
      (contractAlong tree (mapTable g tensors)) := by
  induction tree generalizing tensors with
  | leaf name => exact .ok rfl
  | fuse left right ihleft ihright =>
    rw [contractAlong, contractAlong]
    refine (ihleft tensors).bind fun a _ ha => ?_
    subst ha
    refine (ihright a.2).bind fun b _ hb => ?_
    subst hb
    refine (takeFactor_mapIndices a.1 b.2).bind fun x _ hx => ?_
    subst hx
    refine (takeFactor_mapIndices b.1 x.2).bind fun y _ hy => ?_
    subst hy
    refine .ok (Prod.ext rfl ?_)
    dsimp only
    rw [mapTable, mapTable, ← Table.put_map, mapIndices_pair]

/-- Scalars with other indices in front. -/
theorem foldr_pair_mapIndices (scalars : List Diagram) (d : Diagram) :
    (scalars.map (mapIndices g)).foldr pair (d.mapIndices g) =
      (scalars.foldr pair d).mapIndices g := by
  induction scalars with
  | nil => rfl
  | cons a scalars ih => rw [List.map_cons, List.foldr_cons, List.foldr_cons, ih, mapIndices_pair]

/-- Factors with other indices behind. -/
theorem foldl_pair_mapIndices (d : Diagram) (factors : List Diagram) :
    (factors.map (mapIndices g)).foldl pair (d.mapIndices g) =
      (factors.foldl pair d).mapIndices g := by
  induction factors generalizing d with
  | nil => rfl
  | cons a factors ih => rw [List.map_cons, List.foldl_cons, List.foldl_cons, ← mapIndices_pair, ih]

/-- Factors with other indices are nested along a tree. -/
theorem nestAlong?_mapIndices {factors : List Diagram} (hfactors : ∀ x ∈ factors, x.IsMonomial)
    (tree : ContractionTree) :
    SameOutcome (fun x y => y = x.map (mapIndices g)) (nestAlong? factors tree)
      (nestAlong? (factors.map (mapIndices g)) tree) := by
  have hsort := sortFactors?_mapIndices (g := g) hfactors ⟨[], []⟩
  have hkeys : ∀ tensors : Table String Diagram, namesMatch (mapTable g tensors) tree =
      namesMatch tensors tree := by
    intro tensors
    rw [namesMatch, namesMatch, mapTable, Table.keys_map]
  rw [nestAlong?, nestAlong?, show sortFactors? ⟨[], []⟩ (factors.map (mapIndices g)) =
    _ from hsort]
  rcases sortFactors? ⟨[], []⟩ factors with _ | sorted
  · exact .ok rfl
  · simp only [Option.map_some, hkeys]
    split_ifs
    · refine (contractAlong_mapIndices tree sorted.tensors).bind fun x _ hx => ?_
      subst hx
      refine (takeFactor_mapIndices x.1 x.2).bind fun y _ hy => ?_
      subst hy
      exact .ok (congrArg some (foldr_pair_mapIndices sorted.scalars y.1))
    · exact .ok rfl

/-- Products are nested in the same way if the factors have other indices. -/
theorem nest_mapIndices (order : Option ContractionTree) {a b : Diagram} {rest : List Diagram}
    (hfactors : ∀ x ∈ a :: b :: rest, x.IsMonomial) :
    SameOutcome (fun x y => y = x.mapIndices g) (nest order a b rest)
      (nest order (a.mapIndices g) (b.mapIndices g) (rest.map (mapIndices g))) := by
  have hleft : nestLeft (a.mapIndices g) (b.mapIndices g) (rest.map (mapIndices g)) =
      (nestLeft a b rest).mapIndices g := by
    rw [nestLeft, nestLeft, ← mapIndices_pair, foldl_pair_mapIndices]
  cases order with
  | none => exact .ok hleft
  | some tree =>
    refine (nestAlong?_mapIndices hfactors tree).bind fun x _ hx => ?_
    subst hx
    cases x with
    | none => exact .ok hleft
    | some d => exact .ok rfl

/-! ## Conjugation and nesting -/

/-- The normal form of a formula without sums gets the other indices. -/
theorem HasNoSum.nestProducts_mapIndices (order : Option ContractionTree) {d : Diagram}
    (hd : d.HasNoSum) (odd : Bool) :
    SameOutcome (fun x y => x.IsMonomial ∧ y = x.mapIndices g)
      ((d.adjointForm odd).nestProducts order)
      (((d.mapIndices g).adjointForm odd).nestProducts order) := by
  induction hd generalizing odd with
  | ref t => cases odd <;> exact .ok ⟨.factor (.ref _), rfl⟩
  | scalar s =>
    cases odd with
    | false => exact .ok ⟨.factor (.scalar s), rfl⟩
    | true =>
      cases s with
      | number x => exact .ok ⟨.factor (.scalar _), rfl⟩
      | name text => exact .ok ⟨.factor (.conj text), rfl⟩
  | @conj a _ ih =>
    change SameOutcome _ ((a.adjointForm !odd).nestProducts order)
      (((a.mapIndices g).adjointForm !odd).nestProducts order)
    exact ih _
  | @product a b rest _ _ _ iha ihb ihrest =>
    have hmap : (Diagram.product a b rest).mapIndices g =
        .product (a.mapIndices g) (b.mapIndices g) (rest.map (mapIndices g)) := by
      rw [mapIndices, Diagram.mapRefs, mapRefsList_eq]
      rfl
    have hrest : List.Forall₂ (fun x y => SameOutcome (fun x y => x.IsMonomial ∧ y = x.mapIndices g)
        (x.nestProducts order) (y.nestProducts order)) (rest.map (adjointForm odd))
        ((rest.map (mapIndices g)).map (adjointForm odd)) := by
      rw [List.forall₂_map_left_iff, List.forall₂_map_right_iff, List.forall₂_map_right_iff]
      exact List.forall₂_same.mpr fun x hx => ihrest x hx odd
    rw [hmap, adjointForm, adjointForm, adjointFormList_eq, adjointFormList_eq,
      nestProducts, nestProducts, nestProductsList_eq, nestProductsList_eq]
    refine (iha odd).bind fun x x' hx => (ihb odd).bind fun y y' hy => (SameOutcome.mapM hrest).bind
      fun zs zs' hzs => ?_
    obtain ⟨hx, rfl⟩ := hx
    obtain ⟨hy, rfl⟩ := hy
    have hmonomial : ∀ z ∈ zs, z.IsMonomial := by
      clear hrest
      induction hzs with
      | nil => simp
      | cons hz _ ih => exact List.forall_mem_cons.mpr ⟨hz.1, ih⟩
    have hzs' : zs' = zs.map (mapIndices g) := by
      clear hmonomial hrest
      induction hzs with
      | nil => rfl
      | cons hz _ ih => rw [hz.2, ih, List.map_cons]
    subst hzs'
    have hfactors : ∀ z ∈ x :: y :: zs, z.IsMonomial := by
      rw [List.forall_mem_cons, List.forall_mem_cons]
      exact ⟨hx, hy, hmonomial⟩
    refine (nest_mapIndices order hfactors).eq_ok.mono fun d d' h => ⟨?_, h.1⟩
    obtain ⟨s, hs, hbuilt⟩ := nest_builtFrom h.2.1
    exact hbuilt.closed (fun _ _ => .pair) fun z hz => hfactors z (Multiset.mem_of_le hs hz)

/-! ## Dropping braidings -/

variable {braidingName : String}

/-- Whether a braiding can be removed does not depend on what the indices are. -/
theorem checkRemovable_mapIndices (hg : Function.Injective g) (t : TensorRef) :
    SameOutcome Eq t.checkRemovable (t.mapIndices g).checkRemovable := by
  refine .of_exists_ok (fun _ h => ⟨(), ?_, rfl⟩) fun _ h => ⟨(), ?_⟩
  · obtain ⟨a, b, hleft, hright⟩ := TensorRef.checkRemovable_eq_ok_iff.mp h
    refine TensorRef.checkRemovable_eq_ok_iff.mpr ⟨g a, g b, ?_, ?_⟩
    · rw [TensorRef.mapIndices, hleft, List.map_cons, List.map_singleton]
    · rw [TensorRef.mapIndices, hright, List.map_cons, List.map_singleton]
  · obtain ⟨x, y, hleft, hright⟩ := TensorRef.checkRemovable_eq_ok_iff.mp h
    obtain ⟨a, b, hab, rfl, rfl⟩ : ∃ a b, t.left = [a, b] ∧ g a = x ∧ g b = y := by
      simpa [TensorRef.mapIndices, List.map_eq_cons_iff] using hleft
    refine TensorRef.checkRemovable_eq_ok_iff.mpr ⟨a, b, hab, hg.list_map ?_⟩
    simpa [TensorRef.mapIndices] using hright

end Diagram

/-! ## Binding -/

/-- Two references to one object with the same numbers of legs. -/
def TensorRef.SameShape (t t' : TensorRef) : Prop :=
  t'.object = t.object ∧ t'.isAdjoint = t.isAdjoint ∧ t'.left.length = t.left.length ∧
    t'.right.length = t.right.length

/-- Other indices keep the shape. -/
theorem TensorRef.sameShape_mapIndices (t : TensorRef) : t.SameShape (t.mapIndices g) :=
  ⟨rfl, rfl, List.length_map _, List.length_map _⟩

/-- References of one shape are braidings alike. -/
theorem TensorRef.SameShape.isBraiding {t t' : TensorRef} (h : t.SameShape t')
    (braidingName : String) : t'.isBraiding braidingName = t.isBraiding braidingName := by
  rw [TensorRef.isBraiding, TensorRef.isBraiding, h.1]

/-- Two references of the same shape that play the same part. -/
def Reference.SameShape (r r' : Reference) : Prop :=
  r.term.SameShape r'.term ∧ r'.role = r.role

/-- References of the same shape are read alike. -/
theorem ObjectUse.foldlM_read_congr {braidingName : String}
    {references references' : List Reference}
    (h : List.Forall₂ Reference.SameShape references references') (u : ObjectUse) :
    SameOutcome Eq (references.foldlM (read braidingName) u)
      (references'.foldlM (read braidingName) u) := by
  induction h generalizing u with
  | nil => exact .ok rfl
  | @cons r r' references references' hr _ ih =>
    have hread : SameOutcome Eq (u.read braidingName r) (u.read braidingName r') := by
      rw [read, read, hr.1.isBraiding, hr.2, hr.1.1]
      by_cases hbraiding : r.term.isBraiding braidingName = true
      · rw [if_pos hbraiding, if_pos hbraiding]
        split_ifs
        · exact .ok rfl
        · exact .error _ _
      · rw [if_neg hbraiding, if_neg hbraiding]
        exact .ok rfl
    rw [List.foldlM_cons, List.foldlM_cons]
    refine hread.bind fun v _ hv => ?_
    subst hv
    exact ih v

/-- References of the same shape are checked alike. -/
theorem Binding.arityCheck?_congr {braidingName : String} {use : ObjectUse}
    {handles : Table ObjectRef Handle} {r r' : Reference} (h : r.SameShape r') :
    arityCheck? braidingName use handles r' = arityCheck? braidingName use handles r := by
  obtain ⟨⟨hobject, hadjoint, hleft, hright⟩, hrole⟩ := h
  have hbraiding : r'.term.isBraiding braidingName = r.term.isBraiding braidingName := by
    rw [TensorRef.isBraiding, TensorRef.isBraiding, hobject]
  simp only [arityCheck?, hbraiding, hobject, hrole, hadjoint]
  split_ifs
  · rfl
  · simp only [TensorRef.flipped, hobject, hleft, hright]
  · simp only [hobject, hleft, hright]

/-- Entries with the same images. -/
theorem map_eq_of_forall₂ {α β γ : Type} {f : α → γ} {f' : β → γ} {xs : List α} {ys : List β}
    (h : List.Forall₂ (fun x y => f' y = f x) xs ys) : ys.map f' = xs.map f := by
  induction h with
  | nil => rfl
  | cons hxy _ ih => rw [List.map_cons, List.map_cons, hxy, ih]

namespace Diagram

/-- An assignment with a right hand side whose references have the same shapes is bound in the same
way. -/
theorem bindNames_congr (options : Options) (checkArity : Bool) (table : HandleTable)
    {lhs rhs rhs' : Diagram} (isDefinition : Bool) (hrhs : rhs.IsNormal) (hrhs' : rhs'.IsNormal)
    (h : List.Forall₂ TensorRef.SameShape rhs.tensors rhs'.tensors) :
    SameOutcome (fun x y => x.2 = y.2 ∧ ∃ handles,
        x.1.body =
          (assign lhs rhs isDefinition).mapRefs (Binding.bindRef options.braidingName handles) ∧
        y.1 = { x.1 with
          body := (assign lhs rhs' isDefinition).mapRefs
            (Binding.bindRef options.braidingName handles) })
      ((assign lhs rhs isDefinition).bindNames options checkArity table)
      ((assign lhs rhs' isDefinition).bindNames options checkArity table) := by
  have hreferences : List.Forall₂ Reference.SameShape (assign lhs rhs isDefinition).references
      (assign lhs rhs' isDefinition).references := by
    unfold references
    refine List.rel_append ?_ ?_
    · rw [uses, uses, List.forall₂_map_left_iff, List.forall₂_map_right_iff]
      exact h.imp fun t t' ht => ⟨ht, rfl⟩
    · cases lhs with
      | ref t => exact .cons ⟨⟨rfl, rfl, rfl, rfl⟩, rfl⟩ .nil
      | _ => exact .nil
  have hchecks : ∀ use handles, (assign lhs rhs' isDefinition).references.filterMap
      (Binding.arityCheck? options.braidingName use handles) =
      (assign lhs rhs isDefinition).references.filterMap
      (Binding.arityCheck? options.braidingName use handles) := by
    intro use handles
    have hmap := map_eq_of_forall₂ (hreferences.imp fun r r' hr =>
      @Binding.arityCheck?_congr options.braidingName use handles r r' hr)
    have hfilter := congrArg (List.filterMap id) hmap
    rwa [List.filterMap_map, List.filterMap_map] at hfilter
  have hall : ∀ handles : Table ObjectRef Handle,
      ((assign lhs rhs' isDefinition).allRefs.all fun t =>
      t.isBraiding options.braidingName || handles.has t.object) =
          (assign lhs rhs isDefinition).allRefs.all fun t =>
      t.isBraiding options.braidingName || handles.has t.object := by
    intro handles
    have hmap := map_eq_of_forall₂ (h.imp fun t t' ht => show (t'.isBraiding options.braidingName ||
      handles.has t'.object) = (t.isBraiding options.braidingName || handles.has t.object) by
      rw [ht.isBraiding, ht.1])
    have hrefs := congrArg (List.all · id) hmap
    simp only [List.all_map, Function.id_comp] at hrefs
    rw [allRefs, allRefs, List.all_append, List.all_append, hrhs.allRefs_eq,
      hrhs'.allRefs_eq, hrefs]
  rw [bindNames, bindNames]
  refine (ObjectUse.foldlM_read_congr hreferences _).bind fun use _ huse => ?_
  subst huse
  rcases Binding.handleAll table use.objects with ⟨handles, table₁⟩
  dsimp only
  rw [hall, hchecks]
  rcases (assign lhs rhs isDefinition).allRefs.all fun t =>
    t.isBraiding options.braidingName || handles.has t.object
  · exact .error _ _
  · exact .ok ⟨rfl, handles, rfl, rfl⟩

end Diagram

end TensorDiagram
