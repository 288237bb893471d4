import Mathlib.SetTheory.Cardinal.Arithmetic
import TensorDiagram.Proofs.BoundPrograms
import TensorDiagram.Proofs.RemovalMeaning
import TensorDiagram.Proofs.RenamedTerms

/-!
# Terms with other indices

The strands of all terms of a sum connect indices, whichever term they belong to.  A term may get
other indices, as long as its own indices and those of the left hand side are connected as before
(`RenamedAlong`).

Nesting the products of the terms and binding their objects changes neither the indices of a term
nor which of them are connected.  So terms with other indices stay such terms, until the braidings
are removed.
-/

namespace TensorDiagram

/-! ## Permutations of indices -/

instance : Infinite Index :=
  .of_injective Index.number fun _ _ => Index.number.inj

/-- Two maps that identify the same indices, of finitely many, differ by a permutation. -/
theorem exists_perm_of_eq_iff {p q : Index → Index} {xs : List Index}
    (h : ∀ i ∈ xs, ∀ j ∈ xs, p i = p j ↔ q i = q j) :
    ∃ f : Equiv.Perm Index, ∀ i ∈ xs, f (p i) = q i := by
  have hchoose : ∀ x : {x // x ∈ xs.map p}, ∃ i ∈ xs, p i = x.1 := fun x => List.mem_map.mp x.2
  choose origin hmem heq using hchoose
  let e : {x // x ∈ xs.map p} ↪ Index :=
    ⟨fun x => q (origin x), fun x y hxy => Subtype.ext (by
      rw [← heq x, ← heq y]
      exact (h _ (hmem x) _ (hmem y)).mpr hxy)⟩
  have hlt : Cardinal.mk {x // x ∈ xs.map p} < Cardinal.mk Index :=
    Cardinal.mk_lt_aleph0.trans_le (Cardinal.aleph0_le_mk Index)
  obtain ⟨f, hf⟩ := Cardinal.extend_function_of_lt e hlt ⟨Equiv.refl _⟩
  refine ⟨f, fun i hi => ?_⟩
  have hx := hf ⟨p i, List.mem_map_of_mem hi⟩
  exact hx.trans ((h _ (hmem _) i hi).mp (heq _))

/-! ## Strands -/

variable {braidingName : String}

namespace TensorRef

variable {t : TensorRef} {s : Strand × Strand}

theorem exists_strands_iff : (∃ s, t.strands braidingName = .ok s) ↔
    t.left.length = 2 ∧ t.right.length = 2 := by
  constructor
  · rintro ⟨s, hs⟩
    rw [strands] at hs
    split at hs
    · rename_i hl hr
      exact ⟨by rw [hl]; rfl, by rw [hr]; rfl⟩
    · cases hs
  · rintro ⟨hl, hr⟩
    obtain ⟨l₁, l₂, hl⟩ := List.length_eq_two.mp hl
    obtain ⟨r₁, r₂, hr⟩ := List.length_eq_two.mp hr
    rw [strands, hl, hr]
    cases t.isAdjoint <;> exact ⟨_, rfl⟩

section

variable (h : t.strands braidingName = .ok s)

include h

/-- The strands of the adjoint of a braiding run the other way. -/
theorem strands_flipped : t.flipped.strands braidingName = .ok (s.1.swap, s.2.swap) := by
  rw [strands] at h
  split at h
  · rename_i l₁ l₂ r₁ r₂ hl hr
    rw [strands, flipped, hl, hr]
    cases hadjoint : t.isAdjoint <;> rw [hadjoint] at h <;> obtain rfl := Except.ok.inj h <;> rfl
  · cases h

theorem strands_mapIndices (g : Index → Index) :
    (t.mapIndices g).strands braidingName = .ok (s.1.map g g, s.2.map g g) := by
  rw [strands] at h
  split at h
  · rename_i l₁ l₂ r₁ r₂ hl hr
    rw [strands, mapIndices, hl, hr]
    cases hadjoint : t.isAdjoint <;> rw [hadjoint] at h <;> obtain rfl := Except.ok.inj h <;> rfl
  · cases h

theorem strands_withObject (object : ObjectRef) :
    (t.withObject object).strands braidingName = .ok s := by
  rw [strands] at h
  split at h
  · rename_i l₁ l₂ r₁ r₂ hl hr
    rw [strands, withObject, hl, hr]
    exact h
  · cases h

/-- The ends of strands are indices. -/
theorem ends_mem_indices : ∀ i ∈ [s.1.1, s.1.2, s.2.1, s.2.2], i ∈ t.indices := by
  intro i hi
  rw [← Multiset.mem_coe, indices_of_strands h, strandEnds]
  simp only [List.mem_cons, List.not_mem_nil, or_false] at hi
  rcases hi with rfl | rfl | rfl | rfl <;> simp

end

theorem exists_strands_of_mapIndices {g : Index → Index}
    (h : (t.mapIndices g).strands braidingName = .ok s) :
    ∃ s₀, t.strands braidingName = .ok s₀ ∧ s = (s₀.1.map g g, s₀.2.map g g) := by
  have hlengths := exists_strands_iff.mp ⟨s, h⟩
  simp only [mapIndices, List.length_map] at hlengths
  obtain ⟨s₀, hs₀⟩ := exists_strands_iff.mpr hlengths
  exact ⟨s₀, hs₀, Except.ok.inj (h.symm.trans (strands_mapIndices hs₀ g))⟩

end TensorRef

namespace Diagram

variable {outer : List Index} {C C' : Index → Index → Prop} {terms : List (Sign × Diagram)}
  {order : Option ContractionTree} {x x' : Diagram} {z z' : Sign × Diagram}

section Connected

variable {d d' : Diagram} {i j : Index}

/-- The ends of a strand are connected. -/
theorem connected_of_mem {t : TensorRef} (ht : t ∈ d.tensors)
    (hbraiding : t.isBraiding braidingName = true)
    {s : Strand × Strand} (hs : t.strands braidingName = .ok s) :
    Connected braidingName d s.1.1 s.1.2 ∧ Connected braidingName d s.2.1 s.2.2 :=
  ⟨.rel _ _ ⟨t, List.mem_filter.mpr ⟨ht, hbraiding⟩, s, hs, Or.inl rfl⟩,
    .rel _ _ ⟨t, List.mem_filter.mpr ⟨ht, hbraiding⟩, s, hs, Or.inr rfl⟩⟩

/-- Indices stay connected if the ends of every strand do. -/
theorem Connected.map (φ : Index → Index)
    (h : ∀ t ∈ d.tensors, t.isBraiding braidingName = true → ∀ s, t.strands braidingName = .ok s →
      Connected braidingName d' (φ s.1.1) (φ s.1.2) ∧ Connected braidingName d' (φ s.2.1) (φ s.2.2))
    (hij : Connected braidingName d i j) : Connected braidingName d' (φ i) (φ j) := by
  induction hij with
  | rel a b hab =>
    obtain ⟨t, ht, s, hs, he⟩ := hab
    obtain ⟨ht, hbraiding⟩ := List.mem_filter.mp ht
    obtain ⟨hfirst, hsecond⟩ := h t ht hbraiding s hs
    rcases he with he | he
    · rw [← he] at hfirst
      exact hfirst
    · rw [← he] at hsecond
      exact hsecond
  | refl a => exact .refl _
  | symm a b _ ih => exact .symm _ _ ih
  | trans a b c _ _ ihab ihbc => exact .trans _ _ _ ihab ihbc

/-- Only the braidings matter, and not whether they are written as adjoints. -/
theorem Connected.of_mentions (h : ∀ t, d.Mentions t → d'.Mentions t)
    (hij : Connected braidingName d i j) : Connected braidingName d' i j := by
  refine hij.map id fun t ht hbraiding s hs => ?_
  rcases h t (Or.inl ht) with ht' | ht'
  · exact connected_of_mem ht' hbraiding hs
  · obtain ⟨hfirst, hsecond⟩ := connected_of_mem ht' hbraiding (TensorRef.strands_flipped hs)
    exact ⟨.symm _ _ hfirst, .symm _ _ hsecond⟩

end Connected

/-! ## Sums -/

theorem tensors_sumOf (terms : List (Sign × Diagram)) :
    (sumOf terms).tensors = terms.flatMap fun z => z.2.tensors := by
  cases terms with
  | nil => rfl
  | cons z rest => rw [sumOf, tensors, termTensors_eq, List.flatMap_cons]

theorem mentions_sumOf {t : TensorRef} :
    (sumOf terms).Mentions t ↔ ∃ z ∈ terms, z.2.Mentions t := by
  simp only [Mentions, tensors_sumOf, List.mem_flatMap, and_or_left, exists_or]

theorem mem_indices_iff {d : Diagram} {i : Index} : i ∈ d.indices ↔
    ∃ t, d.Mentions t ∧ i ∈ t.indices := by
  have hflip : ∀ t : TensorRef, i ∈ t.flipped.indices ↔ i ∈ t.indices := fun t => by
    simp only [TensorRef.indices, TensorRef.flipped, List.mem_append, or_comm]
  rw [indices, List.mem_flatMap]
  constructor
  · rintro ⟨t, ht, hi⟩
    exact ⟨t, Or.inl ht, hi⟩
  · rintro ⟨t, ht | ht, hi⟩
    · exact ⟨t, ht, hi⟩
    · exact ⟨_, ht, (hflip t).mpr hi⟩

theorem mapRefs_sumOf (f : TensorRef → TensorRef) (terms : List (Sign × Diagram)) :
    (sumOf terms).mapRefs f = sumOf (terms.map fun z => (z.1, z.2.mapRefs f)) := by
  cases terms with
  | nil => rfl
  | cons z rest =>
    rw [sumOf, mapRefs, mapRefsTerms_eq]
    rfl

/-- A term gets other indices, while some stay, and its indices and those that stay are connected as
before. -/
def RenamedAlong (C C' : Index → Index → Prop) (outer : List Index) (z z' : Sign × Diagram) :
    Prop :=
  ∃ f : Equiv.Perm Index, (∀ l ∈ outer, f l = l) ∧ z' = (z.1, z.2.mapIndices f) ∧
    ∀ i ∈ z.2.indices ++ outer, ∀ j ∈ z.2.indices ++ outer, C i j ↔ C' (f i) (f j)

theorem RenamedAlong.symm (h : RenamedAlong C C' outer z z') : RenamedAlong C' C outer z' z := by
  obtain ⟨f, hstays, rfl, hconnected⟩ := h
  have houter : ∀ l ∈ outer, f.symm l = l := fun l hl => f.symm_apply_eq.mpr (hstays l hl).symm
  have hback : ∀ i ∈ (z.2.mapIndices f).indices ++ outer, f.symm i ∈ z.2.indices ++ outer := by
    rw [indices_mapIndices, List.forall_mem_append]
    refine ⟨List.forall_mem_map.mpr fun i hi => ?_, fun i hi => ?_⟩
    · rw [f.symm_apply_apply]
      exact List.mem_append_left _ hi
    · rw [houter i hi]
      exact List.mem_append_right _ hi
  refine ⟨f.symm, houter, ?_, fun i hi j hj => ?_⟩
  · rw [mapIndices_mapIndices, ← Equiv.coe_trans, Equiv.self_trans_symm, Equiv.coe_refl,
      mapIndices_id]
  · have h := hconnected _ (hback i hi) _ (hback j hj)
    rw [f.apply_symm_apply, f.apply_symm_apply] at h
    exact h.symm

theorem RenamedAlong.congr {D D' : Index → Index → Prop} (hC : ∀ i j, D i j ↔ C i j)
    (hC' : ∀ i j, D' i j ↔ C' i j) (h : RenamedAlong C C' outer z z') :
    RenamedAlong D D' outer z z' := by
  obtain ⟨f, hstays, hz', hconnected⟩ := h
  exact ⟨f, hstays, hz', fun i hi j hj => by rw [hC, hC', hconnected i hi j hj]⟩

/-- Two sums whose terms differ in their indices, with the same indices connected in every term. -/
def RenamedSum (braidingName : String) (P : Diagram → Prop) (outer : List Index) (x x' : Diagram) :
    Prop :=
  ∃ terms terms', x = sumOf terms ∧ x' = sumOf terms' ∧ List.Forall₂ (fun z z' => P z.2 ∧
    RenamedAlong (Connected braidingName x) (Connected braidingName x') outer z z') terms terms'

theorem RenamedSum.symm {P : Diagram → Prop} (hmap : ∀ d f, P d → P (d.mapIndices f))
    (h : RenamedSum braidingName P outer x x') : RenamedSum braidingName P outer x' x := by
  obtain ⟨terms, terms', hx, hx', hterms⟩ := h
  refine ⟨terms', terms, hx', hx, .flip (hterms.imp fun z z' hz => ⟨?_, hz.2.symm⟩)⟩
  obtain ⟨hz, f, -, rfl, -⟩ := hz
  exact hmap _ _ hz

theorem exists_mem_of_forall₂ {α β : Type} {S : α → β → Prop} {xs : List α} {ys : List β}
    (h : List.Forall₂ S xs ys) {x : α} (hx : x ∈ xs) : ∃ y ∈ ys, S x y := by
  induction h with
  | nil => cases hx
  | cons hxy _ ih =>
    rcases List.mem_cons.mp hx with rfl | hx
    · exact ⟨_, List.mem_cons_self, hxy⟩
    · obtain ⟨y, hy, hxy⟩ := ih hx
      exact ⟨y, List.mem_cons_of_mem _ hy, hxy⟩

/-- All terms of two such sums have a property that does not depend on indices, if those of the
first one have it. -/
theorem forall_mem_of_renamedAlong {P : Diagram → Prop} (hP : ∀ d f, P d → P (d.mapIndices f))
    {terms' : List (Sign × Diagram)}
    (h : List.Forall₂ (fun z z' => P z.2 ∧ RenamedAlong C C' outer z z') terms terms') :
    (∀ z ∈ terms, P z.2) ∧ ∀ z ∈ terms', P z.2 := by
  refine ⟨forall_mem_of_forall₂ (.flip (h.imp fun z z' hz => hz.1)),
    forall_mem_of_forall₂ (h.imp fun z z' hz => ?_)⟩
  obtain ⟨hz, f, -, rfl, -⟩ := hz
  exact hP _ _ hz

/-! ## Nested products -/

theorem nestProducts_sumOf (order : Option ContractionTree) (terms : List (Sign × Diagram)) :
    ((sumOf terms).adjointForm false).nestProducts order =
      (terms.mapM fun z => (z.2.adjointForm false).nestProducts order >>= fun d => .ok (z.1, d)) >>=
        fun nested =>
        .ok (sumOf nested) := by
  cases terms with
  | nil => rfl
  | cons z rest =>
    rw [sumOf, adjointForm, adjointFormTerms_eq, nestProducts, nestProductsTerms_eq, List.mapM_map,
      List.mapM_cons]
    rcases (z.2.adjointForm false).nestProducts order with e | d
    · rfl
    · simp only [ok_bind, Function.comp_def]
      generalize (rest.mapM fun z => (z.2.adjointForm false).nestProducts order >>= fun d =>
        Except.ok (z.1, d)) = nested
      cases nested <;> rfl

/-- Nested products of the terms have the same indices, and the same ones are connected. -/
theorem connected_nestProducts (horder : HasDistinctLeaves order) {nested : List (Sign × Diagram)}
    (hterms : ∀ z ∈ terms, z.2.HasNoSum)
    (h : (terms.mapM fun z => (z.2.adjointForm false).nestProducts order >>= fun d =>
      .ok (z.1, d)) = .ok nested) (i j : Index) : Connected braidingName (sumOf nested) i j ↔
      Connected braidingName (sumOf terms) i j := by
  have hmentions : ∀ t, (sumOf nested).Mentions t ↔ (sumOf terms).Mentions t := by
    intro t
    rw [mentions_sumOf, mentions_sumOf]
    refine exists_mem_iff_of_forall₂ (((List.forall₂_and_left terms nested).mpr
      ⟨hterms, mapM_eq_ok_iff.mp h⟩).imp fun z z' hz => ?_)
    obtain ⟨d, hd, hz'⟩ := bind_eq_ok_iff.mp hz.2
    obtain rfl := Except.ok.inj hz'
    exact hz.1.isFormula.mentions_iff horder hd t
  exact ⟨.of_mentions fun t => (hmentions t).mp, .of_mentions fun t => (hmentions t).mpr⟩

theorem RenamedAlong.nestProducts (horder : HasDistinctLeaves order) (hz : z.2.HasNoSum)
    (h : RenamedAlong C C' outer z z') :
    SameOutcome (fun y y' => y.2.IsMonomial ∧ RenamedAlong C C' outer y y')
      ((z.2.adjointForm false).nestProducts order >>= fun d => .ok (z.1, d))
      ((z'.2.adjointForm false).nestProducts order >>= fun d => .ok (z'.1, d)) := by
  obtain ⟨f, hstays, rfl, hconnected⟩ := h
  refine (hz.nestProducts_mapIndices order false).eq_ok.bind fun d d' hd => .ok ?_
  obtain ⟨⟨hmonomial, rfl⟩, hd, -⟩ := hd
  have hindices : ∀ i ∈ d.indices ++ outer, i ∈ z.2.indices ++ outer := by
    intro i hi
    rw [List.mem_append, mem_indices_iff] at hi ⊢
    exact hi.imp_left fun ⟨t, ht, hi⟩ => ⟨t, (hz.isFormula.mentions_iff horder hd t).mp ht, hi⟩
  exact ⟨hmonomial, f, hstays, rfl, fun i hi j hj => hconnected i (hindices i hi) j (hindices j hj)⟩

/-- Sums that differ in the indices of their terms still do once the products are nested. -/
theorem RenamedSum.nestProducts (horder : HasDistinctLeaves order)
    (h : RenamedSum braidingName HasNoSum outer x x') :
    SameOutcome (RenamedSum braidingName IsMonomial outer)
      ((x.adjointForm false).nestProducts order) ((x'.adjointForm false).nestProducts order) := by
  obtain ⟨terms, terms', rfl, rfl, hterms⟩ := h
  obtain ⟨hnosum, hnosum'⟩ := forall_mem_of_renamedAlong (fun d f hd => hd.mapRefs _) hterms
  rw [nestProducts_sumOf, nestProducts_sumOf]
  refine (SameOutcome.mapM (hterms.imp fun z z' hz => hz.2.nestProducts horder hz.1)).eq_ok.bind
    fun N N' hN => .ok ?_
  obtain ⟨hN, hnested, hnested'⟩ := hN
  refine ⟨N, N', rfl, rfl, hN.imp fun z z' hz => ⟨hz.1, hz.2.congr ?_ ?_⟩⟩
  · exact connected_nestProducts horder hnosum hnested
  · exact connected_nestProducts horder hnosum' hnested'

/-! ## Bound objects -/

/-- Other objects do not change what is connected, if the braidings stay. -/
theorem connected_mapObjects {f : ObjectRef → ObjectRef}
    (hf : ∀ o, f o = .name braidingName ↔ o = .name braidingName) {i j : Index} :
    Connected braidingName ((sumOf terms).mapObjects f) i j ↔
      Connected braidingName (sumOf terms) i j := by
  have htensors :
      ((sumOf terms).mapObjects f).tensors = (sumOf terms).tensors.map fun t =>
      t.withObject (f t.object) := by
    rw [mapObjects, mapRefs_sumOf, tensors_sumOf, tensors_sumOf, List.flatMap_map, List.map_flatMap]
    exact List.flatMap_congr fun z _ => tensors_mapRefs _ _
  have hbraiding : ∀ t : TensorRef, (t.withObject (f t.object)).isBraiding braidingName =
      t.isBraiding braidingName :=
    fun t => by simp only [TensorRef.isBraiding, TensorRef.withObject, hf]
  constructor
  · refine fun h => h.map id fun t ht ht' s hs => ?_
    rw [htensors] at ht
    obtain ⟨u, hu, rfl⟩ := List.mem_map.mp ht
    rw [hbraiding] at ht'
    exact connected_of_mem hu ht' (TensorRef.strands_withObject hs u.object)
  · refine fun h => h.map id fun t ht ht' s hs => ?_
    refine connected_of_mem (t := t.withObject (f t.object)) ?_ (by rwa [hbraiding])
      (TensorRef.strands_withObject hs _)
    rw [htensors]
    exact List.mem_map_of_mem ht

/-- Other objects, but the same braidings. -/
theorem RenamedSum.mapObjects {f : ObjectRef → ObjectRef}
    (hf : ∀ o, f o = .name braidingName ↔ o = .name braidingName)
    (h : RenamedSum braidingName IsMonomial outer x x') :
    RenamedSum braidingName IsMonomial outer (x.mapObjects f) (x'.mapObjects f) := by
  obtain ⟨terms, terms', rfl, rfl, hterms⟩ := h
  refine ⟨_, _, mapRefs_sumOf _ _, mapRefs_sumOf _ _, ?_⟩
  rw [List.forall₂_map_left_iff, List.forall₂_map_right_iff]
  refine hterms.imp fun z z' hz => ⟨hz.1.mapRefs _, ?_⟩
  obtain ⟨hz, g, hstays, rfl, hconnected⟩ := hz
  refine ⟨g, hstays, ?_, fun i hi j hj => ?_⟩
  · refine Prod.ext rfl ?_
    change (z.2.mapRefs _).mapRefs _ = (z.2.mapRefs _).mapRefs _
    rw [mapRefs_mapRefs, mapRefs_mapRefs]
    rfl
  · have hindices : (z.2.mapObjects f).indices = z.2.indices := by
      rw [indices, indices, Diagram.mapObjects, tensors_mapRefs, List.flatMap_map]
      rfl
    change i ∈ (z.2.mapObjects f).indices ++ outer at hi
    change j ∈ (z.2.mapObjects f).indices ++ outer at hj
    rw [hindices] at hi hj
    rw [connected_mapObjects hf, connected_mapObjects hf]
    exact hconnected i hi j hj

end Diagram

end TensorDiagram
