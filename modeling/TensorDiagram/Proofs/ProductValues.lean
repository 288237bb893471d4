import TensorDiagram.Proofs.Removal
import TensorDiagram.Proofs.StrandClasses

/-!
# Values of products with braidings

A product of references, braidings and scalars denotes a labelled array, once it is known how many
values every index takes, what the entries of its objects are and what its scalars are (`Reading`).
A braiding is read as the product of two identity matrices, one for each strand, and an index that
appears twice is summed over (`Reading.array`).

Values that are not constant on strands do not contribute (`Reading.valueOf_refAt`).  What remains
of a product once its braidings are dropped has the value of its other factors (`HasNoSum.remains`).
-/

namespace TensorDiagram

open TensorRef (IsStrandOf)
open Machine (ConstantOnStrands)

variable {braidingName : String}
variable {d : Diagram} {strands : List Strand} {t : TensorRef}

namespace Diagram

/-! ## Values of products -/

section

variable {R : Type} [CommRing R] [StarRing R]

mutual
/-- The value of a product whose references and scalars have given values. -/
def valueOf (f : TensorRef → R) (s : Scalar → R) : Diagram → R
  | ref t => f t
  | scalar x => s x
  | conj a => star (a.valueOf f s)
  | product a b rest => a.valueOf f s * b.valueOf f s * listValueOf f s rest
  | _ => 0
/-- The product of the values of some factors. -/
def listValueOf (f : TensorRef → R) (s : Scalar → R) : List Diagram → R
  | [] => 1
  | d :: rest => d.valueOf f s * listValueOf f s rest
end

theorem listValueOf_eq (f : TensorRef → R) (s : Scalar → R) (ds : List Diagram) :
    listValueOf f s ds = (ds.map (valueOf f s)).prod := by
  induction ds with
  | nil => rfl
  | cons d ds ih => rw [listValueOf, ih, List.map_cons, List.prod_cons]

/-- The value of a product is the product of the values. -/
theorem valueOf_product (f : TensorRef → R) (s : Scalar → R) (a b : Diagram) (rest : List Diagram) :
    (product a b rest).valueOf f s = ((a :: b :: rest).map (valueOf f s)).prod := by
  rw [valueOf, listValueOf_eq, List.map_cons, List.map_cons, List.prod_cons, List.prod_cons,
    mul_assoc]

/-- The value depends on the values of the references that appear. -/
theorem HasNoSum.valueOf_congr (hd : d.HasNoSum) {f f' : TensorRef → R} (s : Scalar → R)
    (h : ∀ t ∈ d.tensors, f t = f' t) : d.valueOf f s = d.valueOf f' s := by
  induction hd with
  | ref t => exact h t (List.mem_singleton_self t)
  | scalar x => rfl
  | conj _ ih => rw [valueOf, valueOf, ih h]
  | @product a b rest _ _ _ iha ihb ihrest =>
    rw [tensors, listTensors_eq, List.forall_mem_append, List.forall_mem_append] at h
    have hrest : rest.map (valueOf f s) = rest.map (valueOf f' s) :=
      List.map_congr_left fun d hd => ihrest d hd fun t ht =>
        h.2 t (List.mem_flatMap.mpr ⟨d, hd, ht⟩)
    rw [valueOf, valueOf, iha h.1.1, ihb h.1.2, listValueOf_eq, listValueOf_eq, hrest]

/-- A reference without a value leaves nothing of a product. -/
theorem HasNoSum.valueOf_eq_zero (hd : d.HasNoSum) {f : TensorRef → R} {s : Scalar → R}
    (ht : t ∈ d.tensors) (hzero : f t = 0) : d.valueOf f s = 0 := by
  induction hd with
  | ref u => rwa [valueOf, ← List.mem_singleton.mp ht]
  | scalar x => cases ht
  | conj _ ih => rw [valueOf, ih ht, star_zero]
  | @product a b rest _ _ _ iha ihb ihrest =>
    rw [tensors, listTensors_eq, List.mem_append, List.mem_append] at ht
    rw [valueOf, listValueOf_eq]
    rcases ht with (ht | ht) | ht
    · rw [iha ht, zero_mul, zero_mul]
    · rw [ihb ht, mul_zero, zero_mul]
    · obtain ⟨d, hd, ht⟩ := List.mem_flatMap.mp ht
      have hmem : (0 : R) ∈ rest.map (valueOf f s) := List.mem_map.mpr ⟨d, hd, ihrest d hd ht⟩
      rw [List.prod_eq_zero hmem, mul_zero]

theorem HasNoSum.valueOf_one (hd : d.HasNoSum) : d.valueOf (fun _ => (1 : R)) (fun _ => 1) = 1 := by
  induction hd with
  | ref t => rfl
  | scalar x => rfl
  | conj _ ih => rw [valueOf, ih, star_one]
  | @product a b rest _ _ _ iha ihb ihrest =>
    have hrest : rest.map (valueOf (fun _ => (1 : R)) fun _ => 1) = rest.map fun _ => 1 :=
      List.map_congr_left ihrest
    rw [valueOf, iha, ihb, listValueOf_eq, hrest]
    simp

/-- The value after references have been replaced. -/
theorem HasNoSum.valueOf_mapRefs (hd : d.HasNoSum) (f : TensorRef → R) (s : Scalar → R)
    (φ : TensorRef → TensorRef) : (d.mapRefs φ).valueOf f s = d.valueOf (fun t => f (φ t)) s := by
  induction hd with
  | ref t => rfl
  | scalar x => rfl
  | conj _ ih => rw [Diagram.mapRefs, valueOf, valueOf, ih]
  | @product a b rest _ _ _ iha ihb ihrest =>
    have hrest : rest.map (fun d => (d.mapRefs φ).valueOf f s) =
        rest.map (valueOf (fun t => f (φ t)) s) :=
      List.map_congr_left ihrest
    rw [Diagram.mapRefs, valueOf, valueOf, iha, ihb, listValueOf_eq, listValueOf_eq,
      mapRefsList_eq, List.map_map, ← hrest]
    rfl

end

/-! ## What remains of a product -/

theorem factorRemainders_eq (ds : List Diagram) : factorRemainders braidingName ds =
    (ds.mapM (remainder braidingName) >>= fun os => .ok (os.flatMap Option.toList)) := by
  induction ds with
  | nil => rfl
  | cons d ds ih =>
    rw [factorRemainders, List.mapM_cons, ih]
    rcases d.remainder braidingName with e | o
    · rfl
    · rcases ds.mapM (remainder braidingName) with e | os <;> rfl

theorem termRemainders_eq (terms : List (Sign × Diagram)) : termRemainders braidingName terms =
    terms.mapM fun z => wholeOf braidingName z.2 (z.2.remainder braidingName) >>= fun d =>
      .ok (z.1, d) := by
  induction terms with
  | nil => rfl
  | cons z terms ih =>
    rw [termRemainders, ih, List.mapM_cons]
    rcases wholeOf braidingName z.2 (z.2.remainder braidingName) with e | d <;> rfl

/-- A braiding that is dropped as a whole, conjugated or not. -/
theorem eq_of_braidingTerm? (h : d.braidingTerm? braidingName = some t) :
    (d = ref t ∨ d = conj (ref t)) ∧ t.isBraiding braidingName = true := by
  have hterm : ∀ {u : TensorRef}, (if u.isBraiding braidingName then some u else none) = some t →
      u = t ∧ t.isBraiding braidingName = true := by
    intro u hu
    split_ifs at hu with hbraiding
    obtain rfl := Option.some.inj hu
    exact ⟨rfl, hbraiding⟩
  cases d with
  | ref u => exact (hterm h).imp_left fun heq => .inl (congrArg ref heq)
  | conj a =>
    cases a with
    | ref u => exact (hterm h).imp_left fun heq => .inr (congrArg (conj ∘ ref) heq)
    | _ => cases h
  | _ => cases h

section

variable {R : Type} [CommRing R] [StarRing R]

/-- What is left of some factors, if braidings count for nothing. -/
structure Leaves (braidingName : String) (f : TensorRef → R) (s : Scalar → R)
    (xs ys : List Diagram) : Prop where
  /-- No sum comes up. -/
  hasNoSum : ∀ y ∈ ys, y.HasNoSum
  /-- All other references are left. -/
  tensors_eq : ys.flatMap tensors = (xs.flatMap tensors).filter fun t => !t.isBraiding braidingName
  /-- The value is the same. -/
  value_eq : (ys.map (valueOf f s)).prod = (xs.map (valueOf f s)).prod

variable {f : TensorRef → R} {s : Scalar → R}

theorem Leaves.append {xs xs' ys ys' : List Diagram} (h : Leaves braidingName f s xs ys)
    (h' : Leaves braidingName f s xs' ys') : Leaves braidingName f s (xs ++ xs') (ys ++ ys') where
  hasNoSum := List.forall_mem_append.mpr ⟨h.hasNoSum, h'.hasNoSum⟩
  tensors_eq := by
    rw [List.flatMap_append, List.flatMap_append, List.filter_append, h.tensors_eq, h'.tensors_eq]
  value_eq := by
    rw [List.map_append, List.map_append, List.prod_append, List.prod_append,
      h.value_eq, h'.value_eq]

theorem leaves_flatMap {xs : List Diagram} {os : List (Option Diagram)}
    (h : List.Forall₂ (fun d o => Leaves braidingName f s [d] o.toList) xs os) :
    Leaves braidingName f s xs (os.flatMap Option.toList) := by
  induction h with
  | nil => exact ⟨by simp, rfl, rfl⟩
  | cons hd _ ih => exact hd.append ih

/-- The product of what is left. -/
theorem Leaves.product {a b : Diagram} {rest ys : List Diagram}
    (h : Leaves braidingName f s (a :: b :: rest) ys) :
    Leaves braidingName f s [product a b rest] (ofFactors? ys).toList := by
  have htensors : [Diagram.product a b rest].flatMap tensors =
      (a :: b :: rest).flatMap tensors := by
    rw [List.flatMap_singleton, tensors_product]
  have hvalue : ([Diagram.product a b rest].map (valueOf f s)).prod =
      ((a :: b :: rest).map (valueOf f s)).prod := by
    rw [List.map_singleton, List.prod_singleton, valueOf_product]
  obtain ⟨hys, htensors', hvalue'⟩ := h
  rw [← htensors] at htensors'
  rw [← hvalue] at hvalue'
  rcases ys with _ | ⟨x, _ | ⟨y, ys⟩⟩
  · exact ⟨hys, htensors', hvalue'⟩
  · exact ⟨hys, htensors', hvalue'⟩
  · rw [List.forall_mem_cons, List.forall_mem_cons] at hys
    refine ⟨List.forall_mem_singleton.mpr (.product hys.1 hys.2.1 hys.2.2), ?_, ?_⟩
    · rw [← htensors', ofFactors?, Option.toList_some, List.flatMap_singleton, tensors_product]
    · rw [← hvalue', ofFactors?, Option.toList_some, List.map_singleton, List.prod_singleton,
        valueOf_product]

/-- What remains of a product has the value of its other factors. -/
theorem HasNoSum.leaves_of_remainder (hd : d.HasNoSum)
    (hf : ∀ t : TensorRef, t.isBraiding braidingName = true → f t = 1) {o : Option Diagram}
    (h : d.remainder braidingName = .ok o) : Leaves braidingName f s [d] o.toList := by
  induction hd generalizing o with
  | ref t =>
    rw [remainder] at h
    split_ifs at h with hbraiding
    · obtain ⟨⟨⟩, -, h⟩ := bind_eq_ok_iff.mp h
      obtain rfl := Except.ok.inj h
      exact ⟨by simp, by simp [tensors, hbraiding], by simp [valueOf, hf t hbraiding]⟩
    · obtain rfl := Except.ok.inj h
      exact ⟨by simpa using .ref t, by simp [tensors, hbraiding], by simp⟩
  | scalar x =>
    obtain rfl := Except.ok.inj h
    exact ⟨by simpa using .scalar x, by simp [tensors], by simp⟩
  | @conj a ha ih =>
    rw [remainder] at h
    split at h
    · rename_i t hterm
      obtain ⟨⟨⟩, -, h⟩ := bind_eq_ok_iff.mp h
      obtain rfl := Except.ok.inj h
      obtain ⟨heq | heq, hbraiding⟩ := eq_of_braidingTerm? hterm <;> cases heq
      exact ⟨by simp, by simp [tensors, hbraiding], by simp [valueOf, hf t hbraiding]⟩
    · obtain ⟨a', ha', h⟩ := bind_eq_ok_iff.mp h
      obtain rfl := Except.ok.inj h
      obtain ⟨hsum, htensors, hvalue⟩ := ih (wholeOf_eq_ok ha')
      simp only [Option.toList_some, List.map_singleton, List.prod_singleton] at hvalue
      refine ⟨?_, htensors, ?_⟩
      · exact List.forall_mem_singleton.mpr (.conj (List.forall_mem_singleton.mp hsum))
      · simp only [Option.toList_some, List.map_singleton, List.prod_singleton, valueOf, hvalue]
  | @product a b rest _ _ _ iha ihb ihrest =>
    rw [remainder, factorRemainders_eq] at h
    obtain ⟨a', ha', h⟩ := bind_eq_ok_iff.mp h
    obtain ⟨b', hb', h⟩ := bind_eq_ok_iff.mp h
    obtain ⟨_, hrest, h⟩ := bind_eq_ok_iff.mp h
    obtain ⟨rest', hrest', hflat⟩ := bind_eq_ok_iff.mp hrest
    obtain rfl := Except.ok.inj hflat
    obtain rfl := Except.ok.inj h
    have hleaves := leaves_flatMap
      (((List.forall₂_and_left _ _).mpr ⟨ihrest, mapM_eq_ok_iff.mp hrest'⟩).imp
        fun d o hd => hd.1 hd.2)
    exact (((iha ha').append (ihb hb')).append hleaves).product

end

end Diagram

/-! ## Readings -/

/-- How products are read: how many values every index takes, and what the entries of objects and
the scalars are. -/
structure Reading (R : Type) where
  /-- The number of values of an index. -/
  dim : Index → ℕ
  /-- The entries of an object or of its adjoint, by the values of the outputs and inputs. -/
  entry : ObjectRef → Bool → List ℕ → List ℕ → R
  /-- The scalars. -/
  scalar : Scalar → R

namespace Reading

variable {R : Type} [CommRing R] [StarRing R] (I : Reading R)

/-- The entry of an identity matrix at the ends of a strand. -/
def strandAt (g : Index → ℕ) (e : Strand) : R :=
  if g e.1 = g e.2 then 1 else 0

/-- The entry of a reference, where a braiding is the product of its strands. -/
def refAt (braidingName : String) (g : Index → ℕ) (t : TensorRef) : R :=
  if t.isBraiding braidingName then
    match t.strands braidingName with
    | .ok s => strandAt g s.1 * strandAt g s.2
    | .error _ => 0
  else I.entry t.object t.isAdjoint (t.left.map g) (t.right.map g)

/-- The labelled array that a product denotes: all indices that appear twice are summed over. -/
def array (braidingName : String) (d : Diagram) (ρ : Index → ℕ) : R :=
  ∑ g ∈ valuations (doubled d.indexBag) I.dim ρ, d.valueOf (I.refAt braidingName g) I.scalar

/-- The entry of a reference, where a braiding counts for nothing. -/
def factorAt (braidingName : String) (g : Index → ℕ) (t : TensorRef) : R :=
  if t.isBraiding braidingName then 1 else I.entry t.object t.isAdjoint (t.left.map g)
    (t.right.map g)

omit [StarRing R] in
theorem factorAt_mapIndices (g : Index → ℕ) (r : Index → Index) (t : TensorRef) :
    I.factorAt braidingName g (t.mapIndices r) = I.factorAt braidingName (g ∘ r) t := by
  have hbraiding : (t.mapIndices r).isBraiding braidingName = t.isBraiding braidingName := rfl
  rw [factorAt, factorAt, hbraiding]
  simp only [TensorRef.mapIndices, List.map_map]

/-- Only values that are constant on strands contribute. -/
theorem valueOf_refAt (hd : d.HasNoSum) (hwell : ∀ t ∈ d.tensors, t.isBraiding braidingName = true →
      ∃ s, t.strands braidingName = .ok s) (g : Index → ℕ)
    [Decidable (ConstantOnStrands braidingName d g)] :
    d.valueOf (I.refAt braidingName g) I.scalar =
      if ConstantOnStrands braidingName d g then d.valueOf (I.factorAt braidingName g)
        I.scalar else 0 := by
  have hstrand : ∀ t ∈ d.tensors, t.isBraiding braidingName = true →
      ∀ s, t.strands braidingName = .ok s →
      IsStrandOf braidingName (d.tensors.filter fun t => t.isBraiding braidingName) s.1 ∧
        IsStrandOf braidingName (d.tensors.filter fun t => t.isBraiding braidingName) s.2 := by
    intro t ht hbraiding s hs
    have hmem := List.mem_filter.mpr ⟨ht, hbraiding⟩
    exact ⟨⟨t, hmem, s, hs, Or.inl rfl⟩, ⟨t, hmem, s, hs, Or.inr rfl⟩⟩
  split_ifs with hg
  · refine hd.valueOf_congr _ fun t ht => ?_
    rw [refAt, factorAt]
    split_ifs with hbraiding
    · obtain ⟨s, hs⟩ := hwell t ht hbraiding
      obtain ⟨hfirst, hsecond⟩ := hstrand t ht hbraiding s hs
      simp only [hs, strandAt, if_pos (hg _ hfirst), if_pos (hg _ hsecond), mul_one]
    · rfl
  · obtain ⟨e, ⟨t, ht, s, hs, he⟩, hne⟩ : ∃ e, IsStrandOf braidingName
        (d.tensors.filter fun t => t.isBraiding braidingName) e ∧ g e.1 ≠ g e.2 := by
      simpa [ConstantOnStrands] using hg
    obtain ⟨ht, hbraiding⟩ := List.mem_filter.mp ht
    refine hd.valueOf_eq_zero ht ?_
    rw [refAt, if_pos hbraiding, hs]
    rcases he with rfl | rfl
    · exact mul_eq_zero_of_left (if_neg hne) _
    · exact mul_eq_zero_of_right _ (if_neg hne)

end Reading

/-! ## The indices of a product -/

namespace TensorRef

/-- The indices of a braiding are the ends of its strands. -/
theorem indices_of_strands {s : Strand × Strand} (hs : t.strands braidingName = .ok s) :
    (t.indices : Multiset Index) = strandEnds [s.1, s.2] := by
  rw [strands] at hs
  split at hs
  · rename_i l₁ l₂ r₁ r₂ hleft hright
    have hindices : (t.indices : Multiset Index) = {l₁, l₂} + {r₁, r₂} := by
      rw [indices, hleft, hright]
      rfl
    rw [hindices, add_comm]
    split_ifs at hs <;> obtain rfl := Except.ok.inj hs
    · exact congrArg₂ HAdd.hAdd (Multiset.pair_comm r₁ r₂) rfl
    · exact congrArg₂ HAdd.hAdd rfl (Multiset.pair_comm l₁ l₂)
  · cases hs

theorem strandEnds_append (xs ys : List Strand) :
    strandEnds (xs ++ ys) = strandEnds xs + strandEnds ys := by
  simp only [strandEnds, List.map_append, ← Multiset.coe_add]
  exact add_add_add_comm _ _ _ _

/-- The indices of some braidings are the ends of their strands. -/
theorem strandEnds_of_allStrands {ts : List TensorRef}
    (h : allStrands braidingName ts = .ok strands) :
    (ts.flatMap indices : Multiset Index) = strandEnds strands := by
  rw [allStrands] at h
  obtain ⟨pairs, hpairs, hstrands⟩ := bind_eq_ok_iff.mp h
  obtain rfl := Except.ok.inj hstrands
  have hall := mapM_eq_ok_iff.mp hpairs
  clear h hpairs hstrands
  induction hall with
  | nil => rfl
  | cons hs _ ih =>
    rw [List.flatMap_cons, List.flatMap_cons, ← Multiset.coe_add, ih, indices_of_strands hs,
      ← strandEnds_append]

end TensorRef

namespace Diagram

/-- The legs of the factors that are no braidings. -/
def otherLegs (braidingName : String) (d : Diagram) : Multiset Index :=
  ((d.tensors.filter fun t => !t.isBraiding braidingName).flatMap TensorRef.indices : List Index)

theorem indexBag_eq_add (h : TensorRef.allStrands braidingName
    (d.tensors.filter fun t => t.isBraiding braidingName) = .ok strands) :
    d.indexBag = d.otherLegs braidingName + strandEnds strands := by
  have hperm :=
    (List.filter_append_perm (fun t => t.isBraiding braidingName) d.tensors).flatMap_right
    TensorRef.indices
  rw [indexBag, otherLegs, ← TensorRef.strandEnds_of_allStrands h, add_comm, Multiset.coe_add,
    ← List.flatMap_append]
  exact (Multiset.coe_eq_coe.mpr hperm).symm

/-- What remains of a product after its indices have been replaced. -/
structure Remains (braidingName : String) (d : Diagram) (r : Index → Index) (d' : Diagram) :
    Prop where
  /-- No sum comes up. -/
  hasNoSum : d'.HasNoSum
  /-- No braiding is left. -/
  not_isBraiding : ∀ t ∈ d'.tensors, ¬ t.isBraiding braidingName = true
  /-- The legs of the other factors are left. -/
  indexBag_eq : d'.indexBag = (d.otherLegs braidingName).map r
  /-- The other factors have their values. -/
  valueOf_eq : ∀ {R : Type} [CommRing R] [StarRing R] (I : Reading R) (g : Index → ℕ),
    d'.valueOf (I.factorAt braidingName g) I.scalar =
    d.valueOf (I.factorAt braidingName (g ∘ r)) I.scalar

theorem HasNoSum.remains {d' : Diagram} (hd : d.HasNoSum) {r : Index → Index}
    (h : (d.mapIndices r).remainder braidingName = .ok (some d')) :
    Remains braidingName d r d' := by
  have hmap : (d.mapIndices r).HasNoSum := hd.mapRefs _
  have htensors : d'.tensors =
      (d.tensors.filter fun t => !t.isBraiding braidingName).map (TensorRef.mapIndices r) := by
    have hleaves :=
      hmap.leaves_of_remainder (f := fun _ => (1 : ℤ)) (s := fun _ => 1) (fun _ _ => rfl) h
    have heq := hleaves.tensors_eq
    rw [Option.toList_some, List.flatMap_singleton, List.flatMap_singleton, mapIndices,
      tensors_mapRefs, List.filter_map] at heq
    exact heq
  refine ⟨?_, fun t ht => ?_, ?_, fun I g => ?_⟩
  · have hleaves :=
      hmap.leaves_of_remainder (f := fun _ => (1 : ℤ)) (s := fun _ => 1) (fun _ _ => rfl) h
    exact hleaves.hasNoSum d' (List.mem_singleton_self d')
  · rw [htensors] at ht
    obtain ⟨u, hu, rfl⟩ := List.mem_map.mp ht
    intro hbraiding
    have hu : (!u.isBraiding braidingName) = true := (List.mem_filter.mp hu).2
    rw [show u.isBraiding braidingName = true from hbraiding] at hu
    cases hu
  · rw [indexBag, htensors, otherLegs, Multiset.map_coe, List.map_flatMap, List.flatMap_map]
    simp only [TensorRef.indices, TensorRef.mapIndices, List.map_append]
  · have hone : ∀ t : TensorRef, t.isBraiding braidingName = true →
        I.factorAt braidingName g t = 1 :=
      fun t ht => if_pos ht
    have heq := (hmap.leaves_of_remainder (s := I.scalar) hone h).value_eq
    simp only [Option.toList_some, List.map_singleton, List.prod_singleton] at heq
    rw [heq, mapIndices, hd.valueOf_mapRefs]
    simp only [I.factorAt_mapIndices]

/-- The two sides of an assignment whose braidings are removed. -/
theorem Identifies.web {lhs rhs : Diagram} {r : Index → Index}
    (h : Identifies braidingName lhs rhs r) (hstrands : TensorRef.allStrands braidingName
      (rhs.tensors.filter fun t => t.isBraiding braidingName) = .ok strands)
    (hcount : ∀ i, rhs.indexBag.count i ≤ 2) : Web (rhs.otherLegs braidingName) strands r where
  count_le := indexBag_eq_add hstrands ▸ hcount
  constant e he := h.constant e ((TensorRef.mem_iff_of_allStrands_eq_ok hstrands e).mp he)
  identified g hg :=
    h.identified g fun e he => hg e ((TensorRef.mem_iff_of_allStrands_eq_ok hstrands e).mpr he)

end Diagram

end TensorDiagram
