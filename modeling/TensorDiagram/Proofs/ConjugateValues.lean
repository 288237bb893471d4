import TensorDiagram.Proofs.AdjointForms
import TensorDiagram.Proofs.ArityChecks
import TensorDiagram.Proofs.ConjugateArrays

/-!
# Values of conjugate expressions

Conjugation is normalized before an expression is evaluated: the conjugate of a reference is a
reference to the adjoint, with its two lists of indices exchanged.  The value of the normal form of
a conjugate is the conjugate value (`Evaluated.IsConjugate`), whatever products, sums, traces and
further conjugates the expression is made of.

This is a statement about meanings first.  A flipped reference is the conjugate array
(`Machine.refArray_flipped`), if it has as many outputs and inputs as its object, and products and
sums of conjugates are conjugates (`Machine.denote_adjointForm`).  A value has a meaning as soon as
each of its legs has a label, which products and sums keep (`Evaluated.isKept_isComplete`), so
nothing is lost if values are compared by what they mean.
-/

namespace TensorDiagram

/-! ## Numbers -/

/-- The conjugate of a number that is written in a diagram stands for the conjugate of its value. -/
class Arithmetic.ConjugatesLiterals (R : Type) [CommRing R] [StarRing R] [Arithmetic R] : Prop where
  literal_conj : ∀ x : Number, Arithmetic.literal x.conj = star (Arithmetic.literal x : R)

/-- The arithmetic of the Gaussian integers.  Numbers that are not whole stand for zero. -/
instance : Arithmetic GaussianInt where
  literal
    | .integer n => n
    | _ => 0
  kind _ := .integer
  widen _ x := x
  convertible _ _ := true
  storable _ _ := true
  add x y := x + y
  mul x y := x * y
  conj x := star x

instance : Arithmetic.IsExact GaussianInt where
  literal_integer _ := rfl
  widen_eq _ _ := rfl
  convertible_eq _ _ := rfl
  storable_eq _ _ := rfl
  add_eq _ _ := rfl
  mul_eq _ _ := rfl
  conj_eq _ := rfl

instance : Arithmetic.ConjugatesLiterals GaussianInt where
  literal_conj
    | .integer n => (star_intCast n).symm
    | .real _ => (star_zero _).symm
    | .complex _ _ => (star_zero _).symm

/-! ## Complete and conjugate values -/

namespace Evaluated

variable {R : Type}

/-- Every leg of a value with labels has one. -/
def IsComplete : Evaluated R → Prop
  | labelled v labels => ∃ t, v = .tensor t ∧ labels.length = t.legs.count
  | plain _ => True

theorem isKept_isComplete : IsKept (IsComplete : Evaluated R → Prop) where
  scalar _ := trivial
  product x y z hform hx hy := by
    cases hform with
    | scalars => trivial
    | scaled a labels hlegs =>
      obtain ⟨t, ht, hcount⟩ := hy
      cases ht
      exact ⟨_, rfl, hcount.trans (by rw [hlegs])⟩
    | scaledBy a labels hlegs =>
      obtain ⟨t, ht, hcount⟩ := hx
      cases ht
      exact ⟨_, rfl, hcount.trans (by rw [hlegs])⟩
    | joined s t labels others hcount => exact ⟨_, rfl, hcount⟩
  sum x y z hform hx hy := by
    cases hform with
    | scalars => trivial
    | tensors t others hlegs hcount => exact ⟨_, rfl, hcount⟩

/-- A complete value means something, unless it is a tensor without labels. -/
theorem IsComplete.cases [CommRing R] [Arithmetic R] {x : Evaluated R} (h : x.IsComplete) :
    (∃ t, x = plain (.tensor t)) ∨ ∃ u, x.meaning? = some u := by
  match x with
  | plain (.tensor t) => exact Or.inl ⟨t, rfl⟩
  | plain (.scalar a) => exact Or.inr ⟨_, rfl⟩
  | labelled v labels =>
    obtain ⟨t, rfl, hcount⟩ := h
    exact Or.inr (exists_meaning_iff.mpr hcount)

/-- Products and sums are numbers or have labels. -/
theorem isKept_ne_tensor : IsKept fun x : Evaluated R => ∀ t, x ≠ plain (.tensor t) where
  scalar _ _ h := by cases h
  product x y z hform _ _ t h := by
    subst h
    cases hform
  sum x y z hform _ _ t h := by
    subst h
    cases hform

variable [CommRing R] [StarRing R] [Arithmetic R]

/-- The second value is the conjugate of the first one.  It has the same labels, the leg with a
label has the dual space, and the entry for given values of the labels is the conjugate. -/
inductive IsConjugate : Evaluated R → Evaluated R → Prop
  /-- The conjugate of a scalar. -/
  | scalar (a : R) : IsConjugate (plain (.scalar a)) (plain (.scalar (star a)))
  /-- The conjugate of a tensor. -/
  | tensor {s t : Tensor R} {labels others : List Index} (hs : labels.length = s.legs.count)
      (ht : others.length = t.legs.count) (hnodup : labels.Nodup) (hlabels : labels.Perm others)
      (hspaces : ∀ l v, (l, v) ∈ s.labelledLegs labels → (l, v.dual) ∈ t.labelledLegs others)
      (hentries : ∀ g : Index → ℕ, (∀ leg ∈ s.labelledLegs labels, g leg.1 < leg.2.dim.toNat) →
        t.grid.get (others.map g) = star (s.grid.get (labels.map g))) :
      IsConjugate (labelled (.tensor s) labels) (labelled (.tensor t) others)

/-- Values are conjugate if their meanings are. -/
theorem isConjugate_of_meaning {x y : Evaluated R} {u : Meaning R} (hdistinct : x.IsDistinct)
    (hx : x.meaning? = some u) (hy : y.meaning? = some (star u)) : x.IsConjugate y := by
  cases u with
  | scalar a =>
    obtain rfl := meaning?_eq_scalar_iff.mp hx
    obtain rfl := meaning?_eq_scalar_iff.mp hy
    exact .scalar a
  | array N =>
    obtain ⟨s, labels, rfl, hs, rfl⟩ := meaning?_eq_array_iff.mp hx
    obtain ⟨t, others, rfl, ht, harray⟩ := meaning?_eq_array_iff.mp hy
    have hlabels : labels.Perm others := by
      have heq := LegArray.labels_star (s.toArray labels)
      rw [harray, Tensor.labels_toArray hs, Tensor.labels_toArray ht] at heq
      exact (Multiset.coe_eq_coe.mp heq).symm
    have hlegs : (t.labelledLegs others).Perm ((s.labelledLegs labels).map LegArray.dualLeg) :=
      Multiset.coe_eq_coe.mp (congrArg LegArray.legs harray).symm
    refine .tensor hs ht hdistinct hlabels (fun l v hl => ?_) fun g hg => ?_
    · exact hlegs.mem_iff.mpr (List.mem_map_of_mem hl)
    · have hg' : ∀ leg ∈ t.labelledLegs others, g leg.1 < leg.2.dim.toNat := fun leg hleg => by
        obtain ⟨leg, hmem, rfl⟩ := List.mem_map.mp (hlegs.mem_iff.mp hleg)
        exact hg leg hmem
      rw [← Tensor.entry_toArray hs hg, ← Tensor.entry_toArray ht hg', ← harray,
        LegArray.entry_star]

end Evaluated

/-! ## Named scalars and references of normal forms -/

namespace Diagram

/-- The normal form has the same named scalars. -/
theorem scalarNames_adjointForm (odd : Bool) (d : Diagram) :
    (d.adjointForm odd).scalarNames = d.scalarNames := by
  induction d generalizing odd with
  | scalar s => cases s <;> cases odd <;> rfl
  | conj a ih => exact ih (!odd)
  | product a b rest iha ihb ih =>
    simp only [adjointForm, scalarNames, iha, ihb, adjointFormList_eq, listScalarNames_eq,
      List.flatMap_map, List.flatMap_congr fun d hd => ih d hd odd]
  | sum sign a rest iha ih =>
    simp only [adjointForm, scalarNames, iha, adjointFormTerms_eq, termScalarNames_eq,
      List.flatMap_map, List.flatMap_congr fun p hp => ih p hp odd]
  | assign lhs rhs isDefinition _ ihr =>
    cases odd with
    | false => exact ihr false
    | true => rfl
  | _ => cases odd <;> rfl

end Diagram

namespace Machine

open Diagram Evaluated

variable {R : Type} {m : Machine R} {a b d : Diagram}
variable {t : TensorRef} {x : Evaluated R}

/-- The object of a reference is a tensor with as many outputs and inputs as the reference has. -/
def FitsArity (m : Machine R) (t : TensorRef) : Prop :=
  ∀ v, m.lookup t.object = .ok v → ∃ s : Tensor R, v = .tensor s ∧ s.arity = t.arity

theorem FitsArity.flipped (h : m.FitsArity t) : m.FitsArity t.flipped := by
  rw [FitsArity, t.arity_flipped]
  exact h

/-- The references of an expression fit their objects. -/
def FitsArities (m : Machine R) (d : Diagram) : Prop :=
  ∀ t ∈ d.tensors, m.FitsArity t

theorem fitsArities_product {rest : List Diagram} :
    m.FitsArities (.product a b rest) ↔ m.FitsArities a ∧ m.FitsArities b ∧
      ∀ d ∈ rest, m.FitsArities d := by
  rw [FitsArities, tensors, listTensors_eq, List.forall_mem_append,
    List.forall_mem_append, and_assoc]
  simp only [List.forall_mem_flatMap]
  rfl

theorem fitsArities_sum {sign : Sign} {rest : List (Sign × Diagram)} :
    m.FitsArities (.sum sign a rest) ↔ m.FitsArities a ∧ ∀ p ∈ rest, m.FitsArities p.2 := by
  rw [FitsArities, tensors, termTensors_eq, List.forall_mem_append]
  simp only [List.forall_mem_flatMap]
  rfl

theorem FitsArities.adjointForm (hd : d.IsFormula) (h : m.FitsArities d) (odd : Bool) :
    m.FitsArities (d.adjointForm odd) := by
  induction hd generalizing odd with
  | ref t =>
    cases odd with
    | false => exact h
    | true => exact List.forall_mem_singleton.mpr (h t (List.mem_singleton.mpr rfl)).flipped
  | scalar s => rcases odd with _ | _ <;> rcases s with _ | _ <;> exact List.forall_mem_nil _
  | conj _ ih => exact ih h (!odd)
  | sum _ _ iha ihrest =>
    rw [fitsArities_sum] at h
    rw [Diagram.adjointForm, adjointFormTerms_eq, fitsArities_sum]
    exact ⟨iha h.1 odd, List.forall_mem_map.mpr fun p hp => ihrest p hp (h.2 p hp) odd⟩
  | product _ _ _ iha ihb ihrest =>
    rw [fitsArities_product] at h
    rw [Diagram.adjointForm, adjointFormList_eq, fitsArities_product]
    exact ⟨iha h.1 odd, ihb h.2.1 odd, List.forall_mem_map.mpr fun d hd =>
      ihrest d hd (h.2.2 d hd) odd⟩

variable [Arithmetic R]

/-- What a reference stands for has as many outputs and inputs as are written. -/
theorem FitsArity.exists_referent (h : m.FitsArity t) {v : Value R}
    (hv : m.referent t.object t.isAdjoint = .ok v) :
    ∃ s : Tensor R, v = .tensor s ∧ s.arity = (t.left.length, t.right.length) := by
  obtain ⟨w, hw, hv⟩ := bind_eq_ok_iff.mp hv
  obtain ⟨s, rfl, harity⟩ := h w hw
  rw [TensorRef.arity] at harity
  split_ifs at hv harity
  · obtain rfl := Except.ok.inj hv
    exact ⟨s.adjoint, rfl, congrArg Prod.swap harity⟩
  · obtain rfl := Except.ok.inj hv
    exact ⟨s, rfl, harity⟩

/-- If references fit their objects, then every leg of a value has a label. -/
theorem FitsArities.isComplete (h : m.FitsArities d) (hx : m.evaluate d = .ok x) :
    x.IsComplete := by
  refine keeps_evaluate isKept_isComplete d (fun t ht y hy => ?_) (fun _ _ _ _ => trivial) hx
  rcases evaluateRef_cases hy with ⟨v, hv, -, rfl⟩ | ⟨u, labels, -, hcount, rfl⟩
  · obtain ⟨s, rfl, harity⟩ := (h t ht).exists_referent hv
    obtain ⟨houtputs, hinputs⟩ := Prod.mk.inj harity
    exact ⟨s, rfl, by rw [TensorRef.indices, List.length_append, ← houtputs, ← hinputs, Legs.count]⟩
  · exact ⟨u, rfl, hcount⟩

/-- If no named scalar is a tensor, then every tensor that an expression evaluates to has labels. -/
theorem ne_tensor_of_evaluate
    (hnames : ∀ text ∈ d.scalarNames, ∀ t, m.namedScalar text ≠ .ok (.tensor t))
    (hx : m.evaluate d = .ok x) (t : Tensor R) : x ≠ plain (.tensor t) := by
  refine keeps_evaluate isKept_ne_tensor d (fun u _ y hy s hs => ?_)
    (fun text htext v hv s hs => ?_) hx t
  · rcases evaluateRef_cases hy with ⟨v, -, -, rfl⟩ | ⟨w, labels, -, -, rfl⟩ <;> cases hs
  · obtain rfl := Evaluated.plain.inj hs
    exact hnames text htext s hv

/-! ## Conjugate meanings -/

variable [CommRing R] [StarRing R] [Arithmetic.IsExact R]

theorem refArray_flipped_of_not_isAdjoint (h : m.FitsArity t) (hadjoint : t.isAdjoint = false) :
    m.refArray t.flipped = (m.refArray t).map star := by
  have hflipped : t.flipped.isAdjoint = true := by rw [TensorRef.flipped, hadjoint, Bool.not_false]
  have hobject : t.flipped.object = t.object := rfl
  rcases hv : m.lookup t.object with e | v
  · rw [refArray, refArray, referent, referent, hobject, hv]
    rfl
  · obtain ⟨s, rfl, harity⟩ := h v hv
    rw [TensorRef.arity, hadjoint, if_neg Bool.false_ne_true] at harity
    obtain ⟨houtputs, hinputs⟩ := Prod.mk.inj harity
    have hs : m.referent t.object t.isAdjoint = .ok (.tensor s) := by
      rw [referent, hv, hadjoint]
      rfl
    have hs' : m.referent t.flipped.object t.flipped.isAdjoint = .ok (.tensor s.adjoint) := by
      rw [referent, hobject, hv, hflipped]
      rfl
    have hcount : t.indices.length = s.legs.count := by
      rw [TensorRef.indices, List.length_append, ← houtputs, ← hinputs, Legs.count]
    have hcount' : t.flipped.indices.length = s.adjoint.legs.count := by
      rw [TensorRef.indices, List.length_append]
      exact congrArg₂ (· + ·) hinputs.symm houtputs.symm
    rw [refArray_eq_some_iff.mpr ⟨s, hs, hcount, rfl⟩,
      refArray_eq_some_iff.mpr ⟨s.adjoint, hs', hcount', rfl⟩]
    exact congrArg some (Tensor.toArray_adjoint houtputs.symm hinputs.symm)

/-- The array of a flipped reference is the conjugate array. -/
theorem refArray_flipped (h : m.FitsArity t) : m.refArray t.flipped = (m.refArray t).map star := by
  rcases hadjoint : t.isAdjoint
  · exact refArray_flipped_of_not_isAdjoint h hadjoint
  · have hflipped :=
      refArray_flipped_of_not_isAdjoint h.flipped
        (by rw [TensorRef.flipped, hadjoint, Bool.not_true])
    rw [t.flipped_flipped] at hflipped
    rw [hflipped, map_star_map_star]

/-- A flipped reference means the conjugate. -/
theorem denote_flipped (h : m.FitsArity t) :
    m.denote (.ref t.flipped) = (m.denote (.ref t)).map star := by
  refine Option.ext fun v => ?_
  simp only [denote_ref_eq_some_iff, refArray_flipped h, Option.map_eq_some_iff]
  constructor
  · rintro ⟨_, ⟨N, hN, rfl⟩, hjoin, rfl⟩
    exact ⟨_, ⟨N, hN, LegArray.joinable_star_iff.mp hjoin, rfl⟩, by rw [LegArray.contract_star,
      Meaning.star_array]⟩
  · rintro ⟨_, ⟨N, hN, hjoin, rfl⟩, rfl⟩
    exact ⟨_, ⟨N, hN, rfl⟩, hjoin.star, by rw [LegArray.contract_star, Meaning.star_array]⟩

/-- The conjugate of a named scalar means the conjugate. -/
theorem denote_conj_name (text : String) :
    m.denote (.conj (.scalar (.name text))) = (m.denote (.scalar (.name text))).map star := by
  simp only [denote, evaluate, evaluateScalar]
  rcases m.namedScalar text with e | v
  · rfl
  · cases v with
    | tensor t => rfl
    | scalar a => exact congrArg (some ∘ Meaning.scalar) (Arithmetic.IsExact.conj_eq a)

section

variable {f h : Diagram → Diagram}

/-- A sum means the conjugate if all of its terms do. -/
theorem denote_sum_star {sign : Sign} {rest : List (Sign × Diagram)}
    (ha : m.denote (f a) = (m.denote (h a)).map star)
    (hrest : ∀ p ∈ rest, m.denote (f p.2) = (m.denote (h p.2)).map star) :
    m.denote (.sum sign (f a) (rest.map fun p => (p.1, f p.2))) =
      (m.denote (.sum sign (h a) (rest.map fun p => (p.1, h p.2)))).map star := by
  induction rest using List.reverseRecOn with
  | nil =>
    rw [List.map_nil, List.map_nil, denote_sum_first, denote_sum_first, ha, Option.map_map,
      Option.map_map]
    exact congrArg (Option.map · _) (funext fun u => Meaning.signed_star sign u)
  | append_singleton rest p ih =>
    obtain ⟨hrest, hp⟩ := List.forall_mem_append.mp hrest
    rw [List.map_append, List.map_append, List.map_singleton, List.map_singleton, denote_sum_next,
      denote_sum_next, ih hrest, List.forall_mem_singleton.mp hp]
    exact Meaning.bind_bind_star (Meaning.add_star p.1) _ _

/-- A product means the conjugate if all of its factors do. -/
theorem denote_product_star {rest : List Diagram} (ha : m.denote (f a) = (m.denote (h a)).map star)
    (hb : m.denote (f b) = (m.denote (h b)).map star)
    (hrest : ∀ d ∈ rest, m.denote (f d) = (m.denote (h d)).map star) :
    m.denote (.product (f a) (f b) (rest.map f)) =
      (m.denote (.product (h a) (h b) (rest.map h))).map star := by
  induction rest using List.reverseRecOn with
  | nil =>
    rw [List.map_nil, List.map_nil, denote_pair, denote_pair, ha, hb]
    exact Meaning.bind_bind_star Meaning.mul_star _ _
  | append_singleton rest d ih =>
    obtain ⟨hrest, hd⟩ := List.forall_mem_append.mp hrest
    rw [List.map_append, List.map_append, List.map_singleton, List.map_singleton,
      denote_product_next, denote_product_next, ih hrest, List.forall_mem_singleton.mp hd]
    exact Meaning.bind_bind_star Meaning.mul_star _ _

end

variable [Arithmetic.ConjugatesLiterals R]

/-- The normal form of the conjugate of an expression means the conjugate of what its normal form
means. -/
theorem denote_adjointForm (hd : d.IsFormula) (h : m.FitsArities d) :
    m.denote (d.adjointForm true) = (m.denote (d.adjointForm false)).map star := by
  induction hd with
  | ref t => exact denote_flipped (h t (List.mem_singleton.mpr rfl))
  | scalar s =>
    cases s with
    | number x =>
      exact congrArg (some ∘ Meaning.scalar) (Arithmetic.ConjugatesLiterals.literal_conj x)
    | name text => exact denote_conj_name text
  | @conj a _ ih =>
    -- the conjugate of a conjugate has the normal form of the expression itself
    change m.denote (a.adjointForm false) = (m.denote (a.adjointForm true)).map star
    rw [ih h, map_star_map_star]
  | sum _ _ iha ihrest =>
    obtain ⟨ha, hrest⟩ := fitsArities_sum.mp h
    rw [Diagram.adjointForm, Diagram.adjointForm, adjointFormTerms_eq, adjointFormTerms_eq]
    exact denote_sum_star (iha ha) fun p hp => ihrest p hp (hrest p hp)
  | product _ _ _ iha ihb ihrest =>
    obtain ⟨ha, hb, hrest⟩ := fitsArities_product.mp h
    rw [Diagram.adjointForm, Diagram.adjointForm, adjointFormList_eq, adjointFormList_eq]
    exact denote_product_star (iha ha) (ihb hb) fun d hd => ihrest d hd (hrest d hd)

/-! ## Conjugate values -/

/-- A value that is not a tensor without labels has a conjugate among the values of the other normal
form. -/
theorem exists_conjugate (hd : d.IsFormula) (h : m.FitsArities d) (odd : Bool)
    (hx : m.evaluate (d.adjointForm odd) = .ok x) :
    (∃ t, x = plain (.tensor t)) ∨ ∃ y u, m.evaluate (d.adjointForm (!odd)) = .ok y ∧
      x.meaning? = some u ∧ y.meaning? = some (star u) := by
  refine ((h.adjointForm hd odd).isComplete hx).cases.imp_right ?_
  rintro ⟨u, hu⟩
  have hdenote : m.denote (d.adjointForm odd) = some u := by rw [denote, hx, outcome?_ok, hu]
  have hconjugate : m.denote (d.adjointForm (!odd)) = some (star u) := by
    have heq := denote_adjointForm hd h
    cases odd with
    | false => rw [Bool.not_false, heq, hdenote, Option.map_some]
    | true =>
      rw [hdenote] at heq
      rw [Bool.not_true, ← map_star_map_star (m.denote _), ← heq, Option.map_some]
  obtain ⟨y, hy, hmeaning⟩ := outcome?_eq_some_iff.mp hconjugate
  exact ⟨y, u, hy, hu, hmeaning⟩

/-- **Normalizing a conjugate conjugates the value.**  If references fit their objects, then the
normal forms of an expression and of its conjugate have conjugate values, or both have none.  The
one exception is a named scalar that is a tensor: a tensor without labels is a value, but there is
no conjugate of it. -/
theorem evaluate_conjugate (m : Machine R) {d : Diagram} (hd : d.IsFormula) (h : m.FitsArities d) :
    (∀ x, m.evaluate d.pushConj = .ok x →
      (∃ t, x = plain (.tensor t)) ∨ ∃ y, m.evaluate (conj d).pushConj = .ok y ∧ x.IsConjugate y) ∧
    (∀ y, m.evaluate (conj d).pushConj = .ok y →
      (∃ t, y = plain (.tensor t)) ∨ ∃ x, m.evaluate d.pushConj = .ok x ∧ x.IsConjugate y) ∧
    ((∀ text ∈ d.scalarNames, ∀ t, m.namedScalar text ≠ .ok (.tensor t)) →
      SameOutcome IsConjugate (m.evaluate d.pushConj) (m.evaluate (conj d).pushConj)) := by
  have hforward : ∀ x, m.evaluate d.pushConj = .ok x →
      (∃ t, x = plain (.tensor t)) ∨ ∃ y, m.evaluate (conj d).pushConj = .ok y ∧
      x.IsConjugate y := by
    intro x hx
    refine (exists_conjugate hd h false hx).imp_right ?_
    rintro ⟨y, u, hy, hxu, hyu⟩
    exact ⟨y, hy, isConjugate_of_meaning (isDistinct_of_evaluate hx) hxu hyu⟩
  have hbackward : ∀ y, m.evaluate (conj d).pushConj = .ok y →
      (∃ t, y = plain (.tensor t)) ∨ ∃ x, m.evaluate d.pushConj = .ok x ∧ x.IsConjugate y := by
    intro y hy
    refine (exists_conjugate hd h true hy).imp_right ?_
    rintro ⟨x, u, hx, hyu, hxu⟩
    exact ⟨x, hx, isConjugate_of_meaning (isDistinct_of_evaluate hx) hxu (by rwa [star_star])⟩
  refine ⟨hforward, hbackward, fun hnames => .of_exists_ok (fun x hx => ?_) fun y hy => ?_⟩
  · have hne :=
      ne_tensor_of_evaluate (d := d.pushConj) (by rwa [pushConj, scalarNames_adjointForm]) hx
    exact (hforward x hx).resolve_left (not_exists.mpr hne)
  · have hne := ne_tensor_of_evaluate (d := (conj d).pushConj)
      (by rwa [pushConj, scalarNames_adjointForm, scalarNames]) hy
    obtain ⟨x, hx, -⟩ := (hbackward y hy).resolve_left (not_exists.mpr hne)
    exact ⟨x, hx⟩

/-- A matrix of Gaussian integers. -/
def gaussianMatrix : Tensor GaussianInt where
  grid := .ofFn .integer [2, 2] fun position => ⟨offset [2, 2] position, 1⟩
  legs := ⟨[⟨2, false⟩], [⟨2, false⟩]⟩
  shape_eq := rfl

/-- A machine with a matrix and a named scalar. -/
def gaussianMachine : Machine GaussianInt :=
  .start [("A", .tensor gaussianMatrix), ("s", .scalar ⟨2, 3⟩)]

/-- A multiple of a product of a matrix and its adjoint and of the trace of the matrix, minus
another multiple of the matrix. -/
def gaussianDifference : Diagram :=
  .sum .plus
    (.product (.conj (.scalar (.name "s"))) (.ref ⟨.name "A", [.name "a"], [.name "b"], false⟩)
      [.conj (.ref ⟨.name "A", [.name "c"], [.name "b"], false⟩),
        .ref ⟨.name "A", [.name "e"], [.name "e"], false⟩])
    [(.minus, .conj (.conj (.pair (.scalar (.number (.integer 2)))
      (.ref ⟨.name "A", [.name "a"], [.name "c"], false⟩))))]

/-- The entry at a position of a value with labels. -/
def entryAt? {R : Type} [Arithmetic R] (position : List ℕ) : Evaluated R → Option R
  | labelled (.tensor t) _ => some (t.grid.get position)
  | _ => none

/-- Both values of the difference exist and are conjugate, and their entries are not real. -/
theorem evaluate_conjugate_gaussianDifference :
    gaussianDifference.IsFormula ∧ gaussianMachine.FitsArities gaussianDifference ∧
    SameOutcome IsConjugate (gaussianMachine.evaluate gaussianDifference.pushConj)
      (gaussianMachine.evaluate (conj gaussianDifference).pushConj) ∧
    (gaussianMachine.evaluate gaussianDifference.pushConj).toOption.bind (entryAt? [1, 0]) =
      some ⟨36, -75⟩ ∧
    (gaussianMachine.evaluate (conj gaussianDifference).pushConj).toOption.bind (entryAt? [1, 0]) =
      some ⟨36, 75⟩ := by
  have hd : gaussianDifference.IsFormula :=
    .sum (.product (.conj (.scalar _)) (.ref _)
        (List.forall_mem_cons.mpr ⟨.conj (.ref _), List.forall_mem_singleton.mpr (.ref _)⟩))
      (List.forall_mem_singleton.mpr
        (.conj (.conj (.product (.scalar _) (.ref _) (List.forall_mem_nil _)))))
  have hfits : gaussianMachine.FitsArities gaussianDifference := by
    have hlookup : gaussianMachine.lookup (.name "A") = .ok (.tensor gaussianMatrix) := rfl
    have htensors : ∀ t ∈ gaussianDifference.tensors, t.object = .name "A" ∧
        t.arity = gaussianMatrix.arity := by
      decide
    intro t ht v hv
    obtain ⟨hobject, harity⟩ := htensors t ht
    rw [hobject, hlookup] at hv
    exact ⟨gaussianMatrix, (Except.ok.inj hv).symm, harity.symm⟩
  have hnames : ∀ text ∈ gaussianDifference.scalarNames, ∀ t, gaussianMachine.namedScalar text ≠
      .ok (.tensor t) := by
    have hscalar : gaussianMachine.namedScalar "s" = .ok (.scalar ⟨2, 3⟩) := rfl
    refine List.forall_mem_singleton.mpr fun t ht => ?_
    rw [hscalar] at ht
    cases ht
  exact ⟨hd, hfits, (evaluate_conjugate gaussianMachine hd hfits).2.2 hnames, by decide +kernel, by
    decide +kernel⟩

end Machine

end TensorDiagram
