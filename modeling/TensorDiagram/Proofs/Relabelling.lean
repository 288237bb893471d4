import TensorDiagram.Proofs.Monomials
import TensorDiagram.Proofs.Renaming

/-!
# Values with other labels

The labels of legs are names and nothing else.  If all of them are replaced by others, different
ones by different ones, then a contraction gives the same tensor (`contractAll_relabel`), and the
value of a nested product is the same with the labels replaced (`evaluate_mapIndices`).

In a sum the labels of a term can be replaced by those of the term alone, as long as the labels of
the result stay (`evaluate_sum_congr`).
-/

namespace TensorDiagram

/-! ## Lists of labels -/

section Lists

variable {α β : Type} [DecidableEq α] [DecidableEq β] {f : α → β} (hf : Function.Injective f)

include hf

/-- The labels that occur once, with other names. -/
theorem once_map (xs : List α) : once (xs.map f) = (once xs).map f := by
  rw [once, once, List.filter_map]
  simp only [Function.comp_def, List.count_map_of_injective _ _ hf]

/-- The labels that are not among others, with other names. -/
theorem filter_notMem_map (xs ys : List α) :
    (xs.map f).filter (· ∉ ys.map f) = (xs.filter (· ∉ ys)).map f := by
  rw [List.filter_map]
  simp only [Function.comp_def, List.mem_map_of_injective hf]

/-- Looking up a label under its other name. -/
theorem Table.find?_relabel {γ : Type} (t : Table α γ) (key : α) :
    Table.find? (f key) (t.map (Prod.map f id)) = t.find? key := by
  rw [find?_prodMap hf, Option.map_id, id]

end Lists

variable {f : Index → Index}

/-! ## Contractions -/

theorem map_fst_relabel (legs : List LabelledLeg) :
    (legs.map (Prod.map f id)).map Prod.fst = (legs.map Prod.fst).map f := by
  rw [List.map_map, List.map_map]
  rfl

theorem checkLabels_relabel (hf : Function.Injective f) (legs : List LabelledLeg) :
    SameOutcome Eq (checkLabels legs) (checkLabels (legs.map (Prod.map f id))) := by
  have hlabel : ∀ l, checkLabel legs l = .ok () ↔
      checkLabel (legs.map (Prod.map f id)) (f l) = .ok () := by
    intro l
    have hsame : ((legs.map (Prod.map f id)).filter fun leg => leg.1 = f l).map Prod.snd =
        (legs.filter fun leg => leg.1 = l).map Prod.snd := by
      rw [List.filter_map, List.map_map]
      simp only [Function.comp_def, Prod.map_fst, hf.eq_iff, Prod.map_snd, id_eq]
    rw [checkLabel_eq_ok_iff, checkLabel_eq_ok_iff, spacesAt_coe, spacesAt_coe, hsame]
  refine .of_exists_ok (fun _ h => ⟨(), ?_, rfl⟩) fun _ h => ⟨(), ?_⟩
  · rw [checkLabels, forM_eq_ok_iff, map_fst_relabel, distinct_map hf, List.forall_mem_map]
    rw [checkLabels, forM_eq_ok_iff] at h
    exact fun l hl => (hlabel l).mp (h l hl)
  · rw [checkLabels, forM_eq_ok_iff, map_fst_relabel, distinct_map hf, List.forall_mem_map] at h
    rw [checkLabels, forM_eq_ok_iff]
    exact fun l hl => (hlabel l).mpr (h l hl)

theorem resultLegs_relabel (hf : Function.Injective f) (legs : List LabelledLeg)
    (left right : List Index) : SameOutcome Eq (resultLegs legs left right)
      (resultLegs (legs.map (Prod.map f id)) (left.map f) (right.map f)) := by
  have hside : ∀ side : List Index,
      (side.map f).map (spaceIn (legs.map (Prod.map f id))) = side.map (spaceIn legs) := by
    intro side
    rw [List.map_map]
    refine List.map_congr_left fun l _ => ?_
    rw [Function.comp_apply, spaceIn, spaceIn, Table.find?_relabel hf]
  have hresult : ∀ result, resultLegs (legs.map (Prod.map f id)) (left.map f) (right.map f) =
      .ok result ↔ resultLegs legs left right = .ok result := by
    intro result
    rw [resultLegs_eq_ok_iff, resultLegs_eq_ok_iff, map_fst_relabel, once_map hf, ← List.map_append,
      List.map_perm_map_iff hf, hside, hside]
  exact .of_exists_ok (fun a h => ⟨a, (hresult a).mpr h, rfl⟩) fun a h => ⟨a, (hresult a).mp h⟩

variable {R : Type}

namespace Tensor

/-- A tensor with other labels. -/
def Operand.relabel (f : Index → Index) (x : Operand R) : Operand R :=
  ⟨x.tensor, x.labels.map f⟩

theorem Operand.legs_relabel (x : Operand R) :
    SameOutcome (fun legs legs' => legs' = legs.map (Prod.map f id)) x.legs (x.relabel f).legs := by
  simp only [legs, relabel, List.length_map]
  split_ifs
  · exact .ok (List.zip_map_left ..)
  · exact .error _ _

theorem operandLegs_relabel (hf : Function.Injective f) (operands : List (Operand R)) :
    SameOutcome (fun legs legs' => legs' = legs.map (Prod.map f id)) (operandLegs operands)
      (operandLegs (operands.map (Operand.relabel f))) := by
  have hlegs :
      List.Forall₂ (fun x y => SameOutcome (fun legs legs' => legs' = legs.map (Prod.map f id))
      x.legs y.legs) operands (operands.map (Operand.relabel f)) := by
    rw [List.forall₂_map_right_iff]
    exact List.forall₂_same.mpr fun x _ => x.legs_relabel
  rw [operandLegs, operandLegs]
  refine (SameOutcome.mapM hlegs).bind fun all all' hall => ?_
  have hflatten : all'.flatten = all.flatten.map (Prod.map f id) := by
    induction hall with
    | nil => rfl
    | cons hlegs _ ih => rw [List.flatten_cons, List.flatten_cons, List.map_append, hlegs, ih]
  rw [hflatten]
  exact (checkLabels_relabel hf all.flatten).bind fun _ _ _ => .ok rfl

end Tensor

theorem Value.toOperand_relabel (v : Value R) (labels : List Index) :
    SameOutcome (fun x y => y = x.relabel f) (v.toOperand labels) (v.toOperand (labels.map f)) := by
  rw [toOperand, toOperand]
  refine .bind_self v.toTensor fun t => ?_
  exact (Tensor.Operand.legs_relabel (f := f) ⟨t, labels⟩).bind fun _ _ _ => .ok rfl

variable [Arithmetic R]

theorem Grid.contractGrids_relabel (hf : Function.Injective f) (operands : List (Grid.Labelled R))
    (wanted : List Index) :
    contractGrids (operands.map fun x => ⟨x.grid, x.labels.map f⟩)
      (wanted.map f) = contractGrids operands wanted := by
  have hkinds : joinKinds (operands.map fun x => (⟨x.grid, x.labels.map f⟩ : Labelled R)) =
      joinKinds operands := by
    rw [joinKinds, joinKinds, List.foldl_map]
  have hsizes : labelSizes (operands.map fun x => (⟨x.grid, x.labels.map f⟩ : Labelled R)) =
      (labelSizes operands).map (Prod.map f id) := by
    rw [labelSizes, labelSizes, List.flatMap_map, List.map_flatMap]
    simp only [List.zip_map_left]
  have hlabels : (operands.map fun x => (⟨x.grid, x.labels.map f⟩ : Labelled R)).flatMap
      Labelled.labels = (operands.flatMap Labelled.labels).map f := by
    rw [List.flatMap_map, List.map_flatMap]
  have hfind : ∀ (t : Table Index ℕ) (l : Index), Table.findD (t.map (Prod.map f id)) (f l) 0 =
      t.findD l 0 := by
    intro t l
    rw [Table.findD, Table.findD, Table.find?_relabel hf]
  simp only [contractGrids, hkinds, hsizes, hlabels, filter_notMem_map hf,
    distinct_map hf, List.map_map, Function.comp_def, hfind, List.zip_map_left, ← List.map_append,
    Labelled.entry]

/-- A contraction does not depend on what the labels are. -/
theorem Tensor.contractAll_relabel (hf : Function.Injective f) (operands : List (Operand R))
    (left right : List Index) : SameOutcome Eq (contractAll operands left right)
      (contractAll (operands.map (Operand.relabel f)) (left.map f) (right.map f)) := by
  have hgrids : (operands.map (Operand.relabel f)).map (fun x =>
      (⟨x.tensor.grid, x.labels⟩ : Grid.Labelled R)) =
      (operands.map fun x => (⟨x.tensor.grid, x.labels⟩ : Grid.Labelled R)).map
        fun x => ⟨x.grid, x.labels.map f⟩ := by
    rw [List.map_map, List.map_map]
    rfl
  rw [contractAll, contractAll]
  refine (operandLegs_relabel hf operands).bind fun legs legs' hlegs => ?_
  subst hlegs
  refine (resultLegs_relabel hf legs left right).bind fun result _ hresult => ?_
  subst hresult
  rw [hgrids, ← List.map_append, Grid.contractGrids_relabel hf]
  exact .refl (fun _ => rfl) _

/-! ## Values -/

namespace Evaluated

/-- The value with other labels. -/
def relabel (f : Index → Index) : Evaluated R → Evaluated R
  | labelled v labels => labelled v (labels.map f)
  | plain v => plain v

theorem scaled_relabel (v alpha : Value R) (labels : List Index) :
    SameOutcome (fun x y => y = x.relabel f) (scaled v labels alpha)
      (scaled v (labels.map f) alpha) := by
  rw [scaled, scaled]
  refine .bind_self v.toTensor fun t => .bind_self alpha.toScalar fun x => ?_
  exact .bind_self (t.scale x) fun u => .ok rfl

section

variable (hf : Function.Injective f)

include hf

/-- The product of two values with other labels. -/
theorem joined_relabel (a b : Value R) (labels others : List Index) :
    SameOutcome (fun x y => y = x.relabel f) (joined a labels b others)
      (joined a (labels.map f) b (others.map f)) := by
  simp only [joined, filter_notMem_map hf]
  refine (Value.toOperand_relabel a labels).bind fun s _ hs => ?_
  refine (Value.toOperand_relabel b others).bind fun t _ ht => ?_
  subst hs ht
  refine (Tensor.contractAll_relabel hf [s, t] _ _).bind fun u _ hu => ?_
  subst hu
  exact .ok (by rw [relabel, List.map_append])

/-- Multiplying values with other labels. -/
theorem mul_relabel (x y : Evaluated R) :
    SameOutcome (fun z z' => z' = z.relabel f) (x.mul y) ((x.relabel f).mul (y.relabel f)) := by
  match x, y with
  | plain a, plain b =>
    rw [relabel, relabel, mul]
    refine .bind_self a.toScalar fun s => .bind_self b.toScalar fun t => ?_
    exact .bind_self (Arithmetic.mulScalars s t) fun u => .ok rfl
  | plain a, labelled b labels => exact scaled_relabel b a labels
  | labelled a labels, plain b => exact scaled_relabel a b labels
  | labelled a labels, labelled b others => exact joined_relabel hf a b labels others

/-- The sign of a value with other labels. -/
theorem signed_relabel (sign : Sign) (x : Evaluated R) :
    SameOutcome (fun z z' => z' = z.relabel f) (x.signed sign) ((x.relabel f).signed sign) := by
  cases sign with
  | plus => exact .ok rfl
  | minus => exact mul_relabel hf (ofInt (-1)) x

/-- The sum of two labelled values with other labels. -/
theorem addLabelled_relabel (a b : Value R) (labels others : List Index)
    (sign : Sign) : SameOutcome (fun z z' => z' = z.relabel f) (addLabelled a labels sign b others)
      (addLabelled a (labels.map f) sign b (others.map f)) := by
  rw [addLabelled_eq, addLabelled_eq]
  refine .bind_self a.toTensor fun s => (Value.toOperand_relabel b others).bind fun t _ ht => ?_
  subst ht
  rw [← List.map_take, ← List.map_drop]
  refine (Tensor.contractAll_relabel hf [t] _ _).bind fun u _ hu => ?_
  subst hu
  exact .bind_self (signedTensor sign u) fun v => .bind_self (s.add v) fun w => .ok rfl

/-- Adding values with other labels. -/
theorem add_relabel (sign : Sign) (x y : Evaluated R) :
    SameOutcome (fun z z' => z' = z.relabel f) (x.add sign y)
      ((x.relabel f).add sign (y.relabel f)) := by
  match x, y with
  | plain a, plain b =>
    rw [relabel, relabel, add]
    refine .bind_self b.toScalar fun s => .bind_self (Arithmetic.mulScalars _ s) fun t => ?_
    exact .bind_self a.toScalar fun u => .bind_self (Arithmetic.addScalars u t) fun v => .ok rfl
  | labelled a labels, labelled b others => exact addLabelled_relabel hf a b labels others sign
  | plain a, labelled b others => exact .error _ _
  | labelled a labels, plain b => exact .error _ _

end

/-- The labels of a value. -/
def labels : Evaluated R → List Index
  | labelled _ labels => labels
  | plain _ => []

omit [Arithmetic R] in
theorem relabel_eq_self {x : Evaluated R} (h : ∀ l ∈ x.labels, f l = l) : x.relabel f = x := by
  cases x with
  | labelled v labels => exact congrArg (labelled v) ((List.map_congr_left h).trans labels.map_id')
  | plain v => rfl

theorem labels_signed {x z : Evaluated R} {sign : Sign} (h : x.signed sign = .ok z) :
    z.labels = x.labels := by
  rcases productForm_of_signed h with rfl | ⟨a, hform⟩
  · rfl
  · cases hform <;> rfl

theorem labels_add {x y z : Evaluated R} {sign : Sign} (h : x.add sign y = .ok z) :
    z.labels = x.labels := by
  cases sumForm_of_add h <;> rfl

end Evaluated

namespace Machine

open Diagram

variable (m : Machine R)

theorem evaluateRef_mapIndices (hf : Function.Injective f) (t : TensorRef) :
    SameOutcome (fun x y => y = x.relabel f) (m.evaluateRef t)
      (m.evaluateRef (t.mapIndices f)) := by
  have hindices : (t.mapIndices f).indices = t.indices.map f := (List.map_append ..).symm
  have hdistinct : (duplicates [] (t.mapIndices f).indices).isEmpty =
      (duplicates [] t.indices).isEmpty := by
    rw [Bool.eq_iff_iff, isEmpty_duplicates_iff, isEmpty_duplicates_iff, hindices,
      List.nodup_map_iff hf]
  have honce : ∀ side : List Index,
      (side.map f).filter (fun i => (t.mapIndices f).indices.count i = 1) =
      (side.filter fun i => t.indices.count i = 1).map f := by
    intro side
    rw [List.filter_map, hindices]
    simp only [Function.comp_def, List.count_map_of_injective _ _ hf]
  rw [evaluateRef, evaluateRef, hdistinct]
  refine .bind_self (m.referent t.object t.isAdjoint) fun value => ?_
  split_ifs
  · exact .ok (congrArg (Evaluated.labelled value) hindices)
  · dsimp only
    rw [show (t.mapIndices f).left = t.left.map f from rfl, show (t.mapIndices f).right =
      t.right.map f from rfl, honce, honce, hindices]
    refine (Value.toOperand_relabel value t.indices).bind fun x _ hx => ?_
    subst hx
    refine (Tensor.contractAll_relabel hf [x] _ _).bind fun u _ hu => ?_
    subst hu
    exact .ok (by rw [Evaluated.relabel, List.map_append])

/-- The value of a product has the labels that its indices are replaced by. -/
theorem evaluate_mapIndices (hf : Function.Injective f) {d : Diagram} (hd : d.IsMonomial) :
    SameOutcome (fun x y => y = x.relabel f) (m.evaluate d) (m.evaluate (d.mapIndices f)) := by
  induction hd with
  | @factor d hd =>
    cases hd with
    | ref t =>
      rw [mapIndices, mapRefs, evaluate, evaluate]
      exact m.evaluateRef_mapIndices hf t
    | scalar s =>
      change SameOutcome _ (m.evaluate (.scalar s)) (m.evaluate (.scalar s))
      rw [evaluate]
      cases s with
      | name text => exact .bind_self (m.namedScalar text) fun v => .ok rfl
      | number x => exact .ok rfl
    | conj name =>
      change SameOutcome _ (m.evaluate (.conj (.scalar (.name name))))
        (m.evaluate (.conj (.scalar (.name name))))
      rw [evaluate]
      refine .bind_self (m.evaluate (.scalar (.name name))) fun x => ?_
      cases x with
      | labelled v labels => exact .error _ _
      | plain v =>
        cases v with
        | tensor t => exact .error _ _
        | scalar y => exact .ok rfl
  | @pair a b ha hb iha ihb =>
    have hpair : (pair a b).mapIndices f = pair (a.mapIndices f) (b.mapIndices f) := by
      rw [mapIndices, mapRefs, mapRefsList]
      rfl
    rw [hpair, evaluate_pair, evaluate_pair]
    refine iha.bind fun x _ hx => ihb.bind fun y _ hy => ?_
    subst hx hy
    exact Evaluated.mul_relabel hf x y

end Machine

/-! ## Sums -/

/-- The sum of some terms, which is zero if there are none. -/
def Diagram.sumOf : List (Sign × Diagram) → Diagram
  | [] => scalar (.number (.integer 0))
  | z :: rest => sum z.1 z.2 rest

/-- The indices of all references. -/
def Diagram.indices (d : Diagram) : List Index :=
  d.tensors.flatMap TensorRef.indices

/-- A term whose indices are replaced by others, different ones by different ones, while some
stay. -/
def Diagram.RenamedTerm (stays : Index → Prop) (z z' : Sign × Diagram) : Prop :=
  z.2.IsMonomial ∧ ∃ f : Equiv.Perm Index, (∀ l, stays l → f l = l) ∧ z' = (z.1, z.2.mapIndices f)

namespace Machine

open Diagram

variable {m : Machine R}

theorem labels_evaluateTerms {v x : Evaluated R} {rest : List (Sign × Diagram)}
    (h : m.evaluateTerms v rest = .ok x) : x.labels = v.labels := by
  rw [evaluateTerms_eq] at h
  refine foldlM_keeps (P := fun w => w.labels = v.labels) (fun w hw z _ u hu => ?_) rfl h
  obtain ⟨y, -, hu⟩ := bind_eq_ok_iff.mp hu
  rw [Evaluated.labels_add hu, hw]

variable {stays : Index → Prop}

theorem evaluateTerms_congr {v x : Evaluated R} {rest rest' : List (Sign × Diagram)}
    (hrest : List.Forall₂ (RenamedTerm stays) rest rest') (hv : ∀ l ∈ v.labels, stays l)
    (h : m.evaluateTerms v rest = .ok x) : m.evaluateTerms v rest' = .ok x := by
  induction hrest generalizing v with
  | nil => exact h
  | @cons z z' rest rest' hz hrest ih =>
    obtain ⟨hmonomial, f, hstays, rfl⟩ := hz
    have hf := f.injective
    rw [evaluateTerms] at h ⊢
    obtain ⟨y, hy, h⟩ := bind_eq_ok_iff.mp h
    obtain ⟨w, hw, h⟩ := bind_eq_ok_iff.mp h
    have hwv := Evaluated.labels_add hw
    obtain ⟨_, hy', rfl⟩ := (m.evaluate_mapIndices hf hmonomial).exists_ok hy
    obtain ⟨_, hw', rfl⟩ := (Evaluated.add_relabel hf z.1 v y).exists_ok hw
    rw [Evaluated.relabel_eq_self fun l hl => hstays l (hv l hl)] at hw'
    rw [Evaluated.relabel_eq_self fun l hl => hstays l (hv l (hwv ▸ hl))] at hw'
    rw [hy', ok_bind, hw', ok_bind]
    exact ih (fun l hl => hv l (hwv ▸ hl)) h

/-- The terms of a sum can get other indices one by one, if the labels of the sum stay. -/
theorem evaluate_sum_congr {sign sign' : Sign} {a a' : Diagram} {rest rest' : List (Sign × Diagram)}
    (hterms : List.Forall₂ (RenamedTerm stays) ((sign, a) :: rest) ((sign', a') :: rest'))
    {x : Evaluated R} (hx : ∀ l ∈ x.labels, stays l) (h : m.evaluate (sum sign a rest) = .ok x) :
    m.evaluate (sum sign' a' rest') = .ok x := by
  obtain ⟨⟨hmonomial, f, hstays, hfirst⟩, hrest⟩ := List.forall₂_cons.mp hterms
  have hf := f.injective
  obtain ⟨rfl, rfl⟩ := Prod.mk.inj hfirst
  rw [evaluate_sum] at h ⊢
  obtain ⟨y, hy, h⟩ := bind_eq_ok_iff.mp h
  obtain ⟨v, hv, h⟩ := bind_eq_ok_iff.mp h
  have hxv := labels_evaluateTerms h
  have hvy := Evaluated.labels_signed hv
  obtain ⟨_, hy', rfl⟩ := (m.evaluate_mapIndices hf hmonomial).exists_ok hy
  rw [Evaluated.relabel_eq_self fun l hl => hstays l (hx l (by rwa [hxv, hvy]))] at hy'
  rw [hy', ok_bind, hv, ok_bind]
  exact evaluateTerms_congr hrest (fun l hl => hx l (by rwa [hxv])) h

end Machine

/-! ## Assignments of sums -/

section

variable {R : Type} [Arithmetic R] {m m' : Machine R}
  {sign sign' : Sign} {a a' : Diagram} {rest rest' : List (Sign × Diagram)} {isDefinition : Bool}

namespace Machine

open Diagram

/-- The labels of a value that is assigned to a scalar do not matter. -/
theorem assignScalar_relabel {s : Scalar} {rhs rhs' : Diagram} {x : Evaluated R} {f : Index → Index}
    (h : m.evaluate rhs = .ok x) (h' : m.evaluate rhs' = .ok (x.relabel f)) :
    m.assignScalar s rhs' = m.assignScalar s rhs := by
  rw [assignScalar, assignScalar, h, h']
  cases x <;> rfl

/-- The terms of a sum that is assigned to a scalar can get other indices. -/
theorem assign_scalar_congr {s : Scalar} {stays : Index → Prop}
    (hterms : List.Forall₂ (RenamedTerm stays) ((sign, a) :: rest) ((sign', a') :: rest'))
    (h : m.assign (scalar s) (sum sign a rest) isDefinition = .ok m') :
    m.assign (scalar s) (sum sign' a' rest') isDefinition = .ok m' := by
  change m.assignScalar s (sum sign a rest) = .ok m' at h
  change m.assignScalar s (sum sign' a' rest') = .ok m'
  obtain ⟨x, hx, hvalue⟩ := bind_eq_ok_iff.mp h
  rcases List.eq_nil_or_concat' rest with rfl | ⟨init, last, rfl⟩
  · -- the labels of a single term are not looked at
    obtain ⟨⟨hmonomial, f, -, hfirst⟩, hnil⟩ := List.forall₂_cons.mp hterms
    have hf := f.injective
    obtain ⟨rfl, rfl⟩ := Prod.mk.inj hfirst
    obtain rfl := List.forall₂_nil_left_iff.mp hnil
    have hsame : SameOutcome (fun x y => y = x.relabel f) (m.evaluate (sum sign' a []))
        (m.evaluate (sum sign' (a.mapIndices f) [])) := by
      rw [evaluate_sum_first, evaluate_sum_first]
      refine (m.evaluate_mapIndices hf hmonomial).bind fun y _ hy => ?_
      subst hy
      exact Evaluated.signed_relabel hf sign' y
    obtain ⟨_, hx', rfl⟩ := hsame.exists_ok hx
    rw [assignScalar_relabel hx hx', h]
  · -- several terms have a label for each of their legs, and there are none
    have hlabels : ∀ l ∈ x.labels, stays l := by
      cases x with
      | plain v => exact fun l hl => absurd hl List.not_mem_nil
      | labelled v labels =>
        rw [evaluate_sum_next] at hx
        obtain ⟨y, -, hx⟩ := bind_eq_ok_iff.mp hx
        obtain ⟨z, -, hx⟩ := bind_eq_ok_iff.mp hx
        cases Evaluated.sumForm_of_add hx with
        | @tensors _ _ t _ _ _ hcount =>
          obtain ⟨t', ht', hvalue⟩ := bind_eq_ok_iff.mp hvalue
          obtain rfl := Except.ok.inj ht'
          obtain ⟨y, hy, -⟩ := bind_eq_ok_iff.mp hvalue
          have hnone : t.legs.count = 0 := by
            by_contra hne
            rw [Tensor.toScalar, if_neg hne] at hy
            cases hy
          rw [Evaluated.labels, List.eq_nil_of_length_eq_zero (hcount.trans hnone)]
          exact fun l hl => absurd hl List.not_mem_nil
    have hx' := evaluate_sum_congr hterms hlabels hx
    have hself : x.relabel id = x := Evaluated.relabel_eq_self fun _ _ => rfl
    rw [assignScalar_relabel (f := id) hx (hself.symm ▸ hx'), h]

variable [CommRing R] [StarRing R] [Arithmetic.IsExact R]

/-- A sum that is assigned to a tensor has the labels of the left hand side, in some order. -/
theorem exists_of_arrangedValue_sum {t : TensorRef} {w : Tensor R}
    (h : m.arrangedValue (ref t) (sum sign a rest) isDefinition = .ok w) :
    ∃ s labels, m.evaluate (sum sign a rest) = .ok (.labelled (.tensor s) labels) ∧
      labels.length = s.legs.count ∧ t.indices.Perm labels ∧
        Tensor.contractAll [⟨s, labels⟩] t.left t.right = .ok w := by
  obtain ⟨operands, hsupplies, hcontract⟩ := arrangedValue_eq_ok_iff.mp h
  cases hsupplies with
  | @single rhs s labels hdirect hs hcount =>
    have hnd : labels.Nodup := isDistinct_of_evaluate hs
    have hlabels := (Tensor.contractAll_spec hcontract).labels_eq
    rw [Tensor.network_singleton, Tensor.contract_toArray hcount hnd,
      Tensor.labels_toArray hcount] at hlabels
    exact ⟨s, labels, hs, hcount, Multiset.coe_eq_coe.mp hlabels, hcontract⟩

/-- The terms of a sum that is assigned to a tensor can get other indices, if those of the left hand
side stay. -/
theorem assign_ref_congr {t : TensorRef}
    (hterms : List.Forall₂ (RenamedTerm (· ∈ t.indices)) ((sign, a) :: rest) ((sign', a') :: rest'))
    (h : m.assign (ref t) (sum sign a rest) isDefinition = .ok m') :
    m.assign (ref t) (sum sign' a' rest') isDefinition = .ok m' := by
  obtain ⟨w, hw, hm'⟩ := bind_eq_ok_iff.mp h
  obtain ⟨s, labels, hs, hcount, hperm, hcontract⟩ := exists_of_arrangedValue_sum hw
  have hmem : ∀ l ∈ labels, l ∈ t.indices := fun l hl => hperm.mem_iff.mpr hl
  have hvalue : m.arrangedValue (ref t) (sum sign' a' rest') isDefinition = .ok w := by
    refine arrangedValue_eq_ok_iff.mpr ⟨_, .single ?_ (evaluate_sum_congr hterms hmem hs) hcount,
      hcontract⟩
    rintro ⟨b, c, hpair, -⟩
    cases hpair
  exact bind_eq_ok_iff.mpr ⟨w, hvalue, hm'⟩

/-- The terms of a sum that is assigned can get other indices, if those of the left hand side
stay. -/
theorem assign_sumOf_congr {lhs : Diagram} (hlhs : lhs.IsAssignable)
    {terms terms' : List (Sign × Diagram)}
    (hterms : List.Forall₂ (RenamedTerm (· ∈ lhs.indices)) terms terms')
    (h : m.assign lhs (sumOf terms) isDefinition = .ok m') :
    m.assign lhs (sumOf terms') isDefinition = .ok m' := by
  cases hterms with
  | nil => exact h
  | @cons z z' rest rest' hz hrest =>
    cases hlhs with
    | ref t =>
      have hindices : ∀ l, l ∈ (ref t).indices ↔ l ∈ t.indices := by simp [indices, tensors]
      simp only [hindices] at hz hrest
      exact assign_ref_congr (.cons hz hrest) h
    | scalar s => exact assign_scalar_congr (.cons hz hrest) h

end Machine

end

end TensorDiagram
