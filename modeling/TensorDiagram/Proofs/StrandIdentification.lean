import TensorDiagram.Proofs.ConnectedTerms

/-!
# Strands and representatives

The braidings of a statement are removed along an index map that is built strand by strand and
closed in the end (`strandMap`).  For braidings with two outputs and two inputs it always exists,
and it represents two indices by the same one exactly if a chain of strands connects them
(`Represents`).  So the classes of indices do not depend on the order of the braidings, although the
representatives may.

What is left of a statement is a matter of its bare form, in which the strands of all braidings are
forgotten (`Diagram.bare?`): the removal puts the representatives into the bare form
(`Diagram.IsStatement.toOption_removeBraidings`).  So two statements with the same bare form, whose
braidings are the same in another order, have the same result up to the choice of representatives.
-/

namespace TensorDiagram

variable {braidingName : String}
variable {t : TensorRef} {ts : List TensorRef}

/-- Related outcomes have related values. -/
theorem SameOutcome.toOption_eq {ε α β : Type} {F : α → β} {x : Except ε α} {y : Except ε β}
    (h : SameOutcome (fun a b => F a = b) x y) : y.toOption = x.toOption.map F := by
  cases h with
  | ok h => exact congrArg some h.symm
  | error => rfl

/-! ## The index map of some braidings -/

/-- The index that represents an index in a closed map. -/
def IndexMap.represent (closed : IndexMap) (i : Index) : Index :=
  Table.findD closed i i

/-- The closed index map along which the braidings among some references are removed. -/
def strandMap (braidingName : String) (outgoing : List Index) (ts : List TensorRef) :
    Except Error IndexMap := do
  let strands ← TensorRef.allStrands braidingName (ts.filter fun t => t.isBraiding braidingName)
  let map ← strands.foldlM (identify outgoing) []
  map.closure

namespace TensorRef

/-- A strand of one of the braidings among some references. -/
def IsCrossingStrand (braidingName : String) (ts : List TensorRef) (e : Strand) : Prop :=
  IsStrandOf braidingName (ts.filter fun t => t.isBraiding braidingName) e

/-- A chain of strands leads from one index to another, whichever way the strands run. -/
def Connects (braidingName : String) (ts : List TensorRef) : Index → Index → Prop :=
  Relation.EqvGen fun i j => IsCrossingStrand braidingName ts (i, j)

/-- Only the braidings matter for the strands. -/
theorem isCrossingStrand_congr {ts' : List TensorRef}
    (h : (ts'.filter fun t => t.isBraiding braidingName).Perm (ts.filter fun t =>
      t.isBraiding braidingName)) (e : Strand) : IsCrossingStrand braidingName ts' e ↔
          IsCrossingStrand braidingName ts e :=
  exists_congr fun _ => and_congr_left fun _ => h.mem_iff

/-- Only the braidings matter for what is connected. -/
theorem connects_congr {ts' : List TensorRef}
    (h : (ts'.filter fun t => t.isBraiding braidingName).Perm (ts.filter fun t =>
      t.isBraiding braidingName)) : Connects braidingName ts' = Connects braidingName ts := by
  rw [Connects, Connects]
  exact congrArg _ (funext₂ fun i j => propext (isCrossingStrand_congr h (i, j)))

/-- No chain leads away from an index that is on no strand. -/
theorem eq_of_connects {i j : Index}
    (hi : ∀ e, IsCrossingStrand braidingName ts e → i ≠ e.1 ∧ i ≠ e.2)
    (hij : Connects braidingName ts i j) : j = i :=
  (iff_of_eqvGen (P := (· = i)) (fun _ _ hab => iff_of_false (hi _ hab).1.symm (hi _ hab).2.symm)
    hij).mp rfl

/-- Once the ends of its strands are identified a braiding can be removed. -/
theorem checkRemovable_mapIndices {s : Strand × Strand} (hs : t.strands braidingName = .ok s)
    {r : Index → Index} (hfirst : r s.1.1 = r s.1.2) (hsecond : r s.2.1 = r s.2.2) :
    (t.mapIndices r).checkRemovable = .ok () := by
  rw [strands] at hs
  split at hs
  · rename_i l₁ l₂ r₁ r₂ hl hr
    rw [checkRemovable, mapIndices, hl, hr]
    split_ifs at hs <;> obtain rfl := Except.ok.inj hs
    · exact if_pos ⟨hfirst.symm, hsecond.symm⟩
    · exact if_pos ⟨hsecond.symm, hfirst.symm⟩
  · cases hs

/-- A reference without its strands, if it is a braiding: all its legs get the same index. -/
def withoutStrands (braidingName : String) (t : TensorRef) : TensorRef :=
  if t.isBraiding braidingName then t.mapIndices fun _ => .number 0 else t

/-- A braiding without strands is still one. -/
theorem isBraiding_withoutStrands (t : TensorRef) :
    (t.withoutStrands braidingName).isBraiding braidingName = t.isBraiding braidingName := by
  rw [withoutStrands]
  split_ifs <;> rfl

/-- It can be removed if the braiding can. -/
theorem checkRemovable_withoutStrands {r : Index → Index}
    (hbraiding : t.isBraiding braidingName = true) (h : (t.mapIndices r).checkRemovable = .ok ()) :
    (t.withoutStrands braidingName).checkRemovable = .ok () := by
  obtain ⟨a, b, hleft, hright⟩ := checkRemovable_eq_ok_iff.mp h
  obtain ⟨l₁, l₂, hl⟩ :=
    List.length_eq_two.mp (by simpa [mapIndices] using congrArg List.length hleft)
  obtain ⟨r₁, r₂, hr⟩ :=
    List.length_eq_two.mp (by simpa [mapIndices] using congrArg List.length hright)
  rw [withoutStrands, if_pos hbraiding, checkRemovable, mapIndices, hl, hr]
  exact if_pos ⟨rfl, rfl⟩

end TensorRef

open TensorRef

/-- Indices are represented along the strands of the braidings among some references. -/
structure Represents (braidingName : String) (outgoing : List Index) (ts : List TensorRef)
    (r : Index → Index) : Prop where
  /-- Two indices have one representative exactly if a chain of strands connects them. -/
  eq_iff : ∀ i j, r i = r j ↔ Connects braidingName ts i j
  /-- The representative of an index is connected with it. -/
  connects : ∀ i, Connects braidingName ts i (r i)
  /-- An index on no strand represents itself. -/
  eq_self : ∀ i, (∀ e, IsCrossingStrand braidingName ts e → i ≠ e.1 ∧ i ≠ e.2) → r i = i
  /-- An index that is connected with one of the left hand side is represented by one of the left
  hand side. -/
  outgoing_mem : ∀ i j, Connects braidingName ts i j → j ∈ outgoing → r i ∈ outgoing
  /-- With the representatives in place all braidings can be removed. -/
  removable : ∀ t ∈ ts, t.isBraiding braidingName = true → (t.mapIndices r).checkRemovable = .ok ()

section

variable {map closed : IndexMap} {outgoing : List Index} {strands : List Strand}
  (hmap : strands.foldlM (identify outgoing) [] = .ok map) (hclosed : map.closure = .ok closed)

include hmap hclosed

/-- A chain of strands leads from an index to its representative. -/
theorem IndexMap.eqvGen_represent (i : Index) :
    Relation.EqvGen (fun a b => (a, b) ∈ strands) i (closed.represent i) :=
  -- the class of an index is the same at both ends of every strand
  Quot.eqvGen_exact (findD_closure_eq hmap hclosed (f := Quot.mk fun a b => (a, b) ∈ strands)
    (fun _ hs => Quot.sound hs) i).symm

/-- Indices have one representative if strands connect them. -/
theorem IndexMap.represent_eq_iff (hends : ∀ s ∈ strands, closed.represent s.1 =
    closed.represent s.2) (i j : Index) :
    closed.represent i = closed.represent j ↔
      Relation.EqvGen (fun a b => (a, b) ∈ strands) i j := by
  constructor
  · intro hij
    exact .trans _ _ _ (eqvGen_represent hmap hclosed i)
      (hij ▸ .symm _ _ (eqvGen_represent hmap hclosed j))
  · intro hij
    exact (iff_of_eqvGen (P := fun k => closed.represent i = closed.represent k)
      (fun a b hab => by rw [hends (a, b) hab]) hij).mp rfl

end

/-- The index map of braidings with two outputs and two inputs exists, and it follows their
strands. -/
theorem exists_strandMap (outgoing : List Index)
    (hwell : ∀ t ∈ ts, t.isBraiding braidingName = true → t.left.length = 2 ∧ t.right.length = 2) :
    ∃ closed, strandMap braidingName outgoing ts = .ok closed ∧
      Represents braidingName outgoing ts closed.represent := by
  have hstrand : ∀ t ∈ ts, t.isBraiding braidingName = true → ∃ s, t.strands braidingName = .ok s :=
    fun t ht hbraiding => exists_strands_iff.mpr (hwell t ht hbraiding)
  obtain ⟨strands, hstrands⟩ : ∃ strands,
      allStrands braidingName (ts.filter fun t => t.isBraiding braidingName) = .ok strands :=
    exists_allStrands fun t ht => hstrand t (List.mem_filter.mp ht).1 (List.mem_filter.mp ht).2
  obtain ⟨map, closed, hmap, hclosed, hends⟩ := IndexMap.exists_closure outgoing strands
  have hmem := mem_iff_of_allStrands_eq_ok hstrands
  have hconnects : Relation.EqvGen (fun a b => (a, b) ∈ strands) = Connects braidingName ts :=
    congrArg _ (funext₂ fun a b => propext (hmem (a, b)))
  have heq : ∀ i j, closed.represent i = closed.represent j ↔ Connects braidingName ts i j :=
    fun i j => hconnects ▸ IndexMap.represent_eq_iff hmap hclosed hends i j
  have hself : ∀ i, Connects braidingName ts i (closed.represent i) :=
    fun i => hconnects ▸ IndexMap.eqvGen_represent hmap hclosed i
  refine ⟨closed, ?_, heq, hself, fun i hi => eq_of_connects hi (hself i), ?_, ?_⟩
  · rw [strandMap, hstrands, ok_bind, hmap, ok_bind, hclosed]
  · intro i j hij hj
    rw [(heq i j).mpr hij]
    exact IndexMap.findD_closure_mem hmap hclosed hj
  · intro t ht hbraiding
    obtain ⟨s, hs⟩ := hstrand t ht hbraiding
    have hend : ∀ e, e = s.1 ∨ e = s.2 → closed.represent e.1 = closed.represent e.2 := fun e he =>
      hends e ((hmem e).mpr ⟨t, List.mem_filter.mpr ⟨ht, hbraiding⟩, s, hs, he⟩)
    exact checkRemovable_mapIndices hs (hend s.1 (.inl rfl)) (hend s.2 (.inr rfl))

namespace Diagram

variable {d : Diagram}

/-! ## What remains for other references -/

/-- What is left of a conjugate. -/
theorem remainder_conj_of_none {a : Diagram} (h : (conj a).braidingTerm? braidingName = none) :
    (conj a).remainder braidingName =
      (wholeOf braidingName a (a.remainder braidingName) >>= fun x => .ok (some (conj x))) := by
  rw [remainder, h]
  rcases wholeOf braidingName a (a.remainder braidingName) <;> rfl

/-- The product of factors with other references. -/
theorem ofFactors?_map_mapRefs (φ : TensorRef → TensorRef) (ds : List Diagram) :
    ofFactors? (ds.map (mapRefs φ)) = (ofFactors? ds).map (mapRefs φ) := by
  rcases ds with _ | ⟨a, _ | ⟨b, rest⟩⟩
  · rfl
  · rfl
  · rw [ofFactors?, Option.map_some, mapRefs, mapRefsList_eq]
    rfl

section

variable {f g φ : TensorRef → TensorRef}
  (hf : ∀ t, (f t).isBraiding braidingName = t.isBraiding braidingName)
  (hg : ∀ t, (g t).isBraiding braidingName = t.isBraiding braidingName)

include hf hg

/-- A whole with other references. -/
theorem wholeOf_mapRefs (h : SameOutcome (fun o o' => o.map (mapRefs φ) = o')
      ((d.mapRefs f).remainder braidingName) ((d.mapRefs g).remainder braidingName)) :
    SameOutcome (fun x x' => x.mapRefs φ = x')
      (wholeOf braidingName (d.mapRefs f) ((d.mapRefs f).remainder braidingName))
      (wholeOf braidingName (d.mapRefs g) ((d.mapRefs g).remainder braidingName)) := by
  rw [wholeOf, wholeOf, braidingTerm?_mapRefs hf, braidingTerm?_mapRefs hg, Option.isSome_map,
    Option.isSome_map]
  split_ifs
  · exact .error _ _
  · refine h.bind fun x _ hx => ?_
    subst hx
    cases x with
    | none => exact .error _ _
    | some x => exact .ok rfl

/-- What is left of terms with other references. -/
theorem termRemainders_mapRefs {ps : List (Sign × Diagram)}
    (h : ∀ p ∈ ps, SameOutcome (fun o o' => o.map (mapRefs φ) = o')
      ((p.2.mapRefs f).remainder braidingName) ((p.2.mapRefs g).remainder braidingName)) :
    SameOutcome (fun zs zs' => mapRefsTerms φ zs = zs')
      (termRemainders braidingName (mapRefsTerms f ps))
      (termRemainders braidingName (mapRefsTerms g ps)) := by
  rw [termRemainders_eq, termRemainders_eq, mapRefsTerms_eq, mapRefsTerms_eq]
  refine (SameOutcome.mapM (s := fun z z' : Sign × Diagram => (z.1, z.2.mapRefs φ) = z') ?_).mono
    fun zs zs' hzs => ?_
  · rw [List.forall₂_map_left_iff, List.forall₂_map_right_iff, List.forall₂_same]
    intro p hp
    refine (wholeOf_mapRefs hf hg (h p hp)).bind fun x _ hx => ?_
    subst hx
    exact .ok rfl
  · rwa [mapRefsTerms_eq, ← List.forall₂_eq_eq_eq, List.forall₂_map_left_iff]

omit hf hg in
/-- What is left of factors with other references. -/
theorem factorRemainders_mapRefs {ds : List Diagram}
    (h : ∀ d ∈ ds, SameOutcome (fun o o' => o.map (mapRefs φ) = o')
      ((d.mapRefs f).remainder braidingName) ((d.mapRefs g).remainder braidingName)) :
    SameOutcome (fun xs ys => xs.map (mapRefs φ) = ys)
      (factorRemainders braidingName (mapRefsList f ds))
      (factorRemainders braidingName (mapRefsList g ds)) := by
  rw [factorRemainders_eq, factorRemainders_eq, mapRefsList_eq, mapRefsList_eq]
  refine (SameOutcome.mapM (s := fun o o' => o.map (mapRefs φ) = o') ?_).bind fun os os' hos => ?_
  · rwa [List.forall₂_map_left_iff, List.forall₂_map_right_iff, List.forall₂_same]
  · rw [← List.forall₂_map_left_iff, List.forall₂_eq_eq_eq] at hos
    subst hos
    refine .ok ?_
    rw [List.map_flatMap, List.flatMap_map]
    exact List.flatMap_congr fun o _ => Option.toList_map.symm

/-- References are replaced in two ways, after which the same braidings can be removed.  Then what
remains differs in the other references only. -/
theorem remainder_mapRefs (hd : d.IsFormula)
    (hremovable : ∀ t ∈ d.tensors, t.isBraiding braidingName = true →
      SameOutcome Eq (f t).checkRemovable (g t).checkRemovable)
    (hφ : ∀ t, ¬ t.isBraiding braidingName = true → φ (f t) = g t) :
    SameOutcome (fun o o' => o.map (mapRefs φ) = o') ((d.mapRefs f).remainder braidingName)
      ((d.mapRefs g).remainder braidingName) := by
  induction hd with
  | ref t =>
    rw [mapRefs, mapRefs, remainder, remainder, hf, hg]
    split_ifs with hbraiding
    · exact (hremovable t (List.mem_singleton_self t) hbraiding).bind fun _ _ _ => .ok rfl
    · refine .ok ?_
      rw [← hφ t hbraiding]
      rfl
  | scalar s => exact .ok rfl
  | @conj a _ ih =>
    have hterm := braidingTerm?_mapRefs hf (conj a)
    have hterm' := braidingTerm?_mapRefs hg (conj a)
    rw [mapRefs] at hterm hterm' ⊢
    rw [mapRefs, remainder, remainder, hterm, hterm']
    -- a braiding under a conjugation is dropped as a whole
    rcases hconj : (conj a).braidingTerm? braidingName with _ | t
    · refine (wholeOf_mapRefs hf hg (ih hremovable)).bind fun x _ hx => ?_
      subst hx
      exact .ok rfl
    · obtain ⟨heq | heq, hbraiding⟩ := eq_of_braidingTerm? hconj <;> cases heq
      exact (hremovable t (List.mem_singleton_self t) hbraiding).bind fun _ _ _ => .ok rfl
  | @sum sign a rest _ _ iha ihrest =>
    rw [tensors, termTensors_eq, List.forall_mem_append] at hremovable
    rw [mapRefs, mapRefs, remainder, remainder]
    refine (wholeOf_mapRefs hf hg (iha hremovable.1)).bind fun x _ hx => ?_
    have hterms := termRemainders_mapRefs hf hg (φ := φ) fun p hp => ihrest p hp fun t ht =>
      hremovable.2 t (List.mem_flatMap.mpr ⟨p, hp, ht⟩)
    refine hterms.bind fun zs _ hzs => ?_
    subst hx hzs
    exact .ok rfl
  | @product a b rest _ _ _ iha ihb ihrest =>
    rw [tensors, listTensors_eq, List.forall_mem_append, List.forall_mem_append] at hremovable
    rw [mapRefs, mapRefs, remainder, remainder]
    refine (iha hremovable.1.1).bind fun x _ hx => (ihb hremovable.1.2).bind fun y _ hy => ?_
    have hfactors := factorRemainders_mapRefs (φ := φ) fun d hd => ihrest d hd fun t ht =>
      hremovable.2 t (List.mem_flatMap.mpr ⟨d, hd, ht⟩)
    refine hfactors.bind fun xs _ hxs => ?_
    subst hx hy hxs
    refine .ok ?_
    rw [← ofFactors?_map_mapRefs, List.map_append, List.map_append, Option.toList_map,
      Option.toList_map]

end

/-- A braiding that is dropped is one of the references. -/
theorem of_braidingTerm? (h : d.braidingTerm? braidingName = some t) :
    t ∈ d.tensors ∧ t.isBraiding braidingName = true := by
  obtain ⟨rfl | rfl, hbraiding⟩ := eq_of_braidingTerm? h <;>
    exact ⟨List.mem_singleton_self t, hbraiding⟩

section

variable {d : Diagram} (hnone : ∀ t ∈ d.tensors, ¬ t.isBraiding braidingName = true)

include hnone

/-- Without braidings none is dropped. -/
theorem braidingTerm?_of_none : d.braidingTerm? braidingName = none :=
  Option.eq_none_iff_forall_ne_some.mpr fun t ht =>
    hnone t (of_braidingTerm? ht).1 (of_braidingTerm? ht).2

/-- Without braidings the whole is left. -/
theorem wholeOf_of_none (h : d.remainder braidingName = .ok (some d)) :
    wholeOf braidingName d (d.remainder braidingName) = .ok d := by
  rw [wholeOf, braidingTerm?_of_none hnone, h]
  rfl

/-- Nothing is dropped from a formula without braidings. -/
theorem remainder_of_none (hd : d.IsFormula) : d.remainder braidingName = .ok (some d) := by
  induction hd with
  | ref t => rw [remainder, if_neg (hnone t (List.mem_singleton_self t))]
  | scalar s => rfl
  | @conj a _ ih =>
    have ha : ∀ t ∈ a.tensors, ¬ t.isBraiding braidingName = true := hnone
    rw [remainder_conj_of_none (braidingTerm?_of_none hnone), wholeOf_of_none ha (ih ha)]
    rfl
  | @sum sign a rest _ _ iha ihrest =>
    rw [tensors, termTensors_eq, List.forall_mem_append] at hnone
    have hterms :
        (rest.mapM fun z => wholeOf braidingName z.2 (z.2.remainder braidingName) >>= fun d =>
        (.ok (z.1, d) : Except Error (Sign × Diagram))) = .ok rest := by
      rw [mapM_eq_ok_iff, List.forall₂_same]
      intro z hz
      have hz' := fun t ht => hnone.2 t (List.mem_flatMap.mpr ⟨z, hz, ht⟩)
      rw [wholeOf_of_none hz' (ihrest z hz hz')]
      rfl
    rw [remainder, wholeOf_of_none hnone.1 (iha hnone.1), termRemainders_eq, hterms]
    rfl
  | @product a b rest _ _ _ iha ihb ihrest =>
    rw [tensors, listTensors_eq, List.forall_mem_append, List.forall_mem_append] at hnone
    have hfactors : rest.mapM (remainder braidingName) = .ok (rest.map some) := by
      rw [mapM_eq_ok_iff, List.forall₂_map_right_iff, List.forall₂_same]
      exact fun x hx => ihrest x hx fun t ht => hnone.2 t (List.mem_flatMap.mpr ⟨x, hx, ht⟩)
    rw [remainder, iha hnone.1.1, ihb hnone.1.2, factorRemainders_eq, hfactors]
    simp only [ok_bind, List.flatMap_map, Option.toList_some, List.flatMap_singleton']
    rfl

end

/-! ## The bare form of a statement -/

/-- What is left of a statement without its braidings if the indices stay as they are. -/
def bare? (braidingName : String) : Diagram → Option Diagram
  | assign lhs rhs isDefinition =>
    ((assign lhs (rhs.mapRefs (withoutStrands braidingName)) isDefinition).purgeBraidings
      braidingName).toOption
  | d => ((d.mapRefs (withoutStrands braidingName)).purgeBraidings braidingName).toOption

/-- The bare form of an expression. -/
theorem bare?_of_isExpression (h : d.isExpression = true) : d.bare? braidingName =
    ((d.mapRefs (withoutStrands braidingName)).purgeBraidings braidingName).toOption := by
  cases d with
  | assign => cases h
  | _ => rfl

section

variable {r : Index → Index}

/-- With the representatives of indices in place, what is left is the bare form with these
representatives. -/
theorem IsFormula.wholeOf_mapIndices {d : Diagram} (hd : d.IsFormula)
    (hremovable : ∀ t ∈ d.tensors, t.isBraiding braidingName = true →
      (t.mapIndices r).checkRemovable = .ok ()) :
    SameOutcome (fun x x' => x.mapIndices r = x')
      (wholeOf braidingName (d.mapRefs (withoutStrands braidingName))
        ((d.mapRefs (withoutStrands braidingName)).remainder braidingName))
      (wholeOf braidingName (d.mapIndices r) ((d.mapIndices r).remainder braidingName)) := by
  have hkeeps : ∀ t : TensorRef, (t.mapIndices r).isBraiding braidingName =
    t.isBraiding braidingName := fun _ => rfl
  refine wholeOf_mapRefs isBraiding_withoutStrands hkeeps
    (remainder_mapRefs isBraiding_withoutStrands hkeeps hd ?_ ?_)
  · intro t ht hbraiding
    have hcheck := hremovable t ht hbraiding
    rw [checkRemovable_withoutStrands hbraiding hcheck, hcheck]
    exact .ok rfl
  · intro t hother
    rw [withoutStrands, if_neg hother]

variable {d : Diagram} {terms : List TensorRef}

/-- The terms of an assignment. -/
theorem statementTerms?_assign_eq_some_iff {lhs rhs : Diagram} {isDefinition : Bool} :
    (assign lhs rhs isDefinition).statementTerms? = some terms ↔
      rhs.isTensor = true ∧ rhs.tensors = terms := by
  rw [statementTerms?]
  split_ifs <;> simp_all

/-- The terms of an expression. -/
theorem statementTerms?_eq_some_iff (h : d.isExpression = true) :
    d.statementTerms? = some terms ↔ d.isTensor = true ∧ d.tensors = terms := by
  have heq : d.statementTerms? = if d.isTensor then some d.tensors else none := by
    cases d with
    | assign => cases h
    | _ => rfl
  rw [heq]
  split_ifs <;> simp_all

/-- Purging puts the representatives into the bare form. -/
theorem IsStatement.toOption_purgeBraidings (hd : d.IsStatement IsFormula)
    (hterms : d.statementTerms? = some terms)
    (hremovable : ∀ t ∈ terms, t.isBraiding braidingName = true →
      (t.mapIndices r).checkRemovable = .ok ()) :
    ((d.mapIndices r).purgeBraidings braidingName).toOption =
      (d.bare? braidingName).map (mapIndices r) := by
  cases hd with
  | @assign rhs lhs isDefinition hrhs =>
    obtain ⟨-, rfl⟩ := statementTerms?_assign_eq_some_iff.mp hterms
    rw [bare?]
    refine SameOutcome.toOption_eq ?_
    rw [purgeBraidings_assign, mapIndices, Diagram.mapRefs, purgeBraidings_assign]
    refine (hrhs.wholeOf_mapIndices hremovable).bind fun x _ hx => .ok ?_
    subst hx
    rw [mapIndices, Diagram.mapRefs]
    rfl
  | expression hexpression hd =>
    obtain ⟨-, rfl⟩ := (statementTerms?_eq_some_iff hexpression).mp hterms
    rw [bare?_of_isExpression hexpression]
    exact (hd.wholeOf_mapIndices hremovable).toOption_eq

/-- Without braidings nothing is purged. -/
theorem IsStatement.purgeBraidings_of_none (hd : d.IsStatement IsFormula)
    (hterms : d.statementTerms? = some terms)
    (hnone : ∀ t ∈ terms, ¬ t.isBraiding braidingName = true) :
    d.purgeBraidings braidingName = .ok d := by
  cases hd with
  | assign lhs isDefinition hrhs =>
    obtain ⟨-, rfl⟩ := statementTerms?_assign_eq_some_iff.mp hterms
    rw [purgeBraidings_assign, wholeOf_of_none hnone (remainder_of_none hnone hrhs), ok_bind]
  | expression hexpression hd =>
    obtain ⟨-, rfl⟩ := (statementTerms?_eq_some_iff hexpression).mp hterms
    exact wholeOf_of_none hnone (remainder_of_none hnone hd)

/-- The braidings of a statement are removed along its index map. -/
theorem removeBraidings_eq (hterms : d.statementTerms? = some terms) :
    d.removeBraidings braidingName = if terms.any (TensorRef.isBraiding braidingName) then
      strandMap braidingName d.outgoing terms >>= fun closed =>
        (d.mapIndices closed.represent).purgeBraidings braidingName
    else .ok d := by
  have hstatement : d.removeBraidings braidingName = d.removeStatement braidingName := by
    cases d with
    | block | «sealed» | control => cases hterms
    | _ => rfl
  have hempty : (terms.filter fun t => t.isBraiding braidingName).isEmpty = true ↔
      ¬ terms.any (TensorRef.isBraiding braidingName) = true := by simp
  rw [hstatement, removeStatement, hterms]
  by_cases hany : terms.any (TensorRef.isBraiding braidingName) = true
  · rw [if_pos hany, strandMap, bind_assoc]
    simp only [if_neg fun h => hempty.mp h hany, bind_assoc]
    rfl
  · simp only [if_pos (hempty.mpr hany), if_neg hany]
    rfl

/-- Removing the braidings of a statement puts the representatives of the indices into its bare
form. -/
theorem IsStatement.toOption_removeBraidings (hd : d.IsStatement IsFormula)
    (hterms : d.statementTerms? = some terms) {closed : IndexMap}
    (hclosed : strandMap braidingName d.outgoing terms = .ok closed)
    (hr : Represents braidingName d.outgoing terms closed.represent) :
    (d.removeBraidings braidingName).toOption =
      (d.bare? braidingName).map (mapIndices closed.represent) := by
  rw [removeBraidings_eq hterms]
  split_ifs with hany
  · rw [hclosed, ok_bind]
    exact hd.toOption_purgeBraidings hterms hr.removable
  · -- without braidings every index represents itself
    have hnone : ∀ t ∈ terms, ¬ t.isBraiding braidingName = true := by simpa using hany
    have hid : closed.represent = id := funext fun i => hr.eq_self i fun e he => by
      obtain ⟨t, ht, -⟩ := he
      exact absurd (List.mem_filter.mp ht).2 (hnone t (List.mem_filter.mp ht).1)
    rw [hid, ← hd.toOption_purgeBraidings hterms fun t ht hbraiding =>
      absurd hbraiding (hnone t ht), mapIndices_id]
    rw [hd.purgeBraidings_of_none hterms hnone]

end

/-- Indices are identified exactly along the strands of the braidings that are removed, so another
order of the braidings makes no difference but for the choice of representatives. -/
theorem removal_follows_strands {d : Diagram} {terms : List TensorRef}
    (hterms : d.statementTerms? = some terms)
    (hwell : ∀ t ∈ terms, t.isBraiding braidingName = true → t.left.length = 2 ∧
      t.right.length = 2) :
    ∃ closed : IndexMap, strandMap braidingName d.outgoing terms = .ok closed ∧
      Represents braidingName d.outgoing terms closed.represent ∧
      (d.removeBraidings braidingName = if terms.any (TensorRef.isBraiding braidingName) then
        (d.mapIndices closed.represent).purgeBraidings braidingName else .ok d) ∧
      ∀ (d' : Diagram) (terms' : List TensorRef), d'.statementTerms? = some terms' →
        (terms'.filter fun t => t.isBraiding braidingName).Perm (terms.filter fun t =>
          t.isBraiding braidingName) →
        ∃ closed' : IndexMap, strandMap braidingName d'.outgoing terms' = .ok closed' ∧
          (∀ i j, closed'.represent i = closed'.represent j ↔
            closed.represent i = closed.represent j) ∧
          (d.IsStatement IsFormula → d'.IsStatement IsFormula →
            d'.bare? braidingName = d.bare? braidingName →
            (d'.removeBraidings braidingName).toOption =
                (d.removeBraidings braidingName).toOption.map (mapIndices closed'.represent) ∧
              (d.removeBraidings braidingName).toOption =
                (d'.removeBraidings braidingName).toOption.map (mapIndices closed.represent)) := by
  obtain ⟨closed, hclosed, hr⟩ := exists_strandMap d.outgoing hwell
  refine ⟨closed, hclosed, hr, ?_, fun d' terms' hterms' hperm => ?_⟩
  · rw [removeBraidings_eq hterms, hclosed, ok_bind]
  have hwell' : ∀ t ∈ terms', t.isBraiding braidingName = true → t.left.length = 2 ∧
      t.right.length = 2 := by
    intro t ht hbraiding
    exact hwell t (List.mem_filter.mp (hperm.mem_iff.mp (List.mem_filter.mpr ⟨ht, hbraiding⟩))).1
      hbraiding
  obtain ⟨closed', hclosed', hr'⟩ := exists_strandMap d'.outgoing hwell'
  have hconnects := connects_congr hperm
  refine ⟨closed', hclosed', fun i j => ?_, fun hd hd' hbare => ?_⟩
  · rw [hr'.eq_iff, hr.eq_iff, hconnects]
  rw [hd.toOption_removeBraidings hterms hclosed hr,
    hd'.toOption_removeBraidings hterms' hclosed' hr', hbare]
  have hcomp : closed'.represent ∘ closed.represent = closed'.represent := funext fun i =>
    ((hr'.eq_iff _ _).mpr (hconnects ▸ hr.connects i)).symm
  have hcomp' : closed.represent ∘ closed'.represent = closed.represent := funext fun i =>
    ((hr.eq_iff _ _).mpr (hconnects ▸ hr'.connects i)).symm
  constructor <;> rw [Option.map_map] <;> refine congrArg (Option.map · _) (funext fun x => ?_)
  · rw [Function.comp_apply, mapIndices_mapIndices, hcomp]
  · rw [Function.comp_apply, mapIndices_mapIndices, hcomp']

/-- A strand that enters at `a` and a strand that enters at `c` leave at the same index. -/
def meetingStrands (swapped : Bool) : Diagram :=
  let first : TensorRef := ⟨.name "τ", [.name "u", .name "x"], [.name "a", .name "b"], false⟩
  let second : TensorRef := ⟨.name "τ", [.name "v", .name "x"], [.name "c", .name "d"], false⟩
  product (ref ⟨.name "A", [.name "a", .name "b"], [], false⟩)
    (ref (if swapped then second else first)) [ref (if swapped then first else second),
      ref ⟨.name "B", [.name "c"], [.name "u", .name "v", .name "d"], false⟩]

/-- The strands that meet make one class, whose representative depends on the order of the
braidings. -/
theorem removal_follows_meetingStrands : ∃ closed closed' : IndexMap,
    Represents "τ" [] (meetingStrands false).tensors closed.represent ∧
    (∀ i j, closed'.represent i = closed'.represent j ↔ closed.represent i = closed.represent j) ∧
    ((meetingStrands true).removeBraidings "τ").toOption =
      ((meetingStrands false).removeBraidings "τ").toOption.map (mapIndices closed'.represent) ∧
    (meetingStrands false).removeBraidings "τ" =
      .ok (pair (ref ⟨.name "A", [.name "c", .name "b"], [], false⟩)
      (ref ⟨.name "B", [.name "c"], [.name "b", .name "d", .name "d"], false⟩)) ∧
    (meetingStrands true).removeBraidings "τ" =
      .ok (pair (ref ⟨.name "A", [.name "a", .name "b"], [], false⟩)
      (ref ⟨.name "B", [.name "a"], [.name "b", .name "d", .name "d"], false⟩)) := by
  have hformula : ∀ swapped, (meetingStrands swapped).IsStatement IsFormula := fun swapped =>
    .expression rfl (.product (.ref _) (.ref _) (by simp [IsFormula.ref]))
  have hwell : ∀ t ∈ (meetingStrands false).tensors, t.isBraiding "τ" = true →
      t.left.length = 2 ∧ t.right.length = 2 := by
    decide
  obtain ⟨closed, -, hr, -, horder⟩ := removal_follows_strands (d := meetingStrands false) rfl hwell
  obtain ⟨closed', -, hclasses, hresult⟩ :=
    horder (meetingStrands true) (meetingStrands true).tensors rfl (by decide)
  exact ⟨closed, closed', hr, hclasses, (hresult (hformula _) (hformula _) rfl).1, rfl, rfl⟩

end Diagram

end TensorDiagram
