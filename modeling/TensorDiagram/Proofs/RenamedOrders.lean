import TensorDiagram.Proofs.Lowering
import TensorDiagram.Proofs.Renaming

/-!
# Planar orders with other indices

Orders on a circle, planar contractions and the search for admissible orders compare indices and
never look into them. So they commute with a renaming: for lists on a circle this is said of any
injective map (`removeTraces_map`, `joinArcs?_map`), for expressions of the whole search
(`admissibleOrders_rename`).

The check for planarity and the lowering to binary contractions follow (`checkPlanar_rename`,
`lowerStatements_rename`).
-/

namespace TensorDiagram

/-! ## Lists on a circle -/

namespace Circle

/-- How a bipartition can fail. -/
theorem eq_of_bipartition_eq_error {legs : List ℕ} {n : ℕ} {e : Error}
    (h : bipartition legs n = .error e) : e = .notBipartition ∨ e = .precondition := by
  rw [bipartition] at h
  split_ifs at h
  · split at h
    · cases h
    · exact Or.inl (Except.error.inj h).symm
  · exact Or.inr (Except.error.inj h).symm

variable {α β : Type}

section

variable (f : α → β)

/-- Rotating a renamed list. -/
theorem rotateRight_map (n : ℕ) (xs : List α) :
    rotateRight n (xs.map f) = (rotateRight n xs).map f := by
  simp [rotateRight]

/-- The entries of a renamed list at some places. -/
theorem filterMap_getElem?_map (places : List ℕ) (indices : List α) :
    places.filterMap ((indices.map f)[·]?) = (places.filterMap (indices[·]?)).map f := by
  rw [List.map_filterMap]
  exact congrArg (List.filterMap · places) (funext fun n => List.getElem?_map ..)

/-- The contraction of tensors with other indices. -/
def PairContraction.map (c : PairContraction α) : PairContraction β :=
  ⟨c.openFirst.map f, c.openSecond.map f, c.joinedFirst.map f, c.joinedSecond.map f⟩

/-- The open indices of a renamed contraction. -/
@[simp] theorem PairContraction.openOrder_map (c : PairContraction α) :
    (c.map f).openOrder = c.openOrder.map f :=
  (List.map_append ..).symm

/-- Contractions of tensors that have no index in common. -/
theorem disjointContractions_map (first second : List α) :
    disjointContractions (first.map f) (second.map f) =
      (disjointContractions first second).map (PairContraction.map f) := by
  simp only [disjointContractions, List.length_map, List.map_flatMap, List.map_map, rotateRight_map]
  rfl

end

variable [DecidableEq α] [DecidableEq β] {f : α → β} (hf : Function.Injective f)

include hf

/-- Renamed lists are rotations if the lists are. -/
theorem isRotation_map (xs ys : List α) : isRotation (xs.map f) (ys.map f) = isRotation xs ys := by
  rw [Bool.eq_iff_iff, isRotation_iff, isRotation_iff]
  refine ⟨fun h => ?_, fun h => h.map f⟩
  obtain ⟨n, hn⟩ := h
  exact ⟨n, hf.list_map ((List.map_rotate ..).trans hn)⟩

/-- One round around a renamed circle. -/
theorem sweep_map (behind xs : List α) :
    sweep (behind.map f) (xs.map f) = (sweep behind xs).map f := by
  fun_induction sweep behind xs with
  | case1 behind => simp [sweep]
  | case2 behind x hbehind =>
    simp [sweep, ← List.map_reverse, hbehind]
  | case3 behind y rest hbehind =>
    simp [sweep, ← List.map_reverse, hbehind]
  | case4 behind x y rest hbehind hxy =>
    simp [sweep, ← List.map_reverse, hbehind, hf.eq_iff, hxy]
  | case5 behind x rest ih =>
    simpa [sweep] using ih
  | case6 behind x y rest hxy ih =>
    simpa [sweep, hf.eq_iff, hxy] using ih

/-- The planar traces of a renamed circle. -/
theorem removeTraces_map (xs : List α) : removeTraces (xs.map f) = (removeTraces xs).map f := by
  have hrepeat : ∀ n, Nat.repeat (sweep []) n (xs.map f) = (Nat.repeat (sweep []) n xs).map f := by
    intro n
    induction n with
    | zero => rfl
    | succ n ih =>
      rw [Nat.repeat, Nat.repeat, ih]
      exact sweep_map hf [] _
  rw [removeTraces, removeTraces, List.length_map, hrepeat]

/-- Renamed arcs fit if the arcs do. -/
theorem joinArcs?_map (joined1 open1 joined2 open2 : List α) :
    joinArcs? (joined1.map f) (open1.map f) (joined2.map f) (open2.map f) =
      (joinArcs? joined1 open1 joined2 open2).map (PairContraction.map f) := by
  simp only [joinArcs?, List.isEmpty_map, ← List.map_reverse, hf.list_map.eq_iff, isRotation_map hf]
  split_ifs <;> rfl

/-- A renamed entry is at the same place. -/
theorem idxOf_map (indices : List α) (i : α) : (indices.map f).idxOf (f i) = indices.idxOf i := by
  induction indices with
  | nil => rfl
  | cons j indices ih =>
    rw [List.map_cons, List.idxOf_cons, List.idxOf_cons, ih]
    simp only [beq_iff_eq, hf.eq_iff, cond_eq_ite]

end Circle

namespace Renaming

variable (r : Renaming)

/-- The arcs of a renamed circle. -/
theorem splitShared_map (shared indices : List Index) :
    Circle.splitShared (shared.map r.index) (indices.map r.index) =
      r.carry (Option.map (Prod.map (List.map r.index) (List.map r.index)))
        (Circle.splitShared shared indices) := by
  have hlegs : (shared.map r.index).map (fun i => (indices.map r.index).idxOf i) =
      shared.map fun i => indices.idxOf i := by
    rw [List.map_map]
    exact List.map_congr_left fun i _ => Circle.idxOf_map r.index_injective indices i
  rw [Circle.splitShared, Circle.splitShared, hlegs, List.length_map]
  rcases h : Circle.bipartition (shared.map fun i => indices.idxOf i) indices.length with e
    | ⟨joined, free⟩
  · rcases Circle.eq_of_bipartition_eq_error h with rfl | rfl <;> rfl
  · simp only [Circle.filterMap_getElem?_map]
    rfl

/-- The planar contractions of two tensors with other indices. -/
theorem complements_map (first second : List Index) :
    Circle.complements (first.map r.index) (second.map r.index) =
      r.carry (List.map (Circle.PairContraction.map r.index))
        (Circle.complements first second) := by
  have hshared : (first.map r.index).filter (· ∈ second.map r.index) =
      (first.filter (· ∈ second)).map r.index := by
    rw [List.filter_map]
    simp only [Function.comp_def, List.mem_map_of_injective r.index_injective]
  simp only [Circle.complements, List.isEmpty_map, hshared]
  split_ifs
  · rfl
  · exact congrArg Except.ok (Circle.disjointContractions_map ..)
  · rw [splitShared_map]
    refine r.carry_bind _ fun split1 => ?_
    rcases split1 with _ | ⟨joined1, open1⟩
    · rfl
    · dsimp only [Option.map_some, Prod.map_apply]
      rw [splitShared_map]
      refine r.carry_bind _ fun split2 => ?_
      rcases split2 with _ | ⟨joined2, open2⟩
      · rfl
      · dsimp only [Option.map_some, Prod.map_apply]
        rw [Circle.joinArcs?_map r.index_injective]
        cases Circle.joinArcs? joined1 open1 joined2 open2 <;> rfl

/-- The lists of indices of a list, all renamed. -/
abbrev orders : List (List Index) → List (List Index) :=
  List.map (List.map r.index)

/-- Renaming makes no duplicates. -/
theorem isEmpty_duplicates_map (xs : List Index) :
    (duplicates [] (xs.map r.index)).isEmpty = (duplicates [] xs).isEmpty := by
  rw [Bool.eq_iff_iff, isEmpty_duplicates_iff, isEmpty_duplicates_iff,
    List.nodup_map_iff r.index_injective]

end Renaming

variable (r : Renaming)

/-! ## Admissible orders -/

/-- The order of a renamed reference. -/
theorem TensorRef.admissibleOrders_rename (t : TensorRef) :
    (t.rename r).admissibleOrders = r.orders t.admissibleOrders := by
  simp only [admissibleOrders, cyclicOrder_rename, Circle.removeTraces_map r.index_injective,
    r.isEmpty_duplicates_map]
  split_ifs <;> rfl

namespace Diagram

/-- The orders of a renamed scalar or general tensor. -/
theorem simpleOrders?_rename (d : Diagram) :
    (d.rename r).simpleOrders? = d.simpleOrders?.map r.orders := by
  rw [simpleOrders?, simpleOrders?, isScalar_rename, general?_rename]
  split_ifs
  · rfl
  · rw [Option.map_map, Option.map_map]
    exact congrArg (Option.map · _) (funext fun g => g.term.admissibleOrders_rename r)

/-- The renamed orders that are rotations of others. -/
theorem commonOrders_rename (orders others : List (List Index)) :
    commonOrders (r.orders orders) (r.orders others) = r.orders (commonOrders orders others) := by
  rw [commonOrders, commonOrders, List.filter_map]
  simp only [Function.comp_def, List.any_map, Circle.isRotation_map r.index_injective]

/-- The pairs of renamed orders. -/
theorem pairs_rename (first second : List (List Index)) :
    ((r.orders first).flatMap fun i => (r.orders second).map fun j => (i, j)) =
      (first.flatMap fun i => second.map fun j => (i, j)).map (Prod.map (List.map r.index)
        (List.map r.index)) := by
  simp only [List.flatMap_map, List.map_flatMap, List.map_map]
  rfl

/-- The orders of a product of renamed factors. -/
theorem productOrders_rename (first second : List (List Index)) :
    productOrders (r.orders first)
      (r.orders second) = r.carry r.orders (productOrders first second) := by
  rw [productOrders, productOrders, pairs_rename, r.carry_mapM _ fun p _ =>
    r.complements_map p.1 p.2]
  refine r.carry_bind _ fun contractions => congrArg Except.ok ?_
  rw [← List.map_flatten, Renaming.orders, List.map_map, List.map_map]
  exact congrArg (List.map · _) (funext fun c => c.openOrder_map r.index)

/-- The orders that all terms of a sum admit, if those of each term are renamed. -/
theorem termOrders_rename {ps : List (Sign × Diagram)}
    (h : ∀ p ∈ ps, (p.2.rename r).admissibleOrders = r.carry r.orders p.2.admissibleOrders)
    (orders : List (List Index)) :
    termOrders (r.orders orders) (renameTerms r ps) = r.carry r.orders (termOrders orders ps) := by
  induction ps generalizing orders with
  | nil => rfl
  | cons p ps ih =>
    obtain ⟨hp, hps⟩ := List.forall_mem_cons.mp h
    rw [renameTerms, termOrders, termOrders, hp]
    refine r.carry_bind _ fun others => ?_
    rw [commonOrders_rename]
    exact ih hps _

/-- The admissible orders of an expression with other indices. -/
theorem admissibleOrders_rename (d : Diagram) :
    (d.rename r).admissibleOrders = r.carry r.orders d.admissibleOrders := by
  induction d with
  | sum sign a rest iha ih =>
    have hsimple := simpleOrders?_rename r (sum sign a rest)
    rw [rename] at hsimple ⊢
    rw [admissibleOrders, admissibleOrders, hsimple]
    rcases simpleOrders? (sum sign a rest) with _ | orders
    · dsimp only [Option.map_none]
      rw [iha]
      exact r.carry_bind _ (termOrders_rename r ih)
    · rfl
  | product a b rest iha ihb =>
    have hsimple := simpleOrders?_rename r (product a b rest)
    rw [rename] at hsimple ⊢
    cases rest with
    | nil =>
      rw [renameList] at hsimple ⊢
      rw [admissibleOrders, admissibleOrders, hsimple]
      rcases simpleOrders? (product a b []) with _ | orders
      · dsimp only [Option.map_none]
        rw [iha]
        refine r.carry_bind _ fun first => ?_
        rw [List.isEmpty_map]
        split_ifs
        · rfl
        · rw [ihb]
          exact r.carry_bind _ fun second => productOrders_rename r first second
      · rfl
    | cons c rest =>
      rw [renameList] at hsimple ⊢
      rw [admissibleOrders, admissibleOrders, hsimple]
      · rcases simpleOrders? (product a b (c :: rest)) with _ | orders <;> rfl
      all_goals simp
  | conj a =>
    rw [rename, admissibleOrders, admissibleOrders, ← rename, simpleOrders?_rename]
    · cases simpleOrders? (conj a) <;> rfl
    all_goals simp
  | ref t => exact congrArg Except.ok (t.admissibleOrders_rename r)
  | _ => rfl

/-! ## The check for planarity -/

/-- The order of a renamed left hand side. -/
theorem lhsOrder_rename (lhs : Diagram) :
    (lhs.rename r).lhsOrder = r.carry (List.map r.index) lhs.lhsOrder := by
  rw [lhsOrder, lhsOrder, isTensor_rename]
  split_ifs
  · rw [admissibleOrders_rename]
    refine r.carry_bind _ fun orders => ?_
    rcases orders with _ | ⟨order, _ | ⟨next, orders⟩⟩ <;> rfl
  · rfl

/-- A renamed assignment is planar if the assignment is. -/
theorem checkAssignment_rename (lhs rhs : Diagram) (isDefinition : Bool) :
    checkAssignment (lhs.rename r) (rhs.rename r) isDefinition =
      r.carry id (checkAssignment lhs rhs isDefinition) := by
  rw [checkAssignment, checkAssignment, isTensor_rename]
  split_ifs
  · rw [lhsOrder_rename]
    refine r.carry_bind _ fun order => ?_
    rw [admissibleOrders_rename]
    refine r.carry_bind _ fun orders => ?_
    simp only [List.isEmpty_map, List.any_map, Function.comp_def,
      Circle.isRotation_map r.index_injective]
    split_ifs <;> rfl
  · rfl

/-- The check for planarity compares indices only. -/
theorem checkPlanar_rename (d : Diagram) : (d.rename r).checkPlanar = r.carry id d.checkPlanar := by
  induction d with
  | assign lhs rhs isDefinition => exact checkAssignment_rename r lhs rhs isDefinition
  | block statements ih =>
    rw [rename, checkPlanar, checkPlanar]
    induction statements with
    | nil => rfl
    | cons d rest ihrest =>
      obtain ⟨hd, hrest⟩ := List.forall_mem_cons.mp ih
      rw [renameList, checkPlanarList, checkPlanarList, hd]
      exact r.carry_bind _ fun _ => ihrest hrest
  | control _ body ih => exact ih
  | _ => rfl

end Diagram

/-! ## Lowering -/

/-- The wanted order with other indices. -/
def WantedOrder.rename (target : WantedOrder) : WantedOrder :=
  ⟨target.left.map r.index, target.right.map r.index, target.isTemporary⟩

/-- The target that a renamed left hand side sets. -/
theorem WantedOrder.ofLhs_rename (lhs : Diagram) : ofLhs (lhs.rename r) = (ofLhs lhs).rename r := by
  cases lhs <;> rfl

/-- The cyclic order of a renamed target. -/
@[simp] theorem WantedOrder.cyclicOrder_rename (target : WantedOrder) :
    (target.rename r).cyclicOrder = target.cyclicOrder.map r.index := by
  simp [cyclicOrder, rename]

/-- The emission with other indices and names. -/
def Emission.rename (e : Emission) : Emission :=
  ⟨e.table.rename r, e.definitions.map (Diagram.rename r)⟩

/-- A temporary for a renamed expression has the same handle. -/
theorem Emission.define_rename (e : Emission) (rhs : Diagram) (left right : List Index) :
    (e.rename r).define (rhs.rename r) (left.map r.index) (right.map r.index) =
      Prod.map (Diagram.rename r) (rename r) (e.define rhs left right) := by
  simp only [define, HandleTable.freshTemporary, rename]
  rw [show (none : Option ObjectRef) = Option.map r.object none from rfl, HandleTable.create_rename]
  simp [rename, Diagram.rename, TensorRef.rename, Renaming.object, Prod.map]

namespace Diagram

/-- The search finds the renamed contraction. -/
theorem firstMatch?_rename (wanted : List Index) (pairs : List (List Index × List Index)) :
    firstMatch? (wanted.map r.index) (pairs.map (Prod.map (List.map r.index) (List.map r.index))) =
      r.carry (Option.map (Circle.PairContraction.map r.index)) (firstMatch? wanted pairs) := by
  induction pairs with
  | nil => rfl
  | cons p pairs ih =>
    obtain ⟨i, j⟩ := p
    rw [List.map_cons, Prod.map_apply, firstMatch?, firstMatch?, r.complements_map]
    refine r.carry_bind _ fun contractions => ?_
    have hfind : (contractions.map (Circle.PairContraction.map r.index)).find?
        (fun c => Circle.isRotation c.openOrder (wanted.map r.index)) =
          (contractions.find? fun c => Circle.isRotation c.openOrder wanted).map
            (Circle.PairContraction.map r.index) := by
      rw [List.find?_map]
      simp only [Function.comp_def, Circle.PairContraction.openOrder_map,
        Circle.isRotation_map r.index_injective]
    rw [hfind]
    generalize contractions.find? _ = found
    cases found with
    | none => exact ih
    | some c => rfl

/-- Renamed factors are contracted in the same way. -/
theorem choosePair_rename (wanted : List Index) (a b : Diagram) :
    choosePair (wanted.map r.index) (a.rename r) (b.rename r) =
      r.carry (Circle.PairContraction.map r.index) (choosePair wanted a b) := by
  rw [choosePair, choosePair, admissibleOrders_rename]
  refine r.carry_bind _ fun firstOrders => ?_
  cases firstOrders with
  | nil => rfl
  | cons i firstOrders =>
    change (b.rename r).admissibleOrders >>= _ = r.carry _ (b.admissibleOrders >>= _)
    rw [admissibleOrders_rename]
    refine r.carry_bind _ fun secondOrders => ?_
    dsimp only
    rw [pairs_rename, firstMatch?_rename]
    refine r.carry_bind _ fun found => ?_
    cases found <;> rfl

/-- A renamed factor as a general tensor. -/
theorem asGeneral_rename (d : Diagram) (target : WantedOrder) (e : Emission) :
    (d.rename r).asGeneral (target.rename r) (e.rename r) =
      Prod.map (rename r) (Emission.rename r) (d.asGeneral target e) := by
  rw [asGeneral, asGeneral, isGeneral, isGeneral, general?_rename, Option.isSome_map]
  split_ifs
  · rfl
  · exact e.define_rename r d target.left target.right

/-- Renaming keeps inclusions of lists. -/
theorem allIn_rename (xs ys : List Index) :
    allIn (xs.map r.index) (ys.map r.index) = allIn xs ys := by
  simp only [allIn, List.all_map, Function.comp_def, List.mem_map_of_injective r.index_injective]

/-- The lowered diagram and what is emitted for it, with other indices and names. -/
abbrev renameLowered : Diagram × Emission → Diagram × Emission :=
  Prod.map (rename r) (Emission.rename r)

/-- A product of renamed factors becomes a temporary. -/
theorem define_pair_rename (a b : Diagram) (open1 open2 : List Index) (e : Emission) :
    (e.rename r).define (pair (a.rename r) (b.rename r)) (open1.map r.index)
        (open2.map r.index).reverse =
      renameLowered r (e.define (pair a b) open1 open2.reverse) := by
  rw [← List.map_reverse]
  exact e.define_rename r (pair a b) open1 open2.reverse

/-- How a contraction is settled depends on which indices are the same. -/
theorem settlePair_rename (target : WantedOrder) (a b : Diagram) (open1 open2 : List Index)
    (e : Emission) :
    settlePair (target.rename r) (a.rename r) (b.rename r) (open1.map r.index) (open2.map r.index)
      (e.rename r) = r.carry (renameLowered r) (settlePair target a b open1 open2 e) := by
  simp only [settlePair, define_pair_rename]
  simp only [WantedOrder.rename, ← List.map_reverse, r.index_injective.list_map.eq_iff]
  split_ifs <;> rfl

/-- Renamed factors are joined as the factors are. -/
theorem joinFactors_rename (target target1 target2 : WantedOrder) (a b : Diagram)
    (open1 open2 : List Index) (e : Emission) :
    joinFactors (target.rename r) (target1.rename r) (target2.rename r) (a.rename r) (b.rename r)
        (open1.map r.index) (open2.map r.index) (e.rename r) =
      r.carry (renameLowered r) (joinFactors target target1 target2 a b open1 open2 e) := by
  rw [joinFactors, joinFactors, isScalar_rename, isScalar_rename]
  by_cases hscalar : (a.isScalar || b.isScalar) = true
  · rw [if_pos hscalar, if_pos hscalar, define_pair_rename]
    change (if target.isTemporary then _ else _) = _
    split_ifs <;> rfl
  · rw [if_neg hscalar, if_neg hscalar, asGeneral_rename]
    rcases a.asGeneral target1 e with ⟨a, e⟩
    dsimp only [Prod.map_apply]
    rw [asGeneral_rename]
    rcases b.asGeneral target2 e with ⟨b, e⟩
    dsimp only [Prod.map_apply]
    rw [decompose_rename]
    refine r.carry_bind _ fun first => ?_
    rw [decompose_rename]
    refine r.carry_bind _ fun second => ?_
    have hswap : (allIn (open1.map r.index) (first.rename r).term.right &&
        allIn (open2.map r.index) (second.rename r).term.left) =
        (allIn open1 first.term.right && allIn open2 second.term.left) :=
      congrArg₂ _ (allIn_rename r open1 first.term.right) (allIn_rename r open2 second.term.left)
    rw [hswap]
    cases allIn open1 first.term.right && allIn open2 second.term.left with
    | true => exact settlePair_rename r target b a open2 open1 e
    | false => exact settlePair_rename r target a b open1 open2 e

/-- Renamed scalars and general tensors are lowered at once. -/
theorem lowerSimple?_rename (d : Diagram) (target : WantedOrder) (e : Emission) :
    (d.rename r).lowerSimple? (target.rename r)
    (e.rename r) = (d.lowerSimple? target e).map (renameLowered r) := by
  have hgeneral : ∀ g : GeneralTensor, (d.rename r).lowerGeneral (g.rename r).term (target.rename r)
      (e.rename r) = renameLowered r (d.lowerGeneral g.term target e) := by
    intro g
    have hindices : (g.rename r).term.indices = g.term.indices.map r.index :=
      g.term.indices_rename r
    rw [lowerGeneral, lowerGeneral, hindices, r.isEmpty_duplicates_map]
    split_ifs with h h'
    · exact e.define_rename r d target.left target.right
    · exact absurd h h'
    · exact absurd ‹_› h
    · rfl
  rw [lowerSimple?, lowerSimple?, isScalar_rename, general?_rename]
  split_ifs
  · rfl
  · rw [Option.map_map, Option.map_map]
    exact congrArg (Option.map · _) (funext hgeneral)

/-- Two factors that are lowered as their renamed ones are joined as those are. -/
theorem lowerFactors_rename {a b : Diagram}
    (ha : ∀ target e, (a.rename r).lower (target.rename r) (e.rename r) =
      r.carry (renameLowered r) (a.lower target e))
    (hb : ∀ target e, (b.rename r).lower (target.rename r) (e.rename r) =
      r.carry (renameLowered r) (b.lower target e))
    (target : WantedOrder) (e : Emission) (c : Circle.PairContraction Index) :
    lowerFactors (target.rename r) (e.rename r) (a.rename r) (b.rename r) (c.map r.index) =
      r.carry (renameLowered r) (lowerFactors target e a b c) := by
  have hfirst : (c.map r.index).firstTarget = c.firstTarget.rename r :=
    congrArg (WantedOrder.mk _ · true) (List.map_reverse ..).symm
  have hsecond : (c.map r.index).secondTarget = c.secondTarget.rename r :=
    congrArg (WantedOrder.mk _ · true) (List.map_reverse ..).symm
  rw [lowerFactors, lowerFactors, hfirst, hsecond, ha]
  refine r.carry_bind _ ?_
  rintro ⟨x, e⟩
  dsimp only [Prod.map_apply]
  rw [hb]
  exact r.carry_bind _ fun y => joinFactors_rename r target _ _ x y.1 _ _ y.2

/-- The terms of a sum are lowered as the renamed ones, if each of them is. -/
theorem lowerTerms_rename {ps : List (Sign × Diagram)} {target : WantedOrder}
    (h : ∀ p ∈ ps, ∀ e : Emission, (p.2.rename r).lower (target.rename r) (e.rename r) =
      r.carry (renameLowered r) (p.2.lower target e)) (e : Emission) :
    lowerTerms (target.rename r) (e.rename r) (renameTerms r ps) =
      r.carry (Prod.map (renameTerms r) (Emission.rename r)) (lowerTerms target e ps) := by
  induction ps generalizing e with
  | nil => rfl
  | cons p ps ih =>
    obtain ⟨hp, hps⟩ := List.forall_mem_cons.mp h
    rw [renameTerms, lowerTerms, lowerTerms, hp]
    refine r.carry_bind _ ?_
    rintro ⟨d, e⟩
    dsimp only [Prod.map_apply]
    rw [ih hps]
    exact r.carry_bind _ fun _ => rfl

/-- Lowering an expression with other indices and names. -/
theorem lower_rename (target : WantedOrder) (e : Emission) (d : Diagram) :
    (d.rename r).lower (target.rename r) (e.rename r) =
      r.carry (renameLowered r) (d.lower target e) := by
  induction d generalizing target e with
  | product a b rest iha ihb =>
    have hsimple := lowerSimple?_rename r (product a b rest) target e
    rw [rename] at hsimple ⊢
    cases rest with
    | nil =>
      rw [renameList] at hsimple ⊢
      rw [lower, lower, hsimple]
      rcases lowerSimple? (product a b []) target e with _ | result
      · dsimp only [Option.map_none]
        rw [WantedOrder.cyclicOrder_rename, choosePair_rename]
        refine r.carry_bind _ fun c => ?_
        have hswap : (allIn (c.map r.index).openSecond (target.rename r).left &&
            allIn (c.map r.index).openFirst (target.rename r).right) =
            (allIn c.openSecond target.left && allIn c.openFirst target.right) :=
          congrArg₂ _ (allIn_rename r c.openSecond target.left)
            (allIn_rename r c.openFirst target.right)
        rw [hswap]
        cases allIn c.openSecond target.left && allIn c.openFirst target.right with
        | true => exact lowerFactors_rename r ihb iha target e c.swap
        | false => exact lowerFactors_rename r iha ihb target e c
      · rfl
    | cons c rest =>
      rw [renameList] at hsimple ⊢
      rw [lower, lower, hsimple]
      · rcases lowerSimple? (product a b (c :: rest)) target e with _ | result <;> rfl
      all_goals simp
  | sum sign a rest iha ih =>
    have hsimple := lowerSimple?_rename r (sum sign a rest) target e
    rw [rename] at hsimple ⊢
    rw [lower, lower, hsimple]
    rcases lowerSimple? (sum sign a rest) target e with _ | result
    · dsimp only [Option.map_none]
      rw [iha]
      refine r.carry_bind _ ?_
      rintro ⟨a, e⟩
      dsimp only [Prod.map_apply]
      rw [lowerTerms_rename r fun p hp => ih p hp target]
      exact r.carry_bind _ fun _ => rfl
    · rfl
  | ref t =>
    rw [rename, lower, lower, ← rename, lowerSimple?_rename]
    · cases lowerSimple? (ref t) target e <;> rfl
    all_goals simp
  | conj a =>
    rw [rename, lower, lower, ← rename, lowerSimple?_rename]
    · cases lowerSimple? (conj a) target e <;> rfl
    all_goals simp
  | _ => rfl

/-- Lowering a renamed assignment. -/
theorem lowerAssignment_rename (table : HandleTable) (lhs rhs : Diagram) (isDefinition : Bool) :
    lowerAssignment (table.rename r) (lhs.rename r) (rhs.rename r) isDefinition =
      r.carry (Prod.map (rename r) (HandleTable.rename r))
        (lowerAssignment table lhs rhs isDefinition) := by
  rw [lowerAssignment, lowerAssignment, isTensor_rename, WantedOrder.ofLhs_rename]
  split_ifs
  · rw [show (⟨table.rename r, []⟩ : Emission) = Emission.rename r ⟨table, []⟩ from rfl,
      lower_rename]
    refine r.carry_bind _ fun result => congrArg Except.ok ?_
    simp [Emission.rename, rename]
  · rfl

/-- Lowering a renamed expression that stands alone. -/
theorem lowerExpression_rename (table : HandleTable) (d : Diagram) :
    (d.rename r).lowerExpression (table.rename r) =
      r.carry (Prod.map (rename r) (HandleTable.rename r)) (d.lowerExpression table) := by
  rw [lowerExpression, lowerExpression, isTensor_rename]
  split_ifs
  · rw [admissibleOrders_rename]
    refine r.carry_bind _ fun orders => ?_
    cases orders with
    | nil => rfl
    | cons order orders =>
      change (d.rename r).lower (WantedOrder.rename r ⟨order, [], true⟩)
        (Emission.rename r ⟨table, []⟩) >>=
        _ = r.carry _ (d.lower ⟨order, [], true⟩ ⟨table, []⟩ >>= _)
      rw [lower_rename]
      refine r.carry_bind _ fun result => congrArg Except.ok ?_
      simp [Emission.rename, rename]
  · rfl

/-- A step that goes through a list of statements and hands on the table commutes with renaming if
it does so for each statement. -/
theorem passList_rename {pass : HandleTable → Diagram → Except Error (Diagram × HandleTable)}
    (passList : HandleTable → List Diagram → Except Error (List Diagram × HandleTable))
    (hnil : ∀ table, passList table [] = .ok ([], table))
    (hcons : ∀ table d rest, passList table (d :: rest) =
      pass table d >>= fun p => passList p.2 rest >>= fun q => .ok (p.1 :: q.1, q.2))
    {ds : List Diagram} (h : ∀ d ∈ ds, ∀ table, pass (table.rename r) (d.rename r) =
      r.carry (Prod.map (rename r) (HandleTable.rename r)) (pass table d)) (table : HandleTable) :
    passList (table.rename r) (renameList r ds) =
      r.carry (Prod.map (renameList r) (HandleTable.rename r)) (passList table ds) := by
  induction ds generalizing table with
  | nil =>
    rw [renameList, hnil, hnil]
    rfl
  | cons d ds ih =>
    obtain ⟨hd, hds⟩ := List.forall_mem_cons.mp h
    rw [renameList, hcons, hcons, hd]
    refine r.carry_bind _ ?_
    rintro ⟨d, table⟩
    dsimp only [Prod.map_apply]
    rw [ih hds]
    exact r.carry_bind _ fun _ => rfl

/-- Lowering the statements of a program with other indices and names. -/
theorem lowerStatements_rename (table : HandleTable) (d : Diagram) :
    (d.rename r).lowerStatements (table.rename r) =
      r.carry (Prod.map (rename r) (HandleTable.rename r)) (d.lowerStatements table) := by
  induction d generalizing table with
  | assign lhs rhs isDefinition => exact lowerAssignment_rename r table lhs rhs isDefinition
  | block statements ih =>
    rw [rename, lowerStatements, lowerStatements,
      passList_rename r lowerStatementList (fun _ => rfl) (fun _ _ _ => rfl) ih]
    exact r.carry_bind _ fun _ => rfl
  | control kind body ih =>
    rw [rename, lowerStatements, lowerStatements, ih]
    exact r.carry_bind _ fun _ => rfl
  | ref t => exact lowerExpression_rename r table (ref t)
  | conj a => exact lowerExpression_rename r table (conj a)
  | sum sign a rest => exact lowerExpression_rename r table (sum sign a rest)
  | product a b rest => exact lowerExpression_rename r table (product a b rest)
  | _ => rfl

end Diagram

end TensorDiagram
