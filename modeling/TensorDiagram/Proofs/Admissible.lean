import TensorDiagram.Planar.Check
import TensorDiagram.Proofs.Arcs
import TensorDiagram.Proofs.Outcomes

/-!
# Admitted orders

A normal expression is built from references, scalars, conjugates of named scalars, sums and
products of two factors.  Its admissible orders always exist as a list, without repeated indices in
any of them (`IsNormal.exists_orders`).

`Admits d order` says that the free indices of `d` can stand in the cyclic order `order`.  The
search for orders lists one representative of each and compares them in a fixed way; up to rotation
it is described by one rule for each form of expression: a sum admits the orders that all terms
admit (`admits_sum_iff`), and a product the open orders of the planar contractions of orders of its
factors (`admits_pair_iff`).
-/

namespace TensorDiagram

/-- A list has no duplicates exactly if no entry is listed as one. -/
theorem isEmpty_duplicates_iff {α : Type} [DecidableEq α] {xs : List α} :
    (duplicates [] xs).isEmpty = true ↔ xs.Nodup := by
  rw [List.isEmpty_iff, List.eq_nil_iff_forall_not_mem, List.nodup_iff_count_le_one]
  refine forall_congr' fun x => ?_
  rw [mem_duplicates]
  simp only [List.not_mem_nil, not_false_eq_true, and_true]
  omega

/-- The legs around a reference are all its legs. -/
theorem TensorRef.cyclicOrder_perm (t : TensorRef) : t.cyclicOrder.Perm t.indices :=
  List.Perm.append_left t.left (List.reverse_perm t.right)

namespace Diagram

variable {a b d : Diagram} {rest : List (Sign × Diagram)} {sign : Sign} {orders : List (List Index)}
  {t : TensorRef} {g : GeneralTensor} {o order : List Index}

/-- Normal expressions: conjugation stands on named scalars only, and products have two factors. -/
inductive IsNormal : Diagram → Prop
  /-- A reference. -/
  | ref (t : TensorRef) : IsNormal (.ref t)
  /-- A scalar. -/
  | scalar (s : Scalar) : IsNormal (.scalar s)
  /-- The conjugate of a named scalar. -/
  | conj (name : String) : IsNormal (.conj (.scalar (.name name)))
  /-- A sum of normal terms. -/
  | sum {sign : Sign} {a : Diagram} {rest : List (Sign × Diagram)} (ha : IsNormal a)
      (hrest : ∀ p ∈ rest, IsNormal p.2) : IsNormal (.sum sign a rest)
  /-- A product of two normal factors. -/
  | pair {a b : Diagram} (ha : IsNormal a) (hb : IsNormal b) : IsNormal (.pair a b)

/-- The free indices of the diagram can stand in this cyclic order. -/
def Admits (d : Diagram) (order : List Index) : Prop :=
  ∃ orders, d.admissibleOrders = .ok orders ∧ ∃ o ∈ orders, o ~r order

/-- An order is admitted wherever it begins. -/
theorem Admits.rotated {order' : List Index} (h : d.Admits order) (hrot : order ~r order') :
    d.Admits order' := by
  obtain ⟨orders, horders, o, ho, ho'⟩ := h
  exact ⟨orders, horders, o, ho, ho'.trans hrot⟩

/-- Whether an order is admitted can be read off the list of orders. -/
theorem admits_iff (h : d.admissibleOrders = .ok orders) (order : List Index) : d.Admits order ↔
    ∃ o ∈ orders, o ~r order := by
  constructor
  · rintro ⟨orders', h', hex⟩
    rw [h] at h'
    obtain rfl := Except.ok.inj h'
    exact hex
  · exact fun hex => ⟨orders, h, hex⟩

/-! ## Scalars and general tensors -/

/-- Scalars and general tensors have the orders that their form gives at once. -/
theorem admissibleOrders_of_simple (h : d.simpleOrders? = some orders) :
    d.admissibleOrders = .ok orders := by
  cases d <;> simp only [admissibleOrders, h, Option.getD_some]

/-- The orders of a scalar. -/
theorem admissibleOrders_of_isScalar (h : d.isScalar = true) : d.admissibleOrders = .ok [[]] :=
  admissibleOrders_of_simple (by rw [simpleOrders?, if_pos h])

/-- The orders of a general tensor. -/
theorem admissibleOrders_of_general (h : d.general? = some g) (hs : ¬ d.isScalar = true) :
    d.admissibleOrders = .ok g.term.admissibleOrders :=
  admissibleOrders_of_simple (by rw [simpleOrders?, if_neg hs, h]; rfl)

/-- A scalar admits the order without indices only. -/
theorem admits_of_isScalar (h : d.isScalar = true) (order : List Index) :
    d.Admits order ↔ order = [] := by
  rw [admits_iff (admissibleOrders_of_isScalar h)]
  simp [eq_comm]

/-- A reference has at most one order, without repeated indices. -/
theorem nodup_of_mem_admissibleOrders (h : o ∈ t.admissibleOrders) : o.Nodup := by
  rw [TensorRef.admissibleOrders] at h
  split_ifs at h with hnd
  · rw [List.mem_singleton] at h
    exact h ▸ isEmpty_duplicates_iff.mp hnd
  · exact absurd h List.not_mem_nil

/-- A reference without repeated indices has the order in which its legs go around it. -/
theorem admissibleOrders_of_nodup (h : t.indices.Nodup) : t.admissibleOrders = [t.cyclicOrder] := by
  have hnd : t.cyclicOrder.Nodup := t.cyclicOrder_perm.nodup_iff.mpr h
  rw [TensorRef.admissibleOrders, Circle.removeTraces_eq_of_nodup hnd,
    if_pos (isEmpty_duplicates_iff.mpr hnd)]

/-- A scalar is not a general tensor. -/
theorem IsNormal.general?_eq_none (hd : d.IsNormal) (hs : d.isScalar = true) :
    d.general? = none := by
  induction hd with
  | ref t => simp [isScalar] at hs
  | scalar s => rfl
  | conj name => rfl
  | sum ha hrest iha ihrest => rfl
  | @pair a b ha hb iha ihb =>
    have hboth : a.isScalar = true ∧ b.isScalar = true := by simpa [isScalar, allScalar] using hs
    simp [general?, iha hboth.1, ihb hboth.2, factorParts?, hboth.1, hboth.2, generalFactors?,
      FactorParts.append, FactorParts.single?]

/-- A general tensor is not a scalar. -/
theorem IsNormal.not_isScalar (hd : d.IsNormal) (hg : d.general? = some g) :
    ¬ d.isScalar = true := by
  intro hs
  rw [hd.general?_eq_none hs] at hg
  cases hg

/-- A pair that is a general tensor has one scalar factor, and its reference is that of the
other. -/
theorem general?_pair_cases (h : (pair a b).general? = some g) :
    (∃ g', a.general? = some g' ∧ b.isScalar = true ∧ b.general? = none ∧ g.term = g'.term) ∨
      (∃ g', b.general? = some g' ∧ a.isScalar = true ∧ a.general? = none ∧ g.term = g'.term) := by
  rcases hga : a.general? with _ | ga <;> rcases hgb : b.general? with _ | gb
  · by_cases hsa : a.isScalar = true <;> by_cases hsb : b.isScalar = true <;>
      simp [general?, hga, hgb, hsa, hsb, factorParts?, generalFactors?, FactorParts.append,
        FactorParts.single?] at h
  · by_cases hsa : a.isScalar = true
    · have hg : ⟨gb.term, a :: gb.scalars⟩ = g := by
        simpa [general?, hga, hgb, hsa, factorParts?, generalFactors?, FactorParts.append,
          FactorParts.single?] using h
      exact Or.inr ⟨gb, rfl, hsa, rfl, by rw [← hg]⟩
    · simp [general?, hga, hgb, hsa, factorParts?] at h
  · by_cases hsb : b.isScalar = true
    · have hg : ⟨ga.term, ga.scalars ++ [b]⟩ = g := by
        simpa [general?, hga, hgb, hsb, factorParts?, generalFactors?, FactorParts.append,
          FactorParts.single?] using h
      exact Or.inl ⟨ga, rfl, hsb, rfl, by rw [← hg]⟩
    · simp [general?, hga, hgb, hsb, factorParts?] at h
  · simp [general?, hga, hgb, factorParts?, generalFactors?, FactorParts.append,
      FactorParts.single?] at h

/-- The orders of a general tensor are without repeated indices. -/
theorem nodup_of_mem_simpleOrders (h : d.simpleOrders? = some orders) : ∀ o ∈ orders, o.Nodup := by
  rw [simpleOrders?] at h
  split_ifs at h with hs
  · obtain rfl := Option.some.inj h
    simp
  · obtain ⟨g, -, rfl⟩ := Option.map_eq_some_iff.mp h
    exact fun o ho => nodup_of_mem_admissibleOrders ho

/-! ## Sums -/

/-- The orders that are left of some orders after all terms of a sum have been looked at. -/
theorem termOrders_spec (h : ∀ p ∈ rest, ∃ orders, p.2.admissibleOrders = .ok orders)
    (orders : List (List Index)) :
    ∃ left, termOrders orders rest = .ok left ∧
      ∀ o, o ∈ left ↔ o ∈ orders ∧ ∀ p ∈ rest, p.2.Admits o := by
  induction rest generalizing orders with
  | nil => exact ⟨orders, rfl, by simp⟩
  | cons p rest ih =>
    obtain ⟨others, hothers⟩ := h p (List.mem_cons_self ..)
    obtain ⟨left, hleft, hmem⟩ :=
      ih (fun q hq => h q (List.mem_cons_of_mem _ hq)) (commonOrders orders others)
    refine ⟨left, ?_, fun o => ?_⟩
    · rw [termOrders, hothers, ok_bind, hleft]
    · have hcommon : o ∈ commonOrders orders others ↔ o ∈ orders ∧ p.2.Admits o := by
        rw [commonOrders, List.mem_filter, List.any_eq_true, admits_iff hothers]
        simp only [Circle.isRotation_iff, List.isRotated_comm (l := o)]
      rw [hmem, hcommon, List.forall_mem_cons, and_assoc]

/-- The orders of a sum that is not a scalar. -/
theorem admissibleOrders_sum (hs : ¬ (sum sign a rest).isScalar = true) :
    (sum sign a rest).admissibleOrders = a.admissibleOrders >>= fun o => termOrders o rest := by
  have hnone : (sum sign a rest).simpleOrders? = none := by
    rw [simpleOrders?, if_neg hs]
    rfl
  rw [admissibleOrders, hnone]

/-- A product has tensor indices if one of its factors does. -/
theorem isTensor_product_iff {a b : Diagram} {rest : List Diagram} :
    (product a b rest).isTensor = true ↔ ∃ d ∈ a :: b :: rest, d.isTensor = true := by
  have hrest : someTensor rest = true ↔ ∃ d ∈ rest, d.isTensor = true := by
    induction rest with
    | nil => simp [someTensor]
    | cons d rest ih => simp [someTensor, ih]
  rw [isTensor, Bool.or_eq_true, Bool.or_eq_true, hrest, List.exists_mem_cons_iff,
    List.exists_mem_cons_iff, or_assoc]

/-- A product is a scalar if all its factors are. -/
theorem isScalar_product_iff {a b : Diagram} {rest : List Diagram} :
    (product a b rest).isScalar = true ↔ ∀ d ∈ a :: b :: rest, d.isScalar = true := by
  have hrest : allScalar rest = true ↔ ∀ d ∈ rest, d.isScalar = true := by
    induction rest with
    | nil => simp [allScalar]
    | cons d rest ih => simp [allScalar, ih]
  rw [isScalar, Bool.and_eq_true, Bool.and_eq_true, hrest, List.forall_mem_cons,
    List.forall_mem_cons, and_assoc]

/-- A sum is a scalar if all its terms are. -/
theorem isScalar_sum_iff :
    (sum sign a rest).isScalar = true ↔
      a.isScalar = true ∧ ∀ p ∈ rest, p.2.isScalar = true := by
  have hterms : allScalarTerms rest = true ↔ ∀ p ∈ rest, p.2.isScalar = true := by
    induction rest with
    | nil => simp [allScalarTerms]
    | cons p rest ih => simp [allScalarTerms, ih]
  rw [isScalar, Bool.and_eq_true, hterms]

/-- A sum has tensor indices if all its terms do. -/
theorem isTensor_sum_iff :
    (sum sign a rest).isTensor = true ↔ ∀ p ∈ (sign, a) :: rest, p.2.isTensor = true := by
  have hterms : allTensorTerms rest = true ↔ ∀ p ∈ rest, p.2.isTensor = true := by
    induction rest with
    | nil => simp [allTensorTerms]
    | cons p rest ih => simp [allTensorTerms, ih]
  rw [isTensor, Bool.and_eq_true, hterms, List.forall_mem_cons]

/-- A sum admits the orders that all its terms admit. -/
theorem admits_sum_iff (ha : ∃ orders, a.admissibleOrders = .ok orders)
    (hrest : ∀ p ∈ rest, ∃ orders, p.2.admissibleOrders = .ok orders) (order : List Index) :
    (sum sign a rest).Admits order ↔ a.Admits order ∧ ∀ p ∈ rest, p.2.Admits order := by
  by_cases hs : (sum sign a rest).isScalar = true
  · have hall := isScalar_sum_iff.mp hs
    rw [admits_of_isScalar hs, admits_of_isScalar hall.1]
    constructor
    · exact fun h => ⟨h, fun p hp => (admits_of_isScalar (hall.2 p hp) order).mpr h⟩
    · exact fun h => h.1
  · obtain ⟨orders, horders⟩ := ha
    obtain ⟨left, hleft, hmem⟩ := termOrders_spec hrest orders
    have hsum : (sum sign a rest).admissibleOrders = .ok left := by
      rw [admissibleOrders_sum hs, horders, ok_bind, hleft]
    rw [admits_iff hsum, admits_iff horders]
    constructor
    · rintro ⟨o, ho, hrot⟩
      obtain ⟨hfirst, hterms⟩ := (hmem o).mp ho
      exact ⟨⟨o, hfirst, hrot⟩, fun p hp => (hterms p hp).rotated hrot⟩
    · rintro ⟨⟨o, ho, hrot⟩, hterms⟩
      exact ⟨o, (hmem o).mpr ⟨ho, fun p hp => (hterms p hp).rotated hrot.symm⟩, hrot⟩

/-! ## Products -/

/-- The orders of a product are the open orders of the planar contractions of its factors. -/
theorem productOrders_spec {first second : List (List Index)} (h1 : ∀ i ∈ first, i.Nodup)
    (h2 : ∀ j ∈ second, j.Nodup) :
    ∃ orders, productOrders first second = .ok orders ∧
      (∀ o ∈ orders, ∃ i ∈ first, ∃ j ∈ second, ∃ c, Circle.IsPlanarPair i j c ∧
        o = c.openOrder) ∧
      (∀ i ∈ first, ∀ j ∈ second, ∀ c, Circle.IsPlanarPair i j c →
        ∃ o ∈ orders, o ~r c.openOrder) := by
  set pairs := first.flatMap fun i => second.map fun j => (i, j) with hpairs
  have hmem : ∀ p : List Index × List Index, p ∈ pairs ↔ p.1 ∈ first ∧ p.2 ∈ second := by
    rintro ⟨i, j⟩
    simp [hpairs]
  have hsome : ∀ p ∈ pairs, ∃ contractions, Circle.complements p.1 p.2 = .ok contractions := by
    intro p hp
    obtain ⟨hi, hj⟩ := (hmem p).mp hp
    obtain ⟨contractions, hc, -⟩ := Circle.complements_spec (h1 _ hi) (h2 _ hj)
    exact ⟨contractions, hc⟩
  obtain ⟨found, hfound⟩ := exists_mapM_eq_ok hsome
  refine ⟨found.flatten.map fun c => c.openOrder, ?_, ?_, ?_⟩
  · rw [productOrders]
    exact bind_eq_ok_iff.mpr ⟨found, hfound, rfl⟩
  · intro o ho
    obtain ⟨c, hc, rfl⟩ := List.mem_map.mp ho
    obtain ⟨contractions, hcs, hc⟩ := List.mem_flatten.mp hc
    obtain ⟨p, hp, hp'⟩ := (mem_of_mapM_eq_ok hfound).mp hcs
    obtain ⟨hi, hj⟩ := (hmem p).mp hp
    obtain ⟨contractions', hok, henum⟩ := Circle.complements_spec (h1 _ hi) (h2 _ hj)
    obtain rfl : contractions' = contractions := Except.ok.inj (hok.symm.trans hp')
    exact ⟨p.1, hi, p.2, hj, c, henum.sound c hc, rfl⟩
  · intro i hi j hj c hc
    obtain ⟨contractions, hok, henum⟩ := Circle.complements_spec (h1 _ hi) (h2 _ hj)
    have hcs : contractions ∈ found :=
      (mem_of_mapM_eq_ok hfound).mpr ⟨(i, j), (hmem (i, j)).mpr ⟨hi, hj⟩, hok⟩
    obtain ⟨c', hc', hrot⟩ := henum.complete c hc
    exact ⟨c'.openOrder, List.mem_map.mpr ⟨c', List.mem_flatten.mpr ⟨_, hcs, hc'⟩, rfl⟩, hrot⟩

/-- The orders of a product of two factors that is neither a scalar nor a general tensor. -/
theorem admissibleOrders_pair {first second : List (List Index)}
    (hsimple : (pair a b).simpleOrders? = none) (ha : a.admissibleOrders = .ok first)
    (hb : b.admissibleOrders = .ok second) :
    (pair a b).admissibleOrders = productOrders first second := by
  rw [admissibleOrders, hsimple, ha, ok_bind]
  by_cases hempty : first.isEmpty = true
  · rw [if_pos hempty, List.isEmpty_iff.mp hempty]
    rfl
  · rw [if_neg hempty, hb, ok_bind]

/-- A normal expression has a list of orders, without repeated indices in any of them. -/
theorem IsNormal.exists_orders (hd : d.IsNormal) :
    ∃ orders, d.admissibleOrders = .ok orders ∧ ∀ o ∈ orders, o.Nodup := by
  induction hd with
  | ref t => exact ⟨_, rfl, fun o ho => nodup_of_mem_admissibleOrders ho⟩
  | scalar s => exact ⟨_, admissibleOrders_of_isScalar rfl, by simp⟩
  | conj name => exact ⟨_, admissibleOrders_of_isScalar rfl, by simp⟩
  | @sum sign a rest ha hrest iha ihrest =>
    by_cases hs : (Diagram.sum sign a rest).isScalar = true
    · exact ⟨_, admissibleOrders_of_isScalar hs, by simp⟩
    · obtain ⟨orders, horders, hnd⟩ := iha
      have hterms : ∀ p ∈ rest, ∃ others, p.2.admissibleOrders = .ok others := by
        intro p hp
        obtain ⟨others, hothers, -⟩ := ihrest p hp
        exact ⟨others, hothers⟩
      obtain ⟨left, hleft, hmem⟩ := termOrders_spec hterms orders
      exact ⟨left, by rw [admissibleOrders_sum hs, horders, ok_bind, hleft],
        fun o ho => hnd o ((hmem o).mp ho).1⟩
  | @pair a b ha hb iha ihb =>
    rcases hsimple : (Diagram.pair a b).simpleOrders? with _ | orders
    · obtain ⟨first, hfirst, hnd1⟩ := iha
      obtain ⟨second, hsecond, hnd2⟩ := ihb
      obtain ⟨orders, horders, hsound, -⟩ := productOrders_spec hnd1 hnd2
      refine ⟨orders, by rw [admissibleOrders_pair hsimple hfirst hsecond, horders], fun o ho => ?_⟩
      obtain ⟨i, hi, j, hj, c, hc, rfl⟩ := hsound o ho
      exact hc.nodup_openOrder (hnd1 i hi) (hnd2 j hj)
    · exact ⟨orders, admissibleOrders_of_simple hsimple, nodup_of_mem_simpleOrders hsimple⟩

/-- An admitted order has no repeated indices. -/
theorem IsNormal.nodup_of_admits (hd : d.IsNormal) (h : d.Admits order) : order.Nodup := by
  obtain ⟨orders, horders, hnd⟩ := hd.exists_orders
  obtain ⟨o, ho, hrot⟩ := (admits_iff horders order).mp h
  exact hrot.nodup_iff.mp (hnd o ho)

/-- A factor of a normal product is normal. -/
theorem IsNormal.of_pair (h : (Diagram.pair a b).IsNormal) : a.IsNormal ∧ b.IsNormal := by
  cases h with
  | pair ha hb => exact ⟨ha, hb⟩

/-- The terms of a normal sum are normal. -/
theorem isNormal_sum_iff :
    (Diagram.sum sign a rest).IsNormal ↔ a.IsNormal ∧ ∀ p ∈ rest, p.2.IsNormal := by
  constructor
  · intro h
    cases h with
    | sum ha hrest => exact ⟨ha, hrest⟩
  · exact fun h => .sum h.1 h.2

/-- A normal sum with one term more. -/
theorem isNormal_sum_next {next : Sign} :
    (sum sign a (rest ++ [(next, d)])).IsNormal ↔ (sum sign a rest).IsNormal ∧ d.IsNormal := by
  simp only [isNormal_sum_iff, List.forall_mem_append, List.forall_mem_singleton, and_assoc]

/-- A sum admits the orders that all its terms admit. -/
theorem IsNormal.admits_sum_iff (h : (Diagram.sum sign a rest).IsNormal) (order : List Index) :
    (Diagram.sum sign a rest).Admits order ↔ a.Admits order ∧ ∀ p ∈ rest, p.2.Admits order := by
  obtain ⟨ha, hrest⟩ := isNormal_sum_iff.mp h
  refine Diagram.admits_sum_iff ?_ (fun p hp => ?_) order
  · exact ha.exists_orders.imp fun _ h => h.1
  · exact (hrest p hp).exists_orders.imp fun _ h => h.1

/-- A product that is a scalar or a general tensor has a scalar factor, and admits what the other
one admits. -/
theorem IsNormal.admits_simple_pair (ha : a.IsNormal) (hb : b.IsNormal)
    (h : (Diagram.pair a b).simpleOrders? = some orders) :
    (b.isScalar = true ∧ ∀ o, (Diagram.pair a b).Admits o ↔ a.Admits o) ∨
      (a.isScalar = true ∧ ∀ o, (Diagram.pair a b).Admits o ↔ b.Admits o) := by
  by_cases hs : (Diagram.pair a b).isScalar = true
  · have hboth : a.isScalar = true ∧ b.isScalar = true := by simpa [isScalar, allScalar] using hs
    exact Or.inl ⟨hboth.2, fun o => by rw [admits_of_isScalar hs, admits_of_isScalar hboth.1]⟩
  · rw [simpleOrders?, if_neg hs] at h
    obtain ⟨g, hg, -⟩ := Option.map_eq_some_iff.mp h
    have hpair := admissibleOrders_of_general hg hs
    -- a general tensor is no scalar, so the factor has the orders of its reference
    have hfactor : ∀ {d : Diagram} {g' : GeneralTensor}, d.IsNormal → d.general? = some g' →
        g.term = g'.term → ∀ o, (Diagram.pair a b).Admits o ↔ d.Admits o := by
      intro d g' hd hg' hterm o
      rw [admits_iff hpair, admits_iff (admissibleOrders_of_general hg' (hd.not_isScalar hg')),
        hterm]
    rcases general?_pair_cases hg with ⟨g', hg', hsb, -, hterm⟩ | ⟨g', hg', hsa, -, hterm⟩
    · exact Or.inl ⟨hsb, hfactor ha hg' hterm⟩
    · exact Or.inr ⟨hsa, hfactor hb hg' hterm⟩

/-- A product admits the open orders of the planar contractions of orders that its factors admit. -/
theorem IsNormal.admits_pair_iff (ha : a.IsNormal) (hb : b.IsNormal) (order : List Index) :
    (Diagram.pair a b).Admits order ↔ ∃ i j c, a.Admits i ∧ b.Admits j ∧
      Circle.IsPlanarPair i j c ∧ c.openOrder ~r order := by
  rcases hsimple : (Diagram.pair a b).simpleOrders? with _ | orders
  · obtain ⟨first, hfirst, hnd1⟩ := ha.exists_orders
    obtain ⟨second, hsecond, hnd2⟩ := hb.exists_orders
    obtain ⟨orders, horders, hsound, hcomplete⟩ := productOrders_spec hnd1 hnd2
    rw [← admissibleOrders_pair hsimple hfirst hsecond] at horders
    rw [admits_iff horders]
    constructor
    · rintro ⟨o, ho, hrot⟩
      obtain ⟨i, hi, j, hj, c, hc, rfl⟩ := hsound o ho
      exact ⟨i, j, c, ⟨first, hfirst, i, hi, List.IsRotated.refl i⟩,
        ⟨second, hsecond, j, hj, List.IsRotated.refl j⟩, hc, hrot⟩
    · rintro ⟨i, j, c, hi, hj, hc, hrot⟩
      obtain ⟨i', hi', hroti⟩ := (admits_iff hfirst i).mp hi
      obtain ⟨j', hj', hrotj⟩ := (admits_iff hsecond j).mp hj
      obtain ⟨o, ho, horder⟩ := hcomplete i' hi' j' hj' c (hc.rotated hroti hrotj)
      exact ⟨o, ho, horder.trans hrot⟩
  · rcases ha.admits_simple_pair hb hsimple with ⟨hs, hiff⟩ | ⟨hs, hiff⟩
    · rw [hiff]
      constructor
      · intro h
        exact ⟨order, [], ⟨order, [], [], []⟩, h, (admits_of_isScalar hs []).mpr rfl,
          Circle.isPlanarPair_of_nil (Or.inr rfl), by rw [Circle.PairContraction.openOrder,
            List.append_nil]⟩
      · rintro ⟨i, j, c, hi, hj, hc, hrot⟩
        obtain rfl := (admits_of_isScalar hs j).mp hj
        have hopen := hc.openOrder_of_nil (Or.inr rfl)
        rw [List.append_nil] at hopen
        exact hi.rotated (hopen.symm.trans hrot)
    · rw [hiff]
      constructor
      · intro h
        exact ⟨[], order, ⟨[], order, [], []⟩, (admits_of_isScalar hs []).mpr rfl, h,
          Circle.isPlanarPair_of_nil (Or.inl rfl), by rw [Circle.PairContraction.openOrder,
            List.nil_append]⟩
      · rintro ⟨i, j, c, hi, hj, hc, hrot⟩
        obtain rfl := (admits_of_isScalar hs i).mp hi
        have hopen := hc.openOrder_of_nil (Or.inl rfl)
        rw [List.nil_append] at hopen
        exact hj.rotated (hopen.symm.trans hrot)

/-! ## Open indices -/

/-- Whether an index occurs an odd number of times, so that it is left over when pairs are joined.
In a sum the first term is looked at. -/
def isOpen (i : Index) : Diagram → Bool
  | ref t => t.indices.count i % 2 = 1
  | sum _ a _ => a.isOpen i
  | product a b _ => a.isOpen i ^^ b.isOpen i
  | _ => false

/-- The order of a reference is that of its legs without planar traces. -/
theorem eq_removeTraces_of_mem_admissibleOrders (h : o ∈ t.admissibleOrders) :
    o = Circle.removeTraces t.cyclicOrder := by
  rw [TensorRef.admissibleOrders] at h
  split_ifs at h
  · exact List.mem_singleton.mp h
  · exact absurd h List.not_mem_nil

/-- The indices of a reference that are left after its planar traces are those that occur an odd
number of times. -/
theorem mem_iff_of_mem_admissibleOrders (h : o ∈ t.admissibleOrders) (i : Index) :
    i ∈ o ↔ t.indices.count i % 2 = 1 := by
  have hnd : o.Nodup := nodup_of_mem_admissibleOrders h
  have ho := eq_removeTraces_of_mem_admissibleOrders h
  obtain ⟨k, hk⟩ := Circle.exists_count_removeTraces t.cyclicOrder i
  rw [← ho] at hk
  have hcyclic : t.cyclicOrder.count i = t.indices.count i := t.cyclicOrder_perm.count_eq i
  have hle := List.nodup_iff_count_le_one.mp hnd i
  rw [← List.count_pos_iff]
  omega

/-- The indices of an admitted order are the open indices of the expression. -/
theorem IsNormal.mem_iff_isOpen (hd : d.IsNormal) (h : d.Admits order) (i : Index) : i ∈ order ↔
    d.isOpen i = true := by
  induction hd generalizing order with
  | ref t =>
    obtain ⟨o, ho, hrot⟩ := (admits_iff rfl order).mp h
    rw [← hrot.mem_iff, mem_iff_of_mem_admissibleOrders ho, isOpen, decide_eq_true_iff]
  | scalar s => simp [(admits_of_isScalar rfl order).mp h, isOpen]
  | conj name => simp [(admits_of_isScalar rfl order).mp h, isOpen]
  | @sum sign a rest ha hrest iha ihrest =>
    exact iha (((IsNormal.sum ha hrest).admits_sum_iff order).mp h).1
  | pair ha hb iha ihb =>
    obtain ⟨k, l, c, hk, hl, hc, hrot⟩ := (ha.admits_pair_iff hb _).mp h
    rw [← hrot.mem_iff, Circle.PairContraction.openOrder, List.mem_append, hc.mem_openFirst_iff,
      hc.mem_openSecond_iff, iha hk, ihb hl, isOpen, Bool.xor_iff_ne]
    cases isOpen i _ <;> cases isOpen i _ <;> simp

/-! ## Assignments -/

/-- An assignment is planar if the right hand side admits the order that the left hand side asks
for. -/
theorem IsNormal.checkAssignment_iff {lhs rhs : Diagram} {isDefinition : Bool} (hrhs : rhs.IsNormal)
    (htensor : rhs.isTensor = true) :
    checkAssignment lhs rhs isDefinition = .ok () ↔
      ∃ order, lhs.lhsOrder = .ok order ∧ rhs.Admits order := by
  obtain ⟨orders, horders, -⟩ := hrhs.exists_orders
  rw [checkAssignment, if_pos htensor, bind_eq_ok_iff]
  refine exists_congr fun order => and_congr_right fun _ => ?_
  rw [horders, ok_bind, admits_iff horders]
  have hany : (orders.any fun o => Circle.isRotation o order) = true ↔
      ∃ o ∈ orders, o ~r order := by
    simp only [List.any_eq_true, Circle.isRotation_iff]
  by_cases hex : ∃ o ∈ orders, o ~r order
  · have hne : ¬ orders.isEmpty = true := by
      obtain ⟨o, ho, -⟩ := hex
      rw [List.isEmpty_iff]
      exact List.ne_nil_of_mem ho
    rw [if_neg hne, hany.mpr hex]
    exact iff_of_true rfl hex
  · have hfalse : (orders.any fun o => Circle.isRotation o order) = false := by
      rw [← Bool.not_eq_true, hany]
      exact hex
    rw [hfalse, Bool.not_false, if_pos rfl]
    refine iff_of_false (fun h => ?_) hex
    split_ifs at h
    cases h

end Diagram

end TensorDiagram
