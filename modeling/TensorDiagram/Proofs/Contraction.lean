import TensorDiagram.Proofs.TensorArray

/-!
# The contraction of labelled tensors

`contractAll` contracts some tensors over the labels that appear twice.  It checks the labels, finds
the legs of the result, and computes its entries as sums of products.  Seen through arrays with
labelled legs it is the contraction of the product of the arrays: `contractAll_spec` says what a
success means, and `contractAll_of_checks` that it comes about whenever it can.
-/

namespace TensorDiagram

variable {left right : List Index} {legs : List LabelledLeg} {l : Index}

/-! ## Lists of labels -/

/-- The entries without repetitions are the entries. -/
theorem mem_distinct {α : Type} [DecidableEq α] {xs : List α} {x : α} :
    x ∈ distinct xs ↔ x ∈ xs := by
  induction xs with
  | nil => simp [distinct]
  | cons y rest ih =>
    simp only [distinct, List.mem_cons, List.mem_filter, ih, decide_eq_true_eq]
    by_cases h : x = y <;> simp [h]

theorem nodup_distinct {α : Type} [DecidableEq α] (xs : List α) : (distinct xs).Nodup := by
  induction xs with
  | nil => exact List.nodup_nil
  | cons y rest ih =>
    rw [distinct, List.nodup_cons]
    exact ⟨by simp, ih.filter _⟩

/-- The entries that occur once are those with this count. -/
theorem mem_once {α : Type} [DecidableEq α] {xs : List α} {x : α} : x ∈ once xs ↔
    xs.count x = 1 := by
  rw [once, List.mem_filter, decide_eq_true_eq]
  refine and_iff_right_of_imp fun h => ?_
  rw [← List.count_pos_iff, h]
  exact Nat.one_pos

theorem nodup_once {α : Type} [DecidableEq α] (xs : List α) : (once xs).Nodup := by
  rw [List.nodup_iff_count_le_one]
  intro x
  by_cases h : x ∈ once xs
  · rw [once, List.count_filter (by simpa using mem_once.mp h), mem_once.mp h]
  · rw [List.count_eq_zero_of_not_mem h]
    exact Nat.zero_le 1

theorem count_once {α : Type} [DecidableEq α] (xs : List α) (x : α) :
    (once xs).count x = if xs.count x = 1 then 1 else 0 := by
  split_ifs with h
  · exact List.count_eq_one_of_mem (nodup_once xs) (mem_once.mpr h)
  · exact List.count_eq_zero_of_not_mem (mt mem_once.mp h)

/-- A list has as many entries as, and the same as, a list without repetitions if it is a
reordering. -/
theorem perm_iff_sameEntries {xs ys : List Index} (hnd : ys.Nodup) :
    xs.length = ys.length ∧ sameEntries xs ys = true ↔ xs.Perm ys := by
  simp only [sameEntries, Bool.and_eq_true, List.all_eq_true, decide_eq_true_eq]
  constructor
  · rintro ⟨hlen, -, hsub⟩
    exact ((hnd.subperm hsub).perm_of_length_le hlen.le).symm
  · intro h
    exact ⟨h.length_eq, fun x hx => h.mem_iff.mp hx, fun x hx => h.mem_iff.mpr hx⟩

namespace Table

variable {κ α : Type} [DecidableEq κ]

/-- A value that is found stands in the table. -/
theorem mem_of_find?_eq_some {t : Table κ α} {key : κ} {value : α} (h : t.find? key = some value) :
    (key, value) ∈ t := by
  induction t with
  | nil => cases h
  | cons entry rest ih =>
    obtain ⟨k, v⟩ := entry
    rw [find?] at h
    split_ifs at h with hk
    · rw [Option.some.injEq] at h
      rw [hk, h]
      exact List.mem_cons_self ..
    · exact List.mem_cons_of_mem _ (ih h)

/-- A table is searched before the one behind it. -/
theorem find?_append (s t : Table κ α) (key : κ) :
    Table.find? key (s ++ t) = (s.find? key).or (t.find? key) := by
  induction s with
  | nil => rfl
  | cons entry rest ih =>
    obtain ⟨k, v⟩ := entry
    rw [List.cons_append, find?, find?]
    split_ifs with hk
    · rfl
    · exact ih

/-- The values of a table can be replaced before or after they are looked up. -/
theorem find?_map {β : Type} (t : Table κ α) (f : α → β) (key : κ) :
    Table.find? key (t.map fun entry => (entry.1, f entry.2)) = (t.find? key).map f := by
  induction t with
  | nil => rfl
  | cons entry rest ih =>
    obtain ⟨k, v⟩ := entry
    rw [List.map_cons, find?, find?]
    split_ifs with hk
    · rfl
    · exact ih

end Table

/-! ## Checking the labels -/

/-- The spaces of the legs with a label. -/
theorem spacesAt_coe (legs : List LabelledLeg) (l : Index) :
    LegArray.spacesAt (legs : Multiset LabelledLeg) l =
      ((legs.filter fun leg => leg.1 = l).map Prod.snd : List Space) := by
  rw [LegArray.spacesAt, Multiset.filter_coe, Multiset.map_coe]

/-- A label passes the check if it has no leg, one leg, or two legs that show dual spaces. -/
theorem checkLabel_eq_ok_iff :
    checkLabel legs l = .ok () ↔
      LegArray.spacesAt (legs : Multiset LabelledLeg) l = 0 ∨
        (∃ v, LegArray.spacesAt (legs : Multiset LabelledLeg) l = {v}) ∨
        ∃ v, LegArray.spacesAt (legs : Multiset LabelledLeg) l = {v, v.dual} := by
  rw [checkLabel, spacesAt_coe]
  generalize (legs.filter fun leg => leg.1 = l).map Prod.snd = spaces
  match spaces with
  | [] => exact iff_of_true rfl (Or.inl rfl)
  | [v] => exact iff_of_true rfl (Or.inr (Or.inl ⟨v, rfl⟩))
  | [v, w] =>
    constructor
    · intro h
      dsimp only at h
      split_ifs at h with hvw
      · refine Or.inr (Or.inr ⟨w, ?_⟩)
        rw [hvw]
        exact Multiset.coe_eq_coe.mpr (List.Perm.swap _ _ _)
    · rintro (h | ⟨u, h⟩ | ⟨u, h⟩)
      · cases congrArg Multiset.card h
      · cases congrArg Multiset.card h
      · have hperm : [v, w].Perm [u, u.dual] := Multiset.coe_eq_coe.mp h
        have hdual : v = w.dual := by
          have hmem := hperm.mem_iff.mp (List.mem_cons_self (a := v) (l := [w]))
          rcases List.mem_pair.mp hmem with rfl | rfl
          · rw [List.singleton_perm_singleton.mp ((List.perm_cons v).mp hperm), Space.dual_dual]
          · have hswap := hperm.trans (List.Perm.swap _ _ _)
            rw [List.singleton_perm_singleton.mp ((List.perm_cons u.dual).mp hswap)]
        exact if_pos hdual
  | u :: v :: w :: rest =>
    refine iff_of_false (by simp) ?_
    rintro (h | ⟨v', h⟩ | ⟨v', h⟩)
    all_goals cases congrArg Multiset.card h

/-- All labels must pass the check. -/
theorem checkLabels_eq_ok_iff_spacesAt :
    checkLabels legs = .ok () ↔ ∀ l,
      LegArray.spacesAt (legs : Multiset LabelledLeg) l = 0 ∨
        (∃ v, LegArray.spacesAt (legs : Multiset LabelledLeg) l = {v}) ∨
        ∃ v, LegArray.spacesAt (legs : Multiset LabelledLeg) l = {v, v.dual} := by
  rw [checkLabels, forM_eq_ok_iff]
  constructor
  · intro h l
    by_cases hl : l ∈ distinct (legs.map Prod.fst)
    · exact checkLabel_eq_ok_iff.mp (h l hl)
    · left
      rw [spacesAt_coe, List.filter_eq_nil_iff.mpr]
      · rfl
      · intro leg hleg hlabel
        rw [decide_eq_true_eq] at hlabel
        exact hl (mem_distinct.mpr (List.mem_map.mpr ⟨leg, hleg, hlabel⟩))
  · exact fun h l _ => checkLabel_eq_ok_iff.mpr (h l)

/-- All labels pass the check if the legs can be joined. -/
theorem checkLabels_eq_ok_iff {R : Type} [CommRing R] {N : LegArray R} (hN : N.legs = legs) :
    checkLabels legs = .ok () ↔ N.Joinable := by
  rw [checkLabels_eq_ok_iff_spacesAt, ← hN]
  rfl

/-! ## The legs of the result -/

/-- The space that a label has in a list of legs, or one without dimension. -/
def spaceIn (legs : List LabelledLeg) (l : Index) : Space :=
  (Table.find? l legs).getD ⟨0, false⟩

/-- A label of a leg has a space. -/
theorem find?_eq_some_spaceIn (h : l ∈ legs.map Prod.fst) :
    Table.find? l legs = some (spaceIn legs l) := by
  rcases hfind : Table.find? l legs with _ | v
  · exact absurd h ((Table.find?_eq_none_iff legs l).mp hfind)
  · rw [spaceIn, hfind, Option.getD_some]

theorem spaceIn_mem (h : l ∈ legs.map Prod.fst) : (l, spaceIn legs l) ∈ legs :=
  Table.mem_of_find?_eq_some (find?_eq_some_spaceIn h)

/-- A label has as many legs as it appears. -/
theorem length_filter_label (legs : List LabelledLeg) (l : Index) :
    (legs.filter fun leg => leg.1 = l).length = (legs.map Prod.fst).count l := by
  rw [List.count, List.countP_map, List.countP_eq_length_filter]
  rfl

/-- A leg whose label appears once has the space of the label. -/
theorem spaceIn_eq {leg : LabelledLeg} (hleg : leg ∈ legs)
    (hcount : (legs.map Prod.fst).count leg.1 = 1) : spaceIn legs leg.1 = leg.2 := by
  obtain ⟨x, hx⟩ := List.length_eq_one_iff.mp ((length_filter_label legs leg.1).trans hcount)
  have hmem : ∀ y ∈ legs, y.1 = leg.1 → y = x := by
    intro y hy hlabel
    rw [← List.mem_singleton, ← hx]
    exact List.mem_filter.mpr ⟨hy, decide_eq_true hlabel⟩
  exact congrArg Prod.snd ((hmem _ (spaceIn_mem (List.mem_map_of_mem hleg)) rfl).trans
    (hmem leg hleg rfl).symm)

section Joinable

variable {R : Type} [CommRing R] {N : LegArray R} {legs : List LabelledLeg}

theorem count_labels_eq (hN : N.legs = legs) (l : Index) :
    N.labels.count l = (legs.map Prod.fst).count l := by
  rw [LegArray.labels, hN, Multiset.map_coe, Multiset.coe_count]

/-- All legs with a label have the dimension of the space of the label. -/
theorem dim_spaceIn (hN : N.legs = legs) (hjoin : N.Joinable) {leg : LabelledLeg}
    (hleg : leg ∈ legs) : (spaceIn legs leg.1).dim = leg.2.dim := by
  have hmem : leg.2 ∈ LegArray.spacesAt N.legs leg.1 := by
    rw [hN]
    exact LegArray.mem_spacesAt.mpr hleg
  have hmem' : spaceIn legs leg.1 ∈ LegArray.spacesAt N.legs leg.1 := by
    rw [hN]
    exact LegArray.mem_spacesAt.mpr (spaceIn_mem (List.mem_map_of_mem hleg))
  rcases hjoin leg.1 with h | ⟨v, h⟩ | ⟨v, h⟩
  · rw [h] at hmem
    exact absurd hmem (Multiset.notMem_zero _)
  · rw [h, Multiset.mem_singleton] at hmem hmem'
    rw [hmem, hmem']
  · have hdim : ∀ {w : Space}, w ∈ ({v, v.dual} : Multiset Space) → w.dim = v.dim := by
      intro w hw
      rcases Multiset.mem_cons.mp hw with rfl | hw
      · rfl
      · rw [Multiset.mem_singleton.mp hw, Space.dim_dual]
    rw [h] at hmem hmem'
    rw [hdim hmem, hdim hmem']

/-- The labels of the result are those that appear once. -/
theorem resultLegs_eq_ok_iff {result : Legs} :
    resultLegs legs left right = .ok result ↔ (left ++ right).Perm (once (legs.map Prod.fst)) ∧
      result = ⟨left.map (spaceIn legs), (right.map (spaceIn legs)).map Space.dual⟩ := by
  have hfind : ∀ {side : List Index}, (∀ l ∈ side, l ∈ legs.map Prod.fst) →
      side.filterMap (fun l => Table.find? l legs) = side.map (spaceIn legs) := by
    intro side hside
    rw [← List.filterMap_eq_map]
    exact List.filterMap_congr fun l hl => find?_eq_some_spaceIn (hside l hl)
  rw [resultLegs, ← perm_iff_sameEntries (nodup_once _)]
  split_ifs with h
  · have hmem : ∀ l ∈ left ++ right, l ∈ legs.map Prod.fst := by
      intro l hl
      have honce := ((perm_iff_sameEntries (nodup_once _)).mp h).mem_iff.mp hl
      rw [← List.count_pos_iff, mem_once.mp honce]
      exact Nat.one_pos
    rw [hfind fun l hl => hmem l (List.mem_append_left _ hl),
      hfind fun l hl => hmem l (List.mem_append_right _ hl), Except.ok.injEq]
    exact ⟨fun hr => ⟨h, hr.symm⟩, fun hr => hr.2.symm⟩
  · exact iff_of_false (by simp) fun hr => h hr.1

/-- The legs of the contraction are those with a label that appears once. -/
theorem legs_contract_eq (hN : N.legs = legs) (hjoin : N.Joinable) {wanted : List Index}
    (h : wanted.Perm (once (legs.map Prod.fst))) :
    N.contract.legs = (wanted.map fun l => (l, spaceIn legs l) : List LabelledLeg) := by
  have honce : (once (legs.map Prod.fst)).map (fun l => (l, spaceIn legs l)) =
      legs.filter fun leg => (legs.map Prod.fst).count leg.1 = 1 := by
    rw [once, List.filter_map, List.map_map]
    refine (List.map_congr_left fun leg hleg => ?_).trans (List.map_id _)
    obtain ⟨hleg, hcount⟩ := List.mem_filter.mp hleg
    rw [Function.comp_apply, decide_eq_true_eq] at hcount
    rw [Function.comp_apply, spaceIn_eq hleg hcount, id_eq]
  have hfilter : N.contract.legs =
      (legs.filter fun leg => (legs.map Prod.fst).count leg.1 = 1 : List LabelledLeg) := by
    have hlegs : N.contract.legs = N.legs.filter (·.1 ∉ N.joined) := rfl
    rw [hlegs, hN, Multiset.filter_coe]
    refine congrArg _ (List.filter_congr fun leg hleg => ?_)
    have hle := hjoin.count_le leg.1
    have hpos : 0 < (legs.map Prod.fst).count leg.1 :=
      List.count_pos_iff.mpr (List.mem_map_of_mem hleg)
    rw [count_labels_eq hN] at hle
    rw [decide_eq_decide, LegArray.mem_joined, count_labels_eq hN]
    omega
  rw [hfilter, ← honce]
  exact Multiset.coe_eq_coe.mpr (h.map _).symm

end Joinable

/-! ## The entries of the result -/

namespace Tensor

variable {R : Type}
variable {operands : List (Operand R)} {t : Tensor R}

/-- Every leg of the operand has a label. -/
def Operand.IsProper (x : Operand R) : Prop :=
  x.labels.length = x.tensor.legs.count

/-- The labelled legs of some operands. -/
def allLegs (operands : List (Operand R)) : List LabelledLeg :=
  operands.flatMap fun x => x.tensor.labelledLegs x.labels

/-- The labels of the legs are those of the operands. -/
theorem map_fst_allLegs (h : ∀ x ∈ operands, x.IsProper) :
    (allLegs operands).map Prod.fst = operands.flatMap Operand.labels := by
  rw [allLegs, List.map_flatMap]
  exact List.flatMap_congr fun x hx => map_fst_labelledLegs (h x hx)

/-- The number of values of each label. -/
theorem labelSizes_eq (operands : List (Operand R)) :
    Grid.labelSizes (operands.map fun x => ⟨x.tensor.grid, x.labels⟩) =
      (allLegs operands).map fun leg => (leg.1, leg.2.dim.toNat) := by
  rw [Grid.labelSizes, allLegs, List.map_flatMap, List.flatMap_map]
  refine List.flatMap_congr fun x _ => ?_
  dsimp only
  rw [labelledLegs, shape_eq_map, List.zip_map_right]
  rfl

/-- The number of values of a label is the dimension of its space. -/
theorem findD_labelSizes (operands : List (Operand R)) (l : Index) :
    (Grid.labelSizes (operands.map fun x => ⟨x.tensor.grid, x.labels⟩)).findD l 0 =
      (spaceIn (allLegs operands) l).dim.toNat := by
  rw [labelSizes_eq, Table.findD, Table.find?_map (allLegs operands) (fun v => v.dim.toNat),
    spaceIn]
  cases Table.find? l (allLegs operands) <;> rfl

/-- The operands pass the checks if every leg has a label and all labels do. -/
theorem operandLegs_eq_ok_iff :
    operandLegs operands = .ok legs ↔
      (∀ x ∈ operands, x.IsProper) ∧ checkLabels (allLegs operands) = .ok () ∧
        legs = allLegs operands := by
  have hmap : ∀ all : List (List LabelledLeg), operands.mapM Operand.legs = .ok all ↔
      (∀ x ∈ operands, x.IsProper) ∧
      all = operands.map fun x => x.tensor.labelledLegs x.labels := by
    intro all
    have hlegs : ∀ (x : Operand R) (l : List LabelledLeg), x.legs = .ok l ↔
        x.IsProper ∧ l = x.tensor.labelledLegs x.labels := by
      intro x l
      rw [Operand.legs]
      split_ifs with h
      · rw [Except.ok.injEq]
        exact ⟨fun hl => ⟨h, hl.symm⟩, fun hl => hl.2.symm⟩
      · exact iff_of_false (by simp) fun hl => h hl.1
    rw [mapM_eq_ok_iff]
    simp only [hlegs]
    constructor
    · intro hall
      induction hall with
      | nil => exact ⟨by simp, rfl⟩
      | cons hx _ ih => exact ⟨List.forall_mem_cons.mpr ⟨hx.1, ih.1⟩, by rw [hx.2, ih.2]; rfl⟩
    · rintro ⟨hproper, rfl⟩
      rw [List.forall₂_map_right_iff]
      exact List.forall₂_same.mpr fun x hx => ⟨hproper x hx, rfl⟩
  have hflatten : (operands.map fun x => x.tensor.labelledLegs x.labels).flatten =
      allLegs operands := by
    rw [allLegs, List.flatMap_def]
  rw [operandLegs, bind_eq_ok_iff]
  constructor
  · rintro ⟨all, hall, hrest⟩
    obtain ⟨hproper, rfl⟩ := (hmap all).mp hall
    obtain ⟨⟨⟩, hcheck, hlegs⟩ := bind_eq_ok_iff.mp hrest
    rw [hflatten] at hcheck hlegs
    exact ⟨hproper, hcheck, (Except.ok.inj hlegs).symm⟩
  · rintro ⟨hproper, hcheck, rfl⟩
    refine ⟨_, (hmap _).mpr ⟨hproper, rfl⟩, ?_⟩
    rw [hflatten]
    exact bind_eq_ok_iff.mpr ⟨(), hcheck, rfl⟩

/-- The legs of the result of a contraction. -/
def routedLegs (operands : List (Operand R)) (left right : List Index) : Legs :=
  ⟨left.map (spaceIn (allLegs operands)), (right.map (spaceIn (allLegs operands))).map Space.dual⟩

theorem spaces_routedLegs (operands : List (Operand R)) (left right : List Index) :
    (routedLegs operands left right).spaces = (left ++ right).map (spaceIn (allLegs operands)) := by
  simp [routedLegs, Legs.spaces, Function.comp_def]

variable [Arithmetic R]

/-- The coordinates of the result run over the dimensions of its legs. -/
theorem shape_contractGrids (operands : List (Operand R))
    (hmem : ∀ l ∈ left ++ right, l ∈ (allLegs operands).map Prod.fst) :
    (Grid.contractGrids (operands.map fun x => ⟨x.tensor.grid, x.labels⟩) (left ++ right)).shape.map
        (fun (n : ℕ) => (n : ℤ)) = (routedLegs operands left right).shape := by
  have hgrid :
      (Grid.contractGrids (operands.map fun x => ⟨x.tensor.grid, x.labels⟩) (left ++ right)).shape =
      (left ++ right).map fun l => (spaceIn (allLegs operands) l).dim.toNat :=
    List.map_congr_left fun l _ => findD_labelSizes operands l
  have hlegs : (routedLegs operands left right).shape =
      (left ++ right).map fun l => (spaceIn (allLegs operands) l).dim := by
    simp [routedLegs, Legs.shape, Function.comp_def]
  rw [hgrid, hlegs, List.map_map]
  refine List.map_congr_left fun l hl => ?_
  obtain ⟨x, -, hleg⟩ := List.mem_flatMap.mp (spaceIn_mem (hmem l hl))
  exact Int.toNat_of_nonneg (dim_nonneg (List.of_mem_zip hleg).2)

/-- A contraction succeeds if the operands pass the checks and the labels of the result are those
that appear once. -/
theorem contractAll_eq_ok_iff : contractAll operands left right = .ok t ↔
      (∀ x ∈ operands, x.IsProper) ∧ checkLabels (allLegs operands) = .ok () ∧
        (left ++ right).Perm (once ((allLegs operands).map Prod.fst)) ∧
        t.grid = Grid.contractGrids (operands.map fun x => ⟨x.tensor.grid, x.labels⟩)
          (left ++ right) ∧
        t.legs = routedLegs operands left right := by
  rw [contractAll]
  constructor
  · intro h
    obtain ⟨legs, hlegs, h⟩ := bind_eq_ok_iff.mp h
    obtain ⟨hproper, hcheck, rfl⟩ := operandLegs_eq_ok_iff.mp hlegs
    obtain ⟨result, hresult, h⟩ := bind_eq_ok_iff.mp h
    obtain ⟨hperm, rfl⟩ := resultLegs_eq_ok_iff.mp hresult
    rw [ofGrid] at h
    split_ifs at h
    obtain rfl := Except.ok.inj h
    exact ⟨hproper, hcheck, hperm, rfl, rfl⟩
  · rintro ⟨hproper, hcheck, hperm, hgrid, hlegs⟩
    obtain ⟨grid, legs, hshape⟩ := t
    dsimp only at hgrid hlegs
    subst hgrid hlegs
    rw [operandLegs_eq_ok_iff.mpr ⟨hproper, hcheck, rfl⟩, ok_bind,
      resultLegs_eq_ok_iff.mpr ⟨hperm, rfl⟩, ok_bind]
    exact dif_pos hshape

/-- A contraction that passes the checks succeeds. -/
theorem exists_contractAll (hproper : ∀ x ∈ operands, x.IsProper)
    (hcheck : checkLabels (allLegs operands) = .ok ())
    (hperm : (left ++ right).Perm (once ((allLegs operands).map Prod.fst))) :
    ∃ t, contractAll operands left right = .ok t := by
  have hmem : ∀ l ∈ left ++ right, l ∈ (allLegs operands).map Prod.fst := by
    intro l hl
    rw [← List.count_pos_iff, mem_once.mp (hperm.mem_iff.mp hl)]
    exact Nat.one_pos
  exact ⟨⟨_, _, shape_contractGrids operands hmem⟩,
    contractAll_eq_ok_iff.mpr ⟨hproper, hcheck, hperm, rfl, rfl⟩⟩

/-- The result of a contraction has a leg for each of its labels, which are distinct. -/
theorem legs_of_contractAll (h : contractAll operands left right = .ok t) :
    t.legs.codomain.length = left.length ∧ t.legs.domain.length = right.length ∧
      (left ++ right).Nodup := by
  obtain ⟨-, -, hperm, -, hlegs⟩ := contractAll_eq_ok_iff.mp h
  rw [hlegs, routedLegs]
  exact ⟨by simp, by simp, hperm.nodup_iff.mpr (nodup_once _)⟩

variable [CommRing R]

/-- The product of the arrays of some operands. -/
def network (operands : List (Operand R)) : LegArray R :=
  (operands.map fun x => x.tensor.toArray x.labels).prod

theorem legs_network (operands : List (Operand R)) :
    (network operands).legs = allLegs operands := by
  induction operands with
  | nil => rfl
  | cons x rest ih =>
    rw [network, List.map_cons, List.prod_cons, LegArray.legs_mul]
    rw [network] at ih
    rw [ih, legs_toArray, Multiset.coe_add]
    rfl

theorem entry_network (operands : List (Operand R)) (g : Index → ℕ) :
    (network operands).entry g =
      (operands.map fun x => (x.tensor.toArray x.labels).entry g).prod := by
  induction operands with
  | nil => rfl
  | cons x rest ih =>
    rw [network, List.map_cons, List.prod_cons, LegArray.entry_mul]
    rw [network] at ih
    rw [ih, List.map_cons, List.prod_cons]

/-- The network of one tensor. -/
theorem network_singleton (t : Tensor R) (labels : List Index) :
    network [⟨t, labels⟩] = t.toArray labels := by
  simp [network]

/-- The network of two tensors. -/
theorem network_pair (s t : Tensor R) (labels others : List Index) :
    network [⟨s, labels⟩, ⟨t, others⟩] = s.toArray labels * t.toArray others := by
  simp [network]

/-- The legs of a tensor with distinct labels can be joined, since there is nothing to be joined. -/
theorem joinable_toArray {labels : List Index} (ht : labels.length = t.legs.count)
    (hnd : labels.Nodup) : (t.toArray labels).Joinable := by
  refine LegArray.joinable_of_nodup ?_
  rw [labels_toArray ht]
  exact Multiset.coe_nodup.mpr hnd

/-- A tensor with distinct labels has nothing to be summed over. -/
theorem contract_toArray {labels : List Index} (ht : labels.length = t.legs.count)
    (hnd : labels.Nodup) : (t.toArray labels).contract = t.toArray labels := by
  refine LegArray.contract_of_nodup ?_
  rw [labels_toArray ht]
  exact Multiset.coe_nodup.mpr hnd

variable [StarRing R] [Arithmetic.IsExact R]

section Entries

variable {operands : List (Operand R)} {wanted : List Index} (hproper : ∀ x ∈ operands, x.IsProper)
  (hjoin : (network operands).Joinable)
  (hwanted : wanted.Perm (once ((allLegs operands).map Prod.fst)))

include hproper hjoin hwanted

omit [StarRing R] [Arithmetic.IsExact R] in
/-- The labels that are summed over are those that appear twice. -/
theorem mem_summed_iff :
    l ∈ distinct (((operands.map fun x => (⟨x.tensor.grid, x.labels⟩ : Grid.Labelled R)).flatMap
      Grid.Labelled.labels).filter (· ∉ wanted)) ↔ l ∈ (network operands).joined := by
  have hlabels : (operands.map fun x => (⟨x.tensor.grid, x.labels⟩ : Grid.Labelled R)).flatMap
      Grid.Labelled.labels = (allLegs operands).map Prod.fst := by
    rw [map_fst_allLegs hproper, List.flatMap_map]
  have hle := hjoin.count_le l
  rw [count_labels_eq (legs_network operands)] at hle
  rw [mem_distinct, hlabels, List.mem_filter, decide_eq_true_eq, hwanted.mem_iff, mem_once,
    LegArray.mem_joined, count_labels_eq (legs_network operands), ← List.count_pos_iff]
  omega

/-- One summand of an entry of the result: the values of the labels are found in a table, outer
values first. -/
theorem product_entries {kind : NumberKind} {summed : List Index} {ρ : Index → ℕ}
    {position : List ℕ} (hnd : summed.Nodup) (hsummed : ∀ l, l ∈ summed ↔
      l ∈ (network operands).joined)
    (hρ : ∀ l ∈ wanted, ρ l < (spaceIn (allLegs operands) l).dim.toNat)
    (hposition : List.Forall₂ (· < ·) position
      (summed.map fun l => (spaceIn (allLegs operands) l).dim.toNat)) :
    Arithmetic.product kind
      ((operands.map fun x => (⟨x.tensor.grid, x.labels⟩ : Grid.Labelled R)).map
      fun x => x.entry kind (wanted.zip (wanted.map ρ) ++ summed.zip position)) =
      (network operands).entry (overlay ρ summed position) := by
  have hlen : summed.length = position.length := by rw [hposition.length_eq, List.length_map]
  have hcases : ∀ l ∈ (allLegs operands).map Prod.fst, (l ∈ wanted ∧ l ∉ summed) ∨
      (l ∉ wanted ∧ l ∈ summed) := by
    intro l hl
    have hle := hjoin.count_le l
    have hpos := List.count_pos_iff.mpr hl
    rw [count_labels_eq (legs_network operands)] at hle
    rw [hwanted.mem_iff, mem_once, hsummed, LegArray.mem_joined,
      count_labels_eq (legs_network operands)]
    omega
  have hvalues : ∀ l ∈ (allLegs operands).map Prod.fst,
      Table.findD (wanted.zip (wanted.map ρ) ++ summed.zip position) l 0 =
        overlay ρ summed position l := by
    intro l hl
    rw [Table.findD, Table.find?_append]
    rcases hcases l hl with ⟨hw, hs⟩ | ⟨hw, hs⟩
    · have hfind : Table.find? l (wanted.zip (wanted.map ρ)) = some (ρ l) := by
        rcases hfind : Table.find? l (wanted.zip (wanted.map ρ)) with _ | n
        · rw [Table.find?_eq_none_iff, Table.keys, List.map_fst_zip (by simp)] at hfind
          exact absurd hw hfind
        · have hmem := Table.mem_of_find?_eq_some hfind
          rw [← List.map_prod_left_eq_zip, List.mem_map] at hmem
          obtain ⟨k, -, hk⟩ := hmem
          rw [Prod.mk.injEq] at hk
          rw [← hk.2, hk.1]
      rw [hfind, overlay_of_notMem hs]
      rfl
    · have hnone : Table.find? l (wanted.zip (wanted.map ρ)) = none := by
        rw [Table.find?_eq_none_iff, Table.keys, List.map_fst_zip (by simp)]
        exact hw
      have hsome : Table.find? l (summed.zip position) ≠ none := by
        rw [Ne, Table.find?_eq_none_iff, not_not, Table.keys, List.map_fst_zip hlen.le]
        exact hs
      obtain ⟨n, hn⟩ := Option.ne_none_iff_exists'.mp hsome
      rw [hnone, overlay, Table.findD, hn]
      rfl
  have hrange : ∀ leg ∈ allLegs operands, overlay ρ summed position leg.1 < leg.2.dim.toNat := by
    intro leg hleg
    rw [← dim_spaceIn (legs_network operands) hjoin hleg]
    rcases hcases leg.1 (List.mem_map_of_mem hleg) with ⟨hw, hs⟩ | ⟨hw, hs⟩
    · rw [overlay_of_notMem hs]
      exact hρ leg.1 hw
    · exact overlay_lt hnd hposition ρ hs
  rw [Arithmetic.product_eq, entry_network, List.map_map]
  refine congrArg List.prod (List.map_congr_left fun x hx => ?_)
  have hlegs : ∀ leg ∈ x.tensor.labelledLegs x.labels, leg ∈ allLegs operands :=
    fun leg hleg => List.mem_flatMap.mpr ⟨x, hx, hleg⟩
  rw [entry_toArray (hproper x hx) fun leg hleg => hrange leg (hlegs leg hleg), Function.comp_apply,
    Grid.Labelled.entry, Arithmetic.IsExact.widen_eq]
  refine congrArg _ (List.map_congr_left fun l hl => hvalues l ?_)
  rw [map_fst_allLegs hproper]
  exact List.mem_flatMap.mpr ⟨x, hx, hl⟩

/-- The entries of the result are sums of products. -/
theorem get_contractGrids {ρ : Index → ℕ}
    (hρ : ∀ l ∈ wanted, ρ l < (spaceIn (allLegs operands) l).dim.toNat) :
    (Grid.contractGrids (operands.map fun x => ⟨x.tensor.grid, x.labels⟩) wanted).get
      (wanted.map ρ) = (network operands).contract.entry ρ := by
  set summed := distinct (((operands.map fun x =>
    (⟨x.tensor.grid, x.labels⟩ : Grid.Labelled R)).flatMap Grid.Labelled.labels).filter
      (· ∉ wanted)) with hsummed_def
  have hnd : summed.Nodup := nodup_distinct _
  have hsummed : ∀ l, l ∈ summed ↔ l ∈ (network operands).joined := fun l =>
    mem_summed_iff hproper hjoin hwanted
  have hjoined : (network operands).joined = summed.toFinset := by
    ext l
    rw [List.mem_toFinset, hsummed]
  have hbound : ∀ g, (network operands).entry g ≠ 0 → ∀ l ∈ summed.toFinset,
      g l < (spaceIn (allLegs operands) l).dim.toNat := by
    intro g hg l hl
    have hlabel : l ∈ (network operands).labels :=
      LegArray.mem_labels_of_mem_joined (hjoined ▸ hl)
    rw [LegArray.labels, legs_network, Multiset.map_coe, Multiset.mem_coe] at hlabel
    by_contra hge
    refine hg ((network operands).entry_eq_zero g (l, spaceIn (allLegs operands) l) ?_
      (not_lt.mp hge))
    rw [legs_network, Multiset.mem_coe]
    exact spaceIn_mem hlabel
  have hlabels : ∀ l ∈ summed.toFinset, l ∈ (network operands).labels := fun l hl =>
    LegArray.mem_labels_of_mem_joined (hjoined ▸ hl)
  have hshape : List.Forall₂ (· < ·) (wanted.map ρ)
      (wanted.map fun l => (spaceIn (allLegs operands) l).dim.toNat) := by
    rw [List.forall₂_map_left_iff, List.forall₂_map_right_iff, List.forall₂_same]
    exact hρ
  rw [LegArray.contract, hjoined, LegArray.entry_sumOver_eq hlabels hbound, ← sum_positions hnd]
  simp only [Grid.contractGrids, findD_labelSizes, ← hsummed_def]
  rw [Grid.get_ofFn hshape, Arithmetic.sum_eq]
  refine congrArg List.sum (List.map_congr_left fun position hp => ?_)
  exact product_entries hproper hjoin hwanted hnd hsummed hρ (mem_positions.mp hp)

end Entries

/-! ## What a contraction is -/

/-- The tensor is the contraction of some operands, with the labels of its legs by side. -/
structure IsContraction (operands : List (Operand R)) (left right : List Index) (t : Tensor R) :
    Prop where
  /-- Every leg of the operands has a label. -/
  proper : ∀ x ∈ operands, x.IsProper
  /-- The legs can be joined. -/
  joinable : (network operands).Joinable
  /-- The labels of the result are those that are left. -/
  labels_eq : ((left ++ right : List Index) : Multiset Index) = (network operands).contract.labels
  /-- No label of the result is repeated. -/
  nodup : (left ++ right).Nodup
  /-- The outputs of the result. -/
  outputs : t.legs.codomain.length = left.length
  /-- Every leg of the result has a label. -/
  count_eq : (left ++ right).length = t.legs.count
  /-- The array of the result. -/
  array_eq : t.toArray (left ++ right) = (network operands).contract

omit [StarRing R] [Arithmetic.IsExact R] in
/-- The labels that are left after a contraction are those that appear once. -/
theorem labels_contract_network (hjoin : (network operands).Joinable) :
    (network operands).contract.labels = (once ((allLegs operands).map Prod.fst) : List Index) := by
  rw [LegArray.labels, legs_contract_eq (legs_network operands) hjoin (List.Perm.refl _),
    Multiset.map_coe, List.map_map]
  exact congrArg _ (List.map_id _)

/-- The result of the contraction, given that the checks are passed. -/
theorem contractAll_of_checks (hproper : ∀ x ∈ operands, x.IsProper)
    (hjoin : (network operands).Joinable)
    (hlabels : ((left ++ right : List Index) : Multiset Index) =
      (network operands).contract.labels) :
    ∃ t, contractAll operands left right = .ok t ∧ IsContraction operands left right t := by
  have hwanted : (left ++ right).Perm (once ((allLegs operands).map Prod.fst)) := by
    rw [labels_contract_network hjoin] at hlabels
    exact Multiset.coe_eq_coe.mp hlabels
  obtain ⟨t, hok⟩ :=
    exists_contractAll hproper ((checkLabels_eq_ok_iff (legs_network operands)).mpr hjoin) hwanted
  obtain ⟨-, -, -, hgrid, hlegs⟩ := contractAll_eq_ok_iff.mp hok
  have hspaces : t.legs.spaces = (left ++ right).map (spaceIn (allLegs operands)) := by
    rw [hlegs, spaces_routedLegs]
  have hcount : (left ++ right).length = t.legs.count := by
    rw [← Legs.length_spaces, hspaces, List.length_map]
  obtain ⟨houtputs, -, hnodup⟩ := legs_of_contractAll hok
  refine ⟨t, hok, hproper, hjoin, hlabels, hnodup, houtputs, hcount, ?_⟩
  have hlabelled : t.labelledLegs (left ++ right) = (left ++ right).map fun l =>
      (l, spaceIn (allLegs operands) l) := by
    rw [labelledLegs, hspaces, ← List.map_prod_left_eq_zip]
  have hlegsEq : (t.toArray (left ++ right)).legs = (network operands).contract.legs := by
    rw [legs_toArray, hlabelled, legs_contract_eq (legs_network operands) hjoin hwanted]
  refine LegArray.ext hlegsEq fun ρ => ?_
  by_cases hρ : ∀ leg ∈ t.labelledLegs (left ++ right), ρ leg.1 < leg.2.dim.toNat
  · rw [entry_toArray hcount hρ, hgrid]
    refine get_contractGrids hproper hjoin hwanted fun l hl => ?_
    exact hρ (l, spaceIn (allLegs operands) l)
      (hlabelled ▸ List.mem_map_of_mem (f := fun l => (l, spaceIn (allLegs operands) l)) hl)
  · push Not at hρ
    obtain ⟨leg, hleg, hge⟩ := hρ
    have hleg' : leg ∈ (t.toArray (left ++ right)).legs := hleg
    rw [LegArray.entry_eq_zero _ ρ leg hleg' hge,
      LegArray.entry_eq_zero _ ρ leg (hlegsEq ▸ hleg') hge]

/-- A contraction that succeeds is the contraction of the arrays. -/
theorem contractAll_spec (h : contractAll operands left right = .ok t) :
    IsContraction operands left right t := by
  obtain ⟨hproper, hcheck, hwanted, -⟩ := contractAll_eq_ok_iff.mp h
  have hjoin : (network operands).Joinable :=
    (checkLabels_eq_ok_iff (legs_network operands)).mp hcheck
  have hlabels : ((left ++ right : List Index) : Multiset Index) =
      (network operands).contract.labels := by
    rw [labels_contract_network hjoin]
    exact Multiset.coe_eq_coe.mpr hwanted
  obtain ⟨t', ht', hspec⟩ := contractAll_of_checks hproper hjoin hlabels
  rw [h, Except.ok.injEq] at ht'
  rwa [ht']

/-- A tensor with its legs brought to the order of distinct labels that are those of the tensor. -/
theorem exists_arranged {others : List Index} (ht : others.length = t.legs.count)
    (hnd : others.Nodup) (hperm : (left ++ right).Perm others) :
    ∃ u, contractAll [⟨t, others⟩] left right = .ok u ∧
      u.legs.codomain.length = left.length ∧ (left ++ right).length = u.legs.count ∧
      u.toArray (left ++ right) = t.toArray others := by
  have hproper : ∀ x ∈ [(⟨t, others⟩ : Operand R)], x.IsProper := by
    simpa [Operand.IsProper] using ht
  have hjoin : (network [(⟨t, others⟩ : Operand R)]).Joinable := by
    rw [network_singleton]
    exact joinable_toArray ht hnd
  have hlabels : ((left ++ right : List Index) : Multiset Index) =
      (network [(⟨t, others⟩ : Operand R)]).contract.labels := by
    rw [network_singleton, contract_toArray ht hnd, labels_toArray ht]
    exact Multiset.coe_eq_coe.mpr hperm
  obtain ⟨u, hu, hspec⟩ := contractAll_of_checks hproper hjoin hlabels
  refine ⟨u, hu, hspec.outputs, hspec.count_eq, ?_⟩
  rw [hspec.array_eq, network_singleton, contract_toArray ht hnd]

/-- There is one contraction for an array and an order of its legs. -/
theorem IsContraction.agrees {others : List (Operand R)} {u : Tensor R}
    (ht : IsContraction operands left right t) (hu : IsContraction others left right u)
    (h : (network operands).contract = (network others).contract) : t.Agrees u :=
  agrees_of_toArray_eq ht.nodup ht.count_eq hu.count_eq (ht.outputs.trans hu.outputs.symm)
    (ht.array_eq.trans (h.trans hu.array_eq.symm))

/-- Operands that can be joined likewise, and to the same array, have the same contractions. -/
theorem contractAll_sameOutcome_of_network {others : List (Operand R)}
    (hproper : (∀ x ∈ operands, x.IsProper) ↔ ∀ x ∈ others, x.IsProper)
    (hjoin : (network operands).Joinable ↔ (network others).Joinable)
    (hcontract : (network operands).contract = (network others).contract)
    (left right : List Index) :
    SameOutcome Agrees (contractAll operands left right) (contractAll others left right) := by
  refine .of_exists_ok (fun t ht => ?_) fun u hu => ?_
  · have hspec := contractAll_spec ht
    obtain ⟨u, hu, hspec'⟩ :=
      contractAll_of_checks (hproper.mp hspec.proper) (hjoin.mp hspec.joinable)
      (hcontract ▸ hspec.labels_eq)
    exact ⟨u, hu, hspec.agrees hspec' hcontract⟩
  · have hspec := contractAll_spec hu
    obtain ⟨t, ht, -⟩ := contractAll_of_checks (hproper.mpr hspec.proper) (hjoin.mpr hspec.joinable)
      (hcontract.symm ▸ hspec.labels_eq)
    exact ⟨t, ht⟩

end Tensor

end TensorDiagram
