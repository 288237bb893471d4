import TensorDiagram.Proofs.PlanarPlans

/-!
# Routed legs

When a contraction succeeds, and which spaces the legs of its result show.  The legs have to fit
together: no label appears more than twice, the two legs of a label show dual spaces, and the labels
of the result are those that appear once (`Tensor.FitTogether`).  This is all that can go wrong, so
the entries always have the shape that the legs ask for.  Every leg of the result shows the space of
the leg with the same label, on whichever side the two of them are (`Tensor.RoutesLegs`).

None of this depends on the arithmetic of the entries.
-/

namespace TensorDiagram

variable {legs : List LabelledLeg}

/-! ## Labels that fit together -/

/-- A label passes the check if any two of its legs show dual spaces. -/
theorem checkLabel_eq_ok_iff_pairwise {l : Index} :
    checkLabel legs l = .ok () ↔
      ((legs.filter fun leg => leg.1 = l).map Prod.snd).Pairwise fun v w => v = w.dual := by
  rw [checkLabel]
  generalize (legs.filter fun leg => leg.1 = l).map Prod.snd = spaces
  rcases spaces with _ | ⟨u, _ | ⟨v, _ | ⟨w, rest⟩⟩⟩
  · simp
  · simp
  · by_cases h : u = v.dual <;> simp [h]
  · refine iff_of_false (by simp) fun h => ?_
    simp only [List.pairwise_cons, List.mem_cons, forall_eq_or_imp] at h
    obtain ⟨⟨huv, huw, -⟩, ⟨hvw, -⟩, -⟩ := h
    -- the first space would be dual to two spaces that are dual to each other
    rw [huv, hvw, Space.dual_dual] at huw
    exact Space.dual_ne_self w huw.symm

theorem checkLabels_eq_ok_iff_pairwise :
    checkLabels legs = .ok () ↔ legs.Pairwise fun x y => x.1 = y.1 → x.2 = y.2.dual := by
  rw [checkLabels, forM_eq_ok_iff]
  constructor
  · intro h
    rw [List.pairwise_iff_forall_sublist]
    intro x y hxy hlabel
    have hmem : x.1 ∈ distinct (legs.map Prod.fst) :=
      mem_distinct.mpr (List.mem_map_of_mem (hxy.subset (List.mem_cons_self ..)))
    have hfilter : [x.2, y.2].Sublist ((legs.filter fun leg => leg.1 = x.1).map Prod.snd) := by
      simpa [hlabel] using (hxy.filter fun leg => leg.1 = x.1).map Prod.snd
    have hpair := (checkLabel_eq_ok_iff_pairwise.mp (h x.1 hmem)).sublist hfilter
    exact (List.pairwise_cons.mp hpair).1 y.2 (List.mem_singleton_self _)
  · intro h l _
    refine checkLabel_eq_ok_iff_pairwise.mpr
      (List.pairwise_map.mpr ((h.filter _).imp_of_mem fun hx hy hxy => hxy ?_))
    exact (decide_eq_true_eq.mp (List.mem_filter.mp hx).2).trans
      (decide_eq_true_eq.mp (List.mem_filter.mp hy).2).symm

theorem count_le_two_of_checkLabels (h : checkLabels legs = .ok ()) (l : Index) :
    (legs.map Prod.fst).count l ≤ 2 := by
  have hcard : (legs.map Prod.fst).count l =
      (LegArray.spacesAt (legs : Multiset LabelledLeg) l).card := by
    rw [← length_filter_label, spacesAt_coe, Multiset.coe_card, List.length_map]
  rw [hcard]
  rcases checkLabels_eq_ok_iff_spacesAt.mp h l with h | ⟨v, h⟩ | ⟨v, h⟩ <;> simp [h]

/-- A list is a reordering of the entries that appear once if it lists each of them once and nothing
else. -/
theorem perm_once_iff {xs ys : List Index} :
    xs.Perm (once ys) ↔ ∀ l, xs.count l = if ys.count l = 1 then 1 else 0 := by
  rw [List.perm_iff_count]
  exact forall_congr' fun l => by rw [count_once]

/-! ## Errors about labels -/

/-- An error about the number of labels, the legs of a label, or the labels of the result. -/
def Error.IsAboutLabels : Error → Prop
  | .labelCount .. | .labelRepeated _ | .incompatibleLegs .. | .outputLabels .. => True
  | _ => False

theorem Error.IsAboutLabels.kind_eq {e : Error} (h : e.IsAboutLabels) : e.kind = .value := by
  cases e <;> first | rfl | exact h.elim

theorem Error.IsAboutLabels.ne_shapeMismatch {e : Error} (h : e.IsAboutLabels)
    (shape shape' : List Int) : e ≠ .shapeMismatch shape shape' := by
  rintro rfl
  exact h

namespace Tensor

variable {R : Type}
variable {operands : List (Operand R)}

/-- An operand fails only if it has a wrong number of labels. -/
theorem Operand.legs_failsWith (x : Operand R) : FailsWith Error.IsAboutLabels x.legs :=
  .ite _ (.ok _) (.error trivial)

/-- The legs of the operands fail only if a label is wrong. -/
theorem operandLegs_failsWith (operands : List (Operand R)) :
    FailsWith Error.IsAboutLabels (operandLegs operands) := by
  refine (FailsWith.mapM fun x _ => x.legs_failsWith).bind fun legs => ?_
  refine (FailsWith.forM (fun label => ?_) _).bind fun _ => .ok _
  rw [checkLabel]
  split
  · exact .ok ()
  · exact .ok ()
  · exact .ite _ (.ok ()) (.error trivial)
  · exact .error trivial

theorem resultLegs_failsWith (legs : List LabelledLeg) (left right : List Index) :
    FailsWith Error.IsAboutLabels (resultLegs legs left right) :=
  .ite _ (.ok _) (.error trivial)

variable [Arithmetic R]

/-- A contraction fails only if its labels are wrong: once they are not, its entries have the right
shape. -/
theorem contractAll_failsWith (operands : List (Operand R)) (left right : List Index) :
    FailsWith Error.IsAboutLabels (contractAll operands left right) := by
  intro e he
  rcases hlegs : operandLegs operands with e' | legs
  · rw [contractAll, hlegs] at he
    obtain rfl := Except.error.inj he
    exact operandLegs_failsWith operands _ hlegs
  rcases hresult : resultLegs legs left right with e' | result
  · rw [contractAll, hlegs, ok_bind, hresult] at he
    obtain rfl := Except.error.inj he
    exact resultLegs_failsWith legs left right _ hresult
  · obtain ⟨hproper, hcheck, rfl⟩ := operandLegs_eq_ok_iff.mp hlegs
    obtain ⟨hperm, -⟩ := resultLegs_eq_ok_iff.mp hresult
    obtain ⟨t, ht⟩ := exists_contractAll hproper hcheck hperm
    rw [ht] at he
    cases he

/-! ## What a contraction does with the legs -/

omit [Arithmetic R] in
theorem space_eq_ok_iff {t : Tensor R} {k : ℕ} {v : Space} : t.space k = .ok v ↔
    t.legs.spaces[k]? = some v := by
  rw [space, if_neg (Int.natCast_nonneg k).not_gt, Int.toNat_natCast]
  rcases t.legs.spaces[k]? with _ | w <;> simp

/-- The legs of some operands fit together, and some labels list those that are left. -/
structure FitTogether (operands : List (Operand R)) (wanted : List Index) : Prop where
  /-- No label appears more than twice. -/
  count_le : ∀ l, (operands.flatMap Operand.labels).count l ≤ 2
  /-- Two legs with the same label show dual spaces. -/
  dual : (allLegs operands).Pairwise fun x y => x.1 = y.1 → x.2 = y.2.dual
  /-- A label is listed once if it appears once, and otherwise it is not listed. -/
  count_wanted : ∀ l, wanted.count l =
    if (operands.flatMap Operand.labels).count l = 1 then 1 else 0

/-- The outcome of a contraction of some operands, as far as legs are concerned. -/
structure RoutesLegs (operands : List (Operand R)) (left right : List Index)
    (outcome : Except Error (Tensor R)) : Prop where
  /-- It succeeds exactly if the legs fit together. -/
  exists_ok_iff : (∃ u, outcome = .ok u) ↔ FitTogether operands (left ++ right)
  /-- Otherwise it is a value error, and never one about the shape of the result. -/
  failsWith : FailsWith (fun e => e.kind = .value ∧
    ∀ shape shape', e ≠ .shapeMismatch shape shape') outcome
  /-- The result has as many outputs and inputs as there are labels for them. -/
  legs_length : ∀ u, outcome = .ok u → u.legs.codomain.length = left.length ∧
    u.legs.domain.length = right.length
  /-- A leg of the result shows the space of the leg of the operands that has its label. -/
  space_eq : ∀ u, outcome = .ok u → ∀ (k : ℕ) (l : Index), (left ++ right)[k]? = some l →
    ∃ x ∈ operands, ∃ n : ℕ, x.labels[n]? = some l ∧ ∃ v, x.tensor.space n = .ok v ∧
    u.space k = .ok v

theorem exists_contractAll_iff (hproper : ∀ x ∈ operands, x.IsProper) {left right : List Index} :
    (∃ u, contractAll operands left right = .ok u) ↔ FitTogether operands (left ++ right) := by
  have hlabels := map_fst_allLegs hproper
  constructor
  · rintro ⟨u, hu⟩
    obtain ⟨-, hcheck, hperm, -⟩ := contractAll_eq_ok_iff.mp hu
    refine ⟨hlabels ▸ count_le_two_of_checkLabels hcheck, checkLabels_eq_ok_iff_pairwise.mp hcheck,
      ?_⟩
    exact perm_once_iff.mp (hlabels ▸ hperm)
  · intro h
    exact exists_contractAll hproper (checkLabels_eq_ok_iff_pairwise.mpr h.dual)
      (hlabels ▸ perm_once_iff.mpr h.count_wanted)

/-- Every leg of an operand whose label is listed is a leg of the result. -/
theorem space_of_contractAll {left right : List Index} {u : Tensor R}
    (h : contractAll operands left right = .ok u) {k : ℕ} {l : Index}
    (hl : (left ++ right)[k]? = some l) :
    ∃ x ∈ operands, ∃ n : ℕ, x.labels[n]? = some l ∧ ∃ v, x.tensor.space n = .ok v ∧
      u.space k = .ok v := by
  obtain ⟨hproper, -, hperm, -, hlegs⟩ := contractAll_eq_ok_iff.mp h
  have hcount := mem_once.mp (hperm.mem_iff.mp (List.mem_of_getElem? hl))
  have hmem : l ∈ (allLegs operands).map Prod.fst := List.count_pos_iff.mp (hcount ▸ Nat.one_pos)
  obtain ⟨x, hx, hleg⟩ := List.mem_flatMap.mp (spaceIn_mem hmem)
  obtain ⟨n, hn⟩ := List.mem_iff_getElem?.mp hleg
  obtain ⟨hlabel, hspace⟩ := List.getElem?_zip_eq_some.mp hn
  refine ⟨x, hx, n, hlabel, _, space_eq_ok_iff.mpr hspace, space_eq_ok_iff.mpr ?_⟩
  rw [hlegs, spaces_routedLegs, List.getElem?_map, hl]
  rfl

theorem contractAll_routesLegs (hproper : ∀ x ∈ operands, x.IsProper) (left right : List Index) :
    RoutesLegs operands left right (contractAll operands left right) where
  exists_ok_iff := exists_contractAll_iff hproper
  failsWith :=
    (contractAll_failsWith operands left right).mono fun _ he => ⟨he.kind_eq, he.ne_shapeMismatch⟩
  legs_length _ hu := ⟨(legs_of_contractAll hu).1, (legs_of_contractAll hu).2.1⟩
  space_eq _ hu _ _ hl := space_of_contractAll hu hl

/-- A contraction of two tensors, or of one with itself, succeeds exactly if the legs fit together.
Then the legs of the result show the spaces of the legs that have their labels. -/
theorem contraction_routes_legs {s : Tensor R} {labels : List Index}
    (hs : labels.length = s.legs.count) (left right : List Index) :
    (∀ (t : Tensor R) (others : List Index), others.length = t.legs.count →
      RoutesLegs [⟨s, labels⟩, ⟨t, others⟩] left right (s.contract labels t others left right)) ∧
    RoutesLegs [⟨s, labels⟩] left right (s.permute labels left right) := by
  refine ⟨fun t others ht => contractAll_routesLegs ?_ left right,
    contractAll_routesLegs ?_ left right⟩
  · exact List.forall_mem_cons.mpr ⟨hs, List.forall_mem_singleton.mpr ht⟩
  · exact List.forall_mem_singleton.mpr hs

/-- A tensor of which two legs are joined to each other. -/
def tracedOperand : Operand ℤ :=
  ⟨numberedTensor [false, false] [false, true], [.name "a", .name "b", .name "a", .name "c"]⟩

/-- A tensor that is joined to the traced one by its input. -/
def bentOperand : Operand ℤ :=
  ⟨numberedTensor [true] [false], [.name "d", .name "b"]⟩

/-- In a contraction with a trace an input becomes an output, and an output an input. -/
theorem contraction_routes_bent_legs : tracedOperand.IsProper ∧ bentOperand.IsProper ∧
    ∃ u : Tensor ℤ, tracedOperand.tensor.contract tracedOperand.labels bentOperand.tensor
      bentOperand.labels [.name "c"] [.name "d"] = .ok u ∧
    FitTogether [tracedOperand, bentOperand] [.name "c", .name "d"] ∧
    ∃ x ∈ [tracedOperand, bentOperand], ∃ n : ℕ, x.labels[n]? = some (.name "d") ∧
      ∃ v, x.tensor.space n = .ok v ∧ u.space 1 = .ok v := by
  have hproper : tracedOperand.labels.length = tracedOperand.tensor.legs.count := rfl
  have hroutes :=
    (contraction_routes_legs hproper [.name "c"] [.name "d"]).1 bentOperand.tensor
      bentOperand.labels rfl
  obtain ⟨u, hu⟩ :=
    exists_of_isOk (x := tracedOperand.tensor.contract tracedOperand.labels bentOperand.tensor
    bentOperand.labels [.name "c"] [.name "d"]) (by decide +kernel)
  exact ⟨hproper, rfl, u, hu, hroutes.exists_ok_iff.mp ⟨u, hu⟩,
    hroutes.space_eq u hu 1 (.name "d") rfl⟩

end Tensor

end TensorDiagram
