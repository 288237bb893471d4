import TensorDiagram.Proofs.Lowering

/-!
# Orders of the free indices

`complements` finds exactly the planar contractions of two circles: those that join all common
labels, along arcs that run in opposite directions (`Circle.complements_exact`).

The labels that are left are those that are on one circle only.  So an admissible order of a product
has the symmetric difference of the indices of its factors.  `freeSet` is defined by this rule, from
the indices that a reference has an odd number of times.  However often indices occur, every
admissible order of an expression lists its free set without repetition
(`Diagram.IsNormal.orders_list_freeSet`).  This is what the search relies on when it looks up places
of labels: an arc is only ever asked for at distinct places of a circle.
-/

open scoped symmDiff

namespace TensorDiagram

namespace Circle

/-! ## Planar contractions -/

variable {α : Type}

/-- The contraction joins exactly the common labels of two circles: each circle reads its joined
labels and then its open ones, and the joined labels run in opposite directions. -/
structure JoinsCommonLabels (first second : List α) (c : PairContraction α) : Prop where
  /-- The joined labels run in opposite directions. -/
  reversed : c.joinedSecond = c.joinedFirst.reverse
  /-- The joined labels are the common ones. -/
  mem_iff : ∀ x, x ∈ c.joinedFirst ↔ x ∈ first ∧ x ∈ second
  /-- The joined and the open labels of the first circle go once around it. -/
  first_order : c.joinedFirst ++ c.openFirst ~r first
  /-- The joined and the open labels of the second circle go once around it. -/
  second_order : c.joinedSecond ++ c.openSecond ~r second

/-- If no label is repeated, then all common labels are joined if and only if no open label is
common. -/
theorem isPlanarPair_iff_joinsCommonLabels {first second : List α} (h1 : first.Nodup)
    (h2 : second.Nodup) {c : PairContraction α} : IsPlanarPair first second c ↔
      JoinsCommonLabels first second c := by
  constructor
  · intro h
    exact ⟨h.reversed, fun x => h.mem_joinedFirst_iff, h.first_order, h.second_order⟩
  · intro h
    have hdisj1 := (List.nodup_append.mp (h.first_order.nodup_iff.mpr h1)).2.2
    have hdisj2 := (List.nodup_append.mp (h.second_order.nodup_iff.mpr h2)).2.2
    refine ⟨h.first_order, h.second_order, h.reversed, fun x hx hmem => ?_, fun x hx hmem => ?_⟩
    · have hfirst : x ∈ first := h.first_order.mem_iff.mp (List.mem_append_right _ hx)
      exact hdisj1 x ((h.mem_iff x).mpr ⟨hfirst, hmem⟩) x hx rfl
    · have hsecond : x ∈ second := h.second_order.mem_iff.mp (List.mem_append_right _ hx)
      have hjoined : x ∈ c.joinedSecond := by
        rw [h.reversed, List.mem_reverse, h.mem_iff]
        exact ⟨hmem, hsecond⟩
      exact hdisj2 x hjoined x hx rfl

variable [DecidableEq α]

/-- Everything that is found for two circles without repeated labels joins their common labels in a
planar way, and every way to do so has, up to rotation, the open labels of one that is found.  So
nothing is found if and only if there is no planar way. -/
theorem complements_exact {first second : List α} (h1 : first.Nodup) (h2 : second.Nodup) :
    ∃ contractions, complements first second = .ok contractions ∧
      (∀ c ∈ contractions, JoinsCommonLabels first second c) ∧
      (∀ c, JoinsCommonLabels first second c → ∃ c' ∈ contractions, c'.openOrder ~r c.openOrder) ∧
      (contractions = [] ↔ ¬ ∃ c, JoinsCommonLabels first second c) := by
  obtain ⟨contractions, hok, henum⟩ := complements_spec h1 h2
  have hsound : ∀ c ∈ contractions, JoinsCommonLabels first second c := fun c hc =>
    (isPlanarPair_iff_joinsCommonLabels h1 h2).mp (henum.sound c hc)
  have hcomplete : ∀ c, JoinsCommonLabels first second c →
      ∃ c' ∈ contractions, c'.openOrder ~r c.openOrder :=
    fun c hc => henum.complete c ((isPlanarPair_iff_joinsCommonLabels h1 h2).mpr hc)
  refine ⟨contractions, hok, hsound, hcomplete, ?_, fun hnone => ?_⟩
  · rintro rfl ⟨c, hc⟩
    obtain ⟨c', hc', -⟩ := hcomplete c hc
    exact List.not_mem_nil hc'
  · exact List.eq_nil_iff_forall_not_mem.mpr fun c hc => hnone ⟨c, hsound c hc⟩

/-- The common labels `4` and `1` of two circles are joined across the place where the first one is
cut open.  Common labels that are apart on one circle can not be joined. -/
theorem complements_exact_cut :
    JoinsCommonLabels [1, 2, 3, 4] [5, 1, 4] ⟨[2, 3], [5], [4, 1], [1, 4]⟩ ∧
    ¬ ∃ c, JoinsCommonLabels [1, 2, 3, 4] [5, 1, 3] c := by
  have hnd : [1, 2, 3, 4].Nodup := by decide
  have hnd4 : [5, 1, 4].Nodup := by decide
  have hnd3 : [5, 1, 3].Nodup := by decide
  obtain ⟨found, hfound, hsound, -⟩ := complements_exact hnd hnd4
  obtain ⟨none, hnone, -, -, hempty⟩ := complements_exact hnd hnd3
  have hcut : complements [1, 2, 3, 4] [5, 1, 4] = .ok [⟨[2, 3], [5], [4, 1], [1, 4]⟩] := rfl
  have hapart : complements [1, 2, 3, 4] [5, 1, 3] = .ok [] := rfl
  obtain rfl := Except.ok.inj (hcut.symm.trans hfound)
  exact ⟨hsound _ (List.mem_singleton_self _),
    hempty.mp (Except.ok.inj (hapart.symm.trans hnone)).symm⟩

/-- Distinct labels of a circle stand at distinct places of it, which is what `bipartition`
requires. -/
theorem bipartition_places_ne {shared indices : List α} (hs : shared.Nodup)
    (hsub : ∀ x ∈ shared, x ∈ indices) :
    bipartition (shared.map fun x => indices.idxOf x) indices.length ≠ .error .precondition := by
  rw [bipartition, if_pos ⟨nodup_map_idxOf hs hsub, lt_of_mem_map_idxOf hsub⟩]
  split_ifs
  · simp
  · simp
  · rcases arcStarts indices.length (shared.map fun x => indices.idxOf x) with _ | ⟨s,
      _ | ⟨s', rest⟩⟩ <;> simp

/-- The common labels of two circles are looked up on both if no label of the first one is
repeated. -/
theorem bipartition_common_ne {first : List α} (h : first.Nodup) (second : List α) :
    bipartition ((first.filter (· ∈ second)).map fun x => first.idxOf x) first.length ≠
      .error .precondition ∧
        bipartition ((first.filter (· ∈ second)).map fun x => second.idxOf x) second.length ≠
          .error .precondition := by
  have hnd : (first.filter (· ∈ second)).Nodup := h.filter _
  exact ⟨bipartition_places_ne hnd fun x hx => List.mem_of_mem_filter hx,
    bipartition_places_ne hnd fun x hx => of_decide_eq_true (List.mem_filter.mp hx).2⟩

end Circle

/-- The indices that a reference has an odd number of times. -/
def TensorRef.oddIndices (t : TensorRef) : Finset Index :=
  t.indices.toFinset.filter fun i => t.indices.count i % 2 = 1

theorem TensorRef.mem_oddIndices {t : TensorRef} {i : Index} : i ∈ t.oddIndices ↔
    t.indices.count i % 2 = 1 := by
  rw [oddIndices, Finset.mem_filter, List.mem_toFinset, ← List.count_pos_iff]
  omega

namespace Diagram

/-! ## Free sets -/

mutual
/-- The free indices of an expression.  Indices that two factors have in common are joined, and
those of a sum are those of its first term. -/
def freeSet : Diagram → Finset Index
  | ref t => t.oddIndices
  | conj a => a.freeSet
  | sum _ a _ => a.freeSet
  | product a b rest => a.freeSet ∆ (b.freeSet ∆ listFreeSet rest)
  | _ => ∅
/-- The free indices of a product of the diagrams. -/
def listFreeSet : List Diagram → Finset Index
  | [] => ∅
  | d :: rest => d.freeSet ∆ listFreeSet rest
end

theorem freeSet_pair (a b : Diagram) : (pair a b).freeSet = a.freeSet ∆ b.freeSet := by
  rw [freeSet, listFreeSet, ← Finset.bot_eq_empty, symmDiff_bot]

theorem IsNormal.mem_freeSet_iff {d : Diagram} (hd : d.IsNormal) {i : Index} : i ∈ d.freeSet ↔
    d.isOpen i = true := by
  induction hd with
  | ref t => rw [freeSet, TensorRef.mem_oddIndices, isOpen, decide_eq_true_iff]
  | scalar s => simp [freeSet, isOpen]
  | conj name => simp [freeSet, isOpen]
  | sum _ _ iha _ => exact iha
  | pair _ _ iha ihb =>
    rw [freeSet_pair, Finset.mem_symmDiff, iha, ihb, isOpen, Bool.xor_iff_ne]
    cases isOpen i _ <;> cases isOpen i _ <;> simp

theorem IsNormal.freeSet_of_isScalar {d : Diagram} (hd : d.IsNormal) (hs : d.isScalar = true) :
    d.freeSet = ∅ := by
  refine Finset.eq_empty_of_forall_notMem fun i hi => ?_
  have hmem := hd.mem_iff_isOpen ((admits_of_isScalar hs []).mpr rfl) i
  exact List.not_mem_nil (hmem.mpr (hd.mem_freeSet_iff.mp hi))

/-- The scalars of a general tensor have no part in its free indices. -/
theorem IsNormal.freeSet_of_general {d : Diagram} (hd : d.IsNormal) {g : GeneralTensor}
    (hg : d.general? = some g) : d.freeSet = g.term.oddIndices := by
  induction hd generalizing g with
  | ref t =>
    obtain rfl := Option.some.inj hg
    rfl
  | scalar s => cases hg
  | conj name => cases hg
  | sum _ _ _ _ => cases hg
  | pair ha hb iha ihb =>
    rw [freeSet_pair]
    rcases general?_pair_cases hg with ⟨g', hg', hs, -, hterm⟩ | ⟨g', hg', hs, -, hterm⟩
    · rw [hb.freeSet_of_isScalar hs, iha hg', hterm, ← Finset.bot_eq_empty, symmDiff_bot]
    · rw [ha.freeSet_of_isScalar hs, ihb hg', hterm, ← Finset.bot_eq_empty, bot_symmDiff]

/-- An admitted order lists the free set. -/
theorem IsNormal.toFinset_eq_of_admits {d : Diagram} (hd : d.IsNormal) {order : List Index}
    (h : d.Admits order) : order.toFinset = d.freeSet := by
  ext i
  rw [List.mem_toFinset, hd.mem_iff_isOpen h, hd.mem_freeSet_iff]

/-- Every admissible order lists the free set of the expression without repetition, however often
indices occur in it, so all admissible orders are permutations of each other.  The free set is empty
for a scalar, and that of a general tensor has the indices that its reference has an odd number of
times.

Hence no precondition of `bipartition` is violated: not for the orders of two factors, so that the
search for orders succeeds, and not when the expression is lowered, which can only fail since the
expression is not planar. -/
theorem IsNormal.orders_list_freeSet {d : Diagram} (hd : d.IsNormal) :
    (d.isScalar = true → d.freeSet = ∅) ∧
      (∀ g, d.general? = some g → d.freeSet = g.term.oddIndices) ∧
    (∃ orders : List (List Index), d.admissibleOrders = .ok orders ∧
      (∀ o ∈ orders, o.Nodup ∧ o.toFinset = d.freeSet) ∧ ∀ o ∈ orders, ∀ o' ∈ orders, o.Perm o') ∧
    (∀ (a b : Diagram) (first second : List (List Index)), d = Diagram.pair a b →
      a.admissibleOrders = .ok first → b.admissibleOrders = .ok second → ∀ i ∈ first, ∀ j ∈ second,
        Circle.bipartition ((i.filter (· ∈ j)).map fun x => i.idxOf x) i.length ≠
          .error .precondition ∧
        Circle.bipartition ((i.filter (· ∈ j)).map fun x => j.idxOf x) j.length ≠
          .error .precondition) ∧
    ∀ (target : WantedOrder) (e : Emission) (err : Error), d.lower target e = .error err →
      err.kind = .planarity := by
  obtain ⟨orders, horders, hnd⟩ := hd.exists_orders
  have hfree : ∀ o ∈ orders, o.toFinset = d.freeSet := fun o ho =>
    hd.toFinset_eq_of_admits ((admits_iff horders o).mpr ⟨o, ho, .refl o⟩)
  refine ⟨hd.freeSet_of_isScalar, fun g => hd.freeSet_of_general,
    ⟨orders, horders, fun o ho => ⟨hnd o ho, hfree o ho⟩,
    fun o ho o' ho' => ?_⟩, ?_, fun target e err herr => ?_⟩
  · exact List.perm_of_nodup_nodup_toFinset_eq (hnd o ho) (hnd o' ho')
      ((hfree o ho).trans (hfree o' ho').symm)
  · rintro a b first second rfl hfirst - i hi j -
    have hadm : a.Admits i := (admits_iff hfirst i).mpr ⟨i, hi, .refl i⟩
    exact Circle.bipartition_common_ne (hd.of_pair.1.nodup_of_admits hadm) j
  · rcases hd.lowersOrFails target e with ⟨x, e', hlower, -⟩ | ⟨err', herr', hkind, -⟩
    · rw [herr] at hlower
      cases hlower
    · obtain rfl := Except.error.inj (herr.symm.trans herr')
      exact hkind

/-- The difference of two tensors, the first of which has the index `a` three times, joined at `b`
to a tensor with a trace. -/
def repeatedIndices : Diagram :=
  .pair
    (.sum .plus (.pair (.scalar (.name "s"))
        (.ref ⟨.name "A", [.name "a", .name "b", .name "a", .name "a"], [], false⟩))
      [(.minus, .ref ⟨.name "B", [.name "b"], [.name "a"], false⟩)])
    (.ref ⟨.name "C", [.name "c", .name "c", .name "b"], [.name "e", .name "d"], false⟩)

theorem orders_list_freeSet_repeatedIndices :
    repeatedIndices.freeSet = {.name "a", .name "d", .name "e"} ∧
    ∃ o : List Index, repeatedIndices.admissibleOrders = .ok [o] ∧ o.Nodup ∧
      o.toFinset = repeatedIndices.freeSet := by
  have hd : repeatedIndices.IsNormal :=
    .pair (.sum (.pair (.scalar _) (.ref _)) (List.forall_mem_singleton.mpr (.ref _))) (.ref _)
  obtain ⟨orders, horders, hfree, -⟩ := hd.orders_list_freeSet.2.2.1
  have hlist : repeatedIndices.admissibleOrders = .ok [[.name "a", .name "d", .name "e"]] := rfl
  obtain rfl := Except.ok.inj (hlist.symm.trans horders)
  exact ⟨by decide, _, hlist, hfree _ (List.mem_singleton_self _)⟩

end Diagram

end TensorDiagram
