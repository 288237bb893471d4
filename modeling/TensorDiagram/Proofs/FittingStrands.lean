import TensorDiagram.Proofs.StrandSpaces
import TensorDiagram.Proofs.Wires

/-!
# Strands that fit

Legs fit if at most two of them have one label and if two of them show dual spaces.  A strand with a
space has two legs: at its end it shows the space, at its beginning the dual.

Let spaces be given with which all strands fit to each other and to the legs around them.  The
spaces that the strands get one after another are these, if strands are joined end to beginning: a
strand that takes over a space takes over the right one (`HandsOn.spaceOf_eq`).  Where two strands
end at one index, or begin at one index and do not both get their space at a leg, they get the same
space although they need dual ones, and then nothing fits (`handsOn_of_fits`).
-/

namespace TensorDiagram

open LegArray

variable {x : Strand × Space} {legs : Multiset LabelledLeg} {net : Multiset (Strand × Space)}
  {v : Space} {y : Strand}

/-! ## Legs that fit -/

/-- At most two legs have one label, and two of them show dual spaces. -/
def Fits (legs : Multiset LabelledLeg) : Prop :=
  ∀ l, spacesAt legs l = 0 ∨ (∃ v, spacesAt legs l = {v}) ∨ ∃ v, spacesAt legs l = {v, v.dual}

theorem spacesAt_le {part : Multiset LabelledLeg} (h : part ≤ legs) (l : Index) :
    spacesAt part l ≤ spacesAt legs l :=
  Multiset.map_le_map (Multiset.filter_le_filter _ h)

theorem Fits.card_le (h : Fits legs) (l : Index) : (spacesAt legs l).card ≤ 2 := by
  rcases h l with h | ⟨v, h⟩ | ⟨v, h⟩ <;> simp [h]

/-- Some of the legs fit if all do. -/
theorem Fits.mono {part : Multiset LabelledLeg} (h : Fits legs) (hle : part ≤ legs) :
    Fits part := by
  intro l
  have hle := spacesAt_le hle l
  rcases h l with hzero | ⟨v, hone⟩ | ⟨v, htwo⟩
  · exact Or.inl (Multiset.le_zero.mp (hzero ▸ hle))
  · rw [hone, Multiset.le_singleton] at hle
    exact hle.imp_right fun hone => Or.inl ⟨v, hone⟩
  · rw [htwo] at hle
    have hcard : (spacesAt part l).card ≤ 2 := Multiset.card_le_card hle
    rcases hcard.lt_or_eq with hlt | heq
    · rcases Nat.le_one_iff_eq_zero_or_eq_one.mp (Nat.le_of_lt_succ hlt) with hzero | hone
      · exact Or.inl (Multiset.card_eq_zero.mp hzero)
      · exact Or.inr (Or.inl (Multiset.card_eq_one.mp hone))
    · exact Or.inr (Or.inr ⟨v, Multiset.eq_of_le_of_card_le hle heq.ge⟩)

/-- Two legs with one label show dual spaces. -/
theorem Fits.eq_dual (h : Fits legs) {l : Index} {w : Space} (hle : {(l, v)} + {(l, w)} ≤ legs) :
    v = w.dual := by
  have hpair : spacesAt ({(l, v)} + {(l, w)}) l = {v, w} := by
    rw [spacesAt_add]
    simp [spacesAt, Multiset.filter_singleton]
  have hcard : (spacesAt ({(l, v)} + {(l, w)}) l).card = 2 := by
    rw [hpair]
    rfl
  rcases h.mono hle l with hzero | ⟨u, hone⟩ | ⟨u, htwo⟩
  · rw [hzero] at hcard
    cases hcard
  · rw [hone] at hcard
    cases hcard
  · exact eq_dual_of_pair_eq (hpair.symm.trans htwo)

/-! ## Strands with spaces -/

theorem pair_le {α : Type} {x y : α} {s : Multiset α} (hne : x ≠ y) (hx : x ∈ s) (hy : y ∈ s) :
    {x} + {y} ≤ s :=
  (Multiset.cons_le_of_notMem (Multiset.mem_singleton.not.mpr hne)).mpr ⟨hx,
    Multiset.singleton_le.mpr hy⟩

/-- The two legs of a strand with a space. -/
def strandLegs (x : Strand × Space) : Multiset LabelledLeg :=
  {(x.1.1, x.2.dual)} + {(x.1.2, x.2)}

/-- The legs of strands with spaces. -/
def netLegs (net : Multiset (Strand × Space)) : Multiset LabelledLeg :=
  (net.map strandLegs).sum

theorem netLegs_le {part : Multiset (Strand × Space)} (h : part ≤ net) :
    netLegs part ≤ netLegs net := by
  obtain ⟨rest, rfl⟩ := Multiset.le_iff_exists_add.mp h
  rw [netLegs, netLegs, Multiset.map_add, Multiset.sum_add]
  exact Multiset.le_add_right _ _

theorem strandLegs_le (hx : x ∈ net) : strandLegs x ≤ netLegs net := by
  have hle := netLegs_le (Multiset.singleton_le.mpr hx)
  rwa [netLegs, Multiset.map_singleton, Multiset.sum_singleton] at hle

theorem strandLegs_add_le {y : Strand × Space} (h : {x} + {y} ≤ net) :
    strandLegs x + strandLegs y ≤ netLegs net := by
  have hle := netLegs_le h
  rwa [netLegs, Multiset.map_add, Multiset.map_singleton, Multiset.map_singleton, Multiset.sum_add,
    Multiset.sum_singleton, Multiset.sum_singleton] at hle

theorem first_le_strandLegs (x : Strand × Space) : {(x.1.1, x.2.dual)} ≤ strandLegs x :=
  Multiset.le_add_right _ _

theorem second_le_strandLegs (x : Strand × Space) : {(x.1.2, x.2)} ≤ strandLegs x :=
  Multiset.le_add_left _ _

/-- How many ends of the strand are at an index. -/
def touches (i : Index) (x : Strand) : ℕ :=
  (if x.1 = i then 1 else 0) + if x.2 = i then 1 else 0

theorem card_spacesAt_netLegs (net : Multiset (Strand × Space)) (i : Index) :
    (spacesAt (netLegs net) i).card = (net.map fun x => touches i x.1).sum := by
  induction net using Multiset.induction with
  | empty => rfl
  | cons x net ih =>
    rw [netLegs, Multiset.map_cons, Multiset.sum_cons, spacesAt_add, Multiset.card_add,
      ← netLegs, ih, Multiset.map_cons, Multiset.sum_cons, strandLegs, spacesAt_add,
      Multiset.card_add, touches]
    simp only [spacesAt, Multiset.filter_singleton, Multiset.card_map]
    congr 2 <;> split_ifs <;> simp

section Net

variable {legs : Multiset LabelledLeg} {net : Multiset (Strand × Space)}
  (hfits : Fits (legs + netLegs net))

include hfits

/-- A strand that begins at a leg has the space of the leg. -/
theorem Fits.eq_of_first (hx : x ∈ net) (hleg : (x.1.1, v) ∈ legs) : v = x.2 := by
  have hdual := hfits.eq_dual (add_le_add (Multiset.singleton_le.mpr hleg)
    ((first_le_strandLegs x).trans (strandLegs_le hx)))
  rwa [Space.dual_dual] at hdual

/-- A strand that ends at a leg has the dual of its space. -/
theorem Fits.eq_of_second (hx : x ∈ net) (hleg : (x.1.2, v) ∈ legs) : v = x.2.dual :=
  hfits.eq_dual
    (add_le_add (Multiset.singleton_le.mpr hleg)
      ((second_le_strandLegs x).trans (strandLegs_le hx)))

/-- A strand that begins where another one ends has the same space. -/
theorem Fits.eq_of_joined {y : Strand × Space} (hx : x ∈ net) (hy : y ∈ net) (h : x.1.2 = y.1.1) :
    x.2 = y.2 := by
  by_cases hne : x = y
  · rw [hne]
  · have hsecond := second_le_strandLegs x
    rw [h] at hsecond
    have hdual := hfits.eq_dual ((add_le_add hsecond (first_le_strandLegs y)).trans
      ((strandLegs_add_le (pair_le hne hx hy)).trans (Multiset.le_add_left _ _)))
    rwa [Space.dual_dual] at hdual

/-- At most two ends and legs are at one index. -/
theorem Fits.card_add_touches_le {part : Multiset Strand}
    (hpart : part ≤ net.map Prod.fst) (i : Index) :
    (spacesAt legs i).card + (part.map (touches i)).sum ≤ 2 := by
  have hle := hfits.card_le i
  rw [spacesAt_add, Multiset.card_add, card_spacesAt_netLegs] at hle
  have hsum : (part.map (touches i)).sum ≤ (net.map fun x => touches i x.1).sum := by
    obtain ⟨rest, hrest⟩ := Multiset.le_iff_exists_add.mp hpart
    have hmap : (net.map fun x => touches i x.1) = (net.map Prod.fst).map (touches i) := by
      rw [Multiset.map_map]
      rfl
    rw [hmap, hrest, Multiset.map_add, Multiset.sum_add]
    exact Nat.le_add_right _ _
  omega

theorem Fits.card_add_touches_pair_le {x : Strand} (htwo : {x} + {y} ≤ net.map Prod.fst)
    (i : Index) : (spacesAt legs i).card + (touches i x + touches i y) ≤ 2 := by
  have hle := hfits.card_add_touches_le htwo i
  rwa [Multiset.map_add, Multiset.map_singleton, Multiset.map_singleton, Multiset.sum_add,
    Multiset.sum_singleton, Multiset.sum_singleton] at hle

/-- Where two strands meet, no other one is. -/
theorem Fits.eq_or_eq_of_touches {x : Strand} (htwo : {x} + {y} ≤ net.map Prod.fst) {i : Index}
    (hx : 0 < touches i x) (hy : 0 < touches i y) {z : Strand} (hz : z ∈ net.map Prod.fst)
    (hzi : 0 < touches i z) : z = x ∨ z = y := by
  by_contra hother
  push Not at hother
  have hthree : {z} + ({x} + {y}) ≤ net.map Prod.fst := by
    rw [Multiset.singleton_add, Multiset.cons_le_of_notMem (by simpa using hother)]
    exact ⟨hz, htwo⟩
  have hle := hfits.card_add_touches_le hthree i
  rw [Multiset.map_add, Multiset.map_add, Multiset.map_singleton, Multiset.map_singleton,
    Multiset.map_singleton, Multiset.sum_add, Multiset.sum_add, Multiset.sum_singleton,
    Multiset.sum_singleton, Multiset.sum_singleton] at hle
  omega

end Net

/-! ## Spaces that are handed on -/

/-- No two strands end at one index, and strands that begin at one index end at legs of
neighbours. -/
structure HandsOn (neighbours : List TensorRef) (strands : List Strand) : Prop where
  /-- The ends of strands are different. -/
  ends : (strands.map Prod.snd).Nodup
  /-- Strands with a common beginning end at legs. -/
  starts : ∀ x ∈ strands, ∀ y ∈ strands, x.1 = y.1 → x ≠ y → ∃ t ∈ neighbours, x.2 ∈ t.indices

section Assigned

open StrandSpaces

variable {neighbours : List TensorRef} {done : List Strand} {spaces : Table Index LegSpace}
  {legs : Multiset LabelledLeg} {net : List (Strand × Space)} {spaceOf : LegSpace →
    Except Error Space}
  (hassigned : Assigned neighbours done spaces) (hdone : ∀ x, x ∈ net.map Prod.fst ↔ x ∈ done)
  (hfits : Fits (legs + netLegs net))
  (hlegs : ∀ t ∈ neighbours, ∀ i ∈ t.indices, ∃ v, (i, v) ∈ legs ∧
    ∀ isDual, spaceOf ⟨t.object, t.indices.idxOf i, t.isAdjoint, isDual⟩ =
    .ok (if isDual then v.dual else v))

include hassigned hdone hfits hlegs

/-- Every strand gets the space with which it fits, if spaces are handed on from end to
beginning. -/
theorem HandsOn.spaceOf_eq (h : HandsOn neighbours (net.map Prod.fst)) (hx : x ∈ net)
    {space : LegSpace} (hspace : spaces.find? x.1.2 = some space) : spaceOf space = .ok x.2 := by
  have hends : ∀ x ∈ net, ∀ y ∈ net, x.1.2 = y.1.2 → x = y := by
    have hnodup := h.ends
    rw [List.map_map] at hnodup
    exact fun x hx y hy heq => List.inj_on_of_nodup_map hnodup hx hy heq
  -- at the beginning of a strand only if no other one begins there
  let P : Index → LegSpace → Prop := fun i space =>
    (∀ x ∈ net, x.1.2 = i → spaceOf space = .ok x.2) ∧
      ∀ x ∈ net, x.1.1 = i → (∀ y ∈ net, y.1.1 = i → y.1 = x.1) → spaceOf space = .ok x.2
  have hright : ∀ x ∈ net, ∀ space, spaceOf space = .ok x.2 → P x.1.1 space ∧ P x.1.2 space := by
    refine fun x hx space hspace => ⟨⟨fun y hy hend => ?_, fun y hy hfirst hunique => ?_⟩,
      fun y hy hend => ?_, fun y hy hfirst _ => ?_⟩
    · rw [hspace, hfits.eq_of_joined hy hx hend]
    · rw [hspace, hends x hx y hy (congrArg Prod.snd (hunique x hx rfl))]
    · rw [hspace, hends x hx y hy hend.symm]
    · rw [hspace, hfits.eq_of_joined hx hy hfirst.symm]
  have hmem : ∀ e ∈ done, ∃ x ∈ net, x.1 = e := fun e he => List.mem_map.mp ((hdone e).mpr he)
  refine (hassigned.holds (P := P) ?_ ?_ x.1.2 space hspace).1 x hx rfl
  · intro e he space hspace
    obtain ⟨x, hx, rfl⟩ := hmem e he
    refine hright x hx space ?_
    obtain ⟨t, ht, ⟨hindex, rfl⟩ | ⟨hindex, rfl⟩⟩ := exists_of_legSpace? hspace
    · obtain ⟨v, hleg, hv⟩ := hlegs t ht _ hindex
      rw [hv, if_neg (by decide), hfits.eq_of_first hx hleg]
    · obtain ⟨v, hleg, hv⟩ := hlegs t ht _ hindex
      rw [hv, if_pos rfl, hfits.eq_of_second hx hleg, Space.dual_dual]
  · intro e he hnone space hP
    obtain ⟨x, hx, rfl⟩ := hmem e he
    refine hright x hx space ?_
    rcases hP with hP | hP
    · refine hP.2 x hx rfl fun y hy hfirst => by_contra fun hne => ?_
      obtain ⟨t, ht, hindex⟩ :=
        h.starts x.1 (List.mem_map_of_mem hx) y.1 (List.mem_map_of_mem hy) hfirst.symm
        (Ne.symm hne)
      exact (legSpace?_eq_none.mp hnone).2 t ht hindex
    · exact hP.1 x hx rfl

/-- Two strands that begin at one index have the space that is there, unless both end at legs. -/
theorem Fits.find?_eq_of_first_eq (hends : ((net.map Prod.fst).map Prod.snd).Nodup) {x : Strand}
    (htwo : {x} + {y} ≤ (net.map Prod.fst : Multiset Strand)) (hfirst : x.1 = y.1)
    (hnot : ∀ t ∈ neighbours, x.2 ∉ t.indices) :
    spaces.find? x.2 = spaces.find? x.1 ∧ spaces.find? y.2 = spaces.find? x.1 := by
  have hlegCard : ∀ t ∈ neighbours, ∀ i ∈ t.indices, 0 < (spacesAt legs i).card := by
    intro t ht i hi
    obtain ⟨v, hleg, -⟩ := hlegs t ht i hi
    exact Multiset.card_pos_iff_exists_mem.mpr ⟨v, mem_spacesAt.mpr hleg⟩
  have hxi : touches x.1 x = 1 + if x.2 = x.1 then 1 else 0 := by simp [touches]
  have hyi : touches x.1 y = 1 + if y.2 = x.1 then 1 else 0 := by simp [touches, hfirst]
  have hcard := hfits.card_add_touches_pair_le htwo x.1
  -- nothing else is at the common beginning
  have hno : ∀ t ∈ neighbours, x.1 ∉ t.indices := by
    intro t ht hindex
    have hpos := hlegCard t ht x.1 hindex
    omega
  have honly : ∀ z ∈ done, 0 < touches x.1 z → z = x ∨ z = y := fun z hz hzi =>
    hfits.eq_or_eq_of_touches htwo (by omega) (by omega) (Multiset.mem_coe.mpr ((hdone z).mpr hz))
      hzi
  have hnoend : ∀ z ∈ done, z.2 ≠ x.1 := by
    intro z hz hend
    rcases honly z hz (by simp [touches, hend]) with rfl | rfl
    · rw [if_pos hend] at hxi
      omega
    · rw [if_pos hend] at hyi
      omega
  have hmem : ∀ z, z = x ∨ z = y → z ∈ done := by
    intro z hz
    refine (hdone z).mp (Multiset.mem_coe.mp (Multiset.mem_of_le htwo ?_))
    simpa using hz
  have hxnone : legSpace? neighbours x = none := legSpace?_eq_none.mpr ⟨hno, hnot⟩
  have hanchored : ∀ z ∈ done, z.1 = x.1 → legSpace? neighbours z ≠ none → z = y := by
    intro z hz hzfirst hzne
    refine (honly z hz (by simp [touches, hzfirst])).resolve_left ?_
    rintro rfl
    exact hzne hxnone
  -- the end of a strand at a leg is no beginning
  have hnojoint : ∀ z ∈ done, z.1 = x.1 → legSpace? neighbours z ≠ none →
      ∀ w ∈ done, z.2 ≠ w.1 := by
    intro z hz hzfirst hzne w hw hjoined
    obtain rfl := hanchored z hz hzfirst hzne
    rw [Ne, legSpace?_eq_none, not_and_or] at hzne
    push Not at hzne
    obtain ⟨t, ht, hindex⟩ := hzne.resolve_left fun ⟨t, ht, hindex⟩ => hno t ht (hzfirst ▸ hindex)
    have hpos := hlegCard t ht z.2 hindex
    have hwz : z ≠ w := by
      rintro rfl
      exact hnoend z hz (hjoined.trans hzfirst)
    have hcard' := hfits.card_add_touches_pair_le
      (pair_le hwz (Multiset.mem_coe.mpr ((hdone z).mpr hz))
        (Multiset.mem_coe.mpr ((hdone w).mpr hw))) z.2
    have hzend : 0 < touches z.2 z := by simp [touches]
    have hwend : 0 < touches z.2 w := by simp [touches, hjoined]
    omega
  have heq := hassigned.find?_eq_of_first_eq
    (fun z hz w hw => List.inj_on_of_nodup_map hends ((hdone z).mpr hz) ((hdone w).mpr hw)) hnoend
    (fun z hz w hw hzfirst hwfirst hzne hwne =>
      (hanchored z hz hzfirst hzne).trans (hanchored w hw hwfirst hwne).symm) hnojoint
  exact ⟨heq x (hmem x (Or.inl rfl)) rfl, heq y (hmem y (Or.inr rfl)) hfirst.symm⟩

/-- If strands fit with the spaces that they get, then these have been handed on from end to
beginning. -/
theorem handsOn_of_fits {others : Multiset LabelledLeg} (value : Option LegSpace → Space)
    (h : Fits (others + netLegs ((net.map Prod.fst).map fun x => (x, value (spaces.find? x.2))))) :
    HandsOn neighbours (net.map Prod.fst) := by
  have hpair : ∀ {x y : Strand}, ({x} + {y} : Multiset Strand) ≤ (net.map Prod.fst : List Strand) →
      strandLegs (x, value (spaces.find? x.2)) + strandLegs (y, value (spaces.find? y.2)) ≤
        others + netLegs ((net.map Prod.fst).map fun x => (x, value (spaces.find? x.2))) := by
    intro x y hle
    refine (strandLegs_add_le ?_).trans (Multiset.le_add_left _ _)
    rw [← Multiset.map_coe]
    exact Multiset.map_le_map hle
  have hends : ((net.map Prod.fst).map Prod.snd).Nodup := by
    rw [List.nodup_iff_sublist]
    intro i hsublist
    obtain ⟨part, hpart, hmap⟩ := List.sublist_map_iff.mp hsublist
    obtain ⟨x, rest, rfl, rfl, hrest⟩ := List.map_eq_cons_iff.mp hmap.symm
    obtain ⟨y, rest, rfl, hy, hnil⟩ := List.map_eq_cons_iff.mp hrest
    obtain rfl := List.map_eq_nil_iff.mp hnil
    have hsecond : {(x.2, value (spaces.find? x.2))} ≤
        strandLegs (y, value (spaces.find? y.2)) := by
      rw [← hy]
      exact second_le_strandLegs (y, value (spaces.find? y.2))
    have hdual :=
      h.eq_dual ((add_le_add (second_le_strandLegs (x, value (spaces.find? x.2))) hsecond).trans
      (hpair hpart.subperm))
    exact Space.dual_ne_self _ hdual.symm
  refine ⟨hends, fun x hx y hy hfirst hne => by_contra fun hnot => ?_⟩
  push Not at hnot
  have htwo : ({x} + {y} : Multiset Strand) ≤ (net.map Prod.fst : List Strand) := pair_le hne hx hy
  obtain ⟨hx', hy'⟩ := hfits.find?_eq_of_first_eq hassigned hdone hlegs hends htwo hfirst hnot
  have hsecond : {(x.1, (value (spaces.find? x.2)).dual)} ≤
      strandLegs (y, value (spaces.find? y.2)) := by
    rw [hfirst, hx', ← hy']
    exact first_le_strandLegs (y, value (spaces.find? y.2))
  have hdual :=
    h.eq_dual
      ((add_le_add (first_le_strandLegs (x, value (spaces.find? x.2))) hsecond).trans (hpair htwo))
  exact Space.dual_ne_self _ hdual.symm

end Assigned

end TensorDiagram
