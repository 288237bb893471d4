import TensorDiagram.Proofs.LegArray

/-!
# Arrays joined by wires

A wire is the identity on a space, as an array with two legs.  Contracting an array with a wire
replaces one label by another (`sumOver_wire`).  A network of wires that are all attached to an
array, directly or through other wires, therefore does nothing but identify labels: contracting the
array with the wires is contracting the array after the labels have been identified
(`contract_wires`).

Which labels the wires identify is said without following them.  A function on labels is constant
along the wires if it has the same value at both ends of each wire.  The identification `r` is right
if labels with one representative have the same value under all such functions, and all wires are
attached to the array if a property of labels that is constant along the wires and holds on the
array also holds on the wires.
-/

namespace TensorDiagram.LegArray

variable {R : Type} [CommRing R]
variable {a b : Index} {v : Space}
variable (r : Index → Index)

/-! ## Other labels -/

/-- The array with other labels on its legs. -/
def mapLabels (r : Index → Index) (N : LegArray R) : LegArray R where
  legs := N.legs.map fun leg => (r leg.1, leg.2)
  entry g := N.entry (g ∘ r)
  entry_congr := by
    intro g g' h
    refine N.entry_congr _ _ fun leg hleg => ?_
    exact h (r leg.1, leg.2) (Multiset.mem_map_of_mem _ hleg)
  entry_eq_zero := by
    intro g leg hleg hdim
    obtain ⟨old, hold, rfl⟩ := Multiset.mem_map.mp hleg
    exact N.entry_eq_zero _ old hold hdim

/-- The legs with other labels. -/
@[simp] theorem legs_mapLabels (N : LegArray R) :
    (N.mapLabels r).legs = N.legs.map fun leg => (r leg.1, leg.2) := rfl

/-- The entries with other labels. -/
@[simp] theorem entry_mapLabels (N : LegArray R) (g : Index → ℕ) :
    (N.mapLabels r).entry g = N.entry (g ∘ r) := rfl

/-- The other labels. -/
theorem labels_mapLabels (N : LegArray R) : (N.mapLabels r).labels = N.labels.map r := by
  rw [labels, labels, legs_mapLabels, Multiset.map_map, Multiset.map_map]
  rfl

/-- Other labels keep the sizes. -/
theorem size_mapLabels (N : LegArray R) : (N.mapLabels r).size = N.size := by
  rw [size, size, legs_mapLabels, Multiset.map_map]
  rfl

/-- A product with other labels. -/
theorem mapLabels_mul (N M : LegArray R) : (N * M).mapLabels r = N.mapLabels r * M.mapLabels r :=
  LegArray.ext (Multiset.map_add _ _ _) fun _ => rfl

/-- A constant has no labels. -/
theorem mapLabels_const (x : R) : (const x).mapLabels r = const x :=
  LegArray.ext rfl fun _ => rfl

/-- Labels that are replaced twice. -/
theorem prod_map_mapLabels (Ns : List (LegArray R)) :
    (Ns.map (mapLabels r)).prod = Ns.prod.mapLabels r := by
  induction Ns with
  | nil => exact (mapLabels_const r 1).symm
  | cons N Ns ih => rw [List.map_cons, List.prod_cons, List.prod_cons, mapLabels_mul, ih]

/-- Labels can be replaced one after another. -/
theorem mapLabels_mapLabels (s : Index → Index) (N : LegArray R) :
    (N.mapLabels s).mapLabels r = N.mapLabels (r ∘ s) :=
  LegArray.ext (Multiset.map_map _ _ _) fun _ => rfl

/-- Only the labels of the array matter. -/
theorem mapLabels_congr {r r' : Index → Index} {N : LegArray R} (h : ∀ l ∈ N.labels, r l = r' l) :
    N.mapLabels r = N.mapLabels r' := by
  have hleg : ∀ leg ∈ N.legs, r leg.1 = r' leg.1 :=
    fun leg hleg => h _ (mem_labels.mpr ⟨leg, hleg, rfl⟩)
  refine LegArray.ext (Multiset.map_congr rfl fun leg hmem => by rw [hleg leg hmem]) fun g => ?_
  exact N.entry_congr _ _ fun leg hmem => congrArg g (hleg leg hmem)

/-! ## Labels that stay apart -/

section Injective

variable {N : LegArray R} {r : Index → Index} (hr : Set.InjOn r {l | l ∈ N.labels})

include hr

/-- The spaces at another label. -/
theorem spacesAt_mapLabels {l : Index} (hl : l ∈ N.labels) :
    spacesAt (N.mapLabels r).legs (r l) = spacesAt N.legs l := by
  rw [spacesAt, spacesAt, legs_mapLabels, Multiset.filter_map, Multiset.map_map]
  refine congrArg _ (Multiset.filter_congr fun leg hleg => ?_)
  constructor
  · exact fun h => hr (mem_labels.mpr ⟨leg, hleg, rfl⟩) hl h
  · exact fun h => congrArg r h

/-- Labels that stay apart can be joined as before. -/
theorem Joinable.mapLabels (h : N.Joinable) : (N.mapLabels r).Joinable := by
  intro l
  by_cases hl : l ∈ (N.mapLabels r).labels
  · rw [labels_mapLabels] at hl
    obtain ⟨k, hk, rfl⟩ := Multiset.mem_map.mp hl
    rw [spacesAt_mapLabels hr hk]
    exact h k
  · refine Or.inl (Multiset.card_eq_zero.mp ?_)
    rw [card_spacesAt, Multiset.count_eq_zero.mpr hl]

/-- Joined labels stay joined. -/
theorem mem_joined_mapLabels {l : Index} (hl : l ∈ N.labels) :
    r l ∈ (N.mapLabels r).joined ↔ l ∈ N.joined := by
  rw [mem_joined, mem_joined, labels_mapLabels, Multiset.count_map_eq_count _ _ hr _ hl]

/-- The joined labels under other names. -/
theorem joined_mapLabels : (N.mapLabels r).joined = N.joined.image r := by
  ext l
  rw [Finset.mem_image]
  constructor
  · intro hl
    have hmem := mem_labels_of_mem_joined hl
    rw [labels_mapLabels] at hmem
    obtain ⟨k, hk, rfl⟩ := Multiset.mem_map.mp hmem
    exact ⟨k, (mem_joined_mapLabels hr hk).mp hl, rfl⟩
  · rintro ⟨k, hk, rfl⟩
    exact (mem_joined_mapLabels hr (mem_labels_of_mem_joined hk)).mpr hk

/-- Labels that stay apart are summed over as before. -/
theorem contract_mapLabels : (N.mapLabels r).contract = N.contract.mapLabels r := by
  refine LegArray.ext ?_ fun ρ => ?_
  · rw [contract, contract, legs_sumOver, legs_mapLabels, legs_mapLabels, legs_sumOver,
      Multiset.filter_map]
    refine congrArg _ (Multiset.filter_congr fun leg hleg => ?_)
    exact not_congr (mem_joined_mapLabels hr (mem_labels.mpr ⟨leg, hleg, rfl⟩))
  · change ∑ h ∈ valuations (N.mapLabels r).joined (fun _ => (N.mapLabels r).size) ρ,
      N.entry (h ∘ r) = ∑ g ∈ valuations N.joined (fun _ => N.size) (ρ ∘ r), N.entry g
    rw [joined_mapLabels hr, size_mapLabels]
    -- a valuation of the new labels is one of the old labels, which are found by inverting `r`
    have : Nonempty Index := ⟨.number 0⟩
    have hjoined : Set.InjOn r N.joined := fun k hk l hl hkl =>
      hr (mem_labels_of_mem_joined hk) (mem_labels_of_mem_joined hl) hkl
    have hinv : ∀ l ∈ N.joined, Function.invFunOn r N.joined (r l) = l := fun l hl =>
      hjoined.leftInvOn_invFunOn hl
    refine Finset.sum_nbij' (fun h l => if l ∈ N.joined then h (r l) else ρ (r l))
      (fun g l => if l ∈ N.joined.image r then g (Function.invFunOn r N.joined l) else ρ l)
      ?_ ?_ ?_ ?_ ?_
    · intro h hh
      rw [mem_valuations] at hh ⊢
      refine ⟨fun l hl => ?_, fun l hl => by simp [hl]⟩
      simpa [hl] using hh.1 (r l) (Finset.mem_image_of_mem r hl)
    · intro g hg
      rw [mem_valuations] at hg ⊢
      refine ⟨fun l hl => ?_, fun l hl => if_neg hl⟩
      rw [if_pos hl]
      obtain ⟨k, hk, rfl⟩ := Finset.mem_image.mp hl
      rw [hinv k hk]
      exact hg.1 k hk
    · intro h hh
      funext l
      by_cases hl : l ∈ N.joined.image r
      · rw [if_pos hl]
        obtain ⟨k, hk, rfl⟩ := Finset.mem_image.mp hl
        rw [hinv k hk]
        exact if_pos hk
      · rw [if_neg hl, (mem_valuations.mp hh).2 l hl]
    · intro g hg
      funext l
      by_cases hl : l ∈ N.joined
      · rw [if_pos hl]
        exact (if_pos (Finset.mem_image_of_mem r hl)).trans (congrArg g (hinv l hl))
      · rw [if_neg hl, (mem_valuations.mp hg).2 l hl]
        rfl
    · intro h hh
      refine N.entry_congr _ _ fun leg hleg => ?_
      by_cases hl : leg.1 ∈ N.joined
      · rw [if_pos hl]
        rfl
      · have hnot : r leg.1 ∉ N.joined.image r := by
          rw [← joined_mapLabels hr, mem_joined_mapLabels hr (mem_labels.mpr ⟨leg, hleg, rfl⟩)]
          exact hl
        rw [if_neg hl, Function.comp_apply, (mem_valuations.mp hh).2 _ hnot]

end Injective

/-! ## One wire -/

/-- The identity on a space, from one label to another. -/
def wire (a b : Index) (v : Space) : LegArray R where
  legs := {(b, v), (a, v.dual)}
  entry g := if g a = g b ∧ g b < v.dim.toNat then 1 else 0
  entry_congr := by
    intro g g' h
    rw [h (b, v) (by simp), h (a, v.dual) (by simp)]
  entry_eq_zero := by
    intro g leg hleg hdim
    rw [if_neg]
    rintro ⟨hab, hb⟩
    rcases Multiset.mem_cons.mp hleg with rfl | hleg
    · exact absurd hb (not_lt.mpr hdim)
    · obtain rfl := Multiset.mem_singleton.mp hleg
      rw [← hab] at hb
      exact absurd hb (not_lt.mpr hdim)

/-- A wire has two dual legs. -/
theorem legs_wire (a b : Index) (v : Space) :
    (wire a b v : LegArray R).legs = {(b, v), (a, v.dual)} := rfl

/-- The labels of a wire are its ends. -/
theorem labels_wire (a b : Index) (v : Space) : (wire a b v : LegArray R).labels = {b, a} := rfl

/-- The ends of a wire are different legs. -/
theorem count_labels_wire (hab : a ≠ b) (v : Space) :
    (wire a b v : LegArray R).labels.count a = 1 := by
  rw [labels_wire, Multiset.insert_eq_cons, Multiset.count_cons_of_ne hab,
    Multiset.count_singleton_self]

/-- A wire has no direction. -/
theorem wire_symm (a b : Index) (v : Space) : (wire b a v.dual : LegArray R) = wire a b v := by
  refine LegArray.ext ?_ fun g => ?_
  · rw [legs_wire, legs_wire, Space.dual_dual, Multiset.pair_comm]
  · change (if _ then _ else _) = (if _ then _ else _)
    refine if_congr ?_ rfl rfl
    rw [Space.dim_dual]
    constructor
    · rintro ⟨hab, ha⟩
      exact ⟨hab.symm, hab ▸ ha⟩
    · rintro ⟨hab, hb⟩
      exact ⟨hab.symm, hab ▸ hb⟩

/-- The space at the beginning of a wire. -/
theorem spacesAt_wire (hab : a ≠ b) (v : Space) :
    spacesAt (wire a b v : LegArray R).legs a = {v.dual} := by
  rw [spacesAt, legs_wire, Multiset.insert_eq_cons,
    Multiset.filter_cons_of_neg _ (by exact hab.symm),
    Multiset.filter_singleton, if_pos rfl, Multiset.map_singleton]

/-- Two spaces that are dual to each other. -/
theorem eq_dual_of_pair_eq {w u : Space} (h : ({v, w} : Multiset Space) = {u, u.dual}) :
    v = w.dual := by
  have hv : v ∈ ({u, u.dual} : Multiset Space) := h ▸ Multiset.mem_cons_self v _
  rcases Multiset.mem_cons.mp hv with rfl | hv
  · have hw : w = v.dual := Multiset.singleton_inj.mp ((Multiset.cons_inj_right v).mp h)
    rw [hw, Space.dual_dual]
  · obtain rfl := Multiset.mem_singleton.mp hv
    rw [Multiset.pair_comm u] at h
    rw [Multiset.singleton_inj.mp ((Multiset.cons_inj_right _).mp h)]

/-- Where a wire is attached to an array, nothing else is. -/
theorem of_joinable_wire {A M : LegArray R} (h : (A * wire a b v * M).Joinable)
    (ha : a ∈ A.labels) : a ≠ b ∧ spacesAt A.legs a = {v} ∧ a ∉ M.labels := by
  have hpos := Multiset.count_pos.mpr ha
  have hle := h.count_le a
  rw [labels_mul, labels_mul, Multiset.count_add, Multiset.count_add] at hle
  have hab : a ≠ b := by
    rintro rfl
    simp [labels_wire] at hle
    omega
  have hwire := count_labels_wire (R := R) hab v
  have hM : a ∉ M.labels := Multiset.count_eq_zero.mp (by omega)
  have hMat : spacesAt M.legs a = 0 := by
    rw [← Multiset.card_eq_zero, card_spacesAt, Multiset.count_eq_zero.mpr hM]
  have hcard : (spacesAt A.legs a).card = 1 := by
    rw [card_spacesAt]
    omega
  obtain ⟨w, hw⟩ := Multiset.card_eq_one.mp hcard
  have hspaces : spacesAt (A * wire a b v * M).legs a = {w, v.dual} := by
    rw [legs_mul, legs_mul, spacesAt_add, spacesAt_add, hw, hMat, spacesAt_wire hab, add_zero]
    rfl
  have hjoin := h a
  rw [hspaces] at hjoin
  rcases hjoin with hnone | ⟨u, hone⟩ | ⟨u, htwo⟩
  · cases Multiset.cons_ne_zero hnone
  · cases congrArg Multiset.card hone
  · rw [hw, eq_dual_of_pair_eq htwo, Space.dual_dual]
    exact ⟨hab, rfl, hM⟩

/-- A wire replaces the label at which it is attached by the label at its other end. -/
theorem sumOver_wire {A : LegArray R} (hab : a ≠ b) (ha : spacesAt A.legs a = {v}) :
    sumOver {a} (A * wire a b v) = A.mapLabels (Function.update id a b) := by
  have hleg : (a, v) ∈ A.legs := mem_spacesAt.mp (ha ▸ Multiset.mem_singleton_self v)
  refine LegArray.ext ?_ fun ρ => ?_
  · have hattached : A.legs.filter (fun leg => leg.1 = a) = {(a, v)} := by
      obtain ⟨⟨k, w⟩, hk, rfl⟩ := Multiset.map_eq_singleton.mp ha
      have hmem := Multiset.mem_filter.mp (hk ▸ Multiset.mem_singleton_self (k, w))
      rw [hk, show k = a from hmem.2]
    have hkept : (A.legs.filter fun leg => ¬ leg.1 = a).map
        (fun leg => (Function.update id a b leg.1, leg.2)) = A.legs.filter fun leg =>
        ¬ leg.1 = a := by
      refine (Multiset.map_congr rfl fun leg hleg => ?_).trans (Multiset.map_id _)
      rw [Function.update_of_ne (Multiset.mem_filter.mp hleg).2]
      rfl
    have hmoved : A.legs.map (fun leg => (Function.update id a b leg.1, leg.2)) =
        {(b, v)} + A.legs.filter fun leg => ¬ leg.1 = a := by
      conv_lhs => rw [← Multiset.filter_add_not (fun leg => leg.1 = a) A.legs]
      rw [Multiset.map_add, hkept, hattached, Multiset.map_singleton, Function.update_self]
    have hother : ({(b, v), (a, v.dual)} : Multiset LabelledLeg).filter (fun leg => ¬ leg.1 = a) =
        {(b, v)} := by
      rw [Multiset.insert_eq_cons, Multiset.filter_cons_of_pos _ (by exact hab.symm),
        Multiset.filter_singleton, if_neg (not_not.mpr rfl)]
      rfl
    rw [legs_mapLabels, hmoved, legs_sumOver]
    simp only [Finset.mem_singleton]
    rw [legs_mul, legs_wire, Multiset.filter_add, hother, add_comm]
  · have hbound : ∀ g, (A * wire a b v).entry g ≠ 0 →
        ∀ l ∈ ({a} : Finset Index), g l < v.dim.toNat := by
      intro g hg l hl
      obtain rfl := Finset.mem_singleton.mp hl
      by_contra hge
      exact left_ne_zero_of_mul hg (A.entry_eq_zero g _ hleg (not_lt.mp hge))
    have hlabels : ∀ l ∈ ({a} : Finset Index), l ∈ (A * wire a b v).labels := by
      intro l hl
      rw [Finset.mem_singleton.mp hl, labels_mul, labels_wire]
      simp
    have hupdate : ρ ∘ Function.update id a b = Function.update ρ a (ρ b) := by
      rw [Function.comp_update, Function.comp_id]
    rw [entry_sumOver_eq hlabels hbound, sum_valuations_singleton, entry_mapLabels, hupdate]
    have hwire : ∀ i, (wire a b v : LegArray R).entry (Function.update ρ a i) =
        if i = ρ b ∧ ρ b < v.dim.toNat then 1 else 0 := by
      intro i
      change (if _ then _ else _) = _
      rw [Function.update_self, Function.update_of_ne hab.symm]
    simp only [entry_mul, hwire]
    by_cases hb : ρ b < v.dim.toNat
    · rw [Finset.sum_eq_single_of_mem (ρ b) (Finset.mem_range.mpr hb) fun i _ hi => by simp [hi]]
      simp [hb]
    · rw [Finset.sum_eq_zero fun i _ => by simp [hb]]
      refine (A.entry_eq_zero _ _ hleg ?_).symm
      simpa using hb

end TensorDiagram.LegArray

namespace TensorDiagram

/-! ## Many wires -/

/-- A wire between two labels. -/
structure Wire where
  /-- The label at one end. -/
  first : Index
  /-- The label at the other end. -/
  last : Index
  /-- The space at the last end. -/
  space : Space

namespace Wire

variable {R : Type} [CommRing R]
variable {wires : Multiset Wire} {A : LegArray R}

/-- The wire as an array. -/
def toArray (w : Wire) : LegArray R :=
  .wire w.first w.last w.space

/-- The wire seen from its other end. -/
def flipped (w : Wire) : Wire :=
  ⟨w.last, w.first, w.space.dual⟩

/-- A wire is the same the other way round. -/
theorem toArray_flipped (w : Wire) : (w.flipped.toArray : LegArray R) = w.toArray :=
  LegArray.wire_symm w.first w.last w.space

/-- The function has the same values at both ends of all wires. -/
def Constant {α : Type} (f : Index → α) (wires : Multiset Wire) : Prop :=
  ∀ w ∈ wires, f w.first = f w.last

/-- The wires as one array. -/
def arrays (wires : Multiset Wire) : LegArray R :=
  (wires.map toArray).prod

/-- One more wire. -/
theorem arrays_cons (w : Wire) (wires : Multiset Wire) :
    (arrays (w ::ₘ wires) : LegArray R) = w.toArray * arrays wires := by
  rw [arrays, Multiset.map_cons, Multiset.prod_cons, arrays]

/-- The wires of two bundles. -/
theorem arrays_add (wires others : Multiset Wire) :
    (arrays (wires + others) : LegArray R) = arrays wires * arrays others := by
  rw [arrays, Multiset.map_add, Multiset.prod_add, arrays, arrays]

/-- No wires. -/
@[simp] theorem arrays_zero : (arrays 0 : LegArray R) = 1 := by
  rw [arrays, Multiset.map_zero, Multiset.prod_zero]

/-- The ends of wires are labels of their array. -/
theorem mem_labels_arrays {w : Wire} (h : w ∈ wires) :
    w.first ∈ (arrays wires : LegArray R).labels ∧ w.last ∈ (arrays wires : LegArray R).labels := by
  obtain ⟨rest, rfl⟩ := Multiset.exists_cons_of_mem h
  rw [arrays_cons, LegArray.labels_mul, toArray, LegArray.labels_wire]
  simp

/-- The array to which all wires are attached. -/
def Attached (wires : Multiset Wire) (A : LegArray R) : Prop :=
  ∀ P : Index → Prop, Constant P wires → (∀ l ∈ A.labels, P l) → ∀ w ∈ wires, P w.first

/-- Labels with the same representative are joined by wires. -/
def Identifies (r : Index → Index) (wires : Multiset Wire) (labels : Multiset Index) : Prop :=
  ∀ f : Index → Index, Constant f wires → ∀ k ∈ labels, ∀ l ∈ labels, r k = r l → f k = f l

/-- One of the wires is attached to the array directly. -/
theorem Attached.exists_mem (h : Attached wires A) (hwires : wires ≠ 0) :
    ∃ w ∈ wires, w.first ∈ A.labels ∨ w.last ∈ A.labels := by
  by_contra hnone
  push Not at hnone
  obtain ⟨w, hw⟩ := Multiset.exists_mem_of_ne_zero hwires
  -- being no end of a wire is constant along wires
  have hend := h (fun l => ∀ w ∈ wires, l ≠ w.first ∧ l ≠ w.last)
    (fun w hw => propext (iff_of_false (fun h => (h w hw).1 rfl) fun h => (h w hw).2 rfl))
    (fun l hl w hw => ⟨fun heq => (hnone w hw).1 (heq ▸ hl), fun heq => (hnone w hw).2 (heq ▸ hl)⟩)
    w hw
  exact (hend w hw).1 rfl

/-- A wire that is attached to the array directly, and the wires that are left without it. -/
structure Detaches (A : LegArray R) (wires : Multiset Wire) (a b : Index) (rest : Multiset Wire) :
    Prop where
  /-- There are fewer wires left. -/
  lt : rest < wires
  /-- The ends of the wire are different. -/
  ne : a ≠ b
  /-- The wire is attached to nothing else. -/
  notMem : a ∉ (arrays rest : LegArray R).labels
  /-- What is constant along all wires. -/
  constant_iff : ∀ {α : Type} (f : Index → α), Constant f wires ↔ f a = f b ∧ Constant f rest
  /-- Its label is summed over. -/
  joined : a ∈ (A * arrays wires).joined
  /-- The sum replaces its label by that at the other end. -/
  sumOver_eq : (A * arrays wires).sumOver {a} = A.mapLabels (Function.update id a b) * arrays rest

/-- A wire can be detached as long as there are wires. -/
theorem Attached.exists_detaches (h : Attached wires A) (hjoin : (A * arrays wires).Joinable)
    (hwires : wires ≠ 0) : ∃ a b rest, Detaches A wires a b rest := by
  obtain ⟨w, hw, hend⟩ := h.exists_mem hwires
  obtain ⟨rest, rfl⟩ := Multiset.exists_cons_of_mem hw
  -- seen from the end that is attached
  obtain ⟨u, hu, hfirst, hends⟩ : ∃ u : Wire, (u.toArray : LegArray R) = w.toArray ∧
      u.first ∈ A.labels ∧ ∀ {α : Type} (f : Index → α), f w.first = f w.last ↔
      f u.first = f u.last := by
    rcases hend with hend | hend
    · exact ⟨w, rfl, hend, fun f => Iff.rfl⟩
    · exact ⟨w.flipped, toArray_flipped w, hend, fun f => eq_comm⟩
  rw [arrays_cons, ← hu, ← mul_assoc] at hjoin
  obtain ⟨hne, hspace, hnot⟩ := LegArray.of_joinable_wire hjoin hfirst
  have hmem : u.first ∈ (A * u.toArray).labels := by
    rw [LegArray.labels_mul]
    exact Multiset.mem_add.mpr (Or.inl hfirst)
  refine ⟨u.first, u.last, rest, ⟨Multiset.lt_cons_self rest w, hne, hnot, fun f => ?_, ?_, ?_⟩⟩
  · rw [Constant, Multiset.forall_mem_cons, hends]
    rfl
  · have hle := hjoin.count_le u.first
    have hpos := Multiset.count_pos.mpr hfirst
    rw [arrays_cons, ← hu, ← mul_assoc, LegArray.mem_joined]
    rw [toArray, LegArray.labels_mul, LegArray.labels_mul, Multiset.count_add, Multiset.count_add,
      LegArray.count_labels_wire hne] at hle ⊢
    omega
  · rw [arrays_cons, ← hu, ← mul_assoc,
      ← LegArray.sumOver_mul (by simpa using hmem) (by simpa using hnot), toArray,
      LegArray.sumOver_wire hne hspace]

/-- Wires that are attached to an array do nothing but identify its labels. -/
theorem contract_arrays {r : Index → Index} (hjoin : (A * arrays wires).Joinable)
    (hconstant : Constant r wires) (hr : Identifies r wires (A * arrays wires).labels)
    (hattached : Attached wires A) :
    (A.mapLabels r).Joinable ∧
      (A.mapLabels r).contract = (A * arrays wires).contract.mapLabels r := by
  induction hn : wires.card using Nat.strong_induction_on generalizing wires A with
  | _ n ih =>
    subst hn
    by_cases hwires : wires = 0
    · subst hwires
      rw [arrays_zero, mul_one] at hjoin hr ⊢
      have hinj : Set.InjOn r {l | l ∈ A.labels} := fun k hk l hl hkl =>
        hr id (fun w hw => absurd hw (Multiset.notMem_zero w)) k hk l hl hkl
      exact ⟨hjoin.mapLabels hinj, LegArray.contract_mapLabels hinj⟩
    · obtain ⟨a, b, rest, hdetaches⟩ := hattached.exists_detaches hjoin hwires
      have hsum := hdetaches.sumOver_eq
      obtain ⟨hrab, hrest⟩ := (hdetaches.constant_iff r).mp hconstant
      -- a function along the wires that are left gives one along all wires
      have hextend : ∀ {α : Type} (f : Index → α), Constant f rest →
          Constant (f ∘ Function.update id a b) wires := by
        intro α f hf
        refine (hdetaches.constant_iff _).mpr ⟨?_, fun w hw => ?_⟩
        · simp [Function.update_of_ne hdetaches.ne.symm]
        · obtain ⟨hfirst, hlast⟩ := mem_labels_arrays (R := R) hw
          have hne : w.first ≠ a := fun heq => hdetaches.notMem (heq ▸ hfirst)
          have hne' : w.last ≠ a := fun heq => hdetaches.notMem (heq ▸ hlast)
          simpa [Function.update_of_ne hne, Function.update_of_ne hne'] using hf w hw
      have hmap : (A.mapLabels (Function.update id a b)).mapLabels r = A.mapLabels r := by
        rw [LegArray.mapLabels_mapLabels]
        refine LegArray.mapLabels_congr fun l _ => ?_
        by_cases hl : l = a
        · rw [hl, Function.comp_apply, Function.update_self, hrab]
        · rw [Function.comp_apply, Function.update_of_ne hl, id]
      have hlabels : ∀ l ∈ (A.mapLabels (Function.update id a b) * arrays rest).labels,
          l ∈ (A * arrays wires).labels ∧ l ≠ a := by
        intro l hl
        rw [← hsum, ← Multiset.count_pos, LegArray.count_labels_sumOver] at hl
        split_ifs at hl with hla
        · exact absurd hl (lt_irrefl 0)
        · exact ⟨Multiset.count_pos.mp hl, by simpa using hla⟩
      have hih :=
        ih _ (Multiset.card_lt_card hdetaches.lt) (hsum ▸ hjoin.sumOver {a}) hrest ?_ ?_ rfl
      · rwa [hmap, ← hsum, LegArray.contract_sumOver (by simpa using hdetaches.joined)] at hih
      · intro f hf k hk l hl hkl
        obtain ⟨hk, hka⟩ := hlabels k hk
        obtain ⟨hl, hla⟩ := hlabels l hl
        simpa [Function.update_of_ne hka, Function.update_of_ne hla] using hr _ (hextend f hf) k hk
          l hl hkl
      · intro P hP hA w hw
        have hmem : ∀ l ∈ A.labels, Function.update id a b l ∈
            (A.mapLabels (Function.update id a b)).labels := by
          intro l hl
          rw [LegArray.labels_mapLabels]
          exact Multiset.mem_map_of_mem _ hl
        have hfirst := hattached _ (hextend P hP) (fun l hl => hA _ (hmem l hl)) w
          (Multiset.mem_of_le hdetaches.lt.le hw)
        have hne : w.first ≠ a := fun heq => hdetaches.notMem (heq ▸ (mem_labels_arrays hw).1)
        simpa [Function.update_of_ne hne] using hfirst

end Wire

end TensorDiagram
