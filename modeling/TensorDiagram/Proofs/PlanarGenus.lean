import TensorDiagram.Proofs.Lowering
import TensorDiagram.Proofs.Monomials
import TensorDiagram.Proofs.RibbonGraph
import TensorDiagram.Proofs.RoundReduction

/-!
# Planar assignments have genus zero

An assignment of a product draws a ribbon graph: every reference is a vertex with its legs around
it, the left hand side is a vertex that is seen from the other side, and every index is an edge.

Whether an assignment is planar is decided without this graph, by orders of open indices.  Along the
way through a product these orders are rounds of darts: where a product admits an order, the
vertices of its factors can be joined and reduced until only the open legs are left, in that order
(`IsMonomial.exists_reduces`).  So the graph of a planar assignment is reduced to nothing, and it
has genus zero (`planar_assignment_genus_zero`).
-/

namespace TensorDiagram

open DartMap

namespace Diagram

variable {D : Type} {m : DartMap D} {label : D → Index}

/-- The labels of a list are moved around a circle together with the list. -/
theorem exists_isRotated_of_map {w : List D} {order : List Index} (h : w.map label ~r order) :
    ∃ w', w ~r w' ∧ w'.map label = order := by
  obtain ⟨n, hn⟩ := h
  exact ⟨w.rotate n, ⟨n, rfl⟩, by rw [List.map_rotate, hn]⟩

/-- Opposite darts are found by their labels. -/
theorem map_opposite_eq {s t : List D} (hlabels : s.map label = t.map label)
    (hmates : ∀ c ∈ s, ∀ d ∈ t, label c = label d → m.opposite c = d) : s.map m.opposite = t := by
  induction s generalizing t with
  | nil => rw [List.map_nil] at hlabels ⊢; exact (List.map_eq_nil_iff.mp hlabels.symm).symm
  | cons c s ih =>
    obtain ⟨d, t, rfl, hd, ht⟩ := List.map_eq_cons_iff.mp hlabels.symm
    rw [List.map_cons, hmates c (List.mem_cons_self ..) d (List.mem_cons_self ..) hd.symm,
      ih ht.symm]
    exact fun c hc d hd => hmates c (List.mem_cons_of_mem _ hc) d (List.mem_cons_of_mem _ hd)

variable [DecidableEq D] [Finite D]

/-- Two rounds with arcs that run in opposite directions are joined, and the arcs are cancelled. -/
theorem exists_reduces_pair {w₁ w₂ : List D} {u s t v : List Index} (h₁ : IsRound m.turn w₁)
    (h₂ : IsRound m.turn w₂) (hdisjoint : List.Disjoint w₁ w₂) (hmates : m.Mates label (w₁ ++ w₂))
    (hw₁ : w₁.map label ~r u ++ s) (hw₂ : w₂.map label ~r t ++ v) (hst : t = s.reverse) :
    ∃ m' w, m.Reduces (w₁ ++ w₂) m' w ∧ IsRound m'.turn w ∧ w.map label = u ++ v := by
  obtain ⟨w₁', hrot₁, hw₁'⟩ := exists_isRotated_of_map hw₁
  obtain ⟨w₂', hrot₂, hw₂'⟩ := exists_isRotated_of_map hw₂
  obtain ⟨u', s', rfl, hu, hs⟩ := List.map_eq_append_iff.mp hw₁'
  obtain ⟨t', v', rfl, ht, hv⟩ := List.map_eq_append_iff.mp hw₂'
  have hmem₁ : ∀ d, d ∈ u' ++ s' ↔ d ∈ w₁ := fun d => hrot₁.mem_iff.symm
  have hmem₂ : ∀ d, d ∈ t' ++ v' ↔ d ∈ w₂ := fun d => hrot₂.mem_iff.symm
  have hdisjoint' : List.Disjoint (u' ++ s') (t' ++ v') := fun d hd hd' =>
    hdisjoint ((hmem₁ d).mp hd) ((hmem₂ d).mp hd')
  obtain ⟨m₁, hreduces, hround⟩ :=
    exists_reduces_join (h₁.rotated hrot₁) (h₂.rotated hrot₂) hdisjoint'
  have ht' : t' = (s'.map m₁.opposite).reverse := by
    have hlabels : s'.map label = t'.reverse.map label := by
      rw [List.map_reverse, ht, hst, hs, List.reverse_reverse]
    rw [map_opposite_eq hlabels, List.reverse_reverse]
    intro c hc d hd hcd
    have hc' : c ∈ u' ++ s' := List.mem_append_right _ hc
    have hd' : d ∈ t' ++ v' := List.mem_append_left _ (List.mem_reverse.mp hd)
    rw [hreduces.kept c (List.mem_append_left _ hc')]
    refine hmates c (List.mem_append_left _ ((hmem₁ c).mp hc')) d
      (List.mem_append_right _ ((hmem₂ d).mp hd')) ?_ hcd
    exact fun heq => hdisjoint' hc' (heq ▸ hd')
  rw [ht'] at hround hreduces hmem₂
  obtain ⟨m₂, hreduces', hround'⟩ := exists_reduces_cancel_arc hround
  refine ⟨m₂, u' ++ v', (hreduces.trans hreduces').congr (fun d => ?_) fun d =>
    Iff.rfl, hround', ?_⟩
  · rw [List.mem_append, List.mem_append, hmem₁, hmem₂]
  · rw [List.map_append, hu, hv]

/-- The vertices of a product are joined and reduced until the open legs are left in an order that
is admitted. -/
theorem IsMonomial.exists_reduces {d : Diagram} (hd : d.IsMonomial) {order : List Index}
    (horder : d.Admits order) {ws : List (List D)}
    (hlabels : ws.map (List.map label) = d.tensors.map TensorRef.cyclicOrder)
    (hnodup : ws.flatten.Nodup) (hrounds : ∀ w ∈ ws, IsRound m.turn w)
    (hmates : m.Mates label ws.flatten) :
    ∃ m' w, m.Reduces ws.flatten m' w ∧ IsRound m'.turn w ∧ w.map label ~r order := by
  induction hd generalizing m order ws with
  | @factor d hd =>
    have hnone : d.isScalar = true → d.tensors = [] →
        ∃ m' w, m.Reduces ws.flatten m' w ∧ IsRound m'.turn w ∧ w.map label ~r order := by
      intro hs htensors
      rw [htensors, List.map_nil, List.map_eq_nil_iff] at hlabels
      rw [hlabels, (admits_of_isScalar hs order).mp horder]
      exact ⟨m, [], .refl m [], trivial, .refl _⟩
    cases hd with
    | ref t =>
      obtain ⟨w, ws, rfl, hw, hws⟩ := List.map_eq_cons_iff.mp hlabels
      rw [List.map_nil, List.map_eq_nil_iff] at hws
      subst hws
      rw [List.flatten_singleton] at hmates ⊢
      obtain ⟨m', w', hreduces, hround, hw'⟩ :=
        exists_reduces_removeTraces (hrounds w (List.mem_singleton_self w)) hmates
      obtain ⟨o, ho, hrot⟩ := (admits_iff rfl order).mp horder
      refine ⟨m', w', hreduces, hround, ?_⟩
      rwa [hw', hw, ← eq_removeTraces_of_mem_admissibleOrders ho]
    | scalar s => exact hnone rfl rfl
    | conj name => exact hnone rfl rfl
  | @pair a b ha hb iha ihb =>
    obtain ⟨i, j, c, hi, hj, hpair, hrot⟩ :=
      (ha.isNormal.admits_pair_iff hb.isNormal order).mp horder
    rw [tensors, listTensors, List.append_nil, List.map_append] at hlabels
    obtain ⟨ws₁, ws₂, rfl, hws₁, hws₂⟩ := List.map_eq_append_iff.mp hlabels
    rw [List.flatten_append] at hnodup hmates ⊢
    obtain ⟨hrounds₁, hrounds₂⟩ := List.forall_mem_append.mp hrounds
    obtain ⟨hnodup₁, hnodup₂, hdisjoint⟩ := List.nodup_append'.mp hnodup
    have hmates₁ : m.Mates label ws₁.flatten := fun c hc d hd =>
      hmates c (List.mem_append_left _ hc) d (List.mem_append_left _ hd)
    obtain ⟨m₁, w₁, hreduces₁, hround₁, hw₁⟩ := iha hi hws₁ hnodup₁ hrounds₁ hmates₁
    -- The vertices of the second factor are still as they were.
    have hrounds₂' : ∀ w ∈ ws₂, IsRound m₁.turn w := fun w hw =>
      hreduces₁.isRound (hrounds₂ w hw) fun d hd hd' =>
        hdisjoint hd (List.mem_flatten.mpr ⟨w, hw, hd'⟩)
    have hmates₂ : m₁.Mates label ws₂.flatten := fun c hc d hd hcd hlabel => by
      rw [hreduces₁.opposite_eq c fun hc' => hdisjoint hc' hc]
      exact hmates c (List.mem_append_right _ hc) d (List.mem_append_right _ hd) hcd hlabel
    obtain ⟨m₂, w₂, hreduces₂, hround₂, hw₂⟩ := ihb hj hws₂ hnodup₂ hrounds₂' hmates₂
    have hreduces := hreduces₁.append hreduces₂ hdisjoint
    have hdisjoint' : List.Disjoint w₁ w₂ :=
      fun d hd hd' => hdisjoint (hreduces₁.subset d hd) (hreduces₂.subset d hd')
    have hround₁' : IsRound m₂.turn w₁ := hreduces₂.isRound hround₁ fun d hd hd' =>
      hdisjoint (hreduces₁.subset d hd') hd
    have hfirst : w₁.map label ~r c.openFirst ++ c.joinedFirst :=
      hw₁.trans (hpair.first_order.symm.trans List.isRotated_append)
    obtain ⟨m₃, w, hreduces₃, hround, hw⟩ :=
      exists_reduces_pair hround₁' hround₂ hdisjoint' (hreduces.mates hmates)
      hfirst (hw₂.trans hpair.second_order.symm) hpair.reversed
    exact ⟨m₃, w, hreduces.trans hreduces₃, hround, hw ▸ hrot⟩

/-- A product that is closed by a vertex with its open legs in reverse order can be reduced to
nothing. -/
theorem IsMonomial.defect_nonpos {d : Diagram} (hd : d.IsMonomial) {order : List Index}
    (horder : d.Admits order) {ws : List (List D)} {w₀ : List D}
    (hlabels : ws.map (List.map label) = d.tensors.map TensorRef.cyclicOrder)
    (hw₀ : w₀.map label = order.reverse) (hnodup : (ws.flatten ++ w₀).Nodup)
    (hall : ∀ d, d ∈ ws.flatten ++ w₀) (hrounds : ∀ w ∈ ws, IsRound m.turn w)
    (hround₀ : IsRound m.turn w₀) (hmates : m.Mates label (ws.flatten ++ w₀)) : m.defect ≤ 0 := by
  obtain ⟨hnodup', -, hdisjoint⟩ := List.nodup_append'.mp hnodup
  have hmates' : m.Mates label ws.flatten := fun c hc d hd =>
    hmates c (List.mem_append_left _ hc) d (List.mem_append_left _ hd)
  obtain ⟨m₁, w, hreduces₁, hround, hw⟩ := hd.exists_reduces horder hlabels hnodup' hrounds hmates'
  have hreduces := hreduces₁.append (.refl m₁ w₀) hdisjoint
  obtain ⟨m₂, w', hreduces₂, -, hw'⟩ := exists_reduces_pair (u := []) (v := []) hround
    (hreduces₁.isRound hround₀ hdisjoint) (fun d hd => hdisjoint (hreduces₁.subset d hd))
    (hreduces.mates hmates) hw (by rw [hw₀, List.append_nil]) rfl
  obtain rfl : w' = [] := List.map_eq_nil_iff.mp hw'
  have hreduced := hreduces.trans hreduces₂
  exact hreduced.defect_le.trans_eq (m₂.defect_of_dead fun d =>
    hreduced.dead d (hall d) List.not_mem_nil)

/-! ## Assignments -/

/-- The vertices of an assignment: the references with their legs, and the left hand side seen from
behind. -/
def assignmentVertices (lhs rhs : Diagram) : List (List Index) :=
  rhs.tensors.map TensorRef.cyclicOrder ++ [(lhs.tensors.flatMap TensorRef.cyclicOrder).reverse]

/-- The order that a plain left hand side asks for. -/
theorem IsPlainLhs.lhsOrder_eq {lhs : Diagram} (h : lhs.IsPlainLhs) :
    lhs.lhsOrder = .ok (lhs.tensors.flatMap TensorRef.cyclicOrder) := by
  rw [h.lhsOrder]
  cases lhs with
  | ref t => simp [tensors, WantedOrder.ofLhs, WantedOrder.cyclicOrder, TensorRef.cyclicOrder]
  | scalar s => rfl
  | _ => exact h.elim

/-- Every index of a planar assignment is found twice at its vertices. -/
theorem IsMonomial.count_assignmentVertices {lhs rhs : Diagram} (hrhs : rhs.IsMonomial)
    (hcount : ∀ i, rhs.indexBag.count i ≤ 2)
    (horder : rhs.Admits (lhs.tensors.flatMap TensorRef.cyclicOrder)) :
    ∀ i ∈ (assignmentVertices lhs rhs).flatten,
      (assignmentVertices lhs rhs).flatten.count i = 2 := by
  intro i hi
  rw [← List.count_pos_iff] at hi
  have hperm : (rhs.tensors.map TensorRef.cyclicOrder).flatten.Perm
      (rhs.tensors.flatMap TensorRef.indices) := by
    rw [← List.flatMap_def]
    exact List.Perm.flatMap_left _ fun t _ => t.cyclicOrder_perm
  have hflatten : (assignmentVertices lhs rhs).flatten.count i =
      rhs.indexBag.count i + (lhs.tensors.flatMap TensorRef.cyclicOrder).count i := by
    rw [assignmentVertices, List.flatten_append, List.flatten_singleton, List.count_append,
      List.count_reverse, hperm.count_eq, indexBag, Multiset.coe_count]
  have hopen : i ∈ lhs.tensors.flatMap TensorRef.cyclicOrder ↔ rhs.indexBag.count i % 2 = 1 := by
    rw [hrhs.isNormal.mem_iff_isOpen horder, hrhs.isOpen_iff]
  have hnodup := List.nodup_iff_count_le_one.mp (hrhs.isNormal.nodup_of_admits horder) i
  have hle := hcount i
  rw [← List.count_pos_iff] at hopen
  omega

/-- A planar assignment draws a graph of genus zero. -/
theorem planar_assignment_genus_zero {lhs rhs : Diagram} {isDefinition : Bool}
    (hlhs : lhs.IsPlainLhs) (hrhs : rhs.IsMonomial) (htensor : rhs.isTensor = true)
    (hcount : ∀ i, rhs.indexBag.count i ≤ 2)
    (hplanar : (assign lhs rhs isDefinition).checkPlanar = .ok ()) :
    ∃ g : RibbonGraph, g.vertices = assignmentVertices lhs rhs ∧
      (g.vertexCount : ℤ) - g.edgeCount + g.faceCount = 2 * g.componentCount := by
  obtain ⟨order, horder, hadmits⟩ := (hrhs.isNormal.checkAssignment_iff htensor).mp hplanar
  obtain rfl := Except.ok.inj (hlhs.lhsOrder_eq.symm.trans horder)
  let g : RibbonGraph := ⟨assignmentVertices lhs rhs, hrhs.count_assignmentVertices hcount hadmits⟩
  refine ⟨g, rfl, ?_⟩
  have hdefect : g.toDartMap.defect ≤ 0 := by
    obtain ⟨ws, last, hws, hlabels, hlast⟩ := List.map_eq_append_iff.mp g.map_edge_rounds
    obtain ⟨w₀, last, rfl, hw₀, hnil⟩ := List.map_eq_cons_iff.mp hlast
    obtain rfl := List.map_eq_nil_iff.mp hnil
    have hflatten : g.rounds.flatten = ws.flatten ++ w₀ := by
      rw [hws, List.flatten_append, List.flatten_singleton]
    have hrounds : ∀ w ∈ ws ++ [w₀], IsRound g.toDartMap.turn w :=
      fun w hw => g.isRound_of_mem_rounds (hws ▸ hw)
    refine hrhs.defect_nonpos hadmits hlabels hw₀ (hflatten ▸ g.nodup_flatten_rounds)
      (fun d => hflatten ▸ g.mem_flatten_rounds d) (fun w hw =>
        hrounds w (List.mem_append_left _ hw))
      (hrounds w₀ (List.mem_append_right _ (List.mem_singleton_self w₀))) ?_
    exact fun c _ d _ hcd hedge => RibbonGraph.mate_eq hcd.symm hedge.symm
  rw [g.vertexCount_sub_edgeCount_add_faceCount, le_antisymm hdefect g.toDartMap.defect_nonneg,
    sub_zero]

/-- A tensor with a trace beside a closed loop of two tensors, all of it next to a tensor without a
partner. -/
def scattered : Diagram :=
  .pair (.pair (.ref ⟨.name "A", [.number 1, .number 4, .number 4], [.number 2], false⟩)
      (.pair (.ref ⟨.name "B", [.number 5], [.number 6], false⟩)
        (.ref ⟨.name "B", [.number 6], [.number 5], false⟩)))
    (.pair (.scalar (.name "x")) (.ref ⟨.name "C", [.number 3], [], false⟩))

/-- The graph of the scattered tensors, with their open legs one after another, has genus zero. -/
theorem planar_assignment_genus_zero_scattered :
    (assign (.ref ⟨.name "E", [.number 3, .number 1], [.number 2], false⟩) scattered
      true).checkPlanar = .ok () ∧
    ∃ g : RibbonGraph, g.vertices = [[.number 1, .number 4, .number 4, .number 2],
      [.number 5, .number 6],
        [.number 6, .number 5], [.number 3], [.number 2, .number 1, .number 3]] ∧
      (g.vertexCount : ℤ) - g.edgeCount + g.faceCount = 2 * g.componentCount := by
  have hplanar : (assign (.ref ⟨.name "E", [.number 3, .number 1], [.number 2], false⟩) scattered
      true).checkPlanar = .ok () := rfl
  have hmonomial : scattered.IsMonomial :=
    .pair (.pair (.factor (.ref _)) (.pair (.factor (.ref _)) (.factor (.ref _))))
      (.pair (.factor (.scalar _)) (.factor (.ref _)))
  exact ⟨hplanar,
    planar_assignment_genus_zero (by simp [IsPlainLhs, TensorRef.indices]) hmonomial rfl
    (count_indexBag_le (by decide)) hplanar⟩

end Diagram

end TensorDiagram
