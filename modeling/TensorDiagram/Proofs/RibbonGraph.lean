import TensorDiagram.Index
import TensorDiagram.Proofs.DartMap

/-!
# Ribbon graphs

A ribbon graph is a graph with a cyclic order of the edges around each of its vertices.  Every edge
is named by an index, and the graph is given by the lists of indices around its vertices, in which
every index is found twice.

The places in these lists are the darts.  The faces are the orbits of a permutation of them, and a
vertex without darts is a component with one face.  So the numbers of vertices, edges, faces and
components are those of a map of darts, and they satisfy the equation for the genus
(`vertexCount_sub_edgeCount_add_faceCount`).
-/

namespace TensorDiagram

open Equiv (Perm)
open Relation (EqvGen)

/-- The cyclic orders of the edges around vertices. -/
structure RibbonGraph where
  /-- The edges around each vertex. -/
  vertices : List (List Index)
  /-- Every edge has two ends. -/
  count_eq : ∀ i ∈ vertices.flatten, vertices.flatten.count i = 2

/-- Numbered elements that follow each other around a circle. -/
theorem isRound_ofFn {D : Type} {σ : Perm D} {n : ℕ} {f : Fin n → D} (hf : Function.Injective f)
    (hσ : ∀ i, σ (f i) = f (finRotate n i)) : IsRound σ (List.ofFn f) := by
  have hleads : ∀ (k : ℕ) (f : Fin (k + 1) → D) (z : D),
      (∀ i : Fin k, σ (f i.castSucc) = f i.succ) → σ (f (Fin.last k)) = z →
      Leads σ (f 0) (List.ofFn fun i : Fin k => f i.succ) z := by
    intro k
    induction k with
    | zero => exact fun f z _ hlast => by rw [List.ofFn_zero]; exact hlast
    | succ k ih =>
      intro f z hstep hlast
      rw [List.ofFn_succ]
      exact ⟨hstep 0, ih (fun i => f i.succ) z (fun i => hstep i.succ) hlast⟩
  have hnodup : (List.ofFn f).Nodup := List.nodup_ofFn.mpr hf
  cases n with
  | zero => rw [List.ofFn_zero]; trivial
  | succ k =>
    rw [List.ofFn_succ] at hnodup ⊢
    refine ⟨hnodup, hleads k f (f 0) (fun i => ?_) ?_⟩
    · rw [hσ, finRotate_apply, Fin.coeSucc_eq_succ]
    · rw [hσ, finRotate_last]

namespace RibbonGraph

variable (g : RibbonGraph)

/-- A place in the order around a vertex. -/
abbrev Dart : Type :=
  (v : Fin g.vertices.length) × Fin g.vertices[v].length

variable {g}

/-- The edge at a place. -/
def edge (d : g.Dart) : Index :=
  g.vertices[d.1][d.2]

variable (g)

/-- The darts around the vertices. -/
def rounds : List (List g.Dart) :=
  List.ofFn fun v => List.ofFn fun j => ⟨v, j⟩

theorem map_edge_rounds : g.rounds.map (List.map edge) = g.vertices := by
  have hvertex : ∀ v : Fin g.vertices.length,
      (List.ofFn fun j => (⟨v, j⟩ : g.Dart)).map edge = g.vertices[v] := by
    intro v
    rw [List.map_ofFn]
    exact List.ofFn_getElem
  rw [rounds, List.map_ofFn]
  exact (congrArg List.ofFn (funext hvertex)).trans List.ofFn_getElem

theorem map_edge_flatten_rounds : g.rounds.flatten.map edge = g.vertices.flatten := by
  rw [List.map_flatten, map_edge_rounds]

theorem mem_flatten_rounds (d : g.Dart) : d ∈ g.rounds.flatten := by
  refine List.mem_flatten.mpr ⟨List.ofFn fun j => ⟨d.1, j⟩, ?_, ?_⟩
  · exact List.mem_ofFn.mpr ⟨d.1, rfl⟩
  · exact List.mem_ofFn.mpr ⟨d.2, rfl⟩

theorem nodup_flatten_rounds : g.rounds.flatten.Nodup := by
  rw [List.nodup_flatten, rounds, List.pairwise_ofFn]
  constructor
  · intro w hw
    obtain ⟨v, rfl⟩ := List.mem_ofFn.mp hw
    exact List.nodup_ofFn.mpr fun i j hij => eq_of_heq (Sigma.mk.inj hij).2
  · intro v v' hv d hd hd'
    obtain ⟨j, rfl⟩ := List.mem_ofFn.mp hd
    obtain ⟨j', hj'⟩ := List.mem_ofFn.mp hd'
    exact hv.ne (Sigma.mk.inj hj').1.symm

/-- An edge has two darts. -/
theorem existsUnique_mate (d : g.Dart) : ∃! e : g.Dart, e ≠ d ∧ edge e = edge d := by
  have hmem : edge d ∈ g.vertices.flatten :=
    g.map_edge_flatten_rounds ▸ List.mem_map_of_mem (g.mem_flatten_rounds d)
  have hlength : (g.rounds.flatten.filter fun e => edge e = edge d).length = 2 := by
    rw [← g.count_eq _ hmem, ← map_edge_flatten_rounds, List.count_eq_countP, List.countP_map,
      List.countP_eq_length_filter]
    rfl
  obtain ⟨a, b, hab⟩ := List.length_eq_two.mp hlength
  have hnodup : [a, b].Nodup := hab ▸ g.nodup_flatten_rounds.filter _
  have hmates : ∀ e : g.Dart, edge e = edge d ↔ e = a ∨ e = b := by
    intro e
    have hiff : e ∈ g.rounds.flatten.filter (fun e => edge e = edge d) ↔ edge e = edge d := by
      rw [List.mem_filter, decide_eq_true_iff]
      exact and_iff_right (g.mem_flatten_rounds e)
    rw [← hiff, hab, List.mem_cons, List.mem_singleton]
  have hne : a ≠ b := by simpa using hnodup
  rcases (hmates d).mp rfl with rfl | rfl
  · exact ⟨b, ⟨hne.symm, (hmates b).mpr (Or.inr rfl)⟩, fun e he =>
      ((hmates e).mp he.2).resolve_left he.1⟩
  · exact ⟨a, ⟨hne, (hmates a).mpr (Or.inl rfl)⟩, fun e he =>
      ((hmates e).mp he.2).resolve_right he.1⟩

/-- The other dart of the edge. -/
def mate (d : g.Dart) : g.Dart :=
  Fintype.choose (fun e => e ≠ d ∧ edge e = edge d) (g.existsUnique_mate d)

variable {g}

theorem mate_ne (d : g.Dart) : g.mate d ≠ d :=
  (Fintype.choose_spec _ (g.existsUnique_mate d)).1

theorem edge_mate (d : g.Dart) : edge (g.mate d) = edge d :=
  (Fintype.choose_spec _ (g.existsUnique_mate d)).2

theorem mate_eq {d e : g.Dart} (hne : e ≠ d) (hedge : edge e = edge d) : g.mate d = e :=
  (g.existsUnique_mate d).unique ⟨mate_ne d, edge_mate d⟩ ⟨hne, hedge⟩

theorem mate_involutive : Function.Involutive g.mate :=
  fun d => mate_eq (mate_ne d).symm (edge_mate d).symm

variable (g)

/-- The darts with their orders around the vertices and their edges. -/
def toDartMap : DartMap g.Dart where
  turn := .sigmaCongrRight fun _ => finRotate _
  opposite := mate_involutive.toPerm
  opposite_opposite := mate_involutive

theorem isRound_of_mem_rounds {w : List g.Dart} (hw : w ∈ g.rounds) :
    IsRound g.toDartMap.turn w := by
  obtain ⟨v, rfl⟩ := List.mem_ofFn.mp hw
  exact isRound_ofFn (fun i j hij => eq_of_heq (Sigma.mk.inj hij).2) fun i => rfl

/-! ## Counting -/

/-- The number of vertices. -/
def vertexCount : ℕ :=
  g.vertices.length

/-- The number of edges. -/
def edgeCount : ℕ :=
  g.vertices.flatten.toFinset.card

/-- The number of vertices without darts. -/
def isolatedCount : ℕ :=
  Fintype.card { v : Fin g.vertices.length // g.vertices[v] = [] }

/-- The number of faces: the orbits of the permutation that goes to the next dart around the vertex,
and from there along its edge.  A vertex without darts has one face. -/
noncomputable def faceCount : ℕ :=
  orbitCount g.toDartMap.face + g.isolatedCount

/-- The number of components: the classes of darts that are linked by vertices and edges.  A vertex
without darts is a component. -/
noncomputable def componentCount : ℕ :=
  classCount g.toDartMap.Adjacent + g.isolatedCount

/-- Every edge has two darts. -/
theorem card_dart : Nat.card g.Dart = 2 * g.edgeCount := by
  have huniv : (Finset.univ : Finset g.Dart) = g.rounds.flatten.toFinset :=
    Finset.ext fun d => by
      rw [List.mem_toFinset]
      exact iff_of_true (Finset.mem_univ d) (g.mem_flatten_rounds d)
  rw [Nat.card_eq_fintype_card, ← Finset.card_univ, huniv,
    List.toFinset_card_of_nodup g.nodup_flatten_rounds,
    ← List.length_map (f := edge), map_edge_flatten_rounds,
    ← List.sum_toFinset_count_eq_length, edgeCount]
  rw [Finset.sum_congr rfl fun i hi => g.count_eq i (List.mem_toFinset.mp hi),
    Finset.sum_const, smul_eq_mul, mul_comm]

/-- The orbits of opposite darts are the edges. -/
theorem orbitCount_opposite : orbitCount g.toDartMap.opposite = g.edgeCount := by
  have hedge : ∀ d : g.Dart, edge d ∈ g.vertices.flatten.toFinset := fun d => by
    rw [List.mem_toFinset, ← map_edge_flatten_rounds]
    exact List.mem_map_of_mem (g.mem_flatten_rounds d)
  have hbijective :
      Function.Bijective (Quot.lift (fun d => (⟨edge d, hedge d⟩ : g.vertices.flatten.toFinset))
      fun a b (hab : g.mate a = b) => Subtype.ext (hab ▸ (edge_mate a).symm)) := by
    constructor
    · rintro ⟨a⟩ ⟨b⟩ hab
      by_cases hne : b = a
      · rw [hne]
      · exact Quot.sound (mate_eq hne (congrArg Subtype.val hab).symm)
    · rintro ⟨i, hi⟩
      rw [List.mem_toFinset, ← map_edge_flatten_rounds] at hi
      obtain ⟨d, -, rfl⟩ := List.mem_map.mp hi
      exact ⟨Quot.mk _ d, rfl⟩
  rw [edgeCount, ← Fintype.card_coe, ← Nat.card_eq_fintype_card,
    ← Nat.card_congr (Equiv.ofBijective _ hbijective)]
  rfl

/-- The orbits of neighbours are the vertices with darts. -/
theorem orbitCount_turn : orbitCount g.toDartMap.turn + g.isolatedCount = g.vertexCount := by
  have hdart : ∀ d : g.Dart, ¬ g.vertices[d.1] = [] := fun d h =>
    Nat.not_lt_zero _ (d.2.isLt.trans_eq (congrArg List.length h))
  have hbijective : Function.Bijective (Quot.lift
      (fun d => (⟨d.1, hdart d⟩ : { v : Fin g.vertices.length // ¬ g.vertices[v] = [] }))
      fun a b (hab : g.toDartMap.turn a = b) => by subst hab; rfl) := by
    constructor
    · rintro ⟨v, i⟩ ⟨v', j⟩ hv
      obtain rfl : v = v' := congrArg Subtype.val hv
      have hround := g.isRound_of_mem_rounds (List.mem_ofFn.mpr ⟨v, rfl⟩)
      have hmem : ∀ i, (⟨v, i⟩ : g.Dart) ∈ List.ofFn fun j => (⟨v, j⟩ : g.Dart) := fun i =>
        List.mem_ofFn.mpr ⟨i, rfl⟩
      exact Quot.eqvGen_sound (hround.eqvGen (hmem i) (hmem j))
    · rintro ⟨v, hv⟩
      exact ⟨Quot.mk _ ⟨v, ⟨0, List.length_pos_iff.mpr hv⟩⟩, rfl⟩
  have horbits : orbitCount g.toDartMap.turn =
      Fintype.card { v : Fin g.vertices.length // ¬ g.vertices[v] = [] } := by
    rw [← Nat.card_eq_fintype_card, ← Nat.card_congr (Equiv.ofBijective _ hbijective)]
    rfl
  rw [horbits, isolatedCount, vertexCount, Fintype.card_subtype_compl, Fintype.card_fin,
    Nat.sub_add_cancel ((Fintype.card_subtype_le _).trans_eq (Fintype.card_fin _))]

/-- The equation for the genus. -/
theorem vertexCount_sub_edgeCount_add_faceCount :
    (g.vertexCount : ℤ) - g.edgeCount + g.faceCount =
      2 * g.componentCount - g.toDartMap.defect := by
  rw [DartMap.defect, card_dart, orbitCount_opposite, ← orbitCount_turn, faceCount, componentCount]
  push_cast
  ring

end RibbonGraph

end TensorDiagram
