import Mathlib
import TensorDiagram.Tensor.Grid

/-!
# Exact arithmetic

The entries of a tensor may come from any commutative ring with a conjugation.  The arithmetic of
such entries is exact if the operations of tensors are those of the ring, if a whole number that is
written in a diagram stands for itself, and if the kinds of numbers do not matter: nothing is
rounded when it is brought to another kind, and nothing is too large for one.

With exact entries a grid is a function on positions.  `Grid.get` is this function, `Grid.ofFn`
makes a grid from it, and two grids with the same shape and the same function have the same entries
(`Grid.entries_eq_of_get`).
-/

namespace TensorDiagram

/-- The arithmetic is that of a commutative ring with a conjugation. -/
class Arithmetic.IsExact (R : Type) [CommRing R] [StarRing R] [Arithmetic R] : Prop where
  /-- A whole number stands for itself. -/
  literal_integer : ∀ n : ℤ, Arithmetic.literal (.integer n) = (n : R)
  /-- A value is not changed when it is brought to a kind. -/
  widen_eq : ∀ (k : NumberKind) (x : R), Arithmetic.widen k x = x
  /-- Every value has a counterpart of every kind. -/
  convertible_eq : ∀ (k : NumberKind) (x : R), Arithmetic.convertible k x = true
  /-- Every value can be combined with entries of every kind. -/
  storable_eq : ∀ (k : NumberKind) (x : R), Arithmetic.storable k x = true
  /-- Sums are those of the ring. -/
  add_eq : ∀ x y : R, Arithmetic.add x y = x + y
  /-- Products are those of the ring. -/
  mul_eq : ∀ x y : R, Arithmetic.mul x y = x * y
  /-- The conjugate is that of the ring. -/
  conj_eq : ∀ x : R, Arithmetic.conj x = star x

/-- The arithmetic of the integers.  Numbers that are not whole stand for zero. -/
instance : Arithmetic ℤ where
  literal
    | .integer n => n
    | _ => 0
  kind _ := .integer
  widen _ x := x
  convertible _ _ := true
  storable _ _ := true
  add x y := x + y
  mul x y := x * y
  conj x := x

/-- The arithmetic of the integers is exact. -/
instance : Arithmetic.IsExact ℤ where
  literal_integer _ := rfl
  widen_eq _ _ := rfl
  convertible_eq _ _ := rfl
  storable_eq _ _ := rfl
  add_eq _ _ := rfl
  mul_eq _ _ := rfl
  conj_eq x := by rw [star_trivial]; rfl

namespace Arithmetic

variable {R : Type} [CommRing R] [StarRing R] [Arithmetic R] [IsExact R]

@[simp] theorem ofInt_eq (k : NumberKind) (n : ℤ) : (ofInt k n : R) = n := by
  rw [ofInt, IsExact.widen_eq, IsExact.literal_integer]

/-- The sum of some values is their sum in the ring. -/
theorem sum_eq (k : NumberKind) (xs : List R) : sum k xs = xs.sum := by
  have hadd : (add : R → R → R) = (· + ·) := by
    funext x y
    exact IsExact.add_eq x y
  rw [sum, ofInt_eq, Int.cast_zero, hadd, List.sum_eq_foldl]

/-- The product of some values is their product in the ring. -/
theorem product_eq (k : NumberKind) (xs : List R) : product k xs = xs.prod := by
  have hmul : (mul : R → R → R) = (· * ·) := by
    funext x y
    exact IsExact.mul_eq x y
  cases xs with
  | nil => rw [product, ofInt_eq, Int.cast_one, List.prod_nil]
  | cons x rest => rw [product, hmul, List.prod_eq_foldl, List.foldl_cons, one_mul]

/-- Scalars can always be multiplied. -/
theorem mulScalars_eq (x y : R) : mulScalars x y = .ok (x * y) := by
  rw [mulScalars, checkKinds, IsExact.convertible_eq, IsExact.convertible_eq, IsExact.mul_eq]
  rfl

/-- Scalars can always be added. -/
theorem addScalars_eq (x y : R) : addScalars x y = .ok (x + y) := by
  rw [addScalars, checkKinds, IsExact.convertible_eq, IsExact.convertible_eq, IsExact.add_eq]
  rfl

end Arithmetic

/-! ## Positions -/

/-- The positions below a shape. -/
theorem mem_positions {shape position : List ℕ} :
    position ∈ positions shape ↔ List.Forall₂ (· < ·) position shape := by
  induction shape generalizing position with
  | nil => simp [positions]
  | cons d shape ih =>
    simp only [positions, List.mem_flatMap, List.mem_range, List.mem_map, ih,
      List.forall₂_cons_right_iff]
    constructor
    · rintro ⟨i, hi, p, hp, rfl⟩
      exact ⟨i, p, hi, hp, rfl⟩
    · rintro ⟨i, p, hi, hp, rfl⟩
      exact ⟨i, hi, p, hp, rfl⟩

/-- The positions are listed in the order of their places. -/
theorem map_offset_positions (shape : List ℕ) :
    (positions shape).map (offset shape) = List.range (gridSize shape) := by
  induction shape with
  | nil => rfl
  | cons d shape ih =>
    have hblock : ∀ i, ((positions shape).map (i :: ·)).map (offset (d :: shape)) =
        (List.range (gridSize shape)).map (i * gridSize shape + ·) := by
      intro i
      rw [← ih, List.map_map, List.map_map]
      rfl
    have hrange : ∀ n, (List.range n).flatMap (fun i =>
        (List.range (gridSize shape)).map (i * gridSize shape + ·)) =
        List.range (n * gridSize shape) := by
      intro n
      induction n with
      | zero => simp
      | succ n hn =>
        rw [List.range_succ, List.flatMap_append, hn, List.flatMap_singleton, Nat.succ_mul,
          List.range_add]
    rw [positions, List.map_flatMap]
    simp only [hblock]
    exact hrange d

namespace Grid

variable {R : Type} [CommRing R] [StarRing R] [Arithmetic R] [Arithmetic.IsExact R]

/-- The entry at the place of a position. -/
theorem get_eq (g : Grid R) (position : List ℕ) :
    g.get position = g.entries.getD (offset g.shape position) 0 := by
  rw [get, Arithmetic.ofInt_eq, Int.cast_zero]

/-- A grid from a function has its values as entries. -/
theorem get_ofFn {kind : NumberKind} {shape : List ℕ} {f : List ℕ → R} {position : List ℕ}
    (h : List.Forall₂ (· < ·) position shape) : (ofFn kind shape f).get position = f position := by
  obtain ⟨k, hk, hp⟩ := List.getElem_of_mem (mem_positions.mpr h)
  have hoffset : offset shape position = k := by
    have hlist := List.getElem_of_eq (map_offset_positions shape) (i := k) (by simpa using hk)
    rw [List.getElem_map, hp, List.getElem_range] at hlist
    exact hlist
  rw [get_eq]
  simp only [ofFn, hoffset]
  rw [Array.getD_eq_getD_getElem?, List.getElem?_toArray, List.getElem?_map,
    List.getElem?_eq_getElem hk, hp]
  rfl

/-- The entries in order of their positions. -/
theorem entries_eq (g : Grid R) : g.entries = ((positions g.shape).map g.get).toArray := by
  have hlist : g.entries.toList = (List.range (gridSize g.shape)).map fun k =>
      g.entries.getD k 0 := by
    refine List.ext_getElem (by simp [g.size_eq]) fun k h1 h2 => ?_
    have hk : k < g.entries.size := by simpa using h1
    simp [hk]
  apply Array.ext'
  rw [hlist, ← map_offset_positions, List.map_map]
  refine List.map_congr_left fun position _ => ?_
  rw [Function.comp_apply, get_eq]

/-- Two grids with one shape that are the same function have the same entries. -/
theorem entries_eq_of_get {g h : Grid R} (hshape : g.shape = h.shape)
    (hget : ∀ position, List.Forall₂ (· < ·) position g.shape → g.get position = h.get position) :
    g.entries = h.entries := by
  rw [entries_eq g, entries_eq h, ← hshape]
  congr 1
  exact List.map_congr_left fun position hp => hget position (mem_positions.mp hp)

/-- The entries and the shape determine the function. -/
theorem get_congr {g h : Grid R} (hshape : g.shape = h.shape) (hentries : g.entries = h.entries)
    (position : List ℕ) : g.get position = h.get position := by
  rw [get_eq, get_eq, hshape, hentries]

/-- A grid with every entry replaced. -/
theorem get_map {g : Grid R} {kind : NumberKind} {f : R → R} {position : List ℕ}
    (h : List.Forall₂ (· < ·) position g.shape) :
    (g.map kind f).get position = f (g.get position) := by
  have hlt : offset g.shape position < g.entries.size := by
    rw [g.size_eq, ← List.mem_range, ← map_offset_positions]
    exact List.mem_map_of_mem (mem_positions.mpr h)
  rw [get_eq, get_eq]
  simp [map, Array.getD, hlt]

end Grid

end TensorDiagram
