/-!
# Tables in order of entry

A table from keys to values that remembers in which order its keys were entered. Writing a key again
changes its value and leaves its place.

A table is looked at through `find?`, which `put` and `erase` change at one key only, and through
`keys`, which grow at the end.
-/

namespace TensorDiagram

/-- A table from keys to values, in the order in which the keys were entered. -/
abbrev Table (κ α : Type) := List (κ × α)

namespace Table

variable {κ α β : Type} [DecidableEq κ]

/-- The keys, in order of entry. -/
def keys (t : Table κ α) : List κ :=
  t.map Prod.fst

/-- The value of a key. -/
def find? (key : κ) : Table κ α → Option α
  | [] => none
  | (k, v) :: rest => if k = key then some v else find? key rest

/-- Whether the key has a value. -/
def has (t : Table κ α) (key : κ) : Bool :=
  (t.find? key).isSome

/-- The value of a key, or another one if there is none. -/
def findD (t : Table κ α) (key : κ) (default : α) : α :=
  (t.find? key).getD default

/-- The table in which the key has the given value. -/
def put (key : κ) (value : α) : Table κ α → Table κ α
  | [] => [(key, value)]
  | (k, v) :: rest => if k = key then (k, value) :: rest else (k, v) :: put key value rest

/-- The table without the key. -/
def erase (key : κ) : Table κ α → Table κ α
  | [] => []
  | (k, v) :: rest => if k = key then rest else (k, v) :: erase key rest

@[simp] theorem find?_put_self (t : Table κ α) (key : κ) (value : α) :
    (t.put key value).find? key = some value := by
  induction t with
  | nil => simp [put, find?]
  | cons entry rest ih =>
    obtain ⟨k, v⟩ := entry
    by_cases h : k = key <;> simp [put, find?, h, ih]

theorem find?_put_of_ne (t : Table κ α) {key other : κ} (value : α) (h : other ≠ key) :
    (t.put key value).find? other = t.find? other := by
  induction t with
  | nil => simp [put, find?, Ne.symm h]
  | cons entry rest ih =>
    obtain ⟨k, v⟩ := entry
    by_cases hk : k = key
    · subst hk; simp [put, find?, Ne.symm h]
    · simp only [put, hk, if_false, find?, ih]

theorem find?_eq_none_iff (t : Table κ α) (key : κ) :
    t.find? key = none ↔ key ∉ t.keys := by
  induction t with
  | nil => simp [find?, keys]
  | cons entry rest ih =>
    obtain ⟨k, v⟩ := entry
    by_cases h : k = key
    · simp [find?, keys, h]
    · simp only [find?, h, if_false, ih, keys, List.map_cons, List.mem_cons, not_or]
      exact ⟨fun hr => ⟨fun he => h he.symm, hr⟩, fun hr => hr.2⟩

theorem has_iff_mem_keys {t : Table κ α} {key : κ} : t.has key = true ↔ key ∈ t.keys := by
  rw [has, ← Option.ne_none_iff_isSome, Ne, find?_eq_none_iff, Decidable.not_not]

/-- In a table without repeated keys every entry is found. -/
theorem find?_eq_some_of_mem {t : Table κ α} {key : κ} {value : α} (hkeys : t.keys.Nodup)
    (h : (key, value) ∈ t) : t.find? key = some value := by
  induction t with
  | nil => cases h
  | cons entry rest ih =>
    obtain ⟨k, v⟩ := entry
    obtain ⟨hentry, hrest⟩ := List.nodup_cons.mp hkeys
    rw [Table.find?]
    rcases List.mem_cons.mp h with heq | h
    · obtain ⟨rfl, rfl⟩ := Prod.mk.inj heq
      rw [if_pos rfl]
    · have hne : k ≠ key := by
        rintro rfl
        exact hentry (List.mem_map.mpr ⟨_, h, rfl⟩)
      rw [if_neg hne]
      exact ih hrest h

/-- A table with an entry taken out and put in front. -/
theorem perm_cons_erase {t : Table κ α} {key : κ} {value : α} (h : t.find? key = some value) :
    List.Perm t ((key, value) :: t.erase key) := by
  induction t with
  | nil => cases h
  | cons entry rest ih =>
    obtain ⟨k, v⟩ := entry
    rw [find?] at h
    rw [erase]
    by_cases hk : k = key
    · rw [if_pos hk] at h ⊢
      rw [hk, Option.some.inj h]
    · rw [if_neg hk] at h ⊢
      exact ((ih h).cons _).trans (.swap _ _ _)

/-- A new key goes to the end. -/
theorem put_eq_append {t : Table κ α} {key : κ} (h : key ∉ t.keys) (value : α) :
    t.put key value = t ++ [(key, value)] := by
  induction t with
  | nil => rfl
  | cons entry rest ih =>
    obtain ⟨k, v⟩ := entry
    simp only [keys, List.map_cons, List.mem_cons, not_or] at h
    rw [put, if_neg (Ne.symm h.1), ih h.2, List.cons_append]

/-- A key that is written again keeps its place, a new one goes to the end. -/
theorem keys_put (t : Table κ α) (key : κ) (value : α) :
    (t.put key value).keys = if key ∈ t.keys then t.keys else t.keys ++ [key] := by
  induction t with
  | nil => simp [put, keys]
  | cons entry rest ih =>
    obtain ⟨k, v⟩ := entry
    by_cases h : k = key
    · simp [put, keys, h]
    · have hne : ¬ key = k := fun he => h he.symm
      have ih' : (put key value rest).map Prod.fst = _ := ih
      simp only [put, h, if_false, keys, List.map_cons, ih', List.mem_cons, hne, false_or]
      by_cases hmem : key ∈ rest.map Prod.fst <;> simp [hmem]

end Table

end TensorDiagram
