import TensorDiagram.Error

/-!
# Maps of indices

An index map says for some indices by which index they are represented. That index may be
represented by another one in turn: `representative` follows the map to the end, and `closure` makes
every entry point to the end at once.
-/

namespace TensorDiagram

/-- A map that represents indices by others. -/
abbrev IndexMap := Table Index Index

namespace IndexMap

/-- Follow the map from an index. The indices seen so far are known, and meeting one again is an
error. -/
def follow (map : IndexMap) : Nat → List Index → Index → Except Error Index
  | 0, _, _ => .error (.indexCycle map)
  | fuel + 1, seen, index =>
    let next := map.findD index index
    if next = index then .ok index
    else if next ∈ seen then .error (.indexCycle map)
    else follow map fuel (next :: seen) next

/-- The index that represents an index in the end. Every step leaves another key behind, so there is
one step more than keys at most. -/
def representative (map : IndexMap) (index : Index) : Except Error Index :=
  map.follow (map.length + 1) [index] index

/-- Let a key point to where its value points. -/
def shorten (map : IndexMap) (key : Index) : IndexMap :=
  match map.find? key with
  | none => map
  | some value =>
    match map.find? value with
    | none => map
    | some next => if next = value then map else map.put key next

/-- Shorten the entries of all keys in order. -/
def shortenAll (map : IndexMap) : IndexMap :=
  map.keys.foldl shorten map

/-- Shorten until nothing changes. Meeting a map again is an error. -/
def shortenUntil (start : IndexMap) : Nat → List IndexMap → IndexMap → Except Error IndexMap
  | 0, _, _ => .error (.indexCycle start)
  | fuel + 1, seen, map =>
    if map ∈ seen then .error (.indexCycle start)
    else if map.shortenAll = map then .ok map
    else shortenUntil start fuel (map :: seen) map.shortenAll

/-- The map in which every entry points to its end. A round takes an index out of every cycle, and
once there is none it shortens a path, which bounds the rounds. -/
def closure (map : IndexMap) : Except Error IndexMap :=
  map.shortenUntil ((map.length + 1) * (map.length + 2)) [] map

end IndexMap

end TensorDiagram
