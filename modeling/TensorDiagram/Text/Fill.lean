import TensorDiagram.Text.Chunk
import TensorDiagram.Text.Listing

/-!
# Filling lines

A line that is too wide is broken between its chunks. As many chunks as fit go on each line, blanks
at a break are dropped, and a chunk that is wider than a whole line is broken inside.
-/

namespace TensorDiagram.Text

/-- Tabulators become blanks up to the next multiple of eight columns. -/
def expandTabs (column : Nat) : List Char → List Char
  | [] => []
  | c :: rest =>
    if c = '\t' then
      List.replicate (8 - column % 8) ' ' ++ expandTabs (column + (8 - column % 8)) rest
    else if c = '\n' ∨ c = '\r' then c :: expandTabs 0 rest
    else c :: expandTabs (column + 1) rest

/-- Line ends, tabulators and page ends become blanks. -/
def blankOut (c : Char) : Char :=
  if 9 ≤ c.toNat ∧ c.toNat ≤ 13 then ' ' else c

/-- Whether nothing but blanks is in the chunk. -/
def isBlankChunk (chunk : List Char) : Bool :=
  chunk.all isBlank

/-- The chunks that fit next to each other within `width`, and the others. -/
def takeFitting (width : Int) : List (List Char) → List (List Char) × List (List Char)
  | [] => ([], [])
  | chunk :: rest =>
    if (chunk.length : Int) ≤ width then
      let (fitting, others) := takeFitting (width - chunk.length) rest
      (chunk :: fitting, others)
    else ([], chunk :: rest)

/-- Where a chunk is broken that has more than `room` characters: behind its last hyphen within the
room, if something other than hyphens stands before that hyphen, else where the room ends. -/
def breakPlace (room : Nat) (chunk : List Char) : Nat :=
  let head := chunk.take room
  let tail := (head.reverse.takeWhile (· ≠ '-')).length
  let hyphen := head.length - tail - 1
  if tail < head.length ∧ (head.take hyphen).any (· ≠ '-') then hyphen + 1 else room

/-- The chunks of one line of the given width, and those left for the next lines. If the chunk after
those that fit is wider than a whole line, it is broken. -/
def takeLine (width : Int) (chunks : List (List Char)) : List (List Char) × List (List Char) :=
  match takeFitting width chunks with
  | (fitting, []) => (fitting, [])
  | (fitting, chunk :: rest) =>
    if width < chunk.length then
      let room := if width < 1 then 1 else (width - fitting.flatten.length).toNat
      let place := breakPlace room chunk
      (fitting ++ [chunk.take place], chunk.drop place :: rest)
    else (fitting, chunk :: rest)

/-- The line without a last chunk of blanks. -/
def dropLastBlank (line : List (List Char)) : List (List Char) :=
  match line.getLast? with
  | some chunk => if isBlankChunk chunk then line.dropLast else line
  | none => line

/-- The chunks without a first chunk of blanks. -/
def dropFirstBlank : List (List Char) → List (List Char)
  | chunk :: rest => if isBlankChunk chunk then rest else chunk :: rest
  | [] => []

/-- The form of a filled text: its width and what stands in front of its first and later lines. -/
structure FillForm where
  /-- The greatest number of characters in a line. -/
  width : Int
  /-- What the first line starts with. -/
  firstIndent : String
  /-- What every later line starts with. -/
  laterIndent : String

/-- The lines for the chunks that are left, with at most `fuel` rounds. -/
def fillChunks (form : FillForm) (fuel : Nat) (started : Bool) (chunks : List (List Char)) :
    List String :=
  match fuel, chunks with
  | 0, _ => []
  | _, [] => []
  | fuel + 1, chunks =>
    let indent := if started then form.laterIndent else form.firstIndent
    let (line, rest) :=
      takeLine (form.width - indent.length) (if started then dropFirstBlank chunks else chunks)
    match dropLastBlank line with
    | [] => fillChunks form fuel started rest
    | line => (indent ++ String.ofList line.flatten) :: fillChunks form fuel true rest

/-- The lines that a line of text is broken into. There is none if the text is blank, and there is
no answer if the width is not positive. Every round takes a chunk or a part of one, so that the
number of characters bounds the number of rounds. -/
def fill? (form : FillForm) (line : String) : Option (List String) :=
  if form.width ≤ 0 then none
  else
    let text := (expandTabs 0 line.toList).map blankOut
    some (fillChunks form (text.length + 1) false (chunks text))

end TensorDiagram.Text
