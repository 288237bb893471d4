import TensorDiagram.Text.CharClass

/-!
# Chunks of a line

Before a line is broken it is cut into chunks, the pieces between which a break is allowed. A chunk
is a run of blanks, a dash of two or more hyphens between words, or a word. A word ends before a
blank and before a dash, and also behind a hyphen that joins two parts with letters.

The cut looks at both sides of a place: what stands before it is kept in reversed order, so that the
nearest character comes first. The chunks of a line, put together again, are the line.
-/

namespace TensorDiagram.Text

/-- The characters that may stand in front of a dash or a joining hyphen. -/
def isWordPunctuation (c : Char) : Bool :=
  isWordChar c || "!\"'&.,?".toList.contains c

/-- Whether `rest` starts with a dash, two hyphens or more, that is followed by a word. -/
def startsWithDash (rest : List Char) : Bool :=
  2 ≤ (rest.takeWhile (· = '-')).length &&
    match rest.dropWhile (· = '-') with
    | c :: _ => isWordChar c
    | [] => false

/-- Whether a dash between words starts at this place. -/
def isDashPlace (before rest : List Char) : Bool :=
  match before with
  | c :: _ => isWordPunctuation c && startsWithDash rest
  | [] => false

/-- Whether two letters, or a letter, a hyphen and part of a word, stand before this place. -/
def endsWithPart : List Char → Bool
  | a :: b :: rest =>
    (isLetter a && isLetter b) ||
      (isWordPunctuation a && b = '-' && match rest with
        | c :: _ => isLetter c
        | [] => false)
  | _ => false

/-- Whether two letters, possibly with a hyphen between them, stand behind this place. -/
def startsWithPart : List Char → Bool
  | a :: b :: rest =>
    isLetter a && (isLetter b || (b = '-' && match rest with
      | c :: _ => isLetter c
      | [] => false))
  | _ => false

/-- Whether the hyphen at the head of `rest` joins two parts of a word. -/
def isJoiningHyphen (before rest : List Char) : Bool :=
  match rest with
  | c :: behind => c = '-' && endsWithPart before && startsWithPart behind
  | [] => false

/-- What the chunk under construction consists of. -/
inductive ChunkKind where
  | blanks
  | dash
  | word
deriving DecidableEq

/-- The kind of the chunk that starts with the first character of `rest`. -/
def chunkKind (before rest : List Char) : ChunkKind :=
  match rest with
  | ' ' :: _ => .blanks
  | _ => if isDashPlace before rest then .dash else .word

/-- The chunks of `rest`, where `current` is the reversed start of the chunk that `rest` continues,
and is empty if a new chunk starts here. -/
def chunksFrom (before : List Char) (kind : ChunkKind) (current : List Char) :
    List Char → List (List Char)
  | [] => if current.isEmpty then [] else [current.reverse]
  | c :: rest =>
    if current.isEmpty then
      chunksFrom (c :: before) (chunkKind before (c :: rest)) [c] rest
    else
      match kind with
      | .blanks =>
        if c = ' ' then chunksFrom (c :: before) .blanks (c :: current) rest
        else current.reverse :: chunksFrom (c :: before) (chunkKind before (c :: rest)) [c] rest
      | .dash =>
        if c = '-' then chunksFrom (c :: before) .dash (c :: current) rest
        else current.reverse :: chunksFrom (c :: before) (chunkKind before (c :: rest)) [c] rest
      | .word =>
        if isJoiningHyphen before (c :: rest) then
          (c :: current).reverse :: chunksFrom (c :: before) .word [] rest
        else if c = ' ' ∨ isDashPlace before (c :: rest) then
          current.reverse :: chunksFrom (c :: before) (chunkKind before (c :: rest)) [c] rest
        else chunksFrom (c :: before) .word (c :: current) rest

/-- The chunks of a line. -/
def chunks (line : List Char) : List (List Char) :=
  chunksFrom [] .word [] line

/-- No character is lost or moved when a line is cut into chunks. -/
theorem flatten_chunksFrom (before : List Char) (kind : ChunkKind) (current rest : List Char) :
    (chunksFrom before kind current rest).flatten = current.reverse ++ rest := by
  induction rest generalizing before kind current with
  | nil => cases current <;> simp [chunksFrom]
  | cons c rest ih =>
    cases current with
    | nil => simp [chunksFrom, ih]
    | cons d current =>
      cases kind <;> simp only [chunksFrom, List.isEmpty_cons] <;> (repeat' split) <;> simp_all

/-- The chunks of a line, put together, are the line. -/
theorem flatten_chunks (line : List Char) : (chunks line).flatten = line := by
  simp [chunks, flatten_chunksFrom]

end TensorDiagram.Text
