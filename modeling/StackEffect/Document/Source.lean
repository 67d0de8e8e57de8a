import StackEffect.Document.Node

/-!
# Document/Source — places in a text

A text is taken in by portions of 512 bytes, and a portion with a character that documents may not hold
is refused when it is taken in: what lies far behind a document is not looked at.  A cursor is a place
in a text, and knows how much of what follows was taken in.
-/

namespace StackEffect.Document

/-! ## Characters -/

/-- Blanks and tabs. -/
def isBlank (c : Char) : Bool := c == ' ' || c == '\t'

/-- The ends of lines: those of a plain text, and three more. -/
def isBreak (c : Char) : Bool :=
  c == '\n' || c.toNat == 0x85 || c.toNat == 0x2028 || c.toNat == 0x2029

/-- The character that the end of a line stands for in a scalar. -/
def breakText (c : Char) : Char := if c.toNat == 0x85 then '\n' else c

/-- The mark that may precede a text. -/
def byteOrderMark : Char := Char.ofNat 0xfeff

/-- Whether a character may occur in a document. -/
def isAllowed (c : Char) : Bool :=
  let n := c.toNat
  n == 9 || n == 10 || n == 13 || (32 ≤ n && n ≤ 126) || n == 0x85 || (0xa0 ≤ n && n ≤ 0xfffd) ||
    0x10000 ≤ n

/-- Letters, digits, `_` and `-`. -/
def isNameChar (c : Char) : Bool := c.isAlphanum || c == '_' || c == '-'

/-- Whether white space, the end of a line or the end of the text follows. -/
def blankAhead : List Char → Bool
  | [] => true
  | c :: _ => isBlank c || isBreak c

/-! ## Portions -/

/-- A portion of a text: how many characters it has, and whether all of them may occur. -/
structure Portion where
  size : Nat
  clean : Bool
  deriving DecidableEq, Repr, Inhabited

/-- The bytes of a portion. -/
def portionBytes : Nat := 512

/-- Divides a text into portions; `bytes` are the bytes of the portion `p` that was begun.  The two
characters that may end a line count as one. -/
def portionsFrom : List Char → (bytes : Nat) → (p : Portion) → List Portion
  | [], _, p => if p.size = 0 then [] else [p]
  | c :: cs, bytes, p =>
    let size := if c == '\r' && cs.head? == some '\n' then 0 else 1
    if portionBytes < bytes + c.utf8Size then p :: portionsFrom cs c.utf8Size ⟨size, isAllowed c⟩
    else portionsFrom cs (bytes + c.utf8Size) ⟨p.size + size, p.clean && isAllowed c⟩

/-! ## Cursors -/

/-- A place in a text. -/
structure Cursor where
  /-- What follows. -/
  rest : List Char
  /-- How many characters precede the place. -/
  index : Nat
  line : Nat
  col : Nat
  /-- How many lines ended since the last character that is not white space. -/
  breaks : Nat
  /-- How many of the characters that follow were taken in. -/
  loaded : Nat
  /-- The portions that were not taken in. -/
  portions : List Portion
  /-- Whether what was taken in last begins with a byte order mark. -/
  marked : Bool
  deriving Repr, Inhabited

namespace Cursor

/-- The line ends of plain texts, written in one way. -/
def unifyLines : List Char → List Char
  | '\r' :: '\n' :: cs => '\n' :: unifyLines cs
  | '\r' :: cs => '\n' :: unifyLines cs
  | c :: cs => c :: unifyLines cs
  | [] => []

/-- The beginning of a text, behind the mark that may precede it. -/
def start (src : String) : Cursor :=
  let chars := src.toList
  let marked := chars.head? == some byteOrderMark
  let bare := if marked then chars.tail else chars
  { rest := unifyLines bare, index := 0, line := 0, col := 0, breaks := 0, loaded := 0
    portions := portionsFrom bare (if marked then 3 else 0) ⟨0, true⟩, marked := false }

/-- Takes portions in until `n` characters are there or the text ends. -/
def load (n : Nat) : List Portion → Nat → Except DocumentError (List Portion × Nat)
  | [], loaded => .ok ([], loaded + 1)
  | p :: ps, loaded =>
    if !p.clean then .error .controlCharacter
    else if n ≤ loaded + p.size then .ok (ps, loaded + p.size)
    else load n ps (loaded + p.size)

/-- Sees to it that `n` characters are taken in. -/
def ensure (n : Nat) (c : Cursor) : Except DocumentError Cursor :=
  if n ≤ c.loaded then .ok c
  else do
    let (portions, loaded) ← load n c.portions c.loaded
    return { c with
      portions := portions, loaded := loaded, marked := c.rest.head? == some byteOrderMark }

/-- The place behind the next character, which ends no line. -/
def step (c : Cursor) : Cursor :=
  match c.rest with
  | [] => c
  | d :: ds =>
    { c with
      rest := ds, index := c.index + 1, col := c.col + 1, loaded := c.loaded - 1
      breaks := if isBlank d then c.breaks else 0 }

/-- The place behind the next character, which ends a line. -/
def stepLine (c : Cursor) : Cursor :=
  { c with
    rest := c.rest.tail, index := c.index + 1, line := c.line + 1, col := 0, loaded := c.loaded - 1
    breaks := c.breaks + 1 }

/-- The place behind the next character. -/
def advance (c : Cursor) : Cursor :=
  match c.rest with
  | d :: _ => if isBreak d then c.stepLine else c.step
  | [] => c

/-- The place that is `n` characters further on. -/
def advanceBy : Nat → Cursor → Cursor
  | 0, c => c
  | n + 1, c => advanceBy n c.advance

/-- Takes characters as long as they satisfy `p`. -/
def takeFrom (p : Char → Bool) : List Char → Cursor → List Char →
    Except DocumentError (String × Cursor)
  | [], c, taken => .ok (String.ofList taken.reverse, c)
  | d :: ds, c, taken =>
    if p d then do takeFrom p ds (← c.step.ensure 1) (d :: taken)
    else .ok (String.ofList taken.reverse, c)

/-- Takes characters as long as they satisfy `p`; none of them may end a line. -/
def takeWhile (p : Char → Bool) (c : Cursor) : Except DocumentError (String × Cursor) :=
  takeFrom p c.rest c []

/-- Skips characters as long as they satisfy `p`; none of them may end a line. -/
def skipWhile (p : Char → Bool) (c : Cursor) : Except DocumentError Cursor := do
  return (← c.takeWhile p).2

/-- Skips what is left of a line. -/
def skipLine (c : Cursor) : Except DocumentError Cursor := c.skipWhile fun d => !isBreak d

/-- Whether the line, or the text, ends here. -/
def atLineEnd (c : Cursor) : Bool := c.rest.head?.all isBreak

/-- Whether a line begins with three times a character here, and nothing more. -/
def atTriple (d : Char) (c : Cursor) : Bool :=
  c.col == 0 &&
    match c.rest with
    | a :: b :: e :: cs => a == d && b == d && e == d && blankAhead cs
    | _ => false

/-- Whether the mark of a document's beginning or end stands here. -/
def atMarker (c : Cursor) : Bool := c.atTriple '-' || c.atTriple '.'

end Cursor

/-! ## Comments -/

namespace Cursor

/-- How far a comment may be from what precedes it. -/
def commentReach : Nat := 512

/-- Skips a comment on the line of what was just read. -/
def skipLineComment (c : Cursor) : Except DocumentError Cursor := do
  if 0 < c.breaks then return c
  let blanks := ((c.rest.take commentReach).takeWhile isBlank).length
  let c ← c.ensure (min (blanks + 1) commentReach)
  if blanks < commentReach && c.rest[blanks]? == some '#' then (c.advanceBy blanks).skipLine
  else return c

/-- The distance to the next comment, if there is only white space before it.  The first character is
the end of the line of the comment before. -/
def nextComment? (cs : List Char) : Option Nat :=
  match cs with
  | '\n' :: cs =>
    let space := (cs.take (commentReach - 1)).takeWhile fun d => isBlank d || d == '\n'
    if space.length < commentReach - 1 && cs[space.length]? == some '#' then some (space.length + 1)
    else none
  | _ => none

/-- Skips a comment and those that follow it, up to the end of the last one's line. -/
def skipCommentsFrom : List Char → Cursor → Except DocumentError Cursor
  | [], c => .ok c
  | _ :: fuel, c => do
    let c ← c.skipLine
    let space := ((c.rest.drop 1).take (commentReach - 1)).takeWhile fun d => isBlank d || d == '\n'
    let c ← if c.rest.head? = some '\n' then c.ensure (min (space.length + 2) commentReach) else pure c
    match nextComment? c.rest with
    | some n => skipCommentsFrom fuel (c.advanceBy n)
    | none => return c

/-- Skips the comments that begin here. -/
def skipComments (c : Cursor) : Except DocumentError Cursor := skipCommentsFrom c.rest c

end Cursor

end StackEffect.Document
