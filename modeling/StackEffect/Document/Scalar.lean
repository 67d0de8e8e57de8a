import StackEffect.Document.Source
import StackEffect.Text.Quoted

/-!
# Document/Scalar — scalars as documents write them

    plain text       'it''s'       "a\tb"       |            >
                                                  by lines     folded

A plain scalar goes on until something ends it, and over lines that are indented more than the table or
list around it.  Between quotes a scalar may go over lines, too.  In both, the end of a line stands for
a blank, and of several line ends all but the first are kept.  A scalar by lines is all that is indented
below its header; folded, the ends of its lines stand for blanks.
-/

namespace StackEffect.Document

/-- The white space between two parts of a scalar, the last character first. -/
structure Gap where
  /-- White space on the line of what precedes it. -/
  blanks : List Char
  /-- Whether the gap goes over the end of a line. -/
  crossed : Bool
  /-- The first end of a line, unless it is escaped. -/
  first : Option Char
  /-- The other ends of lines. -/
  more : List Char
  deriving DecidableEq, Repr, Inhabited

namespace Gap

/-- No white space. -/
def none : Gap := ⟨[], false, .none, []⟩

/-- An escaped end of a line. -/
def escaped : Gap := ⟨[], true, .none, []⟩

/-- Adds white space on a line; before what follows, it does not count. -/
def blank (c : Char) (g : Gap) : Gap := if g.crossed then g else { g with blanks := c :: g.blanks }

/-- Adds the end of a line. -/
def line (c : Char) (g : Gap) : Gap :=
  if g.crossed then { g with more := breakText c :: g.more } else ⟨[], true, some (breakText c), []⟩

/-- Whether there is white space. -/
def isNone (g : Gap) : Bool := g.blanks.isEmpty && !g.crossed

/-- The characters that a gap stands for, the last one first. -/
def folded (g : Gap) : List Char :=
  if g.crossed then
    match g.first with
    | some c => if c == '\n' then (if g.more.isEmpty then [' '] else g.more) else g.more ++ [c]
    | .none => g.more
  else g.blanks

end Gap

/-! ## Plain scalars -/

/-- Whether a plain scalar ends before the character `c`. -/
def endsPlain (flow : Bool) (c : Char) (cs : List Char) : Bool :=
  (c == ':' && blankAhead cs) || (flow && [',', '?', '[', ']', '\x7b', '\x7d'].contains c)

/-- What was read of a plain scalar: its text, whether there is the end of a line behind it, and the
place behind it and the white space after it. -/
structure PlainText where
  text : String
  lineAfter : Bool
  cursor : Cursor
  deriving Repr, Inhabited

/-- Reads a plain scalar.  `limit` is the least column in which it may go on outside of brackets. -/
def plainFrom (flow : Bool) (limit : Int) :
    List Char → Cursor → (text : List Char) → Gap → Except DocumentError PlainText
  | [], c, text, gap => .ok ⟨String.ofList text.reverse, gap.crossed, c⟩
  | d :: ds, c, text, gap => do
    if isBreak d then plainFrom flow limit ds (← c.stepLine.ensure 1) text (gap.line d)
    else if isBlank d then
      if d == '\t' && gap.crossed && (c.col : Int) < limit then throw .tabIndent
      plainFrom flow limit ds (← c.step.ensure 1) text (gap.blank d)
    else
      let c ← if gap.isNone then pure c else c.ensure 4
      if (!gap.isNone && ((!flow && (c.col : Int) < limit) || d == '#' || c.atMarker)) ||
          endsPlain flow d ds then
        return ⟨String.ofList text.reverse, gap.crossed, c⟩
      plainFrom flow limit ds (← c.step.ensure 2) (d :: (gap.folded ++ text)) .none

/-- Whether a plain scalar may begin with `c`. -/
def startsPlain (flow : Bool) (c : Char) (cs : List Char) : Bool :=
  if c == '-' then !blankAhead cs
  else if c == '?' || c == ':' then !flow && !blankAhead cs
  else !([',', '[', ']', '\x7b', '\x7d', '#', '&', '*', '!', '|', '>', '\x27', '\x22', '%', '@',
    '\x60'].contains c || isBlank c || isBreak c)

/-! ## Quoted scalars -/

/-- The character that a letter stands for after a backslash. -/
def escapeChar? (c : Char) : Option Char :=
  (([('0', 0), ('a', 7), ('b', 8), ('t', 9), ('\t', 9), ('n', 10), ('v', 11), ('f', 12), ('r', 13),
    ('e', 27), (' ', 32), ('\x22', 34), ('\x27', 39), ('\\', 92), ('N', 0x85), ('_', 0xa0),
    ('L', 0x2028), ('P', 0x2029)] : List (Char × Nat)).lookup c).map Char.ofNat

/-- The number of hexadecimal digits that follow a letter after a backslash. -/
def escapeDigits? (c : Char) : Option Nat :=
  ([('x', 2), ('u', 4), ('U', 8)] : List (Char × Nat)).lookup c

/-- Reads what is left of a scalar between quotes; the first argument is the number of characters that
belong to the escape read last. -/
def quotedFrom (mark : Char) :
    Nat → List Char → Cursor → (text : List Char) → Gap → Except DocumentError (String × Cursor)
  | _, [], _, _, _ => .error .unclosedQuotes
  | skip + 1, _ :: cs, c, text, gap => do
    quotedFrom mark skip cs (← c.advance.ensure 2) text gap
  | 0, d :: ds, c, text, gap => do
    let c ← if gap.isNone then pure c else c.ensure 4
    let text' := gap.folded ++ text
    if c.atMarker && !gap.isNone then throw .unclosedQuotes
    else if isBreak d then quotedFrom mark 0 ds (← c.stepLine.ensure 1) text (gap.line d)
    else if isBlank d then quotedFrom mark 0 ds (← c.step.ensure 1) text (gap.blank d)
    else if d == mark then
      if mark == '\x27' && ds.head? == some mark then
        quotedFrom mark 1 ds (← c.step.ensure 2) (mark :: text') .none
      else return (String.ofList text'.reverse, c.step)
    else if d == '\\' && mark == '\x22' then
      match ds with
      | [] => throw .unclosedQuotes
      | e :: es =>
        let c ← c.step.ensure 2
        if isBreak e then quotedFrom mark 1 ds c text' .escaped
        else match escapeChar? e, escapeDigits? e with
          | some v, _ => quotedFrom mark 1 ds c (v :: text') .none
          | none, some n =>
            match (Text.digitsValue? 16 n es).filter Text.isCharCode with
            | some v => quotedFrom mark (n + 1) ds c (Char.ofNat v :: text') .none
            | none => throw .unknownEscape
          | none, none => throw .unknownEscape
    else quotedFrom mark 0 ds (← c.step.ensure 2) (d :: text') .none

/-! ## Scalars by lines -/

/-- What is kept of the line ends behind a scalar by lines. -/
inductive Chomp where
  | strip
  | clip
  | keep
  deriving DecidableEq, Repr, Inhabited

/-- What the header of a scalar by lines says: what is kept behind it, and by how much it is
indented. -/
structure BlockHeader where
  chomp : Chomp
  indent : Option Nat
  deriving DecidableEq, Repr, Inhabited

/-- The sign that says what is kept. -/
def chompSign? (c : Char) : Option Chomp :=
  if c == '+' then some .keep else if c == '-' then some .strip else none

/-- Reads the signs of a header, in either order. -/
def blockSigns (c : Cursor) : Except DocumentError (BlockHeader × Cursor) :=
  let digit (d : Char) : Except DocumentError Nat :=
    if d == '0' then .error .badHeader else .ok (d.toNat - 48)
  match c.rest with
  | d :: ds =>
    match chompSign? d with
    | some chomp =>
      match ds with
      | e :: _ => do
        if e.isDigit then return (⟨chomp, some (← digit e)⟩, c.step.step)
        return (⟨chomp, none⟩, c.step)
      | [] => .ok (⟨chomp, none⟩, c.step)
    | none => do
      if d.isDigit then
        let n ← digit d
        match ds.head?.bind chompSign? with
        | some chomp => return (⟨chomp, some n⟩, c.step.step)
        | none => return (⟨.clip, some n⟩, c.step)
      else return (⟨.clip, none⟩, c)
  | [] => .ok (⟨.clip, none⟩, c)

/-- Skips blanks that indent, and the ends of empty lines, and answers the widest indentation and the
ends of lines, the last one first.  Without a known indentation, all blanks indent. -/
def blockGap (indent : Option Nat) :
    List Char → Cursor → (widest : Nat) → List Char → Except DocumentError (Nat × List Char × Cursor)
  | [], c, widest, ends => .ok (max widest c.col, ends, c)
  | d :: ds, c, widest, ends => do
    let inside := indent.all fun n => c.col < n
    if inside && d == ' ' then blockGap indent ds (← c.step.ensure 1) widest ends
    else if inside && d == '\t' then throw .tabIndent
    else if isBreak d then
      blockGap indent ds (← c.stepLine.ensure 1) (max widest c.col) (breakText d :: ends)
    else return (max widest c.col, ends, c)

/-- The text of a scalar by lines, which is given with the last character first. -/
def Chomp.finish (chomp : Chomp) (text : List Char) (last : Option Char) (ends : List Char) : String :=
  let kept := match chomp with
    | .strip => text
    | .clip => last.toList ++ text
    | .keep => ends ++ last.toList ++ text
  String.ofList kept.reverse

/-- Reads the lines of a scalar.  `last` is the end of the line before, `ends` those of the empty lines
behind it, and `indented` says whether the line before begins with white space. -/
def blockLines (literal : Bool) (chomp : Chomp) (indent : Nat) :
    (fuel : List Char) → Cursor → (text : List Char) → (last : Option Char) → (ends : List Char) →
    (indented : Bool) → Except DocumentError (String × Cursor)
  | fuel, c, text, last, ends, indented => do
    match fuel, c.rest with
    | _ :: fuel, d :: _ =>
      if c.col ≠ indent then return (chomp.finish text last ends, c)
      let blank := isBlank d
      let joined := !literal && !indented && !blank && last == some '\n'
      let text := if joined then (if ends.isEmpty then ' ' :: text else text) else last.toList ++ text
      let (line, c) ← c.takeWhile fun d => !isBreak d
      let last := c.rest.head?.map breakText
      let c ← if c.rest.isEmpty then pure c else c.stepLine.ensure 1
      let (_, ends', c) ← blockGap (some indent) c.rest c 0 []
      blockLines literal chomp indent fuel c (line.toList.reverse ++ (ends ++ text)) last ends' blank
    | _, _ => return (chomp.finish text last ends, c)

/-- Reads a scalar by lines, from behind its indicator.  `around` is the indentation around it. -/
def readBlock (literal : Bool) (around : Int) (c : Cursor) :
    Except DocumentError (String × Cursor) := do
  let (header, c) ← blockSigns c
  let c ← c.skipWhile isBlank
  let c ← if c.rest.head? = some '#' then c.skipLine else pure c
  if !c.atLineEnd then throw .badHeader
  let c ← if c.rest.isEmpty then pure c else c.stepLine.ensure 1
  let known := header.indent.map fun n => (max around 0).toNat + n
  let (widest, ends, c) ← blockGap known c.rest c 0 []
  let indent := known.getD (max widest (max (around + 1).toNat 1))
  blockLines literal header.chomp indent c.rest c [] none ends false

end StackEffect.Document
