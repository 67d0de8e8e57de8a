import StackEffect.Document.Source
import StackEffect.Text.Quoted
import StackEffect.Text.Utf8

/-!
# Document/Property — anchors, tags and directives

    &name   *name   !tag   !handle!tag   !<tag>
    %YAML 1.1
    %TAG !handle! text

Every reader begins at the first character of what it reads.
-/

namespace StackEffect.Document

/-- A tag: its handle, which is empty for a tag written in full, and the rest. -/
structure TagName where
  handle : String
  suffix : String
  deriving DecidableEq, Repr, Inhabited

/-- A directive. -/
inductive Directive where
  | version (major minor : Nat)
  | handle (name meaning : String)
  deriving DecidableEq, Repr, Inhabited

/-- Reads the name of an anchor, behind its sign. -/
def readAnchor (c : Cursor) : Except DocumentError (String × Cursor) := do
  let (name, c) ← (← c.step.ensure 1).takeWhile isNameChar
  let ends := blankAhead c.rest ||
    c.rest.head?.any fun d => ['?', ':', ',', ']', '\x7d', '%', '@', '\x60'].contains d
  if name = "" || !ends then throw .badProperty
  return (name, c)

/-- Whether a character may occur in a tag as it is. -/
def isTagChar (c : Char) : Bool :=
  isNameChar c || [';', '/', '?', ':', '@', '&', '=', '+', '$', ',', '.', '!', '~', '*', '\x27', '(',
    ')', '[', ']'].contains c

/-- The bytes that `n` escapes stand for. -/
def escapedBytes? : Nat → List Char → Option (List Nat)
  | 0, _ => some []
  | n + 1, '%' :: ds => do
    let b ← Text.digitsValue? 16 2 ds
    return b :: (← escapedBytes? n (ds.drop 2))
  | _ + 1, _ => none

/-- The bytes of the character that is escaped here. -/
def escapedChar? (cs : List Char) : Option (List Nat) := do
  let (n, _) ← Text.leadByte? (← (← escapedBytes? 1 cs).head?)
  let bytes ← escapedBytes? (n + 1) cs
  if bytes.tail.all fun b => 0x80 ≤ b && b < 0xc0 then some bytes else none

/-- Reads the characters of a tag; the first argument is the number of characters that belong to the
escape read last. -/
def tagCharsFrom : Nat → List Char → Cursor → List Char → Except DocumentError (String × Cursor)
  | _, [], c, text => .ok (String.ofList text.reverse, c)
  | skip + 1, _ :: ds, c, text => do tagCharsFrom skip ds (← c.step.ensure 1) text
  | 0, d :: ds, c, text => do
    if d == '%' then
      match escapedChar? (d :: ds) with
      | some bytes =>
        tagCharsFrom (3 * bytes.length - 1) ds (← c.step.ensure 1)
          ((Text.utf8From 0 bytes).reverse ++ text)
      | none => throw .badProperty
    else if isTagChar d then tagCharsFrom 0 ds (← c.step.ensure 1) (d :: text)
    else return (String.ofList text.reverse, c)

/-- Reads the characters of a tag, of which there has to be one. -/
def tagChars (c : Cursor) : Except DocumentError (String × Cursor) := do
  let (text, c) ← tagCharsFrom 0 c.rest c []
  if text = "" then throw .badProperty
  return (text, c)

/-- Reads a tag.  A lone `!` is a tag by itself. -/
def readTag (c : Cursor) : Except DocumentError (TagName × Cursor) := do
  let c ← c.ensure 2
  let (tag, c) ←
    if c.rest[1]? == some '<' then do
      let (suffix, c) ← tagChars c.step.step
      if c.rest.head? ≠ some '>' then throw .badProperty
      pure (⟨"", suffix⟩, ← c.step.ensure 1)
    else do
      let (name, c) ← (← c.step.ensure 1).takeWhile isNameChar
      if c.rest.head? = some '!' then
        let (suffix, c) ← tagChars (← c.step.ensure 1)
        pure (⟨"!" ++ name ++ "!", suffix⟩, c)
      else
        let (more, c) ← tagCharsFrom 0 c.rest c []
        pure (if name ++ more = "" then ⟨"", "!"⟩ else ⟨"!", name ++ more⟩, c)
  if !blankAhead c.rest then throw .badProperty
  return (tag, c)

/-- Reads a number of one or two digits. -/
def versionNumber (c : Cursor) : Except DocumentError (Nat × Cursor) := do
  let (digits, c) ← c.takeWhile Char.isDigit
  if digits.length = 0 || 2 < digits.length then throw .badDirective
  return (digits.toList.foldl (fun n d => 10 * n + (d.toNat - 48)) 0, c)

/-- Reads a handle: a name between exclamation marks, or a lone one. -/
def readHandle (c : Cursor) : Except DocumentError (String × Cursor) := do
  if c.rest.head? ≠ some '!' then throw .badDirective
  let (name, c) ← (← c.step.ensure 1).takeWhile isNameChar
  if c.rest.head? = some '!' then return ("!" ++ name ++ "!", ← c.step.ensure 1)
  if name ≠ "" then throw .badDirective
  return ("!", c)

/-- Reads a directive and the rest of its line. -/
def readDirective (c : Cursor) : Except DocumentError (Directive × Cursor) := do
  let (name, c) ← (← c.step.ensure 1).takeWhile isNameChar
  if !blankAhead c.rest then throw .badDirective
  let (directive, c) ←
    if name = "YAML" then do
      let (major, c) ← versionNumber (← c.skipWhile isBlank)
      if c.rest.head? ≠ some '.' then throw .badDirective
      let (minor, c) ← versionNumber (← c.step.ensure 1)
      pure (Directive.version major minor, c)
    else if name = "TAG" then do
      let (handle, c) ← readHandle (← c.skipWhile isBlank)
      if !c.rest.head?.any isBlank then throw .badDirective
      let (meaning, c) ← tagChars (← c.skipWhile isBlank)
      if !blankAhead c.rest then throw .badDirective
      pure (Directive.handle handle meaning, c)
    else throw .badDirective
  let c ← c.skipWhile isBlank
  let c ← if c.rest.head? = some '#' then c.skipLine else pure c
  if !c.atLineEnd then throw .badDirective
  return (directive, ← if c.rest.isEmpty then pure c else c.stepLine.ensure 1)

end StackEffect.Document
