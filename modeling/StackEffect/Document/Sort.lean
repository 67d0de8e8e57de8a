import StackEffect.Document.Node
import StackEffect.Text.Base64
import StackEffect.Text.Number
import StackEffect.Text.Timestamp
import StackEffect.Text.Utf8

/-!
# Document/Sort — what scalars stand for

    ~   null            nothing
    true   False        a truth value
    12   0x1f   1_000   an integer
    1.5   .inf          a decimal number
    2001-12-14          a time
    anything else       a text, as is everything between quotes

A tag may ask for a sort, which the scalar must then have.  A text may be written in base 64, under a tag
of its own.
-/

namespace StackEffect.Document

/-- The sort of a scalar. -/
inductive ScalarSort where
  | nothing
  | truth (b : Bool)
  /-- An integer; `wide` says that it needs 64 bits without a sign. -/
  | integer (wide : Bool)
  | decimal
  | time
  | text
  deriving DecidableEq, Repr, Inhabited

/-- Whether a text is an integer of 64 bits without a sign. -/
def isWideInteger (cs : List Char) : Bool :=
  cs.head?.any Char.isDigit &&
    let (base, digits) := Text.splitBase cs
    (Text.valueFrom? base 0 digits).any (· < Nat.pow 2 64)

/-- Whether a text is the mark of a base, a sign and digits. -/
def isSignedBehindBase (cs : List Char) : Bool :=
  let fits (base : Nat) (ds : List Char) : Bool :=
    let (negative, digits) := Text.splitSign ds
    digits.length < ds.length && !digits.isEmpty &&
      (Text.valueFrom? base 0 digits).any fun n =>
        if negative then n ≤ Nat.pow 2 63 else n < Nat.pow 2 63
  match cs with
  | '0' :: 'b' :: ds => fits 2 ds
  | '0' :: 'o' :: ds => fits 8 ds
  | _ => false

/-- Whether a text is a decimal number. -/
def isDecimalText (cs : List Char) : Bool :=
  cs.all (fun c => c.isDigit || ['+', '-', '.', 'e', 'E'].contains c) && Text.isFloat cs

/-- The sort of what begins with a digit or a sign. -/
def ScalarSort.ofNumeral (cs : List Char) : ScalarSort :=
  let bare := cs.filter (· != '_')
  if Text.isTimestamp cs then .time
  else if Text.isInteger bare then .integer false
  else if isWideInteger bare then .integer true
  else if isDecimalText bare then .decimal
  else if isSignedBehindBase bare then .integer false
  else .text

/-- **The sort of a scalar without quotes.** -/
def ScalarSort.ofText (text : String) : ScalarSort :=
  if ["", "~", "null", "Null", "NULL"].contains text then .nothing
  else if ["true", "True", "TRUE"].contains text then .truth true
  else if ["false", "False", "FALSE"].contains text then .truth false
  else if [".nan", ".NaN", ".NAN", ".inf", ".Inf", ".INF", "+.inf", "+.Inf", "+.INF", "-.inf", "-.Inf",
      "-.INF"].contains text then .decimal
  else
    match text.toList with
    | '.' :: cs => if isDecimalText ('.' :: cs) then .decimal else .text
    | c :: cs => if c.isDigit || c == '+' || c == '-' then .ofNumeral (c :: cs) else .text
    | [] => .nothing

/-- **The sort of a scalar and its text**, unless its tag asks for another sort. -/
def Scalar.content (s : Scalar) : Except DocumentError (ScalarSort × String) :=
  let found := ScalarSort.ofText s.text
  let check (ok : Bool) (wanted : String) : Except DocumentError (ScalarSort × String) :=
    if ok then .ok (found, s.text) else .error (.wrongShape wanted)
  match s.tag with
  | none => .ok (if s.plain then found else .text, s.text)
  | some "!!null" => check (found = .nothing) "null"
  | some "!!bool" => check (found = .truth true || found = .truth false) "bool"
  | some "!!int" => check (found = .integer true || found = .integer false) "int"
  | some "!!float" => check (found = .integer false || found = .decimal) "float"
  | some "!!timestamp" => check (found = .time) "time"
  | some "!!binary" =>
    match Text.ofBase64? s.text with
    | some bytes => .ok (.text, Text.ofUtf8 bytes)
    | none => .error (.wrongShape "text in base 64")
  | some _ => .ok (.text, s.text)

end StackEffect.Document
