import StackEffect.Term.Basic
import StackEffect.Text.Blank
import StackEffect.Text.Number

/-!
# Term/Reader — function bodies as they are written

White space and brackets end a word.  A word that is a number or a truth value is a literal; texts and
characters are literals between quotes, whose inside has to be well formed.  The reader goes through the
characters once and keeps the bodies of the quotations that are still open.
-/

namespace StackEffect

/-- Why a text is no function body. -/
inductive BodyFault where
  | unterminatedLiteral
  | invalidLiteral (text : String)
  | unterminatedQuotation
  /-- A bracket that closes no quotation. -/
  | strayBracket
  deriving DecidableEq, Repr, Inhabited

/-- The text of a fault. -/
def BodyFault.text : BodyFault → String
  | unterminatedLiteral => "unterminated literal"
  | invalidLiteral text => "invalid literal " ++ text
  | unterminatedQuotation => "unterminated quotation"
  | strayBracket => "unexpected ]"

/-- A fault and its position. -/
structure BodyError where
  pos : Nat
  fault : BodyFault
  deriving DecidableEq, Repr, Inhabited

/-- The text of an error, with its position. -/
def BodyError.message (e : BodyError) : String := toString e.pos ++ ": " ++ e.fault.text

namespace Term

/-- Whether a character ends a word. -/
def endsWord (c : Char) : Bool := c == '[' || c == ']' || Text.isBlank c

/-- The mark around texts. -/
def textMark : Char := '\x22'

/-- The mark around characters. -/
def charMark : Char := '\x27'

/-- A literal of a nominal type. -/
def typed (type : String) (cs : List Char) : Term := .literal (String.ofList cs) (.simple type)

/-- **The term that a word is**: a truth value, a number, or the name of a function. -/
def ofWord (cs : List Char) : Term :=
  if cs = ['t', 'r', 'u', 'e'] ∨ cs = ['f', 'a', 'l', 's', 'e'] then typed "bool" cs
  else if Text.isInteger cs then typed "int" cs
  else if cs.any (['.', 'e', 'E'].contains ·) && Text.isFloat cs then typed "float" cs
  else .word (String.ofList cs)

/-- Whether the inside of a quoted literal is well formed; a character is one, or none at all. -/
def insideOk (mark : Char) (inside : List Char) : Bool :=
  match Text.quotedUnits? mark inside with
  | some n => mark == textMark || n ≤ 1
  | none => false

/-- The literal that begins with a mark, before the characters `cs`, and the number of characters
that it takes of them. -/
def ofQuoted (mark : Char) (cs : List Char) : Except BodyFault (Term × Nat) :=
  match Text.quotedInside? mark cs with
  | none => .error .unterminatedLiteral
  | some inside =>
    let written := mark :: (inside ++ [mark])
    if insideOk mark inside then
      .ok (typed (if mark == textMark then "string" else "char") written, inside.length + 1)
    else .error (.invalidLiteral (String.ofList written))

/-- Reads the characters from a position on.  The second argument is the number of characters that
belong to the term read last, `outer` are the bodies around the quotation that is being read, innermost
first, and `body` is the one being read; bodies have their last term first. -/
def readFrom : Nat → Nat → List Char → (outer : List Body) → (body : Body) → Except BodyError Body
  | pos, _, [], outer, body =>
    if outer.isEmpty then .ok body.reverse else .error ⟨pos, .unterminatedQuotation⟩
  | pos, skip + 1, _ :: cs, outer, body => readFrom (pos + 1) skip cs outer body
  | pos, 0, c :: cs, outer, body =>
    if Text.isBlank c then readFrom (pos + 1) 0 cs outer body
    else if c == '[' then readFrom (pos + 1) 0 cs (body :: outer) []
    else if c == ']' then
      match outer with
      | [] => .error ⟨pos, .strayBracket⟩
      | around :: outer => readFrom (pos + 1) 0 cs outer (.quotation body.reverse :: around)
    else if c == textMark || c == charMark then
      match ofQuoted c cs with
      | .error fault => .error ⟨pos, fault⟩
      | .ok (t, taken) => readFrom (pos + 1) taken cs outer (t :: body)
    else
      let rest := cs.takeWhile (!endsWord ·)
      readFrom (pos + 1) rest.length cs outer (ofWord (c :: rest) :: body)

end Term

/-- **Reads a function body.** -/
def Body.parse (src : String) : Except BodyError Body := Term.readFrom 0 0 src.toList [] []

/-- Reads the body of a definition. -/
def Definition.parse (name src : String) : Except BodyError Definition :=
  (Body.parse src).map fun body => ⟨name, body⟩

end StackEffect
