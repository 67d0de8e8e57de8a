import StackEffect.Text.Printable

/-!
# Text/Quoted — text between quotes

`quote` writes a text between double quotes, with escapes for all that would not leave a mark.
`quotedUnits?` reads the inside of a quoted literal: it counts the characters that are meant, and
refuses a raw line end, an unknown escape, and an escape for something that is no character.
-/

namespace StackEffect.Text

/-! ## Writing -/

/-- The digit of a number below 16. -/
def hexDigit (n : Nat) : Char := if n < 10 then Char.ofNat (48 + n) else Char.ofNat (87 + n)

/-- A number as so many hexadecimal digits. -/
def hexText : Nat → Nat → String
  | 0, _ => ""
  | width + 1, n => hexText width (n / 16) ++ (hexDigit (n % 16)).toString

/-- The escape of a character that has a letter of its own. -/
def letterEscape? (c : Char) : Option Char :=
  match c.toNat with
  | 0x07 => some 'a'
  | 0x08 => some 'b'
  | 0x0c => some 'f'
  | 0x0a => some 'n'
  | 0x0d => some 'r'
  | 0x09 => some 't'
  | 0x0b => some 'v'
  | _ => none

/-- A character as it stands between double quotes. -/
def quoteChar (c : Char) : String :=
  if c == '\\' || c.toNat == 0x22 then "\\" ++ c.toString
  else if isPrintable c then c.toString
  else match letterEscape? c with
    | some e => "\\" ++ e.toString
    | none =>
      if c.toNat < 0x80 then "\\x" ++ hexText 2 c.toNat
      else if c.toNat < 0x10000 then "\\u" ++ hexText 4 c.toNat
      else "\\U" ++ hexText 8 c.toNat

/-- **A text between double quotes.** -/
def quote (s : String) : String := "\"" ++ String.join (s.toList.map quoteChar) ++ "\""

/-! ## Reading -/

/-- The value of a hexadecimal digit. -/
def hexValue? (c : Char) : Option Nat :=
  let n := c.toNat
  if 48 ≤ n && n ≤ 57 then some (n - 48)
  else if 97 ≤ n && n ≤ 102 then some (n - 87)
  else if 65 ≤ n && n ≤ 70 then some (n - 55)
  else none

/-- The value of exactly `count` digits of a base below 17 at the front of a text. -/
def digitsValue? (base count : Nat) (cs : List Char) : Option Nat :=
  if cs.length < count then none
  else (cs.take count).foldl
    (fun v c => do
      let d ← hexValue? c
      if d < base then return (← v) * base + d else none)
    (some 0)

/-- Whether a number is the code of a character. -/
def isCharCode (n : Nat) : Bool := n < 0xd800 || (0xdfff < n && n < 0x110000)

/-- The length of the escape that begins after a backslash, between quotes of the given sort. -/
def escapeLength? (mark : Char) : List Char → Option Nat
  | [] => none
  | 'x' :: cs => (digitsValue? 16 2 cs).map fun _ => 3
  | 'u' :: cs => ((digitsValue? 16 4 cs).filter isCharCode).map fun _ => 5
  | 'U' :: cs => ((digitsValue? 16 8 cs).filter isCharCode).map fun _ => 9
  | c :: cs =>
    if c == mark || ['a', 'b', 'f', 'n', 'r', 't', 'v', '\\'].contains c then some 1
    else ((digitsValue? 8 3 (c :: cs)).filter (· < 256)).map fun _ => 3

/-- Counts the characters that the inside of a quoted literal means; the first argument is the
number of characters that belong to the escape read last. -/
def unitsFrom? (mark : Char) : Nat → List Char → Option Nat
  | _, [] => some 0
  | skip + 1, _ :: cs => unitsFrom? mark skip cs
  | 0, c :: cs =>
    if c == '\\' then
      match escapeLength? mark cs with
      | some n => (unitsFrom? mark n cs).map (· + 1)
      | none => none
    else if c == '\n' || c == mark then none
    else (unitsFrom? mark 0 cs).map (· + 1)

/-- **The number of characters that the inside of a quoted literal means.** -/
def quotedUnits? (mark : Char) (inside : List Char) : Option Nat := unitsFrom? mark 0 inside

/-- The inside of the quoted literal whose opening mark was just read, up to the first mark that is
not escaped. -/
def quotedInside? (mark : Char) : List Char → Option (List Char)
  | [] => none
  | '\\' :: c :: cs => (quotedInside? mark cs).map ('\\' :: c :: ·)
  | c :: cs => if c == mark then some [] else (quotedInside? mark cs).map (c :: ·)

end StackEffect.Text
