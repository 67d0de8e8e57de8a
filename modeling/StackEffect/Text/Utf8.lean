/-!
# Text/Utf8 — texts from bytes

A byte that belongs to no character stands for the replacement character.
-/

namespace StackEffect.Text

/-- The character that stands for a byte of no character. -/
def replacement : Char := Char.ofNat 0xfffd

/-- The value of the bits that `n` bytes add to those of a first byte. -/
def tailValue? : Nat → Nat → List Nat → Option Nat
  | 0, v, _ => some v
  | n + 1, v, b :: bs => if 0x80 ≤ b && b < 0xc0 then tailValue? n (64 * v + (b - 0x80)) bs else none
  | _ + 1, _, [] => none

/-- How many bytes follow the first byte of a character, and the bits that it holds itself. -/
def leadByte? (b : Nat) : Option (Nat × Nat) :=
  if b < 0x80 then some (0, b)
  else if 0xc0 ≤ b && b < 0xe0 then some (1, b - 0xc0)
  else if 0xe0 ≤ b && b < 0xf0 then some (2, b - 0xe0)
  else if 0xf0 ≤ b && b < 0xf8 then some (3, b - 0xf0)
  else none

/-- The least code of a character that needs `n` bytes behind the first one. -/
def leastCode (n : Nat) : Nat := [0, 0x80, 0x800, 0x10000].getD n 0

/-- The character at the front of some bytes, and how many bytes follow its first one. -/
def utf8Char? : List Nat → Option (Char × Nat)
  | [] => none
  | b :: bs => do
    let (n, bits) ← leadByte? b
    let code ← tailValue? n bits bs
    if leastCode n ≤ code && (code < 0xd800 || (0xdfff < code && code < 0x110000)) then
      return (Char.ofNat code, n)
    else none

/-- The characters that bytes stand for; the first argument is the number of bytes that belong to the
character before. -/
def utf8From : Nat → List Nat → List Char
  | _, [] => []
  | skip + 1, _ :: bs => utf8From skip bs
  | 0, b :: bs =>
    match utf8Char? (b :: bs) with
    | some (c, n) => c :: utf8From n bs
    | none => replacement :: utf8From 0 bs

/-- **The text that bytes stand for.** -/
def ofUtf8 (bytes : List Nat) : String := String.ofList (utf8From 0 bytes)

end StackEffect.Text
