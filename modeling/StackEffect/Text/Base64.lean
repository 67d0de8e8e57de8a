/-!
# Text/Base64 — bytes written in base 64

Four digits stand for three bytes.  At the end, two digits and `==` stand for one byte, and three digits
and `=` for two.  Ends of lines do not count.
-/

namespace StackEffect.Text

/-- The value of a digit. -/
def sixBits? (c : Char) : Option Nat :=
  if c.isUpper then some (c.toNat - 65)
  else if c.isLower then some (c.toNat - 71)
  else if c.isDigit then some (c.toNat + 4)
  else if c == '+' then some 62
  else if c == '/' then some 63
  else none

/-- The bytes that digits stand for. -/
def base64Groups? : List Char → Option (List Nat)
  | [] => some []
  | [a, b, '=', '='] => do
    let n := 64 * (← sixBits? a) + (← sixBits? b)
    return [n / 16]
  | [a, b, c, '='] => do
    let n := 4096 * (← sixBits? a) + 64 * (← sixBits? b) + (← sixBits? c)
    return [n / 1024, n / 4 % 256]
  | a :: b :: c :: d :: cs => do
    let n := 262144 * (← sixBits? a) + 4096 * (← sixBits? b) + 64 * (← sixBits? c) + (← sixBits? d)
    return n / 65536 :: n / 256 % 256 :: n % 256 :: (← base64Groups? cs)
  | _ => none

/-- **The bytes that a text in base 64 stands for**, if it is one. -/
def ofBase64? (text : String) : Option (List Nat) :=
  base64Groups? (text.toList.filter fun c => c != '\n' && c != '\r')

end StackEffect.Text
