import StackEffect.Text.Quoted

/-!
# Text/Number — the numbers a function body may contain

Integers are decimal, or have a base: `0b`, `0o`, `0x`, or a leading `0` for octal; they have to fit
into 64 bits.  Floating-point numbers are decimal, or hexadecimal with a binary exponent; a number that
rounds to infinity is none.  Underscores may stand between digits, and after the mark of a base.
-/

namespace StackEffect.Text

/-- The letter in lower case, if it is one. -/
def lower (c : Char) : Char := c.toLower

/-- Takes a sign off. -/
def splitSign : List Char → Bool × List Char
  | '-' :: cs => (true, cs)
  | '+' :: cs => (false, cs)
  | cs => (false, cs)

/-! ## Underscores -/

/-- What stood before an underscore: a digit or the mark of a base, an underscore, or anything
else. -/
inductive Before where
  | digit
  | underscore
  | other
  deriving DecidableEq, Repr

/-- Whether every underscore has a digit on either side, where `hex` says what a digit is. -/
def underscoresFrom (hex : Bool) : Before → List Char → Bool
  | before, [] => before != .underscore
  | before, c :: cs =>
    if c.isDigit || (hex && (hexValue? c).isSome) then underscoresFrom hex .digit cs
    else if c == '_' then before == .digit && underscoresFrom hex .underscore cs
    else before != .underscore && underscoresFrom hex .other cs

/-- **Whether underscores stand only between digits**, or between the mark of a base and a digit. -/
def underscoresOk (cs : List Char) : Bool :=
  match (splitSign cs).2 with
  | '0' :: b :: rest =>
    if ['b', 'o', 'x'].contains (lower b) then underscoresFrom (lower b == 'x') .digit rest
    else underscoresFrom false .other ('0' :: b :: rest)
  | rest => underscoresFrom false .other rest

/-! ## Integers -/

/-- The base that a number without sign is written in, and its digits. -/
def splitBase : List Char → Nat × List Char
  | '0' :: b :: d :: cs =>
    if lower b == 'b' then (2, d :: cs)
    else if lower b == 'o' then (8, d :: cs)
    else if lower b == 'x' then (16, d :: cs)
    else (8, b :: d :: cs)
  | '0' :: cs => (8, cs)
  | cs => (10, cs)

/-- The value of digits, between which underscores do not count. -/
def valueFrom? (base : Nat) : Nat → List Char → Option Nat
  | n, [] => some n
  | n, c :: cs =>
    if c == '_' then valueFrom? base n cs
    else match hexValue? c with
      | some d => if d < base then valueFrom? base (n * base + d) cs else none
      | none => none

/-- **Whether a text is an integer of 64 bits.** -/
def isInteger (cs : List Char) : Bool :=
  let (negative, digits) := splitSign cs
  if digits.isEmpty then false
  else
    let (base, ds) := splitBase digits
    match valueFrom? base 0 ds with
    | none => false
    | some n =>
      (if negative then n ≤ Nat.pow 2 63 else n < Nat.pow 2 63) &&
        (!digits.contains '_' || underscoresOk digits)

/-! ## Floating-point numbers -/

/-- What was read of a number before its exponent: the value of the digits, how many of them follow
the point, and whether there was a digit and a point. -/
structure Mantissa where
  value : Nat
  places : Nat
  anyDigit : Bool
  anyPoint : Bool
  deriving Repr, Inhabited

/-- Reads the digits, the point and the underscores at the front of a text. -/
def readMantissa (base : Nat) : Mantissa → List Char → Mantissa × List Char
  | m, [] => (m, [])
  | m, c :: cs =>
    if c == '_' then readMantissa base m cs
    else if c == '.' then
      if m.anyPoint then (m, c :: cs) else readMantissa base { m with anyPoint := true } cs
    else match hexValue? c with
      | some d =>
        if d < base then
          readMantissa base
            { m with
              value := m.value * base + d
              places := if m.anyPoint then m.places + 1 else m.places
              anyDigit := true } cs
        else (m, c :: cs)
      | none => (m, c :: cs)

/-- The value of an exponent's digits, of which no more than five count. -/
def exponentFrom? : Nat → List Char → Option Nat
  | e, [] => some e
  | e, c :: cs =>
    if c == '_' then exponentFrom? e cs
    else if c.isDigit then
      exponentFrom? (if e < 10000 then e * 10 + (c.toNat - 48) else e) cs
    else none

/-- Reads an exponent, sign and digits, that ends the text. -/
def exponent? (cs : List Char) : Option Int :=
  let (negative, digits) := splitSign cs
  match digits with
  | d :: _ =>
    if d.isDigit then
      (exponentFrom? 0 digits).map fun e => if negative then -(e : Int) else (e : Int)
    else none
  | [] => none

/-- The least number that rounds to infinity: half a unit in the last place above the largest double,
which has 53 bits. -/
def roundsToInfinity : Nat := (Nat.pow 2 54 - 1) * Nat.pow 2 970

/-- Whether `value * base ^ exponent` is finite as a double. -/
def isFinite (value base : Nat) (exponent : Int) : Bool :=
  match exponent with
  | .ofNat e => value == 0 || value * Nat.pow base e < roundsToInfinity
  | .negSucc e => value < roundsToInfinity * Nat.pow base (e + 1)

/-- **Whether a text is a floating-point number.** -/
def isFloat (cs : List Char) : Bool :=
  let (_, digits) := splitSign cs
  let (hex, digits) :=
    match digits with
    | '0' :: x :: d :: rest => if lower x == 'x' then (true, d :: rest) else (false, digits)
    | _ => (false, digits)
  let (m, rest) := readMantissa (if hex then 16 else 10) ⟨0, 0, false, false⟩ digits
  let exponent :=
    match rest with
    | [] => if hex then none else some 0
    | e :: rest => if lower e == (if hex then 'p' else 'e') then exponent? rest else none
  match exponent with
  | none => false
  | some e =>
    m.anyDigit && (!cs.contains '_' || underscoresOk cs) &&
      (if hex then isFinite m.value 2 (e - 4 * m.places) else isFinite m.value 10 (e - m.places))

end StackEffect.Text
