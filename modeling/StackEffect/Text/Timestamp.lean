/-!
# Text/Timestamp — dates and times

    2001-12-14
    2001-12-14 21:59:43.10
    2001-12-14T21:59:43.10-05:00

The year has four digits, and the other numbers have one or two.  A time behind `T` has a zone, and one
behind blanks has none.
-/

namespace StackEffect.Text

/-- Takes a number of one or two digits off. -/
def oneOrTwoDigits? : List Char → Option (Nat × List Char)
  | a :: cs =>
    if !a.isDigit then none
    else match cs with
      | b :: rest =>
        if b.isDigit then some (10 * (a.toNat - 48) + (b.toNat - 48), rest)
        else some (a.toNat - 48, cs)
      | [] => some (a.toNat - 48, [])
  | [] => none

/-- Takes a character off. -/
def takeChar? (c : Char) : List Char → Option (List Char)
  | d :: ds => if c == d then some ds else none
  | [] => none

/-- Whether February has a day more. -/
def isLeapYear (year : Nat) : Bool := year % 4 == 0 && (year % 100 != 0 || year % 400 == 0)

/-- The number of days of a month, which is zero for what is none. -/
def daysOfMonth (year month : Nat) : Nat :=
  if month = 2 && isLeapYear year then 29
  else [0, 31, 28, 31, 30, 31, 30, 31, 31, 30, 31, 30, 31].getD month 0

/-- Takes a date off. -/
def takeDate? (cs : List Char) : Option (List Char) := do
  let digits := cs.takeWhile Char.isDigit
  if digits.length ≠ 4 then none
  let year := digits.foldl (fun n d => 10 * n + (d.toNat - 48)) 0
  let (month, cs) ← oneOrTwoDigits? (← takeChar? '-' (cs.drop 4))
  let (day, cs) ← oneOrTwoDigits? (← takeChar? '-' cs)
  if 1 ≤ day && day ≤ daysOfMonth year month then some cs else none

/-- Takes a part of a second off, if there is one. -/
def takeFraction : List Char → List Char
  | p :: d :: cs =>
    if (p == '.' || p == ',') && d.isDigit then cs.dropWhile Char.isDigit else p :: d :: cs
  | cs => cs

/-- Takes a time off. -/
def takeTime? (cs : List Char) : Option (List Char) := do
  let (hour, cs) ← oneOrTwoDigits? cs
  let (minute, cs) ← oneOrTwoDigits? (← takeChar? ':' cs)
  let (second, cs) ← oneOrTwoDigits? (← takeChar? ':' cs)
  if hour < 24 && minute < 60 && second < 60 then some (takeFraction cs) else none

/-- Whether a text is a zone. -/
def isZone : List Char → Bool
  | ['Z'] => true
  | [s, a, b, ':', c, d] =>
    (s == '+' || s == '-') && [a, b, c, d].all Char.isDigit &&
      10 * (a.toNat - 48) + (b.toNat - 48) ≤ 24 && 10 * (c.toNat - 48) + (d.toNat - 48) ≤ 60
  | _ => false

/-- **Whether a text is a date, or a date and a time.** -/
def isTimestamp (cs : List Char) : Bool :=
  match takeDate? cs with
  | none => false
  | some [] => true
  | some (c :: cs) =>
    if c == 'T' || c == 't' then (takeTime? cs).any isZone
    else c == ' ' && takeTime? (cs.dropWhile (· == ' ')) == some []

end StackEffect.Text
