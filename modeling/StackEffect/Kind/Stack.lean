import StackEffect.Kind.Basic

/-!
# Kind/Stack — reading and cutting stacks

Positions count from the top.  Where a position may lie outside the stack the operation is partial
and answers `none`.
-/

namespace StackEffect.Stack

/-- The slot at a position. -/
def slot? (s : Stack) (i : Int) : Option Kind :=
  if i < 0 then none else s[i.toNat]?

/-- The slots at the positions from `start` up to, but not including, `stop`.  A cut that ends where
it starts or before is empty wherever it lies. -/
def cut? (s : Stack) (start stop : Int) : Option Stack :=
  if stop ≤ start then some []
  else if start < 0 ∨ (s.length : Int) < stop then none
  else some ((s.take stop.toNat).drop start.toNat)

/-- The bottom slot. -/
def bottom? (s : Stack) : Option Kind := s.getLast?

/-- A stack is open if it ends in a stack variable. -/
def isOpen (s : Stack) : Bool :=
  match bottom? s with
  | some (.stackVar _) => true
  | _ => false

/-- A stack of one slot is that slot. -/
def collapse (s : Stack) : Kind :=
  match s with
  | [k] => k
  | _ => .stack s

@[simp] theorem isOpen_nil : isOpen [] = false := rfl

/-- **A stack is open exactly when a stack variable lies below all else.** -/
theorem isOpen_iff (s : Stack) :
    isOpen s = true ↔ ∃ above name, s = above ++ [.stackVar name] := by
  constructor
  · intro h
    unfold isOpen bottom? at h
    split at h
    · next name hb =>
      obtain ⟨above, rfl⟩ := List.getLast?_eq_some_iff.1 hb
      exact ⟨above, name, rfl⟩
    · cases h
  · rintro ⟨above, name, rfl⟩
    simp [isOpen, bottom?]

end StackEffect.Stack
