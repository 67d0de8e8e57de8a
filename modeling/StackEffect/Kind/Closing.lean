import StackEffect.Kind.Stack
import StackEffect.Kind.Vars

/-!
# Kind/Closing — effects without the stack they pass through

An effect that leaves the lower part of the stack alone may say so, `('R 'a -> 'R 'a 'a)`, or not
mention it, `('a -> 'a 'a)`.  `Kind.close` turns the first form into the second wherever the stack
variable is used for nothing else.
-/

namespace StackEffect

/-- The stack variable that an effect has at the bottom of both its stacks. -/
def Stack.sharedBottom? (c p : Stack) : Option String :=
  match Stack.bottom? c, Stack.bottom? p with
  | some (.stackVar a), some (.stackVar b) => if a = b then some a else none
  | _, _ => none

namespace Kind

mutual
/-- Removes the shared bottom of every effect where `drop` says so. -/
def closeWith (drop : String → Bool) : Kind → Kind
  | stack s => stack (closeSlots drop s)
  | effect c p i =>
    let c' := closeSlots drop c
    let p' := closeSlots drop p
    if (Stack.sharedBottom? c p).any drop then effect c'.dropLast p'.dropLast i else effect c' p' i
  | k => k
/-- The same for every slot of a stack. -/
def closeSlots (drop : String → Bool) : List Kind → List Kind
  | [] => []
  | k :: s => closeWith drop k :: closeSlots drop s
end

/-- The number of times a name occurs as a variable. -/
def occurrences (k : Kind) (name : String) : Nat := k.vars.countP fun v => v.name == name

/-- **Removes the stack variables that an effect only passes through**: those that occur twice, at
the bottom of what it consumes and of what it produces. -/
def close (k : Kind) : Kind := k.closeWith fun name => k.occurrences name == 2

end Kind

/-- Removes the stack variables that an effect, or an effect in it, only passes through. -/
def Effect.close (f : Effect) : Effect := (f.kind.close.effect?).getD f

end StackEffect
