import StackEffect.Constraint.Unify

/-!
# Constraint/Representative — which member stands for a class

Members are compared two at a time.  The one of higher rank wins; between effects the one that
consumes more slots, between stacks the longer one, between variables of one sort the one whose name
comes first.  Nominal types go down to the subtype, and unrelated ones up to the top type, with a
warning.
-/

namespace StackEffect

namespace Kind

/-- **The rank of a kind as a representative**: an effect tells most, no kind at all the least. -/
def rank : Kind → Nat
  | absent => 0
  | stackVar _ => 1
  | typeVar _ => 2
  | simple _ | foreign .. => 3
  | stack _ => 4
  | self => 5
  | effect .. => 6

end Kind

namespace Store

open Site

variable {σ : Type} [Site σ]

/-- The representative of two nominal types: the subtype, or else the top type. -/
def lowerType (a b : String) : EStateM Fault σ Kind := do
  let st := (← look).subtyping
  if Subtyping.le st (.simple a) (.simple b) then return .simple a
  if Subtyping.le st (.simple b) (.simple a) then return .simple b
  let top := Subtyping.topOf st
  alter (·.warn ("constraints: warning: unifying over " ++ top ++ ": " ++ a
    ++ " is not compatible with " ++ b))
  return .simple top

/-- **The representative of two kinds.** -/
def representative (a b : Kind) : EStateM Fault σ Kind :=
  if b.rank < a.rank then pure a
  else if a.rank < b.rank then pure b
  else match a, b with
    | .effect c _ _, .effect d _ _ => pure (if d.length < c.length then a else b)
    | .stack s, .stack t => pure (if t.length < s.length then a else b)
    | .typeVar m, .typeVar n | .stackVar m, .stackVar n => pure (if m ≤ n then a else b)
    | .self, _ | .absent, _ => pure b
    | .simple m, .simple n => lowerType m n
    | _, _ => throw (.unsupported a b)

end Store

end StackEffect
