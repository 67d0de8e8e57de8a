import StackEffect.Constraint.Solve
import StackEffect.Fresh
import StackEffect.Kind.Canonical
import StackEffect.Kind.Closing
import StackEffect.Term.Basic

/-!
# Inference/Session — passes of inference

A session holds the constraints of one pass of inference, the counter of its fresh names, and what went
wrong.  A pass clears what the one before has left.  Within a pass, effects are composed one after
another: what the first one produces is what the next one consumes.
-/

namespace StackEffect

/-- Why no effect was inferred. -/
inductive InferError where
  /-- The constraints cannot be met. -/
  | constraint (fault : Fault)
  /-- A word is not declared. -/
  | unknownWord (name : String)
  /-- A term or an effect is missing, or a literal has no kind. -/
  | emptyTerm
  /-- A word is declared without an effect, which breaks a pass off. -/
  | brokenWord (name : String)
  deriving DecidableEq, Repr, Inhabited

/-- The text of an error. -/
def InferError.message : InferError → String
  | constraint fault => fault.message
  | unknownWord name => "Unknown word: " ++ name
  | emptyTerm => "Empty term"
  | brokenWord name => "Word without an effect: " ++ name

/-- **A session of inference.** -/
structure Session where
  /-- The constraints of the last pass. -/
  store : Store
  /-- The counter of fresh names. -/
  fresh : Fresh
  /-- Whether a pass has left something that the next one has to clear. -/
  used : Bool
  /-- The definitions that are being inferred; references to them are recursive. -/
  pending : List String
  /-- Why the last pass failed. -/
  error : Option InferError
  /-- The term at which the last pass failed. -/
  blamed : Option Term

/-- A step of inference, which may fail; what it changed up to then stays. -/
abbrev Infer := EStateM InferError Session

namespace Session

/-- A new session. -/
def start (subtyping : Option Subtyping) (lenient : Bool) (logging : Logging) : Session where
  store := Store.empty subtyping lenient logging
  fresh := .start
  used := false
  pending := []
  error := none
  blamed := none

/-- Clears what the last pass has left. -/
def clear (s : Session) : Session :=
  { s with store := s.store.reset, fresh := .start, used := false, error := none, blamed := none }

/-- Clears a session, if there is something to clear. -/
def reset (s : Session) : Session := if s.used then s.clear else s

/-- Begins a pass. -/
def begin (s : Session) : Session := { s.reset with used := true }

/-- Writes a line to the log, if everything is logged. -/
def note (s : Session) (line : Unit → String) : Session :=
  { s with store := s.store.note fun _ => "catinfer: " ++ line () }

/-- Takes note of why a pass failed. -/
def fail (s : Session) (e : InferError) : Session :=
  match e with
  | .brokenWord _ => s
  | e => { s with error := some e }

/-- The effect that a pass has found: resolved, closed, and in canonical form. -/
def finalize (s : Session) (f : Effect) : Effect := (s.store.resolveEffect f).close.generalize

end Session

namespace Infer

/-- A step on the constraints. -/
def onStore {α : Type} (p : Pass α) : Infer α := fun s =>
  match p s.store with
  | .ok a store => .ok a { s with store := store }
  | .error fault store => .error (.constraint fault) { s with store := store }

/-- Takes note of why a pass failed. -/
def recorded {α : Type} (body : Infer α) : Infer α := fun s =>
  match body s with
  | .ok a t => .ok a t
  | .error e t => .error e (t.fail e)

/-- The base name of the stack that an effect leaves alone. -/
def restName : String := "'R"

/-- A fresh stack variable. -/
def freshStack (base : String) : Infer Kind := fun s =>
  let (name, fresh) := s.fresh.name base
  .ok (.stackVar name) { s with fresh := fresh }

/-- An instance of an effect, with fresh variables. -/
def instantiate (f : Effect) : Infer Effect := fun s =>
  let (f, fresh) := s.fresh.instantiateEffect f
  .ok f { s with fresh := fresh }

/-- **Makes explicit that an effect leaves the rest of the stack alone**, where neither of its stacks
is open. -/
def pad (f : Effect) : Infer Effect := do
  if Stack.isOpen f.consumed || Stack.isOpen f.produced then return f
  let rest ← freshStack restName
  return ⟨f.consumed ++ [rest], f.produced ++ [rest], f.impure⟩

/-- The effect of doing nothing. -/
def identity : Infer Effect := do
  let rest ← freshStack restName
  return ⟨[rest], [rest], false⟩

/-- The effect of a function that is being inferred: nothing is known about it. -/
def recursive : Infer Effect := do
  let consumed ← freshStack restName
  let produced ← freshStack "'S"
  return ⟨[consumed], [produced], false⟩

/-- **The effect of `f` and then `g`**: what `f` produces is what `g` consumes. -/
def compose (f g : Effect) : Infer Effect := do
  onStore (Store.unifyStacks f.produced g.consumed)
  return ⟨f.consumed, g.produced, f.impure || g.impure⟩

/-- Solves the constraints of a pass, and answers the effect it has found. -/
def finish (f : Effect) : Infer Effect := do
  onStore Store.solve
  let result := (← get).finalize f
  modify (·.note fun _ => "inferred " ++ result.text)
  return result

/-- Composes an effect with those that follow. -/
def composeFrom (f : Effect) : List (Option Effect) → Infer Effect
  | [] => pure f
  | none :: _ => throw .emptyTerm
  | some g :: gs => do
    let g ← pad (← instantiate g)
    composeFrom (← compose f g) gs

/-- **The effect of a row of effects**, inferred in one pass. -/
def composeAll (fs : List (Option Effect)) : Infer Effect := do
  modify Session.begin
  recorded do finish (← composeFrom (← identity) fs)

/-- **The effect of two effects**, both of which have to be there. -/
def composeTwo (f g : Option Effect) : Infer Effect :=
  if f.isNone || g.isNone then throw .emptyTerm else composeAll [f, g]

end Infer

end StackEffect
