import StackEffect.Dictionary
import StackEffect.Inference.Session

/-!
# Inference/Body — the effects of function bodies

A body's effect is that of its terms, composed from left to right.  A word has an instance of its
declared effect; a literal pushes its kind; a quotation pushes the effect of its body.  Every term is
annotated with its own effect, once the whole body is inferred.
-/

namespace StackEffect

namespace Infer

/-- The effect of pushing a kind. -/
def pushes (k : Kind) : Effect := ⟨[], [k], false⟩

/-- Fails at a term. -/
def blame {α : Type} (t : Term) (e : InferError) : Infer α := do
  modify fun s => { s with blamed := some t }
  throw e

/-- The effect of a word: an instance of its declared effect, or an unknown one if it is being
inferred. -/
def word (d : Dictionary) (name : String) : Infer Effect := do
  if (← get).pending.contains name then recursive
  else match d.lookup name with
    | none => blame (.word name) (.unknownWord name)
    | some none => throw (.brokenWord name)
    | some (some f) => instantiate f

/-- Composes an effect with that of a term, which is to blame if that fails. -/
def composeTerm (t : Term) (acc f : Effect) : Infer Effect := do
  let f ← pad f
  fun s => match compose acc f s with
    | .ok g s => .ok g s
    | .error e s => .error e { s with blamed := some t }

mutual
/-- The effect of a term, and the effects of all terms in the order they are walked. -/
def term (d : Dictionary) : Term → Infer (Effect × List Effect)
  | .word name => do
    let f ← word d name
    return (f, [f])
  | .literal text kind =>
    if kind = .absent then blame (.literal text kind) .emptyTerm
    else return (pushes kind, [pushes kind])
  | .quotation ts => do
    let (f, inner) ← body d (← identity) ts
    let pending := (← get).pending
    let pushed := if Body.refersTo ts pending then pushes .self else pushes f.kind
    return (pushed, pushed :: inner)
  | .missing => do
    modify fun s => { s with blamed := none }
    throw .emptyTerm
/-- The effect `acc` and then that of a body, and the effects of all its terms. -/
def body (d : Dictionary) (acc : Effect) : List Term → Infer (Effect × List Effect)
  | [] => return (acc, [])
  | t :: ts => do
    let (f, effects) ← term d t
    let acc ← composeTerm t acc f
    let (result, rest) ← body d acc ts
    return (result, effects ++ rest)
end

/-- **The effect of a function body**, inferred in one pass, and the effects of all its terms. -/
def inferBody (d : Dictionary) (ts : Body) : Infer (Effect × List Effect) := do
  modify fun s => s.begin.note fun _ => "infer " ++ Body.text ts
  let (f, effects) ← recorded do
    let (f, effects) ← body d (← identity) ts
    return (← finish f, effects)
  let s ← get
  return (f, effects.map s.finalize)

end Infer

/-- A body and the effects its terms are annotated with, in the order they are walked. -/
structure AnnotatedBody where
  body : Body
  effects : List (Option Effect)
  deriving Repr, Inhabited

namespace AnnotatedBody

/-- A body without annotations. -/
def plain (body : Body) : AnnotatedBody := ⟨body, (Term.walkBody body).map fun _ => none⟩

/-- **Infers and annotates a body.**  A failure changes no annotation. -/
def infer (d : Dictionary) (a : AnnotatedBody) (s : Session) :
    Except InferError Effect × AnnotatedBody × Session :=
  match Infer.inferBody d a.body s with
  | .ok (f, effects) s => (.ok f, { a with effects := effects.map some }, s)
  | .error e s => (.error e, a, s)

end AnnotatedBody

end StackEffect
