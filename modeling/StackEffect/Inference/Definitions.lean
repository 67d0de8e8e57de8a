import StackEffect.Inference.Body

/-!
# Inference/Definitions — groups of definitions

Definitions may refer to each other.  They are inferred in an order in which those that a definition
refers to come first; where references run in a circle, the definitions of the circle are inferred
together, in the order they are given, and those that are not inferred yet have an unknown effect.
Every definition that is inferred is declared for those that follow.
-/

namespace StackEffect

/-- What became of a definition: its effect and those of its terms, or why there is none. -/
structure Inferred where
  name : String
  outcome : Except InferError (Effect × List Effect)

namespace Inferred

/-- The text of an error, with the name of the definition. -/
def errorText (name : String) (e : InferError) : String := name ++ ": " ++ e.message

end Inferred

namespace Infer

/-- Infers a body, and answers a failure as a value, except that a broken word breaks off. -/
def attempt (d : Dictionary) (ts : Body) : Infer (Except InferError (Effect × List Effect)) :=
  fun s => match inferBody d ts s with
    | .ok r s => .ok (.ok r) s
    | .error (.brokenWord name) s => .error (.brokenWord name) s
    | .error e s => .ok (.error e) s

/-- Infers a definition, and declares it if it has an effect. -/
def definition (def_ : Definition) (d : Dictionary) : Infer (Inferred × Dictionary) := do
  let outcome ← attempt d def_.body
  modify fun s => { s with pending := s.pending.filter (· != def_.name) }
  match outcome with
  | .ok (f, effects) =>
    return (⟨def_.name, .ok (f, effects)⟩, d.declare def_.name (some f))
  | .error e =>
    modify (·.note fun _ => Inferred.errorText def_.name e)
    return (⟨def_.name, .error e⟩, d)

/-- Infers definitions one after another. -/
def definitionRow {ι : Type} (defs : ι → Definition) :
    List ι → Dictionary → Infer (List (ι × Inferred) × Dictionary)
  | [], d => return ([], d)
  | i :: is, d => do
    let (r, d) ← definition (defs i) d
    let (rs, d) ← definitionRow defs is d
    return ((i, r) :: rs, d)

/-- Infers the definitions of each component together, one component after another. -/
def definitionGroups {ι : Type} (defs : ι → Definition) :
    List (List ι) → Dictionary → Infer (List (ι × Inferred) × Dictionary)
  | [], d => return ([], d)
  | group :: groups, d => do
    modify fun s => { s with pending := group.map fun i => (defs i).name }
    let (rs, d) ← definitionRow defs group d
    let (rest, d) ← definitionGroups defs groups d
    return (rs ++ rest, d)

/-- Which definition refers to which; of several definitions of one name, the last is meant. -/
def referenceGraph (defs : Array Definition) : Digraph defs.size :=
  let position : Std.TreeMap String (Fin defs.size) :=
    (List.finRange defs.size).foldl (fun m i => m.insert defs[i].name i) ∅
  Digraph.ofEdges _ <| (List.finRange defs.size).flatMap fun i =>
    (Body.references defs[i].body).filterMap fun name => (position[name]?).map fun j => (i, j)

/-- **Infers a group of definitions** in a new scope, callees first.  Answers what became of each, in
the order they were inferred, and the scope in which those that have an effect are declared. -/
def definitions (defs : Array Definition) (d : Dictionary) :
    Infer (List (Fin defs.size × Inferred) × Dictionary) := do
  let groups := (referenceGraph defs).components.map fun c => c.mergeSort fun i j => decide (i ≤ j)
  let result ← definitionGroups (fun i => defs[i]) groups d.enter
  modify fun s => { s with pending := [] }
  return result

end Infer

end StackEffect
