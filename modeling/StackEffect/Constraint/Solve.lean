import StackEffect.Constraint.Representative
import StackEffect.Digraph
import StackEffect.Kind.Vars

/-!
# Constraint/Solve — what each name stands for

Every class gets a representative.  A name stands for the representative of its class, in which the
names that are solved already are replaced: names are taken in an order in which those that a
representative mentions come first, as far as there is one.
-/

namespace StackEffect

namespace Kind

mutual
/-- **Replaces the variables that `σ` knows.**  A stack that replaces a stack variable becomes part
of the stack around it. -/
def resolve (σ : String → Option Kind) : Kind → Kind
  | typeVar name => (σ name).getD (typeVar name)
  | stackVar name => (σ name).getD (stackVar name)
  | stack s => stack (resolveSlots σ s)
  | effect c p i => effect (resolveSlots σ c) (resolveSlots σ p) i
  | k => k
/-- Replaces the variables in the slots of a stack. -/
def resolveSlots (σ : String → Option Kind) : List Kind → List Kind
  | [] => []
  | k :: s =>
    match k with
    | stackVar name =>
      match σ name with
      | some (stack t) => t ++ resolveSlots σ s
      | some u => u :: resolveSlots σ s
      | none => stackVar name :: resolveSlots σ s
    | k => resolve σ k :: resolveSlots σ s
end

end Kind

/-- Replaces the variables of an effect. -/
def Effect.resolve (σ : String → Option Kind) (f : Effect) : Effect :=
  ⟨Kind.resolveSlots σ f.consumed, Kind.resolveSlots σ f.produced, f.impure⟩

namespace Store

open Site

variable {σ : Type} [Site σ]

/-- Replaces the names that are solved. -/
def resolveKind (s : Store) (k : Kind) : Kind := k.resolve fun name => s.solution[name]?

/-- Replaces the names that are solved in an effect. -/
def resolveEffect (s : Store) (f : Effect) : Effect := f.resolve fun name => s.solution[name]?

/-- The representative of a class that was not absorbed.  A class without members has none, which is
a fault if it has names. -/
def represent (id : Nat) : EStateM Fault σ (Option Kind) := do
  let ks := (← look).kept id
  match ks.toList with
  | [] =>
    let names ← findNames id
    if names.isEmpty then return none
    throw (.emptyClass names)
  | members =>
    alter (·.note fun _ => "constraints: merging constraints: " ++ equationText ks)
    let k ← members.foldlM representative .absent
    if k = .absent then throw (.noRepresentative (← findNames id))
    alter (·.note fun _ => "constraints: unified constraint = " ++ k.slotText)
    return some k

/-- The representatives of all classes that were not absorbed. -/
def representatives : EStateM Fault σ (Std.TreeMap Nat Kind) := do
  (← findLive).foldlM (fun reps id => do
    match ← represent id with
    | some k => return reps.insert id k
    | none => return reps) ∅

/-- The names, each with the representative of its class. -/
def nameKinds (reps : Std.TreeMap Nat Kind) : EStateM Fault σ (List (String × Kind)) := do
  (← look).names.toList.mapM fun name => do
    match (← classOf name).bind (reps[·]?) with
    | some k => return (name, k)
    | none => throw (.missingRepresentative name)

/-- Which name's representative mentions which name. -/
def mentionGraph (kinds : Array (String × Kind)) : Digraph kinds.size :=
  let position : Std.TreeMap String (Fin kinds.size) :=
    (List.finRange kinds.size).foldl (fun m i => m.insert kinds[i].1 i) ∅
  Digraph.ofEdges _ <| (List.finRange kinds.size).flatMap fun i =>
    kinds[i].2.vars.filterMap fun v => (position[v.name]?).map fun j => (i, j)

/-- **Solves the constraints**: finds out what each name stands for. -/
def solve : EStateM Fault σ Unit := do
  alter fun s => { s with solution := ∅ }
  let kinds := (← nameKinds (← representatives)).toArray
  (mentionGraph kinds).dependencyOrder.forM fun i =>
    alter fun s =>
      { s with solution := s.solution.insert kinds[i].1 (s.resolveKind kinds[i].2) }

end Store

end StackEffect
