import StackEffect.Digraph
import StackEffect.Lattice.Basic

/-!
# Lattice/Validate — when a lattice is an order

A lattice is well declared if it has a top type, every alias leads to a declared type and so does
every supertype, and no type is its own supertype, directly or through others.
-/

namespace StackEffect

/-- What is wrong with a lattice. -/
inductive LatticeError where
  /-- The top type has no name. -/
  | noTop
  /-- An alias leads to no declared type. -/
  | undeclaredAlias (name target : String)
  /-- A supertype is not declared. -/
  | undeclaredSupertype (name super : String)
  /-- A type is its own supertype. -/
  | cycle (name : String)
  deriving DecidableEq, Repr, Inhabited

/-- The text of a lattice error. -/
def LatticeError.message : LatticeError → String
  | noTop => "Lattice has no top type"
  | undeclaredAlias name target =>
    "Alias " ++ name ++ " refers to undeclared type " ++ target
  | undeclaredSupertype name super =>
    "Type " ++ name ++ " has undeclared supertype " ++ super
  | cycle name => "Subtype cycle through " ++ name

namespace Lattice

/-- The declared types in order of their names; the top type comes last if it is not declared. -/
def typeNames (l : Lattice) : List String :=
  let declared := (Assoc.keys l.types).mergeSort (fun a b => decide (a ≤ b))
  if declared.contains l.top then declared else declared ++ [l.top]

/-- The position of the type that a name leads to. -/
def typeIndex? (l : Lattice) (name : String) : Option (Fin l.typeNames.length) :=
  l.typeNames.finIdxOf? (l.canonical name)

/-- The edges from the type at a position to its supertypes, or the first supertype that is not
declared. -/
def superEdges (l : Lattice) (v : Fin l.typeNames.length) :
    Except LatticeError (List (Fin l.typeNames.length × Fin l.typeNames.length)) :=
  let name := l.typeNames[v]
  (l.supertypes name).mapM fun super =>
    match l.typeIndex? super with
    | some w => .ok (v, w)
    | none => .error (.undeclaredSupertype name super)

/-- The graph of direct supertypes. -/
def superGraph (l : Lattice) : Except LatticeError (Digraph l.typeNames.length) := do
  let edges ← (List.finRange l.typeNames.length).mapM l.superEdges
  return Digraph.ofEdges _ edges.flatten

/-- **Checks a lattice.**  Of several faults it reports a missing top type before a bad alias, a bad
alias before an undeclared supertype, and that before a cycle. -/
def validate (l : Lattice) : Except LatticeError Unit := do
  if l.top = "" then throw .noTop
  if let some (name, target) := l.aliases.find? fun a => (l.typeIndex? a.2).isNone then
    throw (.undeclaredAlias name target)
  let g ← l.superGraph
  match g.components.find? g.isCyclic with
  | some (v :: _) => throw (.cycle l.typeNames[v])
  | _ => return ()

end Lattice

end StackEffect
