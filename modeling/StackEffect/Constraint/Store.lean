import Std.Data.TreeMap
import StackEffect.Constraint.Fault
import StackEffect.Subtyping

/-!
# Constraint/Store — classes of kinds that are to be equal

A class is a list of kinds, each of which has to equal all others, and names are registered with
classes.  A class may be absorbed by another, its parent from then on.  The links lead to the class it
ended up in (its root), whose members are the members of all of them.  The operations on the store
are in `Constraint/Lookup` and `Constraint/Unify`; here are the store, its views and the single steps
that the operations are made of.
-/

namespace StackEffect

/-- How much is written to the log. -/
inductive Logging where
  | silent
  | warnings
  | all
  deriving DecidableEq, Repr, Inhabited

/-- **A constraint store.** -/
structure Store where
  /-- The order of nominal types, if there is one. -/
  subtyping : Option Subtyping
  /-- Whether stacks of different sizes may be compared as far as the shorter one goes. -/
  lenient : Bool
  /-- How much is logged. -/
  logging : Logging
  /-- The members of each class, in the order they joined. -/
  members : Array (Array Kind)
  /-- For each class, the class that absorbed it, or one further on the way to its root.  A class that
  was not absorbed is its own parent. -/
  parents : Array Nat
  /-- The class each name was registered with, or one on the way to its root. -/
  index : Std.TreeMap String Nat
  /-- The registered names, in order of registration. -/
  names : Array String
  /-- What each name stands for, by the last solution. -/
  solution : Std.TreeMap String Kind
  /-- The depth at which constraints are nested. -/
  nesting : Nat
  /-- One more than the number of kinds, with all their parts, that were handed in: no class has
  more members. -/
  mass : Nat
  /-- The log, oldest line first. -/
  log : Array String

namespace Store

/-- The store without constraints. -/
def empty (subtyping : Option Subtyping) (lenient : Bool) (logging : Logging) : Store where
  subtyping := subtyping
  lenient := lenient
  logging := logging
  members := #[]
  parents := #[]
  index := ∅
  names := #[]
  solution := ∅
  nesting := 0
  mass := 1
  log := #[]

/-- Forgets all constraints and the solution; the settings and the log stay. -/
def reset (s : Store) : Store :=
  { empty s.subtyping s.lenient s.logging with log := s.log }

/-! ## Views -/

/-- The class that a class is linked to, or the class itself. -/
def parent (s : Store) (id : Nat) : Nat := s.parents.getD id id

/-- Follows links from class to class, at most so many. -/
def follow (parents : Array Nat) : Nat → Nat → Nat
  | 0, id => id
  | steps + 1, id =>
    let up := parents.getD id id
    if up = id then id else follow parents steps up

/-- The class that a class ended up in. -/
def root (s : Store) (id : Nat) : Nat := follow s.parents s.parents.size id

/-- The members that a class has kept. -/
def kept (s : Store) (id : Nat) : Array Kind := s.members.getD id #[]

/-- The members of the class that `id` ended up in. -/
def membersOf (s : Store) (id : Nat) : Array Kind := s.kept (s.root id)

/-- The class a name belongs to. -/
def classOf? (s : Store) (name : String) : Option Nat := (s.index[name]?).map s.root

/-- The members of the class a name belongs to, unless there are none. -/
def classMembers? (s : Store) (name : String) : Option (Array Kind) :=
  match s.classOf? name with
  | some id => let ks := s.membersOf id; if ks.isEmpty then none else some ks
  | none => none

/-- Whether two names belong to one class. -/
def sameClass (s : Store) (a b : String) : Bool :=
  match s.classOf? a, s.classOf? b with
  | some i, some j => i == j
  | _, _ => false

/-- The classes that were not absorbed, oldest first. -/
def liveClasses (s : Store) : List Nat :=
  (List.range s.members.size).filter fun id => s.root id == id

/-- The names that belong to a class. -/
def classNames (s : Store) (id : Nat) : List String :=
  s.names.toList.filter fun name => s.classOf? name == some id

/-- Members, as the equation they stand for. -/
def equationText (ks : Array Kind) : String := " = ".intercalate (ks.toList.map Kind.slotText)

/-- **The store as text**: a line for every class that has members. -/
def text (s : Store) : String :=
  String.join <| s.liveClasses.filterMap fun id =>
    let ks := s.membersOf id
    if ks.isEmpty then none else some (equationText ks ++ "\n")

/-! ## Single steps -/

/-- Writes a line to the log, if everything is logged. -/
def note (s : Store) (line : Unit → String) : Store :=
  if s.logging = .all then { s with log := s.log.push (line ()) } else s

/-- Writes a warning to the log. -/
def warn (s : Store) (line : String) : Store :=
  if s.logging = .silent then s else { s with log := s.log.push line }

/-- Registers a new name with a class. -/
def register (s : Store) (name : String) (id : Nat) : Store :=
  { s with index := s.index.insert name id, names := s.names.push name }

/-- Registers a new name with a new class of its own. -/
def registerNew (s : Store) (name : String) : Store :=
  let id := s.members.size
  { s with members := s.members.push #[], parents := s.parents.push id }.register name id

/-- Registers a name with another class. -/
def settle (s : Store) (name : String) (id : Nat) : Store :=
  { s with index := s.index.insert name id }

/-- Adds a member to a class. -/
def append (s : Store) (id : Nat) (k : Kind) : Store :=
  { s with members := s.members.modify id (·.push k) }

/-- Links a class to another one.  It keeps its members until they are taken. -/
def link (s : Store) (id up : Nat) : Store :=
  { s with parents := s.parents.setIfInBounds id up }

/-- Takes away the first member that a class has kept. -/
def takeFirst (s : Store) (id : Nat) : Store :=
  { s with members := s.members.modify id (·.drop 1) }

/-- The store one level of nesting deeper. -/
def deeper (s : Store) : Store := { s with nesting := s.nesting + 1 }

/-- The store one level of nesting up. -/
def shallower (s : Store) : Store := { s with nesting := s.nesting - 1 }

end Store

end StackEffect
