import StackEffect.Assoc

/-!
# Lattice/Basic — nominal types with aliases and supertypes

A lattice names its top type, gives names to other names (aliases), and declares types with their
direct supertypes.  Nothing is checked here: aliases may run in circles and supertypes may be
undeclared (`Lattice/Validate`).  `Lattice.isSubtypeOf` searches the supertypes, upward from the name
that is asked about.
-/

namespace StackEffect

/-- Nominal types: a top type, aliases, and for each declared type its direct supertypes. -/
structure Lattice where
  top : String
  aliases : Assoc String
  types : Assoc (List String)
  deriving Repr, Inhabited

namespace Lattice

/-- The lattice that declares nothing. -/
def empty (top : String) : Lattice := ⟨top, [], []⟩

/-- The direct supertypes declared for a name. -/
def supertypes (l : Lattice) (name : String) : List String := (Assoc.get? l.types name).getD []

/-- Declares a type, adding to the supertypes it already has. -/
def declare (l : Lattice) (name : String) (supers : List String) : Lattice :=
  let merged := supers.foldl (fun known p => if known.contains p then known else known ++ [p])
    (l.supertypes name)
  { l with types := Assoc.put l.types name merged }

/-- Makes `name` another name for `target`, whatever it stood for before. -/
def addAlias (l : Lattice) (name target : String) : Lattice :=
  { l with aliases := Assoc.put l.aliases name target }

/-- Follows aliases from a name for at most so many steps. -/
def chase (l : Lattice) : Nat → String → String
  | 0, name => name
  | steps + 1, name =>
    match Assoc.get? l.aliases name with
    | none => name
    | some target => l.chase steps target

/-- **The canonical name**: where the aliases lead.  One step more than there are aliases reaches the
end of every chain that has one. -/
def canonical (l : Lattice) (name : String) : String := l.chase (l.aliases.length + 1) name

/-- Searches upward for `goal` from the names in `todo`, past those `seen`.  Every step takes one name
off `todo`, and the supertypes of a name are put there at most once, so as many steps as there are
declared supertypes are enough. -/
def reaches (l : Lattice) (goal : String) : Nat → List String → List String → Bool
  | 0, _, _ => false
  | _ + 1, _, [] => false
  | steps + 1, seen, next :: todo =>
    let name := l.canonical next
    if name = goal then true
    else if seen.contains name then l.reaches goal steps seen todo
    else l.reaches goal steps (name :: seen) (l.supertypes name ++ todo)

/-- The number of declared supertypes. -/
def edgeCount (l : Lattice) : Nat := (l.types.flatMap Prod.snd).length

/-- **Subtyping of names**: `sub` is `super` up to aliases, or `super` is the top type, or `super` is
found among the supertypes of `sub` and theirs. -/
def isSubtypeOf (l : Lattice) (sub super : String) : Bool :=
  let sub := l.canonical sub
  let super := l.canonical super
  sub == super || super == l.top ||
    l.reaches super (l.edgeCount + 1) [sub] (l.supertypes sub)

end Lattice

end StackEffect
