import StackEffect.Constraint.Store

/-!
# Constraint/Lookup — finding the class that a class ended up in

    find i          i ⟶ j ⟶ … ⟶ r      leaves      i ⟶ r,  j ⟶ r,  …
    classOf n       finds the class of n, and registers n with it

To look something up is to change the store: whoever has followed links leaves shortcuts, so that the
next one has fewer of them to follow.  Only the views of `Constraint/Store` leave everything as it is.

Steps are written for anything that holds a store, a `Site`.  A store is one; others keep account of
what happens to the store they hold.
-/

namespace StackEffect

/-- **Where steps are taken**: something that holds a store. -/
class Site (σ : Type) where
  /-- The store that it holds. -/
  store : σ → Store
  /-- The store changes. -/
  change : (Store → Store) → σ → σ
  /-- What is done about a loop that has not ended when the turns it may take are used up. -/
  late : EStateM Fault σ Unit

instance : Site Store where
  store s := s
  change f s := f s
  late := pure ()

/-- A step that changes the store, or fails; the changes made up to a failure stay. -/
abbrev Pass := EStateM Fault Store

namespace Site

variable {σ : Type} [Site σ]

/-- The store as it is. -/
def look : EStateM Fault σ Store := return store (← get)

/-- Changes the store. -/
def alter (f : Store → Store) : EStateM Fault σ Unit := modify (change f)

/-- Follows links, at most so many, to a class that is its own parent. -/
def climb : Nat → Nat → EStateM Fault σ Nat
  | 0, id => do
    if (← look).parent id = id then return id
    late
    return id
  | turns + 1, id => do
    let up := (← look).parent id
    if up = id then return id
    climb turns up

/-- Links a class to its root, and so the classes on the way, at most so many. -/
def shorten (root : Nat) : Nat → Nat → EStateM Fault σ Unit
  | 0, id => do unless (← look).parent id = root do late
  | turns + 1, id => do
    let up := (← look).parent id
    if up = root then return ()
    alter (·.link id root)
    shorten root turns up

/-- **The class that a class ended up in.**  The links on the way are shortened. -/
def find (id : Nat) : EStateM Fault σ Nat := do
  let turns := (← look).parents.size
  let root ← climb turns id
  shorten root turns id
  return root

/-- **The class a name belongs to**, with which it is registered from then on. -/
def classOf (name : String) : EStateM Fault σ (Option Nat) := do
  match (← look).index[name]? with
  | none => return none
  | some id =>
    let root ← find id
    alter (·.settle name root)
    return some root

/-- Whether a kind is a member of the class that `id` ended up in. -/
def holds (id : Nat) (k : Kind) : EStateM Fault σ Bool := do
  let root ← find id
  return ((← look).kept root).contains k

/-- The member at a position of the class that `id` ended up in. -/
def memberAt? (id i : Nat) : EStateM Fault σ (Option Kind) := do
  let root ← find id
  return ((← look).kept root)[i]?

end Site

namespace Store

open Site

variable {σ : Type} [Site σ]

/-! ## Answers

They are those of the views; the links that were followed are shorter afterwards. -/

/-- The members of the class a name belongs to, unless there are none. -/
def findMembers (name : String) : EStateM Fault σ (Option (Array Kind)) := do
  match ← classOf name with
  | none => return none
  | some id =>
    let ks := (← look).kept id
    return if ks.isEmpty then none else some ks

/-- Whether two names belong to one class. -/
def findSame (a b : String) : EStateM Fault σ Bool := do
  let i ← classOf a
  let j ← classOf b
  return i.isSome && i == j

/-- The classes that were not absorbed, oldest first. -/
def findLive : EStateM Fault σ (List Nat) := do
  (List.range (← look).members.size).filterM fun id => return (← find id) == id

/-- The names that belong to a class. -/
def findNames (id : Nat) : EStateM Fault σ (List String) := do
  (← look).names.toList.filterM fun name => return (← classOf name) == some id

/-- The store as text. -/
def findText : EStateM Fault σ String := do
  let live ← findLive
  let s ← look
  return String.join <| live.filterMap fun id =>
    if (s.kept id).isEmpty then none else some (equationText (s.kept id) ++ "\n")

end Store

end StackEffect
