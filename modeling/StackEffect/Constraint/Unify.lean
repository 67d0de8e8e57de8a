import StackEffect.Constraint.Lookup

/-!
# Constraint/Unify — making kinds equal

    constrain 'a k        the variable 'a equals k
    unifyStacks s t       two stacks are equal, slot by slot from the top
    unifyEffects f g      two effects consume and produce equal stacks
    join id k             k is a member of a class; it is unified with the members it meets there
    merge src dst         one class absorbs another, whose members join it one by one

Each of these may bring about others.  `constrain`, `join` and `unifyStacks` count as one level of
nesting; their first argument after the width is the number of levels that are left, and the call
that finds none left is refused.  **A refused call leaves the store's nesting one higher than it
found it; all others leave it as it was.**
-/

namespace StackEffect

namespace Unify

open Site

variable {σ α : Type} [Site σ]

/-- Performs `body` one level deeper. -/
def nested (body : EStateM Fault σ α) : EStateM Fault σ α := fun s =>
  match body (change Store.deeper s) with
  | .ok a t => .ok a (change Store.shallower t)
  | .error e t => .error e (change Store.shallower t)

/-- Refuses a call because it is nested too deep. -/
def refuse : EStateM Fault σ α := fun s => .error .tooDeep (change Store.deeper s)

/-- Fails because two kinds cannot be equal. -/
def clash (left right : Kind) (reason : String) : EStateM Fault σ α :=
  throw (.mismatch ⟨left, right, reason⟩)

/-- **Two slots of which one is nominal are compatible** if one is a subtype of the other; a variable
is compatible with everything, and other kinds are not compared. -/
def compatible (st : Option Subtyping) (k l : Kind) : Bool :=
  !((k.isSimple && !l.isVar) || (l.isSimple && !k.isVar)) ||
    Subtyping.le st k l || Subtyping.le st l k

/-- Two effects are equal if what they consume is, and what they produce.  Other kinds are left
alone. -/
def unifyEffects (equate : Stack → Stack → EStateM Fault σ Unit) :
    Kind → Kind → EStateM Fault σ Unit
  | .effect c p _, .effect d q _ => do
    equate c d
    equate p q
  | _, _ => pure ()

/-- A slot that is a variable takes the slot it faces. -/
def bindSlot (constrain : String → Kind → EStateM Fault σ Unit) (k l : Kind) : EStateM Fault σ Unit :=
  match k with
  | .typeVar a => constrain a l
  | _ => pure ()

/-- Walks down two stacks, the rests of `s` and `t`.  A stack variable takes all that is left on the
other side.  Where one stack ends, the other one may hold no more than a stack variable, which is then
empty, unless sizes do not matter. -/
def walk (constrain : String → Kind → EStateM Fault σ Unit)
    (effects : Kind → Kind → EStateM Fault σ Unit) (s t : Stack) :
    Stack → Stack → EStateM Fault σ Unit
  | .stackVar a :: r, .stackVar b :: r' => do
    constrain a (.stack (.stackVar b :: r'))
    constrain b (.stack (.stackVar a :: r))
  | .stackVar a :: _, l :: r' => constrain a (.stack (l :: r'))
  | k :: r, .stackVar b :: _ => constrain b (.stack (k :: r))
  | k :: r, l :: r' => do
    bindSlot constrain k l
    bindSlot constrain l k
    effects k l
    if compatible (← look).subtyping k l then walk constrain effects s t r r'
    else clash k l Mismatch.incompatible
  | [], [] => pure ()
  | [.stackVar a], [] | [], [.stackVar a] => do
    unless (← look).lenient do constrain a (.stack [])
  | _, _ => do
    unless (← look).lenient do clash (.stack s) (.stack t) Mismatch.size

/-- What happens when two members meet: effects are unified with effects, and stacks with stacks. -/
def meet (equate : Stack → Stack → EStateM Fault σ Unit) : Kind → Kind → EStateM Fault σ Unit
  | .effect c p i => unifyEffects equate (.effect c p i)
  | .stack s => fun | .stack t => equate s t | _ => pure ()
  | _ => fun _ => pure ()

/-- Meets the members of a class in turn, those included that join it meanwhile.  The width bounds
the number of members. -/
def sweep (id : Nat) (meet : Kind → EStateM Fault σ Unit) : Nat → Nat → EStateM Fault σ Unit
  | 0, i => do
    match ← memberAt? id i with
    | none => pure ()
    | some _ => late
  | width + 1, i => do
    match ← memberAt? id i with
    | none => pure ()
    | some member =>
      meet member
      sweep id meet width (i + 1)

/-- Effects and stacks meet the members of a class before they join it. -/
def meetAll (equate : Stack → Stack → EStateM Fault σ Unit) (width id : Nat) (k : Kind) :
    EStateM Fault σ Unit :=
  match k with
  | .effect .. | .stack _ => sweep id (meet equate k) width 0
  | _ => pure ()

/-- Takes the members that an absorbed class has kept, one by one. -/
def drain (src : Nat) (join : Kind → EStateM Fault σ Unit) : Nat → EStateM Fault σ Unit
  | 0 => do
    match ((← look).kept src)[0]? with
    | none => pure ()
    | some _ => late
  | turns + 1 => do
    match ((← look).kept src)[0]? with
    | none => pure ()
    | some member =>
      alter (·.takeFirst src)
      join member
      drain src join turns

/-- Lets the class of `dst` absorb the class of `src`, whose members join it one by one. -/
def merge (join : Nat → Kind → EStateM Fault σ Unit) (src dst : Nat) : EStateM Fault σ Unit := do
  let src ← find src
  let dst ← find dst
  if src = dst then return ()
  let moved := (← look).kept src
  let kept := (← look).kept dst
  alter fun s => (s.note fun _ =>
    "constraints: merge " ++ Store.equationText moved ++ " into " ++ Store.equationText kept).link
      src dst
  drain src (join dst) moved.size

/-- The class of a name, which is registered with a new class if it was not before. -/
def classFor (name : String) : EStateM Fault σ Nat := do
  match ← classOf name with
  | some id => return id
  | none =>
    let id := (← look).members.size
    alter (·.registerNew name)
    return id

/-- Merges the class of a variable with another class.  A variable that has none is registered with
that class, if it is a member. -/
def bringClass (join : Nat → Kind → EStateM Fault σ Unit) (isMember : Bool) (id : Nat) (k : Kind) :
    EStateM Fault σ Unit :=
  match k.varName? with
  | none => pure ()
  | some name => do
    match ← classOf name with
    | some other => merge join other id
    | none => if isMember then alter (·.register name id)

mutual
/-- The variable `name` equals `k`.  A stack of one slot is that slot. -/
def constrain (width : Nat) : Nat → String → Kind → EStateM Fault σ Unit
  | 0, _, _ => refuse
  | room + 1, name, k => nested do
    if k.varName? = some name then return ()
    match k with
    | .stack [slot] => constrain width room name slot
    | k =>
      let id ← classFor name
      bringClass (join width room) false id k
      join width room id k
/-- `k` becomes a member of the class that `id` ended up in, and is unified with the members it meets
there.  A variable that joins brings along the class it belongs to. -/
def join (width : Nat) : Nat → Nat → Kind → EStateM Fault σ Unit
  | 0, _, _ => refuse
  | room + 1, id, k => nested do
    if ← holds id k then return ()
    meetAll (unifyStacks width room) width id k
    let id ← find id
    if ← holds id k then return ()
    alter (·.append id k)
    bringClass (join width room) true id k
/-- Two stacks are equal. -/
def unifyStacks (width : Nat) : Nat → Stack → Stack → EStateM Fault σ Unit
  | 0, _, _ => refuse
  | room + 1, s, t =>
    nested (walk (constrain width room) (unifyEffects (unifyStacks width room)) s t s t)
end

end Unify

namespace Kind

mutual
/-- The number of kinds that a kind is made of, itself included: its slots, the lower parts of its
stacks, and theirs. -/
def weight : Kind → Nat
  | stack s => slotsWeight s
  | effect c p _ => 1 + slotsWeight c + slotsWeight p
  | _ => 1
/-- The same for a stack. -/
def slotsWeight : List Kind → Nat
  | [] => 1
  | k :: s => 1 + weight k + slotsWeight s
end

end Kind

namespace Store

open Site

variable {σ : Type} [Site σ]

/-- The levels of nesting that are left. -/
def room (s : Store) : Nat := nestingLimit - s.nesting

/-- Takes note of what is handed in. -/
def handIn (weight : Nat) : EStateM Fault σ Unit :=
  alter fun s => { s with mass := s.mass + weight }

/-- **The variable `name` equals `k`.** -/
def constrain (name : String) (k : Kind) : EStateM Fault σ Unit := do
  handIn k.weight
  let s ← look
  Unify.constrain s.mass s.room name k

/-- **Two stacks are equal.** -/
def unifyStacks (s t : Stack) : EStateM Fault σ Unit := do
  handIn (Kind.slotsWeight s + Kind.slotsWeight t)
  let store ← look
  Unify.unifyStacks store.mass store.room s t

/-- **Two effects are equal.**  Kinds other than effects are left alone. -/
def unifyEffects (f g : Kind) : EStateM Fault σ Unit := do
  handIn (f.weight + g.weight)
  let s ← look
  Unify.unifyEffects (Unify.unifyStacks s.mass s.room) f g

end Store

end StackEffect
