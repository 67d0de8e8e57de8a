import StackEffect.Assoc
import StackEffect.Document.Sort

/-!
# Document/Fields — documents of a known shape

A reading takes a node for a text, a truth value, a list or a table.  Where there is nothing, a reading
answers nothing, and the place keeps what it has.

    base: &base { a: 1, b: 2 }
    more: { <<: *base, b: 3 }

The key `<<` adds the entries of other tables, unless their keys are there already.  A table has no two
entries of one key.  Of a large document, references may not make up too much.
-/

namespace StackEffect.Document

/-! ## References -/

/-- How many nodes were read: all of them, and those behind references. -/
structure Tally where
  nodes : Nat
  followed : Nat
  /-- The number of references around what is being read. -/
  depth : Nat
  deriving DecidableEq, Repr, Inhabited

/-- Where the share of references that is allowed begins to fall. -/
def tallyLow : Nat := 400000

/-- Where the share of references that is allowed ends to fall. -/
def tallyHigh : Nat := 4000000

/-- Whether references make up too much: more than 99 parts of 100, of a very large document 10 parts,
and something between them of a large one. -/
def Tally.exceeded (t : Tally) : Bool :=
  100 < t.followed && 1000 < t.nodes &&
    if t.nodes ≤ tallyLow then 99 * t.nodes < 100 * t.followed
    else if tallyHigh ≤ t.nodes then t.nodes < 10 * t.followed
    else
      let range := tallyHigh - tallyLow
      (99 * range - 89 * (t.nodes - tallyLow)) * t.nodes < 100 * range * t.followed

/-- A reading of a document. -/
abbrev Decode := StateT Tally (Except DocumentError)

namespace Decode

/-- Counts a node. -/
def visit : Decode Unit := do
  let t ← get
  let t := { t with
    nodes := t.nodes + 1, followed := if 0 < t.depth then t.followed + 1 else t.followed }
  if t.exceeded then throw .tooManyReferences
  set t

/-- Reads behind a reference. -/
def following {α : Type} (read : Decode α) : Decode α := do
  modify fun t => { t with depth := t.depth + 1 }
  let a ← read
  modify fun t => { t with depth := t.depth - 1 }
  return a

/-- Reads a document, which counts as a node itself. -/
def document {α : Type} (read : Decode α) : Except DocumentError α := do
  return (← read.run ⟨1, 0, 0⟩).1

end Decode

open Decode (visit following)

/-! ## Texts, truth values and lists -/

/-- The words for a truth value, apart from its own. -/
def truthWords : List (String × Bool) :=
  ["y", "Y", "yes", "Yes", "YES", "on", "On", "ON"].map (·, true) ++
    ["n", "N", "no", "No", "NO", "off", "Off", "OFF"].map (·, false)

namespace Node

/-- Reads a scalar, unless it stands for nothing. -/
def scalar? (wanted : String) (n : Node) : Decode (Option (ScalarSort × String)) := do
  visit
  match n with
  | .scalar s =>
    let (sort, text) ← s.content
    return if sort = .nothing then none else some (sort, text)
  | .reference _ target => following (scalar? wanted target)
  | .circular anchor => throw (.circular anchor)
  | .list _ | .table _ => throw (.wrongShape wanted)

/-- Reads a text, of whatever sort it is. -/
def text? (n : Node) : Decode (Option String) := do
  return (← n.scalar? "text").map (·.2)

/-- Reads a truth value. -/
def bool? (n : Node) : Decode (Option Bool) := do
  match ← n.scalar? "truth value" with
  | none => return none
  | some (.truth b, _) => return some b
  | some (.text, word) =>
    match truthWords.lookup word with
    | some b => return some b
    | none => throw (.wrongShape "truth value")
  | some _ => throw (.wrongShape "truth value")

/-- Reads a list of texts, without those of which there is nothing. -/
def texts? (n : Node) : Decode (Option (List String)) := do
  match n with
  | .list items =>
    visit
    return some ((← items.mapM text?).filterMap id)
  | .reference _ target =>
    visit
    following (texts? target)
  | n =>
    match ← n.scalar? "list" with
    | none => return some []
    | some _ => throw (.wrongShape "list")

/-! ## Tables -/

/-- Whether two keys count as one. -/
def sameKey : Node → Node → Bool
  | .scalar s, .scalar t => s.text == t.text
  | .list _, .list _ => true
  | .table _, .table _ => true
  | .reference a _, .reference b _ => a == b
  | .circular a, .circular b => a == b
  | _, _ => false

/-- Whether no two keys count as one. -/
def distinctKeys : List (Node × Node) → Bool
  | [] => true
  | (k, _) :: entries => entries.all (fun e => !sameKey k e.1) && distinctKeys entries

/-- Whether a key stands for the entries of other tables. -/
def isMerge : Node → Bool
  | .scalar s => s.text == "<<" && (s.tag == some "!!merge" || (s.plain && s.tag == none))
  | _ => false

/-- How a reading takes an entry in: whether it is one of another table, its key and its value. -/
abbrev TakeEntry (σ : Type) := σ → (merged : Bool) → (key : String) → (value : Node) → Decode σ

/-- What was read of a table, and the keys that other tables cannot add. -/
structure Merging (σ : Type) where
  result : σ
  keys : List String
  deriving Inhabited

/-- Reads the entries that a table itself has. -/
def readOwn {σ : Type} (take : TakeEntry σ) (merged : Bool) :
    List (Node × Node) → Merging σ → Decode (Merging σ)
  | [], m => return m
  | (k, v) :: entries, m => do
    if k.isMerge then readOwn take merged entries m
    else match ← k.text? with
      | none => readOwn take merged entries m
      | some key =>
        if merged && m.keys.contains key then readOwn take merged entries m
        else
          let result ← take m.result merged key v
          readOwn take merged entries ⟨result, if merged then key :: m.keys else m.keys⟩

/-- Reads the keys of a table that are texts. -/
def textKeys (entries : List (Node × Node)) : Decode (List String) := do
  let found ← entries.mapM fun (k, _) => do
    match ← k.scalar? "text" with
    | some (.text, key) => return some key
    | _ => return none
  return found.filterMap id

mutual
/-- Adds the entries of a table, or of several tables. -/
def merge {σ : Type} (take : TakeEntry σ) : Node → Merging σ → Decode (Merging σ)
  | .list items, m => mergeAll take items m
  | .table entries, m => do
    visit
    mergeTable take entries m
  | .reference _ (.table entries), m => do
    visit
    following do
      visit
      mergeTable take entries m
  | .circular anchor, _ => throw (.circular anchor)
  | _, _ => throw (.wrongShape "table")
termination_by n => (sizeOf n, 0)
/-- Adds the entries of several tables. -/
def mergeAll {σ : Type} (take : TakeEntry σ) : List Node → Merging σ → Decode (Merging σ)
  | [], m => return m
  | .list _ :: _, _ => throw (.wrongShape "table")
  | n :: ns, m => do mergeAll take ns (← merge take n m)
termination_by ns => (sizeOf ns, 0)
/-- Adds the entries of a table. -/
def mergeTable {σ : Type} (take : TakeEntry σ) (entries : List (Node × Node)) (m : Merging σ) :
    Decode (Merging σ) := do
  if !distinctKeys entries then throw .repeatedKey
  mergeInside take entries (← readOwn take true entries m)
termination_by (sizeOf entries, 1)
/-- Adds the entries that a table adds. -/
def mergeInside {σ : Type} (take : TakeEntry σ) :
    List (Node × Node) → Merging σ → Decode (Merging σ)
  | [], m => return m
  | (k, v) :: entries, m => if k.isMerge then merge take v m else mergeInside take entries m
termination_by entries => (sizeOf entries, 0)
end

/-- **Reads a table**: its own entries, and then those that it adds. -/
def table? {σ : Type} (init : σ) (take : TakeEntry σ) (n : Node) : Decode (Option σ) := do
  match n with
  | .table entries =>
    visit
    if !distinctKeys entries then throw .repeatedKey
    let own ← readOwn take false entries ⟨init, []⟩
    if entries.any (·.1.isMerge) then
      let all ← mergeInside take entries ⟨own.result, ← textKeys entries⟩
      return some all.result
    else return some own.result
  | .reference _ target =>
    visit
    following (table? init take target)
  | n =>
    match ← n.scalar? "table" with
    | none => return none
    | some _ => throw (.wrongShape "table")

/-- **Reads a table whose values have one shape.**  A value of which there is nothing is `missing`,
unless it would replace another one. -/
def tableOf {α : Type} (missing : α) (read : Node → Decode (Option α)) (n : Node) :
    Decode (Assoc α) := do
  let t ← n.table? [] fun t merged key value => do
    match ← read value with
    | some v => return Assoc.put t key v
    | none =>
      if merged && (Assoc.get? t key).isSome then return t else return Assoc.put t key missing
  return t.getD []

/-- **Reads a table with fields**, for each of which there is a reading that takes its value in.  What
has another name is passed over. -/
def fields {σ : Type} (readings : List (String × (σ → Node → Decode σ))) (init : σ) (n : Node) :
    Decode σ := do
  let r ← n.table? (init, ([] : List String)) fun (s, done) _ key value => do
    match readings.lookup key with
    | none => return (s, done)
    | some read =>
      if done.contains key then throw .repeatedKey
      return (← read s value, key :: done)
  return r.elim init (·.1)

end Node

end StackEffect.Document
