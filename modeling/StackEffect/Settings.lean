import StackEffect.Dictionary
import StackEffect.Document.Fields
import StackEffect.Document.Reader
import StackEffect.Term.Reader

/-!
# Settings — what the command works on

    lattice: types.yaml
    lenient_arity: false
    verbose: false
    words: { dup: "('a -> 'a 'a)" }
    definitions: { sq: dup mul }

All fields may be missing.  Words and definitions are taken in the order of their names.
-/

namespace StackEffect

/-- **The settings of a run.** -/
structure Settings where
  /-- Where the lattice is; empty for the default lattice. -/
  lattice : String
  lenient : Bool
  verbose : Bool
  /-- The signature of each word, in the order of the names. -/
  words : Assoc String
  /-- The body of each definition, in the order of the names. -/
  definitions : Assoc String
  deriving Repr, Inhabited

namespace Settings

/-- Entries in the order of their keys. -/
def sorted (t : Assoc String) : Assoc String := t.mergeSort fun a b => decide (a.1 ≤ b.1)

/-- The settings of a document without fields. -/
def none : Settings := ⟨"", false, false, [], []⟩

/-- Reads a table of texts, in the order of the keys. -/
def texts (n : Document.Node) : Document.Decode (Assoc String) := do
  return sorted (← n.tableOf "" Document.Node.text?)

/-- Reads the fields of settings. -/
def read (n : Document.Node) : Document.Decode Settings :=
  n.fields
    [("lattice", fun s n => do return { s with lattice := (← n.text?).getD s.lattice }),
      ("lenient_arity", fun s n => do return { s with lenient := (← n.bool?).getD s.lenient }),
      ("verbose", fun s n => do return { s with verbose := (← n.bool?).getD s.verbose }),
      ("words", fun s n => do return { s with words := ← texts n }),
      ("definitions", fun s n => do return { s with definitions := ← texts n })]
    none

/-- The settings that a document describes. -/
def ofNode (n : Document.Node) : Except DocumentError Settings := Document.Decode.document (read n)

/-- **Reads settings**; without a document, all fields are missing. -/
def parse (src : String) : Except DocumentError Settings := do
  ofNode ((← Document.parse src).getD .nothing)

/-- **The dictionary of the words** that have a signature, and the errors of the others. -/
def dictionary (s : Settings) : Dictionary × Assoc SignatureError :=
  s.words.foldl
    (fun (d, errors) (name, signature) =>
      match d.declareSignature name signature with
      | .ok d => (d, errors)
      | .error e => (d, Assoc.put errors name e))
    (.empty, [])

/-- A definition whose body cannot be read. -/
structure DefinitionError where
  name : String
  error : BodyError
  deriving DecidableEq, Repr, Inhabited

/-- The text of an error, with the name of the definition. -/
def DefinitionError.message (e : DefinitionError) : String := e.name ++ ": " ++ e.error.message

/-- **The definitions**, or the first one that cannot be read. -/
def readDefinitions (s : Settings) : Except DefinitionError (List Definition) :=
  s.definitions.mapM fun (name, body) =>
    match Definition.parse name body with
    | .ok d => .ok d
    | .error e => .error ⟨name, e⟩

end Settings

end StackEffect
