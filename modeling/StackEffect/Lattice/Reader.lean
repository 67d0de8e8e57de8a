import StackEffect.Document.Fields
import StackEffect.Document.Reader
import StackEffect.Lattice.Validate

/-!
# Lattice/Reader — lattices from documents

    top: any
    aliases: { var: any }
    types: { int: [number], number: [any] }

A lattice that is read is also checked.  `Lattice.default` is the lattice that is used where none is
given.
-/

namespace StackEffect

/-- Why a text is no lattice. -/
inductive LatticeReadError where
  /-- The text is no document of the right shape. -/
  | invalid (e : DocumentError)
  /-- There is no document. -/
  | noDocument
  /-- The lattice is not well declared. -/
  | rejected (e : LatticeError)
  deriving DecidableEq, Repr, Inhabited

/-- The text of an error. -/
def LatticeReadError.message : LatticeReadError → String
  | invalid e => "Invalid lattice: " ++ e.message
  | noDocument => "Invalid lattice: EOF"
  | rejected e => e.message

namespace Lattice

/-- The name of the top type where none is given. -/
def defaultTop : String := "any"

/-- What a document says of a lattice. -/
structure Description where
  top : String
  aliases : Assoc String
  types : Assoc (List String)
  deriving Repr, Inhabited

/-- Reads what a document says of a lattice. -/
def Description.read (n : Document.Node) : Document.Decode Description :=
  n.fields
    [("top", fun d n => do return { d with top := (← n.text?).getD d.top }),
      ("aliases", fun d n => do return { d with aliases := ← n.tableOf "" Document.Node.text? }),
      ("types", fun d n => do return { d with types := ← n.tableOf [] Document.Node.texts? })]
    ⟨"", [], []⟩

/-- The lattice that a document describes, unchecked. -/
def ofNode (n : Document.Node) : Except DocumentError Lattice := do
  let d ← Document.Decode.document (Description.read n)
  let bare := empty (if d.top = "" then defaultTop else d.top)
  let aliased := d.aliases.foldl (fun l a => l.addAlias a.1 a.2) bare
  return d.types.foldl (fun l t => l.declare t.1 t.2) aliased

/-- Checks the lattice that a document describes. -/
def checked (n : Document.Node) : Except LatticeReadError Lattice :=
  match ofNode n with
  | .error e => .error (.invalid e)
  | .ok l =>
    match l.validate with
    | .error e => .error (.rejected e)
    | .ok () => .ok l

/-- **Reads a lattice**; without a document, it declares nothing. -/
def parse (src : String) : Except LatticeReadError Lattice :=
  match Document.parse src with
  | .error e => .error (.invalid e)
  | .ok n => checked (n.getD .nothing)

/-- **Loads a lattice**, for which there has to be a document. -/
def load (src : String) : Except LatticeReadError Lattice :=
  match Document.parse src with
  | .error e => .error (.invalid e)
  | .ok none => .error .noDocument
  | .ok (some n) => checked n

/-- **The default lattice.** -/
def default : Lattice :=
  [("number", "any"), ("int", "number"), ("float", "number"), ("byte", "int"), ("bit", "byte"),
    ("bool", "any"), ("char", "any"), ("string", "any"), ("list", "any"), ("hash_list", "list"),
    ("function", "any"), ("type", "any"), ("stream", "any"), ("istream", "stream"),
    ("ostream", "stream"), ("bytes", "any"), ("byte_block", "bytes")].foldl
    (fun l t => l.declare t.1 [t.2]) ((empty defaultTop).addAlias "var" "any")

end Lattice

end StackEffect
