import StackEffect.Assoc
import StackEffect.Signature.Reader

/-!
# Dictionary — the words that are declared

A dictionary is a row of scopes, the innermost first.  A declaration in a scope hides those of the same
name in the scopes around it.  A word may be declared without an effect.
-/

namespace StackEffect

/-- Declared words and their effects. -/
abbrev Scope := Assoc (Option Effect)

/-- **A dictionary**: the innermost scope, and the scopes around it. -/
structure Dictionary where
  scope : Scope
  around : List Scope
  deriving Repr, Inhabited

namespace Dictionary

/-- The dictionary without words. -/
def empty : Dictionary := ⟨[], []⟩

/-- Opens a scope. -/
def enter (d : Dictionary) : Dictionary := ⟨[], d.scope :: d.around⟩

/-- Closes the innermost scope, unless it is the only one. -/
def leave? (d : Dictionary) : Option Dictionary :=
  match d.around with
  | [] => none
  | scope :: around => some ⟨scope, around⟩

/-- Declares a word in the innermost scope. -/
def declare (d : Dictionary) (name : String) (f : Option Effect) : Dictionary :=
  { d with scope := Assoc.put d.scope name f }

/-- Declares a word by its signature. -/
def declareSignature (d : Dictionary) (name signature : String) :
    Except SignatureError Dictionary :=
  (Effect.parse signature).map fun f => d.declare name (some f)

/-- Removes a word from the innermost scope. -/
def remove (d : Dictionary) (name : String) : Dictionary :=
  { d with scope := Assoc.drop d.scope name }

/-- **Looks a word up**, from the innermost scope outward. -/
def lookup (d : Dictionary) (name : String) : Option (Option Effect) :=
  (d.scope :: d.around).findSome? fun scope => Assoc.get? scope name

/-- The names of all words, in order. -/
def names (d : Dictionary) : List String :=
  ((d.scope :: d.around).flatMap Assoc.keys).eraseDups.mergeSort fun a b => decide (a ≤ b)

end Dictionary

end StackEffect
