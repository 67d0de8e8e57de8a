import StackEffect.Kind.Basic

/-!
# Term/Basic — the terms of function bodies

    term ::= word | literal | [ term … ]

A body is a list of terms, which work on the stack from left to right.  A quotation pushes the function
that its body is.  The terms of a body are walked in the order they are written, a quotation before
what is in it (`Term.walk`).
-/

namespace StackEffect

/-- A term of a function body. -/
inductive Term where
  /-- A function by its name. -/
  | word (name : String)
  /-- A value: how it is written, and its kind. -/
  | literal (text : String) (kind : Kind)
  /-- A quoted function. -/
  | quotation (body : List Term)
  /-- A gap where a term should be. -/
  | missing
  deriving Repr, Inhabited

/-- A function body. -/
abbrev Body := List Term

/-- A named function body. -/
structure Definition where
  name : String
  body : Body
  deriving Repr, Inhabited

namespace Term

/-- The name of the sort a term belongs to. -/
def sortName : Term → String
  | word _ => "Word"
  | literal .. => "Literal"
  | quotation _ => "Quotation"
  | missing => "nil"

mutual
/-- A term and all terms in it. -/
def walk : Term → List Term
  | quotation body => quotation body :: walkBody body
  | t => [t]
/-- The terms of a body and all terms in them. -/
def walkBody : List Term → List Term
  | [] => []
  | t :: ts => walk t ++ walkBody ts
end

/-- The name of a word. -/
def wordName? : Term → Option String
  | word name => some name
  | _ => none

mutual
/-- **A term as it is written.**  A gap leaves no trace. -/
def text : Term → String
  | word name => name
  | literal text _ => text
  | quotation body => "[" ++ " ".intercalate (texts body) ++ "]"
  | missing => ""
/-- The terms of a body, as they are written. -/
def texts : List Term → List String
  | [] => []
  | t :: ts => text t :: texts ts
end

end Term

namespace Body

/-- **A body as it is written**, with a blank between terms. -/
def text (body : Body) : String := " ".intercalate (Term.texts body)

/-- **The words a body refers to**, at any depth, in order of first appearance. -/
def references (body : Body) : List String :=
  ((Term.walkBody body).filterMap Term.wordName?).eraseDups

/-- Whether a body refers to one of the names. -/
def refersTo (body : Body) (names : List String) : Bool :=
  (Term.walkBody body).any fun t => t.wordName?.any names.contains

end Body

/-- A definition as it is written. -/
def Definition.text (d : Definition) : String :=
  "define " ++ d.name ++ " \x7b " ++ Body.text d.body ++ (if d.body.isEmpty then "" else " ") ++ "\x7d"

end StackEffect
