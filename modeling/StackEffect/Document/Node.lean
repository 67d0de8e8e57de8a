/-!
# Document/Node — what documents are made of

A document is a scalar, a list or a table.  A node may carry an anchor, by which later nodes refer to
it.
-/

namespace StackEffect

/-- Why a text is no document, or not one of the right shape. -/
inductive DocumentError where
  /-- A character that documents may not hold. -/
  | controlCharacter
  /-- Quotes that are not closed. -/
  | unclosedQuotes
  /-- A backslash before something that it does not go with. -/
  | unknownEscape
  /-- A tab where blanks have to indent. -/
  | tabIndent
  /-- A character that nothing begins with. -/
  | badStart
  /-- The first line of a scalar by lines says something else than how to read it. -/
  | badHeader
  /-- An anchor or a tag that is not written as one. -/
  | badProperty
  /-- A directive that is unknown, or not written as one. -/
  | badDirective
  /-- An item, a key or a value where none may begin. -/
  | misplaced
  /-- A key without a colon. -/
  | missingColon
  /-- Too many brackets or indentations in each other. -/
  | tooDeep
  /-- Something else than what has to follow. -/
  | unexpected
  /-- A reference to an anchor that does not occur before it. -/
  | unknownAnchor (name : String)
  /-- A tag whose handle is not declared. -/
  | undefinedHandle (handle : String)
  /-- Two entries of a table have one key. -/
  | repeatedKey
  /-- A node is part of itself. -/
  | circular (anchor : String)
  /-- References make up too much of a document. -/
  | tooManyReferences
  /-- A node of another shape than is wanted. -/
  | wrongShape (wanted : String)
  deriving DecidableEq, Repr, Inhabited

/-- The text of an error. -/
def DocumentError.message : DocumentError → String
  | controlCharacter => "yaml: control characters are not allowed"
  | unclosedQuotes => "yaml: quotes are not closed"
  | unknownEscape => "yaml: unknown escape"
  | tabIndent => "yaml: a tab may not indent"
  | badStart => "yaml: nothing begins with this character"
  | badHeader => "yaml: expected the end of the line"
  | badProperty => "yaml: this is no anchor or tag"
  | badDirective => "yaml: this is no directive"
  | misplaced => "yaml: no item or entry may begin here"
  | missingColon => "yaml: expected a colon after the key"
  | tooDeep => "yaml: nested too deeply"
  | unexpected => "yaml: expected something else"
  | unknownAnchor name => "yaml: the anchor " ++ name ++ " is unknown"
  | undefinedHandle handle => "yaml: the handle " ++ handle ++ " is not declared"
  | repeatedKey => "yaml: a key occurs twice"
  | circular anchor => "yaml: the anchor " ++ anchor ++ " contains itself"
  | tooManyReferences => "yaml: too many references"
  | wrongShape wanted => "yaml: expected a " ++ wanted

namespace Document

/-- A scalar: its text, whether it is written without quotes, and its tag. -/
structure Scalar where
  text : String
  plain : Bool
  tag : Option String
  deriving DecidableEq, Repr, Inhabited

/-- A node of a document. -/
inductive Node where
  | scalar (s : Scalar)
  | list (items : List Node)
  | table (entries : List (Node × Node))
  /-- A reference to an anchor, and the node that carries it. -/
  | reference (anchor : String) (target : Node)
  /-- A reference to an anchor from inside the node that carries it. -/
  | circular (anchor : String)
  deriving Repr, Inhabited

/-- The node that stands for nothing. -/
def Node.nothing : Node := .scalar ⟨"", true, none⟩

end Document

end StackEffect
