import StackEffect.Text.Blank
import StackEffect.Text.Identifier
import StackEffect.Text.Quoted

/-!
# Signature/Token — the tokens of a signature

    ( )  ->  ~>  =   'name   name

White space separates tokens.  Every other character belongs to exactly one token, and one that
begins none is a token by itself (`Symbol.illegal`), so that splitting a signature never fails.
Positions count characters.
-/

namespace StackEffect

/-- What a token is. -/
inductive Symbol where
  | lparen
  | rparen
  | arrow
  | sideArrow
  | equals
  /-- A variable; the apostrophe is part of the name. -/
  | var (name : String)
  | ident (name : String)
  /-- A character that begins no token. -/
  | illegal (c : Char)
  deriving DecidableEq, Repr, Inhabited

/-- A symbol and its position. -/
structure Token where
  pos : Nat
  symbol : Symbol
  deriving DecidableEq, Repr, Inhabited

/-- A signature's tokens, and the position where it ends. -/
structure TokenList where
  tokens : List Token
  stop : Nat
  deriving DecidableEq, Repr, Inhabited

namespace Symbol

/-- The name of the class a symbol belongs to. -/
def className : Symbol → String
  | lparen => "("
  | rparen => ")"
  | arrow => "->"
  | sideArrow => "~>"
  | equals => "="
  | var _ => "variable"
  | ident _ => "identifier"
  | illegal _ => "illegal character"

/-- What tells a symbol from others of its class. -/
def data : Symbol → String
  | var name | ident name => name
  | illegal c => c.toString
  | _ => ""

/-- **The characters a symbol is written with.** -/
def spelling : Symbol → String
  | var name | ident name => name
  | illegal c => c.toString
  | s => s.className

/-- The end of a signature, as a message names it. -/
def endName : String := "end of input"

/-- A symbol, or the end of the signature, as a message names it. -/
def describe : Option Symbol → String
  | none => endName
  | some s => if s.data = "" then s.className else s.className ++ " " ++ Text.quote s.data

/-- The symbol that begins with the character `c`, before the characters `cs`. -/
def read (c : Char) (cs : List Char) : Symbol :=
  match c, cs with
  | '(', _ => lparen
  | ')', _ => rparen
  | '=', _ => equals
  | '-', '>' :: _ => arrow
  | '~', '>' :: _ => sideArrow
  | '\x27', d :: ds =>
    if Text.isIdentifierStart d then
      var (String.ofList (c :: d :: ds.takeWhile Text.isIdentifierPart))
    else illegal c
  | _, _ =>
    if Text.isIdentifierStart c then ident (String.ofList (c :: cs.takeWhile Text.isIdentifierPart))
    else illegal c

end Symbol

/-- The tokens of a text that begins at a position; the second argument is the number of characters
that belong to the token read last. -/
def tokensFrom : Nat → Nat → List Char → List Token
  | _, _, [] => []
  | pos, skip + 1, _ :: cs => tokensFrom (pos + 1) skip cs
  | pos, 0, c :: cs =>
    if Text.isBlank c then tokensFrom (pos + 1) 0 cs
    else
      let symbol := Symbol.read c cs
      ⟨pos, symbol⟩ :: tokensFrom (pos + 1) (symbol.spelling.length - 1) cs

/-- **The tokens of a signature.** -/
def TokenList.ofString (src : String) : TokenList :=
  ⟨tokensFrom 0 0 src.toList, src.length⟩

end StackEffect
