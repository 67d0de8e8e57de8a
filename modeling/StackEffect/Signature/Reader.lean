import StackEffect.Kind.Basic
import StackEffect.Signature.Token
import StackEffect.Text.Uppercase

/-!
# Signature/Reader — effects, stacks and kinds as signatures write them

    signature ::= stack arrow stack | ( stack arrow stack )
    stack     ::= item …
    item      ::= [ name = ] ( 'name | name | self | ( stack arrow stack ) )
    arrow     ::= -> | ~>

A stack variable has to be the first item of its stack, which is the bottom.  The reader goes through
the tokens once.  It keeps the part of the innermost effect that it has read, and what it had read of
the effects around it when that began.
-/

namespace StackEffect

/-- What a signature lacks where something else is found. -/
inductive Wanted where
  | anArrow
  | closing
  | theEnd
  deriving DecidableEq, Repr, Inhabited

/-- The text of what is wanted. -/
def Wanted.text : Wanted → String
  | anArrow => "-> or ~>"
  | closing => ")"
  | theEnd => Symbol.endName

/-- Why a text is no signature. -/
inductive SignatureFault where
  | expected (what : Wanted) (found : Option Symbol)
  | unexpected (found : Option Symbol)
  /-- A stack variable above another slot. -/
  | misplaced (name : String)
  deriving DecidableEq, Repr, Inhabited

/-- The text of a fault. -/
def SignatureFault.text : SignatureFault → String
  | expected what found => "expected " ++ what.text ++ ", found " ++ Symbol.describe found
  | unexpected found => "unexpected " ++ Symbol.describe found
  | misplaced name => "stack-variable " ++ name ++ " must be at the bottom of the stack"

/-- A fault and its position. -/
structure SignatureError where
  pos : Nat
  fault : SignatureFault
  deriving DecidableEq, Repr, Inhabited

/-- The text of an error, with its position. -/
def SignatureError.message (e : SignatureError) : String := toString e.pos ++ ": " ++ e.fault.text

namespace Signature

/-- What is being read. -/
inductive Goal where
  | effect
  | stack
  | kind
  deriving DecidableEq, Repr, Inhabited

/-- The half of an effect that is being read: what it consumes, or what it produces after the part
that is consumed and the arrow. -/
inductive Half where
  | before
  | after (consumed : Stack) (impure : Bool)
  deriving DecidableEq, Repr, Inhabited

/-- **What has been read.** -/
structure Reader where
  /-- The half that is being read. -/
  half : Half
  /-- The items of this half, the last one first. -/
  slots : Stack
  /-- The halves around it, innermost first. -/
  outer : List (Half × Stack)
  /-- Where the name of the item begins that was given just now. -/
  named : Option Nat
  deriving DecidableEq, Repr, Inhabited

/-- The kind that a variable's name stands for: a capital letter makes it a stack. -/
def varKind (name : String) : Kind :=
  match name.toList with
  | _ :: c :: _ => if Text.isUppercase c then .stackVar name else .typeVar name
  | _ => .typeVar name

/-- The kind that an identifier stands for. -/
def identKind (name : String) : Kind := if name = "self" then .self else .simple name

namespace Reader

/-- Nothing has been read. -/
def start : Reader := ⟨.before, [], [], none⟩

/-- An item has to follow: it was given a name, or a single kind is wanted and has not been read. -/
def itemDue (goal : Goal) (r : Reader) : Bool :=
  r.named.isSome || (goal == .kind && r.outer.isEmpty && r.slots.isEmpty)

/-- The single kind that is wanted has been read. -/
def full (goal : Goal) (r : Reader) : Bool :=
  goal == .kind && r.outer.isEmpty && !r.slots.isEmpty

/-- Adds an item that was found at a position. -/
def put (r : Reader) (pos : Nat) (k : Kind) : Except SignatureError Reader :=
  match k with
  | .stackVar name =>
    if r.slots.isEmpty then .ok { r with slots := [k], named := none }
    else .error ⟨r.named.getD pos, .misplaced name⟩
  | _ => .ok { r with slots := k :: r.slots, named := none }

/-- Begins an effect in parentheses. -/
def enter (r : Reader) : Reader := ⟨.before, [], (r.half, r.slots) :: r.outer, none⟩

/-- What is wanted where a half ends. -/
def wantedAtEnd (goal : Goal) (r : Reader) : Wanted :=
  match r.half, r.outer with
  | .before, [] => if goal = .effect then .anArrow else .theEnd
  | .before, _ :: _ => .anArrow
  | .after .., [] => .theEnd
  | .after .., _ :: _ => .closing

/-- Goes on behind an arrow. -/
def turn (goal : Goal) (r : Reader) (t : Token) : Except SignatureError Reader :=
  if r.itemDue goal then .error ⟨t.pos, .unexpected (some t.symbol)⟩
  else if r.wantedAtEnd goal = .anArrow then
    .ok { r with half := .after r.slots (t.symbol == .sideArrow), slots := [] }
  else .error ⟨t.pos, .expected (r.wantedAtEnd goal) (some t.symbol)⟩

/-- Ends an effect in parentheses, which is then an item of the stack around it. -/
def leave (goal : Goal) (r : Reader) (pos : Nat) : Except SignatureError Reader :=
  if r.itemDue goal then .error ⟨pos, .unexpected (some .rparen)⟩
  else match r.half, r.outer with
    | .after consumed impure, (half, slots) :: outer =>
      .ok ⟨half, .effect consumed r.slots impure :: slots, outer, none⟩
    | _, _ => .error ⟨pos, .expected (r.wantedAtEnd goal) (some .rparen)⟩

/-- Reads a token. -/
def step (goal : Goal) (r : Reader) (t : Token) : Except SignatureError Reader :=
  if r.full goal then .error ⟨t.pos, .expected .theEnd (some t.symbol)⟩
  else match t.symbol with
    | .ident name => r.put t.pos (identKind name)
    | .var name => r.put t.pos (varKind name)
    | .lparen => .ok r.enter
    | .rparen => r.leave goal t.pos
    | .arrow | .sideArrow => r.turn goal t
    | .equals | .illegal _ => .error ⟨t.pos, .unexpected (some t.symbol)⟩

/-- Reads the end. -/
def finish (goal : Goal) (r : Reader) (stop : Nat) : Except SignatureError Reader :=
  if r.itemDue goal then .error ⟨stop, .unexpected none⟩
  else
    let complete :=
      match goal, r.half, r.outer, r.slots with
      | .effect, .before, [], [.effect ..] => true
      | .effect, .after .., [], _ => true
      | .effect, _, _, _ => false
      | _, .before, [], _ => true
      | _, _, _, _ => false
    if complete then .ok r else .error ⟨stop, .expected (r.wantedAtEnd goal) none⟩

/-- Whether a token is the name of an item: an identifier before `=`, where an item may begin that
has no name yet. -/
def namesItem (goal : Goal) (r : Reader) (t : Token) (next : Option Token) : Bool :=
  match t.symbol, next with
  | .ident _, some ⟨_, .equals⟩ => r.named.isNone && !r.full goal
  | _, _ => false

/-- **Reads tokens to the end.**  A name before `=` says what an item is for, and is skipped. -/
def run (goal : Goal) (stop : Nat) : List Token → Reader → Except SignatureError Reader
  | [], r => r.finish goal stop
  | t :: ts, r =>
    if r.namesItem goal t ts.head? then
      match ts with
      | [] => r.finish goal stop
      | _ :: rest => run goal stop rest { r with named := some t.pos }
    else match r.step goal t with
      | .ok r => run goal stop ts r
      | .error e => .error e

/-- The effect that was read. -/
def effect (r : Reader) : Effect :=
  match r.half, r.slots with
  | .after consumed impure, produced => ⟨consumed, produced, impure⟩
  | .before, [.effect consumed produced impure] => ⟨consumed, produced, impure⟩
  | .before, slots => ⟨slots, [], false⟩

end Reader

/-- Reads a text. -/
def read (goal : Goal) (src : String) : Except SignatureError Reader :=
  let list := TokenList.ofString src
  Reader.run goal list.stop list.tokens Reader.start

end Signature

/-- **Reads an effect**, with or without parentheses around it. -/
def Effect.parse (src : String) : Except SignatureError Effect :=
  (Signature.read .effect src).map Signature.Reader.effect

/-- **Reads a stack**, written bottom first. -/
def Stack.parse (src : String) : Except SignatureError Stack :=
  (Signature.read .stack src).map Signature.Reader.slots

/-- **Reads a single kind.** -/
def Kind.parse (src : String) : Except SignatureError Kind :=
  (Signature.read .kind src).map fun r => r.slots.headD .absent

end StackEffect
