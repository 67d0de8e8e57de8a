import StackEffect.Document.Property
import StackEffect.Document.Scalar

/-!
# Document/TokenStream — documents as tokens

    key: value            tableStart key scalar value scalar blockEnd
    - item                listStart item scalar blockEnd
    [a, b]  {a: 1}        the same between brackets
    # comment

Indentation becomes tokens: a table or a list by lines begins where its column is further to the right
than that of the one around it, and ends where something begins further to the left.  That a scalar, or
something between brackets, is a key is known only when its colon is found, which has to stand on its
line and no more than 1024 characters behind its beginning; the tokens before it are added then.  So
tokens wait in a queue, and one is handed out when it is known whether it begins a key, and when two
more follow it.
-/

namespace StackEffect.Document

/-- A token of a document. -/
inductive Token where
  | streamEnd
  | directive (d : Directive)
  | documentStart
  | documentEnd
  | listStart
  | tableStart
  | blockEnd
  | flowListStart
  | flowListEnd
  | flowTableStart
  | flowTableEnd
  /-- The dash before an item. -/
  | item
  | comma
  | key
  | value
  | reference (name : String)
  | anchor (name : String)
  | tag (name : TagName)
  | scalar (text : String) (plain : Bool)
  deriving DecidableEq, Repr, Inhabited

/-- A place where a key may have begun. -/
structure KeyPlace where
  /-- Whether it may still turn out to be one. -/
  possible : Bool
  /-- Whether nothing else may stand there. -/
  required : Bool
  /-- The number of the token that the key begins with. -/
  number : Nat
  index : Nat
  line : Nat
  col : Nat
  deriving DecidableEq, Repr, Inhabited

/-- Where no key has begun; the number is that of the token before. -/
def KeyPlace.none (number : Nat) : KeyPlace := ⟨false, false, number, 0, 0, 0⟩

/-- **A stream of tokens**, read as far as they were asked for. -/
structure TokenStream where
  cursor : Cursor
  /-- The tokens that were not handed out. -/
  queue : List Token
  /-- The number of tokens that were handed out. -/
  taken : Nat
  /-- Where a key may have begun: outside of all brackets. -/
  outerKey : KeyPlace
  /-- Where a key may have begun: between brackets, the innermost first. -/
  innerKeys : List KeyPlace
  /-- The number of open brackets. -/
  depth : Nat
  /-- For tokens that a key may begin with, the number of brackets around them. -/
  keyDepths : List (Nat × Nat)
  /-- Whether a key may begin here. -/
  keyAllowed : Bool
  /-- The column of the innermost table or list by lines. -/
  indent : Int
  /-- The columns around it, the innermost first. -/
  indents : List Int
  deriving Repr, Inhabited

namespace TokenStream

/-- The beginning of a text. -/
def start (src : String) : TokenStream where
  cursor := .start src
  queue := []
  taken := 0
  outerKey := .none 0
  innerKeys := []
  depth := 0
  keyDepths := []
  keyAllowed := true
  indent := -1
  indents := []

/-- The deepest nesting of brackets, or of indentations. -/
def depthLimit : Nat := 10000

/-- Whether there are open brackets. -/
def inFlow (s : TokenStream) : Bool := 0 < s.depth

/-- Adds a token to the queue. -/
def emit (t : Token) (s : TokenStream) : TokenStream := { s with queue := s.queue ++ [t] }

/-- The number of the next token to be added. -/
def nextNumber (s : TokenStream) : Nat := s.taken + s.queue.length

/-- Adds a token before the one with a number, or to the queue if that one was handed out. -/
def emitBefore (number : Nat) (t : Token) (s : TokenStream) : TokenStream :=
  if number < s.taken then s.emit t
  else
    let n := number - s.taken
    { s with queue := s.queue.take n ++ t :: s.queue.drop n }

/-! ## Keys -/

/-- Where a key may have begun, between the innermost brackets. -/
def keyPlace (s : TokenStream) : KeyPlace := s.innerKeys.headD s.outerKey

/-- Changes where a key may have begun, between the innermost brackets. -/
def setKeyPlace (k : KeyPlace) (s : TokenStream) : TokenStream :=
  match s.innerKeys with
  | [] => { s with outerKey := k }
  | _ :: ks => { s with innerKeys := k :: ks }

/-- Where a key may have begun, between so many brackets. -/
def keyPlaceAt (depth : Nat) (s : TokenStream) : KeyPlace :=
  if depth = 0 then s.outerKey else s.innerKeys.getD (s.depth - depth) (.none 0)

/-- Whether what began at a place may still be a key, seen from the cursor. -/
def isNear (k : KeyPlace) (s : TokenStream) : Bool :=
  k.line = s.cursor.line && s.cursor.index ≤ k.index + 1024

/-- Gives up a key that is too far away, and answers whether it is still possible. -/
def checkKey (depth : Nat) (s : TokenStream) : Except DocumentError (Bool × TokenStream) :=
  let k := s.keyPlaceAt depth
  if !k.possible then .ok (false, s)
  else if s.isNear k then .ok (true, s)
  else if k.required then .error .missingColon
  else
    let k := { k with possible := false }
    .ok (false,
      if depth = 0 then { s with outerKey := k }
      else { s with innerKeys := s.innerKeys.set (s.depth - depth) k })

/-- Gives up the key that may have begun between the innermost brackets. -/
def dropKey (s : TokenStream) : Except DocumentError TokenStream :=
  let k := s.keyPlace
  if !k.possible then .ok s
  else if k.required then .error .missingColon
  else
    let s := s.setKeyPlace { k with possible := false }
    .ok { s with keyDepths := s.keyDepths.filter (·.1 != k.number) }

/-- Takes note that a key may begin here, if it may. -/
def saveKey (s : TokenStream) : Except DocumentError TokenStream := do
  if !s.keyAllowed then return s
  let c := s.cursor
  let number := s.nextNumber
  let s ← s.dropKey
  let s := s.setKeyPlace
    ⟨true, !s.inFlow && s.indent = c.col, number, c.index, c.line, c.col⟩
  return { s with keyDepths := (number, s.depth) :: s.keyDepths.filter (·.1 != number) }

/-! ## Indentation -/

/-- Begins a table or a list by lines, if its column is further to the right. -/
def indentTo (col : Nat) (number : Option Nat) (t : Token) (s : TokenStream) :
    Except DocumentError TokenStream :=
  if s.inFlow || !(s.indent < col) then .ok s
  else if depthLimit ≤ s.indents.length then .error .tooDeep
  else
    let s := { s with indents := s.indent :: s.indents, indent := col }
    .ok (match number with
      | some n => s.emitBefore n t
      | none => s.emit t)

/-- Ends the tables and lists by lines that are further to the right than a column. -/
def dedentFrom (col : Int) : List Int → TokenStream → TokenStream
  | [], s => s
  | outer :: indents, s =>
    if col < s.indent then
      dedentFrom col indents { s.emit .blockEnd with indent := outer, indents := indents }
    else s

/-- Ends the tables and lists by lines that are further to the right than a column. -/
def dedentTo (col : Int) (s : TokenStream) : TokenStream :=
  if s.inFlow then s else dedentFrom col s.indents s

/-! ## Single tokens -/

/-- Consumes a character, which is a token. -/
def sign (t : Token) (s : TokenStream) : Except DocumentError TokenStream := do
  return { s with cursor := ← s.cursor.step.ensure 1 }.emit t

/-- Ends the stream. -/
def fetchEnd (s : TokenStream) : Except DocumentError TokenStream := do
  let c := s.cursor
  let c := if c.col = 0 then c else { c with col := 0, line := c.line + 1 }
  let s ← ({ s with cursor := c }.dedentTo (-1)).dropKey
  return { s with keyAllowed := false }.emit .streamEnd

/-- Reads a directive. -/
def fetchDirective (s : TokenStream) : Except DocumentError TokenStream := do
  let s ← (s.dedentTo (-1)).dropKey
  let (d, c) ← readDirective s.cursor
  return { s with keyAllowed := false, cursor := c }.emit (.directive d)

/-- Reads the mark of a document's beginning or end. -/
def fetchMarker (t : Token) (s : TokenStream) : Except DocumentError TokenStream := do
  let s ← (s.dedentTo (-1)).dropKey
  return { s with keyAllowed := false, cursor := ← (s.cursor.advanceBy 3).ensure 1 }.emit t

/-- Opens a bracket, with which a key may begin. -/
def openBracket (t : Token) (s : TokenStream) : Except DocumentError TokenStream := do
  let s ← s.saveKey
  if depthLimit ≤ s.depth then throw .tooDeep
  { s with
    innerKeys := .none s.nextNumber :: s.innerKeys, depth := s.depth + 1
    keyAllowed := true }.sign t

/-- Closes a bracket, if one is open. -/
def closeBracket (t : Token) (s : TokenStream) : Except DocumentError TokenStream := do
  let s ← s.dropKey
  let s :=
    match s.innerKeys with
    | [] => s
    | k :: ks =>
      { s with
        innerKeys := ks, depth := s.depth - 1
        keyDepths := s.keyDepths.filter (·.1 != k.number) }
  { s with keyAllowed := false }.sign t

/-- Reads a comma. -/
def fetchComma (s : TokenStream) : Except DocumentError TokenStream := do
  let s ← s.dropKey
  { s with keyAllowed := true }.sign .comma

/-- Reads the dash before an item. -/
def fetchItem (s : TokenStream) : Except DocumentError TokenStream := do
  if !s.inFlow && !s.keyAllowed then throw .misplaced
  let s ← (← s.indentTo s.cursor.col none .listStart).dropKey
  { s with keyAllowed := true }.sign .item

/-- Reads the question mark before a key. -/
def fetchKey (s : TokenStream) : Except DocumentError TokenStream := do
  if !s.inFlow && !s.keyAllowed then throw .misplaced
  let s ← (← s.indentTo s.cursor.col none .tableStart).dropKey
  { s with keyAllowed := !s.inFlow }.sign .key

/-- Reads the colon before a value.  It makes a key of what may have begun one. -/
def fetchValue (s : TokenStream) : Except DocumentError TokenStream := do
  let (valid, s) ← s.checkKey s.depth
  let k := s.keyPlace
  if valid then
    let s ← (s.emitBefore k.number .key).indentTo k.col (some k.number) .tableStart
    let s := s.setKeyPlace { k with possible := false }
    { s with
      keyAllowed := false
      keyDepths := s.keyDepths.filter (·.1 != k.number) }.sign .value
  else
    if !s.inFlow && !s.keyAllowed then throw .misplaced
    let s ← s.indentTo s.cursor.col none .tableStart
    { s with keyAllowed := !s.inFlow }.sign .value

/-- Reads a node's beginning, with which a key may begin, too. -/
def fetchNode (s : TokenStream) (read : Cursor → Except DocumentError (Token × Cursor)) :
    Except DocumentError TokenStream := do
  let s ← s.saveKey
  let (t, c) ← read s.cursor
  return { s with keyAllowed := false, cursor := c }.emit t

/-- Reads a plain scalar.  Behind the end of a line, a key may begin. -/
def fetchPlain (s : TokenStream) : Except DocumentError TokenStream := do
  let s ← s.saveKey
  let t ← plainFrom s.inFlow (s.indent + 1) s.cursor.rest s.cursor [] .none
  return { s with keyAllowed := t.lineAfter, cursor := t.cursor }.emit (.scalar t.text true)

/-- Reads a scalar by lines. -/
def fetchBlock (literal : Bool) (s : TokenStream) : Except DocumentError TokenStream := do
  let s ← s.dropKey
  let (text, c) ← readBlock literal s.indent (← s.cursor.step.ensure 1)
  return { s with keyAllowed := true, cursor := c }.emit (.scalar text false)

/-- Reads what begins with the character `d`. -/
def fetchSign (d : Char) (ds : List Char) (s : TokenStream) : Except DocumentError TokenStream :=
  let named (t : String → Token) (c : Cursor) : Except DocumentError (Token × Cursor) := do
    let (name, c) ← readAnchor c
    return (t name, c)
  let quoted (c : Cursor) : Except DocumentError (Token × Cursor) := do
    let (text, c) ← quotedFrom d 0 c.rest.tail (← c.step.ensure 4) [] .none
    return (.scalar text false, ← c.ensure 1)
  match d with
  | '[' => s.openBracket .flowListStart
  | '\x7b' => s.openBracket .flowTableStart
  | ']' => s.closeBracket .flowListEnd
  | '\x7d' => s.closeBracket .flowTableEnd
  | ',' => s.fetchComma
  | '*' => s.fetchNode (named .reference)
  | '&' => s.fetchNode (named .anchor)
  | '!' => s.fetchNode fun c => do
    let (name, c) ← readTag c
    return (.tag name, c)
  | '\x27' => s.fetchNode quoted
  | '\x22' => s.fetchNode quoted
  | _ =>
    if d == '-' && blankAhead ds then s.fetchItem
    else if d == '?' && (s.inFlow || blankAhead ds) then s.fetchKey
    else if d == ':' && (s.inFlow || blankAhead ds) then s.fetchValue
    else if (d == '|' || d == '>') && !s.inFlow then s.fetchBlock (d == '|')
    else if startsPlain s.inFlow d ds then s.fetchPlain
    else .error .badStart

/-! ## The queue -/

/-- Skips white space and comments up to the next token.  Outside of brackets, a tab may not stand where
a key may begin, and a key may begin on a new line. -/
def skipFrom : List Char → TokenStream → Except DocumentError TokenStream
  | fuel, s => do
    let c ← s.cursor.ensure 1
    let c ← if c.col = 0 && c.marked then c.advance.ensure 1 else pure c
    let c ← c.skipWhile fun d => d == ' ' || ((s.inFlow || !s.keyAllowed) && d == '\t')
    let c ← if c.rest.head? = some '#' then c.skipComments else pure c
    match fuel, c.rest with
    | _ :: fuel, d :: _ =>
      if isBreak d then
        skipFrom fuel { s with
          cursor := (← c.ensure 2).stepLine, keyAllowed := s.keyAllowed || !s.inFlow }
      else return { s with cursor := c }
    | _, _ => return { s with cursor := c }

/-- **Reads the next token**, and those that are known by it. -/
def fetch (s : TokenStream) : Except DocumentError TokenStream := do
  let s ← skipFrom s.cursor.rest s
  let s := s.dedentTo s.cursor.col
  let s := { s with cursor := ← s.cursor.ensure 4 }
  match s.cursor.rest with
  | [] => s.fetchEnd
  | d :: ds =>
    if s.cursor.col = 0 && d == '%' then s.fetchDirective
    else if s.cursor.atTriple '-' then s.fetchMarker .documentStart
    else if s.cursor.atTriple '.' then s.fetchMarker .documentEnd
    else
      let s ← s.fetchSign d ds
      if s.queue.getLast? = some .item then return s
      return { s with cursor := ← s.cursor.skipLineComment }

/-- Whether the first token of the queue can be handed out. -/
def isReady (s : TokenStream) : Except DocumentError (Bool × TokenStream) :=
  match s.queue with
  | _ :: _ :: _ :: _ =>
    match s.keyDepths.lookup s.taken with
    | none => .ok (true, s)
    | some depth => do
      let (valid, s) ← s.checkKey depth
      return (!valid, s)
  | _ => .ok (false, s)

/-- Reads tokens until one can be handed out; `fuel` bounds their number. -/
def fill : (fuel : List Char) → (extra : Nat) → TokenStream → Except DocumentError TokenStream
  | fuel, extra, s => do
    let (ready, s) ← s.isReady
    if ready then return s
    match fuel, extra with
    | _ :: fuel, extra => fill fuel extra (← s.fetch)
    | [], extra + 1 => fill [] extra (← s.fetch)
    | [], 0 => return s
termination_by fuel extra => (fuel.length, extra)

/-- **The next token.** -/
def peek (s : TokenStream) : Except DocumentError (Token × TokenStream) := do
  let s ← fill s.cursor.rest 4 s
  return (s.queue.headD .streamEnd, s)

/-- Hands the next token out. -/
def drop (s : TokenStream) : TokenStream :=
  { s with
    queue := s.queue.tail, taken := s.taken + 1
    keyDepths := s.keyDepths.filter (s.taken < ·.1) }

end TokenStream

end StackEffect.Document
