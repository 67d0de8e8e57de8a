import StackEffect.Assoc
import StackEffect.Document.TokenStream

/-!
# Document/Reader — nodes from tokens

A text may hold several documents, of which the first one is read.  The tokens of tables and lists
follow the grammar below; what is left out stands for nothing.

    document  ::=  directive … `---` node?  |  node
    node      ::=  reference  |  anchor? tag? (scalar | list | table)
    list      ::=  listStart (item node?) … blockEnd  |  `[` (node | pair) `,` … `]`
    table     ::=  tableStart (key node? (value node?)?) … blockEnd  |  `{` (pair | node) `,` … `}`

A list by lines may stand in the column of the key it belongs to, and then has no beginning and no end
of its own.  Every function below takes a bound on the number of parts still to be read.
-/

namespace StackEffect.Document

/-- What an anchor stands for: a node that is not read to its end yet, or one that is. -/
inductive Anchored where
  | unfinished (id : Nat)
  | finished (node : Node)
  deriving Repr, Inhabited

/-- The state of reading a document. -/
structure Reading where
  tokens : TokenStream
  /-- What the anchors stand for. -/
  anchors : Assoc Anchored
  /-- What the handles of tags stand for. -/
  handles : Assoc String
  deriving Inhabited

/-- A step of reading, which may fail. -/
abbrev Read := StateT Reading (Except DocumentError)

namespace Read

/-- The next token. -/
def peek : Read Token := do
  let s ← get
  let (t, tokens) ← s.tokens.peek
  set { s with tokens := tokens }
  return t

/-- Passes over the next token. -/
def drop : Read Unit := modify fun s => { s with tokens := s.tokens.drop }

/-! ## Properties -/

/-- The anchor and the tag of a node. -/
structure Properties where
  anchor : Option String
  tag : Option String
  deriving DecidableEq, Repr, Inhabited

/-- The handles that need no directive. -/
def defaultHandles : Assoc String := [("!", "!"), ("!!", "tag:yaml.org,2002:")]

/-- A tag with its handle replaced by what it stands for, and in short if it is one of the standard.  A
lone `!` is no tag. -/
def tagText (t : TagName) : Read (Option String) := do
  let full ←
    if t.handle = "" then pure t.suffix
    else match Assoc.get? (← get).handles t.handle with
      | some meaning => pure (meaning ++ t.suffix)
      | none => throw (.undefinedHandle t.handle)
  let standard := "tag:yaml.org,2002:"
  if full = "!" then return none
  else if full.startsWith standard then
    return some ("!!" ++ String.ofList (full.toList.drop standard.length))
  else return some full

/-- Reads the anchor and the tag of a node, in either order. -/
def properties : Read Properties := do
  match ← peek with
  | .anchor name =>
    drop
    match ← peek with
    | .tag t =>
      drop
      return ⟨some name, ← tagText t⟩
    | _ => return ⟨some name, none⟩
  | .tag t =>
    drop
    match ← peek with
    | .anchor name =>
      drop
      return ⟨some name, ← tagText t⟩
    | _ => return ⟨none, ← tagText t⟩
  | _ => return ⟨none, none⟩

/-- Begins the node that carries an anchor. -/
def beginAnchor (p : Properties) : Read Nat := do
  let id := (← get).tokens.taken
  if let some name := p.anchor then
    modify fun s => { s with anchors := Assoc.put s.anchors name (.unfinished id) }
  return id

/-- Ends the node that carries an anchor, unless the anchor was given to a part of it. -/
def endAnchor (p : Properties) (id : Nat) (n : Node) : Read Node := do
  if let some name := p.anchor then
    modify fun s =>
      match Assoc.get? s.anchors name with
      | some (.unfinished other) =>
        if other = id then { s with anchors := Assoc.put s.anchors name (.finished n) } else s
      | _ => s
  return n

/-- The node that an anchor stands for. -/
def follow (name : String) : Read Node := do
  match Assoc.get? (← get).anchors name with
  | some (.finished n) => return .reference name n
  | some (.unfinished _) => return .circular name
  | none => throw (.unknownAnchor name)

/-! ## Nodes -/

mutual
/-- Reads a node.  `block` says whether it may be a table or a list by lines, and `atKey` whether a list
may begin in the column of its key. -/
def node (block atKey : Bool) : Nat → Read Node
  | 0 => throw .tooDeep
  | n + 1 => do
    if let .reference name ← peek then
      drop
      return ← follow name
    let tagged := (← peek) matches .tag _
    let p ← properties
    let id ← beginAnchor p
    match ← peek with
    | .scalar text plain =>
      drop
      endAnchor p id (.scalar ⟨text, plain, p.tag⟩)
    | .flowListStart =>
      drop
      endAnchor p id (← flowList true [] n)
    | .flowTableStart =>
      drop
      endAnchor p id (← flowTable true [] n)
    | .item =>
      if atKey then endAnchor p id (← keyList [] n)
      else if p.anchor.isSome || tagged then endAnchor p id (.scalar ⟨"", true, p.tag⟩)
      else throw .unexpected
    | .listStart =>
      if block then
        drop
        endAnchor p id (← blockList [] n)
      else if p.anchor.isSome || tagged then endAnchor p id (.scalar ⟨"", true, p.tag⟩)
      else throw .unexpected
    | .tableStart =>
      if block then
        drop
        endAnchor p id (← blockTable [] n)
      else if p.anchor.isSome || tagged then endAnchor p id (.scalar ⟨"", true, p.tag⟩)
      else throw .unexpected
    | _ =>
      if p.anchor.isSome || tagged then endAnchor p id (.scalar ⟨"", true, p.tag⟩)
      else throw .unexpected
/-- Reads a node, unless one of the tokens that end it follows. -/
def nodeUnless (ends : List Token) (block atKey : Bool) : Nat → Read Node
  | 0 => throw .tooDeep
  | n + 1 => do
    if ends.contains (← peek) then return .nothing
    node block atKey n
/-- Reads the value behind a key, unless it is left out. -/
def valueUnless (ends : List Token) (block : Bool) : Nat → Read Node
  | 0 => throw .tooDeep
  | n + 1 => do
    if (← peek) = .value then
      drop
      nodeUnless ends block block n
    else return .nothing
/-- Reads the rest of a list by lines. -/
def blockList (items : List Node) : Nat → Read Node
  | 0 => throw .tooDeep
  | n + 1 => do
    match ← peek with
    | .item =>
      drop
      let item ← nodeUnless [.item, .blockEnd] true false n
      blockList (item :: items) n
    | .blockEnd =>
      drop
      return .list items.reverse
    | _ => throw .unexpected
/-- Reads the rest of a list in the column of its key. -/
def keyList (items : List Node) : Nat → Read Node
  | 0 => throw .tooDeep
  | n + 1 => do
    if (← peek) = .item then
      drop
      let item ← nodeUnless [.item, .key, .value, .blockEnd] true false n
      keyList (item :: items) n
    else return .list items.reverse
/-- Reads the rest of a table by lines. -/
def blockTable (entries : List (Node × Node)) : Nat → Read Node
  | 0 => throw .tooDeep
  | n + 1 => do
    match ← peek with
    | .key =>
      drop
      let ends := [.key, .value, .blockEnd]
      let k ← nodeUnless ends true true n
      let v ← valueUnless ends true n
      blockTable ((k, v) :: entries) n
    | .blockEnd =>
      drop
      return .table entries.reverse
    | _ => throw .unexpected
/-- Reads the rest of a list between brackets, which may hold tables of one entry. -/
def flowList (first : Bool) (items : List Node) : Nat → Read Node
  | 0 => throw .tooDeep
  | n + 1 => do
    if !first && (← peek) != .flowListEnd then
      if (← peek) = .comma then drop else throw .unexpected
    match ← peek with
    | .flowListEnd =>
      drop
      return .list items.reverse
    | .key =>
      drop
      let ends := [.comma, .flowListEnd]
      let k ←
        if (.value :: ends).contains (← peek) then do
          drop
          pure .nothing
        else node false false n
      let v ← valueUnless ends false n
      flowList false (.table [(k, v)] :: items) n
    | _ => do
      let item ← node false false n
      flowList false (item :: items) n
/-- Reads the rest of a table between braces. -/
def flowTable (first : Bool) (entries : List (Node × Node)) : Nat → Read Node
  | 0 => throw .tooDeep
  | n + 1 => do
    if !first && (← peek) != .flowTableEnd then
      if (← peek) = .comma then drop else throw .unexpected
    match ← peek with
    | .flowTableEnd =>
      drop
      return .table entries.reverse
    | .key =>
      drop
      let ends := [.comma, .flowTableEnd]
      let k ← nodeUnless (.value :: ends) false false n
      let v ← valueUnless ends false n
      flowTable false ((k, v) :: entries) n
    | _ => do
      let k ← node false false n
      flowTable false ((k, .nothing) :: entries) n
end

/-! ## Documents -/

/-- Reads the directives before a document; `versioned` says whether its version was given. -/
def directives (versioned : Bool) : Nat → Read Unit
  | 0 => throw .tooDeep
  | n + 1 => do
    match ← peek with
    | .directive (.version major minor) =>
      if versioned || major ≠ 1 || minor ≠ 1 then throw .badDirective
      drop
      directives true n
    | .directive (.handle name meaning) =>
      if (Assoc.get? (← get).handles name).isSome then throw .badDirective
      modify fun s => { s with handles := Assoc.put s.handles name meaning }
      drop
      directives versioned n
    | _ => return

/-- Adds the handles that need no directive. -/
def addDefaultHandles : Read Unit :=
  modify fun s => { s with handles := s.handles ++ defaultHandles }

/-- Whether a document ends before a token. -/
def endsDocument : Token → Bool
  | .directive _ | .documentStart | .documentEnd | .streamEnd => true
  | _ => false

/-- Reads the first document, if there is one. -/
def document (n : Nat) : Read (Option Node) := do
  let t ← peek
  if t = .streamEnd then return none
  let root ←
    if t matches .directive _ || t = .documentStart then do
      directives false n
      if (← peek) ≠ .documentStart then throw .unexpected
      addDefaultHandles
      drop
      if endsDocument (← peek) then pure .nothing else node true false n
    else do
      addDefaultHandles
      node true false n
  let _ ← peek
  return some root

end Read

end StackEffect.Document

namespace StackEffect

/-- **Reads a document**, which may be missing. -/
def Document.parse (src : String) : Except DocumentError (Option Document.Node) := do
  let bound := 16 * src.length + 64
  let (root, _) ← (Document.Read.document bound).run ⟨.start src, [], []⟩
  return root

end StackEffect
