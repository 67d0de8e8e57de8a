import StackEffect.Command.Options
import StackEffect.Command.Path
import StackEffect.Inference.Definitions
import StackEffect.Lattice.Reader
import StackEffect.Settings

/-!
# Command/Run — the command

    dump    the canonical effect of every word
    query   the effect of a function body
    defs    the effects of the definitions, callees first

The settings are read first, then the lattice they name.  What is logged goes to the error output.
`Command.run` reads files through a function that it is given.
-/

namespace StackEffect

/-- Why a file cannot be read. -/
inductive FileError where
  | missing
  | notFolder
  | isFolder
  /-- The file cannot be opened, for a reason that is given. -/
  | refused (reason : String)
  deriving DecidableEq, Repr, Inhabited

/-- The text of an error with a file. -/
def FileError.message (path : String) : FileError → String
  | missing => "open " ++ path ++ ": no such file or directory"
  | notFolder => "open " ++ path ++ ": not a directory"
  | isFolder => "read " ++ path ++ ": is a directory"
  | refused reason => "open " ++ path ++ ": " ++ reason

namespace Command

/-- **What a run leaves**: its exit code and what it wrote. -/
structure Outcome where
  code : Nat
  out : String
  err : String
  deriving DecidableEq, Repr, Inhabited

/-- How the command is used. -/
def usage : String :=
  "usage: cattypes <command> [-config file] [args]\n\ncommands:\n"
    ++ "  dump    print the canonical stack effect of every declared word\n"
    ++ "  query   infer the stack effect of a function body\n"
    ++ "  defs    infer the definitions of the config file in dependency order\n"

/-- A line of the report: an error or a result. -/
structure Line where
  text : String
  isError : Bool
  deriving DecidableEq, Repr, Inhabited

/-- A line as it is written; errors may be red. -/
def Line.written (color : Bool) (l : Line) : String :=
  (if color && l.isError then "\x1b[31m" ++ l.text ++ "\x1b[0m" else l.text) ++ "\n"

/-- The report of a run, and the session behind it. -/
structure Report where
  lines : List Line
  session : Session

/-- What was logged, as text. -/
def logText (s : Session) : String :=
  String.join (s.store.log.toList.map fun line => if line.endsWith "\n" then line else line ++ "\n")

/-- The outcome of a report. -/
def Report.outcome (color : Bool) (r : Report) : Outcome :=
  ⟨if r.lines.any Line.isError then 1 else 0, String.join (r.lines.map (Line.written color)),
    logText r.session⟩

/-- A line of `dump`: the word, its signature, and the canonical effect. -/
def dumpLine (d : Dictionary) (errors : Assoc SignatureError) (name signature : String)
    (s : Session) : Line × Session :=
  let failed (message : String) : Line := ⟨name ++ "\t" ++ signature ++ "\terror:" ++ message, true⟩
  match Assoc.get? errors name with
  | some e => (failed e.message, s)
  | none =>
    match Infer.composeAll [(d.lookup name).join] s with
    | .ok f s => (⟨name ++ "\t" ++ signature ++ "\t" ++ f.text, false⟩, s)
    | .error e s => (failed e.message, s)

/-- **The canonical effect of every word.** -/
def dump (settings : Settings) (s : Session) : Report :=
  let (d, errors) := settings.dictionary
  let (lines, s) := settings.words.foldl
    (fun (lines, s) (name, signature) =>
      let (line, s) := dumpLine d errors name signature s
      (lines ++ [line], s))
    ([], s)
  ⟨lines, s⟩

/-- **The effect of a function body.** -/
def query (settings : Settings) (src : String) (s : Session) : Report :=
  let failed (message : String) : Line := ⟨"type could not be inferred: " ++ message, true⟩
  match Body.parse src with
  | .error e => ⟨[failed e.message], s⟩
  | .ok body =>
    match Infer.inferBody settings.dictionary.1 body s with
    | .ok (f, _) s => ⟨[⟨src ++ " : " ++ f.text, false⟩], s⟩
    | .error e s => ⟨[failed e.message], s⟩

/-- A name, followed by blanks up to a width. -/
def padded (width : Nat) (name : String) : String :=
  name ++ String.ofList (List.replicate (width - name.length) ' ')

/-- A line of `defs`. -/
def defsLine (width : Nat) (r : Inferred) : Line :=
  match r.outcome with
  | .ok (f, _) => ⟨padded width r.name ++ " : " ++ f.text, false⟩
  | .error e => ⟨padded width r.name ++ " : error: " ++ Inferred.errorText r.name e, true⟩

/-- **The effects of the definitions.**  The names are as wide as the longest one has bytes. -/
def defs (settings : Settings) (s : Session) : Except Settings.DefinitionError Report := do
  let definitions ← settings.readDefinitions
  match Infer.definitions definitions.toArray settings.dictionary.1 s with
  | .ok (results, _) s =>
    let width := (results.map fun r => r.2.name.utf8ByteSize).foldl max 0
    return ⟨results.map fun r => defsLine width r.2, s⟩
  | .error e s => return ⟨[⟨e.message, true⟩], s⟩

/-- Runs a command on settings and a lattice. -/
def perform (name : String) (color : Bool) (o : Options) (settings : Settings) (l : Lattice) :
    Outcome :=
  let logging := if settings.verbose || o.verbose then Logging.all else .warnings
  let s := Session.start (some l.subtyping) settings.lenient logging
  if name = "dump" then (dump settings s).outcome color
  else if name = "query" then
    if o.rest.isEmpty then ⟨2, "", usage⟩
    else (query settings (" ".intercalate o.rest) s).outcome color
  else if name = "defs" then
    match defs settings s with
    | .ok r => r.outcome color
    | .error e => ⟨1, "", e.message ++ "\n"⟩
  else ⟨2, "", "unknown command " ++ Text.quote name ++ "\n" ++ usage⟩

variable {m : Type → Type} [Monad m]

/-- Reads the settings at a path. -/
def loadSettings (read : String → m (Except FileError String)) (path : String) :
    m (Except String Settings) := do
  match ← read path with
  | .error e => return .error (e.message path)
  | .ok src =>
    match Settings.parse src with
    | .error e => return .error (path ++ ": " ++ e.message)
    | .ok settings => return .ok settings

/-- Reads the lattice that settings name; its path starts in the folder of the settings. -/
def loadLattice (read : String → m (Except FileError String)) (config : String)
    (settings : Settings) : m (Except String Lattice) := do
  if settings.lattice = "" then return .ok .default
  let path :=
    if Path.isAbsolute settings.lattice then settings.lattice
    else Path.join (Path.folder config) settings.lattice
  match ← read path with
  | .error .isFolder =>
    return .error ("Invalid lattice: yaml: input error: " ++ FileError.isFolder.message path)
  | .error e => return .error (e.message path)
  | .ok src =>
    match Lattice.load src with
    | .error e => return .error e.message
    | .ok l => return .ok l

/-- **Runs the command.** -/
def run (read : String → m (Except FileError String)) (args : List String) (color : Bool) :
    m Outcome := do
  match args with
  | [] => return ⟨2, "", usage⟩
  | name :: args =>
    match Options.parse args with
    | .error e =>
      let message := (e.message?.map (· ++ "\n")).getD ""
      return ⟨2, "", message ++ Options.usage name⟩
    | .ok o =>
      match ← loadSettings read o.config with
      | .error message => return ⟨1, "", message ++ "\n"⟩
      | .ok settings =>
        match ← loadLattice read o.config settings with
        | .error message => return ⟨1, "", message ++ "\n"⟩
        | .ok l => return perform name color o settings l

end Command

end StackEffect
