import StackEffect.Text.Quoted

/-!
# Command/Options — options before the arguments

    -name value   -name=value   --name …   -v   -v=false   --

Options end at the first argument that does not begin with `-`, or behind `--`.  A lone `-` is an
argument.
-/

namespace StackEffect

/-- **The options of a command**, and the arguments behind them. -/
structure Options where
  /-- Where the settings are. -/
  config : String
  /-- Whether merges and reductions are logged. -/
  verbose : Bool
  /-- The arguments behind the options. -/
  rest : List String
  deriving DecidableEq, Repr, Inhabited

/-- Why options cannot be read. -/
inductive OptionError where
  /-- The usage is asked for. -/
  | help
  | malformed (arg : String)
  | unknown (name : String)
  | missingValue (name : String)
  | notBoolean (name value : String)
  deriving DecidableEq, Repr, Inhabited

namespace OptionError

/-- The text of an error; asking for the usage is none. -/
def message? : OptionError → Option String
  | help => none
  | malformed arg => some ("bad flag syntax: " ++ arg)
  | unknown name => some ("flag provided but not defined: -" ++ name)
  | missingValue name => some ("flag needs an argument: -" ++ name)
  | notBoolean name value =>
    some ("invalid boolean value " ++ Text.quote value ++ " for -" ++ name ++ ": parse error")

end OptionError

namespace Options

/-- Where the settings are, if nothing else is said. -/
def defaultConfig : String := "cattypes.yaml"

/-- How the options of a command are used. -/
def usage (command : String) : String :=
  (if command = "" then "Usage:\n" else "Usage of " ++ command ++ ":\n")
    ++ "  -config string\n    \tconfig file (default \"" ++ defaultConfig ++ "\")\n"
    ++ "  -v\tlog constraint merges and reductions\n"

/-- A truth value. -/
def bool? (s : String) : Option Bool :=
  if ["1", "t", "T", "TRUE", "true", "True"].contains s then some true
  else if ["0", "f", "F", "FALSE", "false", "False"].contains s then some false
  else none

/-- What an argument is to the reader of options. -/
inductive Shape where
  /-- The first argument behind the options. -/
  | argument
  /-- The end of the options. -/
  | terminator
  | malformed
  /-- An option, and its value if it is part of the argument. -/
  | option (name : String) (value : Option String)
  deriving DecidableEq, Repr, Inhabited

/-- Splits the name of an option from its value; a name has at least one character. -/
def splitValue (cs : List Char) : String × Option String :=
  let name := cs.take 1 ++ (cs.drop 1).takeWhile (· != '=')
  match cs.drop name.length with
  | [] => (String.ofList name, none)
  | _ :: value => (String.ofList name, some (String.ofList value))

/-- The shape of an argument. -/
def shape (arg : String) : Shape :=
  match arg.toList with
  | '-' :: c :: cs =>
    if c = '-' ∧ cs = [] then .terminator
    else
      let name := if c = '-' then cs else c :: cs
      if name.head? = some '-' ∨ name.head? = some '=' then .malformed
      else let (name, value) := splitValue name; .option name value
  | _ => .argument

/-- Reads options from the front of the arguments. -/
def readFrom (o : Options) : List String → Except OptionError Options
  | [] => .ok { o with rest := [] }
  | arg :: args =>
    match shape arg with
    | .argument => .ok { o with rest := arg :: args }
    | .terminator => .ok { o with rest := args }
    | .malformed => .error (.malformed arg)
    | .option "v" value =>
      match bool? (value.getD "true") with
      | some b => readFrom { o with verbose := b } args
      | none => .error (.notBoolean "v" (value.getD "true"))
    | .option "config" (some value) => readFrom { o with config := value } args
    | .option "config" none =>
      match args with
      | value :: args => readFrom { o with config := value } args
      | [] => .error (.missingValue "config")
    | .option name _ => if name = "help" ∨ name = "h" then .error .help else .error (.unknown name)

/-- **Reads the options of a command.** -/
def parse (args : List String) : Except OptionError Options :=
  readFrom ⟨defaultConfig, false, []⟩ args

end Options

end StackEffect
