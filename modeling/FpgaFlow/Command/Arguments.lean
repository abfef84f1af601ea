import FpgaFlow.Path

/-!
# Arguments of the command line

Options have a long name after two bars, and some a letter after one bar; letters may stand
together. A value follows its option as the next argument, after `=`, or right after the letter; as
an argument of its own it must not begin with a bar. No option is given twice. What follows `--` is
no option.

`Command.parse` gives the command that arguments ask for, or why there is none to run: help or the
version is asked for, or the arguments make no sense (`Stop`). The first of these that the arguments
come to, from left to right, is the one that counts.
-/

namespace FpgaFlow.Command

/-- Why there is no command to run. -/
inductive Stop where
  | help
  | version
  | misuse
  deriving DecidableEq, Repr

/-- What an option does. -/
inductive Kind where
  | flag
  | value (accepts : String → Bool)
  | stop (s : Stop)

/-- An option. -/
structure Rule where
  name : String
  letter : Option Char
  kind : Kind

/-- The options that were given, with their values. -/
abbrev Given := List (String × String)

/-- The options with one more. -/
def add (rule : Rule) (value : String) (given : Given) : Except Stop Given :=
  if (given.lookup rule.name).isSome then .error .misuse
  else match rule.kind with
    | .value accepts =>
      if accepts value then .ok (given ++ [(rule.name, value)]) else .error .misuse
    | .flag => .ok (given ++ [(rule.name, value)])
    | .stop s => .error s

/-- The form of an argument. -/
inductive Form where
  | plain
  | long (name : String) (value : Option String)
  | letters (cs : List Char)
  | endOfOptions

/-- The form that an argument has. -/
def formOf (argument : String) : Form :=
  match argument.toList with
  | ['-', '-'] => .endOfOptions
  | '-' :: '-' :: cs => match Text.cutAt ['='] cs with
    | some (name, value) => .long (String.ofList name) (some (String.ofList value))
    | none => .long (String.ofList cs) none
  | '-' :: c :: cs => .letters (c :: cs)
  | _ => .plain

/-- Whether an argument can be the value of the option before it. -/
def isValue (argument : String) : Bool :=
  match formOf argument with
  | .plain => true
  | _ => false

/-- Reads letters that stand together, and gives the option that waits for its value in the next
argument, if one does. -/
def readLetters (rules : List Rule) (given : Given) :
    List Char → Except Stop (Given × Option Rule)
  | [] => .ok (given, none)
  | c :: cs => match rules.find? fun r => r.letter = some c with
    | none => .error .misuse
    | some rule => match rule.kind, cs with
      | .value _, [] => .ok (given, some rule)
      | .value _, '=' :: value => do return (← add rule (String.ofList value) given, none)
      | .value _, value => do return (← add rule (String.ofList value) given, none)
      | _, _ => do readLetters rules (← add rule "" given) cs

/-- An argument that is no option. -/
def addPlain (plain : Option Rule) (argument : String) (given : Given) : Except Stop Given :=
  match plain with
  | some rule => add rule argument given
  | none => .error .misuse

/-- Reads the arguments of a command. -/
def readFrom (rules : List Rule) (plain : Option Rule) (given : Given) :
    List String → Except Stop Given
  | [] => .ok given
  | argument :: rest => match formOf argument with
    | .endOfOptions => rest.foldlM (fun given a => addPlain plain a given) given
    | .plain => do readFrom rules plain (← addPlain plain argument given) rest
    | .long name value => match rules.find? fun r => r.name = name with
      | none => .error .misuse
      | some rule => match rule.kind, value with
        | .value _, some v => do readFrom rules plain (← add rule v given) rest
        | .value _, none => match rest with
          | v :: rest =>
            if isValue v then do readFrom rules plain (← add rule v given) rest
            else .error .misuse
          | [] => .error .misuse
        | _, some _ => .error .misuse
        | _, none => do readFrom rules plain (← add rule "" given) rest
    | .letters cs => match readLetters rules given cs with
      | .error s => .error s
      | .ok (given, none) => readFrom rules plain given rest
      | .ok (given, some rule) => match rest with
        | v :: rest =>
          if isValue v then do readFrom rules plain (← add rule v given) rest
          else .error .misuse
        | [] => .error .misuse

/-! ### The commands -/

/-- How the report of a command is written. -/
inductive MessageFormat where
  | human
  | json
  deriving DecidableEq, Repr

/-- The arguments of a build. -/
structure BuildArguments where
  manifest : Option Path
  mode : Option String
  directory : Option Path
  name : Option String
  installRoot : Option Path
  noSource : Bool
  noRun : Bool
  format : MessageFormat
  deriving DecidableEq, Repr

/-- The arguments of an inspection. -/
structure ToolchainArguments where
  installRoot : Option Path
  format : MessageFormat
  deriving DecidableEq, Repr

/-- What the command line asks for. -/
inductive Request where
  | build (a : BuildArguments)
  | toolchain (a : ToolchainArguments) (verbose : Bool)
  | completions (shell : String)
  deriving DecidableEq, Repr

def anyText (_ : String) : Bool := true

/-- Paths are not empty. -/
def isPath (s : String) : Bool := s != ""

def isFormat (s : String) : Bool := s == "human" || s == "json"

/-- The options that every command has. -/
def commonRules : List Rule :=
  [⟨"verbose", some 'v', .flag⟩, ⟨"help", some 'h', .stop .help⟩]

/-- The options in front of a command. -/
def frontRules : List Rule :=
  commonRules ++ [⟨"version", some 'V', .stop .version⟩]

def toolchainRules : List Rule :=
  commonRules ++ [⟨"ise-path", none, .value isPath⟩, ⟨"message-format", none, .value isFormat⟩]

def buildRules : List Rule :=
  toolchainRules ++ [⟨"manifest-path", none, .value isPath⟩, ⟨"mode", some 'm', .value anyText⟩,
    ⟨"build-dir", none, .value isPath⟩, ⟨"build-name", none, .value anyText⟩,
    ⟨"no-source", none, .flag⟩, ⟨"no-run", none, .flag⟩]

/-- The shells that completions can be asked for. -/
def shells : List String :=
  ["bash", "elvish", "fish", "powershell", "zsh"]

/-- The names of the commands. -/
def names : List String :=
  ["build", "toolchain", "completions", "help"]

def has (given : Given) (name : String) : Bool :=
  (given.lookup name).isSome

def path? (given : Given) (name : String) : Option Path :=
  (given.lookup name).map Path.mk

def format (given : Given) : MessageFormat :=
  if given.lookup "message-format" = some "json" then .json else .human

/-- The directory of the installations: from the command line, else from the environment. -/
def installRoot? (environment : Option String) (given : Given) : Except Stop (Option Path) :=
  match path? given "ise-path", environment with
  | some p, _ => .ok (some p)
  | none, some value => if isPath value then .ok (some ⟨value⟩) else .error .misuse
  | none, none => .ok none

/-- What the arguments after the name of a command ask for. -/
def parseCommand (environment : Option String) (verbose : Bool) (name : String)
    (arguments : List String) : Except Stop Request :=
  match name with
  | "build" => do
    let given ← readFrom buildRules none [] arguments
    return .build {
      manifest := path? given "manifest-path"
      mode := given.lookup "mode"
      directory := path? given "build-dir"
      name := given.lookup "build-name"
      installRoot := ← installRoot? environment given
      noSource := has given "no-source"
      noRun := has given "no-run"
      format := format given }
  | "toolchain" => do
    let given ← readFrom toolchainRules none [] arguments
    return .toolchain ⟨← installRoot? environment given, format given⟩
      (verbose || has given "verbose")
  | "completions" => do
    let shell : Rule := ⟨"shell", none, .value shells.contains⟩
    let given ← readFrom commonRules (some shell) [] arguments
    match given.lookup "shell" with
    | some s => return .completions s
    | none => .error .misuse
  | "help" => match arguments with
    | [] => .error .help
    | [topic] => .error (if names.contains topic then .help else .misuse)
    | _ => .error .misuse
  | _ => .error .misuse

/-- What arguments ask for, after some options in front of the command. `environment` is the
directory of the installations that the environment names. -/
def parseFrom (environment : Option String) (given : Given) : List String → Except Stop Request
  | [] => .error .misuse
  | argument :: rest => match formOf argument with
    | .endOfOptions => .error .misuse
    | .plain => parseCommand environment (has given "verbose") argument rest
    | .long name value => match frontRules.find? fun r => r.name = name, value with
      | some rule, none => do parseFrom environment (← add rule "" given) rest
      | _, _ => .error .misuse
    | .letters cs => do
      let (given, _) ← readLetters frontRules given cs
      parseFrom environment given rest

/-- What the arguments of the command line ask for. -/
def parse (environment : Option String) (arguments : List String) : Except Stop Request :=
  parseFrom environment [] arguments

end FpgaFlow.Command
