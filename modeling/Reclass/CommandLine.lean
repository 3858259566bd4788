import Reclass.Settings
import Reclass.Batch

/-!
# Command line arguments

`ngs [-v] convert [options] [paths]`. Options may stand between the paths; behind `--` everything
is a path. An option is given at most once, by its letter or its word, and its value stands behind
it or directly at it.
-/

namespace Reclass

/-- What `convert` is asked to do. -/
structure ConvertRequest where
  module : String := ""
  settings : Settings := {}
  options : BatchOptions := {}
  /-- The files and directories to convert. Without any, those of the module are. -/
  paths : List String := []
  deriving DecidableEq, Repr

/-- What the program is asked to do. -/
inductive Request where
  | version
  | help
  | convert (request : ConvertRequest)
  deriving DecidableEq, Repr

/-- Why arguments are rejected. -/
inductive UsageError where
  | missingCommand
  | unknownCommand (name : String)
  | unknownArgument (argument : String)
  | missingValue (option : String)
  | unexpectedValue (option : String)
  | repeated (option : String)
  deriving DecidableEq, Repr

/-- The wording of each error. -/
def UsageError.message : UsageError → String
  | .missingCommand => "a command is required"
  | .unknownCommand name => "unknown command '" ++ name ++ "'"
  | .unknownArgument argument => "unexpected argument '" ++ argument ++ "'"
  | .missingValue option => "a value is required for '" ++ option ++ "'"
  | .unexpectedValue option => "'" ++ option ++ "' takes no value"
  | .repeated option => "'" ++ option ++ "' cannot be used more than once"

/-- The options, by their words. -/
inductive Flag where
  | verbose
  | help
  | version
  | dryRun
  | backup
  | module
  | root
  | dir
  | aliases
  deriving DecidableEq, Repr

namespace Flag

/-- The word of an option, behind two dashes. -/
def word : Flag → String
  | .verbose => "verbose"
  | .help => "help"
  | .version => "version"
  | .dryRun => "dry-run"
  | .backup => "backup"
  | .module => "module"
  | .root => "root"
  | .dir => "dir"
  | .aliases => "aliases"

/-- The letter of an option, behind one dash. -/
def letter? : Flag → Option Char
  | .verbose => some 'v'
  | .help => some 'h'
  | .version => some 'V'
  | .module => some 'm'
  | _ => none

/-- Whether an option takes a value. -/
def takesValue : Flag → Bool
  | .module | .root | .dir | .aliases => true
  | _ => false

/-- The options of the program itself. -/
def ofProgram : List Flag := [.verbose, .help, .version]

/-- The options of `convert`. -/
def ofConvert : List Flag :=
  [.verbose, .help, .dryRun, .backup, .module, .root, .dir, .aliases]

end Flag

/-- An argument after it has been recognised. -/
inductive Argument where
  /-- An option, with its value if it takes one. -/
  | flag (flag : Flag) (value : String)
  | plain (text : String)
  deriving DecidableEq, Repr

namespace Argument

/-- Reads a cluster of letters behind one dash. The last letter may need the next argument as its
value; the second part says so. What follows a letter that asks for an answer does not count. -/
def readLetters (known : List Flag) :
    List Char → Except UsageError (List Argument × Option Flag)
  | [] => .ok ([], none)
  | c :: rest =>
    match known.find? fun option => option.letter? == some c with
    | none => .error (.unknownArgument ("-" ++ c.toString))
    | some option =>
      if option.takesValue then
        match rest with
        | [] => .ok ([], some option)
        | '=' :: value => .ok ([.flag option (String.ofList value)], none)
        | value => .ok ([.flag option (String.ofList value)], none)
      else if option = .help ∨ option = .version then .ok ([.flag option ""], none)
      else
        (readLetters known rest).map fun (options, pending) =>
          (.flag option "" :: options, pending)

/-- Reads an option behind two dashes, whose value may follow an equals sign. -/
def readWord (known : List Flag) (text : List Char) :
    Except UsageError (List Argument × Option Flag) :=
  let word := text.takeWhile (· != '=')
  let value := (text.dropWhile (· != '=')).tail?.map String.ofList
  match known.find? fun option => option.word.toList == word with
  | none => .error (.unknownArgument ("--" ++ String.ofList word))
  | some option =>
    match option.takesValue, value with
    | true, some value => .ok ([.flag option value], none)
    | true, none => .ok ([], some option)
    | false, some _ => .error (.unexpectedValue ("--" ++ option.word))
    | false, none => .ok ([.flag option ""], none)

/-- Reads one argument in front of `--`. A single dash is no option. -/
def read (known : List Flag) (text : String) : Except UsageError (List Argument × Option Flag) :=
  match text.toList with
  | '-' :: '-' :: word => readWord known word
  | '-' :: c :: letters => readLetters known (c :: letters)
  | _ => .ok ([.plain text], none)

/-- Whether an argument cannot be the value of an option. -/
def isDashed (text : String) : Bool :=
  match text.toList with
  | '-' :: _ :: _ => true
  | _ => false

end Argument

/-- What has been read of the arguments of `convert`, and the options among them. -/
structure ConvertState where
  request : ConvertRequest := {}
  seen : List Flag := []
  deriving DecidableEq, Repr

namespace ConvertState

/-- The request with an option set. -/
def set (request : ConvertRequest) (value : String) : Flag → ConvertRequest
  | .dryRun => { request with options := { request.options with dryRun := true } }
  | .backup => { request with options := { request.options with backup := true } }
  | .module => { request with module := value }
  | .root => { request with settings := { request.settings with projectRoot := ⟨value⟩ } }
  | .dir => { request with settings := { request.settings with scanDirectory := ⟨value⟩ } }
  | .aliases => { request with settings := { request.settings with renamingFile := some ⟨value⟩ } }
  | .verbose | .help | .version => request

/-- Takes in one argument; nothing is left to do once help is asked for. -/
def add (state : ConvertState) : Argument → Except UsageError (Option ConvertState)
  | .plain text =>
    .ok (some { state with
      request := { state.request with paths := state.request.paths ++ [text] } })
  | .flag flag value =>
    if flag = .help then .ok none
    else if flag ∈ state.seen then .error (.repeated ("--" ++ flag.word))
    else .ok (some ⟨set state.request value flag, flag :: state.seen⟩)

/-- Takes in some arguments. -/
def addAll (state : ConvertState) : List Argument → Except UsageError (Option ConvertState)
  | [] => .ok (some state)
  | argument :: rest => do
    match ← state.add argument with
    | none => return none
    | some state => addAll state rest

/-- Reads the arguments of `convert`. -/
def readAll (state : ConvertState) : List String → Except UsageError Request
  | [] => .ok (.convert state.request)
  | "--" :: paths =>
    .ok (.convert { state.request with paths := state.request.paths ++ paths })
  | text :: rest => do
    let (arguments, pending) ← Argument.read Flag.ofConvert text
    match ← state.addAll arguments with
    | none => return .help
    | some state =>
      match pending, rest with
      | none, rest => readAll state rest
      | some flag, [] => throw (.missingValue ("--" ++ flag.word))
      | some flag, value :: rest =>
        if Argument.isDashed value then throw (.missingValue ("--" ++ flag.word))
        match ← state.add (.flag flag value) with
        | none => return .help
        | some state => readAll state rest

end ConvertState

namespace Request

/-- Takes in options of the program itself: an answer when one of them asks for it, and otherwise
whether they ask for more output. -/
def addProgramFlags (verbose : Bool) : List Argument → Except UsageError (Request ⊕ Bool)
  | [] => .ok (.inr verbose)
  | .flag .version _ :: _ => .ok (.inl .version)
  | .flag .help _ :: _ => .ok (.inl .help)
  | .flag flag _ :: rest =>
    if verbose then .error (.repeated ("--" ++ flag.word)) else addProgramFlags true rest
  | .plain text :: _ => .error (.unknownCommand text)

/-- Reads the arguments in front of the command, then those behind it. -/
def readFrom (verbose : Bool) : List String → Except UsageError Request
  | [] => .error .missingCommand
  | "--" :: [] => .error .missingCommand
  | "--" :: text :: _ => .error (.unknownArgument text)
  | "convert" :: rest => ConvertState.readAll {} rest
  | "help" :: rest =>
    match rest with
    | [] | ["convert"] | ["help"] => .ok .help
    | text :: _ => .error (.unknownCommand text)
  | text :: rest => do
    let (arguments, _) ← Argument.read Flag.ofProgram text
    match ← addProgramFlags verbose arguments with
    | .inl request => return request
    | .inr verbose => readFrom verbose rest

/-- Reads the arguments of the program. -/
def ofArguments (arguments : List String) : Except UsageError Request := readFrom false arguments

end Request

end Reclass
