import SchemaLoom.Text.Split
import SchemaLoom.Tree.Basic

namespace SchemaLoom

/-! The command line, read from left to right. -/

/-- Why a command line is not carried out. -/
inductive UsageError where
  | displayHelp
  | displayVersion
  | invalidSubcommand
  | unknownArgument
  | missingRequiredArgument
  | invalidValue
  | argumentConflict
  | tooManyValues
  deriving DecidableEq, Repr

/-- Which files to read, and the types to bring together first. -/
structure FileOptions where
  extensions : List String
  roots : List String
  paths : List String
  deriving DecidableEq, Repr

inductive Command where
  | merge (files : FileOptions)
  | outline (files : FileOptions) (json : Bool)
  deriving DecidableEq, Repr

structure Invocation where
  verbose : Bool
  command : Option Command
  deriving DecidableEq, Repr

def defaultExtensions : List String := ["graphql", "graphqls"]

def defaultRoots : List String := [queryType, mutationType, subscriptionType]

/-! Arguments by their look. -/

inductive Argument where
  | escape
  | long (name : String) (value : Option String)
  | short (flags : List Char)
  | plain (text : String)
  deriving DecidableEq, Repr

/-- A lone dash is a plain argument, and two dashes end the options. -/
def Argument.ofText (text : String) : Argument :=
  match text.toList with
  | ['-', '-'] => .escape
  | '-' :: '-' :: rest =>
      let name := String.ofList (rest.takeWhile (· != '='))
      match rest.dropWhile (· != '=') with
      | [] => .long name none
      | _ :: value => .long name (some (String.ofList value))
  | '-' :: flag :: flags => .short (flag :: flags)
  | _ => .plain text

/-! Arguments behind the command's name.  Paths, and the value of an option that
stands in an argument of its own, are looked at only when the next option comes
or the line ends. -/

inductive ValueOption where
  | extensions
  | roots
  deriving DecidableEq, Repr

def ValueOption.ofName? (name : String) : Option ValueOption :=
  if name = "graphql-file-exts" then some .extensions
  else if name = "root-type" then some .roots
  else none

inductive Pending where
  | nothing
  | value (option : ValueOption)
  | paths (paths : List String)
  deriving DecidableEq, Repr

inductive CommandName where
  | merge
  | outline
  deriving DecidableEq, Repr

def CommandName.ofText? (text : String) : Option CommandName :=
  if text = "merge" then some .merge
  else if text = "outline" then some .outline
  else none

structure CommandState where
  command : CommandName
  extensions : Option (List String)
  roots : Option (List String)
  paths : List String
  json : Bool
  pending : Pending
  escaped : Bool

namespace CommandState

def start (command : CommandName) : CommandState :=
  { command, extensions := none, roots := none, paths := [], json := false
    pending := .nothing, escaped := false }

/-- An option needs its value, and a path may not be empty. -/
def settle (state : CommandState) : Except UsageError CommandState :=
  match state.pending with
  | .nothing => .ok state
  | .value _ => .error .invalidValue
  | .paths paths =>
      if paths.contains "" then .error .invalidValue
      else .ok { state with paths := state.paths ++ paths, pending := .nothing }

/-- Values are divided by commas, and those of one option add up. -/
def store (state : CommandState) (option : ValueOption) (value : String) :
    CommandState :=
  let values := splitText ',' value
  let state := { state with pending := .nothing }
  match option with
  | .extensions =>
      { state with extensions := some (state.extensions.getD [] ++ values) }
  | .roots => { state with roots := some (state.roots.getD [] ++ values) }

def takePath (state : CommandState) (path : String) : Except UsageError CommandState :=
  match state.pending with
  | .nothing => .ok { state with pending := .paths [path] }
  | .paths paths => .ok { state with pending := .paths (paths ++ [path]) }
  | .value _ => .error .invalidValue

def takeHelp (state : CommandState) : Except UsageError CommandState := do
  let _ ← state.settle
  throw .displayHelp

def takeJson (state : CommandState) : Except UsageError CommandState := do
  let state ← state.settle
  if state.json then throw .argumentConflict
  return { state with json := true }

def takeLong (state : CommandState) (name : String) (value : Option String) :
    Except UsageError CommandState :=
  match ValueOption.ofName? name, value with
  | some option, some value => do return (← state.settle).store option value
  | some option, none => do return { ← state.settle with pending := .value option }
  | none, _ =>
      let isJson := name = "json" ∧ state.command = .outline
      if name = "help" ∨ isJson then
        if value.isSome then .error .tooManyValues
        else if isJson then state.takeJson
        else state.takeHelp
      else .error .unknownArgument

def step (state : CommandState) (text : String) : Except UsageError CommandState :=
  if state.escaped then state.takePath text
  else
    match Argument.ofText text with
    | .escape => .ok { state with escaped := true }
    | .long name value => state.takeLong name value
    | .short ('h' :: _) => state.takeHelp
    | .short _ => .error .unknownArgument
    | .plain text =>
        match state.pending with
        | .value option => .ok (state.store option text)
        | _ => state.takePath text

def finish (state : CommandState) : Except UsageError Command := do
  let state ← state.settle
  if state.paths.isEmpty then throw .missingRequiredArgument
  let files : FileOptions := {
    extensions := state.extensions.getD defaultExtensions
    roots := state.roots.getD defaultRoots
    paths := state.paths }
  match state.command with
  | .merge => return .merge files
  | .outline => return .outline files state.json

end CommandState

/-! Arguments up to the command's name. -/

/-- One letter of the flags before the command. -/
def Invocation.takeFlag (verbose : Bool) (flag : Char) : Except UsageError Bool :=
  match flag with
  | 'v' => if verbose then .error .argumentConflict else .ok true
  | 'h' => .error .displayHelp
  | 'V' => .error .displayVersion
  | _ => .error .unknownArgument

def Invocation.longFlag? (name : String) : Option Char :=
  if name = "verbose" then some 'v'
  else if name = "help" then some 'h'
  else if name = "version" then some 'V'
  else none

/-- Help is given on the program or on one of its commands. -/
def Invocation.helpOn (topics : List String) : UsageError :=
  match topics with
  | [] => .displayHelp
  | [topic] =>
      if topic = "help" ∨ (CommandName.ofText? topic).isSome then .displayHelp
      else .invalidSubcommand
  | _ => .invalidSubcommand

def Invocation.ofArgumentsFrom (verbose : Bool) :
    List String → Except UsageError Invocation
  | [] => .ok { verbose, command := none }
  | text :: rest =>
      match Argument.ofText text with
      | .escape =>
          match rest with
          | [] => .ok { verbose, command := none }
          | name :: _ =>
              if name = "help" ∨ (CommandName.ofText? name).isSome then
                .error .unknownArgument
              else .error .invalidSubcommand
      | .long name value =>
          match longFlag? name with
          | none => .error .unknownArgument
          | some flag =>
              if value.isSome then .error .tooManyValues
              else do ofArgumentsFrom (← takeFlag verbose flag) rest
      | .short flags => do ofArgumentsFrom (← flags.foldlM takeFlag verbose) rest
      | .plain name =>
          if name = "help" then .error (helpOn rest)
          else
            match CommandName.ofText? name with
            | none => .error .invalidSubcommand
            | some command => do
                let state ← rest.foldlM CommandState.step (.start command)
                return { verbose, command := some (← state.finish) }

/-- Reads a command line. -/
def Invocation.ofArguments (arguments : List String) :
    Except UsageError Invocation :=
  ofArgumentsFrom false arguments

end SchemaLoom
