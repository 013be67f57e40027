import SchemaLoom.Command.Arguments
import SchemaLoom.Files.Discovery
import SchemaLoom.Text.Character
import SchemaLoom.Text.Utf8

namespace SchemaLoom

/-! Commands.  Each discovers files, reads every one of them, merges what they
hold, and reports the result or all that went wrong. -/

inductive FileError where
  | notAFile (path : String)
  | unreadable (path : String) (reason : String)
  | undecodable (path : String) (fault : Utf8.Fault)
  | unparsable (path : String) (error : ParseError)
  deriving DecidableEq, Repr

def FileError.message : FileError → String
  | .notAFile path => s!"{Shown.quote path} is not a file"
  | .unreadable path reason =>
      s!"Unable to read {Shown.quote path}: {reason}: {reason}"
  | .undecodable path fault =>
      s!"{Shown.quote path} is not valid UTF-8: {fault.message}: {fault.message}"
  | .unparsable path error => s!"Error parsing {Shown.quote path}: {error.message}"

/-- Either the walk failed, and no file was looked at, or files did. -/
inductive LoadError where
  | discovery (errors : List DiscoveryError)
  | files (errors : List FileError)
  deriving DecidableEq, Repr

def LoadError.heading : String := "❌ Unable to load SDL files:"

def LoadError.message (error : LoadError) : String :=
  let messages := match error with
    | .discovery errors => errors.map DiscoveryError.message
    | .files errors => errors.map FileError.message
  "\n".intercalate (heading :: messages.map ("  * " ++ ·))

/-- What a command leaves behind.  It is `aborted` if a file holds a block string
that is cut inside a character. -/
inductive Report where
  | success (stdout : String)
  | failure (stderr : String)
  | aborted
  deriving DecidableEq, Repr

def Report.exitCode : Report → Nat
  | .success _ => 0
  | _ => 1

/-- The merged files, and the numbers of files read and skipped. -/
structure Loaded where
  merged : Tree
  read : Nat
  skipped : Nat

namespace FileSystem

def loadTree (files : FileSystem) (path : String) : Except FileError Tree :=
  match files.read? path with
  | none => .error (.notAFile path)
  | some (.error reason) => .error (.unreadable path reason)
  | some (.ok bytes) => do
      let text ← (Utf8.decode bytes.data.toList).mapError (.undecodable path)
      let document ← (Document.ofText text).mapError (.unparsable path)
      return .ofDocument document

def loadedTree? : Except FileError Tree → Option Tree
  | .ok tree => some tree
  | .error _ => none

def loadError? : Except FileError Tree → Option FileError
  | .ok _ => none
  | .error error => some error

/-- Reads all files; if any fails, all that fail are reported. -/
def loadTrees (files : FileSystem) (paths : List String) :
    Except (List FileError) (List Tree) :=
  let results := paths.map files.loadTree
  match results.filterMap loadError? with
  | [] => .ok (results.filterMap loadedTree?)
  | errors => .error errors

def load (files : FileSystem) (options : FileOptions) : Except LoadError Loaded := do
  let found ← (files.discover options.extensions options.paths).mapError .discovery
  let trees ← (files.loadTrees found.paths).mapError .files
  return {
    merged := .mergeAll trees options.roots
    read := trees.length
    skipped := found.skipped }

end FileSystem

def LoadError.isTorn : LoadError → Bool
  | .discovery _ => false
  | .files errors => errors.any fun
    | .unparsable _ .tornMargin => true
    | _ => false

def LoadError.report (error : LoadError) : Report :=
  if error.isTorn then .aborted else .failure error.message

/-! The merged schema as text, with no blanks at its end. -/

def mergeReport (loaded : Loaded) : Report :=
  match loaded.merged.print with
  | .ok text => .success (String.ofList (trimEnd text.toList))
  | .error error => .failure s!"❌ Unable to print merged schema: {error.message}"

/-! The outline: kinds and names, as lines or as JSON.  Names need no escapes. -/

structure OutlineEntry where
  name : String
  kind : Kind

def Tree.outlineEntries (tree : Tree) : List OutlineEntry :=
  tree.outline.map fun (name, _, definition) => ⟨name, definition.kind⟩

/-- Kinds are padded to one width. -/
def kindWidth : Nat := 28

def OutlineEntry.line (entry : OutlineEntry) : String :=
  let kind := entry.kind.text.toList
  let padding := List.replicate (kindWidth - kind.length) ' '
  "  " ++ String.ofList (kind ++ padding) ++ " " ++ entry.name

def OutlineEntry.json (entry : OutlineEntry) : String :=
  "\n".intercalate [
    "  \x7b",
    s!"    \"name\": \"{entry.name}\",",
    s!"    \"kind\": \"{entry.kind.text}\"",
    "  \x7d"]

def outlineJson (entries : List OutlineEntry) : String :=
  if entries.isEmpty then "[]"
  else "[\n" ++ ",\n".intercalate (entries.map OutlineEntry.json) ++ "\n]"

def outlineText (loaded : Loaded) : String :=
  let entries := loaded.merged.outlineEntries
  let counts := s!"{entries.length} definitions from {loaded.read} files"
  s!"✅ {counts} (skipped {loaded.skipped} non-SDL files):\n"
    ++ "\n".intercalate (entries.map OutlineEntry.line)

def outlineReport (json : Bool) (loaded : Loaded) : Report :=
  .success <|
    if json then outlineJson loaded.merged.outlineEntries else outlineText loaded

def Command.files : Command → FileOptions
  | .merge files => files
  | .outline files _ => files

def Command.run (command : Command) (files : FileSystem) : Report :=
  match files.load command.files with
  | .error error => error.report
  | .ok loaded =>
      match command with
      | .merge _ => mergeReport loaded
      | .outline _ json => outlineReport json loaded

end SchemaLoom
