import SchemaLoom.Command.Report

namespace SchemaLoom

/-! The program: the files that a command line leads to are read into a value, and
the command runs on that value. -/

/-- The files read so far, and the folders whose contents are among them. -/
structure Snapshot where
  root : FileNode
  folders : List Address

namespace Snapshot

def put (snapshot : Snapshot) (address : Address) (node : FileNode) : Snapshot :=
  { snapshot with root := node.put address (some snapshot.root) }

/-- Where a path leads on the disk once all links are followed. -/
def realAddress? (address : Address) : IO (Option Address) := do
  try
    let path ← IO.FS.realPath (Address.text address)
    return some (Address.ofText path.toString)
  catch _ => return none

/-- The names in a folder; `none` if there is no folder or they cannot be had. -/
def names? (address : Address) : IO (Option (List String)) := do
  try
    let entries ← (← IO.FS.realPath (Address.text address)).readDir
    return some (entries.toList.map (·.fileName))
  catch _ => return none

/-- Why the system refused, as it says so itself where it has a number for it. -/
def reason : IO.Error → String
  | .permissionDenied _ code details
  | .hardwareFault code details => s!"{details} (os error {code})"
  | error => toString error

/-- A link that leads nowhere: no file has this name. -/
def brokenLink : FileNode := .link "\x00"

/-- A file, with no bytes if none are asked for.  A folder whose names cannot be had is
a place where no walk goes on. -/
def fileNode (read : String → Bool) (address : Address) : IO FileNode := do
  let path := Address.text address
  try
    if ← (← IO.FS.realPath path).isDir then return brokenLink
    if read path then return .file (← IO.FS.readBinFile path)
    return .file .empty
  catch error => return .unreadable (reason error)

mutual

/-- Reads what stands at an address that no link leads to. -/
partial def capture (read : String → Bool) (snapshot : Snapshot) (address : Address) :
    IO Snapshot := do
  if snapshot.folders.contains address then return snapshot
  match ← names? address with
  | some names =>
      let snapshot := snapshot.put address (.folder [])
      let snapshot := { snapshot with folders := address :: snapshot.folders }
      names.foldlM (fun snapshot name => captureEntry read snapshot address name)
        snapshot
  | none => return snapshot.put address (← fileNode read address)

/-- Reads an entry of a folder, and what it leads to if it is a link. -/
partial def captureEntry (read : String → Bool) (snapshot : Snapshot)
    (folder : Address) (name : String) : IO Snapshot := do
  let address := folder ++ [name]
  match ← realAddress? address with
  | none => return snapshot.put address brokenLink
  | some real =>
      if real = address then capture read snapshot address
      else
        let snapshot := snapshot.put address (.link (Address.text real))
        capture read snapshot real

end

/-- Reads all that a path leads through and to. -/
partial def capturePath (read : String → Bool) (snapshot : Snapshot) (here : Address) :
    List String → IO Snapshot
  | [] => capture read snapshot here
  | part :: rest => do
      if part = "" ∨ part = "." then capturePath read snapshot here rest
      else if part = ".." then capturePath read snapshot here.dropLast rest
      else
        let address := here ++ [part]
        match ← realAddress? address with
        | none => return snapshot
        | some real =>
            let snapshot := snapshot.put here (.folder [])
            let snapshot :=
              if real = address then snapshot
              else snapshot.put address (.link (Address.text real))
            capturePath read snapshot real rest

end Snapshot

/-- The files that the paths of a command lead to. -/
def Command.readFiles (command : Command) : IO FileSystem := do
  let options := command.files
  let current ← IO.FS.realPath "."
  let home := Address.ofText current.toString
  let read (path : String) : Bool :=
    options.paths.length == 1 || isWanted options.extensions path
  let empty : Snapshot := ⟨FileNode.put (.folder []) home none, []⟩
  let snapshot ← options.paths.foldlM
    (fun snapshot path =>
      Snapshot.capturePath read snapshot (FileSystem.startOf path home)
        (splitText '/' path))
    empty
  return { root := snapshot.root, home, home_proper := Address.ofText_proper _ }

def usage : String :=
  "Usage: [-v] merge|outline [--json] [--root-type NAMES] "
    ++ "[--graphql-file-exts EXTENSIONS] PATHS..."

def UsageError.exitCode : UsageError → UInt32
  | .displayHelp => 0
  | .displayVersion => 0
  | _ => 2

def Report.emit (report : Report) : IO UInt32 := do
  match report with
  | .success stdout => IO.println stdout
  | .failure stderr => IO.eprintln stderr
  | .aborted => IO.eprintln "A block string is cut inside a character."
  return report.exitCode.toUInt32

end SchemaLoom

open SchemaLoom in
def main (arguments : List String) : IO UInt32 := do
  match Invocation.ofArguments arguments with
  | .error error =>
      IO.eprintln usage
      return error.exitCode
  | .ok { command := none, .. } =>
      IO.println usage
      return 0
  | .ok { command := some command, .. } =>
      (command.run (← command.readFiles)).emit
