import SchemaLoom.Files.Walk
import SchemaLoom.Text.Shown

namespace SchemaLoom

/-! Discovery of the files that a command reads.  Files with a wanted extension are
listed by address, in increasing order and each once; the others are counted. -/

/-- The name that a path ends with. -/
def lastName (path : String) : List Char :=
  (splitAtChar '/' path.toList).getLastD []

/-- What stands behind the last dot of a file name, unless the name starts with
that dot. -/
def extension? (path : String) : Option String :=
  let reversed := (lastName path).reverse
  let behind := reversed.takeWhile (· != '.')
  match reversed.dropWhile (· != '.') with
  | _ :: _ :: _ => some (String.ofList behind.reverse)
  | _ => none

/-- A wanted extension may be given with dots in front. -/
def normalExtension (extension : String) : String :=
  String.ofList (extension.toList.dropWhile (· == '.'))

def isWanted (extensions : List String) (path : String) : Bool :=
  (extension? path).any (extensions.map normalExtension).contains

inductive DiscoveryError where
  | walk (error : WalkError)
  | address (shown : String) (fault : PathFault)
  deriving DecidableEq, Repr

def DiscoveryError.message : DiscoveryError → String
  | .walk error => error.message
  | .address shown fault =>
      s!"Unable to canonicalize {Shown.quote shown}: {fault.message}"

/-- Adds an address to an increasing list that may hold it already. -/
def insertAddress (address : Address) : List Address → List Address
  | [] => [address]
  | other :: rest =>
      if address < other then address :: other :: rest
      else if address = other then other :: rest
      else other :: insertAddress address rest

/-- What has been found: files to read, and how many others there were. -/
structure Discovered where
  addresses : List Address
  skipped : Nat
  deriving DecidableEq, Repr

namespace Visit

def error? (extensions : List String) : Visit → Option DiscoveryError
  | .failure error => some (.walk error)
  | .file shown (.error fault) =>
      if isWanted extensions shown then some (.address shown fault) else none
  | .file _ (.ok _) => none
  | .folder _ => none

def wanted? (extensions : List String) : Visit → Option Address
  | .file shown (.ok address) =>
      if isWanted extensions shown then some address else none
  | _ => none

def isSkipped (extensions : List String) : Visit → Bool
  | .file shown _ => !isWanted extensions shown
  | _ => false

end Visit

/-- Sorts the visits of all walks. -/
def discover (extensions : List String) (visits : List Visit) :
    Except (List DiscoveryError) Discovered :=
  match visits.filterMap (Visit.error? extensions) with
  | [] => .ok {
      addresses := (visits.filterMap (Visit.wanted? extensions)).foldl
        (fun found address => insertAddress address found) []
      skipped := visits.countP (Visit.isSkipped extensions) }
  | errors => .error errors

/-- The paths to read, as messages show them. -/
structure FileSet where
  paths : List String
  skipped : Nat
  deriving DecidableEq, Repr

/-- A single argument that is a file is read whatever its extension, under the
path that was given. -/
def Walks.discover (walks : Walks) (extensions arguments : List String) :
    Except (List DiscoveryError) FileSet := do
  let found ← SchemaLoom.discover extensions (arguments.flatMap walks.visits)
  match found.addresses, arguments with
  | [], [path] =>
      if walks.isFile path then return ⟨[path], found.skipped - 1⟩
      else return ⟨[], found.skipped⟩
  | addresses, _ => return ⟨addresses.map Address.text, found.skipped⟩

def FileSystem.discover (files : FileSystem) (extensions arguments : List String) :
    Except (List DiscoveryError) FileSet :=
  files.walks.discover extensions arguments

end SchemaLoom
