import SchemaLoom.Text.Split

namespace SchemaLoom

/-! Files, folders and symbolic links as a value, and the way a path leads through
them.  The bytes of a file may be kept back, for a reason that the system gives. -/

inductive FileNode where
  | file (bytes : ByteArray)
  | unreadable (reason : String)
  | link (target : String)
  | folder (entries : List (String × FileNode))

/-- The names that lead from the root to a file or folder, without any link. -/
abbrev Address := List String

namespace Address

def text (address : Address) : String :=
  "/" ++ "/".intercalate address

/-- The names in the text of a path. -/
def ofText (text : String) : Address :=
  (splitText '/' text).filter (· ≠ "")

/-- Every name can stand in the text of a path. -/
def Proper (address : Address) : Prop :=
  ∀ name ∈ address, name ≠ "" ∧ '/' ∉ name.toList

instance (address : Address) : Decidable address.Proper :=
  inferInstanceAs (Decidable (∀ name ∈ address, name ≠ "" ∧ '/' ∉ name.toList))

theorem proper_nil : Proper [] :=
  nofun

theorem ofText_proper (text : String) : (ofText text).Proper := by
  intro name hname
  obtain ⟨hpart, hne⟩ := List.mem_filter.mp hname
  exact ⟨of_decide_eq_true hne, not_mem_of_mem_splitText hpart⟩

end Address

namespace FileNode

/-! A folder lists its entries in increasing order of their names. -/

def updateEntry (name : String) (update : Option FileNode → FileNode) :
    List (String × FileNode) → List (String × FileNode)
  | [] => [(name, update none)]
  | (other, node) :: rest =>
      if name < other then (name, update none) :: (other, node) :: rest
      else if name = other then (name, update (some node)) :: rest
      else (other, node) :: updateEntry name update rest

/-- Puts something at an address below a folder and makes the folders on the way.
An empty folder does not replace a folder. -/
def put (node : FileNode) : Address → Option FileNode → FileNode
  | [], some (.folder entries) =>
      match node with
      | .folder [] => .folder entries
      | _ => node
  | [], _ => node
  | name :: rest, some (.folder entries) =>
      .folder (updateEntry name (node.put rest) entries)
  | name :: rest, _ => .folder [(name, node.put rest none)]

def entry? (node : FileNode) (name : String) : Option FileNode :=
  match node with
  | .folder entries => entries.lookup name
  | _ => none

/-- What stands at an address. -/
def at? (node : FileNode) (address : Address) : Option FileNode :=
  address.foldlM entry? node

mutual

def folderCount : FileNode → Nat
  | .folder entries => folderCountIn entries + 1
  | _ => 0

def folderCountIn : List (String × FileNode) → Nat
  | [] => 0
  | (_, node) :: rest => node.folderCount + folderCountIn rest

end

end FileNode

/-- Why a path leads nowhere. -/
inductive PathFault where
  | notFound
  | notAFolder
  | tooManyLinks
  | nameTooLong
  | nulInName
  deriving DecidableEq, Repr

def PathFault.message : PathFault → String
  | .notFound => "No such file or directory (os error 2)"
  | .notAFolder => "Not a directory (os error 20)"
  | .tooManyLinks => "Too many levels of symbolic links (os error 40)"
  | .nameTooLong => "File name too long (os error 36)"
  | .nulInName => "file name contained an unexpected NUL byte"

/-- All files, and the folder that relative paths start from. -/
structure FileSystem where
  root : FileNode
  home : Address
  home_proper : home.Proper := by decide

namespace FileSystem

/-- Where a path starts that is used in a folder. -/
def startOf (path : String) (folder : Address) : Address :=
  if path.toList.head? = some '/' then [] else folder

/-- How many bytes the name of a file or folder may have. -/
def nameLimit : Nat := 255

/-- Follows a path from a folder, through at most so many links. -/
def follow (files : FileSystem) (links : Nat) (here : Address)
    (parts : List String) : Except PathFault Address :=
  match parts with
  | [] => .ok here
  | part :: rest =>
      match files.root.at? here with
      | some (.folder entries) =>
          if part = "" ∨ part = "." then files.follow links here rest
          else if part = ".." then files.follow links here.dropLast rest
          else if nameLimit < part.utf8ByteSize then .error .nameTooLong
          else
            match entries.lookup part with
            | none => .error .notFound
            | some (.link target) =>
                match links with
                | 0 => .error .tooManyLinks
                | links + 1 =>
                    files.follow links (startOf target here)
                      (splitText '/' target ++ rest)
            | some _ => files.follow links (here ++ [part]) rest
      | _ => .error .notAFolder
termination_by (links, parts.length)

/-- How many links one path may lead through. -/
def linkLimit : Nat := 40

/-- The address that a path leads to. -/
def resolve (files : FileSystem) (path : String) : Except PathFault Address :=
  files.follow linkLimit (startOf path files.home) (splitText '/' path)

/-- How many bytes the text of a path may have. -/
def pathLimit : Nat := 4095

/-- The address that a path leads to, if the path is one that files can be reached
by: short enough, and without the character that ends a path. -/
def locate (files : FileSystem) (path : String) : Except PathFault Address :=
  if '\x00' ∈ path.toList then .error .nulInName
  else if pathLimit < path.utf8ByteSize then .error .nameTooLong
  else files.resolve path

/-- The bytes of a file, or why they are kept back; `none` if there is no file. -/
def read? (files : FileSystem) (path : String) : Option (Except String ByteArray) :=
  match files.locate path with
  | .error _ => none
  | .ok address =>
      match files.root.at? address with
      | some (.file bytes) => some (.ok bytes)
      | some (.unreadable reason) => some (.error reason)
      | _ => none

def isFile (files : FileSystem) (path : String) : Bool :=
  (files.read? path).isSome

/-- Follows a path from a folder, through at most so many links, makes the folders
that are missing on the way, and puts something at its end. -/
def make (files : FileSystem) (node : FileNode) (links : Nat) (here : Address)
    (parts : List String) : FileSystem :=
  match parts with
  | [] => { files with root := node.put here (some files.root) }
  | part :: rest =>
      if part = "" ∨ part = "." then files.make node links here rest
      else if part = ".." then files.make node links here.dropLast rest
      else
        let next := here ++ [part]
        match files.root.at? next with
        | some (.link target) =>
            match links with
            | 0 => files
            | links + 1 =>
                files.make node links (startOf target here)
                  (splitText '/' target ++ rest)
        | some (.folder _) => files.make node links next rest
        | _ =>
            let root := FileNode.put (.folder []) next (some files.root)
            { files with root }.make node links next rest
termination_by (links, parts.length)

/-- Puts something at the end of a path. -/
def put (files : FileSystem) (path : String) (node : FileNode) : FileSystem :=
  files.make node linkLimit (startOf path files.home) (splitText '/' path)

end FileSystem

end SchemaLoom
