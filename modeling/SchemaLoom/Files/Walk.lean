import SchemaLoom.Files.FileSystem

namespace SchemaLoom

/-! Walks: all files and folders at or below a path, with links followed.  A walk names
things by the path it came along, not by their address. -/

inductive WalkError where
  | path (shown : String) (fault : PathFault)
  | loop (link ancestor : String)
  deriving DecidableEq, Repr

def WalkError.message : WalkError → String
  | .path shown fault =>
      s!"IO error for operation on {shown}: {fault.message}: {fault.message}"
  | .loop link ancestor =>
      s!"File system loop found: {link} points to an ancestor {ancestor}"

/-- A file or folder that a walk has come to, or a place where it could not go on. -/
inductive Visit where
  | file (shown : String) (address : Except PathFault Address)
  | folder (shown : String)
  | failure (error : WalkError)

def joinPath (folder name : String) : String :=
  if folder.toList.getLast? = some '/' then folder ++ name
  else folder ++ "/" ++ name

/-- An open folder of a walk: its path, and where it is. -/
structure OpenFolder where
  shown : String
  address : Address

namespace FileSystem

/-- Walks a folder whose open folders, nearest first, include itself.  What is in
it is reached by the path from where the walk began, with all the links on it.  A
link to an open folder would never end. -/
def walkOpen (files : FileSystem) :
    Nat → OpenFolder → List OpenFolder → List Visit
  | 0, _, _ => []
  | depth + 1, folder, above =>
      let entries := match files.root.at? folder.address with
        | some (.folder entries) => entries
        | _ => []
      let opened := folder :: above
      entries.flatMap fun (name, node) =>
        let shown := joinPath folder.shown name
        match node, files.locate shown with
        | .file _, _ => [.file shown (files.resolve shown)]
        | .unreadable _, _ => [.file shown (files.resolve shown)]
        | .folder _, .ok address =>
            .folder shown :: files.walkOpen depth ⟨shown, address⟩ opened
        | .link _, .ok target =>
            match files.root.at? target with
            | some (.folder _) =>
                match opened.find? (·.address == target) with
                | some ancestor => [.failure (.loop shown ancestor.shown)]
                | none => .folder shown :: files.walkOpen depth ⟨shown, target⟩ opened
            | _ => [.file shown (.ok target)]
        | _, .error fault => [.failure (.path shown fault)]

/-- Links lead into a folder at most once on the way down, and between two links
there are no more steps than folders. -/
def depthBound (files : FileSystem) : Nat :=
  (files.root.folderCount + 1) * (files.root.folderCount + 1)

def walk (files : FileSystem) (path : String) : List Visit :=
  match files.locate path with
  | .error fault => [.failure (.path path fault)]
  | .ok address =>
      match files.root.at? address with
      | some (.folder _) =>
          .folder path :: files.walkOpen files.depthBound ⟨path, address⟩ []
      | _ => [.file path (.ok address)]

theorem walk_of_isFile {files : FileSystem} {path : String} (h : files.isFile path = true) :
    ∃ address, files.walk path = [.file path (.ok address)] := by
  unfold isFile read? at h
  cases hlocate : files.locate path with
  | error fault => simp [hlocate] at h
  | ok address =>
      simp only [hlocate] at h
      refine ⟨address, ?_⟩
      simp only [walk, hlocate]
      split
      · rename_i hfolder
        simp [hfolder] at h
      · rfl

end FileSystem

/-- What a discovery knows of the files: the visits of a walk that starts at a path, and
whether the path is a file.  A walk that starts at a file has no other visit. -/
structure Walks where
  visits : String → List Visit
  isFile : String → Bool
  visits_of_isFile : ∀ path, isFile path = true →
    ∃ address, visits path = [.file path address]

def FileSystem.walks (files : FileSystem) : Walks where
  visits := files.walk
  isFile := files.isFile
  visits_of_isFile := fun _ h =>
    let ⟨address, hwalk⟩ := walk_of_isFile h
    ⟨.ok address, hwalk⟩

end SchemaLoom
