import SchemaLoom.Command.Report
import SchemaLoom.Proofs.Addresses
import SchemaLoom.Proofs.MergeEvents
import SchemaLoom.Proofs.Printable
import Mathlib.Data.List.Forall2

namespace SchemaLoom

/-! The merge command from the files to its report.  It writes the merged schema if
every file that was discovered can be read, and otherwise nothing but errors: those of
the discovery, or one for each file that cannot be read. -/

/-! Merged trees can be written. -/

namespace Tree

theorem mergeWith_printable {merged tree : Tree} (roots : List String)
    (hmerged : merged.Printable) (htree : tree.Printable) :
    (mergeWith roots merged tree).Printable := by
  suffices hfold : ∀ trees : Tree × Tree, trees.1.Printable → trees.2.Printable →
      (roots.foldl (fun (trees : Tree × Tree) root => trees.1.consume trees.2 (.name root))
          trees).1.Printable ∧
        (roots.foldl (fun (trees : Tree × Tree) root => trees.1.consume trees.2 (.name root))
          trees).2.Printable by
    obtain ⟨hfirst, hrest⟩ := hfold (merged, tree) hmerged htree
    exact append_printable hfirst hrest
  induction roots with
  | nil => exact fun trees hfirst hsecond => ⟨hfirst, hsecond⟩
  | cons root roots ih =>
      intro trees hfirst hsecond
      obtain ⟨hconsumed, hleft⟩ := consume_printable (.name root) hfirst hsecond
      exact ih _ hconsumed hleft

theorem mergeAll_printable {trees : List Tree} (roots : List String)
    (htrees : ∀ tree ∈ trees, tree.Printable) : (mergeAll trees roots).Printable := by
  suffices hfold : ∀ merged : Tree, merged.Printable →
      (trees.foldl (mergeWith roots) merged).Printable from
    hfold _ (emptyDocument_printable (by simp))
  induction trees with
  | nil => exact fun merged hmerged => hmerged
  | cons tree trees ih =>
      intro merged hmerged
      obtain ⟨htree, hrest⟩ := List.forall_mem_cons.mp htrees
      exact ih hrest _ (mergeWith_printable roots hmerged htree)

theorem exists_print_mergeAll {trees : List Tree} (roots : List String)
    (htrees : ∀ tree ∈ trees, tree.Printable) :
    ∃ text, (mergeAll trees roots).print = .ok text := by
  have hprintable := mergeAll_printable roots htrees
  rw [mergeAll_eq_foldl] at hprintable ⊢
  obtain ⟨hnone, _⟩ | ⟨_, text, _, hprint⟩ := hprintable.print
  · cases hnone
  · exact ⟨text, hprint⟩

end Tree

/-! Files. -/

namespace FileSystem

variable {files : FileSystem} {path : String}

/-- The bytes of the file are a text, and the document is read from that text. -/
def Holds (files : FileSystem) (path : String) (document : Document) : Prop :=
  ∃ bytes text, files.read? path = some (.ok bytes) ∧
    Utf8.decode bytes.data.toList = .ok text ∧ Document.ofText text = .ok document

def Loads (files : FileSystem) (path : String) : Prop :=
  ∃ document, files.Holds path document

/-- Why no document is read from a file. -/
inductive Fails (files : FileSystem) (path : String) : FileError → Prop where
  | notAFile (hread : files.read? path = none) : Fails files path (.notAFile path)
  | unreadable {reason : String} (hread : files.read? path = some (.error reason)) :
      Fails files path (.unreadable path reason)
  | undecodable {bytes : ByteArray} {fault : Utf8.Fault}
      (hread : files.read? path = some (.ok bytes))
      (hdecode : Utf8.decode bytes.data.toList = .error fault) :
      Fails files path (.undecodable path fault)
  | unparsable {bytes : ByteArray} {text : List Char} {error : ParseError}
      (hread : files.read? path = some (.ok bytes))
      (hdecode : Utf8.decode bytes.data.toList = .ok text)
      (hparse : Document.ofText text = .error error) :
      Fails files path (.unparsable path error)

theorem Holds.loadTree {document : Document} (h : files.Holds path document) :
    files.loadTree path = .ok (.ofDocument document) := by
  obtain ⟨bytes, text, hread, hdecode, hparse⟩ := h
  simp only [FileSystem.loadTree, hread, hdecode, hparse, Except.mapError, bind, Except.bind]
  rfl

theorem Fails.loadTree {error : FileError} (h : files.Fails path error) :
    files.loadTree path = .error error := by
  cases h with
  | notAFile hread => simp only [FileSystem.loadTree, hread]
  | unreadable hread => simp only [FileSystem.loadTree, hread]
  | undecodable hread hdecode =>
      simp only [FileSystem.loadTree, hread, hdecode, Except.mapError, bind, Except.bind]
  | unparsable hread hdecode hparse =>
      simp only [FileSystem.loadTree, hread, hdecode, hparse, Except.mapError, bind,
        Except.bind]

theorem loads_or_fails (files : FileSystem) (path : String) :
    files.Loads path ∨ ∃ error, files.Fails path error := by
  match hread : files.read? path with
  | none => exact .inr ⟨_, .notAFile hread⟩
  | some (.error reason) => exact .inr ⟨_, .unreadable hread⟩
  | some (.ok bytes) =>
      cases hdecode : Utf8.decode bytes.data.toList with
      | error fault => exact .inr ⟨_, .undecodable hread hdecode⟩
      | ok text =>
          cases hparse : Document.ofText text with
          | error error => exact .inr ⟨_, .unparsable hread hdecode hparse⟩
          | ok document => exact .inl ⟨document, bytes, text, hread, hdecode, hparse⟩

theorem loadTree_isOk_iff : (files.loadTree path).isOk = true ↔ files.Loads path := by
  constructor
  · intro hok
    rcases files.loads_or_fails path with hloads | ⟨error, hfails⟩
    · exact hloads
    · rw [hfails.loadTree] at hok
      cases hok
  · rintro ⟨document, hholds⟩
    rw [hholds.loadTree]
    rfl

instance (files : FileSystem) (path : String) : Decidable (files.Loads path) :=
  decidable_of_iff _ loadTree_isOk_iff

/-! All files together. -/

/-- The files that cannot be read, in their order. -/
def failing (files : FileSystem) (paths : List String) : List String :=
  paths.filter fun path => ¬files.Loads path

theorem exists_holds {paths : List String} (h : ∀ path ∈ paths, files.Loads path) :
    ∃ documents, List.Forall₂ files.Holds paths documents := by
  induction paths with
  | nil => exact ⟨[], .nil⟩
  | cons path paths ih =>
      obtain ⟨⟨document, hdocument⟩, hpaths⟩ := List.forall_mem_cons.mp h
      obtain ⟨documents, hdocuments⟩ := ih hpaths
      exact ⟨document :: documents, .cons hdocument hdocuments⟩

theorem exists_fails (files : FileSystem) (paths : List String) :
    ∃ errors, List.Forall₂ files.Fails (files.failing paths) errors := by
  unfold failing
  induction paths with
  | nil => exact ⟨[], .nil⟩
  | cons path paths ih =>
      obtain ⟨errors, herrors⟩ := ih
      rw [List.filter_cons]
      split
      · rename_i hfails
        obtain ⟨error, herror⟩ :=
          (files.loads_or_fails path).resolve_left (of_decide_eq_true hfails)
        exact ⟨error :: errors, .cons herror herrors⟩
      · exact ⟨errors, herrors⟩

theorem exists_fails_of_not_loads {paths : List String}
    (h : ¬∀ path ∈ paths, files.Loads path) :
    ∃ errors, errors ≠ [] ∧ List.Forall₂ files.Fails (files.failing paths) errors := by
  obtain ⟨errors, herrors⟩ := files.exists_fails paths
  refine ⟨errors, ?_, herrors⟩
  rintro rfl
  apply h
  simpa [failing] using herrors

theorem loadTrees_of_holds {paths : List String} {documents : List Document}
    (h : List.Forall₂ files.Holds paths documents) :
    files.loadTrees paths = .ok (documents.map .ofDocument) := by
  have hresults : paths.map files.loadTree =
      documents.map fun document => .ok (.ofDocument document) := by
    induction h with
    | nil => rfl
    | cons hfirst _ ih => rw [List.map_cons, List.map_cons, hfirst.loadTree, ih]
  have hfine : (documents.map fun document =>
      (.ok (.ofDocument document) : Except FileError Tree)).filterMap loadError? = [] := by
    simp [List.filterMap_map, Function.comp_def, loadError?]
  simp only [loadTrees, hresults, hfine]
  simp [List.filterMap_map, Function.comp_def, loadedTree?]

theorem filterMap_loadError? {paths : List String} {errors : List FileError}
    (h : List.Forall₂ files.Fails (files.failing paths) errors) :
    (paths.map files.loadTree).filterMap loadError? = errors := by
  unfold failing at h
  induction paths generalizing errors with
  | nil =>
      cases h
      rfl
  | cons path paths ih =>
      rw [List.filter_cons] at h
      rw [List.map_cons]
      split at h
      · cases h with
        | cons hfirst hrest =>
            rw [hfirst.loadTree, List.filterMap_cons, ih hrest]
            rfl
      · rename_i hloads
        obtain ⟨document, hdocument⟩ : files.Loads path := by simpa using hloads
        rw [hdocument.loadTree, List.filterMap_cons, ih h]
        rfl

theorem loadTrees_of_fails {paths : List String} {errors : List FileError}
    (h : List.Forall₂ files.Fails (files.failing paths) errors) (hne : errors ≠ []) :
    files.loadTrees paths = .error errors := by
  unfold loadTrees
  simp only [filterMap_loadError? h]

/-! The command. -/

variable {options : FileOptions}

theorem load_of_undiscovered {errors : List DiscoveryError}
    (h : files.discover options.extensions options.paths = .error errors) :
    files.load options = .error (.discovery errors) := by
  simp only [load, h, Except.mapError, bind, Except.bind]

theorem load_of_fails {found : FileSet} {errors : List FileError}
    (hfound : files.discover options.extensions options.paths = .ok found)
    (h : List.Forall₂ files.Fails (files.failing found.paths) errors) (hne : errors ≠ []) :
    files.load options = .error (.files errors) := by
  simp only [load, hfound, loadTrees_of_fails h hne, Except.mapError, bind, Except.bind]

theorem load_of_holds {found : FileSet} {documents : List Document}
    (hfound : files.discover options.extensions options.paths = .ok found)
    (h : List.Forall₂ files.Holds found.paths documents) :
    files.load options = .ok {
      merged := .mergeAll (documents.map .ofDocument) options.roots
      read := (documents.map Tree.ofDocument).length
      skipped := found.skipped } := by
  simp only [load, hfound, loadTrees_of_holds h, Except.mapError, bind, Except.bind]
  rfl

theorem printable_of_holds {paths : List String} {documents : List Document}
    (h : List.Forall₂ files.Holds paths documents) :
    ∀ tree ∈ documents.map Tree.ofDocument, tree.Printable := by
  induction h with
  | nil => simp
  | cons hfirst _ ih =>
      obtain ⟨bytes, text, _, _, hparse⟩ := hfirst
      exact List.forall_mem_cons.mpr ⟨(Document.ofText_sound hparse).checked, ih⟩

/-- Whatever was loaded can be written once it is merged. -/
theorem exists_print_merged {loaded : Loaded} (h : files.load options = .ok loaded) :
    ∃ text, loaded.merged.print = .ok text := by
  cases hfound : files.discover options.extensions options.paths with
  | error errors =>
      rw [load_of_undiscovered hfound] at h
      cases h
  | ok found =>
      by_cases hloads : ∀ path ∈ found.paths, files.Loads path
      · obtain ⟨documents, hholds⟩ := exists_holds hloads
        rw [load_of_holds hfound hholds] at h
        cases h
        exact Tree.exists_print_mergeAll options.roots (printable_of_holds hholds)
      · obtain ⟨errors, hne, hfails⟩ := exists_fails_of_not_loads hloads
        rw [load_of_fails hfound hfails hne] at h
        cases h

theorem exists_fails_of_mem {paths : List String} {errors : List FileError}
    (h : List.Forall₂ files.Fails paths errors) {error : FileError} (herror : error ∈ errors) :
    ∃ path ∈ paths, files.Fails path error := by
  induction h with
  | nil => cases herror
  | @cons first _ rest _ hfirst _ ih =>
      rcases List.mem_cons.mp herror with rfl | herror
      · exact ⟨first, List.mem_cons_self, hfirst⟩
      · obtain ⟨path, hpath, hfails⟩ := ih herror
        exact ⟨path, List.mem_cons_of_mem _ hpath, hfails⟩

/-- A file with a block string that is cut inside a character. -/
def IsTorn (files : FileSystem) (path : String) : Prop :=
  files.Fails path (.unparsable path .tornMargin)

/-- Without such a file all errors of files are listed. -/
theorem report_of_fails {paths : List String} {errors : List FileError}
    (h : List.Forall₂ files.Fails (files.failing paths) errors)
    (hwhole : ∀ path ∈ paths, ¬files.IsTorn path) :
    (LoadError.files errors).report = .failure (LoadError.files errors).message := by
  have htorn : (LoadError.files errors).isTorn = false := by
    simp only [LoadError.isTorn, List.any_eq_false]
    intro error herror
    obtain ⟨path, hpath, hfails⟩ := exists_fails_of_mem h herror
    have hnot := hwhole path (List.mem_of_mem_filter hpath)
    cases hfails with
    | notAFile hread => simp
    | unreadable hread => simp
    | undecodable hread hdecode => simp
    | @unparsable bytes text error hread hdecode hparse =>
        have hother : error ≠ .tornMargin := by
          rintro rfl
          exact hnot (.unparsable hread hdecode hparse)
        simp [hother]
  rw [LoadError.report, htorn]
  rfl

/-! One file on its own. -/

theorem not_isTorn (content : Except String ByteArray)
    (hread : files.read? path = some content)
    (h : content.toOption.all (fun bytes =>
      (Utf8.decode bytes.data.toList).toOption.all fun text =>
        match Document.ofText text with
        | .error error => error != .tornMargin
        | .ok _ => true) = true) : ¬files.IsTorn path := by
  intro htorn
  cases htorn with
  | unparsable hread' hdecode hparse =>
      rw [hread] at hread'
      cases hread'
      simp [hdecode, Except.toOption, hparse] at h

end FileSystem

namespace Report

def stdout? : Report → Option String
  | .success stdout => some stdout
  | _ => none

def stderr? : Report → Option String
  | .failure stderr => some stderr
  | _ => none

end Report

/-- The heading, and one line for each message. -/
def bulleted (messages : List String) : String :=
  "\n".intercalate ("❌ Unable to load SDL files:" :: messages.map ("  * " ++ ·))

/-- What the merge command reports of files that are not torn. -/
structure MergeReported (files : FileSystem) (options : FileOptions) (report : Report) :
    Prop where
  success_iff :
    report.exitCode = 0 ∧ report.stdout?.isSome ∧ report.stderr? = none ↔
      ∃ found, files.discover options.extensions options.paths = .ok found ∧
        ∀ path ∈ found.paths, files.Loads path
  stdout : ∀ found documents,
    files.discover options.extensions options.paths = .ok found →
    List.Forall₂ files.Holds found.paths documents →
    found.InOrder ∧ ∃ text,
      (Tree.mergeAll (documents.map .ofDocument) options.roots).print = .ok text ∧
        report.stdout? = some (String.ofList (trimEnd text.toList))
  failure :
    (¬∃ found, files.discover options.extensions options.paths = .ok found ∧
      ∀ path ∈ found.paths, files.Loads path) →
    report.exitCode = 1 ∧ report.stdout? = none
  undiscovered : ∀ errors,
    files.discover options.extensions options.paths = .error errors →
    errors ≠ [] ∧ report.stderr? = some (bulleted (errors.map DiscoveryError.message))
  unloaded : ∀ found,
    files.discover options.extensions options.paths = .ok found →
    (¬∀ path ∈ found.paths, files.Loads path) →
    found.InOrder ∧ ∃ errors,
      List.Forall₂ files.Fails (files.failing found.paths) errors ∧
        report.stderr? = some (bulleted (errors.map FileError.message))

namespace Command

variable {files : FileSystem} {options : FileOptions}

theorem run_merge_of_undiscovered {errors : List DiscoveryError}
    (h : files.discover options.extensions options.paths = .error errors) :
    (Command.merge options).run files =
      .failure (bulleted (errors.map DiscoveryError.message)) := by
  have hload : files.load (Command.merge options).files = .error (.discovery errors) :=
    FileSystem.load_of_undiscovered h
  rw [run, hload]
  rfl

theorem run_merge_of_fails {found : FileSet} {errors : List FileError}
    (hfound : files.discover options.extensions options.paths = .ok found)
    (h : List.Forall₂ files.Fails (files.failing found.paths) errors) (hne : errors ≠ [])
    (hwhole : ∀ path ∈ found.paths, ¬files.IsTorn path) :
    (Command.merge options).run files =
      .failure (bulleted (errors.map FileError.message)) := by
  have hload : files.load (Command.merge options).files = .error (.files errors) :=
    FileSystem.load_of_fails hfound h hne
  rw [run, hload]
  exact FileSystem.report_of_fails h hwhole

theorem run_merge_of_holds {found : FileSet} {documents : List Document}
    (hfound : files.discover options.extensions options.paths = .ok found)
    (h : List.Forall₂ files.Holds found.paths documents) :
    ∃ text, (Tree.mergeAll (documents.map .ofDocument) options.roots).print = .ok text ∧
      (Command.merge options).run files = .success (String.ofList (trimEnd text.toList)) := by
  obtain ⟨text, htext⟩ := Tree.exists_print_mergeAll options.roots
    (FileSystem.printable_of_holds h)
  have hload : files.load (Command.merge options).files = _ :=
    FileSystem.load_of_holds hfound h
  refine ⟨text, htext, ?_⟩
  rw [run, hload]
  simp only [mergeReport, Command.files, htext]

theorem run_merge_of_not_loads
    (hwhole : ∀ found, files.discover options.extensions options.paths = .ok found →
      ∀ path ∈ found.paths, ¬files.IsTorn path)
    (h : ¬∃ found, files.discover options.extensions options.paths = .ok found ∧
      ∀ path ∈ found.paths, files.Loads path) :
    ∃ stderr, (Command.merge options).run files = .failure stderr := by
  cases hfound : files.discover options.extensions options.paths with
  | error errors => exact ⟨_, run_merge_of_undiscovered hfound⟩
  | ok found =>
      have hsome : ¬∀ path ∈ found.paths, files.Loads path :=
        fun hloads => h ⟨found, hfound, hloads⟩
      obtain ⟨errors, hne, hfails⟩ := FileSystem.exists_fails_of_not_loads hsome
      exact ⟨_, run_merge_of_fails hfound hfails hne (hwhole found hfound)⟩

/-- A document, a text that is none, and a file that is kept back. -/
def threeFiles : FileSystem where
  root := .folder [
    ("a.graphql", .file "type Query".toUTF8),
    ("b.graphql", .file "type".toUTF8),
    ("c.graphql", .unreadable "Permission denied (os error 13)")]
  home := []
  home_proper := Address.proper_nil

/-- The files in another order than that of their paths. -/
def threePaths : FileOptions where
  extensions := defaultExtensions
  roots := defaultRoots
  paths := ["/c.graphql", "/b.graphql", "/a.graphql"]

theorem locate_threeFiles :
    threeFiles.locate "/a.graphql" = .ok ["a.graphql"] ∧
      threeFiles.locate "/b.graphql" = .ok ["b.graphql"] ∧
      threeFiles.locate "/c.graphql" = .ok ["c.graphql"] :=
  ⟨FileSystem.locate_below_root rfl rfl (by simp) (by decide) (by decide),
    FileSystem.locate_below_root rfl rfl (by simp) (by decide) (by decide),
    FileSystem.locate_below_root rfl rfl (by simp) (by decide) (by decide)⟩

theorem discover_threeFiles :
    threeFiles.discover threePaths.extensions threePaths.paths =
      .ok ⟨["/a.graphql", "/b.graphql", "/c.graphql"], 0⟩ := by
  have hvisits : threePaths.paths.flatMap threeFiles.walk =
      [.file "/c.graphql" (.ok ["c.graphql"]), .file "/b.graphql" (.ok ["b.graphql"]),
        .file "/a.graphql" (.ok ["a.graphql"])] := by
    simp only [threePaths, List.flatMap_cons, List.flatMap_nil, FileSystem.walk,
      locate_threeFiles.1, locate_threeFiles.2.1, locate_threeFiles.2.2]
    rfl
  simp only [FileSystem.discover, Walks.discover, FileSystem.walks, hvisits]
  decide +kernel

theorem not_isTorn_threeFiles :
    ∀ path ∈ ["/a.graphql", "/b.graphql", "/c.graphql"], ¬threeFiles.IsTorn path := by
  refine List.forall_mem_cons.mpr
    ⟨?_, List.forall_mem_cons.mpr ⟨?_, List.forall_mem_singleton.mpr ?_⟩⟩
  · apply FileSystem.not_isTorn (.ok "type Query".toUTF8)
    · rw [FileSystem.read?, locate_threeFiles.1]
      rfl
    · decide +kernel
  · apply FileSystem.not_isTorn (.ok "type".toUTF8)
    · rw [FileSystem.read?, locate_threeFiles.2.1]
      rfl
    · decide +kernel
  · apply FileSystem.not_isTorn (.error "Permission denied (os error 13)")
    · rw [FileSystem.read?, locate_threeFiles.2.2]
      rfl
    · rfl

end Command

end SchemaLoom
