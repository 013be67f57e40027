import SchemaLoom.Proofs.FileOrder
import Mathlib.Data.List.Perm.Basic
import Mathlib.Data.List.Sort

namespace SchemaLoom

/-! What a discovery makes of its walks, whatever they visit.  It fails if a walk does or
if a wanted file has no address.  Otherwise it lists the wanted files and accounts for
all others, and neither depends on the order of the arguments or of the visits. -/

def HasExtension (extensions : List String) (path : String) : Prop :=
  ∃ extension ∈ extensions, extension? path = some (normalExtension extension)

theorem isWanted_iff {extensions : List String} {path : String} :
    isWanted extensions path = true ↔ HasExtension extensions path := by
  cases h : extension? path with
  | none => simp [isWanted, HasExtension, h]
  | some found => simp [isWanted, HasExtension, h, eq_comm]

namespace Visit

inductive Fails (extensions : List String) : Visit → Prop where
  | walk (error : WalkError) : Fails extensions (.failure error)
  | address {shown : String} (hwanted : HasExtension extensions shown)
      (fault : PathFault) : Fails extensions (.file shown (.error fault))

def isFile : Visit → Bool
  | .file _ _ => true
  | _ => false

def isWantedFile (extensions : List String) : Visit → Bool
  | .file shown _ => isWanted extensions shown
  | _ => false

variable {extensions : List String} {visit : Visit}

theorem error?_isSome_iff : (visit.error? extensions).isSome ↔ visit.Fails extensions := by
  constructor
  · intro h
    cases visit with
    | failure error => exact .walk error
    | folder shown => cases h
    | file shown address =>
        cases address with
        | ok address => cases h
        | error fault =>
            cases hwanted : isWanted extensions shown with
            | true => exact .address (isWanted_iff.mp hwanted) fault
            | false => simp [error?, hwanted] at h
  · intro h
    cases h with
    | walk error => rfl
    | address hwanted fault => simp [error?, isWanted_iff.mpr hwanted]

theorem wanted?_eq_some_iff {address : Address} :
    visit.wanted? extensions = some address ↔
      ∃ shown, visit = .file shown (.ok address) ∧ HasExtension extensions shown := by
  cases visit with
  | failure error => simp [wanted?]
  | folder shown => simp [wanted?]
  | file shown found =>
      cases found with
      | error fault => simp [wanted?]
      | ok found => simp [wanted?, ← isWanted_iff, and_comm]

end Visit

variable {extensions : List String} {visits : List Visit}

/-- Every file is skipped or wanted, and nothing else is. -/
theorem countP_isSkipped (extensions : List String) (visits : List Visit) :
    visits.countP (Visit.isSkipped extensions) +
        visits.countP (Visit.isWantedFile extensions) =
      visits.countP Visit.isFile := by
  induction visits with
  | nil => rfl
  | cons visit visits ih =>
      cases visit with
      | failure error => exact ih
      | folder shown => exact ih
      | file shown address =>
          rw [List.countP_cons, List.countP_cons, List.countP_cons, ← ih]
          by_cases hwanted : isWanted extensions shown = true <;>
            simp [Visit.isSkipped, Visit.isWantedFile, Visit.isFile, hwanted] <;> omega

theorem filterMap_error?_eq_nil_iff :
    visits.filterMap (Visit.error? extensions) = [] ↔
      ∀ visit ∈ visits, ¬visit.Fails extensions := by
  simp only [List.filterMap_eq_nil_iff, ← Visit.error?_isSome_iff,
    Option.not_isSome_iff_eq_none]

/-- The addresses of the wanted files, and the number of the others. -/
structure Discovered.Lists (found : Discovered) (extensions : List String)
    (visits : List Visit) : Prop where
  sorted : found.addresses.Pairwise (· < ·)
  mem_iff : ∀ address, address ∈ found.addresses ↔
    ∃ shown, .file shown (.ok address) ∈ visits ∧ HasExtension extensions shown
  counted : found.skipped + visits.countP (Visit.isWantedFile extensions) =
    visits.countP Visit.isFile

theorem discover_lists {found : Discovered} (h : discover extensions visits = .ok found) :
    found.Lists extensions visits where
  sorted := discover_sorted h
  mem_iff := by
    intro address
    unfold discover at h
    split at h
    · cases h
      rw [mem_foldl_insertAddress, List.mem_filterMap]
      simp only [Visit.wanted?_eq_some_iff, List.not_mem_nil, or_false]
      constructor
      · rintro ⟨visit, hvisit, shown, rfl, hwanted⟩
        exact ⟨shown, hvisit, hwanted⟩
      · rintro ⟨shown, hvisit, hwanted⟩
        exact ⟨_, hvisit, shown, rfl, hwanted⟩
    · cases h
  counted := by
    unfold discover at h
    split at h
    · cases h
      exact countP_isSkipped extensions visits
    · cases h

theorem exists_discover_iff :
    (∃ found, discover extensions visits = .ok found) ↔
      ∀ visit ∈ visits, ¬visit.Fails extensions := by
  rw [← filterMap_error?_eq_nil_iff]
  unfold discover
  split
  · rename_i hnone
    simp [hnone]
  · rename_i hsome
    simpa using hsome

theorem Discovered.Lists.eq_of_perm {visits' : List Visit} {found found' : Discovered}
    (hperm : visits'.Perm visits) (hfound : found.Lists extensions visits)
    (hfound' : found'.Lists extensions visits') : found' = found := by
  have haddresses : found'.addresses = found.addresses := by
    apply hfound'.sorted.eq_of_mem_iff hfound.sorted
    intro address
    simp only [hfound.mem_iff, hfound'.mem_iff, hperm.mem_iff]
  have hskipped : found'.skipped = found.skipped := by
    have hcounted := hfound.counted
    have hcounted' := hfound'.counted
    rw [hperm.countP_eq, hperm.countP_eq] at hcounted'
    omega
  cases found
  cases found'
  cases haddresses
  cases hskipped
  rfl

theorem discover_perm {visits' : List Visit} {found : Discovered}
    (hperm : visits'.Perm visits) (h : discover extensions visits = .ok found) :
    discover extensions visits' = .ok found := by
  have hnone := exists_discover_iff.mp ⟨found, h⟩
  obtain ⟨found', hfound'⟩ : ∃ found', discover extensions visits' = .ok found' := by
    apply exists_discover_iff.mpr
    intro visit hvisit
    exact hnone visit (hperm.mem_iff.mp hvisit)
  rw [hfound', (discover_lists h).eq_of_perm hperm (discover_lists hfound')]

namespace Walks

variable {walks other : Walks} {arguments arguments' : List String} {path : String}

/-- The only argument is a file without a wanted extension. -/
structure IsFallback (walks : Walks) (extensions arguments : List String)
    (path : String) : Prop where
  arguments_eq : arguments = [path]
  isFile : walks.isFile path = true
  unwanted : ¬HasExtension extensions path

theorem discover_of_isFallback (h : walks.IsFallback extensions arguments path) :
    walks.discover extensions arguments = .ok ⟨[path], 0⟩ := by
  obtain ⟨rfl, hfile, hunwanted⟩ := h
  obtain ⟨address, hvisits⟩ := walks.visits_of_isFile path hfile
  have hskips : isWanted extensions path = false := by
    simpa [← isWanted_iff] using hunwanted
  have hfound : SchemaLoom.discover extensions [.file path address] = .ok ⟨[], 1⟩ := by
    cases address <;>
      simp [SchemaLoom.discover, List.filterMap_cons, Visit.error?, Visit.wanted?,
        Visit.isSkipped, hskips]
  rw [discover, List.flatMap_singleton, hvisits, hfound]
  simp only [bind, Except.bind, hfile, if_true]
  rfl

theorem discover_of_not_isFallback {discovered : Discovered}
    (hnot : ∀ path, ¬walks.IsFallback extensions arguments path)
    (h : SchemaLoom.discover extensions (arguments.flatMap walks.visits) = .ok discovered) :
    walks.discover extensions arguments =
      .ok ⟨discovered.addresses.map Address.text, discovered.skipped⟩ := by
  simp only [discover, h, bind, Except.bind]
  split
  · rename_i path hnone
    split
    · rename_i hfile
      -- The file has a wanted extension and an address, so the list is not empty.
      obtain ⟨address, hvisits⟩ := walks.visits_of_isFile path hfile
      have hwanted : HasExtension extensions path :=
        not_not.mp fun hunwanted => hnot path ⟨rfl, hfile, hunwanted⟩
      rw [List.flatMap_singleton, hvisits] at h
      have hfine := exists_discover_iff.mp ⟨_, h⟩ _ (List.mem_singleton_self _)
      cases address with
      | error fault => exact absurd (.address hwanted fault) hfine
      | ok address =>
          have hmem := ((discover_lists h).mem_iff address).mpr
            ⟨path, List.mem_singleton_self _, hwanted⟩
          rw [hnone] at hmem
          cases hmem
    · rw [hnone]
      rfl
  · rfl

theorem exists_error_iff :
    (∃ errors, walks.discover extensions arguments = .error errors) ↔
      ∃ path ∈ arguments, ∃ visit ∈ walks.visits path, visit.Fails extensions := by
  constructor
  · rintro ⟨errors, herrors⟩
    by_contra hnone
    have hfine : ∀ visit ∈ arguments.flatMap walks.visits, ¬visit.Fails extensions := by
      intro visit hvisit hfails
      obtain ⟨path, hpath, hvisit⟩ := List.mem_flatMap.mp hvisit
      exact hnone ⟨path, hpath, visit, hvisit, hfails⟩
    obtain ⟨discovered, hdiscovered⟩ := exists_discover_iff.mpr hfine
    obtain ⟨found, hfound, _⟩ := exists_discover hdiscovered
    rw [hfound] at herrors
    cases herrors
  · rintro ⟨path, hpath, visit, hvisit, hfails⟩
    cases hvisits : SchemaLoom.discover extensions (arguments.flatMap walks.visits) with
    | error errors => exact ⟨errors, discover_of_errors hvisits⟩
    | ok discovered =>
        have hmem := List.mem_flatMap.mpr ⟨path, hpath, hvisit⟩
        exact absurd hfails (exists_discover_iff.mp ⟨_, hvisits⟩ visit hmem)

/-- The same walks, each with its visits in some other order. -/
structure Reorders (other walks : Walks) : Prop where
  visits : ∀ path, (other.visits path).Perm (walks.visits path)
  isFile : other.isFile = walks.isFile

theorem Reorders.symm (h : other.Reorders walks) : walks.Reorders other :=
  ⟨fun path => (h.visits path).symm, h.isFile.symm⟩

theorem Reorders.isFallback (h : other.Reorders walks) (hperm : arguments'.Perm arguments)
    (hfallback : walks.IsFallback extensions arguments path) :
    other.IsFallback extensions arguments' path where
  arguments_eq := List.perm_singleton.mp (hfallback.arguments_eq ▸ hperm)
  isFile := h.isFile ▸ hfallback.isFile
  unwanted := hfallback.unwanted

theorem Reorders.discover_eq (h : other.Reorders walks) (hperm : arguments'.Perm arguments)
    {found : FileSet} (hfound : walks.discover extensions arguments = .ok found) :
    other.discover extensions arguments' = .ok found := by
  by_cases hfallback : ∃ path, walks.IsFallback extensions arguments path
  · obtain ⟨path, hpath⟩ := hfallback
    rw [discover_of_isFallback (h.isFallback hperm hpath), ← hfound,
      discover_of_isFallback hpath]
  · have hnot := not_exists.mp hfallback
    have hnot' : ∀ path, ¬other.IsFallback extensions arguments' path :=
      fun path hpath => hnot path (h.symm.isFallback hperm.symm hpath)
    cases hvisits : SchemaLoom.discover extensions (arguments.flatMap walks.visits) with
    | error errors =>
        rw [discover_of_errors hvisits] at hfound
        cases hfound
    | ok discovered =>
        have hreordered := discover_perm
          (hperm.flatMap fun path _ => h.visits path) hvisits
        rw [discover_of_not_isFallback hnot' hreordered, ← hfound,
          discover_of_not_isFallback hnot hvisits]

/-- A discovery fails exactly if a walk does or a wanted file has no address.  Otherwise
its files are the wanted ones in order, each once, and the others are counted; a single
file that is not wanted is read under its own path.  The order of arguments and visits
does not matter. -/
theorem discover_files (walks : Walks) (extensions arguments : List String) :
    ((∃ errors, walks.discover extensions arguments = .error errors) ↔
      ∃ path ∈ arguments, ∃ visit ∈ walks.visits path, visit.Fails extensions) ∧
    (∀ found, walks.discover extensions arguments = .ok found →
      (∀ path, ¬walks.IsFallback extensions arguments path) →
      ∃ discovered : Discovered,
        found = ⟨discovered.addresses.map Address.text, discovered.skipped⟩ ∧
        discovered.Lists extensions (arguments.flatMap walks.visits)) ∧
    (∀ path, walks.IsFallback extensions arguments path →
      walks.discover extensions arguments = .ok ⟨[path], 0⟩) ∧
    ∀ (other : Walks) (arguments' : List String), other.Reorders walks →
      arguments'.Perm arguments → ∀ found,
        (other.discover extensions arguments' = .ok found ↔
          walks.discover extensions arguments = .ok found) := by
  refine ⟨exists_error_iff, ?_, ?_, ?_⟩
  · intro found hfound hnot
    cases hvisits : SchemaLoom.discover extensions (arguments.flatMap walks.visits) with
    | error errors =>
        rw [discover_of_errors hvisits] at hfound
        cases hfound
    | ok discovered =>
        rw [discover_of_not_isFallback hnot hvisits] at hfound
        cases hfound
        exact ⟨discovered, rfl, discover_lists hvisits⟩
  · intro path hfallback
    exact discover_of_isFallback hfallback
  · intro other arguments' hreorders hperm found
    exact ⟨hreorders.symm.discover_eq hperm.symm, hreorders.discover_eq hperm⟩

/-- A schema and a note, both right below the root. -/
def schemaAndNote : FileSystem where
  root := .folder [("a.graphql", .file ByteArray.empty), ("b.txt", .file ByteArray.empty)]
  home := []
  home_proper := Address.proper_nil

theorem visits_schemaAndNote :
    schemaAndNote.walks.visits "/" = [.folder "/", .file "/a.graphql" (.ok ["a.graphql"]),
        .file "/b.txt" (.ok ["b.txt"])] ∧
      schemaAndNote.walks.visits "/a.graphql" =
        [.file "/a.graphql" (.ok ["a.graphql"])] := by
  have hroot : schemaAndNote.locate "/" = .ok [] := FileSystem.locate_root rfl
  have hlocate : schemaAndNote.locate "/a.graphql" = .ok ["a.graphql"] :=
    FileSystem.locate_below_root rfl rfl (by simp) (by decide) (by decide)
  have hschema : schemaAndNote.resolve "/a.graphql" = .ok ["a.graphql"] :=
    FileSystem.resolve_below_root rfl rfl (by simp) (by decide) (by decide)
  have hnote : schemaAndNote.resolve "/b.txt" = .ok ["b.txt"] :=
    FileSystem.resolve_below_root rfl rfl (by simp) (by decide) (by decide)
  constructor
  · have hwalk : schemaAndNote.walk "/" = [.folder "/",
        .file "/a.graphql" (schemaAndNote.resolve "/a.graphql"),
        .file "/b.txt" (schemaAndNote.resolve "/b.txt")] := by
      simp only [FileSystem.walk, hroot]
      rfl
    change schemaAndNote.walk "/" = _
    rw [hwalk, hschema, hnote]
  · change schemaAndNote.walk "/a.graphql" = _
    simp only [FileSystem.walk, hlocate]
    rfl

theorem isFallback_schemaAndNote :
    schemaAndNote.walks.IsFallback [".graphql"] ["/b.txt"] "/b.txt" where
  arguments_eq := rfl
  isFile := by
    have hnote : schemaAndNote.locate "/b.txt" = .ok ["b.txt"] :=
      FileSystem.locate_below_root rfl rfl (by simp) (by decide) (by decide)
    change schemaAndNote.isFile "/b.txt" = true
    rw [FileSystem.isFile, FileSystem.read?, hnote]
    rfl
  unwanted := by
    rw [← isWanted_iff]
    decide

/-- The schema is met twice, on the way from the root and by its own path. -/
theorem discover_files_schemaAndNote :
    (schemaAndNote.walks.discover [".graphql"] ["/", "/a.graphql"] =
        .ok ⟨["/a.graphql"], 1⟩ ∧
      ∃ discovered : Discovered, discovered.addresses.map Address.text = ["/a.graphql"] ∧
        discovered.Lists [".graphql"]
          (["/", "/a.graphql"].flatMap schemaAndNote.walks.visits)) ∧
    schemaAndNote.walks.discover [".graphql"] ["/a.graphql", "/"] =
      .ok ⟨["/a.graphql"], 1⟩ ∧
    schemaAndNote.walks.IsFallback [".graphql"] ["/b.txt"] "/b.txt" ∧
    schemaAndNote.walks.discover [".graphql"] ["/b.txt"] = .ok ⟨["/b.txt"], 0⟩ := by
  have hfound : schemaAndNote.walks.discover [".graphql"] ["/", "/a.graphql"] =
      .ok ⟨["/a.graphql"], 1⟩ := by
    rw [discover, List.flatMap_cons, List.flatMap_singleton, visits_schemaAndNote.1,
      visits_schemaAndNote.2]
    decide
  obtain ⟨_, hlists, _, hperm⟩ :=
    discover_files schemaAndNote.walks [".graphql"] ["/", "/a.graphql"]
  obtain ⟨discovered, heq, hdiscovered⟩ := hlists _ hfound
    fun path hfallback => absurd hfallback.arguments_eq (by simp)
  refine ⟨⟨hfound, discovered, (congrArg FileSet.paths heq).symm, hdiscovered⟩, ?_,
    isFallback_schemaAndNote, ?_⟩
  · exact (hperm schemaAndNote.walks ["/a.graphql", "/"] ⟨fun _ => .refl _, rfl⟩
      (List.Perm.swap _ _ _) _).mpr hfound
  · exact (discover_files schemaAndNote.walks [".graphql"] ["/b.txt"]).2.2.1 _
      isFallback_schemaAndNote

end Walks

end SchemaLoom
