import SchemaLoom.Proofs.MergeCommand
import SchemaLoom.Proofs.MergeFold

namespace SchemaLoom

/-! Outlines.  An outline has for each name the definition that a search by the name
finds.  Where no key is repeated, as in every merged tree, it has all definitions but
the schema, so the outline command leaves out nothing else of what the merge command
writes. -/

theorem Definition.selects_name_eq (name : String) (definition : Definition) :
    (Matcher.name name).selects definition = decide (definition.name? = some name) := by
  rw [Bool.eq_iff_iff, decide_eq_true_iff, selects_name_iff, key_eq_named_iff]

namespace Tree

/-! The loop that lists definitions. -/

section

variable {listed : List (String × Nat × Definition)}

theorem listFirst_of_none {entry : Nat × Definition} (h : entry.2.name? = none) :
    listFirst listed entry = listed := by
  simp only [listFirst, h]

theorem listFirst_of_some {entry : Nat × Definition} {name : String}
    (h : entry.2.name? = some name) :
    listFirst listed entry =
      listed ++ if name ∈ listed.map Prod.fst then [] else [(name, entry)] := by
  have hany : (listed.any fun known => known.1 == name) = true ↔
      name ∈ listed.map Prod.fst := by
    simp
  simp only [listFirst, h, hany]
  split <;> simp

/-- The entry of a name is kept once it is there, and is else the first that comes. -/
theorem lookup_foldl_listFirst (name : String) (entries : List (Nat × Definition))
    (listed : List (String × Nat × Definition)) :
    (entries.foldl listFirst listed).lookup name =
      (listed.lookup name).or (entries.find? fun entry => entry.2.name? = some name) := by
  induction entries generalizing listed with
  | nil => simp
  | cons first rest ih =>
      rw [List.foldl_cons, ih, List.find?_cons]
      cases hfirst : first.2.name? with
      | none => simp [listFirst_of_none hfirst]
      | some other =>
          rw [listFirst_of_some hfirst, List.lookup_append, Option.or_assoc]
          by_cases hname : other = name
          · subst hname
            by_cases hknown : other ∈ listed.map Prod.fst
            · obtain ⟨entry, hentry⟩ : ∃ entry, listed.lookup other = some entry := by
                rw [← Option.isSome_iff_exists, List.lookup_isSome_iff]
                simpa using hknown
              simp [hentry]
            · simp [hknown]
          · have hother : (name == other) = false := by simpa using Ne.symm hname
            split <;> simp [hname, List.lookup_cons, hother]

theorem map_fst_foldl_listFirst (entries : List (Nat × Definition)) :
    (entries.foldl listFirst []).map Prod.fst =
      ((entries.map Prod.snd).filterMap Definition.name?).eraseDups := by
  induction entries using List.reverseRecOn with
  | nil => rfl
  | append_singleton entries last ih =>
      rw [List.foldl_concat, List.map_append, List.filterMap_append]
      cases hlast : last.2.name? with
      | none => simp [listFirst_of_none hlast, hlast, ih]
      | some name =>
          have hlisted : ([last].map Prod.snd).filterMap Definition.name? = [name] := by
            simp [hlast]
          rw [listFirst_of_some hlast, hlisted, eraseDups_concat, List.map_append, ih]
          split <;> rfl

/-- Where no name is repeated, every definition that has a name is listed. -/
theorem definitions_foldl_listFirst (entries : List (Nat × Definition))
    (listed : List (String × Nat × Definition))
    (h : (listed.map Prod.fst ++ (entries.map Prod.snd).filterMap Definition.name?).Nodup) :
    ((entries.foldl listFirst listed).map fun entry => entry.2.2) =
      (listed.map fun entry => entry.2.2) ++
        (entries.map Prod.snd).filter fun definition => definition.name?.isSome := by
  induction entries generalizing listed with
  | nil => simp
  | cons first rest ih =>
      rw [List.foldl_cons]
      cases hfirst : first.2.name? with
      | none =>
          rw [listFirst_of_none hfirst, ih listed (by simpa [hfirst] using h)]
          simp [hfirst]
      | some name =>
          have hnames : ((first :: rest).map Prod.snd).filterMap Definition.name? =
              name :: (rest.map Prod.snd).filterMap Definition.name? := by
            simp [hfirst]
          rw [hnames] at h
          have hnew : name ∉ listed.map Prod.fst := by
            intro hmem
            exact (List.nodup_append.mp h).2.2 name hmem name List.mem_cons_self rfl
          rw [listFirst_of_some hfirst, if_neg hnew, ih _ (by simpa using h)]
          simp [hfirst]

theorem named_foldl_listFirst (entries : List (Nat × Definition))
    (h : ∀ entry ∈ listed, entry.2.2.name? = some entry.1) :
    ∀ entry ∈ entries.foldl listFirst listed, entry.2.2.name? = some entry.1 := by
  induction entries generalizing listed with
  | nil => exact h
  | cons first rest ih =>
      apply ih
      cases hfirst : first.2.name? with
      | none => rwa [listFirst_of_none hfirst]
      | some name =>
          rw [listFirst_of_some hfirst]
          refine List.forall_mem_append.mpr ⟨h, ?_⟩
          split
          · exact List.forall_mem_nil _
          · exact List.forall_mem_singleton.mpr hfirst

end

/-! Every tree. -/

theorem map_snd_entries (definitions : List Definition) :
    (definitions.zipIdx.map Prod.swap).map Prod.snd = definitions := by
  rw [List.map_map]
  exact List.zipIdx_map_fst 0 definitions

theorem lookup_outline (tree : Tree) (name : String) :
    tree.outline.lookup name =
      (tree.definitions.zipIdx.find? fun entry => (Matcher.name name).selects entry.1).map
        Prod.swap := by
  rw [outline, lookup_foldl_listFirst, List.find?_map]
  simp only [List.lookup_nil, Option.none_or, Definition.selects_name_eq]
  rfl

theorem lookup_outline_definition (tree : Tree) (name : String) :
    (tree.outline.lookup name).map Prod.snd = tree.find? (.name name) := by
  rw [lookup_outline, find?, ← List.zipIdx_map_fst 0 tree.definitions, List.find?_map,
    List.zipIdx_map_fst, Option.map_map]
  rfl

theorem lookup_outline_place (tree : Tree) (name : String) :
    (tree.outline.lookup name).map Prod.fst = tree.findIndex? (.name name) := by
  rw [lookup_outline, findIndex?, List.findIdx?_eq_fst_find?_zipIdx, Option.map_map]
  rfl

theorem map_fst_outline (tree : Tree) :
    tree.outline.map Prod.fst = (tree.definitions.filterMap Definition.name?).eraseDups := by
  rw [outline, map_fst_foldl_listFirst, map_snd_entries]

theorem named_of_mem_outline {tree : Tree} :
    ∀ entry ∈ tree.outline, entry.2.2.name? = some entry.1 :=
  named_foldl_listFirst _ (List.forall_mem_nil _)

/-! Trees without repeated keys. -/

theorem Unique.nodup_names {tree : Tree} (h : tree.Unique) :
    (tree.definitions.filterMap Definition.name?).Nodup := by
  have hkeys : tree.definitions.Pairwise fun ours theirs => ours.key ≠ theirs.key :=
    List.pairwise_map.mp h
  refine List.pairwise_filterMap.mpr (hkeys.imp ?_)
  intro ours theirs hne name hours name' htheirs heq
  subst heq
  apply hne
  rw [Definition.key_eq_named_iff.mpr hours, Definition.key_eq_named_iff.mpr htheirs]

theorem Unique.outline_definitions {tree : Tree} (h : tree.Unique) :
    (tree.outline.map fun entry => entry.2.2) =
      tree.definitions.filter fun definition => definition.name?.isSome := by
  have hnames := h.nodup_names
  rw [← map_snd_entries tree.definitions] at hnames
  rw [outline, definitions_foldl_listFirst _ [] hnames, map_snd_entries]
  rfl

/-- How many definitions are schemas, the only ones without a name. -/
def schemaCount (tree : Tree) : Nat :=
  tree.definitions.countP fun definition => definition.kind = .schema

theorem Unique.schemaCount_le {tree : Tree} (h : tree.Unique) : tree.schemaCount ≤ 1 := by
  have hschema := length_ofKey_le h (.nameless .schema)
  simp only [ofKey, Definition.key_eq_schema_iff] at hschema
  rwa [schemaCount, List.countP_eq_length_filter]

theorem Unique.length_outline {tree : Tree} (h : tree.Unique) :
    tree.outline.length + tree.schemaCount = tree.definitions.length := by
  have hlength : tree.outline.length =
      tree.definitions.countP fun definition => definition.name?.isSome := by
    rw [List.countP_eq_length_filter, ← h.outline_definitions, List.length_map]
  have hschema : tree.schemaCount = tree.definitions.countP fun definition =>
      decide ¬definition.name?.isSome = true := by
    apply List.countP_congr
    intro definition _
    cases definition <;> simp [Definition.kind, Definition.name?]
  rw [hlength, hschema]
  exact (List.length_eq_countP_add_countP _).symm

/-- What the outline of any tree says of a search by name. -/
structure Outlined (tree : Tree) : Prop where
  definition : ∀ name, (tree.outline.lookup name).map Prod.snd = tree.find? (.name name)
  place : ∀ name, (tree.outline.lookup name).map Prod.fst = tree.findIndex? (.name name)
  names : tree.outline.map Prod.fst =
    (tree.definitions.filterMap Definition.name?).eraseDups
  named : ∀ entry ∈ tree.outline, entry.2.2.name? = some entry.1

theorem outlined (tree : Tree) : tree.Outlined where
  definition := lookup_outline_definition tree
  place := lookup_outline_place tree
  names := map_fst_outline tree
  named := named_of_mem_outline

/-- Nothing but a schema is missing from the outline. -/
structure OutlinedWhole (tree : Tree) : Prop where
  definitions : (tree.outline.map fun entry => entry.2.2) =
    tree.definitions.filter fun definition => definition.name?.isSome
  length : tree.outline.length + tree.schemaCount = tree.definitions.length
  schemaCount_le : tree.schemaCount ≤ 1

theorem Unique.outlinedWhole {tree : Tree} (h : tree.Unique) : tree.OutlinedWhole where
  definitions := h.outline_definitions
  length := h.length_outline
  schemaCount_le := h.schemaCount_le

end Tree

/-! Both commands on the same files. -/

namespace FileSystem

variable {files : FileSystem} {options : FileOptions}

theorem merged_eq_mergeAll {loaded : Loaded} (h : files.load options = .ok loaded) :
    ∃ trees, loaded.merged = .mergeAll trees options.roots := by
  simp only [load, bind, Except.bind] at h
  split at h
  · cases h
  · split at h
    · cases h
    · rename_i trees _
      cases h
      exact ⟨trees, rfl⟩

end FileSystem

namespace Command

variable {files : FileSystem} {options : FileOptions}

/-- The merge command writes a tree, and the outline command, as text or as JSON, has an
entry for each of its definitions but the schema. -/
structure OutlineReported (files : FileSystem) (options : FileOptions) (loaded : Loaded) :
    Prop where
  merge : ∃ text, loaded.merged.print = .ok text ∧
    (Command.merge options).run files = .success (String.ofList (trimEnd text.toList))
  text : (Command.outline options false).run files = .success
    (s!"✅ {loaded.merged.outlineEntries.length} definitions from {loaded.read} files"
      ++ s!" (skipped {loaded.skipped} non-SDL files):\n"
      ++ "\n".intercalate (loaded.merged.outlineEntries.map OutlineEntry.line))
  json : (Command.outline options true).run files = .success
    (outlineJson loaded.merged.outlineEntries)
  length : loaded.merged.outlineEntries.length + loaded.merged.schemaCount =
    loaded.merged.definitions.length

theorem run_eq_report (command : Command) {error : LoadError}
    (h : files.load command.files = .error error) : command.run files = error.report := by
  rw [run, h]

theorem outlineReported_of_load {loaded : Loaded} (h : files.load options = .ok loaded)
    (hunique : loaded.merged.Unique) : OutlineReported files options loaded where
  merge := by
    obtain ⟨text, htext⟩ := FileSystem.exists_print_merged h
    refine ⟨text, htext, ?_⟩
    have hload : files.load (Command.merge options).files = .ok loaded := h
    rw [run, hload]
    simp only [mergeReport, htext]
  text := by
    have hload : files.load (Command.outline options false).files = .ok loaded := h
    rw [run, hload]
    have hshown : ∀ shown : String, toString shown = shown := fun _ => rfl
    simp only [outlineReport, outlineText, hshown, String.append_assoc, Bool.false_eq_true,
      if_false]
  json := by
    have hload : files.load (Command.outline options true).files = .ok loaded := h
    rw [run, hload]
    rfl
  length := by
    rw [Tree.outlineEntries, List.length_map]
    exact hunique.length_outline

/-- A file with a schema, and with two names that are repeated. -/
def repeatedNames : FileSystem where
  root := .folder [("a.graphql", .file
    "schema { query: Query } type Query scalar Date type Query scalar Date".toUTF8)]
  home := []
  home_proper := Address.proper_nil

def onePath : FileOptions where
  extensions := defaultExtensions
  roots := defaultRoots
  paths := ["/a.graphql"]

theorem locate_repeatedNames : repeatedNames.locate "/a.graphql" = .ok ["a.graphql"] :=
  FileSystem.locate_below_root rfl rfl (by simp) (by decide) (by decide)

theorem discover_repeatedNames :
    repeatedNames.discover onePath.extensions onePath.paths = .ok ⟨["/a.graphql"], 0⟩ := by
  have hvisits : onePath.paths.flatMap repeatedNames.walk =
      [.file "/a.graphql" (.ok ["a.graphql"])] := by
    simp only [onePath, List.flatMap_singleton, FileSystem.walk, locate_repeatedNames]
    rfl
  simp only [FileSystem.discover, Walks.discover, FileSystem.walks, hvisits]
  decide +kernel

/-- The file has five definitions, and three are left once it is merged. -/
theorem loadTree_repeatedNames :
    ∃ tree, repeatedNames.loadTree "/a.graphql" = .ok tree ∧
      tree.outline.length = 2 ∧ tree.definitions.length = 5 ∧
      (Tree.mergeAll [tree] onePath.roots).outline.length = 2 ∧
      (Tree.mergeAll [tree] onePath.roots).schemaCount = 1 ∧
      (Tree.mergeAll [tree] onePath.roots).definitions.length = 3 := by
  have hread : repeatedNames.read? "/a.graphql" = some (.ok
      "schema { query: Query } type Query scalar Date type Query scalar Date".toUTF8) := by
    rw [FileSystem.read?, locate_repeatedNames]
    rfl
  have hcounts : (repeatedNames.loadTree "/a.graphql").toOption.any fun tree =>
      tree.outline.length = 2 ∧ tree.definitions.length = 5 ∧
        (Tree.mergeAll [tree] onePath.roots).outline.length = 2 ∧
        (Tree.mergeAll [tree] onePath.roots).schemaCount = 1 ∧
        (Tree.mergeAll [tree] onePath.roots).definitions.length = 3 := by
    simp only [FileSystem.loadTree, hread]
    decide +kernel
  cases htree : repeatedNames.loadTree "/a.graphql" with
  | error error =>
      rw [htree] at hcounts
      cases hcounts
  | ok tree =>
      rw [htree] at hcounts
      exact ⟨tree, rfl, of_decide_eq_true hcounts⟩

end Command

end SchemaLoom
