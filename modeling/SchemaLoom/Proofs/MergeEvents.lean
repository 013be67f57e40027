import SchemaLoom.Proofs.Appending

namespace SchemaLoom

/-! Merging trees as one fold.  Every definition of a tree reaches the merged list
as an event: first the definitions that root types take out, then all that is
left.  What the list holds under a key depends only on the events of that key. -/

namespace Definition

theorem key_eq_named_iff {definition : Definition} {name : String} :
    definition.key = .named name ↔ definition.name? = some name := by
  cases definition <;> simp [key, name?]

theorem selects_name_iff {definition : Definition} {name : String} :
    (Matcher.name name).selects definition = true ↔
      definition.key = .named name := by
  rw [key_eq_named_iff]
  cases definition with
  | schema decl => simp [Matcher.selects, name?]
  | directive decl => simpa [Matcher.selects, Matcher.matchesName, name?] using eq_comm
  | type decl => simpa [Matcher.selects, Matcher.matchesName, name?] using eq_comm

end Definition

/-- A definition on its way into a list, and the policy it is merged under. -/
structure Event where
  policy : Policy
  definition : Definition

namespace Event

def key (event : Event) : Key :=
  event.definition.key

/-- Merges the definition into the first one of its key, or adds it behind all. -/
def upsert (held : List Definition) (event : Event) : List Definition :=
  mergeInto event.policy (fun ours => ours.key = event.key) event.definition held

/-- What becomes of definitions that all share one key. -/
def combine : List Event → Option Definition
  | [] => none
  | first :: rest =>
      some (rest.foldl
        (fun ours event => (ours.merge event.policy event.definition).2)
        first.definition)

end Event

/-- Definitions with the given key, in order. -/
def ofKey (key : Key) (definitions : List Definition) : List Definition :=
  definitions.filter fun definition => definition.key = key

namespace Event

theorem upsert_cons (ours : Definition) (held : List Definition) (event : Event) :
    upsert (ours :: held) event =
      if ours.key = event.key then
        (ours.merge event.policy event.definition).2 :: held
      else ours :: upsert held event := by
  simp [upsert, mergeInto]

theorem ofKey_upsert_same (held : List Definition) (event : Event) :
    ofKey event.key (upsert held event) = upsert (ofKey event.key held) event := by
  induction held with
  | nil => simp [upsert, mergeInto, ofKey, key]
  | cons ours held ih =>
      rw [upsert_cons]
      by_cases hkey : ours.key = event.key
      · have hmerged :
            (ours.merge event.policy event.definition).2.key = event.key :=
          (Definition.merge_key event.policy hkey.symm).trans hkey
        simp [ofKey, hkey, hmerged, upsert_cons]
      · simpa [ofKey, hkey] using ih

theorem ofKey_upsert_other (held : List Definition) {event : Event} {other : Key}
    (hother : event.key ≠ other) :
    ofKey other (upsert held event) = ofKey other held := by
  induction held with
  | nil =>
      have hdefinition : event.definition.key ≠ other := hother
      simp [upsert, mergeInto, ofKey, hdefinition]
  | cons ours held ih =>
      rw [upsert_cons]
      by_cases hkey : ours.key = event.key
      · have hmerged :
            (ours.merge event.policy event.definition).2.key ≠ other := by
          rw [Definition.merge_key event.policy hkey.symm, hkey]
          exact hother
        simp [ofKey, hkey, hmerged, hother]
      · simp only [hkey, if_false, ofKey, List.filter_cons] at ih ⊢
        rw [ih]

/-- The events of other keys leave the definitions of a key as they are. -/
theorem ofKey_foldl_upsert (key : Key) (events : List Event)
    (held : List Definition) :
    ofKey key (events.foldl upsert held) =
      (events.filter fun event => event.key = key).foldl upsert (ofKey key held) := by
  induction events generalizing held with
  | nil => rfl
  | cons event events ih =>
      rw [List.foldl_cons, ih]
      by_cases hkey : event.key = key
      · subst hkey
        simp [ofKey_upsert_same]
      · simp [hkey, ofKey_upsert_other held hkey]

/-- Where all events have the key of the first definition, only that one changes. -/
theorem foldl_upsert_first (events : List Event) (ours : Definition)
    (held : List Definition) (hkeys : ∀ event ∈ events, event.key = ours.key) :
    events.foldl upsert (ours :: held) =
      events.foldl
        (fun ours event => (ours.merge event.policy event.definition).2) ours :: held := by
  induction events generalizing ours with
  | nil => rfl
  | cons event events ih =>
      have hkey : event.key = ours.key := hkeys event (by simp)
      have hmerged :
          (ours.merge event.policy event.definition).2.key = ours.key :=
        Definition.merge_key event.policy hkey
      rw [List.foldl_cons, upsert_cons, if_pos hkey.symm, List.foldl_cons]
      apply ih
      intro later hlater
      rw [hmerged]
      exact hkeys later (by simp [hlater])

theorem foldl_upsert_of_key {key : Key} (events : List Event)
    (hkeys : ∀ event ∈ events, event.key = key) :
    events.foldl upsert [] = (combine events).toList := by
  cases events with
  | nil => rfl
  | cons first rest =>
      have hfirst : first.key = key := hkeys first (by simp)
      have hrest : ∀ event ∈ rest, event.key = first.definition.key := by
        intro event hevent
        exact (hkeys event (by simp [hevent])).trans hfirst.symm
      rw [List.foldl_cons]
      change rest.foldl upsert [first.definition] = _
      rw [foldl_upsert_first rest first.definition [] hrest]
      rfl

/-- Under a key the fold leaves what the events of that key combine to. -/
theorem ofKey_foldl_upsert_nil (key : Key) (events : List Event) :
    ofKey key (events.foldl upsert []) =
      (combine (events.filter fun event => event.key = key)).toList := by
  rw [ofKey_foldl_upsert]
  have hkeys : ∀ event ∈ events.filter fun event => event.key = key,
      event.key = key := by
    intro event hevent
    simpa using (List.mem_filter.mp hevent).2
  exact foldl_upsert_of_key _ hkeys

end Event

/-! Events of a tree. -/

/-- For each root in turn the first definition of that name that is not taken yet;
results in those taken and those left. -/
def takeRoots : List String → List Definition → List Definition × List Definition
  | [], definitions => ([], definitions)
  | root :: roots, definitions =>
      match definitions.find? (Matcher.name root).selects with
      | none => takeRoots roots definitions
      | some found =>
          let (taken, left) :=
            takeRoots roots (definitions.eraseP (Matcher.name root).selects)
          (found :: taken, left)

def Tree.events (roots : List String) (tree : Tree) : List Event :=
  (takeRoots roots tree.definitions).1.map (Event.mk .keepExisting)
    ++ (takeRoots roots tree.definitions).2.map (Event.mk .replaceWins)

namespace Tree

theorem mergeInto_selects_name {root : String} {incoming : Definition}
    (hroot : (Matcher.name root).selects incoming = true)
    (held : List Definition) :
    mergeInto .keepExisting (Matcher.name root).selects incoming held =
      Event.upsert held ⟨.keepExisting, incoming⟩ := by
  have hwanted : (Matcher.name root).selects =
      fun ours => decide (ours.key = incoming.key) := by
    funext ours
    rw [Bool.eq_iff_iff, decide_eq_true_iff, Definition.selects_name_iff,
      Definition.selects_name_iff.mp hroot]
  rw [hwanted]
  rfl

private theorem consume_some (held definitions : List Definition) (matcher : Matcher)
    {found : Definition} (hfound : definitions.find? matcher.selects = some found) :
    (ofDocument ⟨held⟩).consume (ofDocument ⟨definitions⟩) matcher =
      (ofDocument ⟨mergeInto .keepExisting matcher.selects found held⟩,
        ofDocument ⟨definitions.eraseP matcher.selects⟩) := by
  simp [consume, remove, find?, Tree.definitions, ofDocument, hfound]

private theorem consume_none (held definitions : List Definition) (matcher : Matcher)
    (hfound : definitions.find? matcher.selects = none) :
    (ofDocument ⟨held⟩).consume (ofDocument ⟨definitions⟩) matcher =
      (ofDocument ⟨held⟩, ofDocument ⟨definitions⟩) := by
  simp [consume, remove, find?, Tree.definitions, ofDocument, hfound]

/-- Root types leave a tree as `takeRoots` says. -/
theorem foldl_consume (roots : List String) (held definitions : List Definition) :
    roots.foldl
        (fun (trees : Tree × Tree) root => trees.1.consume trees.2 (.name root))
        (ofDocument ⟨held⟩, ofDocument ⟨definitions⟩) =
      (ofDocument ⟨((takeRoots roots definitions).1.map
          (Event.mk .keepExisting)).foldl Event.upsert held⟩,
        ofDocument ⟨(takeRoots roots definitions).2⟩) := by
  induction roots generalizing held definitions with
  | nil => rfl
  | cons root roots ih =>
      rw [List.foldl_cons]
      cases hfound : definitions.find? (Matcher.name root).selects with
      | none =>
          rw [consume_none held definitions (.name root) hfound, ih]
          simp [takeRoots, hfound]
      | some found =>
          rw [consume_some held definitions (.name root) hfound,
            mergeInto_selects_name (List.find?_some hfound), ih]
          simp [takeRoots, hfound]

private theorem consume_new (held : List Definition) (matcher : Matcher) :
    (ofDocument ⟨held⟩).consume ⟨none⟩ matcher = (ofDocument ⟨held⟩, ⟨none⟩) := by
  simp [consume, remove, find?, Tree.definitions, ofDocument]

theorem appendAll_eq_foldl (held incoming : List Definition) :
    appendAll held incoming =
      (incoming.map (Event.mk .replaceWins)).foldl Event.upsert held := by
  rw [List.foldl_map]
  exact appendAll_eq_mergeInto held incoming

/-- One more tree adds its events. -/
theorem mergeWith_eq (roots : List String) (held : List Definition) (tree : Tree) :
    mergeWith roots (ofDocument ⟨held⟩) tree =
      ofDocument ⟨(tree.events roots).foldl Event.upsert held⟩ := by
  obtain ⟨document⟩ := tree
  cases document with
  | none =>
      have hroots : roots.foldl
          (fun (trees : Tree × Tree) root => trees.1.consume trees.2 (.name root))
          (ofDocument ⟨held⟩, ⟨none⟩) = (ofDocument ⟨held⟩, ⟨none⟩) := by
        induction roots with
        | nil => rfl
        | cons root roots ih => rw [List.foldl_cons, consume_new, ih]
      have htaken : ∀ roots, takeRoots roots [] = ([], []) := by
        intro roots
        induction roots with
        | nil => rfl
        | cons root roots ih => simpa [takeRoots] using ih
      simp [mergeWith, hroots, append, Source.document?, Source.resolve, events,
        Tree.definitions, htaken]
  | some document =>
      obtain ⟨definitions⟩ := document
      have hfold := foldl_consume roots held definitions
      simp only [ofDocument] at hfold
      simp [mergeWith, hfold, append, Source.document?, Source.resolve, events,
        Tree.definitions, ofDocument, appendAll_eq_foldl]

private theorem foldl_mergeWith (roots : List String) (trees : List Tree)
    (held : List Definition) :
    trees.foldl (mergeWith roots) (ofDocument ⟨held⟩) =
      ofDocument ⟨(trees.flatMap (events roots)).foldl Event.upsert held⟩ := by
  induction trees generalizing held with
  | nil => rfl
  | cons tree trees ih =>
      rw [List.foldl_cons, mergeWith_eq, ih, List.flatMap_cons, List.foldl_append]

/-- Merging trees folds the events of all of them. -/
theorem mergeAll_eq_foldl (trees : List Tree) (roots : List String) :
    mergeAll trees roots =
      ofDocument ⟨(trees.flatMap (events roots)).foldl Event.upsert []⟩ :=
  foldl_mergeWith roots trees []

theorem ofKey_mergeAll (trees : List Tree) (roots : List String) (key : Key) :
    ofKey key (mergeAll trees roots).definitions =
      (Event.combine
        ((trees.flatMap (events roots)).filter fun event => event.key = key)).toList := by
  rw [mergeAll_eq_foldl]
  exact Event.ofKey_foldl_upsert_nil key _

end Tree

end SchemaLoom
