import SchemaLoom.Proofs.MergeEvents
import Mathlib.Data.List.Nodup

namespace SchemaLoom

/-! Keys along merges.  What is merged into a definition leaves its key alone, and
what is added behind a list has a key that nothing in the list has.  So a tree
that starts without repeated keys never gets any, whatever is merged into it. -/

namespace Definition

theorem name?_eq_of_key {ours theirs : Definition} (h : ours.key = theirs.key) :
    ours.name? = theirs.name? := by
  cases hname : theirs.name? with
  | some name => rw [← key_eq_named_iff, h, key_eq_named_iff, hname]
  | none =>
      cases hours : ours.name? with
      | none => rfl
      | some name =>
          have hkey : theirs.key = .named name := h ▸ key_eq_named_iff.mpr hours
          rw [key_eq_named_iff, hname] at hkey
          cases hkey

/-- A definition that stays where it is keeps its key, also if it takes in the parts
of one with another name. -/
theorem merge_keepExisting_key (ours theirs : Definition) :
    (ours.merge .keepExisting theirs).2.key = ours.key := by
  obtain ⟨joined, _, hjoined, hmerge⟩ | ⟨_, ⟨_, hmerge⟩ | ⟨hpolicy, _⟩⟩ :=
    merge_cases .keepExisting ours theirs
  · rw [hmerge]
    exact concat?_key hjoined
  · rw [hmerge]
  · cases hpolicy

theorem key_eq_schema_iff {definition : Definition} :
    definition.key = .nameless .schema ↔ definition.kind = .schema := by
  cases definition <;> simp [key, name?, kind]

end Definition

theorem Matcher.selects_eq_of_key (matcher : Matcher) {ours theirs : Definition}
    (h : ours.key = theirs.key) : matcher.selects ours = matcher.selects theirs := by
  rw [selects, selects, Definition.name?_eq_of_key h]

/-- Where merges keep the key of what is there, only an added definition brings a
key. -/
theorem map_key_mergeInto {policy : Policy} {wanted : Definition → Bool}
    {incoming : Definition} {held : List Definition}
    (hkept : ∀ ours, wanted ours = true →
      (ours.merge policy incoming).2.key = ours.key) :
    (mergeInto policy wanted incoming held).map Definition.key =
      held.map Definition.key ++ if held.any wanted then [] else [incoming.key] := by
  induction held with
  | nil => rfl
  | cons ours held ih =>
      unfold mergeInto
      cases hwanted : wanted ours with
      | true => simp [hwanted, hkept ours hwanted]
      | false => simp [hwanted, ih]

theorem nodup_mergeInto {policy : Policy} {wanted : Definition → Bool}
    {incoming : Definition} {held : List Definition}
    (hkept : ∀ ours, wanted ours = true →
      (ours.merge policy incoming).2.key = ours.key)
    (hsame : ∀ ours, ours.key = incoming.key → wanted ours = true)
    (hheld : (held.map Definition.key).Nodup) :
    ((mergeInto policy wanted incoming held).map Definition.key).Nodup := by
  rw [map_key_mergeInto hkept]
  split
  · simpa using hheld
  · rename_i hnone
    have hfresh : incoming.key ∉ held.map Definition.key := by
      intro hkey
      obtain ⟨ours, hours, hkey⟩ := List.mem_map.mp hkey
      exact hnone (List.any_eq_true.mpr ⟨ours, hours, hsame ours hkey⟩)
    exact List.nodup_append_comm.mp (List.nodup_cons.mpr ⟨hfresh, hheld⟩)

theorem length_ofKey_le {definitions : List Definition}
    (h : (definitions.map Definition.key).Nodup) (key : Key) :
    (ofKey key definitions).length ≤ 1 := by
  have hcount := List.nodup_iff_count_le_one.mp h key
  rw [List.count_eq_countP, List.countP_map, List.countP_eq_length_filter] at hcount
  exact hcount

namespace Event

private theorem upsert_keeps_key (event : Event) (ours : Definition)
    (h : decide (ours.key = event.key) = true) :
    (ours.merge event.policy event.definition).2.key = ours.key :=
  Definition.merge_key event.policy (of_decide_eq_true h).symm

theorem map_key_upsert (held : List Definition) (event : Event) :
    (upsert held event).map Definition.key =
      held.map Definition.key ++
        if event.key ∈ held.map Definition.key then [] else [event.key] := by
  rw [upsert, map_key_mergeInto event.upsert_keeps_key]
  congr 2
  simp

theorem nodup_upsert {held : List Definition} (event : Event)
    (hheld : (held.map Definition.key).Nodup) :
    ((upsert held event).map Definition.key).Nodup :=
  nodup_mergeInto event.upsert_keeps_key (fun _ hkey => decide_eq_true hkey) hheld

theorem nodup_foldl_upsert {held : List Definition} (events : List Event)
    (hheld : (held.map Definition.key).Nodup) :
    ((events.foldl upsert held).map Definition.key).Nodup := by
  induction events generalizing held with
  | nil => exact hheld
  | cons event events ih => exact ih (nodup_upsert event hheld)

end Event

namespace Tree

/-- No two definitions of the tree have one key. -/
def Unique (tree : Tree) : Prop :=
  (tree.definitions.map Definition.key).Nodup

instance (tree : Tree) : Decidable tree.Unique :=
  inferInstanceAs (Decidable (tree.definitions.map Definition.key).Nodup)

theorem unique_of_sublist {tree other : Tree}
    (h : other.definitions.Sublist tree.definitions) (htree : tree.Unique) :
    other.Unique :=
  htree.sublist (h.map Definition.key)

theorem definitions_remove (tree : Tree) (matcher : Matcher) :
    (tree.remove matcher).2.definitions = tree.definitions.eraseP matcher.selects := by
  obtain ⟨document⟩ := tree
  cases document <;> rfl

theorem remove_unique {tree : Tree} (matcher : Matcher) (htree : tree.Unique) :
    (tree.remove matcher).2.Unique := by
  apply unique_of_sublist _ htree
  rw [definitions_remove]
  exact List.eraseP_sublist

theorem append_unique {tree : Tree} (source : Source) (htree : tree.Unique) :
    (tree.append source).Unique := by
  unfold append
  split
  · exact htree
  · rename_i incoming _
    have hfold := Event.nodup_foldl_upsert
      (incoming.definitions.map (Event.mk .replaceWins)) htree
    rwa [← appendAll_eq_foldl] at hfold

theorem consume_unique {tree source : Tree} (matcher : Matcher) (htree : tree.Unique) :
    (tree.consume source matcher).1.Unique := by
  unfold consume
  split
  · rename_i document definition rest hdocument hremove
    have hfound : source.find? matcher = some definition := congrArg Prod.fst hremove
    have hselects : matcher.selects definition = true := List.find?_some hfound
    -- A pattern may merge the definition into one of another name, but if it selects
    -- none here, none has the key of what it selected there.
    apply nodup_mergeInto
    · intro ours _
      exact Definition.merge_keepExisting_key ours definition
    · intro ours hkey
      rw [matcher.selects_eq_of_key hkey, hselects]
    · simpa [Unique, definitions, hdocument] using htree
  · exact htree

theorem consume_source_unique (tree : Tree) {source : Tree} (matcher : Matcher)
    (hsource : source.Unique) : (tree.consume source matcher).2.Unique := by
  unfold consume
  split
  · rename_i document definition rest hdocument hremove
    have hrest : (source.remove matcher).2 = rest := congrArg Prod.snd hremove
    exact hrest ▸ remove_unique matcher hsource
  · exact hsource

theorem consumeFrom_unique {tree : Tree} (source : Source) (matcher : Matcher)
    (htree : tree.Unique) : (tree.consumeFrom source matcher).Unique := by
  unfold consumeFrom
  split
  · exact htree
  · exact consume_unique matcher htree

theorem emptyDocument_unique (seed : Option Source) : (emptyDocument seed).Unique := by
  have hempty : (ofDocument .empty).Unique := List.nodup_nil
  cases seed with
  | none => exact hempty
  | some source => exact append_unique source hempty

theorem emptyObject_unique (name : String) : (emptyObject name).Unique :=
  List.nodup_singleton _

theorem mergeAll_unique (trees : List Tree) (roots : List String) :
    (mergeAll trees roots).Unique := by
  rw [mergeAll_eq_foldl]
  exact Event.nodup_foldl_upsert _ List.nodup_nil

/-! Runs of merges. -/

/-- What a run of merges starts from. -/
inductive Origin where
  | new
  | emptyDocument (seed : Option Source)
  | emptyQuery
  | emptyMutation
  | emptySubscription

def Origin.tree : Origin → Tree
  | .new => .new
  | .emptyDocument seed => .emptyDocument seed
  | .emptyQuery => .emptyObject queryType
  | .emptyMutation => .emptyObject mutationType
  | .emptySubscription => .emptyObject subscriptionType

/-- A merge into a tree, or a removal from it. -/
inductive Change where
  | append (source : Source)
  | consume (source : Tree) (matcher : Matcher)
  | consumeFrom (source : Source) (matcher : Matcher)
  | remove (matcher : Matcher)

def Change.apply (tree : Tree) : Change → Tree
  | .append source => tree.append source
  | .consume source matcher => (tree.consume source matcher).1
  | .consumeFrom source matcher => tree.consumeFrom source matcher
  | .remove matcher => (tree.remove matcher).2

theorem Origin.tree_unique (origin : Origin) : origin.tree.Unique := by
  cases origin with
  | new => exact List.nodup_nil
  | emptyDocument seed => exact emptyDocument_unique seed
  | emptyQuery => exact emptyObject_unique queryType
  | emptyMutation => exact emptyObject_unique mutationType
  | emptySubscription => exact emptyObject_unique subscriptionType

theorem Change.apply_unique {tree : Tree} (change : Change) (htree : tree.Unique) :
    (change.apply tree).Unique := by
  cases change with
  | append source => exact append_unique source htree
  | consume source matcher => exact consume_unique matcher htree
  | consumeFrom source matcher => exact consumeFrom_unique source matcher htree
  | remove matcher => exact remove_unique matcher htree

theorem foldl_change_unique {tree : Tree} (changes : List Change) (htree : tree.Unique) :
    (changes.foldl Change.apply tree).Unique := by
  induction changes generalizing tree with
  | nil => exact htree
  | cons change changes ih => exact ih (change.apply_unique htree)

/-- Merges never make two definitions with one key: not in the tree they change, not
in the tree they take from, and not in the merge of all trees. -/
theorem merging_unique :
    (∀ (origin : Origin) (changes : List Change),
      (changes.foldl Change.apply origin.tree).Unique) ∧
    (∀ (tree source : Tree) (matcher : Matcher), source.Unique →
      (tree.consume source matcher).2.Unique) ∧
    ∀ (trees : List Tree) (roots : List String),
      (mergeAll trees roots).Unique ∧
        ((mergeAll trees roots).definitions.filter fun definition =>
          definition.kind = .schema).length ≤ 1 := by
  refine ⟨?_, ?_, ?_⟩
  · intro origin changes
    exact foldl_change_unique changes origin.tree_unique
  · intro tree source matcher hsource
    exact consume_source_unique tree matcher hsource
  · intro trees roots
    have hunique := mergeAll_unique trees roots
    have hschema := length_ofKey_le hunique (.nameless .schema)
    simp only [ofKey, Definition.key_eq_schema_iff] at hschema
    exact ⟨hunique, hschema⟩

/-- Two root types, one of which is moved. -/
def twoRoots : Tree :=
  .ofDocument ⟨(emptyObject queryType).definitions ++ (emptyObject mutationType).definitions⟩

theorem merging_unique_twoRoots :
    twoRoots.Unique ∧
      ((emptyObject queryType).consume twoRoots (.name queryType)).2.Unique ∧
      ([Change.append (.tree twoRoots), .consume twoRoots (.name queryType),
        .append (.tree twoRoots)].foldl Change.apply Origin.emptyQuery.tree).Unique := by
  have hsource : twoRoots.Unique := by decide
  exact ⟨hsource, merging_unique.2.1 (emptyObject queryType) twoRoots (.name queryType) hsource,
    merging_unique.1 .emptyQuery _⟩

end Tree

end SchemaLoom
