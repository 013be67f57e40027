import SchemaLoom.Proofs.RootTypes
import SchemaLoom.Proofs.UniqueKeys

namespace SchemaLoom

/-! The merge of all trees against a reference that knows nothing of searches: each
event goes to the entry of its key, wherever that is, or behind all entries. -/

theorem eraseDups_concat {α : Type} [BEq α] [LawfulBEq α] (items : List α) (last : α) :
    (items ++ [last]).eraseDups =
      items.eraseDups ++ if last ∈ items.eraseDups then [] else [last] := by
  rw [List.eraseDups_append]
  by_cases hmem : last ∈ items <;>
    simp [List.removeAll, List.mem_eraseDups, List.eraseDups_cons, hmem]

namespace Event

/-- Merges the definition into the entry of its key, in place, or adds it behind all
if there is none. -/
def settle (held : List Definition) (event : Event) : List Definition :=
  if event.key ∈ held.map Definition.key then
    held.map fun ours =>
      if ours.key = event.key then (ours.merge event.policy event.definition).2 else ours
  else held ++ [event.definition]

theorem upsert_eq_settle {held : List Definition} (event : Event)
    (hheld : (held.map Definition.key).Nodup) : upsert held event = settle held event := by
  induction held with
  | nil => rfl
  | cons ours held ih =>
      obtain ⟨hours, hheld⟩ := List.nodup_cons.mp hheld
      rw [upsert_cons]
      by_cases hkey : ours.key = event.key
      · have hothers : ∀ other ∈ held, other.key ≠ event.key := by
          intro other hother hsame
          exact hours (List.mem_map.mpr ⟨other, hother, hsame.trans hkey.symm⟩)
        have hrest : (held.map fun other => if other.key = event.key then
            (other.merge event.policy event.definition).2 else other) = held := by
          rw [List.map_congr_left fun other hother => if_neg (hothers other hother)]
          exact List.map_id held
        simp [settle, hkey, hrest]
      · rw [if_neg hkey, ih hheld]
        by_cases hmem : event.key ∈ held.map Definition.key
        · simp only [settle, hmem, List.map_cons, List.mem_cons, or_true, if_true, hkey,
            if_false]
        · simp only [settle, hmem, List.map_cons, List.mem_cons, Ne.symm hkey, or_false,
            if_false, List.cons_append]

theorem foldl_upsert_eq_settle {held : List Definition} (events : List Event)
    (hheld : (held.map Definition.key).Nodup) :
    events.foldl upsert held = events.foldl settle held := by
  induction events generalizing held with
  | nil => rfl
  | cons event events ih =>
      rw [List.foldl_cons, List.foldl_cons, ← upsert_eq_settle event hheld]
      exact ih (nodup_upsert event hheld)

/-- Keys that were not there are listed behind the others, in the order in which they
arrive. -/
theorem map_key_foldl_upsert_held (held : List Definition) (events : List Event) :
    (events.foldl upsert held).map Definition.key =
      held.map Definition.key ++
        ((events.map Event.key).filter (· ∉ held.map Definition.key)).eraseDups := by
  induction events using List.reverseRecOn with
  | nil => simp
  | append_singleton events last ih =>
      rw [List.foldl_concat, map_key_upsert, ih, List.map_append, List.map_singleton,
        List.filter_append]
      by_cases hheld : last.key ∈ held.map Definition.key
      · rw [List.filter_cons_of_neg (by simpa using hheld),
          if_pos (List.mem_append_left _ hheld)]
        simp
      · rw [List.filter_cons_of_pos (by simpa using hheld), List.filter_nil,
          eraseDups_concat, List.append_assoc]
        simp only [List.mem_append, hheld, false_or]

/-- Keys are listed in the order in which they arrive. -/
theorem map_key_foldl_upsert (events : List Event) :
    (events.foldl upsert []).map Definition.key = (events.map Event.key).eraseDups := by
  simpa using map_key_foldl_upsert_held [] events

end Event

/-! One key alone. -/

namespace Tree

/-- The tree without the definitions of other keys. -/
def only (key : Key) (tree : Tree) : Tree :=
  ⟨tree.document.map fun document => ⟨ofKey key document.definitions⟩⟩

theorem definitions_only (key : Key) (tree : Tree) :
    (tree.only key).definitions = ofKey key tree.definitions := by
  obtain ⟨document⟩ := tree
  cases document <;> rfl

end Tree

/-- Root types take from the definitions of a key what they take of that key from
all. -/
theorem takeRoots_ofKey (roots : List String) (key : Key) (definitions : List Definition) :
    takeRoots roots (ofKey key definitions) =
      (ofKey key (takeRoots roots definitions).1,
        ofKey key (takeRoots roots definitions).2) := by
  induction roots generalizing definitions with
  | nil => rfl
  | cons root roots ih =>
      -- Only a root of this key finds the same definition in both lists; any other
      -- root finds nothing among those of the key and takes nothing of it from all.
      by_cases hroot : key = .named root
      · subst hroot
        cases hfound : definitions.find? (Matcher.name root).selects with
        | none =>
            have hrest := ih definitions
            rw [ofKey_of_find?_eq_none hfound] at hrest ⊢
            simpa [takeRoots, hfound] using hrest
        | some found =>
            have hselects := List.find?_some hfound
            have hkey := Definition.selects_name_iff.mp hselects
            rw [find?_selects_ofKey hfound]
            simp only [takeRoots, List.find?_cons_of_pos hselects,
              List.eraseP_cons_of_pos hselects, ih, hfound]
            simp [ofKey, hkey]
      · have hnone : (ofKey key definitions).find? (Matcher.name root).selects = none := by
          rw [List.find?_eq_none]
          intro definition hdefinition hselects
          have hkey : definition.key = key := by
            simpa [ofKey] using (List.mem_filter.mp hdefinition).2
          exact hroot (hkey ▸ Definition.selects_name_iff.mp hselects)
        rw [takeRoots, hnone]
        cases hfound : definitions.find? (Matcher.name root).selects with
        | none => simpa [takeRoots, hfound] using ih definitions
        | some found =>
            have hkey : found.key ≠ key := fun h =>
              hroot (h ▸ Definition.selects_name_iff.mp (List.find?_some hfound))
            have hrest := ih (definitions.eraseP (Matcher.name root).selects)
            rw [ofKey_eraseP_of_ne definitions hroot] at hrest
            simpa [takeRoots, hfound, ofKey, hkey] using hrest

namespace Tree

theorem events_only (roots : List String) (key : Key) (tree : Tree) :
    (tree.only key).events roots =
      (tree.events roots).filter fun event => event.key = key := by
  rw [events, definitions_only, takeRoots_ofKey, events, List.filter_append, filter_map_mk,
    filter_map_mk]

theorem flatMap_events_only (trees : List Tree) (roots : List String) (key : Key) :
    (trees.map (only key)).flatMap (events roots) =
      (trees.flatMap (events roots)).filter fun event => event.key = key := by
  rw [List.flatMap_map, List.filter_flatMap]
  congr 1
  funext tree
  exact tree.events_only roots key

/-- Merging trees settles the events of all of them, one after the other.  So what
stands under a key comes from the definitions of that key alone, and the keys stand
in the order in which they arrive. -/
theorem mergeAll_eq_settle (trees : List Tree) (roots : List String) :
    mergeAll trees roots =
        ofDocument ⟨(trees.flatMap (events roots)).foldl Event.settle []⟩ ∧
      (∀ key, ofKey key (mergeAll trees roots).definitions =
        (mergeAll (trees.map (only key)) roots).definitions) ∧
      (mergeAll trees roots).definitions.map Definition.key =
        ((trees.flatMap (events roots)).map Event.key).eraseDups := by
  have hmerged := mergeAll_eq_foldl trees roots
  refine ⟨?_, ?_, ?_⟩
  · have hempty : (([] : List Definition).map Definition.key).Nodup := List.nodup_nil
    rw [hmerged, Event.foldl_upsert_eq_settle _ hempty]
  · intro key
    rw [hmerged, mergeAll_eq_foldl, flatMap_events_only]
    exact Event.ofKey_foldl_upsert key _ []
  · rw [hmerged]
    exact Event.map_key_foldl_upsert _

end Tree

end SchemaLoom
