import SchemaLoom.Proofs.MergeFold

namespace SchemaLoom

/-! What appending makes of a list.  The first definition of a key takes in all that
come with the key, later ones of the key stay as they are, and new keys stand behind
the old ones.  Keys may be repeated on both sides. -/

/-- A definition into which others are merged, one after the other. -/
def Definition.absorb (policy : Policy) (ours : Definition) (theirs : List Definition) :
    Definition :=
  theirs.foldl (fun ours theirs => (ours.merge policy theirs).2) ours

/-- The first definition, into which all that follow are merged. -/
def gather (policy : Policy) : List Definition → Option Definition
  | [] => none
  | first :: rest => some (first.absorb policy rest)

/-- A list after definitions were appended to it. -/
structure Appended (before incoming after : List Definition) : Prop where
  /-- New keys stand behind the old ones, each once, in the order in which they come. -/
  keys : after.map Definition.key =
    before.map Definition.key ++
      ((incoming.map Definition.key).filter (· ∉ before.map Definition.key)).eraseDups
  /-- The first definition of a key takes in all that come with it, in order. -/
  first : ∀ key, (after.find? fun definition => definition.key = key) =
    gather .replaceWins
      ((before.find? fun definition => definition.key = key).toList ++ ofKey key incoming)
  /-- A definition whose key stands before it already stays where and as it is. -/
  later : ∀ (place : Nat) (definition : Definition), before[place]? = some definition →
    definition.key ∈ (before.take place).map Definition.key →
      after[place]? = some definition

namespace Event

theorem upsert_append (front behind : List Definition) (event : Event) :
    upsert (front ++ behind) event =
      if event.key ∈ front.map Definition.key then upsert front event ++ behind
      else front ++ upsert behind event := by
  induction front with
  | nil => rfl
  | cons ours front ih =>
      rw [List.cons_append, upsert_cons, upsert_cons, ih]
      by_cases hkey : ours.key = event.key
      · simp [hkey]
      · have hne : event.key ≠ ours.key := fun h => hkey h.symm
        by_cases hfront : event.key ∈ front.map Definition.key
        · simp only [hkey, hfront, List.map_cons, List.mem_cons, or_true, if_true, if_false,
            List.cons_append]
        · simp only [hkey, hne, hfront, List.map_cons, List.mem_cons, or_false, if_false,
            List.cons_append]

/-- Whatever comes, a definition whose key stands before it is not touched. -/
theorem foldl_upsert_later (events : List Event) {front : List Definition}
    {ours : Definition} (behind : List Definition)
    (hlater : ours.key ∈ front.map Definition.key) :
    ∃ front' behind', events.foldl upsert (front ++ ours :: behind) =
        front' ++ ours :: behind' ∧
      front'.map Definition.key = front.map Definition.key := by
  induction events generalizing front behind with
  | nil => exact ⟨front, behind, rfl, rfl⟩
  | cons event events ih =>
      -- Wherever the event goes, the keys in front stay, so the next one finds the same.
      rw [List.foldl_cons, upsert_append]
      by_cases hfront : event.key ∈ front.map Definition.key
      · have hkeys : (upsert front event).map Definition.key = front.map Definition.key := by
          rw [map_key_upsert, if_pos hfront, List.append_nil]
        obtain ⟨front', behind', hfold, hfront'⟩ := ih behind (hkeys ▸ hlater)
        rw [if_pos hfront]
        exact ⟨front', behind', hfold, hfront'.trans hkeys⟩
      · have hne : ours.key ≠ event.key := fun h => hfront (h ▸ hlater)
        rw [if_neg hfront, upsert_cons, if_neg hne]
        exact ih (upsert behind event) hlater

end Event

namespace Tree

/-- Of the definitions of a key, only the first takes part in the merge. -/
theorem ofKey_appendAll (held incoming : List Definition) (key : Key) :
    ofKey key (appendAll held incoming) =
      match ofKey key held with
      | [] => (gather .replaceWins (ofKey key incoming)).toList
      | ours :: later => ours.absorb .replaceWins (ofKey key incoming) :: later := by
  have hkeys : ∀ event ∈ (ofKey key incoming).map (Event.mk .replaceWins),
      event.key = key := by
    intro event hevent
    obtain ⟨definition, hdefinition, rfl⟩ := List.mem_map.mp hevent
    exact of_decide_eq_true (List.mem_filter.mp hdefinition).2
  rw [appendAll_eq_foldl, Event.ofKey_foldl_upsert, filter_map_mk]
  cases hheld : ofKey key held with
  | nil =>
      rw [Event.foldl_upsert_of_key _ hkeys]
      cases ofKey key incoming with
      | nil => rfl
      | cons first rest =>
          rw [List.map_cons, Event.combine, List.foldl_map]
          rfl
  | cons ours later =>
      have hours : ours.key = key := by
        have hmem : ours ∈ ofKey key held := hheld ▸ List.mem_cons_self
        exact of_decide_eq_true (List.mem_filter.mp hmem).2
      rw [Event.foldl_upsert_first _ ours later (hours ▸ hkeys), List.foldl_map]
      rfl

theorem appendAll_first (held incoming : List Definition) (key : Key) :
    ((appendAll held incoming).find? fun definition => definition.key = key) =
      gather .replaceWins
        ((held.find? fun definition => definition.key = key).toList ++
          ofKey key incoming) := by
  rw [← List.head?_filter, ← List.head?_filter]
  change (ofKey key (appendAll held incoming)).head? =
    gather .replaceWins ((ofKey key held).head?.toList ++ ofKey key incoming)
  rw [ofKey_appendAll]
  cases ofKey key held with
  | nil => simp
  | cons ours later => rfl

theorem appendAll_later (held incoming : List Definition) {place : Nat}
    {definition : Definition} (hplace : held[place]? = some definition)
    (hlater : definition.key ∈ (held.take place).map Definition.key) :
    (appendAll held incoming)[place]? = some definition := by
  obtain ⟨hlength, hdefinition⟩ := List.getElem?_eq_some_iff.mp hplace
  have hsplit : held = held.take place ++ definition :: held.drop (place + 1) := by
    rw [← hdefinition, List.getElem_cons_drop, List.take_append_drop]
  obtain ⟨front, behind, hfold, hfront⟩ := Event.foldl_upsert_later
    (incoming.map (Event.mk .replaceWins)) (held.drop (place + 1)) hlater
  have hfrontLength : front.length = place := by
    have hlengths := congrArg List.length hfront
    simpa [Nat.min_eq_left (Nat.le_of_lt hlength)] using hlengths
  rw [appendAll_eq_foldl, hsplit, hfold, ← hfrontLength]
  simp

theorem appendAll_appended (held incoming : List Definition) :
    Appended held incoming (appendAll held incoming) where
  keys := by
    rw [appendAll_eq_foldl, Event.map_key_foldl_upsert_held, List.map_map]
    rfl
  first := appendAll_first held incoming
  later _ _ := appendAll_later held incoming

/-- A source that has a document is appended key by key, and none of its definitions
is skipped. -/
theorem append_by_key (tree : Tree) {source : Source} {incoming : Document}
    (hsource : source.document? = some incoming) :
    ∃ after, tree.append source = ofDocument ⟨after⟩ ∧
      Appended tree.definitions incoming.definitions after ∧
      ∀ front theirs behind, incoming.definitions = front ++ theirs :: behind →
        ¬(front.foldl Appending.step (.start tree.definitions)).Skips theirs := by
  refine ⟨appendAll tree.definitions incoming.definitions, ?_, ?_, ?_⟩
  · rw [append, hsource]
  · exact appendAll_appended tree.definitions incoming.definitions
  · intro front theirs behind _
    have hkeyed := (Appending.start_keyed tree.definitions).foldl_step front
    exact hkeyed.not_skips theirs

/-- The type of queries twice, once defined and once extended. -/
def repeatedQuery : List Definition :=
  [queryWith (.definition none) "a", queryWith .extension "b"]

theorem append_by_key_repeatedQuery :
    (Source.tree (.ofDocument ⟨repeatedQuery ++ twoRoots.definitions⟩)).document? =
        some ⟨repeatedQuery ++ twoRoots.definitions⟩ ∧
      ∃ after,
        (ofDocument ⟨repeatedQuery⟩).append
            (.tree (.ofDocument ⟨repeatedQuery ++ twoRoots.definitions⟩)) =
          ofDocument ⟨after⟩ ∧
        Appended repeatedQuery (repeatedQuery ++ twoRoots.definitions) after ∧
        ∀ front theirs behind,
          repeatedQuery ++ twoRoots.definitions = front ++ theirs :: behind →
            ¬(front.foldl Appending.step (.start repeatedQuery)).Skips theirs := by
  have hsource : (Source.tree (.ofDocument ⟨repeatedQuery ++ twoRoots.definitions⟩)).document? =
      some ⟨repeatedQuery ++ twoRoots.definitions⟩ := rfl
  exact ⟨hsource, append_by_key (ofDocument ⟨repeatedQuery⟩) hsource⟩

theorem appendAll_concat (held first second : List Definition) :
    appendAll held (first ++ second) = appendAll (appendAll held first) second := by
  -- The keys known after the first list need not be those that the second call starts
  -- with, but as sets they are the same.
  have hcarried := (Appending.start_keyed held).foldl_step first
  have hrebuilt := Appending.start_keyed (appendAll held first)
  rw [appendAll, List.foldl_append]
  exact hcarried.held_foldl_step_congr hrebuilt rfl second

/-- Appending two lists one after the other is appending them as one. -/
theorem append_concat (tree : Tree) (first second : List Definition) :
    tree.append (.tree (ofDocument ⟨first ++ second⟩)) =
      (tree.append (.tree (ofDocument ⟨first⟩))).append (.tree (ofDocument ⟨second⟩)) := by
  have hlists := appendAll_concat tree.definitions first second
  exact congrArg (fun definitions => ofDocument ⟨definitions⟩) hlists

end Tree

end SchemaLoom
