import SchemaLoom.Proofs.AppendByKey
import SchemaLoom.Proofs.Moves
import Mathlib.Logic.Function.Iterate

namespace SchemaLoom

/-! Moves repeated until the source is drained.  A definition into which another one is
merged keeps its name, so it stays the first that is selected, and all moves end in the
same place. -/

theorem Matcher.selects_merge (matcher : Matcher) (ours theirs : Definition) :
    matcher.selects (ours.merge .keepExisting theirs).2 = matcher.selects ours :=
  matcher.selects_eq_of_key (Definition.merge_keepExisting_key ours theirs)

/-- Definitions merged one after the other into the first that is selected, or put at
the end as long as none is. -/
def mergeSelected (matcher : Matcher) (held incoming : List Definition) :
    List Definition :=
  incoming.foldl
    (fun held definition => mergeInto .keepExisting matcher.selects definition held) held

theorem FirstOf.mergeSelected_eq {matcher : Matcher} {held front behind : List Definition}
    {ours : Definition} (h : FirstOf matcher.selects held front ours behind)
    (incoming : List Definition) :
    mergeSelected matcher held incoming =
      front ++ ours.absorb .keepExisting incoming :: behind := by
  induction incoming generalizing held ours with
  | nil => exact h.split
  | cons first rest ih =>
      have hmerged : FirstOf matcher.selects
          (mergeInto .keepExisting matcher.selects first held) front
          (ours.merge .keepExisting first).2 behind :=
        ⟨h.mergeInto_eq .keepExisting first, h.unwanted,
          (matcher.selects_merge ours first).trans h.wanted⟩
      exact ih hmerged

theorem mergeSelected_of_none {matcher : Matcher} {held incoming : List Definition}
    (hnone : ∀ ours ∈ held, matcher.selects ours = false)
    (hincoming : ∀ theirs ∈ incoming, matcher.selects theirs = true) :
    mergeSelected matcher held incoming =
      held ++ (gather .keepExisting incoming).toList := by
  cases incoming with
  | nil => exact (List.append_nil held).symm
  | cons first rest =>
      -- The definition that the first move adds is the one found by all others.
      have hadded : FirstOf matcher.selects
          (mergeInto .keepExisting matcher.selects first held) held first [] :=
        ⟨mergeInto_of_none hnone, hnone, hincoming first List.mem_cons_self⟩
      exact hadded.mergeSelected_eq rest

namespace Tree

/-- The tree without all definitions that are selected. -/
def without (matcher : Matcher) (tree : Tree) : Tree :=
  ⟨tree.document.map fun document =>
    ⟨document.definitions.filter fun definition => !matcher.selects definition⟩⟩

theorem without_of_find?_eq_none {matcher : Matcher} {tree : Tree}
    (h : tree.find? matcher = none) : tree.without matcher = tree := by
  obtain ⟨document⟩ := tree
  cases document with
  | none => rfl
  | some document =>
      have hnone : ∀ definition ∈ document.definitions,
          ¬matcher.selects definition = true := List.find?_eq_none.mp h
      have hall : document.definitions.filter (fun definition =>
          !matcher.selects definition) = document.definitions := by
        rw [List.filter_eq_self]
        simpa using hnone
      simp only [without, Option.map_some, hall]

theorem without_of_firstOf {matcher : Matcher} {source : Tree}
    {front behind : List Definition} {found : Definition}
    (h : FirstOf matcher.selects source.definitions front found behind) :
    source.without matcher = (ofDocument ⟨front ++ behind⟩).without matcher := by
  obtain ⟨document⟩ := source
  cases document with
  | none => cases front <;> cases h.split
  | some document =>
      have hsplit : document.definitions = front ++ found :: behind := h.split
      simp [without, ofDocument, hsplit, h.wanted]

theorem iterate_consume_eq (matcher : Matcher) {count : Nat} (held : List Definition)
    (source : Tree) (hcount : source.definitions.countP matcher.selects ≤ count) :
    (fun trees : Tree × Tree => trees.1.consume trees.2 matcher)^[count]
        (ofDocument ⟨held⟩, source) =
      (ofDocument ⟨mergeSelected matcher held (source.definitions.filter matcher.selects)⟩,
        source.without matcher) := by
  rw [List.countP_eq_length_filter] at hcount
  induction count generalizing held source with
  | zero =>
      have hselected : source.definitions.filter matcher.selects = [] :=
        List.eq_nil_of_length_eq_zero (Nat.le_zero.mp hcount)
      have hnone : source.find? matcher = none :=
        List.find?_eq_none.mpr (List.filter_eq_nil_iff.mp hselected)
      rw [hselected, without_of_find?_eq_none hnone]
      rfl
  | succ count ih =>
      rw [Function.iterate_succ_apply]
      cases hfound : source.find? matcher with
      | none =>
          -- Nothing is left to move, so this move and all others change nothing.
          have hselected : source.definitions.filter matcher.selects = [] :=
            List.filter_eq_nil_iff.mpr (List.find?_eq_none.mp hfound)
          rw [consume_of_find?_eq_none (.inr hfound)]
          exact ih held source (by simp [hselected])
      | some found =>
          obtain ⟨front, behind, hfirst⟩ := exists_firstOf hfound
          have hmove : (ofDocument ⟨held⟩).consume source matcher =
              (ofDocument ⟨mergeInto .keepExisting matcher.selects found held⟩,
                ofDocument ⟨front ++ behind⟩) := consume_of_firstOf rfl hfirst
          rw [hfirst.filter_eq] at hcount
          rw [hmove, ih _ (ofDocument ⟨front ++ behind⟩) (Nat.le_of_succ_le_succ hcount),
            without_of_firstOf hfirst, hfirst.filter_eq]
          rfl

/-- Repeated moves, at least as many as the source has definitions to move, leave it
with the others.  All that are moved end in the first definition of the target that is
selected, in their order, or in the first of them if there is none. -/
theorem iterate_consume (document : Document) (source : Tree) (matcher : Matcher)
    {count : Nat} (hcount : source.definitions.countP matcher.selects ≤ count) :
    ∃ target,
      (fun trees : Tree × Tree => trees.1.consume trees.2 matcher)^[count]
          (ofDocument document, source) = (target, source.without matcher) ∧
      (∀ ours, document.definitions.find? matcher.selects = some ours →
        ∃ front behind, FirstOf matcher.selects document.definitions front ours behind ∧
          target = ofDocument ⟨front ++ ours.absorb .keepExisting
            (source.definitions.filter matcher.selects) :: behind⟩) ∧
      (document.definitions.find? matcher.selects = none →
        target = ofDocument ⟨document.definitions ++
          (gather .keepExisting (source.definitions.filter matcher.selects)).toList⟩) := by
  refine ⟨_, iterate_consume_eq matcher document.definitions source hcount, ?_, ?_⟩
  · intro ours hours
    obtain ⟨front, behind, hfirst⟩ := exists_firstOf hours
    exact ⟨front, behind, hfirst, by rw [hfirst.mergeSelected_eq]⟩
  · intro hnone
    rw [mergeSelected_of_none (by simpa using hnone)
      fun theirs htheirs => (List.mem_filter.mp htheirs).2]

theorem iterate_consume_everyName :
    extendedQuery.countP everyName.selects ≤ 4 ∧
      ∃ target,
        (fun trees : Tree × Tree => trees.1.consume trees.2 everyName)^[4]
            (emptyObject mutationType, ofDocument ⟨extendedQuery⟩) =
          (target, ofDocument ⟨[]⟩) ∧
        ∃ ours front behind,
          FirstOf everyName.selects (emptyObject mutationType).definitions front ours behind ∧
          target = ofDocument ⟨front ++ ours.absorb .keepExisting extendedQuery :: behind⟩ := by
  have hcount : extendedQuery.countP everyName.selects ≤ 4 := by decide
  obtain ⟨target, hmoves, hfound, _⟩ :=
    iterate_consume ⟨(emptyObject mutationType).definitions⟩ (ofDocument ⟨extendedQuery⟩)
      everyName hcount
  obtain ⟨front, behind, htarget⟩ := hfound _ rfl
  exact ⟨hcount, target, hmoves, _, front, behind, htarget⟩

end Tree

end SchemaLoom
