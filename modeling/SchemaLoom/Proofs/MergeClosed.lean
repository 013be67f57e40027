import SchemaLoom.Proofs.Appending

namespace SchemaLoom

/-! Properties that a merged definition has because both of its sources have them.
They hold throughout a tree after any merge if they hold before it in both trees. -/

def MergeClosed (good : Definition → Prop) : Prop :=
  ∀ policy ours theirs, good ours → good theirs → good (ours.merge policy theirs).2

namespace MergeClosed

variable {good : Definition → Prop}

/-- Of the outcomes of a merge only a joined definition is a new one. -/
theorem of_concat? (h : ∀ ours theirs joined, good ours → good theirs →
    ours.concat? theirs = some joined → good joined) : MergeClosed good := by
  intro policy ours theirs hours htheirs
  obtain ⟨joined, _, hjoined, hmerge⟩ | ⟨_, ⟨_, hmerge⟩ | ⟨_, hmerge⟩⟩ :=
    Definition.merge_cases policy ours theirs
  · rw [hmerge]
    exact h ours theirs joined hours htheirs hjoined
  · rw [hmerge]
    exact hours
  · rw [hmerge]
    exact htheirs

theorem mergeInto (h : MergeClosed good) (policy : Policy) (wanted : Definition → Bool)
    {incoming : Definition} {held : List Definition} (hincoming : good incoming)
    (hheld : ∀ definition ∈ held, good definition) :
    ∀ definition ∈ mergeInto policy wanted incoming held, good definition := by
  induction held with
  | nil => exact List.forall_mem_singleton.mpr hincoming
  | cons first rest ih =>
      obtain ⟨hfirst, hrest⟩ := List.forall_mem_cons.mp hheld
      unfold SchemaLoom.mergeInto
      split
      · exact List.forall_mem_cons.mpr ⟨h policy first incoming hfirst hincoming, hrest⟩
      · exact List.forall_mem_cons.mpr ⟨hfirst, ih hrest⟩

theorem appendAll (h : MergeClosed good) {held incoming : List Definition}
    (hheld : ∀ definition ∈ held, good definition)
    (hincoming : ∀ definition ∈ incoming, good definition) :
    ∀ definition ∈ Tree.appendAll held incoming, good definition := by
  rw [Tree.appendAll_eq_mergeInto]
  induction incoming generalizing held with
  | nil => exact hheld
  | cons first rest ih =>
      obtain ⟨hfirst, hrest⟩ := List.forall_mem_cons.mp hincoming
      exact ih (h.mergeInto _ _ hfirst hheld) hrest

theorem append (h : MergeClosed good) {tree : Tree} {source : Source}
    (htree : ∀ definition ∈ tree.definitions, good definition)
    (hsource : ∀ document, source.document? = some document →
      ∀ definition ∈ document.definitions, good definition) :
    ∀ definition ∈ (tree.append source).definitions, good definition := by
  unfold Tree.append
  split
  · exact htree
  · rename_i incoming hincoming
    exact h.appendAll htree (hsource incoming hincoming)

theorem consume (h : MergeClosed good) {tree source : Tree} (matcher : Matcher)
    (htree : ∀ definition ∈ tree.definitions, good definition)
    (hsource : ∀ definition ∈ source.definitions, good definition) :
    ∀ definition ∈ (tree.consume source matcher).1.definitions, good definition := by
  unfold Tree.consume
  split
  · rename_i document definition rest hdocument hremove
    have hfound : source.find? matcher = some definition := congrArg Prod.fst hremove
    refine h.mergeInto _ _ (hsource definition (List.mem_of_find?_eq_some hfound)) ?_
    simpa [Tree.definitions, hdocument] using htree
  · exact htree

theorem consumeFrom (h : MergeClosed good) {tree : Tree} {source : Source}
    (matcher : Matcher) (htree : ∀ definition ∈ tree.definitions, good definition)
    (hsource : ∀ document, source.document? = some document →
      ∀ definition ∈ document.definitions, good definition) :
    ∀ definition ∈ (tree.consumeFrom source matcher).definitions, good definition := by
  unfold Tree.consumeFrom
  split
  · exact htree
  · rename_i other hother
    obtain ⟨document, hdocument, rfl⟩ := Option.map_eq_some_iff.mp hother
    exact h.consume matcher htree (hsource document hdocument)

end MergeClosed

end SchemaLoom
