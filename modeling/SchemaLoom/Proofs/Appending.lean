import SchemaLoom.Proofs.FirstOf
import SchemaLoom.Tree.Basic

namespace SchemaLoom

/-! Appending with known keys.  A set of keys decides whether a definition is new, and
a search in the list decides where it is merged.  The set always has the keys of the
list, so the two agree: every definition is added or merged, and none is skipped. -/

namespace Definition

theorem concat?_key {ours theirs joined : Definition}
    (h : ours.concat? theirs = some joined) : joined.key = ours.key := by
  unfold concat? at h
  split at h
  · split at h
    · cases h
      rfl
    · cases h
  · cases h

/-- Everything a merge can come to: the two definitions are put together, or one of
them is chosen by the policy. -/
theorem merge_cases (policy : Policy) (ours theirs : Definition) :
    (∃ joined, policy.joins ours.kind theirs.kind = true ∧
      ours.concat? theirs = some joined ∧
      ours.merge policy theirs = (.concatenated, joined)) ∨
    ((policy.joins ours.kind theirs.kind = true → ours.concat? theirs = none) ∧
      (policy = .keepExisting ∧ ours.merge policy theirs = (.kept, ours) ∨
        policy = .replaceWins ∧ ours.merge policy theirs = (.replaced, theirs))) := by
  cases hjoins : policy.joins ours.kind theirs.kind with
  | false =>
      refine .inr ⟨nofun, ?_⟩
      cases policy <;> simp [merge, hjoins]
  | true =>
      cases hjoined : ours.concat? theirs with
      | some joined => exact .inl ⟨joined, rfl, rfl, by simp [merge, hjoins, hjoined]⟩
      | none =>
          refine .inr ⟨fun _ => rfl, ?_⟩
          cases policy <;> simp [merge, hjoins, hjoined]

/-- Definitions that share a key are merged under that key. -/
theorem merge_key (policy : Policy) {ours theirs : Definition}
    (hkey : theirs.key = ours.key) : (ours.merge policy theirs).2.key = ours.key := by
  obtain ⟨joined, _, hjoined, hmerge⟩ | ⟨_, ⟨_, hmerge⟩ | ⟨_, hmerge⟩⟩ :=
    merge_cases policy ours theirs
  · rw [hmerge]
    exact concat?_key hjoined
  · rw [hmerge]
  · rw [hmerge]
    exact hkey

end Definition

namespace Appending

variable {state : Appending}

/-- The known keys are those of the list. -/
def Keyed (state : Appending) : Prop :=
  ∀ key, key ∈ state.known ↔ key ∈ state.held.map Definition.key

/-- The key of a definition is known, but the list has no definition with it. -/
def Skips (state : Appending) (incoming : Definition) : Prop :=
  incoming.key ∈ state.known ∧
    state.held.findIdx? (fun ours => ours.key = incoming.key) = none

theorem start_keyed (definitions : List Definition) : (start definitions).Keyed :=
  fun _ => Iff.rfl

theorem Keyed.exists_firstOf (h : state.Keyed) {incoming : Definition}
    (hknown : incoming.key ∈ state.known) :
    ∃ front ours behind,
      FirstOf (fun ours => ours.key = incoming.key) state.held front ours behind := by
  obtain ⟨ours, hours, hkey⟩ := List.mem_map.mp ((h _).mp hknown)
  have hsome : (state.held.find? fun ours => ours.key = incoming.key).isSome :=
    List.find?_isSome.mpr ⟨ours, hours, decide_eq_true hkey⟩
  obtain ⟨found, hfound⟩ := Option.isSome_iff_exists.mp hsome
  obtain ⟨front, behind, hfirst⟩ := SchemaLoom.exists_firstOf hfound
  exact ⟨front, found, behind, hfirst⟩

theorem Keyed.not_skips (h : state.Keyed) (incoming : Definition) :
    ¬state.Skips incoming := by
  rintro ⟨hknown, hnone⟩
  obtain ⟨front, ours, behind, hfirst⟩ := h.exists_firstOf hknown
  rw [hfirst.findIdx?_eq] at hnone
  cases hnone

/-- With the right keys at hand a step is a merge by key. -/
theorem Keyed.held_step (h : state.Keyed) (incoming : Definition) :
    (state.step incoming).held =
      mergeInto .replaceWins (fun ours => ours.key = incoming.key) incoming
        state.held := by
  unfold step
  split
  · rename_i hknown
    obtain ⟨front, ours, behind, hfirst⟩ := h.exists_firstOf hknown
    rw [hfirst.findIdx?_eq, hfirst.mergeInto_eq]
    exact hfirst.modify_eq _
  · rename_i hunknown
    have hnone : ∀ ours ∈ state.held, decide (ours.key = incoming.key) = false := by
      intro ours hours
      refine decide_eq_false fun hkey => hunknown ((h _).mpr ?_)
      exact List.mem_map.mpr ⟨ours, hours, hkey⟩
    exact (mergeInto_of_none hnone).symm

theorem Keyed.step (h : state.Keyed) (incoming : Definition) :
    (state.step incoming).Keyed := by
  intro key
  unfold Appending.step
  split
  · rename_i hknown
    obtain ⟨front, ours, behind, hfirst⟩ := h.exists_firstOf hknown
    have hkey : ours.key = incoming.key := of_decide_eq_true hfirst.wanted
    -- What is merged in place, or takes the place, has the key that was there.
    have hmerged := Definition.merge_key .replaceWins hkey.symm
    have hkeys : (front ++ (ours.merge .replaceWins incoming).2 :: behind).map
        Definition.key = state.held.map Definition.key := by
      rw [hfirst.split]
      simp [hmerged]
    simp only [hfirst.findIdx?_eq, hfirst.modify_eq, hkeys, h key]
  · simp [h key, or_comm]

theorem Keyed.foldl_step (h : state.Keyed) (incoming : List Definition) :
    (incoming.foldl Appending.step state).Keyed := by
  induction incoming generalizing state with
  | nil => exact h
  | cons first rest ih => exact ih (h.step first)

theorem Keyed.held_foldl_step (h : state.Keyed) (incoming : List Definition) :
    (incoming.foldl Appending.step state).held =
      incoming.foldl
        (fun held definition =>
          mergeInto .replaceWins (fun ours => ours.key = definition.key) definition held)
        state.held := by
  induction incoming generalizing state with
  | nil => rfl
  | cons first rest ih =>
      rw [List.foldl_cons, List.foldl_cons, ih (h.step first), h.held_step]

/-- What a list becomes does not depend on how its keys are listed. -/
theorem Keyed.held_foldl_step_congr {other : Appending} (h : state.Keyed)
    (hother : other.Keyed) (hheld : state.held = other.held)
    (incoming : List Definition) :
    (incoming.foldl Appending.step state).held =
      (incoming.foldl Appending.step other).held := by
  rw [h.held_foldl_step, hother.held_foldl_step, hheld]

end Appending

/-- Appending merges by key, as if the list were searched for every definition. -/
theorem Tree.appendAll_eq_mergeInto (held incoming : List Definition) :
    appendAll held incoming =
      incoming.foldl
        (fun held definition =>
          mergeInto .replaceWins (fun ours => ours.key = definition.key) definition held)
        held :=
  (Appending.start_keyed held).held_foldl_step incoming

end SchemaLoom
