import SchemaLoom.Proofs.Printable
import SchemaLoom.Proofs.RootTypes

namespace SchemaLoom

/-! Outcomes of a merge.  Three tables have a say in it: the kind of a definition, the
strategy of the kind, and the parts of the definition.  They single out the same
definitions, so a merge either joins all parts of both or leaves one of the two as it
is. -/

namespace Definition

def pos : Definition → Pos
  | .schema decl => decl.pos
  | .directive decl => decl.pos
  | .type decl => decl.pos

def description? : Definition → Option String
  | .schema _ => none
  | .directive decl => decl.description
  | .type decl =>
      match decl.form with
      | .definition description => description
      | .extension => none

/-- Ours with the parts of theirs behind its own, and with all else as it was. -/
structure Joined (ours theirs result : Definition) : Prop where
  kind : result.kind = ours.kind
  name : result.name? = ours.name?
  description : result.description? = ours.description?
  pos : result.pos = ours.pos
  parts : result.parts? = some (ours.parts.append theirs.parts)

theorem joined_of_concat? {ours theirs joined : Definition}
    (h : ours.concat? theirs = some joined) :
    ours.parts?.isSome ∧ theirs.parts?.isSome ∧ Joined ours theirs joined := by
  unfold concat? at h
  split at h
  · rename_i ours theirs
    split at h
    · rename_i sort interfaces fields sort' interfaces' fields' hbody hbody'
      cases h
      refine ⟨by simp [parts?, hbody], by simp [parts?, hbody'], ?_⟩
      constructor
      case kind => cases sort <;> simp [Definition.kind, hbody, TypeBody.shape]
      case name => rfl
      case description => rfl
      case pos => rfl
      case parts => simp [parts?, Definition.parts, hbody, hbody', Parts.append]
    · cases h
  · cases h

theorem merge_concatenated_iff (policy : Policy) (ours theirs : Definition) :
    (ours.merge policy theirs).1 = .concatenated ↔
      ours.kind ∈ Kind.composites ∧ theirs.kind ∈ Kind.composites ∧
        (policy = .keepExisting ∨ ours.kind = theirs.kind) := by
  obtain ⟨joined, hjoins, hjoined, hmerge⟩ | ⟨hnone, hchosen⟩ :=
    merge_cases policy ours theirs
  · obtain ⟨hours, hpolicy⟩ := Policy.joins_iff.mp hjoins
    obtain ⟨_, htheirs, _⟩ := joined_of_concat? hjoined
    simp [hmerge, hours, hpolicy, parts?_isSome_iff.mp htheirs]
  · constructor
    · intro hconcatenated
      obtain ⟨_, hmerge⟩ | ⟨_, hmerge⟩ := hchosen <;> simp [hmerge] at hconcatenated
    · rintro ⟨hours, htheirs, hpolicy⟩
      -- Two definitions with parts can be joined, so the policy must have kept them apart.
      obtain ⟨joined, hjoined, _⟩ := concat?_of_parts (parts?_isSome_iff.mpr hours)
        (parts?_isSome_iff.mpr htheirs)
      rw [hnone (Policy.joins_iff.mpr ⟨hours, hpolicy⟩)] at hjoined
      cases hjoined

structure Merged (policy : Policy) (ours theirs : Definition) (outcome : Outcome)
    (result : Definition) : Prop where
  concatenated_iff : outcome = .concatenated ↔
    ours.kind ∈ Kind.composites ∧ theirs.kind ∈ Kind.composites ∧
      (policy = .keepExisting ∨ ours.kind = theirs.kind)
  joined : outcome = .concatenated → Joined ours theirs result
  kept : outcome ≠ .concatenated → policy = .keepExisting →
    outcome = .kept ∧ result = ours
  replaced : outcome ≠ .concatenated → policy = .replaceWins →
    outcome = .replaced ∧ result = theirs
  key : ours.key = theirs.key → result.key = ours.key
  check : ours.check = .ok () → theirs.check = .ok () → result.check = .ok ()

/-- A merge joins all parts of both definitions exactly if both are objects or
interfaces and the policy does not ask for more, and otherwise leaves one of them as it
is.  It keeps a shared key, and a definition that can be written. -/
theorem merge_joins_or_chooses (policy : Policy) (ours theirs : Definition) :
    Merged policy ours theirs (ours.merge policy theirs).1
      (ours.merge policy theirs).2 := by
  have hiff := merge_concatenated_iff policy ours theirs
  have hkey := fun h : ours.key = theirs.key => merge_key policy h.symm
  have hcheck := mergeClosed_check policy ours theirs
  obtain ⟨joined, _, hjoined, hmerge⟩ | ⟨_, ⟨rfl, hmerge⟩ | ⟨rfl, hmerge⟩⟩ :=
    merge_cases policy ours theirs
  · rw [hmerge] at hiff hkey hcheck ⊢
    exact {
      concatenated_iff := hiff
      joined := fun _ => (joined_of_concat? hjoined).2.2
      kept := fun hapart => absurd rfl hapart
      replaced := fun hapart => absurd rfl hapart
      key := hkey
      check := hcheck }
  · rw [hmerge] at hiff hkey hcheck ⊢
    exact {
      concatenated_iff := hiff
      joined := nofun
      kept := fun _ _ => ⟨rfl, rfl⟩
      replaced := nofun
      key := hkey
      check := hcheck }
  · rw [hmerge] at hiff hkey hcheck ⊢
    exact {
      concatenated_iff := hiff
      joined := nofun
      kept := nofun
      replaced := fun _ _ => ⟨rfl, rfl⟩
      key := hkey
      check := hcheck }

/-- The type of queries as an interface, which extensions of the object can join. -/
def queryInterface : Definition :=
  .type {
    form := .definition (some "d")
    pos := .start
    name := queryType
    directives := []
    body := .composite .interface ["I"] [] }

theorem merge_joins_or_chooses_queryInterface :
    (queryInterface.key = (queryWith .extension "b").key ∧
      queryInterface.check = .ok () ∧ (queryWith .extension "b").check = .ok ()) ∧
    (Joined queryInterface (queryWith .extension "b")
        (queryInterface.merge .keepExisting (queryWith .extension "b")).2 ∧
      (queryInterface.merge .keepExisting (queryWith .extension "b")).2.check = .ok () ∧
      (queryInterface.merge .keepExisting (queryWith .extension "b")).2.key =
        queryInterface.key) ∧
    queryInterface.merge .replaceWins (queryWith .extension "b") =
      (.replaced, queryWith .extension "b") := by
  have hshared : queryInterface.key = (queryWith .extension "b").key := rfl
  have hours : queryInterface.check = .ok () := by decide
  have htheirs : (queryWith .extension "b").check = .ok () := by decide
  have hkeep := merge_joins_or_chooses .keepExisting queryInterface (queryWith .extension "b")
  have hreplace := merge_joins_or_chooses .replaceWins queryInterface (queryWith .extension "b")
  obtain ⟨houtcome, hresult⟩ := hreplace.replaced (by decide) rfl
  exact ⟨⟨hshared, hours, htheirs⟩,
    ⟨hkeep.joined rfl, hkeep.check hours htheirs, hkeep.key hshared⟩,
    Prod.ext houtcome hresult⟩

end Definition

end SchemaLoom
