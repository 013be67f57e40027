import SchemaLoom.Proofs.Occurrences
import SchemaLoom.Proofs.Printable

namespace SchemaLoom

/-! Which name is refused.  Writing a document stops at the first of its occurrences
whose name is not valid, and an overlay is kept exactly if there is none. -/

/-- A name that is not valid, with valid ones only before it. -/
def FirstInvalid (occurrences : List (NameContext × String)) (context : NameContext)
    (name : String) : Prop :=
  ∃ front behind, occurrences = front ++ (context, name) :: behind ∧
    (∀ earlier ∈ front, isValidName earlier.2 = true) ∧ isValidName name = false

def firstInvalid? (occurrences : List (NameContext × String)) :
    Option (NameContext × String) :=
  occurrences.find? fun occurrence => !isValidName occurrence.2

section

variable {occurrences : List (NameContext × String)} {context : NameContext} {name : String}

theorem firstInvalid?_eq_some_iff :
    firstInvalid? occurrences = some (context, name) ↔
      FirstInvalid occurrences context name := by
  rw [firstInvalid?, List.find?_eq_some_iff_append]
  simp only [Bool.not_eq_true', Bool.not_not]
  constructor
  · rintro ⟨hname, front, behind, hsplit, hfront⟩
    exact ⟨front, behind, hsplit, hfront, hname⟩
  · rintro ⟨front, behind, hsplit, hfront, hname⟩
    exact ⟨hname, front, behind, hsplit, hfront⟩

theorem checkAll_eq_firstInvalid? (occurrences : List (NameContext × String)) :
    checkAll occurrences =
      match firstInvalid? occurrences with
      | none => .ok ()
      | some (context, name) => .error (.invalidName context name) := by
  induction occurrences with
  | nil => rfl
  | cons first rest ih =>
      obtain ⟨context, name⟩ := first
      rw [checkAll_cons, ih, firstInvalid?, firstInvalid?, List.find?_cons]
      cases hname : isValidName name with
      | false => simp [checkName, hname, bind, Except.bind]
      | true => simp [checkName, hname, bind, Except.bind]

theorem checkAll_eq_error_iff :
    checkAll occurrences = .error (.invalidName context name) ↔
      FirstInvalid occurrences context name := by
  rw [checkAll_eq_firstInvalid?, ← firstInvalid?_eq_some_iff]
  cases firstInvalid? occurrences with
  | none => simp
  | some first => simp [Prod.ext_iff]

end

namespace Document

theorem print_eq_error_iff {document : Document} {error : PrintError} :
    document.print = .error error ↔ document.check = .error error := by
  unfold print
  cases document.check with
  | error found => simp [bind, Except.bind]
  | ok passed => simp [bind, Except.bind, pure, Except.pure]

theorem exists_print_iff {document : Document} :
    (∃ text, document.print = .ok text) ↔
      ∀ occurrence ∈ document.occurrences, isValidName occurrence.2 = true := by
  rw [← check_eq_ok_iff_occurrences]
  simp only [print_eq_ok_iff, exists_and_left, exists_eq, and_true]

/-- A document is refused with its first name that is not valid, and written if there is
none.  An overlay is kept exactly in that case, and else the tree is as it was. -/
theorem print_refuses_first (document : Document) :
    (∀ context name, document.print = .error (.invalidName context name) ↔
      FirstInvalid document.occurrences context name) ∧
    ((∃ text, document.print = .ok text) ↔
      ∀ occurrence ∈ document.occurrences, isValidName occurrence.2 = true) ∧
    ∀ tree : Tree,
      (∀ text, document.print = .ok text →
        tree.overlay (some document.definitions) = .ofDocument document) ∧
      (∀ error, document.print = .error error →
        tree.overlay (some document.definitions) = tree) ∧
      tree.overlay none = tree := by
  refine ⟨?_, exists_print_iff, ?_⟩
  · intro context name
    rw [print_eq_error_iff, check_eq, checkAll_eq_error_iff]
  · intro tree
    refine ⟨?_, ?_, rfl⟩
    · intro text hprint
      simp only [Tree.overlay, hprint]
    · intro error hprint
      simp only [Tree.overlay, hprint]

/-- Neither the interface nor the directive has a valid name. -/
def misnamed : Document :=
  ⟨[.type {
    form := .extension
    pos := .start
    name := "A"
    directives := [⟨.start, "no directive", []⟩]
    body := .composite .object ["no interface"] [] }]⟩

theorem print_refuses_first_misnamed :
    FirstInvalid misnamed.occurrences .interface "no interface" ∧
      misnamed.print = .error (.invalidName .interface "no interface") ∧
      (Tree.emptyObject queryType).overlay (some misnamed.definitions) =
        .emptyObject queryType := by
  have hfirst : FirstInvalid misnamed.occurrences .interface "no interface" :=
    ⟨[(.definition, "A")], [(.directive, "no directive")], rfl, by decide, by decide⟩
  obtain ⟨herror, _, hoverlay⟩ := print_refuses_first misnamed
  have hprint := (herror _ _).mpr hfirst
  exact ⟨hfirst, hprint, (hoverlay _).2.1 _ hprint⟩

end Document

end SchemaLoom
