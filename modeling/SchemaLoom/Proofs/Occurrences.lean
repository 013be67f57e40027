import SchemaLoom.Proofs.Legible
import SchemaLoom.Proofs.ParsedSound

namespace SchemaLoom

/-! All names of a document as one list.  The name checks go through the names
outside of values in the order of the list, and stop at the first that is not
valid.  A document that was read has no such name, inside of values or outside. -/

def TypeRef.innermost : TypeRef → String
  | .named name => name
  | .list item => item.innermost
  | .nonNull type => type.innermost

def Directive.occurrences (directive : Directive) : List (NameContext × String) :=
  (.directive, directive.name) ::
    directive.arguments.map fun argument => (.argument, argument.1)

def InputValue.occurrences (input : InputValue) : List (NameContext × String) :=
  (.argument, input.name) :: (.typeReference, input.type.innermost) ::
    input.directives.flatMap Directive.occurrences

def FieldDef.occurrences (field : FieldDef) : List (NameContext × String) :=
  (.field, field.name) :: field.arguments.flatMap InputValue.occurrences
    ++ (.typeReference, field.type.innermost) ::
      field.directives.flatMap Directive.occurrences

def EnumValue.occurrences (value : EnumValue) : List (NameContext × String) :=
  (.enumValue, value.name) :: value.directives.flatMap Directive.occurrences

def SchemaDef.occurrences (decl : SchemaDef) : List (NameContext × String) :=
  decl.directives.flatMap Directive.occurrences
    ++ decl.operationTypes.map (.typeReference, ·)

def DirectiveDef.occurrences (decl : DirectiveDef) : List (NameContext × String) :=
  (.definition, decl.name) :: decl.arguments.flatMap InputValue.occurrences

/-- Interfaces come before the directives of a type, and the rest of its body behind
them. -/
def TypeDecl.occurrences (decl : TypeDecl) : List (NameContext × String) :=
  let directives := decl.directives.flatMap Directive.occurrences
  (.definition, decl.name) ::
    match decl.body with
    | .scalar => directives
    | .composite _ interfaces fields =>
        interfaces.map (.interface, ·) ++ directives
          ++ fields.flatMap FieldDef.occurrences
    | .union members => directives ++ members.map (.typeReference, ·)
    | .enum values => directives ++ values.flatMap EnumValue.occurrences
    | .input fields => directives ++ fields.flatMap InputValue.occurrences

def Definition.occurrences : Definition → List (NameContext × String)
  | .schema decl => decl.occurrences
  | .directive decl => decl.occurrences
  | .type decl => decl.occurrences

/-- The names outside of values, and what each stands for. -/
def Document.occurrences (document : Document) : List (NameContext × String) :=
  document.definitions.flatMap Definition.occurrences

/-- All names of a document: those that the checks look at, and the variables, enum
values and keys inside its values at any depth. -/
def Document.names (document : Document) : List String :=
  document.occurrences.map Prod.snd ++ document.values.flatMap Value.names

/-! The checks, name by name. -/

def checkAll (occurrences : List (NameContext × String)) : NameCheck :=
  occurrences.forM fun occurrence => checkName occurrence.1 occurrence.2

theorem checkAll_cons (context : NameContext) (name : String)
    (rest : List (NameContext × String)) :
    checkAll ((context, name) :: rest) = (do checkName context name; checkAll rest) :=
  List.forM_cons

theorem checkAll_append (front behind : List (NameContext × String)) :
    checkAll (front ++ behind) = (do checkAll front; checkAll behind) :=
  List.forM_append

theorem checkAll_map {α : Type} (view : α → NameContext × String) (items : List α) :
    checkAll (items.map view) =
      items.forM fun item => checkName (view item).1 (view item).2 :=
  List.forM_map

theorem checkAll_flatMap {α : Type} {check : α → NameCheck}
    {occurrences : α → List (NameContext × String)}
    (h : ∀ item, check item = checkAll (occurrences item)) (items : List α) :
    checkAll (items.flatMap occurrences) = items.forM check := by
  induction items with
  | nil => rfl
  | cons first rest ih =>
      rw [List.flatMap_cons, checkAll_append, ih, ← h]
      rfl

theorem checkAll_eq_ok_iff {occurrences : List (NameContext × String)} :
    checkAll occurrences = .ok () ↔
      ∀ occurrence ∈ occurrences, isValidName occurrence.2 = true := by
  simp [checkAll]

theorem TypeRef.check_eq (type : TypeRef) :
    type.check = checkName .typeReference type.innermost := by
  induction type with
  | named name => rfl
  | list item ih => exact ih
  | nonNull type ih => exact ih

theorem Directive.check_eq (directive : Directive) :
    directive.check = checkAll directive.occurrences := by
  rw [Directive.occurrences, checkAll_cons, checkAll_map]
  rfl

theorem checkAll_directives (directives : List Directive) :
    checkAll (directives.flatMap Directive.occurrences) = directives.forM Directive.check :=
  checkAll_flatMap Directive.check_eq directives

theorem InputValue.check_eq (input : InputValue) :
    input.check = checkAll input.occurrences := by
  rw [InputValue.occurrences, checkAll_cons, checkAll_cons, checkAll_directives,
    ← TypeRef.check_eq]
  rfl

theorem checkAll_inputValues (inputs : List InputValue) :
    checkAll (inputs.flatMap InputValue.occurrences) = inputs.forM InputValue.check :=
  checkAll_flatMap InputValue.check_eq inputs

theorem FieldDef.check_eq (field : FieldDef) :
    field.check = checkAll field.occurrences := by
  rw [FieldDef.occurrences, List.cons_append, checkAll_cons, checkAll_append,
    checkAll_cons, checkAll_inputValues, checkAll_directives, ← TypeRef.check_eq]
  rfl

theorem EnumValue.check_eq (value : EnumValue) :
    value.check = checkAll value.occurrences := by
  rw [EnumValue.occurrences, checkAll_cons, checkAll_directives]
  rfl

theorem TypeDecl.check_eq (decl : TypeDecl) :
    decl.check = checkAll decl.occurrences := by
  obtain ⟨form, pos, name, directives, body⟩ := decl
  rw [TypeDecl.occurrences, checkAll_cons]
  cases body with
  | scalar => rw [checkAll_directives]; rfl
  | composite sort interfaces fields =>
      dsimp only
      rw [List.append_assoc, checkAll_append, checkAll_append, checkAll_map,
        checkAll_directives, checkAll_flatMap FieldDef.check_eq]
      rfl
  | union members => rw [checkAll_append, checkAll_directives, checkAll_map]; rfl
  | enum values =>
      rw [checkAll_append, checkAll_directives, checkAll_flatMap EnumValue.check_eq]
      rfl
  | input fields => rw [checkAll_append, checkAll_directives, checkAll_inputValues]; rfl

theorem Definition.check_eq (definition : Definition) :
    definition.check = checkAll definition.occurrences := by
  cases definition with
  | schema decl =>
      rw [Definition.occurrences, SchemaDef.occurrences, checkAll_append,
        checkAll_directives, checkAll_map]
      rfl
  | directive decl =>
      rw [Definition.occurrences, DirectiveDef.occurrences, checkAll_cons,
        checkAll_inputValues]
      rfl
  | type decl => exact decl.check_eq

namespace Document

variable {document : Document}

/-- The check of a document goes through its occurrences. -/
theorem check_eq (document : Document) :
    document.check = checkAll document.occurrences :=
  (checkAll_flatMap Definition.check_eq document.definitions).symm

theorem check_eq_ok_iff_occurrences :
    document.check = .ok () ↔
      ∀ occurrence ∈ document.occurrences, isValidName occurrence.2 = true := by
  rw [check_eq, checkAll_eq_ok_iff]

/-- All names of a sound document are valid. -/
theorem Sound.isValidName_of_mem (hsound : document.Sound) :
    ∀ name ∈ document.names, isValidName name = true := by
  intro name hname
  rcases List.mem_append.mp hname with hoccurrence | hvalue
  · obtain ⟨occurrence, hmem, rfl⟩ := List.mem_map.mp hoccurrence
    exact check_eq_ok_iff_occurrences.mp hsound.check_eq_ok occurrence hmem
  · obtain ⟨value, hmem, hname⟩ := List.mem_flatMap.mp hvalue
    exact hsound.named value hmem name hname

/-- A document that was read has a definition, and all its names are valid. -/
theorem parse_names {text : String} (h : parse text = .ok document) :
    document.definitions ≠ [] ∧ ∀ name ∈ document.names, isValidName name = true :=
  ⟨(parse_sound h).nonempty, (parse_sound h).isValidName_of_mem⟩

/-- Names of every sort, some of them in objects inside lists. -/
def nestedNames : String :=
  "schema @s \x7b query: Q \x7d
    type A implements I @d(x: [\x7bk: [$v], l: E\x7d]) \x7b
      f(y: [In!] = \x7bm: \x7bn: F\x7d\x7d): B @e \x7d
    union U = M"

theorem parse_names_nestedNames :
    ∃ document, parse nestedNames = .ok document ∧
      document.names = ["s", "Q", "A", "I", "d", "x", "f", "y", "In", "B", "e", "U", "M",
        "k", "l", "v", "E", "m", "n", "F"] ∧
      document.definitions ≠ [] ∧ ∀ name ∈ document.names, isValidName name = true := by
  have hread : (parse nestedNames).toOption.any
      (fun document => document.names = ["s", "Q", "A", "I", "d", "x", "f", "y", "In", "B",
        "e", "U", "M", "k", "l", "v", "E", "m", "n", "F"]) = true := by
    decide +kernel
  cases hparse : parse nestedNames with
  | error error =>
      rw [hparse] at hread
      cases hread
  | ok document =>
      rw [hparse] at hread
      exact ⟨document, rfl, of_decide_eq_true hread, parse_names hparse⟩

end Document

end SchemaLoom
