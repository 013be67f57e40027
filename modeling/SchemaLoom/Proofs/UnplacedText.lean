import SchemaLoom.Proofs.Occurrences
import SchemaLoom.Proofs.Unplaced
import SchemaLoom.Document.Normal

namespace SchemaLoom

open Layout

/-! Positions are not written.  A document and the same document at other positions
have one written form, if any, and so one normal form. -/

section Absorbed

variable {α β : Type} {erase : α → α}

theorem map_map_of_absorbed {view : α → β} (h : ∀ item, view (erase item) = view item)
    (items : List α) : (items.map erase).map view = items.map view := by
  rw [List.map_map]
  exact List.map_congr_left fun item _ => h item

theorem flatMap_map_of_absorbed {view : α → List β}
    (h : ∀ item, view (erase item) = view item) (items : List α) :
    (items.map erase).flatMap view = items.flatMap view := by
  rw [List.flatMap_map]
  exact congrArg (items.flatMap ·) (funext h)

end Absorbed

/-! The names that are checked. -/

theorem Directive.occurrences_unplaced (directive : Directive) :
    directive.unplaced.occurrences = directive.occurrences := rfl

theorem flatMap_occurrences_directives (directives : List Directive) :
    (directives.map Directive.unplaced).flatMap Directive.occurrences =
      directives.flatMap Directive.occurrences :=
  flatMap_map_of_absorbed Directive.occurrences_unplaced directives

theorem InputValue.occurrences_unplaced (input : InputValue) :
    input.unplaced.occurrences = input.occurrences := by
  simp only [occurrences, unplaced, flatMap_occurrences_directives]

theorem flatMap_occurrences_inputValues (inputs : List InputValue) :
    (inputs.map InputValue.unplaced).flatMap InputValue.occurrences =
      inputs.flatMap InputValue.occurrences :=
  flatMap_map_of_absorbed InputValue.occurrences_unplaced inputs

theorem FieldDef.occurrences_unplaced (field : FieldDef) :
    field.unplaced.occurrences = field.occurrences := by
  simp only [occurrences, unplaced, flatMap_occurrences_directives,
    flatMap_occurrences_inputValues]

theorem EnumValue.occurrences_unplaced (value : EnumValue) :
    value.unplaced.occurrences = value.occurrences := by
  simp only [occurrences, unplaced, flatMap_occurrences_directives]

theorem TypeDecl.occurrences_unplaced (decl : TypeDecl) :
    decl.unplaced.occurrences = decl.occurrences := by
  obtain ⟨form, pos, name, directives, body⟩ := decl
  cases body <;>
    simp only [occurrences, unplaced, TypeBody.unplaced, flatMap_occurrences_directives,
      flatMap_occurrences_inputValues, flatMap_map_of_absorbed FieldDef.occurrences_unplaced,
      flatMap_map_of_absorbed EnumValue.occurrences_unplaced]

theorem Definition.occurrences_unplaced (definition : Definition) :
    definition.unplaced.occurrences = definition.occurrences := by
  cases definition with
  | schema decl =>
      simp only [unplaced, occurrences, SchemaDef.occurrences, SchemaDef.unplaced,
        SchemaDef.operationTypes, flatMap_occurrences_directives]
  | directive decl =>
      simp only [unplaced, occurrences, DirectiveDef.occurrences, DirectiveDef.unplaced,
        flatMap_occurrences_inputValues]
  | type decl => exact decl.occurrences_unplaced

theorem Document.occurrences_unplaced (document : Document) :
    document.unplaced.occurrences = document.occurrences :=
  flatMap_map_of_absorbed Definition.occurrences_unplaced document.definitions

/-! The pieces that are written. -/

theorem Directive.pieces_unplaced (indent : Nat) (directive : Directive) :
    directive.unplaced.pieces indent = directive.pieces indent := rfl

theorem directivePieces_unplaced (indent : Nat) (directives : List Directive) :
    directivePieces indent (directives.map Directive.unplaced) =
      directivePieces indent directives := by
  apply flatMap_map_of_absorbed
  intro directive
  rw [Directive.pieces_unplaced]

theorem InputValue.pieces_unplaced (indent : Nat) (input : InputValue) :
    input.unplaced.pieces indent = input.pieces indent := by
  simp only [pieces, unplaced, directivePieces_unplaced]

theorem map_pieces_inputValues (indent : Nat) (inputs : List InputValue) :
    (inputs.map InputValue.unplaced).map (InputValue.pieces indent) =
      inputs.map (InputValue.pieces indent) :=
  map_map_of_absorbed (InputValue.pieces_unplaced indent) inputs

theorem FieldDef.pieces_unplaced (indent : Nat) (field : FieldDef) :
    field.unplaced.pieces indent = field.pieces indent := by
  simp only [pieces, unplaced, directivePieces_unplaced, map_pieces_inputValues]

theorem EnumValue.pieces_unplaced (indent : Nat) (value : EnumValue) :
    value.unplaced.pieces indent = value.pieces indent := by
  simp only [pieces, unplaced, directivePieces_unplaced]

theorem TypeBody.keyword_unplaced (body : TypeBody) :
    body.unplaced.keyword = body.keyword := by
  cases body with
  | composite sort interfaces fields => cases sort <;> rfl
  | _ => rfl

theorem TypeDecl.pieces_unplaced (decl : TypeDecl) :
    decl.unplaced.pieces = decl.pieces := by
  obtain ⟨form, pos, name, directives, body⟩ := decl
  simp only [pieces, unplaced, directivePieces_unplaced, TypeBody.keyword_unplaced]
  cases body <;>
    simp only [TypeBody.unplaced, map_pieces_inputValues,
      map_map_of_absorbed (FieldDef.pieces_unplaced _),
      map_map_of_absorbed (EnumValue.pieces_unplaced _)]

theorem Definition.pieces_unplaced (definition : Definition) :
    definition.unplaced.pieces = definition.pieces := by
  cases definition with
  | schema decl =>
      simp only [unplaced, pieces, SchemaDef.pieces, SchemaDef.unplaced,
        directivePieces_unplaced]
  | directive decl =>
      simp only [unplaced, pieces, DirectiveDef.pieces, DirectiveDef.unplaced,
        map_pieces_inputValues]
  | type decl => simp only [unplaced, pieces, TypeDecl.pieces_unplaced]

namespace Document

theorem toText_unplaced (document : Document) :
    document.unplaced.toText = document.toText := by
  have hpieces : document.unplaced.pieces = document.pieces :=
    congrArg (joined [newLine 0])
      (map_map_of_absorbed Definition.pieces_unplaced document.definitions)
  rw [toText, hpieces]
  rfl

theorem print_unplaced (document : Document) :
    document.unplaced.print = document.print := by
  rw [print, print, check_eq, check_eq, occurrences_unplaced, toText_unplaced]

theorem normalize_unplaced (document : Document) :
    document.unplaced.normalize = document.normalize := by
  rw [normalize, normalize, print_unplaced]

end Document

end SchemaLoom
