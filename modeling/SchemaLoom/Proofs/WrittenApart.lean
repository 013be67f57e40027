import SchemaLoom.Proofs.Spelling

namespace SchemaLoom

open Layout

/-! In a written document, tokens that are no marks never touch each other, whatever
stands in its values. -/

namespace Layout

theorem apart_word (name : String) {rest : List Piece} (hopens : Opens rest)
    (hrest : Apart rest) : Apart (word name :: rest) :=
  ⟨trivial, fun _ => hopens, hrest⟩

theorem apart_sign {mark : Mark} (hmark : mark ≠ .spread) {rest : List Piece}
    (hrest : Apart rest) : Apart (sign mark :: rest) :=
  .cons hmark rfl hrest

theorem apart_space {rest : List Piece} (hrest : Apart rest) : Apart (space :: rest) :=
  .cons isGap_space rfl hrest

theorem apart_newLine (indent : Nat) {rest : List Piece} (hrest : Apart rest) :
    Apart (newLine indent :: rest) :=
  .cons (isGap_newLine indent) rfl hrest

theorem opens_sign (mark : Mark) (rest : List Piece) : Opens (sign mark :: rest) :=
  opens_cons rfl rest

theorem opens_space (rest : List Piece) : Opens (space :: rest) :=
  opens_cons rfl rest

theorem opens_newLine (indent : Nat) (rest : List Piece) : Opens (newLine indent :: rest) :=
  opens_cons rfl rest

theorem literal_isWritten (indent : Nat) (text : String) :
    (literal indent text).IsWritten := by
  unfold literal
  split
  · exact ⟨indent, text.toList, rfl⟩
  · exact ⟨text.toList, rfl⟩

theorem apart_literal (indent : Nat) (text : String) {rest : List Piece}
    (hopens : Opens rest) (hrest : Apart rest) : Apart (literal indent text :: rest) :=
  ⟨literal_isWritten indent text, fun _ => hopens, hrest⟩

theorem space_isWritten : space.IsWritten := isGap_space

theorem newLine_isWritten (indent : Nat) : (newLine indent).IsWritten :=
  isGap_newLine indent

theorem apart_described (indent : Nat) {between : Piece} (hbetween : between.IsWritten)
    (hends : between.endsToken = true) (description : Option String) {rest : List Piece}
    (hrest : Apart rest) : Apart (described indent between description ++ rest) := by
  cases description with
  | none => exact hrest
  | some text =>
      exact apart_literal indent text (opens_cons hends _) (.cons hbetween hends hrest)

theorem apart_inParens {items : List (List Piece)} (hitems : ∀ item ∈ items, Apart item) :
    Apart (inParens items) := by
  unfold inParens
  split
  · trivial
  · refine apart_sign (by decide) ((apart_joined isGap_comma hitems).append ?_ ?_)
    · exact apart_sign (by decide) trivial
    · exact opens_sign _ _

theorem opens_inParens (items : List (List Piece)) : Opens (inParens items) := by
  unfold inParens
  split
  · exact opens_nil
  · exact opens_sign _ _

theorem apart_inBraces {members : List (List Piece)}
    (hmembers : ∀ member ∈ members, Apart member) : Apart (inBraces members) := by
  have hlines : Apart (members.flatMap (newLine memberIndent :: ·)) := by
    refine (apart_flatMap ?_ ?_).1
    · intro member hmember
      exact apart_newLine _ (hmembers member hmember)
    · intro member _
      exact opens_newLine _ member
  have hclosing : Apart [newLine 0, sign .closeBrace] :=
    apart_newLine 0 (apart_sign (by decide) trivial)
  unfold inBraces
  rw [List.append_assoc]
  exact apart_space (apart_sign (by decide) (hlines.append hclosing (opens_newLine _ _)))

theorem opens_inBraces (members : List (List Piece)) : Opens (inBraces members) :=
  opens_space _

theorem apart_inBracesIfAny {members : List (List Piece)}
    (hmembers : ∀ member ∈ members, Apart member) : Apart (inBracesIfAny members) := by
  unfold inBracesIfAny
  split
  · trivial
  · exact apart_inBraces hmembers

theorem opens_inBracesIfAny (members : List (List Piece)) :
    Opens (inBracesIfAny members) := by
  unfold inBracesIfAny
  split
  · exact opens_nil
  · exact opens_inBraces members

theorem apart_joined_words {between : Mark} (hbetween : between ≠ .spread)
    (names : List String) :
    Apart (joined [space, sign between, space] (names.map ([word ·]))) := by
  induction names with
  | nil => trivial
  | cons first rest ih =>
      cases rest with
      | nil => exact apart_word first opens_nil trivial
      | cons second rest =>
          rw [List.map_cons, List.map_cons, joined_cons_cons]
          exact apart_word first (opens_space _)
            (apart_space (apart_sign hbetween (apart_space ih)))

theorem apart_listed (lead : Piece) (hlead : lead.IsWritten) {between : Mark}
    (hbetween : between ≠ .spread) (names : List String) :
    Apart (listed [space, lead, space] between names) := by
  unfold listed
  split
  · trivial
  · refine apart_space ⟨hlead, fun _ => opens_space _, ?_⟩
    exact apart_space (apart_joined_words hbetween names)

theorem opens_listed (lead : Piece) (between : Mark) (names : List String) :
    Opens (listed [space, lead, space] between names) := by
  unfold listed
  split
  · exact opens_nil
  · exact opens_space _

end Layout

theorem TypeRef.apart (type : TypeRef) : Apart type.pieces := by
  induction type with
  | named name => exact apart_word name opens_nil trivial
  | list item ih =>
      exact apart_sign (by decide)
        (ih.append (apart_sign (by decide) trivial) (opens_sign _ _))
  | nonNull type ih => exact ih.append (apart_sign (by decide) trivial) (opens_sign _ _)

mutual

theorem Value.apart (indent : Nat) : (value : Value) → Apart (value.pieces indent)
  | .variable name => apart_sign (by decide) (apart_word name opens_nil trivial)
  | .int value => ⟨⟨value, rfl⟩, fun _ => opens_nil, trivial⟩
  | .float value => ⟨⟨value, rfl⟩, fun _ => opens_nil, trivial⟩
  | .string text => apart_literal indent text opens_nil trivial
  | .boolean true => apart_word _ opens_nil trivial
  | .boolean false => apart_word _ opens_nil trivial
  | .null => apart_word _ opens_nil trivial
  | .enum name => apart_word name opens_nil trivial
  | .list items =>
      apart_sign (by decide) ((apart_joined isGap_comma (Value.apart_items indent items)).append
        (apart_sign (by decide) trivial) (opens_sign _ _))
  | .object members =>
      apart_sign (by decide)
        ((apart_joined isGap_comma (Value.apart_members indent members)).append
          (apart_sign (by decide) trivial) (opens_sign _ _))

theorem Value.apart_items (indent : Nat) :
    (items : List Value) → ∀ item ∈ Value.itemPieces indent items, Apart item
  | [] => by simp [Value.itemPieces]
  | first :: rest =>
      List.forall_mem_cons.mpr ⟨Value.apart indent first, Value.apart_items indent rest⟩

theorem Value.apart_members (indent : Nat) :
    (members : List (String × Value)) →
      ∀ item ∈ Value.memberPieces indent members, Apart item
  | [] => by simp [Value.memberPieces]
  | (key, value) :: rest => by
      refine List.forall_mem_cons.mpr ⟨?_, Value.apart_members indent rest⟩
      exact apart_word key (opens_sign _ _)
        (apart_sign (by decide) (apart_space (Value.apart indent value)))

end

theorem Directive.apart (indent : Nat) (directive : Directive) :
    Apart (directive.pieces indent) :=
  apart_sign (by decide) (apart_word _ (opens_inParens _)
    (apart_inParens (Value.apart_members indent directive.arguments)))

theorem apart_directives (indent : Nat) (directives : List Directive) :
    Apart (directivePieces indent directives) := by
  refine (apart_flatMap ?_ ?_).1
  · intro directive _
    exact apart_space (directive.apart indent)
  · intro directive _
    exact opens_space _

theorem opens_directives (indent : Nat) (directives : List Directive) :
    Opens (directivePieces indent directives) := by
  cases directives with
  | nil => exact opens_nil
  | cons first rest => exact opens_space _

theorem InputValue.apart (indent : Nat) (input : InputValue) :
    Apart (input.pieces indent) := by
  have hhead : Apart (word input.name :: sign .colon :: space :: input.type.pieces) :=
    apart_word _ (opens_sign _ _) (apart_sign (by decide) (apart_space input.type.apart))
  unfold InputValue.pieces
  rw [List.append_assoc, List.append_assoc]
  refine apart_described indent space_isWritten rfl _ (hhead.append ?_ ?_)
  · refine Apart.append ?_ (apart_directives indent _) (opens_directives indent _)
    cases input.defaultValue with
    | none => trivial
    | some value =>
        exact apart_space (apart_sign (by decide) (apart_space (value.apart indent)))
  · refine Opens.append ?_ (opens_directives indent _)
    cases input.defaultValue with
    | none => exact opens_nil
    | some value => exact opens_space _

theorem FieldDef.apart (indent : Nat) (field : FieldDef) : Apart (field.pieces indent) := by
  have harguments : Apart (inParens (field.arguments.map (InputValue.pieces indent))) := by
    apply apart_inParens
    intro pieces hpieces
    obtain ⟨input, _, rfl⟩ := List.mem_map.mp hpieces
    exact input.apart indent
  have htype : Apart (sign .colon :: space :: field.type.pieces) :=
    apart_sign (by decide) (apart_space field.type.apart)
  unfold FieldDef.pieces
  rw [List.append_assoc, List.append_assoc, List.cons_append]
  refine apart_described indent (newLine_isWritten indent) rfl _ (apart_word _ ?_ ?_)
  · exact (opens_inParens _).append (opens_sign _ _)
  · refine harguments.append ?_ (opens_sign _ _)
    exact htype.append (apart_directives indent _) (opens_directives indent _)

theorem EnumValue.apart (indent : Nat) (value : EnumValue) : Apart (value.pieces indent) :=
  apart_described indent space_isWritten rfl _
    (apart_word _ (opens_directives indent _) (apart_directives indent _))

theorem SchemaDef.apart (decl : SchemaDef) : Apart decl.pieces := by
  have hoperation : ∀ operation type, ∀ pieces ∈ operationPieces operation type,
      Apart pieces := by
    intro operation type pieces hpieces
    cases type with
    | none => cases hpieces
    | some type =>
        rw [List.mem_singleton.mp hpieces]
        exact apart_word _ (opens_sign _ _) (apart_sign (by decide)
          (apart_space (apart_word _ opens_nil trivial)))
  refine apart_word _ ?_ ((apart_directives 0 _).append (apart_inBraces ?_) (opens_inBraces _))
  · exact (opens_directives 0 _).append (opens_inBraces _)
  · intro pieces hpieces
    rcases List.mem_append.mp hpieces with hpieces | hpieces
    · rcases List.mem_append.mp hpieces with hpieces | hpieces
      · exact hoperation _ _ pieces hpieces
      · exact hoperation _ _ pieces hpieces
    · exact hoperation _ _ pieces hpieces

theorem DirectiveDef.apart (decl : DirectiveDef) : Apart decl.pieces := by
  have harguments : Apart (inParens (decl.arguments.map (InputValue.pieces 0))) := by
    apply apart_inParens
    intro pieces hpieces
    obtain ⟨input, _, rfl⟩ := List.mem_map.mp hpieces
    exact input.apart 0
  have hrepeatable : Apart (if decl.repeatable then [space, word "repeatable"] else []) := by
    split
    · exact apart_space (apart_word _ opens_nil trivial)
    · trivial
  have hopens : Opens (if decl.repeatable then [space, word "repeatable"] else []) := by
    split
    · exact opens_space _
    · exact opens_nil
  have hlocations : Apart (listed [space, word "on", space] .pipe
      (decl.locations.map Location.text)) := apart_listed (word "on") trivial (by decide) _
  unfold DirectiveDef.pieces
  rw [List.append_assoc, List.append_assoc]
  refine apart_described 0 (newLine_isWritten 0) rfl _ ?_
  refine apart_word _ (opens_space _) (apart_space (apart_sign (by decide) ?_))
  refine apart_word _ ?_ (harguments.append (hrepeatable.append hlocations (opens_listed _ _ _)) ?_)
  · exact (opens_inParens _).append (hopens.append (opens_listed _ _ _))
  · exact hopens.append (opens_listed _ _ _)

/-- The part of a type that stands between its name and its directives. -/
def TypeBody.interfacePieces : TypeBody → List Piece
  | .composite _ interfaces _ =>
      listed [space, word "implements", space] .ampersand interfaces
  | _ => []

/-- The part of a type that stands behind its directives. -/
def TypeBody.memberPieces : TypeBody → List Piece
  | .scalar => []
  | .composite _ _ fields => inBracesIfAny (fields.map (FieldDef.pieces memberIndent))
  | .union members => listed [space, sign .equals, space] .pipe members
  | .enum values => inBracesIfAny (values.map (EnumValue.pieces memberIndent))
  | .input fields => inBracesIfAny (fields.map (InputValue.pieces memberIndent))

theorem TypeDecl.pieces_eq (decl : TypeDecl) :
    decl.pieces = decl.form.pieces ++ (word decl.body.keyword :: space :: word decl.name ::
      (decl.body.interfacePieces ++
        (directivePieces 0 decl.directives ++ decl.body.memberPieces))) := by
  obtain ⟨form, pos, name, directives, body⟩ := decl
  cases body <;>
    simp [TypeDecl.pieces, TypeBody.interfacePieces, TypeBody.memberPieces]

theorem TypeBody.apart_interfaces (body : TypeBody) : Apart body.interfacePieces := by
  cases body with
  | composite sort interfaces fields => exact apart_listed (word "implements") trivial (by decide) _
  | _ => trivial

theorem TypeBody.opens_interfaces (body : TypeBody) : Opens body.interfacePieces := by
  cases body with
  | composite sort interfaces fields => exact opens_listed _ _ _
  | _ => exact opens_nil

theorem TypeBody.apart_members (body : TypeBody) : Apart body.memberPieces := by
  cases body with
  | scalar => trivial
  | composite sort interfaces fields =>
      apply apart_inBracesIfAny
      intro pieces hpieces
      obtain ⟨field, _, rfl⟩ := List.mem_map.mp hpieces
      exact field.apart memberIndent
  | union members =>
      exact apart_listed (sign .equals) (show Mark.equals ≠ .spread by decide) (by decide) _
  | enum values =>
      apply apart_inBracesIfAny
      intro pieces hpieces
      obtain ⟨value, _, rfl⟩ := List.mem_map.mp hpieces
      exact value.apart memberIndent
  | input fields =>
      apply apart_inBracesIfAny
      intro pieces hpieces
      obtain ⟨field, _, rfl⟩ := List.mem_map.mp hpieces
      exact field.apart memberIndent

theorem TypeBody.opens_members (body : TypeBody) : Opens body.memberPieces := by
  cases body with
  | scalar => exact opens_nil
  | union members => exact opens_listed _ _ _
  | _ => exact opens_inBracesIfAny _

theorem TypeDecl.apart (decl : TypeDecl) : Apart decl.pieces := by
  have hbehind : Opens (decl.body.interfacePieces ++
      (directivePieces 0 decl.directives ++ decl.body.memberPieces)) :=
    decl.body.opens_interfaces.append
      ((opens_directives 0 _).append decl.body.opens_members)
  have hrest : Apart (word decl.body.keyword :: space :: word decl.name ::
      (decl.body.interfacePieces ++
        (directivePieces 0 decl.directives ++ decl.body.memberPieces))) := by
    refine apart_word _ (opens_space _) (apart_space (apart_word _ hbehind ?_))
    refine decl.body.apart_interfaces.append ?_ ?_
    · exact (apart_directives 0 _).append decl.body.apart_members decl.body.opens_members
    · exact (opens_directives 0 _).append decl.body.opens_members
  rw [TypeDecl.pieces_eq]
  cases decl.form with
  | definition description => exact apart_described 0 (newLine_isWritten 0) rfl _ hrest
  | extension => exact apart_word _ (opens_space _) (apart_space hrest)

theorem Definition.apart (definition : Definition) : Apart definition.pieces := by
  unfold Definition.pieces
  refine Apart.append ?_ (apart_newLine 0 trivial) (opens_newLine _ _)
  cases definition with
  | schema decl => exact decl.apart
  | directive decl => exact decl.apart
  | type decl => exact decl.apart

theorem Document.apart (document : Document) : Apart document.pieces := by
  apply apart_joined (isGap_newLine 0)
  intro pieces hpieces
  obtain ⟨definition, _, rfl⟩ := List.mem_map.mp hpieces
  exact definition.apart

end SchemaLoom
