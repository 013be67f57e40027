import SchemaLoom.Proofs.Legible
import SchemaLoom.Proofs.WrittenApart

namespace SchemaLoom

open Layout

/-! The tokens of a written document, in their order. -/

namespace Layout

@[simp] theorem lexemes_sign (mark : Mark) (rest : List Piece) :
    lexemes (sign mark :: rest) = .mark mark :: lexemes rest := rfl

@[simp] theorem lexemes_word (name : String) (rest : List Piece) :
    lexemes (word name :: rest) = .name name.toList :: lexemes rest := rfl

@[simp] theorem lexemes_space (rest : List Piece) :
    lexemes (space :: rest) = lexemes rest := rfl

@[simp] theorem lexemes_newLine (indent : Nat) (rest : List Piece) :
    lexemes (newLine indent :: rest) = lexemes rest := rfl

/-- The token of a string. -/
def literalToken (indent : Nat) (text : String) : Token :=
  if writesBlock text.toList then .block (Block.encode indent text.toList)
  else .quoted (Quoted.encode text.toList)

@[simp] theorem lexemes_literal (indent : Nat) (text : String) (rest : List Piece) :
    lexemes (literal indent text :: rest) = literalToken indent text :: lexemes rest := rfl

def descriptionTokens (indent : Nat) (description : Option String) : List Token :=
  description.toList.map (literalToken indent)

theorem lexemes_described (indent : Nat) {between : List Char} (description : Option String) :
    lexemes (described indent (.gap between) description) =
      descriptionTokens indent description := by
  cases description <;> rfl

/-- Tokens between brackets, or none if there is nothing to stand there. -/
def bracketedIfAny (opening closing : Mark) (items : List (List Token)) : List Token :=
  if items.isEmpty then [] else .mark opening :: items.flatten ++ [.mark closing]

theorem lexemes_inParens (items : List (List Piece)) :
    lexemes (inParens items) =
      bracketedIfAny .openParen .closeParen (items.map lexemes) := by
  unfold inParens bracketedIfAny
  cases items with
  | nil => rfl
  | cons first rest =>
      simp [comma, lexemes_joined, List.flatMap_def]

theorem lexemes_inBraces (members : List (List Piece)) :
    lexemes (inBraces members) =
      .mark .openBrace :: (members.map lexemes).flatten ++ [.mark .closeBrace] := by
  unfold inBraces
  rw [lexemes_append, lexemes_append, lexemes_flatMap]
  simp only [lexemes_newLine, List.flatMap_def]
  rfl

theorem lexemes_inBracesIfAny (members : List (List Piece)) :
    lexemes (inBracesIfAny members) =
      bracketedIfAny .openBrace .closeBrace (members.map lexemes) := by
  unfold inBracesIfAny bracketedIfAny
  cases members with
  | nil => rfl
  | cons first rest => simpa using lexemes_inBraces (first :: rest)

/-- Names with a mark between them. -/
def separatedTokens (between : Mark) : List String → List Token
  | [] => []
  | first :: rest =>
      .name first.toList :: rest.flatMap fun name => [.mark between, .name name.toList]

theorem lexemes_joined_words (between : Mark) (names : List String) :
    lexemes (joined [space, sign between, space] (names.map ([word ·]))) =
      separatedTokens between names := by
  induction names with
  | nil => rfl
  | cons first rest ih =>
      cases rest with
      | nil => rfl
      | cons second rest =>
          rw [List.map_cons, List.map_cons, joined_cons_cons, lexemes_append, lexemes_append]
          rw [List.map_cons] at ih
          rw [ih]
          rfl

theorem lexemes_listed (lead : Piece) (between : Mark) (names : List String) :
    lexemes (listed [space, lead, space] between names) =
      if names.isEmpty then []
      else lexemes [lead] ++ separatedTokens between names := by
  unfold listed
  split
  · rfl
  · rw [lexemes_append, lexemes_joined_words]
    cases lead <;> rfl

end Layout

theorem Value.itemPieces_eq (indent : Nat) (items : List Value) :
    Value.itemPieces indent items = items.map (Value.pieces indent) := by
  induction items with
  | nil => rfl
  | cons first rest ih => rw [Value.itemPieces, ih, List.map_cons]

theorem Value.memberPieces_eq (indent : Nat) (members : List (String × Value)) :
    Value.memberPieces indent members =
      members.map fun member =>
        word member.1 :: sign .colon :: space :: member.2.pieces indent := by
  induction members with
  | nil => rfl
  | cons first rest ih => rw [Value.memberPieces, ih, List.map_cons]

def TypeRef.tokens (type : TypeRef) : List Token :=
  lexemes type.pieces

@[simp] theorem TypeRef.tokens_named (name : String) :
    (TypeRef.named name).tokens = [.name name.toList] := rfl

@[simp] theorem TypeRef.tokens_list (item : TypeRef) :
    (TypeRef.list item).tokens =
      .mark .openBracket :: (item.tokens ++ [.mark .closeBracket]) := by
  simp [TypeRef.tokens, TypeRef.pieces]

@[simp] theorem TypeRef.tokens_nonNull (type : TypeRef) :
    (TypeRef.nonNull type).tokens = type.tokens ++ [.mark .bang] := by
  simp [TypeRef.tokens, TypeRef.pieces]

def Value.tokens (indent : Nat) (value : Value) : List Token :=
  lexemes (value.pieces indent)

def memberTokens (indent : Nat) (member : String × Value) : List Token :=
  .name member.1.toList :: .mark .colon :: member.2.tokens indent

@[simp] theorem Value.tokens_list (indent : Nat) (items : List Value) :
    (Value.list items).tokens indent =
      .mark .openBracket :: (items.flatMap (Value.tokens indent) ++ [.mark .closeBracket]) := by
  simp [Value.tokens, Value.pieces, Value.itemPieces_eq, comma, lexemes_joined,
    List.flatMap_map]
  rfl

@[simp] theorem Value.tokens_object (indent : Nat) (members : List (String × Value)) :
    (Value.object members).tokens indent =
      .mark .openBrace :: (members.flatMap (memberTokens indent) ++ [.mark .closeBrace]) := by
  simp [Value.tokens, Value.pieces, Value.memberPieces_eq, comma, lexemes_joined,
    List.flatMap_map]
  rfl

def Directive.tokens (indent : Nat) (directive : Directive) : List Token :=
  .mark .at :: .name directive.name.toList ::
    bracketedIfAny .openParen .closeParen (directive.arguments.map (memberTokens indent))

theorem Directive.lexemes_pieces (indent : Nat) (directive : Directive) :
    lexemes (directive.pieces indent) = directive.tokens indent := by
  simp [Directive.pieces, Directive.tokens, Value.memberPieces_eq, lexemes_inParens]
  rfl

theorem lexemes_directives (indent : Nat) (directives : List Directive) :
    lexemes (directivePieces indent directives) =
      directives.flatMap (Directive.tokens indent) := by
  simp [directivePieces, lexemes_flatMap, Directive.lexemes_pieces]

def defaultTokens (indent : Nat) : Option Value → List Token
  | none => []
  | some value => .mark .equals :: value.tokens indent

def InputValue.tokens (indent : Nat) (input : InputValue) : List Token :=
  descriptionTokens indent input.description ++
    (.name input.name.toList :: .mark .colon :: (input.type.tokens ++
      (defaultTokens indent input.defaultValue ++
        input.directives.flatMap (Directive.tokens indent))))

theorem InputValue.lexemes_pieces (indent : Nat) (input : InputValue) :
    lexemes (input.pieces indent) = input.tokens indent := by
  obtain ⟨pos, description, name, type, defaultValue, directives⟩ := input
  cases defaultValue <;>
    simp [InputValue.pieces, InputValue.tokens, space, lexemes_described,
      lexemes_directives, defaultTokens, Value.tokens, TypeRef.tokens]

theorem InputValue.map_lexemes_pieces (indent : Nat) (inputs : List InputValue) :
    (inputs.map (InputValue.pieces indent)).map lexemes =
      inputs.map (InputValue.tokens indent) := by
  rw [List.map_map]
  exact List.map_congr_left fun input _ => input.lexemes_pieces indent

def FieldDef.tokens (indent : Nat) (field : FieldDef) : List Token :=
  descriptionTokens indent field.description ++
    (.name field.name.toList ::
      (bracketedIfAny .openParen .closeParen (field.arguments.map (InputValue.tokens indent)) ++
        (.mark .colon :: (field.type.tokens ++
          field.directives.flatMap (Directive.tokens indent)))))

theorem FieldDef.lexemes_pieces (indent : Nat) (field : FieldDef) :
    lexemes (field.pieces indent) = field.tokens indent := by
  have harguments := InputValue.map_lexemes_pieces indent field.arguments
  simp only [List.map_map] at harguments
  simp [FieldDef.pieces, FieldDef.tokens, newLine, lexemes_described, lexemes_inParens,
    lexemes_directives, harguments, TypeRef.tokens]

def EnumValue.tokens (indent : Nat) (value : EnumValue) : List Token :=
  descriptionTokens indent value.description ++
    (.name value.name.toList :: value.directives.flatMap (Directive.tokens indent))

theorem EnumValue.lexemes_pieces (indent : Nat) (value : EnumValue) :
    lexemes (value.pieces indent) = value.tokens indent := by
  simp [EnumValue.pieces, EnumValue.tokens, space, lexemes_described, lexemes_directives]

/-- The root operations that a schema names, in the order in which they are written. -/
def SchemaDef.operations (decl : SchemaDef) : List (String × String) :=
  decl.query.toList.map ("query", ·) ++ decl.mutation.toList.map ("mutation", ·)
    ++ decl.subscription.toList.map ("subscription", ·)

def operationTokens (operation : String × String) : List Token :=
  [.name operation.1.toList, .mark .colon, .name operation.2.toList]

def SchemaDef.tokens (decl : SchemaDef) : List Token :=
  .name "schema".toList :: (decl.directives.flatMap (Directive.tokens 0) ++
    (.mark .openBrace :: (decl.operations.flatMap operationTokens ++ [.mark .closeBrace])))

theorem SchemaDef.lexemes_pieces (decl : SchemaDef) : lexemes decl.pieces = decl.tokens := by
  have hoperation : ∀ operation type,
      ((operationPieces operation type).map lexemes).flatten =
        (type.toList.map (operation, ·)).flatMap operationTokens := by
    intro operation type
    cases type <;> rfl
  simp only [SchemaDef.pieces, SchemaDef.tokens, SchemaDef.operations, List.cons_append,
    lexemes_word, lexemes_append, lexemes_directives, lexemes_inBraces, List.map_append,
    List.flatten_append, hoperation, List.flatMap_append, List.append_assoc]

def repeatableTokens (repeatable : Bool) : List Token :=
  if repeatable then [.name "repeatable".toList] else []

def locationTokens (locations : List Location) : List Token :=
  if locations.isEmpty then []
  else .name "on".toList :: separatedTokens .pipe (locations.map Location.text)

def DirectiveDef.tokens (decl : DirectiveDef) : List Token :=
  descriptionTokens 0 decl.description ++
    (.name "directive".toList :: .mark .at :: .name decl.name.toList ::
      (bracketedIfAny .openParen .closeParen (decl.arguments.map (InputValue.tokens 0)) ++
        (repeatableTokens decl.repeatable ++ locationTokens decl.locations)))

theorem DirectiveDef.lexemes_pieces (decl : DirectiveDef) :
    lexemes decl.pieces = decl.tokens := by
  have harguments := InputValue.map_lexemes_pieces 0 decl.arguments
  have hrepeatable : lexemes (if decl.repeatable then [space, word "repeatable"] else []) =
      repeatableTokens decl.repeatable := by
    unfold repeatableTokens
    split <;> rfl
  have hlocations : lexemes (listed [space, word "on", space] .pipe
        (decl.locations.map Location.text)) = locationTokens decl.locations := by
    rw [lexemes_listed, List.isEmpty_map]
    rfl
  simp only [DirectiveDef.pieces, DirectiveDef.tokens, newLine, List.append_assoc,
    List.cons_append, lexemes_append, lexemes_described, lexemes_word, lexemes_space,
    lexemes_sign, lexemes_inParens, harguments, hrepeatable, hlocations]

def TypeForm.tokens : TypeForm → List Token
  | .definition description => descriptionTokens 0 description
  | .extension => [.name "extend".toList]

/-- What stands between the name of a type and its directives. -/
def TypeBody.interfaceTokens : TypeBody → List Token
  | .composite _ interfaces _ =>
      if interfaces.isEmpty then []
      else .name "implements".toList :: separatedTokens .ampersand interfaces
  | _ => []

/-- What stands behind the directives of a type. -/
def TypeBody.memberTokens : TypeBody → List Token
  | .scalar => []
  | .composite _ _ fields =>
      bracketedIfAny .openBrace .closeBrace (fields.map (FieldDef.tokens memberIndent))
  | .union members =>
      if members.isEmpty then [] else .mark .equals :: separatedTokens .pipe members
  | .enum values =>
      bracketedIfAny .openBrace .closeBrace (values.map (EnumValue.tokens memberIndent))
  | .input fields =>
      bracketedIfAny .openBrace .closeBrace (fields.map (InputValue.tokens memberIndent))

def TypeDecl.tokens (decl : TypeDecl) : List Token :=
  decl.form.tokens ++ (.name decl.body.keyword.toList :: .name decl.name.toList ::
    (decl.body.interfaceTokens ++
      (decl.directives.flatMap (Directive.tokens 0) ++ decl.body.memberTokens)))

theorem TypeForm.lexemes_pieces (form : TypeForm) : lexemes form.pieces = form.tokens := by
  cases form with
  | definition description => exact lexemes_described 0 description
  | extension => rfl

theorem TypeBody.lexemes_interfacePieces (body : TypeBody) :
    lexemes body.interfacePieces = body.interfaceTokens := by
  cases body with
  | composite sort interfaces fields => exact lexemes_listed _ _ _
  | _ => rfl

theorem TypeBody.lexemes_memberPieces (body : TypeBody) :
    lexemes body.memberPieces = body.memberTokens := by
  cases body with
  | scalar => rfl
  | union members => exact lexemes_listed _ _ _
  | composite sort interfaces fields =>
      rw [TypeBody.memberPieces, lexemes_inBracesIfAny, List.map_map, TypeBody.memberTokens]
      congr 1
      exact List.map_congr_left fun field _ => field.lexemes_pieces memberIndent
  | enum values =>
      rw [TypeBody.memberPieces, lexemes_inBracesIfAny, List.map_map, TypeBody.memberTokens]
      congr 1
      exact List.map_congr_left fun value _ => value.lexemes_pieces memberIndent
  | input fields =>
      rw [TypeBody.memberPieces, lexemes_inBracesIfAny, InputValue.map_lexemes_pieces,
        TypeBody.memberTokens]

theorem TypeDecl.lexemes_pieces (decl : TypeDecl) : lexemes decl.pieces = decl.tokens := by
  rw [TypeDecl.pieces_eq]
  simp only [TypeDecl.tokens, lexemes_append, TypeForm.lexemes_pieces, lexemes_word,
    lexemes_space, TypeBody.lexemes_interfacePieces, lexemes_directives,
    TypeBody.lexemes_memberPieces]

def Definition.tokens : Definition → List Token
  | .schema decl => decl.tokens
  | .directive decl => decl.tokens
  | .type decl => decl.tokens

theorem Definition.lexemes_pieces (definition : Definition) :
    lexemes definition.pieces = definition.tokens := by
  unfold Definition.pieces
  rw [lexemes_append, lexemes_newLine, lexemes_nil, List.append_nil]
  cases definition with
  | schema decl => exact decl.lexemes_pieces
  | directive decl => exact decl.lexemes_pieces
  | type decl => exact decl.lexemes_pieces

theorem Document.lexemes_pieces (document : Document) :
    lexemes document.pieces = document.definitions.flatMap Definition.tokens := by
  unfold Document.pieces
  rw [newLine, lexemes_joined, List.flatMap_map]
  simp only [Definition.lexemes_pieces]

end SchemaLoom
