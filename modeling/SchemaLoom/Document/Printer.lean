import SchemaLoom.Document.Names
import SchemaLoom.Text.Block
import SchemaLoom.Text.Quoted
import SchemaLoom.Token.Basic

namespace SchemaLoom

/-! Written form of a document: tokens, and the blanks that stand between them. -/

inductive Piece where
  | lexeme (token : Token)
  | gap (text : List Char)
  deriving DecidableEq, Repr

def Piece.text : Piece → List Char
  | .lexeme token => token.text
  | .gap text => text

namespace Layout

def sign (mark : Mark) : Piece := .lexeme (.mark mark)

def word (name : String) : Piece := .lexeme (.name name.toList)

def space : Piece := .gap [' ']

def comma : Piece := .gap [',', ' ']

def newLine (indent : Nat) : Piece :=
  .gap ('\n' :: List.replicate indent ' ')

/-- The indent of what stands in the braces of a definition. -/
def memberIndent : Nat := 2

def joined (between : List Piece) (items : List (List Piece)) : List Piece :=
  between.intercalate items

/-- Items in parentheses, or nothing if there are none. -/
def inParens (items : List (List Piece)) : List Piece :=
  if items.isEmpty then []
  else sign .openParen :: joined [comma] items ++ [sign .closeParen]

/-- Members in braces, each on a line of its own. -/
def inBraces (members : List (List Piece)) : List Piece :=
  [space, sign .openBrace]
    ++ members.flatMap (newLine memberIndent :: ·)
    ++ [newLine 0, sign .closeBrace]

def inBracesIfAny (members : List (List Piece)) : List Piece :=
  if members.isEmpty then [] else inBraces members

/-- Names behind a word or mark, with a mark between them; nothing if there are
none. -/
def listed (head : List Piece) (between : Mark) (names : List String) : List Piece :=
  if names.isEmpty then []
  else head ++ joined [space, sign between, space] (names.map ([word ·]))

/-- A block string is written for a text of more than one line that needs no
escapes; every other text is quoted. -/
def writesBlock (text : List Char) : Bool :=
  text.contains '\n' && text.all fun char =>
    char == '\n' || char == '\r' || char == '\t' || Quoted.isPlain char

def literal (indent : Nat) (text : String) : Piece :=
  .lexeme <|
    if writesBlock text.toList then .block (Block.encode indent text.toList)
    else .quoted (Quoted.encode text.toList)

/-- A description, and what divides it from the thing it describes. -/
def described (indent : Nat) (between : Piece) : Option String → List Piece
  | none => []
  | some text => [literal indent text, between]

def intText (value : Int) : List Char :=
  if value < 0 then '-' :: Nat.toDigits 10 value.natAbs
  else Nat.toDigits 10 value.natAbs

end Layout

open Layout

def TypeRef.pieces : TypeRef → List Piece
  | .named name => [word name]
  | .list item => sign .openBracket :: item.pieces ++ [sign .closeBracket]
  | .nonNull type => type.pieces ++ [sign .bang]

mutual

def Value.pieces (indent : Nat) : Value → List Piece
  | .variable name => [sign .dollar, word name]
  | .int value => [.lexeme (.int (intText value))]
  | .float value => [.lexeme (.float value.toText)]
  | .string text => [literal indent text]
  | .boolean true => [word "true"]
  | .boolean false => [word "false"]
  | .null => [word "null"]
  | .enum name => [word name]
  | .list items =>
      sign .openBracket :: joined [comma] (Value.itemPieces indent items)
        ++ [sign .closeBracket]
  | .object members =>
      sign .openBrace :: joined [comma] (Value.memberPieces indent members)
        ++ [sign .closeBrace]

def Value.itemPieces (indent : Nat) : List Value → List (List Piece)
  | [] => []
  | value :: rest => value.pieces indent :: Value.itemPieces indent rest

def Value.memberPieces (indent : Nat) : List (String × Value) → List (List Piece)
  | [] => []
  | (key, value) :: rest =>
      (word key :: sign .colon :: space :: value.pieces indent)
        :: Value.memberPieces indent rest

end

def Directive.pieces (indent : Nat) (directive : Directive) : List Piece :=
  sign .at :: word directive.name ::
    inParens (Value.memberPieces indent directive.arguments)

def directivePieces (indent : Nat) (directives : List Directive) : List Piece :=
  directives.flatMap fun directive => space :: directive.pieces indent

def InputValue.pieces (indent : Nat) (input : InputValue) : List Piece :=
  described indent space input.description
    ++ word input.name :: sign .colon :: space :: input.type.pieces
    ++ (match input.defaultValue with
      | none => []
      | some value => space :: sign .equals :: space :: value.pieces indent)
    ++ directivePieces indent input.directives

def FieldDef.pieces (indent : Nat) (field : FieldDef) : List Piece :=
  described indent (newLine indent) field.description
    ++ word field.name :: inParens (field.arguments.map (InputValue.pieces indent))
    ++ sign .colon :: space :: field.type.pieces
    ++ directivePieces indent field.directives

def EnumValue.pieces (indent : Nat) (value : EnumValue) : List Piece :=
  described indent space value.description
    ++ word value.name :: directivePieces indent value.directives

def operationPieces (operation : String) : Option String → List (List Piece)
  | none => []
  | some type => [[word operation, sign .colon, space, word type]]

def SchemaDef.pieces (decl : SchemaDef) : List Piece :=
  word "schema" :: directivePieces 0 decl.directives
    ++ inBraces (operationPieces "query" decl.query
      ++ operationPieces "mutation" decl.mutation
      ++ operationPieces "subscription" decl.subscription)

def DirectiveDef.pieces (decl : DirectiveDef) : List Piece :=
  described 0 (newLine 0) decl.description
    ++ word "directive" :: space :: sign .at :: word decl.name ::
      inParens (decl.arguments.map (InputValue.pieces 0))
    ++ (if decl.repeatable then [space, word "repeatable"] else [])
    ++ listed [space, word "on", space] .pipe (decl.locations.map Location.text)

def TypeForm.pieces : TypeForm → List Piece
  | .definition description => described 0 (newLine 0) description
  | .extension => [word "extend", space]

def TypeBody.keyword : TypeBody → String
  | .scalar => "scalar"
  | .composite .object _ _ => "type"
  | .composite .interface _ _ => "interface"
  | .union _ => "union"
  | .enum _ => "enum"
  | .input _ => "input"

def TypeDecl.pieces (decl : TypeDecl) : List Piece :=
  decl.form.pieces
    ++ word decl.body.keyword :: space :: word decl.name ::
      (match decl.body with
      | .composite _ interfaces _ =>
          listed [space, word "implements", space] .ampersand interfaces
      | _ => [])
    ++ directivePieces 0 decl.directives
    ++ (match decl.body with
      | .scalar => []
      | .composite _ _ fields =>
          inBracesIfAny (fields.map (FieldDef.pieces memberIndent))
      | .union members => listed [space, sign .equals, space] .pipe members
      | .enum values => inBracesIfAny (values.map (EnumValue.pieces memberIndent))
      | .input fields =>
          inBracesIfAny (fields.map (InputValue.pieces memberIndent)))

/-- Every definition ends with a line feed. -/
def Definition.pieces (definition : Definition) : List Piece :=
  (match definition with
    | .schema decl => decl.pieces
    | .directive decl => decl.pieces
    | .type decl => decl.pieces)
    ++ [newLine 0]

namespace Document

/-- An empty line divides two definitions. -/
def pieces (document : Document) : List Piece :=
  joined [newLine 0] (document.definitions.map Definition.pieces)

def toText (document : Document) : List Char :=
  document.pieces.flatMap Piece.text

/-- Writes a document whose names are all valid. -/
def print (document : Document) : Except PrintError String := do
  document.check
  return String.ofList document.toText

end Document

end SchemaLoom
