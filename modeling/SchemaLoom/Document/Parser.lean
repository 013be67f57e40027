import SchemaLoom.Document.ValueReader
import SchemaLoom.Token.Scan

namespace SchemaLoom

/-! The grammar of documents.  Keywords are ordinary names. -/

/-- Sets the type of a root operation that has none yet. -/
def SchemaDef.setOperation? (decl : SchemaDef) (operation : String × String) :
    Option SchemaDef :=
  if operation.1 = "query" ∧ decl.query.isNone then
    some { decl with query := some operation.2 }
  else if operation.1 = "mutation" ∧ decl.mutation.isNone then
    some { decl with mutation := some operation.2 }
  else if operation.1 = "subscription" ∧ decl.subscription.isNone then
    some { decl with subscription := some operation.2 }
  else none

namespace Reader

def typeRefFrom : Tokens → Except ParseError (TypeRef × Tokens)
  | .next _ (.name text) rest => nonNullFrom (.named (String.ofList text)) rest
  | .next _ (.mark .openBracket) rest => do
      let (item, rest) ← typeRefFrom rest
      match rest with
      | .next _ (.mark .closeBracket) rest => nonNullFrom (.list item) rest
      | rest => .error (.unexpected rest.pos)
  | tokens => .error (.unexpected tokens.pos)
where
  nonNullFrom (type : TypeRef) : Tokens → Except ParseError (TypeRef × Tokens)
    | .next _ (.mark .bang) rest => .ok (.nonNull type, rest)
    | rest => .ok (type, rest)

/-- `Name` or `[Type]`, and an exclamation mark behind either. -/
def typeRef : Reader TypeRef := typeRefFrom

def argument : Reader (String × Value) := do
  let key ← name
  mark .colon
  return (key, ← value .open)

def directiveArguments : Reader (List (String × Value)) := do
  if ← skipMark .openParen then
    let arguments ← many1 isName argument
    mark .closeParen
    return arguments
  else
    return []

def directive : Reader Directive := do
  let pos ← position
  mark .at
  let name ← name
  let arguments ← directiveArguments
  return { pos, name, arguments }

def directives : Reader (List Directive) :=
  many (· == .mark .at) directive

/-- Fields, enum values and input values may have a description. -/
def startsMember (token : Token) : Bool :=
  isName token || isText token

def defaultValue? : Reader (Option Value) := do
  if ← skipMark .equals then
    return some (← value .constant)
  else
    return none

def inputValue : Reader InputValue := do
  let pos ← position
  let description ← description
  let name ← name
  mark .colon
  let type ← typeRef
  let defaultValue ← defaultValue?
  return { pos, description, name, type, defaultValue, directives := ← directives }

def arguments : Reader (List InputValue) := do
  if ← skipMark .openParen then
    let arguments ← many1 startsMember inputValue
    mark .closeParen
    return arguments
  else
    return []

/-- A body in braces that holds at least one member, or no body. -/
def members? {α : Type} (member : Reader α) : Reader (Option (List α)) := do
  if ← skipMark .openBrace then
    let members ← many1 startsMember member
    mark .closeBrace
    return some members
  else
    return none

def fieldDef : Reader FieldDef := do
  let pos ← position
  let description ← description
  let name ← name
  let arguments ← arguments
  mark .colon
  let type ← typeRef
  return { pos, description, name, arguments, type, directives := ← directives }

def enumValue : Reader EnumValue := do
  let pos ← position
  let description ← description
  let name ← name
  return { pos, description, name, directives := ← directives }

def interfaces : Reader (List String) := do
  if ← skipWord "implements" then separated .ampersand name else return []

/-! Types.  A type and its extension are written alike, but an extension has to
add something: interfaces alone are enough for an object and not for an
interface. -/

/-- What stands behind the keyword of a type, and whether it adds anything. -/
structure TypeRest where
  name : String
  directives : List Directive
  body : TypeBody
  adds : Bool

def scalarRest : Reader TypeRest := do
  let name ← name
  let directives ← directives
  return { name, directives, body := .scalar, adds := !directives.isEmpty }

def compositeRest (sort : Composite) : Reader TypeRest := do
  let name ← name
  let interfaces ← interfaces
  let directives ← directives
  let fields ← members? fieldDef
  return {
    name
    directives
    body := .composite sort interfaces (fields.getD [])
    adds := (sort == .object && !interfaces.isEmpty) || !directives.isEmpty
      || fields.isSome }

def unionMembers? : Reader (Option (List String)) := do
  if ← skipMark .equals then
    return some (← separated .pipe name)
  else
    return none

def unionRest : Reader TypeRest := do
  let name ← name
  let directives ← directives
  let members ← unionMembers?
  return {
    name
    directives
    body := .union (members.getD [])
    adds := !directives.isEmpty || members.isSome }

def enumRest : Reader TypeRest := do
  let name ← name
  let directives ← directives
  let values ← members? enumValue
  return {
    name
    directives
    body := .enum (values.getD [])
    adds := !directives.isEmpty || values.isSome }

def inputRest : Reader TypeRest := do
  let name ← name
  let directives ← directives
  let fields ← members? inputValue
  return {
    name
    directives
    body := .input (fields.getD [])
    adds := !directives.isEmpty || fields.isSome }

/-- The reader behind a keyword of a type. -/
def typeRest? (keyword : String) : Option (Reader TypeRest) :=
  if keyword = "scalar" then some scalarRest
  else if keyword = "type" then some (compositeRest .object)
  else if keyword = "interface" then some (compositeRest .interface)
  else if keyword = "union" then some unionRest
  else if keyword = "enum" then some enumRest
  else if keyword = "input" then some inputRest
  else none

/-- The reader that the keyword ahead asks for. -/
def nextTypeRest? : Reader (Option (Reader TypeRest)) := do
  match ← peek with
  | some (.name text) => return typeRest? (String.ofList text)
  | _ => return none

def typeDefinition (description : Option String) : Reader Definition := do
  let pos ← position
  match ← nextTypeRest? with
  | none => fail
  | some rest =>
      let _ ← name
      let { name, directives, body, .. } ← rest
      return .type { form := .definition description, pos, name, directives, body }

/-- An extension that adds nothing is an error at its keyword. -/
def typeExtension : Reader Definition := do
  word "extend"
  let pos ← position
  match ← nextTypeRest? with
  | none => fail
  | some rest =>
      let _ ← name
      let { name, directives, body, adds } ← rest
      if adds then
        return .type { form := .extension, pos, name, directives, body }
      else
        failAt pos

/-! Directives and the schema. -/

def location : Reader Location :=
  take fun
    | .name text => Location.ofText? (String.ofList text)
    | _ => none

def locations : Reader (List Location) := do
  if ← nextIs (fun token => isName token || token == .mark .pipe) then
    separated .pipe location
  else
    return []

def directiveDefinition (description : Option String) : Reader Definition := do
  let pos ← position
  word "directive"
  mark .at
  let name ← name
  let arguments ← arguments
  let repeatable ← skipWord "repeatable"
  word "on"
  let locations ← locations
  return .directive { pos, description, name, arguments, repeatable, locations }

def operation : Reader (String × String) := do
  let key ← name
  mark .colon
  return (key, ← name)

/-- An unknown or repeated operation is an error at the keyword of the schema. -/
def schemaDefinition : Reader Definition := do
  let pos ← position
  word "schema"
  let directives ← directives
  mark .openBrace
  let operations ← many isName operation
  mark .closeBrace
  let bare : SchemaDef :=
    { pos, directives, query := none, mutation := none, subscription := none }
  match operations.foldlM SchemaDef.setOperation? bare with
  | some decl => return .schema decl
  | none => failAt pos

def definition : Reader Definition := do
  if ← nextIsWord "schema" then schemaDefinition
  else if ← nextIsWord "extend" then typeExtension
  else
    let description ← description
    if ← nextIsWord "directive" then directiveDefinition description
    else typeDefinition description

def document : Reader Document := do
  let definitions ← many1 startsMember definition
  match ← get with
  | .done _ => return { definitions }
  | tokens => failAt tokens.pos

end Reader

def ParseError.message : ParseError → String
  | .emptyDocument => "SDL source contains no definitions"
  | .unexpected pos =>
      s!"Error parsing SDL: schema parse error: Parse error at {pos.line}:{pos.column}"
  | .tornMargin => "Error parsing SDL: a block string is cut inside a character"

namespace Document

def ofText (text : List Char) : Except ParseError Document :=
  if allBlank text then .error .emptyDocument
  else (Reader.document.run (scan text)).map Prod.fst

/-- Reads a document; a text of nothing but blanks is none. -/
def parse (text : String) : Except ParseError Document :=
  ofText text.toList

end Document

end SchemaLoom
