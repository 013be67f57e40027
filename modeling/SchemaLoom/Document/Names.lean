import SchemaLoom.Document.Definition
import SchemaLoom.Text.Character

namespace SchemaLoom

/-! Name checks.  A document can be written only if its names are valid; the
check walks it in a fixed order and stops at the first name that is not. -/

/-- What a name stands for. -/
inductive NameContext where
  | argument
  | definition
  | directive
  | enumValue
  | field
  | interface
  | typeReference
  deriving DecidableEq, Repr

def NameContext.text : NameContext → String
  | .argument => "argument"
  | .definition => "definition"
  | .directive => "directive"
  | .enumValue => "enum value"
  | .field => "field"
  | .interface => "implemented interface"
  | .typeReference => "type reference"

/-- Why there is no written form: a name that is not valid, or no document. -/
inductive PrintError where
  | invalidName (context : NameContext) (name : String)
  | missingDocument
  deriving DecidableEq, Repr

def PrintError.message : PrintError → String
  | .invalidName context name => s!"Invalid {context.text} name `{name}`"
  | .missingDocument => "Attempted to print a syntax tree that holds no document"

abbrev NameCheck := Except PrintError Unit

def checkName (context : NameContext) (name : String) : NameCheck :=
  if isValidName name then .ok () else .error (.invalidName context name)

def TypeRef.check : TypeRef → NameCheck
  | .named name => checkName .typeReference name
  | .list item => item.check
  | .nonNull type => type.check

def Directive.check (directive : Directive) : NameCheck := do
  checkName .directive directive.name
  directive.arguments.forM fun argument => checkName .argument argument.1

def InputValue.check (input : InputValue) : NameCheck := do
  checkName .argument input.name
  input.type.check
  input.directives.forM Directive.check

def FieldDef.check (field : FieldDef) : NameCheck := do
  checkName .field field.name
  field.arguments.forM InputValue.check
  field.type.check
  field.directives.forM Directive.check

def EnumValue.check (value : EnumValue) : NameCheck := do
  checkName .enumValue value.name
  value.directives.forM Directive.check

def SchemaDef.operationTypes (decl : SchemaDef) : List String :=
  [decl.query, decl.mutation, decl.subscription].filterMap id

def SchemaDef.check (decl : SchemaDef) : NameCheck := do
  decl.directives.forM Directive.check
  decl.operationTypes.forM (checkName .typeReference)

def DirectiveDef.check (decl : DirectiveDef) : NameCheck := do
  checkName .definition decl.name
  decl.arguments.forM InputValue.check

def TypeDecl.check (decl : TypeDecl) : NameCheck := do
  checkName .definition decl.name
  match decl.body with
  | .scalar => decl.directives.forM Directive.check
  | .composite _ interfaces fields =>
      interfaces.forM (checkName .interface)
      decl.directives.forM Directive.check
      fields.forM FieldDef.check
  | .union members =>
      decl.directives.forM Directive.check
      members.forM (checkName .typeReference)
  | .enum values =>
      decl.directives.forM Directive.check
      values.forM EnumValue.check
  | .input fields =>
      decl.directives.forM Directive.check
      fields.forM InputValue.check

def Definition.check : Definition → NameCheck
  | .schema decl => decl.check
  | .directive decl => decl.check
  | .type decl => decl.check

def Document.check (document : Document) : NameCheck :=
  document.definitions.forM Definition.check

end SchemaLoom
