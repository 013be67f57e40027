import SchemaLoom.Document.Pos
import SchemaLoom.Document.Value

namespace SchemaLoom

/-! Documents of a schema language: a list of definitions, each of a directive,
of a type, or of the schema's root operations. -/

inductive TypeRef where
  | named (name : String)
  | list (item : TypeRef)
  | nonNull (type : TypeRef)
  deriving DecidableEq, Repr

structure Directive where
  pos : Pos
  name : String
  arguments : List (String × Value)
  deriving Repr

/-- An argument of a field or of a directive, or a field of an input type. -/
structure InputValue where
  pos : Pos
  description : Option String
  name : String
  type : TypeRef
  defaultValue : Option Value
  directives : List Directive
  deriving Repr

structure FieldDef where
  pos : Pos
  description : Option String
  name : String
  arguments : List InputValue
  type : TypeRef
  directives : List Directive
  deriving Repr

structure EnumValue where
  pos : Pos
  description : Option String
  name : String
  directives : List Directive
  deriving Repr

/-- Where a directive may be used. -/
inductive Location where
  | query
  | mutation
  | subscription
  | field
  | fragmentDefinition
  | fragmentSpread
  | inlineFragment
  | schema
  | scalar
  | object
  | fieldDefinition
  | argumentDefinition
  | interface
  | union
  | enum
  | enumValue
  | inputObject
  | inputFieldDefinition
  | variableDefinition
  deriving DecidableEq, Repr

def Location.text : Location → String
  | .query => "QUERY"
  | .mutation => "MUTATION"
  | .subscription => "SUBSCRIPTION"
  | .field => "FIELD"
  | .fragmentDefinition => "FRAGMENT_DEFINITION"
  | .fragmentSpread => "FRAGMENT_SPREAD"
  | .inlineFragment => "INLINE_FRAGMENT"
  | .schema => "SCHEMA"
  | .scalar => "SCALAR"
  | .object => "OBJECT"
  | .fieldDefinition => "FIELD_DEFINITION"
  | .argumentDefinition => "ARGUMENT_DEFINITION"
  | .interface => "INTERFACE"
  | .union => "UNION"
  | .enum => "ENUM"
  | .enumValue => "ENUM_VALUE"
  | .inputObject => "INPUT_OBJECT"
  | .inputFieldDefinition => "INPUT_FIELD_DEFINITION"
  | .variableDefinition => "VARIABLE_DEFINITION"

def Location.all : List Location :=
  [.query, .mutation, .subscription, .field, .fragmentDefinition,
    .fragmentSpread, .inlineFragment, .schema, .scalar, .object,
    .fieldDefinition, .argumentDefinition, .interface, .union, .enum,
    .enumValue, .inputObject, .inputFieldDefinition, .variableDefinition]

def Location.ofText? (text : String) : Option Location :=
  Location.all.find? fun location => location.text == text

/-- The root operations of a schema. -/
structure SchemaDef where
  pos : Pos
  directives : List Directive
  query : Option String
  mutation : Option String
  subscription : Option String
  deriving Repr

structure DirectiveDef where
  pos : Pos
  description : Option String
  name : String
  arguments : List InputValue
  repeatable : Bool
  locations : List Location
  deriving Repr

/-- The two types that have interfaces and fields. -/
inductive Composite where
  | object
  | interface
  deriving DecidableEq, Repr

/-- What a type consists of, apart from its name and directives. -/
inductive TypeBody where
  | scalar
  | composite (sort : Composite) (interfaces : List String) (fields : List FieldDef)
  | union (members : List String)
  | enum (values : List EnumValue)
  | input (fields : List InputValue)
  deriving Repr

/-- A type is defined, with or without a description, or extended. -/
inductive TypeForm where
  | definition (description : Option String)
  | extension
  deriving DecidableEq, Repr

structure TypeDecl where
  form : TypeForm
  pos : Pos
  name : String
  directives : List Directive
  body : TypeBody
  deriving Repr

inductive Definition where
  | schema (decl : SchemaDef)
  | directive (decl : DirectiveDef)
  | type (decl : TypeDecl)
  deriving Repr

/-- The name of a definition; only the schema has none. -/
def Definition.name? : Definition → Option String
  | .schema _ => none
  | .directive decl => some decl.name
  | .type decl => some decl.name

structure Document where
  definitions : List Definition
  deriving Repr

def Document.empty : Document := ⟨[]⟩

end SchemaLoom
