import SchemaLoom.Document.Definition

namespace SchemaLoom

/-! Kinds of definitions, and the rule by which two definitions of one kind are
combined. -/

inductive Shape where
  | scalar
  | object
  | interface
  | union
  | enum
  | input
  deriving DecidableEq, Repr

inductive Kind where
  | schema
  | directive
  | type (shape : Shape) (extended : Bool)
  deriving DecidableEq, Repr

def Shape.text : Shape → String
  | .scalar => "Scalar"
  | .object => "Object"
  | .interface => "Interface"
  | .union => "Union"
  | .enum => "Enum"
  | .input => "InputObject"

def Kind.text : Kind → String
  | .schema => "SchemaDefinition"
  | .directive => "DirectiveDefinition"
  | .type shape false => shape.text ++ "TypeDefinition"
  | .type shape true => shape.text ++ "TypeExtension"

def Kind.all : List Kind :=
  let shapes := [.scalar, .object, .interface, .union, .enum, .input]
  .schema :: .directive ::
    shapes.map (.type · false) ++ shapes.map (.type · true)

def Kind.ofText? (text : String) : Option Kind :=
  Kind.all.find? fun kind => kind.text == text

def TypeBody.shape : TypeBody → Shape
  | .scalar => .scalar
  | .composite .object _ _ => .object
  | .composite .interface _ _ => .interface
  | .union _ => .union
  | .enum _ => .enum
  | .input _ => .input

def TypeForm.isExtension : TypeForm → Bool
  | .definition _ => false
  | .extension => true

def Definition.kind : Definition → Kind
  | .schema _ => .schema
  | .directive _ => .directive
  | .type decl => .type decl.body.shape decl.form.isExtension

/-- Whether the parts of two definitions can be put behind each other, or one
definition takes the place of the other as a whole. -/
inductive Strategy where
  | concatFields
  | replace
  deriving DecidableEq, Repr

def Kind.strategy : Kind → Strategy
  | .type .object _ => .concatFields
  | .type .interface _ => .concatFields
  | _ => .replace

end SchemaLoom
