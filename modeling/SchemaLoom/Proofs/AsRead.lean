import SchemaLoom.Document.Parser
import SchemaLoom.Proofs.NameChecks
import Mathlib.Data.String.Basic

namespace SchemaLoom

/-! Documents as they are read.  A sound document has only valid names, also inside
its values, and its brackets fit into the room that the scanner leaves for them.
Everything read from a text is sound. -/

/-- Holds behind one more open bracket. -/
def Below (holds : Nat → Prop) (room : Nat) : Prop :=
  ∃ inner, room = inner + 1 ∧ holds inner

def TypeRef.isNonNull : TypeRef → Bool
  | .nonNull _ => true
  | _ => false

/-- An exclamation mark stands behind a name or a list, not behind another one. -/
def TypeRef.Sound : Nat → TypeRef → Prop
  | _, .named name => isValidName name = true
  | room, .list item => Below (fun inner => TypeRef.Sound inner item) room
  | room, .nonNull type => type.isNonNull = false ∧ TypeRef.Sound room type

mutual

/-- Constant values hold no variables, and the members of an object stand in
increasing order of their keys. -/
def Value.Sound (sort : ValueSort) : Nat → Value → Prop
  | _, .variable name => sort = .open ∧ isValidName name = true
  | _, .int value => intInRange value = true
  | _, .float _ => True
  | _, .string _ => True
  | _, .boolean _ => True
  | _, .null => True
  | _, .enum name => isValidName name = true ∧ ofName name = .enum name
  | room, .list items => Below (fun inner => Value.ItemsSound sort inner items) room
  | room, .object members =>
      (members.map Prod.fst).Pairwise (· < ·) ∧
        Below (fun inner => Value.MembersSound sort inner members) room

def Value.ItemsSound (sort : ValueSort) : Nat → List Value → Prop
  | _, [] => True
  | room, value :: rest => Value.Sound sort room value ∧ Value.ItemsSound sort room rest

def Value.MembersSound (sort : ValueSort) : Nat → List (String × Value) → Prop
  | _, [] => True
  | room, (key, value) :: rest =>
      (isValidName key = true ∧ Value.Sound sort room value) ∧
        Value.MembersSound sort room rest

end

namespace Value

theorem itemsSound_iff {sort : ValueSort} {room : Nat} {items : List Value} :
    ItemsSound sort room items ↔ ∀ item ∈ items, item.Sound sort room := by
  induction items with
  | nil => simp [ItemsSound]
  | cons first rest ih => simp [ItemsSound, ih]

theorem membersSound_iff {sort : ValueSort} {room : Nat}
    {members : List (String × Value)} :
    MembersSound sort room members ↔
      ∀ member ∈ members, isValidName member.1 = true ∧ member.2.Sound sort room := by
  induction members with
  | nil => simp [MembersSound]
  | cons first rest ih => simp only [MembersSound, ih, List.forall_mem_cons]

end Value

structure Directive.Sound (room : Nat) (directive : Directive) : Prop where
  name : isValidName directive.name = true
  arguments : ∀ argument ∈ directive.arguments,
    Below (fun inner => isValidName argument.1 = true ∧
      argument.2.Sound .open inner) room

structure InputValue.Sound (room : Nat) (input : InputValue) : Prop where
  name : isValidName input.name = true
  type : input.type.Sound room
  defaultValue : ∀ value, input.defaultValue = some value → value.Sound .constant room
  directives : ∀ directive ∈ input.directives, directive.Sound room

structure FieldDef.Sound (room : Nat) (field : FieldDef) : Prop where
  name : isValidName field.name = true
  arguments : ∀ argument ∈ field.arguments,
    Below (fun inner => argument.Sound inner) room
  type : field.type.Sound room
  directives : ∀ directive ∈ field.directives, directive.Sound room

structure EnumValue.Sound (room : Nat) (value : EnumValue) : Prop where
  name : isValidName value.name = true
  directives : ∀ directive ∈ value.directives, directive.Sound room

structure SchemaDef.Sound (room : Nat) (decl : SchemaDef) : Prop where
  directives : ∀ directive ∈ decl.directives, directive.Sound room
  operations : ∀ name ∈ decl.operationTypes, isValidName name = true

structure DirectiveDef.Sound (room : Nat) (decl : DirectiveDef) : Prop where
  name : isValidName decl.name = true
  arguments : ∀ argument ∈ decl.arguments,
    Below (fun inner => argument.Sound inner) room

def TypeBody.Sound (room : Nat) : TypeBody → Prop
  | .scalar => True
  | .composite _ interfaces fields =>
      (∀ name ∈ interfaces, isValidName name = true) ∧
        ∀ field ∈ fields, Below (fun inner => field.Sound inner) room
  | .union members => ∀ name ∈ members, isValidName name = true
  | .enum values => ∀ value ∈ values, Below (fun inner => value.Sound inner) room
  | .input fields => ∀ field ∈ fields, Below (fun inner => field.Sound inner) room

/-- Whether the body of an extension adds something.  The interfaces of an
interface do not count. -/
def TypeBody.adds : TypeBody → Bool
  | .scalar => false
  | .composite .object interfaces fields => !interfaces.isEmpty || !fields.isEmpty
  | .composite .interface _ fields => !fields.isEmpty
  | .union members => !members.isEmpty
  | .enum values => !values.isEmpty
  | .input fields => !fields.isEmpty

def TypeDecl.adds (decl : TypeDecl) : Bool :=
  !decl.directives.isEmpty || decl.body.adds

structure TypeDecl.Sound (room : Nat) (decl : TypeDecl) : Prop where
  name : isValidName decl.name = true
  directives : ∀ directive ∈ decl.directives, directive.Sound room
  body : decl.body.Sound room
  adds : decl.form = .extension → decl.adds = true

def Definition.Sound (room : Nat) : Definition → Prop
  | .schema decl => decl.Sound room
  | .directive decl => decl.Sound room
  | .type decl => decl.Sound room

structure Document.Sound (document : Document) : Prop where
  nonempty : document.definitions ≠ []
  definitions : ∀ definition ∈ document.definitions, definition.Sound bracketLimit

/-! Sound documents pass the name checks. -/

theorem TypeRef.Sound.check_eq_ok {room : Nat} {type : TypeRef} (h : type.Sound room) :
    type.check = .ok () := by
  induction type generalizing room with
  | named name => simpa [TypeRef.check, TypeRef.Sound] using h
  | list item ih =>
      obtain ⟨inner, _, hitem⟩ := h
      exact ih hitem
  | nonNull type ih => exact ih h.2

theorem Directive.Sound.check_eq_ok {room : Nat} {directive : Directive}
    (h : directive.Sound room) : directive.check = .ok () := by
  rw [Directive.check_eq_ok_iff]
  refine ⟨h.name, ?_⟩
  intro argument hargument
  obtain ⟨inner, _, hname, _⟩ := h.arguments argument hargument
  exact hname

theorem InputValue.Sound.check_eq_ok {room : Nat} {input : InputValue}
    (h : input.Sound room) : input.check = .ok () := by
  rw [InputValue.check_eq_ok_iff]
  exact ⟨h.name, h.type.check_eq_ok,
    fun directive hdirective => (h.directives directive hdirective).check_eq_ok⟩

theorem InputValue.check_eq_ok_of_below {room : Nat} {inputs : List InputValue}
    (h : ∀ input ∈ inputs, Below (fun inner => input.Sound inner) room) :
    ∀ input ∈ inputs, input.check = .ok () := by
  intro input hinput
  obtain ⟨inner, _, hsound⟩ := h input hinput
  exact hsound.check_eq_ok

theorem FieldDef.Sound.check_eq_ok {room : Nat} {field : FieldDef}
    (h : field.Sound room) : field.check = .ok () := by
  rw [FieldDef.check_eq_ok_iff]
  exact ⟨h.name, InputValue.check_eq_ok_of_below h.arguments, h.type.check_eq_ok,
    fun directive hdirective => (h.directives directive hdirective).check_eq_ok⟩

theorem EnumValue.Sound.check_eq_ok {room : Nat} {value : EnumValue}
    (h : value.Sound room) : value.check = .ok () := by
  rw [EnumValue.check_eq_ok_iff]
  exact ⟨h.name,
    fun directive hdirective => (h.directives directive hdirective).check_eq_ok⟩

theorem TypeBody.Sound.checked {room : Nat} {body : TypeBody} (h : body.Sound room) :
    body.Checked := by
  cases body with
  | scalar => trivial
  | composite sort interfaces fields =>
      refine ⟨h.1, ?_⟩
      intro field hfield
      obtain ⟨inner, _, hsound⟩ := h.2 field hfield
      exact hsound.check_eq_ok
  | union members => exact h
  | enum values =>
      intro value hvalue
      obtain ⟨inner, _, hsound⟩ := h value hvalue
      exact hsound.check_eq_ok
  | input fields => exact InputValue.check_eq_ok_of_below h

theorem Definition.Sound.check_eq_ok {room : Nat} {definition : Definition}
    (h : definition.Sound room) : definition.check = .ok () := by
  cases definition with
  | schema decl =>
      exact SchemaDef.check_eq_ok_iff.mpr
        ⟨fun directive hdirective => (h.directives directive hdirective).check_eq_ok,
          h.operations⟩
  | directive decl =>
      exact DirectiveDef.check_eq_ok_iff.mpr
        ⟨h.name, InputValue.check_eq_ok_of_below h.arguments⟩
  | type decl =>
      exact TypeDecl.check_eq_ok_iff.mpr
        ⟨h.name,
          fun directive hdirective => (h.directives directive hdirective).check_eq_ok,
          h.body.checked⟩

theorem Document.Sound.check_eq_ok {document : Document} (h : document.Sound) :
    document.check = .ok () := by
  rw [Document.check_eq_ok_iff]
  intro definition hdefinition
  exact (h.definitions definition hdefinition).check_eq_ok

end SchemaLoom
