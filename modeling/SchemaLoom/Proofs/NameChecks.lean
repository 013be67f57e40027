import SchemaLoom.Document.Names
import Mathlib.Tactic.Tauto

namespace SchemaLoom

/-! When the name checks pass.  A check of several parts passes if every part
does, so the order of the parts matters only for which bad name is reported. -/

namespace NameCheck

@[simp] theorem seq_eq_ok_iff {first second : NameCheck} :
    (do first; second) = .ok () ↔ first = .ok () ∧ second = .ok () := by
  cases first with
  | error error => simp [bind, Except.bind]
  | ok passed => simp [bind, Except.bind]

@[simp] theorem forM_eq_ok_iff {α : Type} {check : α → NameCheck} {items : List α} :
    forM items check = .ok () ↔ ∀ item ∈ items, check item = .ok () := by
  induction items with
  | nil => simp [pure, Except.pure]
  | cons first rest ih =>
      rw [List.forM_cons, List.forall_mem_cons, ← ih]
      exact seq_eq_ok_iff

end NameCheck

@[simp] theorem checkName_eq_ok_iff {context : NameContext} {name : String} :
    checkName context name = .ok () ↔ isValidName name = true := by
  unfold checkName
  split <;> simp [*]

theorem Directive.check_eq_ok_iff {directive : Directive} :
    directive.check = .ok () ↔
      isValidName directive.name = true ∧
        ∀ argument ∈ directive.arguments, isValidName argument.1 = true := by
  simp [Directive.check]

theorem InputValue.check_eq_ok_iff {input : InputValue} :
    input.check = .ok () ↔
      isValidName input.name = true ∧ input.type.check = .ok () ∧
        ∀ directive ∈ input.directives, directive.check = .ok () := by
  simp [InputValue.check]

theorem FieldDef.check_eq_ok_iff {field : FieldDef} :
    field.check = .ok () ↔
      isValidName field.name = true ∧
        (∀ argument ∈ field.arguments, argument.check = .ok ()) ∧
        field.type.check = .ok () ∧
        ∀ directive ∈ field.directives, directive.check = .ok () := by
  simp [FieldDef.check]

theorem EnumValue.check_eq_ok_iff {value : EnumValue} :
    value.check = .ok () ↔
      isValidName value.name = true ∧
        ∀ directive ∈ value.directives, directive.check = .ok () := by
  simp [EnumValue.check]

theorem SchemaDef.check_eq_ok_iff {decl : SchemaDef} :
    decl.check = .ok () ↔
      (∀ directive ∈ decl.directives, directive.check = .ok ()) ∧
        ∀ name ∈ decl.operationTypes, isValidName name = true := by
  simp [SchemaDef.check]

theorem DirectiveDef.check_eq_ok_iff {decl : DirectiveDef} :
    decl.check = .ok () ↔
      isValidName decl.name = true ∧
        ∀ argument ∈ decl.arguments, argument.check = .ok () := by
  simp [DirectiveDef.check]

/-- What the check asks of the body of a type. -/
def TypeBody.Checked : TypeBody → Prop
  | .scalar => True
  | .composite _ interfaces fields =>
      (∀ name ∈ interfaces, isValidName name = true) ∧
        ∀ field ∈ fields, field.check = .ok ()
  | .union members => ∀ name ∈ members, isValidName name = true
  | .enum values => ∀ value ∈ values, value.check = .ok ()
  | .input fields => ∀ field ∈ fields, field.check = .ok ()

theorem TypeDecl.check_eq_ok_iff {decl : TypeDecl} :
    decl.check = .ok () ↔
      isValidName decl.name = true ∧
        (∀ directive ∈ decl.directives, directive.check = .ok ()) ∧
        decl.body.Checked := by
  obtain ⟨form, pos, name, directives, body⟩ := decl
  cases body <;> simp [TypeDecl.check, TypeBody.Checked]
  tauto

theorem Document.check_eq_ok_iff {document : Document} :
    document.check = .ok () ↔
      ∀ definition ∈ document.definitions, definition.check = .ok () := by
  simp [Document.check]

end SchemaLoom
