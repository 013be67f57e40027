import SchemaLoom.Proofs.Legible
import Mathlib.Data.List.Forall2

namespace SchemaLoom

/-! Documents apart from the positions in them, and the values that are read again
as they were. -/

def Directive.unplaced (directive : Directive) : Directive :=
  { directive with pos := .start }

def InputValue.unplaced (input : InputValue) : InputValue :=
  { input with
    pos := .start
    directives := input.directives.map Directive.unplaced }

def FieldDef.unplaced (field : FieldDef) : FieldDef :=
  { field with
    pos := .start
    arguments := field.arguments.map InputValue.unplaced
    directives := field.directives.map Directive.unplaced }

def EnumValue.unplaced (value : EnumValue) : EnumValue :=
  { value with
    pos := .start
    directives := value.directives.map Directive.unplaced }

def SchemaDef.unplaced (decl : SchemaDef) : SchemaDef :=
  { decl with
    pos := .start
    directives := decl.directives.map Directive.unplaced }

def DirectiveDef.unplaced (decl : DirectiveDef) : DirectiveDef :=
  { decl with
    pos := .start
    arguments := decl.arguments.map InputValue.unplaced }

def TypeBody.unplaced : TypeBody → TypeBody
  | .scalar => .scalar
  | .composite sort interfaces fields =>
      .composite sort interfaces (fields.map FieldDef.unplaced)
  | .union members => .union members
  | .enum values => .enum (values.map EnumValue.unplaced)
  | .input fields => .input (fields.map InputValue.unplaced)

def TypeDecl.unplaced (decl : TypeDecl) : TypeDecl :=
  { decl with
    pos := .start
    directives := decl.directives.map Directive.unplaced
    body := decl.body.unplaced }

def Definition.unplaced : Definition → Definition
  | .schema decl => .schema decl.unplaced
  | .directive decl => .directive decl.unplaced
  | .type decl => .type decl.unplaced

def Document.unplaced (document : Document) : Document :=
  ⟨document.definitions.map Definition.unplaced⟩

/-! Plain literals. -/

/-- No double, and no string with a character that has to be escaped by its code or
that ends a line. -/
def Value.isPlain : Value → Bool
  | .float _ => false
  | .string text => text.toList.all Quoted.isPlain
  | _ => true

/-- Values that are read as they were written. -/
def Lasting (values : List Value) : Prop :=
  ∀ value ∈ values, value.isPlain = true ∧ value.Canonical

theorem lasting_append {front behind : List Value} :
    Lasting (front ++ behind) ↔ Lasting front ∧ Lasting behind :=
  List.forall_mem_append

/-- The result shows what was written, if the values in that last. -/
def Returns {α β : Type} (values : α → List Value) (view : α → β)
    (content result : α) : Prop :=
  Lasting (values content) → view result = view content

/-- What holds of the items holds of the list. -/
theorem Returns.map_eq {α β : Type} {values : α → List Value} {view : α → β}
    {contents results : List α} (h : List.Forall₂ (Returns values view) contents results)
    (hlasting : Lasting (contents.flatMap values)) :
    results.map view = contents.map view := by
  induction h with
  | nil => rfl
  | cons hfirst _ ih =>
      rw [List.flatMap_cons, lasting_append] at hlasting
      rw [List.map_cons, List.map_cons, hfirst hlasting.1, ih hlasting.2]

theorem isEmpty_eq_of_forall₂ {α ι : Type} {post : ι → α → Prop} {contents : List ι}
    {results : List α} (h : List.Forall₂ post contents results) :
    results.isEmpty = contents.isEmpty := by
  cases h <;> rfl

/-! Members that stand in order are not moved. -/

namespace Value

theorem insertMember_last {key : String} {value : Value} {members : List (String × Value)}
    (h : ∀ member ∈ members, member.1 < key) :
    insertMember key value members = members ++ [(key, value)] := by
  induction members with
  | nil => rfl
  | cons first rest ih =>
      obtain ⟨hfirst, hrest⟩ := List.forall_mem_cons.mp h
      rw [insertMember, if_neg (not_lt_of_gt hfirst), if_neg (ne_of_gt hfirst), ih hrest]
      rfl

theorem ofMembers_of_sorted {members : List (String × Value)}
    (h : (members.map Prod.fst).Pairwise (· < ·)) : ofMembers members = .object members := by
  suffices hfold : ∀ held : List (String × Value),
      ((held ++ members).map Prod.fst).Pairwise (· < ·) →
      members.foldl (fun held member => insertMember member.1 member.2 held) held =
        held ++ members by
    rw [ofMembers, hfold [] h, List.nil_append]
  clear h
  induction members with
  | nil => simp
  | cons first rest ih =>
      intro held hsorted
      have hlast : ∀ member ∈ held, member.1 < first.1 := by
        intro member hmember
        rw [List.map_append, List.pairwise_append] at hsorted
        exact hsorted.2.2 member.1 (List.mem_map_of_mem hmember) first.1 (by simp)
      rw [List.foldl_cons, insertMember_last hlast, ih _ (by simpa using hsorted)]
      simp

end Value

end SchemaLoom
