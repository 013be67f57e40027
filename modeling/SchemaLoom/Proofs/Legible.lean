import SchemaLoom.Proofs.AsRead
import SchemaLoom.Proofs.Doubles
import SchemaLoom.Proofs.Spelling
import Mathlib.Tactic.MkIffOfInductiveProp

namespace SchemaLoom

/-! Values that can be read from their written form, and documents made of them. -/

/-! All values of a document, at any depth.  Descriptions count as strings. -/

mutual

/-- A value and the values inside it. -/
def Value.within : Value → List Value
  | .list items => .list items :: Value.withinItems items
  | .object members => .object members :: Value.withinMembers members
  | value => [value]

def Value.withinItems : List Value → List Value
  | [] => []
  | value :: rest => value.within ++ Value.withinItems rest

def Value.withinMembers : List (String × Value) → List Value
  | [] => []
  | (_, value) :: rest => value.within ++ Value.withinMembers rest

end

/-- The names that stand in a value itself. -/
def Value.names : Value → List String
  | .variable name => [name]
  | .enum name => [name]
  | .object members => members.map Prod.fst
  | _ => []

/-- All names that stand in values are valid. -/
def Named (values : List Value) : Prop :=
  ∀ value ∈ values, ∀ name ∈ value.names, isValidName name = true

def describing (description : Option String) : List Value :=
  description.toList.map .string

def Directive.values (directive : Directive) : List Value :=
  directive.arguments.flatMap fun argument => argument.2.within

def InputValue.values (input : InputValue) : List Value :=
  describing input.description ++ input.defaultValue.toList.flatMap Value.within
    ++ input.directives.flatMap Directive.values

def FieldDef.values (field : FieldDef) : List Value :=
  describing field.description ++ field.arguments.flatMap InputValue.values
    ++ field.directives.flatMap Directive.values

def EnumValue.values (value : EnumValue) : List Value :=
  describing value.description ++ value.directives.flatMap Directive.values

def TypeForm.values : TypeForm → List Value
  | .definition description => describing description
  | .extension => []

def TypeBody.values : TypeBody → List Value
  | .scalar => []
  | .composite _ _ fields => fields.flatMap FieldDef.values
  | .union _ => []
  | .enum values => values.flatMap EnumValue.values
  | .input fields => fields.flatMap InputValue.values

def Definition.values : Definition → List Value
  | .schema decl => decl.directives.flatMap Directive.values
  | .directive decl => describing decl.description ++ decl.arguments.flatMap InputValue.values
  | .type decl =>
      decl.form.values ++ decl.directives.flatMap Directive.values ++ decl.body.values

def Document.values (document : Document) : List Value :=
  document.definitions.flatMap Definition.values

/-! What is written but cannot be read: whole numbers out of range, negative
infinity, and block strings with a torn margin. -/

def isLegibleText (text : String) : Bool :=
  !(Layout.writesBlock text.toList && Block.isTorn text.toList)

def Value.isLegible : Value → Bool
  | .float value => value.isLegible
  | .string text => isLegibleText text
  | _ => true

/-! The grammar asks for more, which all that was read from a text meets anyway. -/

def Value.Regular (sort : ValueSort) : Value → Prop
  | .variable _ => sort = .open
  | .int value => intInRange value = true
  | _ => True

/-- An enum value is not taken for another value, and members stand in order. -/
def Value.Canonical : Value → Prop
  | .enum name => ofName name = .enum name
  | .object members => (members.map Prod.fst).Pairwise (· < ·)
  | _ => True

def Value.Fits (sort : ValueSort) (value : Value) : Prop :=
  ∀ inner ∈ value.within, inner.isLegible = true ∧ inner.Regular sort

theorem Value.withinItems_eq (items : List Value) :
    Value.withinItems items = items.flatMap Value.within := by
  induction items with
  | nil => rfl
  | cons first rest ih => rw [Value.withinItems, ih, List.flatMap_cons]

theorem Value.withinMembers_eq (members : List (String × Value)) :
    Value.withinMembers members = members.flatMap fun member => member.2.within := by
  induction members with
  | nil => rfl
  | cons first rest ih => rw [Value.withinMembers, ih, List.flatMap_cons]

theorem Value.fits_list_iff {sort : ValueSort} {items : List Value} :
    (Value.list items).Fits sort ↔ ∀ item ∈ items, item.Fits sort := by
  simp only [Value.Fits, Value.within, Value.withinItems_eq, List.forall_mem_cons,
    List.mem_flatMap]
  constructor
  · intro h item hitem inner hinner
    exact h.2 inner ⟨item, hitem, hinner⟩
  · intro h
    refine ⟨⟨rfl, trivial⟩, ?_⟩
    intro inner hinner
    obtain ⟨item, hitem, hinner⟩ := hinner
    exact h item hitem inner hinner

theorem Value.fits_object_iff {sort : ValueSort} {members : List (String × Value)} :
    (Value.object members).Fits sort ↔ ∀ member ∈ members, member.2.Fits sort := by
  simp only [Value.Fits, Value.within, Value.withinMembers_eq, List.forall_mem_cons,
    List.mem_flatMap]
  constructor
  · intro h member hmember inner hinner
    exact h.2 inner ⟨member, hmember, hinner⟩
  · intro h
    refine ⟨⟨rfl, trivial⟩, ?_⟩
    intro inner hinner
    obtain ⟨member, hmember, hinner⟩ := hinner
    exact h member hmember inner hinner

def TypeRef.Fits : TypeRef → Prop
  | .named _ => True
  | .list item => item.Fits
  | .nonNull type => type.isNonNull = false ∧ type.Fits

def DescriptionFits (description : Option String) : Prop :=
  ∀ text, description = some text → isLegibleText text = true

def Directive.Fits (directive : Directive) : Prop :=
  ∀ argument ∈ directive.arguments, argument.2.Fits .open

@[mk_iff]
structure InputValue.Fits (input : InputValue) : Prop where
  description : DescriptionFits input.description
  type : input.type.Fits
  defaultValue : ∀ value, input.defaultValue = some value → value.Fits .constant
  directives : ∀ directive ∈ input.directives, directive.Fits

@[mk_iff]
structure FieldDef.Fits (field : FieldDef) : Prop where
  description : DescriptionFits field.description
  arguments : ∀ argument ∈ field.arguments, argument.Fits
  type : field.type.Fits
  directives : ∀ directive ∈ field.directives, directive.Fits

@[mk_iff]
structure EnumValue.Fits (value : EnumValue) : Prop where
  description : DescriptionFits value.description
  directives : ∀ directive ∈ value.directives, directive.Fits

def TypeForm.Fits : TypeForm → Prop
  | .definition description => DescriptionFits description
  | .extension => True

def TypeBody.Fits : TypeBody → Prop
  | .scalar => True
  | .composite _ _ fields => ∀ field ∈ fields, field.Fits
  | .union _ => True
  | .enum values => ∀ value ∈ values, value.Fits
  | .input fields => ∀ field ∈ fields, field.Fits

@[mk_iff]
structure DirectiveDef.Fits (decl : DirectiveDef) : Prop where
  description : DescriptionFits decl.description
  arguments : ∀ argument ∈ decl.arguments, argument.Fits
  locations : decl.locations ≠ []

@[mk_iff]
structure TypeDecl.Fits (decl : TypeDecl) : Prop where
  form : decl.form.Fits
  directives : ∀ directive ∈ decl.directives, directive.Fits
  body : decl.body.Fits
  adds : decl.form = .extension → decl.adds = true

def Definition.Fits : Definition → Prop
  | .schema decl => ∀ directive ∈ decl.directives, directive.Fits
  | .directive decl => decl.Fits
  | .type decl => decl.Fits

/-! Documents that were read from a text. -/

mutual

theorem Value.Sound.regular {sort : ValueSort} {room : Nat} :
    {value : Value} → value.Sound sort room → ∀ inner ∈ value.within,
      inner.Regular sort ∧ (∀ name ∈ inner.names, isValidName name = true) ∧
        inner.Canonical
  | .variable name, h, inner, hinner => by
      obtain rfl := List.mem_singleton.mp hinner
      exact ⟨h.1, List.forall_mem_cons.mpr ⟨h.2, by simp⟩, trivial⟩
  | .int value, h, inner, hinner => by
      obtain rfl := List.mem_singleton.mp hinner
      exact ⟨h, by simp [Value.names], trivial⟩
  | .float _, _, inner, hinner
  | .string _, _, inner, hinner
  | .boolean _, _, inner, hinner
  | .null, _, inner, hinner => by
      obtain rfl := List.mem_singleton.mp hinner
      exact ⟨trivial, by simp [Value.names], trivial⟩
  | .enum name, h, inner, hinner => by
      obtain rfl := List.mem_singleton.mp hinner
      exact ⟨trivial, List.forall_mem_cons.mpr ⟨h.1, by simp⟩, h.2⟩
  | .list items, h, inner, hinner => by
      obtain ⟨below, rfl, hitems⟩ := h
      rcases List.mem_cons.mp hinner with rfl | hinner
      · exact ⟨trivial, by simp [Value.names], trivial⟩
      · exact Value.ItemsSound.regular hitems inner hinner
  | .object members, h, inner, hinner => by
      obtain ⟨hsorted, below, rfl, hmembers⟩ := h
      rcases List.mem_cons.mp hinner with rfl | hinner
      · refine ⟨trivial, ?_, hsorted⟩
        intro name hname
        obtain ⟨member, hmember, rfl⟩ := List.mem_map.mp hname
        exact (membersSound_iff.mp hmembers member hmember).1
      · exact Value.MembersSound.regular hmembers inner hinner

theorem Value.ItemsSound.regular {sort : ValueSort} {room : Nat} :
    {items : List Value} → Value.ItemsSound sort room items →
      ∀ inner ∈ Value.withinItems items,
        inner.Regular sort ∧ (∀ name ∈ inner.names, isValidName name = true) ∧
          inner.Canonical
  | [], _, _, hinner => by cases hinner
  | first :: rest, h, inner, hinner => by
      rcases List.mem_append.mp hinner with hinner | hinner
      · exact Value.Sound.regular h.1 inner hinner
      · exact Value.ItemsSound.regular h.2 inner hinner

theorem Value.MembersSound.regular {sort : ValueSort} {room : Nat} :
    {members : List (String × Value)} → Value.MembersSound sort room members →
      ∀ inner ∈ Value.withinMembers members,
        inner.Regular sort ∧ (∀ name ∈ inner.names, isValidName name = true) ∧
          inner.Canonical
  | [], _, _, hinner => by cases hinner
  | (key, first) :: rest, h, inner, hinner => by
      rcases List.mem_append.mp hinner with hinner | hinner
      · exact Value.Sound.regular h.1.2 inner hinner
      · exact Value.MembersSound.regular h.2 inner hinner

end

/-- Names are valid, values are as a reader makes them, and to be legible is all that
is left to ask of them. -/
structure Settled (fits : Prop) (values : List Value) : Prop where
  fits_iff : fits ↔ ∀ value ∈ values, value.isLegible = true
  named : Named values
  canonical : ∀ value ∈ values, value.Canonical

namespace Settled

theorem congr {fits fits' : Prop} {values : List Value} (h : Settled fits values)
    (hiff : fits' ↔ fits) : Settled fits' values :=
  ⟨hiff.trans h.fits_iff, h.named, h.canonical⟩

theorem nil {fits : Prop} (h : fits) : Settled fits [] :=
  ⟨iff_of_true h (by simp), by simp [Named], by simp⟩

theorem append {fits fits' : Prop} {front behind : List Value}
    (hfront : Settled fits front) (hbehind : Settled fits' behind) :
    Settled (fits ∧ fits') (front ++ behind) := by
  refine ⟨?_, List.forall_mem_append.mpr ⟨hfront.named, hbehind.named⟩,
    List.forall_mem_append.mpr ⟨hfront.canonical, hbehind.canonical⟩⟩
  rw [List.forall_mem_append, hfront.fits_iff, hbehind.fits_iff]

theorem flatMap {α : Type} {fits : α → Prop} {values : α → List Value} {items : List α}
    (h : ∀ item ∈ items, Settled (fits item) (values item)) :
    Settled (∀ item ∈ items, fits item) (items.flatMap values) := by
  refine ⟨?_, List.forall_mem_flatMap.mpr fun item hitem => (h item hitem).named,
    List.forall_mem_flatMap.mpr fun item hitem => (h item hitem).canonical⟩
  rw [List.forall_mem_flatMap]
  exact forall₂_congr fun item hitem => (h item hitem).fits_iff

theorem description (description : Option String) :
    Settled (DescriptionFits description) (describing description) := by
  cases description with
  | none => exact nil (by simp [DescriptionFits])
  | some text =>
      constructor <;>
        simp [DescriptionFits, describing, Named, Value.isLegible, Value.names, Value.Canonical]

end Settled

theorem Value.Sound.settled {sort : ValueSort} {room : Nat} {value : Value}
    (h : value.Sound sort room) : Settled (value.Fits sort) value.within := by
  refine ⟨?_, fun inner hinner => (h.regular inner hinner).2.1,
    fun inner hinner => (h.regular inner hinner).2.2⟩
  constructor
  · exact fun hfits inner hinner => (hfits inner hinner).1
  · exact fun hlegible inner hinner => ⟨hlegible inner hinner, (h.regular inner hinner).1⟩

theorem TypeRef.Sound.fits {room : Nat} {type : TypeRef} (h : type.Sound room) :
    type.Fits := by
  induction type generalizing room with
  | named name => trivial
  | list item ih =>
      obtain ⟨inner, _, hitem⟩ := h
      exact ih hitem
  | nonNull type ih => exact ⟨h.1, ih h.2⟩

theorem Directive.Sound.settled {room : Nat} {directive : Directive}
    (h : directive.Sound room) : Settled directive.Fits directive.values := by
  apply Settled.flatMap
  intro argument hargument
  obtain ⟨inner, _, _, hvalue⟩ := h.arguments argument hargument
  exact hvalue.settled

theorem settled_directives {room : Nat} {directives : List Directive}
    (h : ∀ directive ∈ directives, directive.Sound room) :
    Settled (∀ directive ∈ directives, directive.Fits)
      (directives.flatMap Directive.values) :=
  .flatMap fun directive hdirective => (h directive hdirective).settled

theorem InputValue.Sound.settled {room : Nat} {input : InputValue} (h : input.Sound room) :
    Settled input.Fits input.values := by
  have hdefault : Settled (∀ value ∈ input.defaultValue.toList, value.Fits .constant)
      (input.defaultValue.toList.flatMap Value.within) := by
    apply Settled.flatMap
    intro value hvalue
    exact (h.defaultValue value (by simpa using hvalue)).settled
  apply (((Settled.description _).append hdefault).append
    (settled_directives h.directives)).congr
  simp [InputValue.fits_iff, h.type.fits, and_assoc]

theorem InputValue.settled_below {room : Nat} {inputs : List InputValue}
    (h : ∀ input ∈ inputs, Below (fun inner => input.Sound inner) room) :
    Settled (∀ input ∈ inputs, input.Fits) (inputs.flatMap InputValue.values) := by
  apply Settled.flatMap
  intro input hinput
  obtain ⟨inner, _, hsound⟩ := h input hinput
  exact hsound.settled

theorem FieldDef.Sound.settled {room : Nat} {field : FieldDef} (h : field.Sound room) :
    Settled field.Fits field.values := by
  apply (((Settled.description _).append (InputValue.settled_below h.arguments)).append
    (settled_directives h.directives)).congr
  simp [FieldDef.fits_iff, h.type.fits, and_assoc]

theorem EnumValue.Sound.settled {room : Nat} {value : EnumValue} (h : value.Sound room) :
    Settled value.Fits value.values := by
  apply ((Settled.description _).append (settled_directives h.directives)).congr
  exact EnumValue.fits_iff value

theorem TypeForm.settled (form : TypeForm) : Settled form.Fits form.values := by
  cases form with
  | definition description => exact Settled.description description
  | extension => exact .nil trivial

theorem TypeBody.Sound.settled {room : Nat} {body : TypeBody} (h : body.Sound room) :
    Settled body.Fits body.values := by
  cases body with
  | scalar => exact .nil trivial
  | composite sort interfaces fields =>
      apply Settled.flatMap
      intro field hfield
      obtain ⟨inner, _, hsound⟩ := h.2 field hfield
      exact hsound.settled
  | union members => exact .nil trivial
  | enum values =>
      apply Settled.flatMap
      intro value hvalue
      obtain ⟨inner, _, hsound⟩ := h value hvalue
      exact hsound.settled
  | input fields => exact InputValue.settled_below h

/-- Every directive that is defined may be used somewhere. -/
def Definition.HasPlace : Definition → Prop
  | .directive decl => decl.locations ≠ []
  | _ => True

theorem Definition.Sound.fits_iff {room : Nat} {definition : Definition}
    (h : definition.Sound room) :
    definition.Fits ↔ definition.HasPlace ∧
      ∀ value ∈ definition.values, value.isLegible = true := by
  cases definition with
  | schema decl =>
      have hsettled := settled_directives h.directives
      rw [Definition.values, ← hsettled.fits_iff]
      exact (iff_of_eq (true_and _)).symm
  | directive decl =>
      have hsettled := (Settled.description decl.description).append
        (InputValue.settled_below h.arguments)
      rw [Definition.values, ← hsettled.fits_iff]
      constructor
      · intro hfits
        exact ⟨hfits.locations, hfits.description, hfits.arguments⟩
      · intro hfits
        exact ⟨hfits.2.1, hfits.2.2, hfits.1⟩
  | type decl =>
      have hsettled := (decl.form.settled.append
        (settled_directives h.directives)).append h.body.settled
      rw [Definition.values, ← hsettled.fits_iff]
      constructor
      · intro hfits
        exact ⟨trivial, ⟨hfits.form, hfits.directives⟩, hfits.body⟩
      · intro hfits
        exact ⟨hfits.2.1.1, hfits.2.1.2, hfits.2.2, h.adds⟩

theorem Definition.Sound.exists_settled {room : Nat} {definition : Definition}
    (h : definition.Sound room) : ∃ fits, Settled fits definition.values := by
  cases definition with
  | schema decl => exact ⟨_, settled_directives h.directives⟩
  | directive decl =>
      exact ⟨_, (Settled.description decl.description).append
        (InputValue.settled_below h.arguments)⟩
  | type decl =>
      exact ⟨_, (decl.form.settled.append
        (settled_directives h.directives)).append h.body.settled⟩

theorem Document.Sound.named {document : Document} (h : document.Sound) :
    Named document.values := by
  intro value hvalue
  obtain ⟨definition, hdefinition, hvalue⟩ := List.mem_flatMap.mp hvalue
  obtain ⟨_, hsettled⟩ := (h.definitions definition hdefinition).exists_settled
  exact hsettled.named value hvalue

theorem Document.Sound.canonical {document : Document} (h : document.Sound) :
    ∀ value ∈ document.values, value.Canonical := by
  intro value hvalue
  obtain ⟨definition, hdefinition, hvalue⟩ := List.mem_flatMap.mp hvalue
  obtain ⟨_, hsettled⟩ := (h.definitions definition hdefinition).exists_settled
  exact hsettled.canonical value hvalue

end SchemaLoom
