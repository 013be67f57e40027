import SchemaLoom.Proofs.WrittenTokens

namespace SchemaLoom

open Layout

/-! When the scanner accepts the tokens of a written document: their names have to be
valid, and for the rest it is enough that the document was read from a text and
that its values are legible. -/

/-! Names. -/

def ValidNames (tokens : List Token) : Prop :=
  ∀ token ∈ tokens, token.ValidName

theorem validNames_cons {token : Token} {rest : List Token} (htoken : token.ValidName)
    (hrest : ValidNames rest) : ValidNames (token :: rest) :=
  List.forall_mem_cons.mpr ⟨htoken, hrest⟩

theorem ValidNames.append {front behind : List Token} (hfront : ValidNames front)
    (hbehind : ValidNames behind) : ValidNames (front ++ behind) :=
  List.forall_mem_append.mpr ⟨hfront, hbehind⟩

theorem validNames_nil : ValidNames [] := by
  intro token htoken
  cases htoken

theorem validNames_flatMap {α : Type} {tokens : α → List Token} {items : List α}
    (h : ∀ item ∈ items, ValidNames (tokens item)) : ValidNames (items.flatMap tokens) :=
  List.forall_mem_flatMap.mpr h

theorem validName_name {name : String} (h : isValidName name = true) :
    (Token.name name.toList).ValidName := h

theorem validNames_bracketedIfAny {α : Type} (opening closing : Mark)
    {tokens : α → List Token} {items : List α}
    (h : ∀ item ∈ items, ValidNames (tokens item)) :
    ValidNames (bracketedIfAny opening closing (items.map tokens)) := by
  unfold bracketedIfAny
  split
  · exact validNames_nil
  · rw [← List.flatMap_def]
    exact validNames_cons trivial
      ((validNames_flatMap h).append (validNames_cons trivial validNames_nil))

theorem validNames_separated (between : Mark) {names : List String}
    (h : ∀ name ∈ names, isValidName name = true) :
    ValidNames (separatedTokens between names) := by
  cases names with
  | nil => exact validNames_nil
  | cons first rest =>
      rw [List.forall_mem_cons] at h
      refine validNames_cons (validName_name h.1) (validNames_flatMap ?_)
      intro name hname
      exact validNames_cons trivial (validNames_cons (validName_name (h.2 name hname))
        validNames_nil)

theorem validNames_description (indent : Nat) (description : Option String) :
    ValidNames (descriptionTokens indent description) := by
  cases description with
  | none => exact validNames_nil
  | some text =>
      refine validNames_cons ?_ validNames_nil
      unfold literalToken
      split <;> trivial

mutual

theorem Value.validNames (indent : Nat) :
    (value : Value) → Named value.within → ValidNames (value.tokens indent)
  | .variable name, h =>
      validNames_cons trivial (validNames_cons
        (validName_name (h _ (List.mem_singleton.mpr rfl) name (List.mem_singleton.mpr rfl)))
        validNames_nil)
  | .int _, _ => validNames_cons trivial validNames_nil
  | .float _, _ => validNames_cons trivial validNames_nil
  | .string text, _ => validNames_description indent (some text)
  | .boolean true, _ => validNames_cons (validName_name (by decide)) validNames_nil
  | .boolean false, _ => validNames_cons (validName_name (by decide)) validNames_nil
  | .null, _ => validNames_cons (validName_name (by decide)) validNames_nil
  | .enum name, h =>
      validNames_cons
        (validName_name (h _ (List.mem_singleton.mpr rfl) name (List.mem_singleton.mpr rfl)))
        validNames_nil
  | .list items, h => by
      rw [Value.tokens_list]
      refine validNames_cons trivial (ValidNames.append ?_ (validNames_cons trivial validNames_nil))
      exact validNames_flatMap
        (Value.validNames_items indent items (List.forall_mem_cons.mp h).2)
  | .object members, h => by
      rw [Value.tokens_object]
      refine validNames_cons trivial (ValidNames.append ?_ (validNames_cons trivial validNames_nil))
      obtain ⟨hkeys, hvalues⟩ := List.forall_mem_cons.mp h
      apply validNames_flatMap
      intro member hmember
      exact validNames_cons
        (validName_name (hkeys member.1 (List.mem_map_of_mem hmember)))
        (validNames_cons trivial
          (Value.validNames_members indent members hvalues member hmember))

theorem Value.validNames_items (indent : Nat) :
    (items : List Value) → Named (Value.withinItems items) →
      ∀ item ∈ items, ValidNames (item.tokens indent)
  | [], _ => by simp
  | first :: rest, h => by
      obtain ⟨hfirst, hrest⟩ := List.forall_mem_append.mp h
      exact List.forall_mem_cons.mpr
        ⟨Value.validNames indent first hfirst, Value.validNames_items indent rest hrest⟩

theorem Value.validNames_members (indent : Nat) :
    (members : List (String × Value)) → Named (Value.withinMembers members) →
      ∀ member ∈ members, ValidNames (member.2.tokens indent)
  | [], _ => by simp
  | (key, first) :: rest, h => by
      obtain ⟨hfirst, hrest⟩ := List.forall_mem_append.mp h
      exact List.forall_mem_cons.mpr
        ⟨Value.validNames indent first hfirst, Value.validNames_members indent rest hrest⟩

end

theorem TypeRef.validNames {type : TypeRef} (h : type.check = .ok ()) :
    ValidNames type.tokens := by
  induction type with
  | named name => exact validNames_cons (checkName_eq_ok_iff.mp h) validNames_nil
  | list item ih =>
      rw [TypeRef.tokens_list]
      exact validNames_cons trivial ((ih h).append (validNames_cons trivial validNames_nil))
  | nonNull type ih =>
      rw [TypeRef.tokens_nonNull]
      exact (ih h).append (validNames_cons trivial validNames_nil)

theorem Directive.validNames (indent : Nat) {directive : Directive}
    (hcheck : directive.check = .ok ()) (hnamed : Named directive.values) :
    ValidNames (directive.tokens indent) := by
  obtain ⟨hname, harguments⟩ := Directive.check_eq_ok_iff.mp hcheck
  refine validNames_cons trivial (validNames_cons (validName_name hname) ?_)
  apply validNames_bracketedIfAny
  intro argument hargument
  exact validNames_cons (validName_name (harguments argument hargument))
    (validNames_cons trivial
      (argument.2.validNames indent (List.forall_mem_flatMap.mp hnamed argument hargument)))

theorem validNames_directives (indent : Nat) {directives : List Directive}
    (hcheck : ∀ directive ∈ directives, directive.check = .ok ())
    (hnamed : Named (directives.flatMap Directive.values)) :
    ValidNames (directives.flatMap (Directive.tokens indent)) := by
  apply validNames_flatMap
  intro directive hdirective
  exact directive.validNames indent (hcheck directive hdirective)
    (List.forall_mem_flatMap.mp hnamed directive hdirective)

theorem InputValue.validNames (indent : Nat) {input : InputValue}
    (hcheck : input.check = .ok ()) (hnamed : Named input.values) :
    ValidNames (input.tokens indent) := by
  obtain ⟨hname, htype, hdirectives⟩ := InputValue.check_eq_ok_iff.mp hcheck
  obtain ⟨hfront, hdirectiveValues⟩ := List.forall_mem_append.mp hnamed
  obtain ⟨_, hdefault⟩ := List.forall_mem_append.mp hfront
  refine (validNames_description indent _).append (validNames_cons (validName_name hname)
    (validNames_cons trivial ((TypeRef.validNames htype).append (ValidNames.append ?_
      (validNames_directives indent hdirectives hdirectiveValues)))))
  cases hvalue : input.defaultValue with
  | none => exact validNames_nil
  | some value =>
      refine validNames_cons trivial (value.validNames indent ?_)
      exact List.forall_mem_flatMap.mp hdefault value (by simp [hvalue])

theorem InputValue.validNames_all (indent : Nat) {inputs : List InputValue}
    (hcheck : ∀ input ∈ inputs, input.check = .ok ())
    (hnamed : Named (inputs.flatMap InputValue.values)) :
    ∀ input ∈ inputs, ValidNames (input.tokens indent) := by
  intro input hinput
  exact input.validNames indent (hcheck input hinput)
    (List.forall_mem_flatMap.mp hnamed input hinput)

theorem FieldDef.validNames (indent : Nat) {field : FieldDef}
    (hcheck : field.check = .ok ()) (hnamed : Named field.values) :
    ValidNames (field.tokens indent) := by
  obtain ⟨hname, harguments, htype, hdirectives⟩ := FieldDef.check_eq_ok_iff.mp hcheck
  obtain ⟨hfront, hdirectiveValues⟩ := List.forall_mem_append.mp hnamed
  obtain ⟨_, hargumentValues⟩ := List.forall_mem_append.mp hfront
  exact (validNames_description indent _).append (validNames_cons (validName_name hname)
    ((validNames_bracketedIfAny _ _
      (InputValue.validNames_all indent harguments hargumentValues)).append
      (validNames_cons trivial ((TypeRef.validNames htype).append
        (validNames_directives indent hdirectives hdirectiveValues)))))

theorem EnumValue.validNames (indent : Nat) {value : EnumValue}
    (hcheck : value.check = .ok ()) (hnamed : Named value.values) :
    ValidNames (value.tokens indent) := by
  obtain ⟨hname, hdirectives⟩ := EnumValue.check_eq_ok_iff.mp hcheck
  exact (validNames_description indent _).append (validNames_cons (validName_name hname)
    (validNames_directives indent hdirectives (List.forall_mem_append.mp hnamed).2))

theorem SchemaDef.mem_operations {decl : SchemaDef} {operation : String × String}
    (h : operation ∈ decl.operations) :
    isValidName operation.1 = true ∧ operation.2 ∈ decl.operationTypes := by
  obtain ⟨key, type⟩ := operation
  simp only [SchemaDef.operations, List.mem_append, List.mem_map, Option.mem_toList,
    Prod.mk.injEq] at h
  simp only [SchemaDef.operationTypes, List.mem_filterMap, List.mem_cons]
  rcases h with (⟨_, htype, rfl, rfl⟩ | ⟨_, htype, rfl, rfl⟩) | ⟨_, htype, rfl, rfl⟩
  · exact ⟨by decide, _, .inl htype.symm, rfl⟩
  · exact ⟨by decide, _, .inr (.inl htype.symm), rfl⟩
  · exact ⟨by decide, _, .inr (.inr (.inl htype.symm)), rfl⟩

theorem SchemaDef.validNames {decl : SchemaDef} (hcheck : decl.check = .ok ())
    (hnamed : Named (decl.directives.flatMap Directive.values)) :
    ValidNames decl.tokens := by
  obtain ⟨hdirectives, htypes⟩ := SchemaDef.check_eq_ok_iff.mp hcheck
  refine validNames_cons (validName_name (by decide))
    ((validNames_directives 0 hdirectives hnamed).append (validNames_cons trivial
      (ValidNames.append (validNames_flatMap ?_) (validNames_cons trivial validNames_nil))))
  intro operation hmem
  obtain ⟨hkey, htype⟩ := SchemaDef.mem_operations hmem
  exact validNames_cons (validName_name hkey) (validNames_cons trivial
    (validNames_cons (validName_name (htypes _ htype)) validNames_nil))

theorem DirectiveDef.validNames {decl : DirectiveDef} (hcheck : decl.check = .ok ())
    (hnamed : Named (decl.arguments.flatMap InputValue.values)) :
    ValidNames decl.tokens := by
  obtain ⟨hname, harguments⟩ := DirectiveDef.check_eq_ok_iff.mp hcheck
  have hlocations : ∀ name ∈ decl.locations.map Location.text, isValidName name = true := by
    intro name hmem
    obtain ⟨location, _, rfl⟩ := List.mem_map.mp hmem
    cases location <;> decide
  refine (validNames_description 0 _).append (validNames_cons (validName_name (by decide))
    (validNames_cons trivial (validNames_cons (validName_name hname)
      ((validNames_bracketedIfAny _ _
        (InputValue.validNames_all 0 harguments hnamed)).append
        (ValidNames.append ?_ ?_)))))
  · cases decl.repeatable with
    | false => exact validNames_nil
    | true => exact validNames_cons (validName_name (by decide)) validNames_nil
  · unfold locationTokens
    split
    · exact validNames_nil
    · exact validNames_cons (validName_name (by decide))
        (validNames_separated _ hlocations)

def typeKeywords : List String :=
  ["scalar", "type", "interface", "union", "enum", "input"]

theorem TypeBody.keyword_mem (body : TypeBody) : body.keyword ∈ typeKeywords := by
  cases body with
  | composite sort interfaces fields => cases sort <;> simp [typeKeywords, TypeBody.keyword]
  | _ => simp [typeKeywords, TypeBody.keyword]

theorem TypeBody.isValidName_keyword (body : TypeBody) :
    isValidName body.keyword = true := by
  have hall : ∀ keyword ∈ typeKeywords, isValidName keyword = true := by decide
  exact hall _ body.keyword_mem

theorem TypeBody.validNames {body : TypeBody} (hcheck : body.Checked)
    (hnamed : Named body.values) :
    ValidNames body.interfaceTokens ∧ ValidNames body.memberTokens := by
  cases body with
  | scalar => exact ⟨validNames_nil, validNames_nil⟩
  | composite sort interfaces fields =>
      constructor
      · rw [TypeBody.interfaceTokens]
        split
        · exact validNames_nil
        · exact validNames_cons (validName_name (by decide))
            (validNames_separated _ hcheck.1)
      · apply validNames_bracketedIfAny
        intro field hfield
        exact field.validNames _ (hcheck.2 field hfield)
          (List.forall_mem_flatMap.mp hnamed field hfield)
  | union members =>
      refine ⟨validNames_nil, ?_⟩
      rw [TypeBody.memberTokens]
      split
      · exact validNames_nil
      · exact validNames_cons trivial (validNames_separated _ hcheck)
  | enum values =>
      refine ⟨validNames_nil, validNames_bracketedIfAny _ _ ?_⟩
      intro value hvalue
      exact value.validNames _ (hcheck value hvalue)
        (List.forall_mem_flatMap.mp hnamed value hvalue)
  | input fields =>
      exact ⟨validNames_nil, validNames_bracketedIfAny _ _
        (InputValue.validNames_all _ hcheck hnamed)⟩

theorem TypeDecl.validNames {decl : TypeDecl} (hcheck : decl.check = .ok ())
    (hnamed : Named (Definition.type decl).values) : ValidNames decl.tokens := by
  obtain ⟨hname, hdirectives, hbody⟩ := TypeDecl.check_eq_ok_iff.mp hcheck
  obtain ⟨hfront, hbodyValues⟩ := List.forall_mem_append.mp hnamed
  obtain ⟨hinterfaces, hmembers⟩ := TypeBody.validNames hbody hbodyValues
  refine ValidNames.append ?_ (validNames_cons (validName_name decl.body.isValidName_keyword)
    (validNames_cons (validName_name hname) (hinterfaces.append
      ((validNames_directives 0 hdirectives
        (List.forall_mem_append.mp hfront).2).append hmembers))))
  cases decl.form with
  | definition description => exact validNames_description 0 description
  | extension => exact validNames_cons (validName_name (by decide)) validNames_nil

theorem Document.validNames {document : Document} (hcheck : document.check = .ok ())
    (hnamed : Named document.values) : ValidNames (lexemes document.pieces) := by
  rw [Document.lexemes_pieces]
  apply validNames_flatMap
  intro definition hdefinition
  have hcheck := Document.check_eq_ok_iff.mp hcheck definition hdefinition
  have hnamed := List.forall_mem_flatMap.mp hnamed definition hdefinition
  cases definition with
  | schema decl => exact decl.validNames hcheck hnamed
  | directive decl => exact decl.validNames hcheck (List.forall_mem_append.mp hnamed).2
  | type decl => exact decl.validNames hcheck hnamed

/-! Brackets and literals. -/

/-- Tokens that the scanner takes, and that close every bracket they open. -/
def Scans (room : Nat) (tokens : List Token) : Prop :=
  roomBehindAll? room tokens = some room ∧ ∀ token ∈ tokens, token.rescan?.isSome = true

theorem scans_nil (room : Nat) : Scans room [] :=
  ⟨rfl, by simp⟩

theorem roomBehindAll?_append (room : Nat) (front behind : List Token) :
    roomBehindAll? room (front ++ behind) =
      (roomBehindAll? room front).bind fun room => roomBehindAll? room behind := by
  simp [roomBehindAll?, List.foldlM_append]

theorem Scans.append {room : Nat} {front behind : List Token} (hfront : Scans room front)
    (hbehind : Scans room behind) : Scans room (front ++ behind) := by
  refine ⟨?_, List.forall_mem_append.mpr ⟨hfront.2, hbehind.2⟩⟩
  rw [roomBehindAll?_append, hfront.1]
  exact hbehind.1

/-- A token that is no bracket. -/
theorem Scans.cons {room : Nat} {token : Token} {rest : List Token}
    (hroom : token.roomBehind? room = some room) (htoken : token.rescan?.isSome = true)
    (hrest : Scans room rest) : Scans room (token :: rest) := by
  refine ⟨?_, List.forall_mem_cons.mpr ⟨htoken, hrest.2⟩⟩
  rw [roomBehindAll?, List.foldlM_cons, hroom]
  exact hrest.1

theorem scans_name {room : Nat} (text : List Char) {rest : List Token}
    (hrest : Scans room rest) : Scans room (.name text :: rest) :=
  .cons rfl rfl hrest

theorem scans_flatMap {α : Type} {room : Nat} {tokens : α → List Token} {items : List α}
    (h : ∀ item ∈ items, Scans room (tokens item)) : Scans room (items.flatMap tokens) := by
  induction items with
  | nil => exact scans_nil room
  | cons first rest ih =>
      rw [List.forall_mem_cons] at h
      rw [List.flatMap_cons]
      exact h.1.append (ih h.2)

theorem scans_bracketed {opening closing : Mark} (hopens : opening.opens = true)
    (hcloses : closing.closes = true) {room : Nat} {body : List Token}
    (hbody : Below (fun inner => Scans inner body) room) :
    Scans room (.mark opening :: (body ++ [.mark closing])) := by
  obtain ⟨inner, rfl, hroom, htokens⟩ := hbody
  have hopening : (Token.mark opening).roomBehind? (inner + 1) = some inner := by
    cases opening <;> first | rfl | cases hopens
  have hclosing : (Token.mark closing).roomBehind? inner = some (inner + 1) := by
    cases closing <;> first | rfl | cases hcloses
  refine ⟨?_, ?_⟩
  · rw [roomBehindAll?, List.foldlM_cons, hopening]
    change roomBehindAll? inner (body ++ [.mark closing]) = some (inner + 1)
    rw [roomBehindAll?_append, hroom, Option.bind_some, roomBehindAll?, List.foldlM_cons,
      hclosing]
    rfl
  · exact List.forall_mem_cons.mpr ⟨rfl, List.forall_mem_append.mpr
      ⟨htokens, List.forall_mem_cons.mpr ⟨rfl, by simp⟩⟩⟩

theorem scans_bracketedIfAny {α : Type} {opening closing : Mark}
    (hopens : opening.opens = true) (hcloses : closing.closes = true) {room : Nat}
    {tokens : α → List Token} {items : List α}
    (h : ∀ item ∈ items, Below (fun inner => Scans inner (tokens item)) room) :
    Scans room (bracketedIfAny opening closing (items.map tokens)) := by
  unfold bracketedIfAny
  cases items with
  | nil => exact scans_nil room
  | cons first rest =>
      obtain ⟨inner, rfl, _⟩ := h first List.mem_cons_self
      refine scans_bracketed hopens hcloses ⟨inner, rfl, ?_⟩
      rw [← List.flatMap_def]
      apply scans_flatMap
      intro item hitem
      obtain ⟨other, hother, hscans⟩ := h item hitem
      obtain rfl : inner = other := by omega
      exact hscans

theorem scans_separated {between : Mark} (hopens : between.opens = false)
    (hcloses : between.closes = false) (room : Nat) (names : List String) :
    Scans room (separatedTokens between names) := by
  have hbetween : (Token.mark between).roomBehind? room = some room := by
    cases between <;> simp_all [Mark.opens, Mark.closes, Token.roomBehind?]
  cases names with
  | nil => exact scans_nil room
  | cons first rest =>
      refine scans_name _ (scans_flatMap ?_)
      intro name _
      exact .cons hbetween rfl (scans_name _ (scans_nil room))

theorem scans_literal (room indent : Nat) (text : String) {rest : List Token}
    (hrest : Scans room rest) : Scans room (literalToken indent text :: rest) := by
  unfold literalToken
  split
  · exact .cons rfl rfl hrest
  · exact .cons rfl rfl hrest

theorem scans_description (room indent : Nat) (description : Option String) :
    Scans room (descriptionTokens indent description) := by
  cases description with
  | none => exact scans_nil room
  | some text => exact scans_literal room indent text (scans_nil room)

theorem rescan?_float_isSome {value : Binary64} (h : value.isLegible = true) :
    (Token.float value.toText).rescan?.isSome = true := by
  rw [Binary64.isLegible_eq, Binary64.isValueText, Bool.or_eq_true] at h
  rw [Token.rescan?]
  split
  · rfl
  · rcases h with h | h
    · contradiction
    · cases hnumber : numberToken? value.toText with
      | none => simp [hnumber] at h
      | some token => rfl

mutual

theorem Value.scans (indent : Nat) {sort : ValueSort} {room : Nat} :
    (value : Value) → value.Sound sort room → value.Fits sort →
      Scans room (value.tokens indent)
  | .variable name, _, _ => .cons rfl rfl (scans_name _ (scans_nil room))
  | .int _, _, _ => .cons rfl rfl (scans_nil room)
  | .float value, _, hfits =>
      .cons rfl (rescan?_float_isSome (hfits _ (List.mem_singleton.mpr rfl)).1)
        (scans_nil room)
  | .string text, _, _ => scans_literal room indent text (scans_nil room)
  | .boolean true, _, _ => scans_name _ (scans_nil room)
  | .boolean false, _, _ => scans_name _ (scans_nil room)
  | .null, _, _ => scans_name _ (scans_nil room)
  | .enum _, _, _ => scans_name _ (scans_nil room)
  | .list items, hsound, hfits => by
      obtain ⟨inner, rfl, hitems⟩ := hsound
      rw [Value.tokens_list]
      exact scans_bracketed rfl rfl ⟨inner, rfl, scans_flatMap
        (Value.scans_items indent items hitems (Value.fits_list_iff.mp hfits))⟩
  | .object members, hsound, hfits => by
      obtain ⟨_, inner, rfl, hmembers⟩ := hsound
      rw [Value.tokens_object]
      exact scans_bracketed rfl rfl ⟨inner, rfl, scans_flatMap
        (Value.scans_members indent members hmembers (Value.fits_object_iff.mp hfits))⟩

theorem Value.scans_items (indent : Nat) {sort : ValueSort} {room : Nat} :
    (items : List Value) → Value.ItemsSound sort room items →
      (∀ item ∈ items, item.Fits sort) → ∀ item ∈ items, Scans room (item.tokens indent)
  | [], _, _ => by simp
  | first :: rest, hsound, hfits => by
      rw [List.forall_mem_cons] at hfits ⊢
      exact ⟨Value.scans indent first hsound.1 hfits.1,
        Value.scans_items indent rest hsound.2 hfits.2⟩

theorem Value.scans_members (indent : Nat) {sort : ValueSort} {room : Nat} :
    (members : List (String × Value)) → Value.MembersSound sort room members →
      (∀ member ∈ members, member.2.Fits sort) →
      ∀ member ∈ members, Scans room (memberTokens indent member)
  | [], _, _ => by simp
  | (key, first) :: rest, hsound, hfits => by
      rw [List.forall_mem_cons] at hfits ⊢
      exact ⟨scans_name _ (.cons rfl rfl (Value.scans indent first hsound.1.2 hfits.1)),
        Value.scans_members indent rest hsound.2 hfits.2⟩

end

theorem TypeRef.scans {room : Nat} {type : TypeRef} (h : type.Sound room) :
    Scans room type.tokens := by
  induction type generalizing room with
  | named name => exact scans_name _ (scans_nil room)
  | list item ih =>
      obtain ⟨inner, rfl, hitem⟩ := h
      rw [TypeRef.tokens_list]
      exact scans_bracketed rfl rfl ⟨inner, rfl, ih hitem⟩
  | nonNull type ih =>
      rw [TypeRef.tokens_nonNull]
      exact (ih h.2).append (.cons rfl rfl (scans_nil room))

theorem Directive.scans (indent : Nat) {room : Nat} {directive : Directive}
    (hsound : directive.Sound room) (hfits : directive.Fits) :
    Scans room (directive.tokens indent) := by
  refine .cons rfl rfl (scans_name _ (scans_bracketedIfAny rfl rfl ?_))
  intro argument hargument
  obtain ⟨inner, hinner, _, hvalue⟩ := hsound.arguments argument hargument
  exact ⟨inner, hinner, scans_name _ (.cons rfl rfl
    (argument.2.scans indent hvalue (hfits argument hargument)))⟩

theorem scans_directives (indent : Nat) {room : Nat} {directives : List Directive}
    (hsound : ∀ directive ∈ directives, directive.Sound room)
    (hfits : ∀ directive ∈ directives, directive.Fits) :
    Scans room (directives.flatMap (Directive.tokens indent)) := by
  apply scans_flatMap
  intro directive hdirective
  exact directive.scans indent (hsound directive hdirective) (hfits directive hdirective)

theorem InputValue.scans (indent : Nat) {room : Nat} {input : InputValue}
    (hsound : input.Sound room) (hfits : input.Fits) : Scans room (input.tokens indent) := by
  have hdefault : Scans room (defaultTokens indent input.defaultValue) := by
    cases hvalue : input.defaultValue with
    | none => exact scans_nil room
    | some value =>
        exact .cons rfl rfl (value.scans indent (hsound.defaultValue value hvalue)
          (hfits.defaultValue value hvalue))
  exact (scans_description room indent _).append (scans_name _ (.cons rfl rfl
    ((TypeRef.scans hsound.type).append (hdefault.append
      (scans_directives indent hsound.directives hfits.directives)))))

theorem InputValue.scans_below (indent : Nat) {room : Nat} {inputs : List InputValue}
    (hsound : ∀ input ∈ inputs, Below (fun inner => input.Sound inner) room)
    (hfits : ∀ input ∈ inputs, input.Fits) :
    ∀ input ∈ inputs, Below (fun inner => Scans inner (input.tokens indent)) room := by
  intro input hinput
  obtain ⟨inner, hinner, hinputSound⟩ := hsound input hinput
  exact ⟨inner, hinner, input.scans indent hinputSound (hfits input hinput)⟩

theorem FieldDef.scans (indent : Nat) {room : Nat} {field : FieldDef}
    (hsound : field.Sound room) (hfits : field.Fits) : Scans room (field.tokens indent) :=
  (scans_description room indent _).append (scans_name _
    ((scans_bracketedIfAny rfl rfl
      (InputValue.scans_below indent hsound.arguments hfits.arguments)).append
      (.cons rfl rfl ((TypeRef.scans hsound.type).append
        (scans_directives indent hsound.directives hfits.directives)))))

theorem EnumValue.scans (indent : Nat) {room : Nat} {value : EnumValue}
    (hsound : value.Sound room) (hfits : value.Fits) : Scans room (value.tokens indent) :=
  (scans_description room indent _).append (scans_name _
    (scans_directives indent hsound.directives hfits.directives))

theorem SchemaDef.scans {room : Nat} {decl : SchemaDef} (hroom : 0 < room)
    (hsound : decl.Sound room) (hfits : ∀ directive ∈ decl.directives, directive.Fits) :
    Scans room decl.tokens := by
  obtain ⟨inner, rfl⟩ : ∃ inner, room = inner + 1 := ⟨room - 1, by omega⟩
  refine scans_name _ ((scans_directives 0 hsound.directives hfits).append
    (scans_bracketed rfl rfl ⟨inner, rfl, scans_flatMap ?_⟩))
  intro operation _
  exact scans_name _ (.cons rfl rfl (scans_name _ (scans_nil inner)))

theorem DirectiveDef.scans {room : Nat} {decl : DirectiveDef} (hsound : decl.Sound room)
    (hfits : decl.Fits) : Scans room decl.tokens := by
  refine (scans_description room 0 _).append (scans_name _ (.cons rfl rfl (scans_name _
    ((scans_bracketedIfAny rfl rfl
      (InputValue.scans_below 0 hsound.arguments hfits.arguments)).append
      (Scans.append ?_ ?_)))))
  · cases decl.repeatable with
    | false => exact scans_nil room
    | true => exact scans_name _ (scans_nil room)
  · cases decl.locations with
    | nil => exact scans_nil room
    | cons first locations => exact scans_name _ (scans_separated rfl rfl room _)

theorem TypeBody.scans {room : Nat} {body : TypeBody} (hsound : body.Sound room)
    (hfits : body.Fits) :
    Scans room body.interfaceTokens ∧ Scans room body.memberTokens := by
  cases body with
  | scalar => exact ⟨scans_nil room, scans_nil room⟩
  | composite sort interfaces fields =>
      constructor
      · rw [TypeBody.interfaceTokens]
        split
        · exact scans_nil room
        · exact scans_name _ (scans_separated rfl rfl room _)
      · apply scans_bracketedIfAny rfl rfl
        intro field hfield
        obtain ⟨inner, hinner, hfieldSound⟩ := hsound.2 field hfield
        exact ⟨inner, hinner, field.scans _ hfieldSound (hfits field hfield)⟩
  | union members =>
      refine ⟨scans_nil room, ?_⟩
      rw [TypeBody.memberTokens]
      split
      · exact scans_nil room
      · exact .cons rfl rfl (scans_separated rfl rfl room _)
  | enum values =>
      refine ⟨scans_nil room, scans_bracketedIfAny rfl rfl ?_⟩
      intro value hvalue
      obtain ⟨inner, hinner, hvalueSound⟩ := hsound value hvalue
      exact ⟨inner, hinner, value.scans _ hvalueSound (hfits value hvalue)⟩
  | input fields =>
      exact ⟨scans_nil room, scans_bracketedIfAny rfl rfl
        (InputValue.scans_below _ hsound hfits)⟩

theorem TypeDecl.scans {room : Nat} {decl : TypeDecl} (hsound : decl.Sound room)
    (hfits : decl.Fits) : Scans room decl.tokens := by
  obtain ⟨hinterfaces, hmembers⟩ := TypeBody.scans hsound.body hfits.body
  refine Scans.append ?_ (scans_name _ (scans_name _ (hinterfaces.append
    ((scans_directives 0 hsound.directives hfits.directives).append hmembers))))
  cases decl.form with
  | definition description => exact scans_description room 0 description
  | extension => exact scans_name _ (scans_nil room)

theorem Document.scans {document : Document} (hsound : document.Sound)
    (hfits : ∀ definition ∈ document.definitions, definition.Fits) :
    Scans bracketLimit (lexemes document.pieces) := by
  rw [Document.lexemes_pieces]
  apply scans_flatMap
  intro definition hdefinition
  have hsound := hsound.definitions definition hdefinition
  have hfits := hfits definition hdefinition
  cases definition with
  | schema decl => exact decl.scans (by decide) hsound hfits
  | directive decl => exact decl.scans hsound hfits
  | type decl => exact decl.scans hsound hfits

end SchemaLoom
