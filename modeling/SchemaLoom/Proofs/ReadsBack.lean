import SchemaLoom.Proofs.ReaderOutcomes
import SchemaLoom.Proofs.Unplaced

namespace SchemaLoom

open Layout

/-! The readers of the grammar on written tokens.  Each of them ends where its
construct ends if the construct fits, and fails if it does not.  What it returns is
what was written, but for positions, if the values in that last. -/

/-- The next token, if there is one, cannot go on with what stands in front of it. -/
def Token.breaks : Token → Bool
  | .name _ | .quoted _ | .block _ => true
  | .mark sign => sign.closes
  | _ => false

def Tokens.Breaks (tokens : Tokens) : Prop :=
  ∀ token, tokens.head? = some token → token.breaks = true

theorem Tokens.Breaks.not_at {tokens : Tokens} (h : tokens.Breaks) {sign : Mark}
    (hsign : sign.closes = false) : ¬tokens.At sign := by
  intro hat
  have hbreaks := h _ hat
  rw [Token.breaks, hsign] at hbreaks
  cases hbreaks

theorem Tokens.breaks_of_closes {closing : Mark} (hcloses : closing.closes = true)
    (tokens : Tokens) (h : tokens.At closing) : tokens.Breaks := by
  intro token htoken
  rw [Tokens.At, htoken] at h
  cases h
  exact hcloses

namespace Reader

/-! Strings. -/

theorem rescan?_literalToken (indent : Nat) (text : String) :
    (literalToken indent text).rescan? = some (literalToken indent text) := by
  unfold literalToken
  split <;> rfl

theorem isText_literalToken (indent : Nat) (text : String) :
    isText (literalToken indent text) = true := by
  unfold literalToken
  split <;> rfl

theorem not_writesBlock_of_isPlain {content : String}
    (h : (Value.string content).isPlain = true) : writesBlock content.toList = false := by
  have hfeed : '\n' ∉ content.toList := by
    intro hmem
    cases List.all_eq_true.mp h '\n' hmem
  simp [writesBlock, hfeed]

theorem ends_text (indent : Nat) (content : String) (pos : Pos) (rest : Tokens) :
    Ends (text.run (.next pos (literalToken indent content) rest)) rest
      (isLegibleText content = true)
      fun result => (Value.string content).isPlain = true → result = content := by
  unfold text
  refine .step (run_get _) ?_
  unfold literalToken isLegibleText
  cases hblock : writesBlock content.toList with
  | true =>
      simp only [if_true, Bool.true_and, Bool.not_eq_true']
      cases hdecode : Block.decode (Block.encode indent content.toList) with
      | none =>
          refine .of_error ?_ rfl
          simp [(Block.decode_encode_eq_none_iff indent _).mp hdecode]
      | some result =>
          refine .of_ok ?_ rfl ?_
          · rw [← Bool.not_eq_true, ← Block.decode_encode_eq_none_iff indent, hdecode]
            simp
          · intro hplain
            rw [not_writesBlock_of_isPlain hplain] at hblock
            cases hblock
  | false =>
      obtain ⟨result, hresult⟩ := Option.isSome_iff_exists.mp
        (Quoted.decode_encode_isSome content.toList)
      simp only [hresult, Bool.false_eq_true, if_false]
      refine .of_ok (by simp) rfl ?_
      intro hplain
      rw [Quoted.decode_encode_of_isPlain (List.all_eq_true.mp hplain)] at hresult
      cases hresult
      exact String.ofList_toList

theorem ends_description (indent : Nat) (content : Option String) {tokens rest : Tokens}
    (hspells : Spells (descriptionTokens indent content) tokens rest)
    (hrest : rest.head?.any isText = false) :
    Ends (description.run tokens) rest (DescriptionFits content)
      fun result => Lasting (describing content) → result = content := by
  cases content with
  | none =>
      obtain rfl : tokens = rest := hspells
      refine .step (run_nextIs isText tokens) ?_
      rw [hrest]
      exact .of_ok (by simp [DescriptionFits]) rfl fun _ => rfl
  | some content =>
      obtain ⟨pos, tail, rfl, hlast⟩ :=
        (Spells.cons_iff (rescan?_literalToken indent content)).mp hspells
      obtain rfl : tail = rest := hlast
      have hstart : (Tokens.next pos (literalToken indent content) tail).head?.any isText =
          true := isText_literalToken indent content
      refine .step (run_nextIs isText _) ?_
      rw [hstart]
      refine ((ends_text indent content pos tail).finish ?_).congr (by simp [DescriptionFits])
      intro result hresult
      refine .of_ok trivial rfl ?_
      intro hlasting
      rw [hresult (hlasting (.string content) List.mem_cons_self).1]

/-! Types. -/

theorem nonNullFrom_other (type : TypeRef) {rest : Tokens} (h : ¬rest.At .bang) :
    typeRefFrom.nonNullFrom type rest = .ok (type, rest) := by
  unfold typeRefFrom.nonNullFrom
  split
  · exact absurd rfl h
  · rfl

/-- A type behind which one exclamation mark may stand, up to that mark. -/
def HeadRead (type : TypeRef) (tokens rest : Tokens) : Prop :=
  (type.Fits ∧ typeRefFrom tokens = typeRefFrom.nonNullFrom type rest) ∨
    (¬type.Fits ∧ ∃ error, typeRefFrom tokens = .error error)

theorem typeRef_outcomes (type : TypeRef) {tokens rest : Tokens}
    (hspells : Spells type.tokens tokens rest) :
    (type.isNonNull = false → HeadRead type tokens rest) ∧
      (¬rest.At .bang ∨ type.isNonNull = true →
        Strays (Tokens.At .bang) (typeRef.run tokens) rest type.Fits (· = type)) := by
  -- Behind a head that was read, the mark is taken or there is none.
  have hhead : ∀ {type : TypeRef} {tokens rest : Tokens}, HeadRead type tokens rest →
      ¬rest.At .bang →
      Strays (Tokens.At .bang) (typeRef.run tokens) rest type.Fits (· = type) := by
    rintro type tokens rest (⟨hfits, hrun⟩ | ⟨hfits, error, hrun⟩) hrest
    · exact .inl (.of_ok hfits (hrun.trans (nonNullFrom_other type hrest)) rfl)
    · exact .inl (.of_error hfits hrun)
  induction type generalizing tokens rest with
  | named name =>
      obtain ⟨pos, tail, rfl, hlast⟩ := Spells.name_iff.mp hspells
      obtain rfl : tail = rest := hlast
      have hread : HeadRead (.named name) (.next pos (.name name.toList) tail) tail := by
        refine .inl ⟨trivial, ?_⟩
        rw [typeRefFrom, String.ofList_toList]
      exact ⟨fun _ => hread, fun hrest =>
        hhead hread (hrest.resolve_right (by simp [TypeRef.isNonNull]))⟩
  | list item ih =>
      rw [TypeRef.tokens_list] at hspells
      obtain ⟨pos, inside, rfl, hinside⟩ := Spells.mark_iff.mp hspells
      obtain ⟨behind, hitem, hbehind⟩ := Spells.append_iff.mp hinside
      obtain ⟨place, tail, rfl, hlast⟩ := Spells.mark_iff.mp hbehind
      obtain rfl : tail = rest := hlast
      have hread : HeadRead (.list item) (.next pos (.mark .openBracket) inside) tail := by
        obtain (⟨hfits, found, hrun, rfl⟩ | ⟨hfits, error, hrun⟩) |
          ⟨hfits, found, strayed, hrun, hat⟩ :=
          (ih hitem).2 (.inl (by simp [Tokens.At, Tokens.head?]))
        · refine .inl ⟨hfits, ?_⟩
          rw [typeRefFrom, show typeRefFrom inside = _ from hrun]
          rfl
        · refine .inr ⟨hfits, error, ?_⟩
          rw [typeRefFrom, show typeRefFrom inside = _ from hrun]
          rfl
        · cases strayed with
          | done last => cases hat
          | broken last => cases hat
          | next last token tail =>
              obtain rfl : token = .mark .bang := Option.some.inj hat
              refine .inr ⟨hfits, .unexpected last, ?_⟩
              rw [typeRefFrom, show typeRefFrom inside = _ from hrun]
              rfl
      exact ⟨fun _ => hread, fun hrest =>
        hhead hread (hrest.resolve_right (by simp [TypeRef.isNonNull]))⟩
  | nonNull type ih =>
      refine ⟨fun h => absurd h (by simp [TypeRef.isNonNull]), fun _ => ?_⟩
      rw [TypeRef.tokens_nonNull] at hspells
      obtain ⟨behind, htype, hbehind⟩ := Spells.append_iff.mp hspells
      obtain ⟨place, tail, rfl, hlast⟩ := Spells.mark_iff.mp hbehind
      obtain rfl : tail = rest := hlast
      cases hnonNull : type.isNonNull with
      | false =>
          have hfits : (TypeRef.nonNull type).Fits ↔ type.Fits := by
            simp [TypeRef.Fits, hnonNull]
          obtain ⟨htype, hrun⟩ | ⟨htype, error, hrun⟩ := (ih htype).1 hnonNull
          · exact .inl (.of_ok (hfits.mpr htype) hrun rfl)
          · exact .inl (.of_error (fun h => htype (hfits.mp h)) hrun)
      | true =>
          have hfits : ¬(TypeRef.nonNull type).Fits := by
            simp [TypeRef.Fits, hnonNull]
          obtain (⟨_, found, hrun, _⟩ | ⟨_, error, hrun⟩) | ⟨_, found, strayed, hrun, hat⟩ :=
            (ih htype).2 (.inr hnonNull)
          · exact .inr ⟨hfits, found, _, hrun, rfl⟩
          · exact .inl (.of_error hfits hrun)
          · exact .inr ⟨hfits, found, strayed, hrun, hat⟩

theorem strays_typeRef {type : TypeRef} {tokens rest : Tokens}
    (hspells : Spells type.tokens tokens rest) (hrest : ¬rest.At .bang) :
    Strays (Tokens.At .bang) (typeRef.run tokens) rest type.Fits (· = type) :=
  (typeRef_outcomes type hspells).2 (.inl hrest)

/-! Values. -/

theorem ends_take_ofToken? {token : Token} (pos : Pos) (rest : Tokens) :
    Ends ((take Value.ofToken?).run (.next pos token rest)) rest
      ((Value.ofToken? token).isSome = true) fun result =>
        Value.ofToken? token = some result := by
  cases hvalue : Value.ofToken? token with
  | none =>
      refine .of_error (by simp) (run_take_none ?_)
      intro found hfound
      cases hfound
      exact hvalue
  | some value => exact .of_ok rfl (run_take_some hvalue pos rest) rfl

theorem run_valueWithin_plain {sort : ValueSort} {token : Token}
    (hmark : token.isMark = false) (htext : isText token = false) (pos : Pos) (tail : Tokens)
    (place : Pos) (first : Token) (bound : Tokens) :
    (valueWithin sort (.next place first bound)).run (.next pos token tail) =
      (take Value.ofToken?).run (.next pos token tail) := by
  rw [valueWithin, run_bind_ok (run_peek _)]
  cases token with
  | mark sign => cases hmark
  | quoted inside => cases htext
  | block inside => cases htext
  | _ => rfl

theorem run_valueWithin_text {sort : ValueSort} {token : Token} (htext : isText token = true)
    (pos : Pos) (tail : Tokens) (place : Pos) (first : Token) (bound : Tokens) :
    (valueWithin sort (.next place first bound)).run (.next pos token tail) =
      (do return .string (← text) : Reader Value).run (.next pos token tail) := by
  rw [valueWithin, run_bind_ok (run_peek _)]
  cases token with
  | quoted inside => rfl
  | block inside => rfl
  | _ => cases htext

theorem fits_leaf_iff {sort : ValueSort} {value : Value} (h : value.within = [value]) :
    value.Fits sort ↔ value.isLegible = true ∧ value.Regular sort := by
  simp [Value.Fits, h]

/-- What the text of a double is taken for is a number or a name. -/
theorem rescan?_float_cases {text : List Char} {found : Token}
    (h : (Token.float text).rescan? = some found) :
    found.isMark = false ∧ isText found = false := by
  rw [Token.rescan?] at h
  split at h
  · cases h
    exact ⟨rfl, rfl⟩
  · unfold numberToken? at h
    split at h
    · cases h
      exact ⟨rfl, rfl⟩
    · split at h <;> cases h
      exact ⟨rfl, rfl⟩

theorem ofToken?_rescan?_float {value : Binary64} {found : Token}
    (h : (Token.float value.toText).rescan? = some found) :
    value.isLegible = true ↔ (Value.ofToken? found).isSome = true := by
  rw [Token.rescan?] at h
  rw [Binary64.isLegible_eq, Binary64.isValueText]
  split at h
  · rename_i hname
    cases h
    simp [hname, Value.ofToken?]
  · rename_i hname
    simp [hname, h]

/-- Reads the value wherever the bound has as many tokens as it. -/
def ReadsValue (indent : Nat) (sort : ValueSort) (value : Value) : Prop :=
  ∀ bound tokens rest, (value.tokens indent).length ≤ bound.length →
    Spells (value.tokens indent) tokens rest →
    Ends ((valueWithin sort bound).run tokens) rest (value.Fits sort)
      (Returns Value.within id value)

/-- A value that is one token. -/
theorem readsValue_token {indent : Nat} {sort : ValueSort} {value : Value} {token : Token}
    (htokens : value.tokens indent = [token])
    (hplain : ∀ found, token.rescan? = some found →
      found.isMark = false ∧ isText found = false ∧
        (value.Fits sort ↔ (Value.ofToken? found).isSome = true) ∧
        ∀ result, Value.ofToken? found = some result → Returns Value.within id value result) :
    ReadsValue indent sort value := by
  intro bound tokens rest hbound hspells
  rw [htokens] at hbound hspells
  obtain ⟨pos, found, tail, rfl, hfound, hlast⟩ := hspells
  obtain rfl : tail = rest := hlast
  obtain ⟨hmark, htext, hfits, hreturns⟩ := hplain found hfound
  cases bound with
  | done place => cases hbound
  | broken place => cases hbound
  | next place first bound =>
      rw [run_valueWithin_plain hmark htext]
      exact ((ends_take_ofToken? pos tail).congr hfits).imp hreturns

theorem readsValue_name {indent : Nat} {sort : ValueSort} {value : Value} {text : List Char}
    (htokens : value.tokens indent = [.name text]) (hfits : value.Fits sort)
    (hmeans : Lasting value.within → Value.ofName (String.ofList text) = value) :
    ReadsValue indent sort value := by
  refine readsValue_token htokens ?_
  intro found hfound
  cases hfound
  refine ⟨rfl, rfl, iff_of_true hfits rfl, ?_⟩
  intro result hresult hlasting
  cases hresult
  exact hmeans hlasting

theorem readsValue_variable (indent : Nat) (sort : ValueSort) (name : String) :
    ReadsValue indent sort (.variable name) := by
  intro bound tokens rest hbound hspells
  obtain ⟨pos, tail, rfl, htail⟩ := Spells.mark_iff.mp hspells
  obtain ⟨place, last, rfl, hlast⟩ := Spells.name_iff.mp htail
  obtain rfl : last = rest := hlast
  have hfits : (Value.variable name).Fits sort ↔ sort = .open := by
    rw [fits_leaf_iff rfl]
    simp [Value.isLegible, Value.Regular]
  cases bound with
  | done place => cases hbound
  | broken place => cases hbound
  | next start first bound =>
      rw [valueWithin]
      refine .step (run_peek _) ?_
      cases sort with
      | constant => exact .of_error (by simp [hfits]) rfl
      | «open» =>
          refine .step (run_mark .dollar pos _) (.step (run_name _ place last) ?_)
          refine .of_ok (hfits.mpr rfl) rfl fun _ => ?_
          rw [String.ofList_toList]

theorem readsValue_string (indent : Nat) (sort : ValueSort) (content : String) :
    ReadsValue indent sort (.string content) := by
  intro bound tokens rest hbound hspells
  obtain ⟨pos, tail, rfl, hlast⟩ :=
    (Spells.cons_iff (rescan?_literalToken indent content)).mp hspells
  obtain rfl : tail = rest := hlast
  have hfits : (Value.string content).Fits sort ↔ isLegibleText content = true := by
    rw [fits_leaf_iff rfl]
    simp [Value.isLegible, Value.Regular]
  cases bound with
  | done place => cases hbound
  | broken place => cases hbound
  | next start first bound =>
      rw [run_valueWithin_text (isText_literalToken indent content)]
      refine ((ends_text indent content pos tail).finish ?_).congr hfits
      intro found hfound
      refine .of_ok trivial rfl ?_
      intro hlasting
      rw [hfound (hlasting (.string content) List.mem_cons_self).1]

/-- Where a repetition of constant values ends in front of a variable. -/
def AtVariable (sort : ValueSort) (tokens : Tokens) : Prop :=
  sort = .constant ∧ tokens.At .dollar

theorem startsValue_of_isMark {sort : ValueSort} {token : Token}
    (h : token.isMark = false) : startsValue sort token = true := by
  cases token with
  | mark sign => cases h
  | _ => rfl

theorem isMark_rescan? {token found : Token} (h : token.rescan? = some found) :
    found.isMark = token.isMark := by
  cases token with
  | float text => exact (rescan?_float_cases h).1
  | _ => cases h; rfl

/-- The first token of a value that is no variable can start any value. -/
theorem exists_tokens (indent : Nat) (value : Value) :
    ∃ first more, value.tokens indent = first :: more ∧
      (first.isMark = false ∨ first = .mark .openBracket ∨ first = .mark .openBrace ∨
        (first = .mark .dollar ∧ ∃ name, value = .variable name)) := by
  match value with
  | .variable name => exact ⟨_, _, rfl, .inr (.inr (.inr ⟨rfl, name, rfl⟩))⟩
  | .int _ | .float _ | .boolean true | .boolean false | .null | .enum _ =>
      exact ⟨_, _, rfl, .inl rfl⟩
  | .string text =>
      refine ⟨_, _, rfl, .inl ?_⟩
      split <;> rfl
  | .list items => exact ⟨_, _, Value.tokens_list indent items, .inr (.inl rfl)⟩
  | .object members => exact ⟨_, _, Value.tokens_object indent members, .inr (.inr (.inl rfl))⟩

theorem tokens_ne_nil (indent : Nat) (value : Value) : value.tokens indent ≠ [] := by
  obtain ⟨first, more, htokens, _⟩ := exists_tokens indent value
  rw [htokens]
  exact List.cons_ne_nil first more

theorem startsValue_or_atVariable (indent : Nat) (sort : ValueSort) (value : Value)
    {tokens rest : Tokens} (hspells : Spells (value.tokens indent) tokens rest) :
    tokens.head?.any (startsValue sort) = true ∨
      (AtVariable sort tokens ∧ ¬value.Fits sort) := by
  obtain ⟨first, more, htokens, hfirst⟩ := exists_tokens indent value
  rw [htokens] at hspells
  obtain ⟨pos, found, tail, rfl, hfound, _⟩ := hspells
  rcases hfirst with hmark | rfl | rfl | ⟨rfl, name, rfl⟩
  · exact .inl (startsValue_of_isMark ((isMark_rescan? hfound).trans hmark))
  · cases hfound
    exact .inl rfl
  · cases hfound
    exact .inl rfl
  · cases hfound
    cases sort with
    | constant =>
        refine .inr ⟨⟨rfl, rfl⟩, ?_⟩
        rw [fits_leaf_iff rfl]
        simp [Value.Regular]
    | «open» => exact .inl rfl

theorem length_tokens_le_flatMap {ι : Type} (written : ι → List Token) {items : List ι}
    {item : ι} (h : item ∈ items) :
    (written item).length ≤ (items.flatMap written).length :=
  (List.sublist_flatten_of_mem (List.mem_map_of_mem h)).length_le

theorem readsValue_list {indent : Nat} {sort : ValueSort} {items : List Value}
    (hitems : ∀ item ∈ items, ReadsValue indent sort item) :
    ReadsValue indent sort (.list items) := by
  intro bound tokens rest hbound hspells
  rw [Value.tokens_list] at hbound hspells
  obtain ⟨pos, inside, rfl, hinside⟩ := Spells.mark_iff.mp hspells
  obtain ⟨behind, hbody, hbehind⟩ := Spells.append_iff.mp hinside
  obtain ⟨place, tail, rfl, hlast⟩ := Spells.mark_iff.mp hbehind
  obtain rfl : tail = rest := hlast
  cases bound with
  | done place => cases hbound
  | broken place => cases hbound
  | next start first bound =>
      have hmany : Strays (AtVariable sort)
          ((many (startsValue sort) (valueWithin sort bound)).run inside)
          (.next place (.mark .closeBracket) tail) (∀ item ∈ items, item.Fits sort)
          (List.Forall₂ (Returns Value.within id) items) := by
        refine (strays_many (fun _ => True) ?_ ?_ ?_ trivial rfl hbody).2
        · rintro tokens ⟨rfl, hat⟩
          rw [Tokens.At] at hat
          simp [hat, startsValue]
        · exact fun item _ => tokens_ne_nil indent item
        · intro item hitem tokens rest hspells _
          have hle := length_tokens_le_flatMap (Value.tokens indent) hitem
          simp only [List.length_cons, List.length_append, Tokens.length] at hbound
          have hread := hitems item hitem bound tokens rest (by omega) hspells
          obtain hstarts | hstops := startsValue_or_atVariable indent sort item hspells
          · exact ⟨trivial, .inl ⟨hstarts, hread.strays⟩⟩
          · exact ⟨trivial, .inr hstops⟩
      rw [valueWithin]
      refine .step (run_peek _) (.step (run_mark .openBracket pos inside) ?_)
      refine (hmany.finish ?_ ?_).congr Value.fits_list_iff
      · rintro found strayed ⟨_, hat⟩
        obtain ⟨error, herror⟩ : ∃ error, (mark .closeBracket).run strayed = .error error := by
          apply run_mark_error
          rw [Tokens.At] at hat
          simp [hat]
        exact ⟨error, run_bind_error herror⟩
      · intro found hfound
        refine .step (run_mark .closeBracket place tail) (.of_ok trivial rfl ?_)
        intro hlasting
        rw [Value.within, Value.withinItems_eq] at hlasting
        have hitems := Returns.map_eq hfound (List.forall_mem_cons.mp hlasting).2
        rw [List.map_id, List.map_id] at hitems
        rw [hitems]

theorem returns_member {member : String × Value} {value : Value}
    (h : Returns Value.within id member.2 value) :
    Returns (fun member => member.2.within) id member
      (String.ofList member.1.toList, value) := by
  intro hlasting
  have hvalue : value = member.2 := h hlasting
  rw [String.ofList_toList, hvalue]

theorem readsValue_object {indent : Nat} {sort : ValueSort} {members : List (String × Value)}
    (hmembers : ∀ member ∈ members, ReadsValue indent sort member.2) :
    ReadsValue indent sort (.object members) := by
  intro bound tokens rest hbound hspells
  rw [Value.tokens_object] at hbound hspells
  obtain ⟨pos, inside, rfl, hinside⟩ := Spells.mark_iff.mp hspells
  obtain ⟨behind, hbody, hbehind⟩ := Spells.append_iff.mp hinside
  obtain ⟨place, tail, rfl, hlast⟩ := Spells.mark_iff.mp hbehind
  obtain rfl : tail = rest := hlast
  cases bound with
  | done place => cases hbound
  | broken place => cases hbound
  | next start first bound =>
      have hmany : Ends ((many isName (do
            let key ← name
            mark .colon
            let value ← valueWithin sort bound
            return (key, value))).run inside)
          (.next place (.mark .closeBrace) tail) (∀ member ∈ members, member.2.Fits sort)
          (List.Forall₂ (Returns (fun member => member.2.within) id) members) := by
        refine (strays_many (fun _ => True) ?_ ?_ ?_ trivial rfl hbody).2.ends (fun _ => id)
        · exact fun _ => False.elim
        · exact fun member _ => List.cons_ne_nil _ _
        · intro member hmember tokens rest hspells _
          have hle := length_tokens_le_flatMap (memberTokens indent) hmember
          simp only [List.length_cons, List.length_append, Tokens.length, memberTokens]
            at hbound hle
          obtain ⟨pos, tail, rfl, htail⟩ := Spells.name_iff.mp hspells
          obtain ⟨place, last, rfl, hvalue⟩ := Spells.mark_iff.mp htail
          have hread := hmembers member hmember bound last rest (by omega) hvalue
          refine ⟨trivial, .inl ⟨rfl, .inl ?_⟩⟩
          refine .step (run_name _ pos _) (.step (run_mark .colon place last) ?_)
          exact hread.finish fun value hvalue => .of_ok trivial rfl (returns_member hvalue)
      rw [valueWithin]
      refine .step (run_peek _) (.step (run_mark .openBrace pos inside) ?_)
      refine (hmany.finish ?_).congr Value.fits_object_iff
      intro found hfound
      refine .step (run_mark .closeBrace place tail) (.of_ok trivial rfl ?_)
      intro hlasting
      rw [Value.within, Value.withinMembers_eq] at hlasting
      obtain ⟨⟨_, hsorted⟩, hlasting⟩ := List.forall_mem_cons.mp hlasting
      have hmembers := Returns.map_eq hfound hlasting
      rw [List.map_id, List.map_id] at hmembers
      rw [hmembers]
      exact Value.ofMembers_of_sorted hsorted

mutual

theorem readsValue (indent : Nat) (sort : ValueSort) :
    (value : Value) → ReadsValue indent sort value
  | .variable name => readsValue_variable indent sort name
  | .int value => by
      refine readsValue_token rfl ?_
      intro found hfound
      cases hfound
      rw [fits_leaf_iff rfl, Value.ofToken?, ofIntText?_intText]
      refine ⟨rfl, rfl, ?_, ?_⟩
      · cases hrange : Value.intInRange value <;>
          simp [Value.isLegible, Value.Regular, hrange]
      · intro result hresult _
        split at hresult
        · exact (Option.some.inj hresult).symm
        · cases hresult
  | .float value => by
      refine readsValue_token rfl ?_
      intro found hfound
      obtain ⟨hmark, htext⟩ := rescan?_float_cases hfound
      refine ⟨hmark, htext, ?_, ?_⟩
      · rw [fits_leaf_iff rfl, ← ofToken?_rescan?_float hfound]
        simp [Value.isLegible, Value.Regular]
      · intro result _ hlasting
        cases (hlasting (.float value) List.mem_cons_self).1
  | .string content => readsValue_string indent sort content
  | .boolean true => readsValue_name rfl ((fits_leaf_iff rfl).mpr ⟨rfl, trivial⟩) fun _ => rfl
  | .boolean false => readsValue_name rfl ((fits_leaf_iff rfl).mpr ⟨rfl, trivial⟩) fun _ => rfl
  | .null => readsValue_name rfl ((fits_leaf_iff rfl).mpr ⟨rfl, trivial⟩) fun _ => rfl
  | .enum name => by
      refine readsValue_name rfl ((fits_leaf_iff rfl).mpr ⟨rfl, trivial⟩) ?_
      intro hlasting
      rw [String.ofList_toList]
      exact (hlasting (.enum name) List.mem_cons_self).2
  | .list items => readsValue_list (readsValue_items indent sort items)
  | .object members => readsValue_object (readsValue_members indent sort members)

theorem readsValue_items (indent : Nat) (sort : ValueSort) :
    (items : List Value) → ∀ item ∈ items, ReadsValue indent sort item
  | [] => by simp
  | first :: rest =>
      List.forall_mem_cons.mpr ⟨readsValue indent sort first, readsValue_items indent sort rest⟩

theorem readsValue_members (indent : Nat) (sort : ValueSort) :
    (members : List (String × Value)) →
      ∀ member ∈ members, ReadsValue indent sort member.2
  | [] => by simp
  | (_, first) :: rest =>
      List.forall_mem_cons.mpr
        ⟨readsValue indent sort first, readsValue_members indent sort rest⟩

end

theorem ends_value {indent : Nat} {sort : ValueSort} {content : Value} {tokens rest : Tokens}
    (hspells : Spells (content.tokens indent) tokens rest) :
    Ends ((value sort).run tokens) rest (content.Fits sort)
      (Returns Value.within id content) := by
  refine .step (run_get tokens) (readsValue indent sort content tokens tokens rest ?_ hspells)
  rw [hspells.length_eq]
  omega

/-! Directives. -/

theorem ends_argument {indent : Nat} {member : String × Value} {tokens rest : Tokens}
    (hspells : Spells (memberTokens indent member) tokens rest) :
    Ends (argument.run tokens) rest (member.2.Fits .open)
      (Returns (fun member => member.2.within) id member) := by
  obtain ⟨pos, tail, rfl, htail⟩ := Spells.name_iff.mp hspells
  obtain ⟨place, last, rfl, hvalue⟩ := Spells.mark_iff.mp htail
  refine .step (run_name _ pos _) (.step (run_mark .colon place last) ?_)
  exact (ends_value hvalue).finish fun value hvalue =>
    .of_ok trivial rfl (returns_member hvalue)

theorem ends_directiveArguments {indent : Nat} {members : List (String × Value)}
    {tokens rest : Tokens}
    (hspells : Spells (bracketedIfAny .openParen .closeParen
      (members.map (memberTokens indent))) tokens rest) (hrest : ¬rest.At .openParen) :
    Ends (directiveArguments.run tokens) rest (∀ member ∈ members, member.2.Fits .open)
      (List.Forall₂ (Returns (fun member => member.2.within) id) members) := by
  refine ends_bracketedIfAny (fun _ => True) (fun _ => False)
    (Returns (fun member : String × Value => member.2.within) id) hspells hrest
    rfl (fun _ _ => trivial) (fun _ => False.elim) ?_ ?_ ?_ (fun _ _ hresults => hresults)
  · exact fun member _ => List.cons_ne_nil _ _
  · intro member _ tokens rest hspells _
    obtain ⟨pos, tail, rfl, htail⟩ := Spells.name_iff.mp hspells
    exact ⟨trivial, rfl, (ends_argument hspells).strays⟩
  · rintro rfl
    exact .nil

theorem ends_directive {indent : Nat} {content : Directive} {tokens rest : Tokens}
    (hspells : Spells (content.tokens indent) tokens rest) (hrest : ¬rest.At .openParen) :
    Ends (directive.run tokens) rest content.Fits
      (Returns Directive.values Directive.unplaced content) := by
  obtain ⟨pos, tail, rfl, htail⟩ := Spells.mark_iff.mp hspells
  obtain ⟨place, last, rfl, hlast⟩ := Spells.name_iff.mp htail
  refine .step (run_position _) (.step (run_mark .at pos _) (.step (run_name _ place last) ?_))
  refine (ends_directiveArguments hlast hrest).finish ?_
  intro arguments harguments
  refine .of_ok trivial rfl ?_
  intro hlasting
  have hsame := Returns.map_eq harguments hlasting
  rw [List.map_id, List.map_id] at hsame
  simp only [Directive.unplaced, String.ofList_toList, hsame]

/-- Neither another directive nor arguments of the last one. -/
def PastDirectives (tokens : Tokens) : Prop :=
  ¬tokens.At .at ∧ ¬tokens.At .openParen

theorem ends_directives {indent : Nat} {contents : List Directive} {tokens rest : Tokens}
    (hspells : Spells (contents.flatMap (Directive.tokens indent)) tokens rest)
    (hrest : PastDirectives rest) :
    Ends (directives.run tokens) rest (∀ content ∈ contents, content.Fits)
      (List.Forall₂ (Returns Directive.values Directive.unplaced) contents) := by
  have hlast : rest.head?.any (· == .mark .at) = false := not_any_beq hrest.1
  refine (strays_many (¬Tokens.At .openParen ·) ?_ ?_ ?_ hrest.2 hlast hspells).2.ends
    (fun _ => id)
  · exact fun _ => False.elim
  · exact fun content _ => List.cons_ne_nil _ _
  · intro content _ tokens rest hspells hrest
    have hread := ends_directive hspells hrest
    obtain ⟨pos, tail, rfl, _⟩ := Spells.mark_iff.mp hspells
    exact ⟨by simp [Tokens.At, Tokens.head?], .inl ⟨rfl, hread.strays⟩⟩

theorem startsWith_directives {firsts : List Token} (h : .mark .at ∈ firsts) (indent : Nat)
    (contents : List Directive) :
    StartsWith firsts (contents.flatMap (Directive.tokens indent)) := by
  cases contents with
  | nil => exact startsWith_nil firsts
  | cons first rest => exact startsWith_mark h _

theorem run_directives_other {tokens : Tokens} (h : ¬tokens.At .at) :
    directives.run tokens = .ok ([], tokens) := by
  rw [directives, many, run_bind_ok (run_get tokens)]
  exact run_manyWithin_stop directive (not_any_beq h) tokens

/-! Arguments and fields. -/

theorem pastDirectives_of_breaks {tokens : Tokens} (h : tokens.Breaks) :
    PastDirectives tokens :=
  ⟨h.not_at rfl, h.not_at rfl⟩

theorem run_defaultValue?_other {tokens : Tokens} (h : ¬tokens.At .equals) :
    defaultValue?.run tokens = .ok (none, tokens) := by
  rw [defaultValue?, run_bind_ok (run_skipMark_other h)]
  rfl

theorem ends_defaultValue? {indent : Nat} {content : Option Value} {tokens rest : Tokens}
    (hspells : Spells (defaultTokens indent content) tokens rest)
    (hrest : ¬rest.At .equals) :
    Ends (defaultValue?.run tokens) rest
      (∀ value, content = some value → value.Fits .constant)
      fun result => Lasting (content.toList.flatMap Value.within) → result = content := by
  cases content with
  | none =>
      obtain rfl : tokens = rest := hspells
      exact .of_ok (by simp) (run_defaultValue?_other hrest) fun _ => rfl
  | some content =>
      obtain ⟨pos, tail, rfl, hvalue⟩ := Spells.mark_iff.mp hspells
      refine .step (run_skipMark .equals pos tail) ?_
      refine ((ends_value hvalue).finish ?_).congr (by simp)
      intro value hreturns
      refine .of_ok trivial rfl ?_
      intro hlasting
      have hsame : value = content := hreturns (by simpa using hlasting)
      rw [hsame]

theorem startsWith_default {firsts : List Token} (h : .mark .equals ∈ firsts) (indent : Nat)
    (content : Option Value) : StartsWith firsts (defaultTokens indent content) := by
  cases content with
  | none => exact startsWith_nil firsts
  | some value => exact startsWith_mark h _

/-- What may have a description starts with it or with its first name. -/
theorem head?_of_described {indent : Nat} {content : Option String} {text : List Char}
    {more : List Token} {tokens rest : Tokens}
    (hspells : Spells (descriptionTokens indent content ++ (.name text :: more)) tokens rest) :
    ∃ first, tokens.head? = some first ∧ (isText first = true ∨ first = .name text) := by
  cases content with
  | none =>
      obtain ⟨pos, tail, rfl, _⟩ := Spells.name_iff.mp hspells
      exact ⟨.name text, rfl, .inr rfl⟩
  | some content =>
      obtain ⟨pos, tail, rfl, _⟩ :=
        (Spells.cons_iff (rescan?_literalToken indent content)).mp hspells
      exact ⟨literalToken indent content, rfl, .inl (isText_literalToken indent content)⟩

theorem startsMember_of_spells {indent : Nat} {content : Option String} {text : List Char}
    {more : List Token} {tokens rest : Tokens}
    (hspells : Spells (descriptionTokens indent content ++ (.name text :: more)) tokens rest) :
    tokens.Breaks ∧ tokens.head?.any startsMember = true := by
  obtain ⟨first, hhead, hfirst⟩ := head?_of_described hspells
  have hbreaks : first.breaks = true ∧ startsMember first = true := by
    obtain htext | rfl := hfirst
    · cases first with
      | quoted inside => exact ⟨rfl, rfl⟩
      | block inside => exact ⟨rfl, rfl⟩
      | _ => cases htext
    · exact ⟨rfl, rfl⟩
  constructor
  · intro token htoken
    rw [hhead] at htoken
    cases htoken
    exact hbreaks.1
  · rw [hhead]
    exact hbreaks.2

theorem not_startsMember_of_at {sign : Mark} {tokens : Tokens} (h : tokens.At sign) :
    tokens.head?.any startsMember = false := by
  rw [Tokens.At] at h
  rw [h]
  rfl

theorem strays_inputValue {indent : Nat} {content : InputValue} {tokens rest : Tokens}
    (hspells : Spells (content.tokens indent) tokens rest) (hrest : rest.Breaks) :
    Strays (Tokens.At .bang) (inputValue.run tokens) rest content.Fits
      (Returns InputValue.values InputValue.unplaced content) := by
  obtain ⟨named, hdescription, hnamed⟩ := Spells.append_iff.mp hspells
  obtain ⟨pos, colon, rfl, hcolon⟩ := Spells.name_iff.mp hnamed
  obtain ⟨place, typed, rfl, htyped⟩ := Spells.mark_iff.mp hcolon
  obtain ⟨behind, htype, hbehind⟩ := Spells.append_iff.mp htyped
  obtain ⟨last, hdefault, hdirectives⟩ := Spells.append_iff.mp hbehind
  have hstarts : StartsWith [.mark .equals, .mark .at] (defaultTokens indent content.defaultValue ++
      content.directives.flatMap (Directive.tokens indent)) :=
    (startsWith_default (by simp) indent _).append (startsWith_directives (by simp) indent _)
  have hbang : ¬behind.At .bang := hbehind.not_at hstarts (by decide) (hrest.not_at rfl)
  have hequals : ¬last.At .equals :=
    hdirectives.not_at (startsWith_directives (List.mem_singleton.mpr rfl) indent _)
      (by decide) (hrest.not_at rfl)
  refine .congr ?_ (InputValue.fits_iff content)
  refine .step (run_position _) ((ends_description indent _ hdescription rfl).bind_strays ?_)
  intro description hdescribed
  refine .step (run_name _ pos _) (.step (run_mark .colon place typed) ?_)
  refine (strays_typeRef htype hbang).carry ?_ ?_
  · intro type strayed hat
    exact ⟨_, (run_bind_ok (run_defaultValue?_other (hat.not_at (by decide)))).trans
      (run_bind_ok (run_directives_other (hat.not_at (by decide))))⟩
  · intro type htype
    refine ((ends_defaultValue? hdefault hequals).bind fun value hvalue =>
      (ends_directives hdirectives (pastDirectives_of_breaks hrest)).finish
        fun directives hreturns => .of_ok trivial rfl ?_).strays
    intro hlasting
    rw [InputValue.values, lasting_append, lasting_append] at hlasting
    simp only [InputValue.unplaced, String.ofList_toList, hdescribed hlasting.1.1, htype,
      hvalue hlasting.1.2, Returns.map_eq hreturns hlasting.2]

/-- In brackets, things that may have a description and all start with a name. -/
theorem ends_describedIfAny {α β ι : Type} {opening closing : Mark}
    (hcloses : closing.closes = true) (hbang : closing ≠ .bang) {indent : Nat}
    {item : Reader α} {written : ι → List Token} {good : ι → Prop} {contents : List ι}
    {present : List α → β} {absent : β} {each : ι → α → Prop} {post : β → Prop}
    {tokens rest : Tokens}
    (hspells : Spells (bracketedIfAny opening closing (contents.map written)) tokens rest)
    (hrest : ¬rest.At opening)
    (hwritten : ∀ content, ∃ description text more, written content =
      descriptionTokens indent description ++ (.name text :: more))
    (hitem : ∀ content ∈ contents, ∀ tokens rest, Spells (written content) tokens rest →
      rest.Breaks →
        Strays (Tokens.At .bang) (item.run tokens) rest (good content) (each content))
    (habsent : contents = [] → post absent)
    (hpresent : contents ≠ [] → ∀ results, List.Forall₂ each contents results →
      post (present results)) :
    Ends ((do
      if ← skipMark opening then
        let results ← many1 startsMember item
        mark closing
        return present results
      else return absent : Reader β).run tokens) rest (∀ content ∈ contents, good content)
      post := by
  refine ends_bracketedIfAny Tokens.Breaks (Tokens.At .bang) each hspells hrest
    rfl (Tokens.breaks_of_closes hcloses) ?_ ?_ ?_ habsent hpresent
  · exact fun tokens hat => ⟨not_startsMember_of_at hat, hat.not_at hbang.symm⟩
  · intro content _
    obtain ⟨description, text, more, htokens⟩ := hwritten content
    simp [htokens]
  · intro content hcontent tokens rest hspells hrest
    have hread := hitem content hcontent tokens rest hspells hrest
    obtain ⟨description, text, more, htokens⟩ := hwritten content
    rw [htokens] at hspells
    obtain ⟨hbreaks, hstarts⟩ := startsMember_of_spells hspells
    exact ⟨hbreaks, hstarts, hread⟩

theorem ends_arguments {indent : Nat} {contents : List InputValue} {tokens rest : Tokens}
    (hspells : Spells (bracketedIfAny .openParen .closeParen
      (contents.map (InputValue.tokens indent))) tokens rest) (hrest : ¬rest.At .openParen) :
    Ends (arguments.run tokens) rest (∀ content ∈ contents, content.Fits)
      (List.Forall₂ (Returns InputValue.values InputValue.unplaced) contents) := by
  refine ends_describedIfAny rfl (by decide) hspells hrest (fun _ => ⟨_, _, _, rfl⟩)
    (fun _ _ _ _ => strays_inputValue) ?_ (fun _ _ hresults => hresults)
  rintro rfl
  exact .nil

theorem strays_fieldDef {indent : Nat} {content : FieldDef} {tokens rest : Tokens}
    (hspells : Spells (content.tokens indent) tokens rest) (hrest : rest.Breaks) :
    Strays (Tokens.At .bang) (fieldDef.run tokens) rest content.Fits
      (Returns FieldDef.values FieldDef.unplaced content) := by
  obtain ⟨named, hdescription, hnamed⟩ := Spells.append_iff.mp hspells
  obtain ⟨pos, bracket, rfl, hbracket⟩ := Spells.name_iff.mp hnamed
  obtain ⟨colon, harguments, hcolon⟩ := Spells.append_iff.mp hbracket
  obtain ⟨place, typed, rfl, htyped⟩ := Spells.mark_iff.mp hcolon
  obtain ⟨behind, htype, hdirectives⟩ := Spells.append_iff.mp htyped
  have hbang : ¬behind.At .bang :=
    hdirectives.not_at (startsWith_directives (List.mem_singleton.mpr rfl) indent _)
      (by decide) (hrest.not_at rfl)
  refine .congr ?_ (FieldDef.fits_iff content)
  refine .step (run_position _) ((ends_description indent _ hdescription rfl).bind_strays ?_)
  intro description hdescribed
  refine .step (run_name _ pos _) ?_
  refine (ends_arguments harguments (by simp [Tokens.At, Tokens.head?])).bind_strays ?_
  intro arguments hread
  refine .step (run_mark .colon place typed) ((strays_typeRef htype hbang).carry ?_ ?_)
  · intro type strayed hat
    exact ⟨_, run_bind_ok (run_directives_other (hat.not_at (by decide)))⟩
  · intro type htype
    refine ((ends_directives hdirectives (pastDirectives_of_breaks hrest)).finish
      fun directives hreturns => .of_ok trivial rfl ?_).strays
    intro hlasting
    rw [FieldDef.values, lasting_append, lasting_append] at hlasting
    simp only [FieldDef.unplaced, String.ofList_toList, hdescribed hlasting.1.1, htype,
      Returns.map_eq hread hlasting.1.2, Returns.map_eq hreturns hlasting.2]

theorem ends_enumValue {indent : Nat} {content : EnumValue} {tokens rest : Tokens}
    (hspells : Spells (content.tokens indent) tokens rest) (hrest : rest.Breaks) :
    Ends (enumValue.run tokens) rest content.Fits
      (Returns EnumValue.values EnumValue.unplaced content) := by
  obtain ⟨named, hdescription, hnamed⟩ := Spells.append_iff.mp hspells
  obtain ⟨pos, behind, rfl, hdirectives⟩ := Spells.name_iff.mp hnamed
  refine .congr ?_ (EnumValue.fits_iff content)
  refine .step (run_position _) ((ends_description indent _ hdescription rfl).bind ?_)
  intro description hdescribed
  refine .step (run_name _ pos _) ?_
  refine (ends_directives hdirectives (pastDirectives_of_breaks hrest)).finish
    fun directives hreturns => .of_ok trivial rfl ?_
  intro hlasting
  rw [EnumValue.values, lasting_append] at hlasting
  simp only [EnumValue.unplaced, String.ofList_toList, hdescribed hlasting.1,
    Returns.map_eq hreturns hlasting.2]

theorem ends_members? {α ι : Type} {member : Reader α} {written : ι → List Token}
    {good : ι → Prop} {each : ι → α → Prop} {contents : List ι} {tokens rest : Tokens}
    (hspells : Spells (bracketedIfAny .openBrace .closeBrace (contents.map written)) tokens rest)
    (hrest : ¬rest.At .openBrace)
    (hwritten : ∀ content, ∃ description text more, written content =
      descriptionTokens memberIndent description ++ (.name text :: more))
    (hmember : ∀ content ∈ contents, ∀ tokens rest, Spells (written content) tokens rest →
      rest.Breaks →
        Strays (Tokens.At .bang) (member.run tokens) rest (good content) (each content)) :
    Ends ((members? member).run tokens) rest (∀ content ∈ contents, good content)
      fun results => results.isSome = !contents.isEmpty ∧
        List.Forall₂ each contents (results.getD []) := by
  refine ends_describedIfAny rfl (by decide) hspells hrest hwritten hmember ?_ ?_
  · rintro rfl
    exact ⟨rfl, .nil⟩
  · intro hcontents results hresults
    cases contents with
    | nil => exact absurd rfl hcontents
    | cons first others => exact ⟨rfl, hresults⟩

end Reader

end SchemaLoom
