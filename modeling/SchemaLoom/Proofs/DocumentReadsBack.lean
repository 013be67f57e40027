import SchemaLoom.Document.Kind
import SchemaLoom.Proofs.ReadsBack
import SchemaLoom.Proofs.WrittenScan

namespace SchemaLoom

open Layout

/-! What has to survive of a document that is written and read. -/

def Definition.signature (definition : Definition) : Kind × Option String :=
  (definition.kind, definition.name?)

def Document.signature (document : Document) : List (Kind × Option String) :=
  document.definitions.map Definition.signature

/-- The same kind and name, and the same definition but for positions if the values
in it last. -/
structure Definition.ReadsAs (content result : Definition) : Prop where
  signature : result.signature = content.signature
  returns : Returns Definition.values Definition.unplaced content result

/-! Whole definitions, one behind the other.  What a definition leaves out at its
end is told from the word with which the next one starts. -/

def definitionWords : List String :=
  "schema" :: "extend" :: "directive" :: typeKeywords

def Token.startsDefinition : Token → Bool
  | .name text => definitionWords.contains (String.ofList text)
  | .quoted _ | .block _ => true
  | _ => false

/-- The next token, if there is one, starts a definition. -/
def Tokens.Parted (tokens : Tokens) : Prop :=
  ∀ token, tokens.head? = some token → token.startsDefinition = true

namespace Tokens

variable {tokens : Tokens}

theorem Parted.breaks (h : tokens.Parted) : tokens.Breaks := by
  intro token htoken
  have hstarts := h token htoken
  cases token with
  | mark sign => cases hstarts
  | int text => cases hstarts
  | float text => cases hstarts
  | _ => rfl

theorem Parted.ne_word (h : tokens.Parted) {text : String}
    (htext : definitionWords.contains text = false) :
    tokens.head? ≠ some (.name text.toList) := by
  intro hhead
  have hstarts := h _ hhead
  rw [Token.startsDefinition, String.ofList_toList, htext] at hstarts
  cases hstarts

end Tokens

theorem startsWith_bracketedIfAny {opening closing : Mark} {firsts : List Token}
    (h : .mark opening ∈ firsts) (items : List (List Token)) :
    StartsWith firsts (bracketedIfAny opening closing items) := by
  unfold bracketedIfAny
  split
  · exact startsWith_nil firsts
  · exact startsWith_mark h _

theorem TypeBody.startsWith_memberTokens {firsts : List Token}
    (hequals : .mark .equals ∈ firsts) (hbrace : .mark .openBrace ∈ firsts) (body : TypeBody) :
    StartsWith firsts body.memberTokens := by
  cases body with
  | scalar => exact startsWith_nil firsts
  | union members =>
      cases members with
      | nil => exact startsWith_nil firsts
      | cons first members => exact startsWith_mark hequals _
  | composite sort interfaces fields => exact startsWith_bracketedIfAny hbrace _
  | enum values => exact startsWith_bracketedIfAny hbrace _
  | input fields => exact startsWith_bracketedIfAny hbrace _

theorem Definition.tokens_cases (content : Definition) :
    ∃ description text more, content.tokens =
        descriptionTokens 0 description ++ (.name text.toList :: more) ∧
      definitionWords.contains text = true := by
  cases content with
  | schema decl => exact ⟨none, "schema", _, rfl, rfl⟩
  | directive decl => exact ⟨decl.description, "directive", _, rfl, rfl⟩
  | type decl =>
      obtain ⟨form, pos, name, directives, body⟩ := decl
      cases form with
      | definition description =>
          refine ⟨description, body.keyword, _, rfl, ?_⟩
          simp [definitionWords, body.keyword_mem]
      | extension => exact ⟨none, "extend", _, rfl, rfl⟩

namespace Reader

/-! Lists of names. -/

section

variable {tokens rest : Tokens}

/-- Items with a mark between them, each spelled by a name, are read if each of them
is. -/
theorem run_separated {α : Type} {sign : Mark} {item : Reader α} {spelling : α → String}
    {items : List α} (hnonempty : items ≠ [])
    (hitem : ∀ content pos rest,
      item.run (.next pos (.name (spelling content).toList) rest) = .ok (content, rest))
    (hspells : Spells (separatedTokens sign (items.map spelling)) tokens rest)
    (hrest : ¬rest.At sign) :
    (separated sign item).run tokens = .ok (items, rest) := by
  cases items with
  | nil => exact absurd rfl hnonempty
  | cons first items =>
      obtain ⟨pos, tail, rfl, htail⟩ := Spells.name_iff.mp hspells
      rw [List.flatMap_map] at htail
      have hmany : Ends ((many (· == .mark sign) (do mark sign; item)).run tail) rest
          (∀ content ∈ items, True) (List.Forall₂ Eq items) := by
        refine (strays_many (fun _ => True) ?_ ?_ ?_ trivial ?_ htail).2.ends (fun _ => id)
        · exact fun _ => False.elim
        · exact fun content _ => List.cons_ne_nil _ _
        · intro content _ tokens rest hspells _
          obtain ⟨place, behind, rfl, hbehind⟩ := Spells.mark_iff.mp hspells
          obtain ⟨last, behind, rfl, hlast⟩ := Spells.name_iff.mp hbehind
          obtain rfl : behind = rest := hlast
          refine ⟨trivial, .inl ⟨by simp [Tokens.head?], .inl ?_⟩⟩
          exact .step (run_mark sign place _) (.of_ok trivial (hitem content last behind) rfl)
        · exact not_any_beq hrest
      obtain ⟨_, results, hresults, hsame⟩ | ⟨hgood, _⟩ := hmany
      · obtain rfl : items = results := List.forall₂_eq_eq_eq ▸ hsame
        have hskip : (skipMark sign).run (.next pos (.name (spelling first).toList) tail) =
            .ok (false, .next pos (.name (spelling first).toList) tail) :=
          run_skipMark_other (by simp [Tokens.head?])
        rw [separated, run_bind_ok hskip, run_bind_ok (hitem first pos tail),
          run_bind_ok hresults]
        rfl
      · exact absurd (fun _ _ => trivial) hgood

theorem run_names {sign : Mark} {names : List String} (hnonempty : names ≠ [])
    (hspells : Spells (separatedTokens sign names) tokens rest) (hrest : ¬rest.At sign) :
    (separated sign name).run tokens = .ok (names, rest) := by
  have hname : ∀ (content : String) (pos : Pos) (rest : Tokens),
      name.run (.next pos (.name (id content).toList) rest) = .ok (content, rest) := by
    intro content pos rest
    rw [id, run_name, String.ofList_toList]
  exact run_separated hnonempty hname (by rwa [List.map_id]) hrest

theorem run_interfaces {names : List String}
    (hspells : Spells (if names.isEmpty then []
      else .name "implements".toList :: separatedTokens .ampersand names) tokens rest)
    (hword : rest.head? ≠ some (.name "implements".toList)) (hrest : ¬rest.At .ampersand) :
    interfaces.run tokens = .ok (names, rest) := by
  cases names with
  | nil =>
      obtain rfl : tokens = rest := hspells
      rw [interfaces, run_bind_ok (run_skipWord_other hword)]
      rfl
  | cons first names =>
      obtain ⟨pos, tail, rfl, htail⟩ := Spells.name_iff.mp hspells
      rw [interfaces, run_bind_ok (run_skipWord "implements" pos tail)]
      exact run_names (List.cons_ne_nil first names) htail hrest

theorem run_unionMembers? {names : List String}
    (hspells : Spells (if names.isEmpty then []
      else .mark .equals :: separatedTokens .pipe names) tokens rest)
    (hequals : ¬rest.At .equals) (hrest : ¬rest.At .pipe) :
    unionMembers?.run tokens =
      .ok (if names.isEmpty then none else some names, rest) := by
  cases names with
  | nil =>
      obtain rfl : tokens = rest := hspells
      rw [unionMembers?, run_bind_ok (run_skipMark_other hequals)]
      rfl
  | cons first names =>
      obtain ⟨pos, tail, rfl, htail⟩ := Spells.mark_iff.mp hspells
      rw [unionMembers?, run_bind_ok (run_skipMark .equals pos tail)]
      exact run_bind_ok (run_names (List.cons_ne_nil first names) htail hrest)

theorem run_location (place : Location) (pos : Pos) (rest : Tokens) :
    location.run (.next pos (.name place.text.toList) rest) = .ok (place, rest) := by
  have hplace : Location.ofText? place.text = some place := by
    cases place <;> decide
  unfold location
  apply run_take_some
  rw [← hplace]
  simp only [String.ofList_toList]

theorem run_locations {places : List Location} (hnonempty : places ≠ [])
    (hspells : Spells (separatedTokens .pipe (places.map Location.text)) tokens rest)
    (hrest : ¬rest.At .pipe) :
    locations.run tokens = .ok (places, rest) := by
  have hread := run_separated hnonempty run_location hspells hrest
  cases places with
  | nil => exact absurd rfl hnonempty
  | cons first places =>
      obtain ⟨pos, tail, rfl, _⟩ := Spells.name_iff.mp hspells
      rw [locations, run_bind_ok (run_nextIs _ _)]
      exact hread

/-! Types. -/

def restReader : TypeBody → Reader TypeRest
  | .scalar => scalarRest
  | .composite sort _ _ => compositeRest sort
  | .union _ => unionRest
  | .enum _ => enumRest
  | .input _ => inputRest

theorem typeRest?_keyword (body : TypeBody) :
    typeRest? body.keyword = some (restReader body) := by
  cases body with
  | composite sort interfaces fields => cases sort <;> rfl
  | _ => rfl

/-- What the rest of a type has to say for the type to be of the same kind and
name, and an extension for the same reason; and for it to be the same type, if the
values in it last. -/
structure SameRest (decl : TypeDecl) (rest : TypeRest) : Prop where
  name : rest.name = decl.name
  shape : rest.body.shape = decl.body.shape
  adds : rest.adds = decl.adds
  directives : List.Forall₂ (Returns Directive.values Directive.unplaced)
    decl.directives rest.directives
  body : Returns TypeBody.values TypeBody.unplaced decl.body rest.body

theorem sameRest {decl : TypeDecl} {directives : List Directive} {body : TypeBody}
    {adds : Bool} (hshape : body.shape = decl.body.shape) (hadds : adds = decl.adds)
    (hdirectives : List.Forall₂ (Returns Directive.values Directive.unplaced)
      decl.directives directives)
    (hbody : Returns TypeBody.values TypeBody.unplaced decl.body body) :
    SameRest decl ⟨String.ofList decl.name.toList, directives, body, adds⟩ :=
  ⟨String.ofList_toList, hshape, hadds, hdirectives, hbody⟩

/-- The type that is made of such a rest. -/
theorem SameRest.unplaced_eq {decl : TypeDecl} {rest : TypeRest} (h : SameRest decl rest)
    (form : TypeForm) (pos : Pos)
    (hlasting : Lasting (decl.directives.flatMap Directive.values ++ decl.body.values)) :
    TypeDecl.unplaced ⟨form, pos, rest.name, rest.directives, rest.body⟩ =
      TypeDecl.unplaced { decl with form } := by
  rw [lasting_append] at hlasting
  simp only [TypeDecl.unplaced, h.name, Returns.map_eq h.directives hlasting.1,
    h.body hlasting.2]

theorem ends_restReader {decl : TypeDecl}
    (hspells : Spells (.name decl.name.toList :: (decl.body.interfaceTokens ++
      (decl.directives.flatMap (Directive.tokens 0) ++ decl.body.memberTokens))) tokens rest)
    (hrest : rest.Parted) :
    Ends ((restReader decl.body).run tokens) rest
      ((∀ directive ∈ decl.directives, directive.Fits) ∧ decl.body.Fits) (SameRest decl) := by
  obtain ⟨pos, behind, rfl, hbehind⟩ := Spells.name_iff.mp hspells
  obtain ⟨middle, hinterfaces, hmiddle⟩ := Spells.append_iff.mp hbehind
  obtain ⟨last, hdirectives, hmembers⟩ := Spells.append_iff.mp hmiddle
  have hnot : ∀ {sign : Mark}, sign.closes = false → ¬rest.At sign :=
    fun hsign => hrest.breaks.not_at hsign
  have hstarts : StartsWith [.mark .equals, .mark .openBrace] decl.body.memberTokens :=
    decl.body.startsWith_memberTokens (by simp) (by simp)
  have hread := ends_directives hdirectives
    ⟨hmembers.not_at hstarts (by decide) (hnot rfl),
      hmembers.not_at hstarts (by decide) (hnot rfl)⟩
  -- What the body adds is told by which of its parts are there, not by what is in them.
  obtain ⟨form, start, name, directives, body⟩ := decl
  cases body with
  | scalar =>
      obtain rfl : behind = middle := hinterfaces
      obtain rfl : last = rest := hmembers
      refine .step (run_name _ pos _) ((hread.finish ?_).congr (and_iff_left trivial))
      intro results hresults
      refine .of_ok trivial rfl (sameRest rfl ?_ hresults fun _ => rfl)
      simp [TypeDecl.adds, TypeBody.adds, isEmpty_eq_of_forall₂ hresults]
  | composite sort interfaces fields =>
      have hafter : StartsWith [.mark .at, .mark .equals, .mark .openBrace]
          (directives.flatMap (Directive.tokens 0) ++
            (TypeBody.composite sort interfaces fields).memberTokens) :=
        (startsWith_directives (by simp) 0 directives).append
          (TypeBody.startsWith_memberTokens (by simp) (by simp) _)
      have hnames := run_interfaces hinterfaces
        (hmiddle.head?_ne hafter (by simp) (hrest.ne_word (by decide)))
        (hmiddle.not_at hafter (by decide) (hnot rfl))
      refine .step (run_name _ pos _) (.step hnames (hread.bind ?_))
      intro results hresults
      refine (ends_members? hmembers (hnot rfl) (fun _ => ⟨_, _, _, rfl⟩)
        (fun _ _ _ _ => strays_fieldDef)).finish ?_
      intro found hfound
      refine .of_ok trivial rfl (sameRest ?_ ?_ hresults ?_)
      · cases sort <;> rfl
      · rw [isEmpty_eq_of_forall₂ hresults, hfound.1]
        cases sort with
        | object =>
            simp only [TypeDecl.adds, TypeBody.adds, beq_self_eq_true, Bool.true_and]
            ac_rfl
        | interface => rfl
      · intro hlasting
        rw [TypeBody.unplaced, Returns.map_eq hfound.2 hlasting]
        rfl
  | union members =>
      obtain rfl : behind = middle := hinterfaces
      have hnames := run_unionMembers? hmembers (hnot rfl) (hnot rfl)
      refine .step (run_name _ pos _) ((hread.finish ?_).congr (and_iff_left trivial))
      intro results hresults
      refine .step hnames (.of_ok trivial rfl (sameRest rfl ?_ hresults ?_))
      · cases members <;> simp [TypeDecl.adds, TypeBody.adds, isEmpty_eq_of_forall₂ hresults]
      · intro _
        cases members <;> rfl
  | enum values =>
      obtain rfl : behind = middle := hinterfaces
      refine .step (run_name _ pos _) (hread.bind ?_)
      intro results hresults
      refine (ends_members? hmembers (hnot rfl) (fun _ => ⟨_, _, _, rfl⟩)
        (fun _ _ _ _ hspells hrest => (ends_enumValue hspells hrest).strays)).finish ?_
      intro found hfound
      refine .of_ok trivial rfl (sameRest rfl ?_ hresults ?_)
      · simp [TypeDecl.adds, TypeBody.adds, isEmpty_eq_of_forall₂ hresults, hfound.1]
      · intro hlasting
        rw [TypeBody.unplaced, Returns.map_eq hfound.2 hlasting]
        rfl
  | input fields =>
      obtain rfl : behind = middle := hinterfaces
      refine .step (run_name _ pos _) (hread.bind ?_)
      intro results hresults
      refine (ends_members? hmembers (hnot rfl) (fun _ => ⟨_, _, _, rfl⟩)
        (fun _ _ _ _ => strays_inputValue)).finish ?_
      intro found hfound
      refine .of_ok trivial rfl (sameRest rfl ?_ hresults ?_)
      · simp [TypeDecl.adds, TypeBody.adds, isEmpty_eq_of_forall₂ hresults, hfound.1]
      · intro hlasting
        rw [TypeBody.unplaced, Returns.map_eq hfound.2 hlasting]
        rfl

theorem run_nextTypeRest? (body : TypeBody) (pos : Pos) (rest : Tokens) :
    nextTypeRest?.run (.next pos (.name body.keyword.toList) rest) =
      .ok (some (restReader body), .next pos (.name body.keyword.toList) rest) := by
  have hkeyword := typeRest?_keyword body
  rw [← String.ofList_toList (s := body.keyword)] at hkeyword
  rw [nextTypeRest?, run_bind_ok (run_peek _), ← hkeyword]
  rfl

theorem ends_typeDefinition (decl : TypeDecl) {pos : Pos} (description : Option String)
    (hspells : Spells (.name decl.name.toList :: (decl.body.interfaceTokens ++
      (decl.directives.flatMap (Directive.tokens 0) ++ decl.body.memberTokens))) tokens rest)
    (hrest : rest.Parted) :
    Ends ((typeDefinition description).run (.next pos (.name decl.body.keyword.toList) tokens))
      rest ((∀ directive ∈ decl.directives, directive.Fits) ∧ decl.body.Fits)
      fun result => result.signature = (.type decl.body.shape false, some decl.name) ∧
        (Lasting (decl.directives.flatMap Directive.values ++ decl.body.values) →
          result.unplaced =
            Definition.unplaced (.type { decl with form := .definition description })) := by
  refine .step (run_position _) (.step (run_nextTypeRest? decl.body pos tokens) ?_)
  refine .step (run_name _ pos tokens) ((ends_restReader hspells hrest).finish ?_)
  intro result hresult
  refine .of_ok trivial rfl ⟨?_, ?_⟩
  · rw [← hresult.name, ← hresult.shape]
    rfl
  · intro hlasting
    exact congrArg Definition.type (hresult.unplaced_eq _ pos hlasting)

theorem ends_typeExtension (decl : TypeDecl) {pos place : Pos}
    (hspells : Spells (.name decl.name.toList :: (decl.body.interfaceTokens ++
      (decl.directives.flatMap (Directive.tokens 0) ++ decl.body.memberTokens))) tokens rest)
    (hrest : rest.Parted) :
    Ends (typeExtension.run (.next pos (.name "extend".toList)
        (.next place (.name decl.body.keyword.toList) tokens)))
      rest (((∀ directive ∈ decl.directives, directive.Fits) ∧ decl.body.Fits) ∧
        decl.adds = true)
      fun result => result.signature = (.type decl.body.shape true, some decl.name) ∧
        (Lasting (decl.directives.flatMap Directive.values ++ decl.body.values) →
          result.unplaced = Definition.unplaced (.type { decl with form := .extension })) := by
  refine .step (run_word "extend" pos _) (.step (run_position _) ?_)
  refine .step (run_nextTypeRest? decl.body place tokens) (.step (run_name _ place tokens) ?_)
  refine (ends_restReader hspells hrest).bind ?_
  intro ⟨name, directives, body, adds⟩ hresult
  rw [← hresult.adds]
  cases adds with
  | true =>
      let found : Definition := .type ⟨.extension, place, name, directives, body⟩
      refine .inl ⟨rfl, found, rfl, ?_, ?_⟩
      · rw [← hresult.name, ← hresult.shape]
        rfl
      · intro hlasting
        exact congrArg Definition.type (hresult.unplaced_eq .extension place hlasting)
  | false => exact .of_error (by simp) rfl

/-! The schema and directives. -/

theorem foldlM_setOperation? (pos : Pos) (directives : List Directive) (decl : SchemaDef) :
    decl.operations.foldlM SchemaDef.setOperation?
        { pos, directives, query := none, mutation := none, subscription := none } =
      some { decl with pos, directives } := by
  obtain ⟨_, _, query, mutation, subscription⟩ := decl
  cases query <;> cases mutation <;> cases subscription <;> rfl

theorem ends_schemaDefinition {decl : SchemaDef} (hspells : Spells decl.tokens tokens rest) :
    Ends (schemaDefinition.run tokens) rest (∀ directive ∈ decl.directives, directive.Fits)
      (Definition.ReadsAs (.schema decl)) := by
  obtain ⟨pos, behind, rfl, hbehind⟩ := Spells.name_iff.mp hspells
  obtain ⟨brace, hdirectives, hbrace⟩ := Spells.append_iff.mp hbehind
  obtain ⟨place, inside, rfl, hinside⟩ := Spells.mark_iff.mp hbrace
  obtain ⟨closing, hoperations, hclosing⟩ := Spells.append_iff.mp hinside
  obtain ⟨last, tail, rfl, hlast⟩ := Spells.mark_iff.mp hclosing
  obtain rfl : tail = rest := hlast
  have hpast : PastDirectives (.next place (.mark .openBrace) inside) := by
    constructor <;> simp [Tokens.At, Tokens.head?]
  have hmany : Ends ((many isName operation).run inside) (.next last (.mark .closeBrace) tail)
      (∀ entry ∈ decl.operations, True) (List.Forall₂ Eq decl.operations) := by
    refine (strays_many (fun _ => True) ?_ ?_ ?_ trivial rfl hoperations).2.ends (fun _ => id)
    · exact fun _ => False.elim
    · exact fun entry _ => List.cons_ne_nil _ _
    · intro entry _ tokens rest hspells _
      obtain ⟨pos, tail, rfl, htail⟩ := Spells.name_iff.mp hspells
      obtain ⟨place, typed, rfl, htyped⟩ := Spells.mark_iff.mp htail
      obtain ⟨last, behind, rfl, hbehind⟩ := Spells.name_iff.mp htyped
      obtain rfl : behind = rest := hbehind
      refine ⟨trivial, .inl ⟨rfl, .inl ?_⟩⟩
      refine .step (run_name _ pos _) (.step (run_mark .colon place _) ?_)
      refine .step (run_name _ last _) (.of_ok trivial rfl ?_)
      simp only [String.ofList_toList]
  refine .step (run_position _) (.step (run_word "schema" pos _) ?_)
  refine (ends_directives hdirectives hpast).finish ?_
  intro directives hread
  refine .step (run_mark .openBrace place inside) ?_
  refine (hmany.finish ?_).congr (by simp)
  intro operations hoperations
  obtain rfl : decl.operations = operations := List.forall₂_eq_eq_eq ▸ hoperations
  refine .step (run_mark .closeBrace last tail) ?_
  simp only [foldlM_setOperation?]
  refine .of_ok trivial rfl ⟨rfl, ?_⟩
  intro hlasting
  simp only [Definition.unplaced, SchemaDef.unplaced, Returns.map_eq hread hlasting]

theorem startsWith_repeatable {firsts : List Token} (h : .name "repeatable".toList ∈ firsts)
    (repeatable : Bool) : StartsWith firsts (repeatableTokens repeatable) := by
  cases repeatable with
  | false => exact startsWith_nil firsts
  | true => exact startsWith_name h _

theorem startsWith_locations {firsts : List Token} (h : .name "on".toList ∈ firsts)
    (places : List Location) : StartsWith firsts (locationTokens places) := by
  cases places with
  | nil => exact startsWith_nil firsts
  | cons first places => exact startsWith_name h _

theorem run_repeatable {repeatable : Bool}
    (hspells : Spells (repeatableTokens repeatable) tokens rest)
    (hrest : rest.head? ≠ some (.name "repeatable".toList)) :
    (skipWord "repeatable").run tokens = .ok (repeatable, rest) := by
  cases repeatable with
  | false =>
      obtain rfl : tokens = rest := hspells
      exact run_skipWord_other hrest
  | true =>
      obtain ⟨pos, tail, rfl, htail⟩ := Spells.name_iff.mp hspells
      obtain rfl : tail = rest := htail
      exact run_skipWord "repeatable" pos tail

theorem ends_directiveDefinition {decl : DirectiveDef} {pos place last : Pos}
    (description : Option String)
    (hspells : Spells (bracketedIfAny .openParen .closeParen
        (decl.arguments.map (InputValue.tokens 0)) ++
      (repeatableTokens decl.repeatable ++ locationTokens decl.locations)) tokens rest)
    (hrest : rest.Parted) :
    Ends ((directiveDefinition description).run (.next pos (.name "directive".toList)
        (.next place (.mark .at) (.next last (.name decl.name.toList) tokens))))
      rest ((∀ argument ∈ decl.arguments, argument.Fits) ∧ decl.locations ≠ [])
      fun result => result.signature = (.directive, some decl.name) ∧
        (Lasting (decl.arguments.flatMap InputValue.values) →
          result.unplaced = Definition.unplaced (.directive { decl with description })) := by
  obtain ⟨flag, harguments, hflag⟩ := Spells.append_iff.mp hspells
  obtain ⟨behind, hrepeatable, hbehind⟩ := Spells.append_iff.mp hflag
  have hwords : StartsWith [.name "repeatable".toList, .name "on".toList]
      (repeatableTokens decl.repeatable ++ locationTokens decl.locations) :=
    (startsWith_repeatable (by simp) decl.repeatable).append
      (startsWith_locations (by simp) decl.locations)
  refine .step (run_position _) (.step (run_word "directive" pos _) ?_)
  refine .step (run_mark .at place _) (.step (run_name _ last tokens) ?_)
  -- Without arguments the next token is one of the two words, or starts a definition.
  refine (ends_arguments harguments ?_).bind ?_
  · exact hflag.not_at hwords (by simp) (hrest.breaks.not_at rfl)
  intro arguments hread
  refine .step (run_repeatable hrepeatable ?_) ?_
  · exact hbehind.head?_ne (startsWith_locations (List.mem_singleton.mpr rfl) _) (by decide)
      (hrest.ne_word (by decide))
  cases hlocations : decl.locations with
  | nil =>
      -- Without a place the word is not written either, and cannot be the next token.
      rw [hlocations] at hbehind
      obtain rfl : behind = rest := hbehind
      have hword : behind.head? ≠ some (.name "on".toList) := hrest.ne_word (by decide)
      obtain ⟨error, herror⟩ := run_word_error hword
      exact .of_error (by simp) (run_bind_error herror)
  | cons first places =>
      rw [hlocations] at hbehind
      obtain ⟨start, names, rfl, hnames⟩ := Spells.name_iff.mp hbehind
      have hresults := run_locations (List.cons_ne_nil first places) hnames
        (hrest.breaks.not_at rfl)
      refine .step (run_word "on" start names) (.step hresults ?_)
      refine .of_ok (by simp) rfl ⟨?_, ?_⟩
      · simp [Definition.signature, Definition.kind, Definition.name?]
      · intro hlasting
        simp only [Definition.unplaced, DirectiveDef.unplaced, String.ofList_toList,
          Returns.map_eq hread hlasting]

/-! Any definition. -/

theorem ne_word_of_described {indent : Nat} {content : Option String} {text word : String}
    {more : List Token}
    (hspells : Spells (descriptionTokens indent content ++ (.name text.toList :: more))
      tokens rest) (hne : text ≠ word) :
    tokens.head? ≠ some (.name word.toList) := by
  obtain ⟨first, hhead, hfirst⟩ := head?_of_described hspells
  rw [hhead]
  intro heq
  cases heq
  obtain htext | htext := hfirst
  · cases htext
  · exact hne (String.toList_injective (Token.name.inj htext)).symm

theorem parted_of_described {indent : Nat} {content : Option String} {text : String}
    {more : List Token}
    (hspells : Spells (descriptionTokens indent content ++ (.name text.toList :: more))
      tokens rest) (htext : definitionWords.contains text = true) :
    tokens.Parted := by
  obtain ⟨first, hhead, hfirst⟩ := head?_of_described hspells
  intro token htoken
  rw [hhead] at htoken
  cases htoken
  obtain hfirst | rfl := hfirst
  · cases first with
    | quoted inside => rfl
    | block inside => rfl
    | _ => cases hfirst
  · rwa [Token.startsDefinition, String.ofList_toList]

theorem run_definition_other
    (hschema : tokens.head? ≠ some (.name "schema".toList))
    (hextend : tokens.head? ≠ some (.name "extend".toList)) :
    definition.run tokens = (do
      let description ← description
      if ← nextIsWord "directive" then directiveDefinition description
      else typeDefinition description : Reader Definition).run tokens := by
  rw [definition, run_bind_ok (run_nextIsWord_other hschema)]
  exact run_bind_ok (run_nextIsWord_other hextend)

theorem ends_definition {content : Definition} (hspells : Spells content.tokens tokens rest)
    (hrest : rest.Parted) :
    Ends (definition.run tokens) rest content.Fits content.ReadsAs := by
  cases content with
  | schema decl =>
      have hread := ends_schemaDefinition hspells
      obtain ⟨pos, tail, rfl, _⟩ := Spells.name_iff.mp hspells
      exact .step (run_nextIsWord "schema" pos tail) hread
  | directive decl =>
      have hschema := ne_word_of_described hspells (by decide : "directive" ≠ "schema")
      have hextend := ne_word_of_described hspells (by decide : "directive" ≠ "extend")
      obtain ⟨named, hdescription, hnamed⟩ := Spells.append_iff.mp hspells
      obtain ⟨pos, sign, rfl, hsign⟩ := Spells.name_iff.mp hnamed
      obtain ⟨place, name, rfl, hname⟩ := Spells.mark_iff.mp hsign
      obtain ⟨last, behind, rfl, hbehind⟩ := Spells.name_iff.mp hname
      rw [run_definition_other hschema hextend]
      refine ((ends_description 0 _ hdescription rfl).bind fun description hdescribed =>
        .step (run_nextIsWord "directive" pos _)
          ((ends_directiveDefinition description hbehind hrest).imp ?_)).congr
        (DirectiveDef.fits_iff decl)
      intro result hresult
      refine ⟨hresult.1, ?_⟩
      intro hlasting
      rw [Definition.values, lasting_append] at hlasting
      rw [hresult.2 hlasting.2, hdescribed hlasting.1]
  | type decl =>
      obtain ⟨form, start, name, directives, body⟩ := decl
      cases form with
      | definition description =>
          have hne : ∀ word, word ∉ typeKeywords → body.keyword ≠ word := by
            rintro word hword rfl
            exact hword body.keyword_mem
          have hschema := ne_word_of_described hspells (hne "schema" (by decide))
          have hextend := ne_word_of_described hspells (hne "extend" (by decide))
          obtain ⟨keyword, hdescription, hkeyword⟩ := Spells.append_iff.mp hspells
          have hbare : Spells (descriptionTokens 0 none ++ _) keyword rest := hkeyword
          have hdirective := ne_word_of_described hbare (hne "directive" (by decide))
          obtain ⟨pos, named, rfl, hnamed⟩ := Spells.name_iff.mp hkeyword
          rw [run_definition_other hschema hextend]
          refine ((ends_description 0 _ hdescription rfl).bind fun found hdescribed =>
            .step (run_nextIsWord_other hdirective)
              ((ends_typeDefinition ⟨.definition description, start, name, directives, body⟩
                found hnamed hrest).imp ?_)).congr ?_
          · intro result hresult
            refine ⟨hresult.1, ?_⟩
            intro hlasting
            rw [Definition.values, List.append_assoc, lasting_append] at hlasting
            rw [hresult.2 hlasting.2, hdescribed hlasting.1]
          · simp [Definition.Fits, TypeDecl.fits_iff, TypeForm.Fits]
      | extension =>
          obtain ⟨pos, keyword, rfl, hkeyword⟩ := Spells.name_iff.mp hspells
          obtain ⟨place, named, rfl, hnamed⟩ := Spells.name_iff.mp hkeyword
          have hschema : Token.name "extend".toList ≠ .name "schema".toList := by decide
          refine .step (run_nextIsWord_other fun h => hschema (Option.some.inj h)) ?_
          refine .step (run_nextIsWord "extend" pos _) ?_
          refine ((ends_typeExtension ⟨.extension, start, name, directives, body⟩
            hnamed hrest).imp ?_).congr ?_
          · exact fun result hresult => ⟨hresult.1, hresult.2⟩
          · simp [Definition.Fits, TypeDecl.fits_iff, TypeForm.Fits, and_assoc]

theorem map_signature_eq {written read : List Definition}
    (h : List.Forall₂ Definition.ReadsAs written read) :
    read.map Definition.signature = written.map Definition.signature := by
  induction h with
  | nil => rfl
  | cons hfirst _ ih => rw [List.map_cons, List.map_cons, hfirst.signature, ih]

theorem ends_document {content : Document} {last : Pos} (hnonempty : content.definitions ≠ [])
    (hspells : Spells (content.definitions.flatMap Definition.tokens) tokens (.done last)) :
    Ends (document.run tokens) (.done last)
      (∀ definition ∈ content.definitions, definition.Fits)
      fun result => result.signature = content.signature ∧
        Returns Document.values Document.unplaced content result := by
  have hmany : Ends ((many1 startsMember definition).run tokens) (.done last)
      (∀ definition ∈ content.definitions, definition.Fits)
      (List.Forall₂ Definition.ReadsAs content.definitions) := by
    refine (strays_many1 Tokens.Parted ?_ hnonempty ?_ ?_ ?_ rfl hspells).ends (fun _ => id)
    · exact fun _ => False.elim
    · intro definition _
      obtain ⟨description, text, more, htokens, _⟩ := definition.tokens_cases
      simp [htokens]
    · intro definition _ tokens rest hspells hrest
      have hread := ends_definition hspells hrest
      obtain ⟨description, text, more, htokens, htext⟩ := definition.tokens_cases
      rw [htokens] at hspells
      exact ⟨parted_of_described hspells htext, (startsMember_of_spells hspells).2,
        hread.strays⟩
    · intro token htoken
      cases htoken
  refine hmany.finish ?_
  intro results hresults
  refine .of_ok trivial rfl ⟨map_signature_eq hresults, ?_⟩
  intro hlasting
  have hreturns := hresults.imp fun _ _ hread => hread.returns
  rw [Document.unplaced, Returns.map_eq hreturns hlasting]
  rfl

end

end Reader

end SchemaLoom
