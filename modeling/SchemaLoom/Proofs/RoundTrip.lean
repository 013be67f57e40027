import SchemaLoom.Proofs.DocumentReadsBack
import SchemaLoom.Proofs.Printable

namespace SchemaLoom

open Layout

/-! A document, written and read again.  If its written form can be read at all,
what is read has the same kinds and names; and of a document that was itself read
from a text, it is known which literals stand in the way. -/

theorem mem_piecesText {pieces : List Piece} {token : Token} (htoken : token ∈ lexemes pieces)
    {char : Char} (hchar : char ∈ token.text) : char ∈ piecesText pieces := by
  obtain ⟨piece, hpiece, hlexeme⟩ := List.mem_filterMap.mp htoken
  refine List.mem_flatMap.mpr ⟨piece, hpiece, ?_⟩
  cases piece with
  | lexeme found =>
      cases hlexeme
      exact hchar
  | gap text => cases hlexeme

namespace Document

variable {document result : Document}

/-- Every definition starts with a word, and no word is blank. -/
theorem allBlank_toText (hnonempty : document.definitions ≠ []) :
    allBlank document.toText = false := by
  have hwords : ∀ text ∈ definitionWords, allBlank text.toList = false :=
    List.all_iff_forall_prop.mp (by decide)
  obtain ⟨definition, hdefinition⟩ := List.exists_mem_of_ne_nil _ hnonempty
  obtain ⟨description, text, more, htokens, htext⟩ := definition.tokens_cases
  have hname : .name text.toList ∈ lexemes document.pieces := by
    rw [Document.lexemes_pieces]
    refine List.mem_flatMap.mpr ⟨definition, hdefinition, ?_⟩
    simp [htokens]
  obtain ⟨char, hchar, hblank⟩ := List.all_eq_false.mp (hwords text (by simpa using htext))
  exact List.all_eq_false.mpr ⟨char, mem_piecesText hname hchar, hblank⟩

theorem ofText_eq_ok_iff {text : List Char} :
    ofText text = .ok result ↔
      allBlank text = false ∧ ∃ rest, Reader.document.run (scan text) = .ok (result, rest) := by
  unfold ofText
  cases hblank : allBlank text with
  | true => simp
  | false =>
      cases hrun : Reader.document.run (scan text) with
      | error error => simp [Except.map]
      | ok found =>
          obtain ⟨found, rest⟩ := found
          simp [Except.map]

/-- Of text that was read all tokens are known: they are those that were written. -/
theorem spells_of_ofText (hcheck : document.check = .ok ()) (hnamed : Named document.values)
    (h : ofText document.toText = .ok result) :
    ∃ last, Spells (lexemes document.pieces) (scan document.toText) (.done last) := by
  obtain ⟨_, rest, hrun⟩ := ofText_eq_ok_iff.mp h
  obtain ⟨complete, hsound⟩ := exists_sound_scan document.toText
  obtain ⟨rfl, _⟩ := Reader.document_sound hsound hrun
  exact exists_spells_of_sound document.apart (document.validNames hcheck hnamed) hsound

theorem ends_document (hnonempty : document.definitions ≠ []) {last : Pos}
    (hspells : Spells (lexemes document.pieces) (scan document.toText) (.done last)) :
    Reader.Ends (Reader.document.run (scan document.toText)) (.done last)
      (∀ definition ∈ document.definitions, definition.Fits)
      fun result => result.signature = document.signature ∧
        Returns values unplaced document result := by
  rw [Document.lexemes_pieces] at hspells
  exact Reader.ends_document hnonempty hspells

/-- Written text that can be read gives back all kinds and names, and the document as
a whole if its values last. -/
theorem reads_of_ofText (hcheck : document.check = .ok ()) (hnamed : Named document.values)
    (h : ofText document.toText = .ok result) :
    (∀ definition ∈ document.definitions, definition.Fits) ∧
      result.signature = document.signature ∧ Returns values unplaced document result := by
  obtain ⟨last, hspells⟩ := spells_of_ofText hcheck hnamed h
  obtain ⟨hblank, rest, hrun⟩ := ofText_eq_ok_iff.mp h
  have hnonempty : document.definitions ≠ [] := by
    intro hnil
    obtain ⟨definitions⟩ := document
    cases hnil
    cases hblank
  obtain ⟨hfits, found, hfound, hreads⟩ | ⟨_, error, herror⟩ :=
    ends_document hnonempty hspells
  · rw [hrun] at hfound
    cases hfound
    exact ⟨hfits, hreads⟩
  · rw [hrun] at herror
    cases herror

theorem ofText_toText (hcheck : document.check = .ok ()) (hnamed : Named document.values)
    (h : ofText document.toText = .ok result) :
    (∀ definition ∈ document.definitions, definition.Fits) ∧
      result.signature = document.signature := by
  obtain ⟨hfits, hsignature, _⟩ := reads_of_ofText hcheck hnamed h
  exact ⟨hfits, hsignature⟩

theorem Sound.fits_iff (hsound : document.Sound) :
    (∀ definition ∈ document.definitions, definition.Fits) ↔
      (∀ definition ∈ document.definitions, definition.HasPlace) ∧
        ∀ value ∈ document.values, value.isLegible = true := by
  rw [Document.values, List.forall_mem_flatMap, ← forall₂_and]
  exact forall₂_congr fun definition hdefinition =>
    (hsound.definitions definition hdefinition).fits_iff

theorem Sound.exists_ofText_toText (hsound : document.Sound)
    (hfits : ∀ definition ∈ document.definitions, definition.Fits) :
    ∃ result, ofText document.toText = .ok result := by
  obtain ⟨hroom, htokens⟩ := document.scans hsound hfits
  obtain ⟨last, hspells⟩ : ∃ last,
      Spells (lexemes document.pieces) (scan document.toText) (.done last) :=
    exists_spells document.apart (document.validNames hsound.check_eq_ok hsound.named)
      htokens (by rw [hroom]; rfl)
  obtain ⟨_, result, hrun, _⟩ | ⟨hgood, _⟩ := ends_document hsound.nonempty hspells
  · exact ⟨result, ofText_eq_ok_iff.mpr ⟨allBlank_toText hsound.nonempty, _, hrun⟩⟩
  · exact absurd hfits hgood

theorem parse_ofList_toText : parse (String.ofList document.toText) = ofText document.toText := by
  rw [parse, String.toList_ofList]

/-- What was read from a text can be written.  The written form can be read unless a
directive in it has no place or a literal is not legible, and never with other kinds
and names. -/
theorem parse_print_iff {text : String} (h : parse text = .ok document) :
    ∃ written, document.print = .ok written ∧
      (∀ result, parse written = .ok result → result.signature = document.signature) ∧
      ((∃ result, parse written = .ok result) ↔
        (∀ definition ∈ document.definitions, definition.HasPlace) ∧
          ∀ value ∈ document.values, value.isLegible = true) := by
  have hsound := parse_sound h
  have hcheck := hsound.check_eq_ok
  refine ⟨_, print_eq_ok_iff.mpr ⟨hcheck, rfl⟩, ?_⟩
  rw [parse_ofList_toText]
  refine ⟨fun result hresult => (ofText_toText hcheck hsound.named hresult).2, ?_⟩
  rw [← hsound.fits_iff]
  constructor
  · rintro ⟨result, hresult⟩
    exact (ofText_toText hcheck hsound.named hresult).1
  · exact hsound.exists_ofText_toText

theorem parse_print_iff_default :
    ∃ document, parse "type A { a(x: Float = 1.5): Int }" = .ok document ∧
      ∃ written, document.print = .ok written ∧
        (∀ result, parse written = .ok result → result.signature = document.signature) ∧
        ((∃ result, parse written = .ok result) ↔
          (∀ definition ∈ document.definitions, definition.HasPlace) ∧
            ∀ value ∈ document.values, value.isLegible = true) := by
  have hok : (parse "type A { a(x: Float = 1.5): Int }").isOk = true := by decide +kernel
  cases hparse : parse "type A { a(x: Float = 1.5): Int }" with
  | error error =>
      rw [hparse] at hok
      cases hok
  | ok document => exact ⟨document, rfl, parse_print_iff hparse⟩

/-- A directive without places is read, but not from its written form. -/
theorem parse_print_placeless :
    ∃ document written, parse "directive @a on" = .ok document ∧
      document.print = .ok written ∧ ¬∃ result, parse written = .ok result := by
  have hread : (parse "directive @a on").isOk = true := by decide +kernel
  have hwritten : ((parse "directive @a on").toOption.map print).any
      (fun written => written.toOption.any fun text => !(parse text).isOk) = true := by
    decide +kernel
  cases hparse : parse "directive @a on" with
  | error error =>
      rw [hparse] at hread
      cases hread
  | ok document =>
      obtain ⟨written, hprint⟩ : ∃ written, document.print = .ok written :=
        ⟨_, print_eq_ok_iff.mpr ⟨(parse_sound hparse).check_eq_ok, rfl⟩⟩
      refine ⟨document, written, rfl, hprint, ?_⟩
      rintro ⟨result, hresult⟩
      simp [hparse, Except.toOption, hprint, hresult, Except.isOk, Except.toBool] at hwritten

end Document

end SchemaLoom
