import SchemaLoom.Proofs.RoundTrip

namespace SchemaLoom

open Layout

/-! The check of names and the scanner agree: a text is a valid name exactly if a
scalar that is declared with it is read, alone and under this name. -/

/-- A scalar with nothing but its name. -/
def bareScalar (name : String) : TypeDecl :=
  { form := .definition none
    pos := .start
    name
    directives := []
    body := .scalar }

variable {name : String}

theorem piecesText_bareScalar (name : String) :
    piecesText (bareScalar name).pieces = ("scalar " ++ name).toList := by
  rw [String.toList_append]
  simp [bareScalar, TypeDecl.pieces, TypeForm.pieces, described, TypeBody.keyword, word,
    space, directivePieces, piecesText, Piece.text, Token.text]

theorem fits_bareScalar (name : String) : (bareScalar name).Fits := by
  refine ⟨?_, ?_, trivial, nofun⟩
  · simp [bareScalar, TypeForm.Fits, DescriptionFits]
  · simp [bareScalar]

/-- Behind the keyword a valid name is one token, and nothing is left of the text. -/
theorem spells_bareScalar (hname : isValidName name = true) :
    ∃ last, Spells (bareScalar name).tokens (scan ("scalar " ++ name).toList)
      (.done last) := by
  have hnames : ValidNames (bareScalar name).tokens :=
    validNames_cons (validName_name TypeBody.scalar.isValidName_keyword)
      (validNames_cons (validName_name hname) validNames_nil)
  obtain ⟨hroom, htokens⟩ : Scans bracketLimit (bareScalar name).tokens :=
    scans_name _ (scans_name _ (scans_nil bracketLimit))
  rw [← TypeDecl.lexemes_pieces] at hnames hroom htokens ⊢
  rw [← piecesText_bareScalar]
  exact exists_spells (bareScalar name).apart hnames htokens (by rw [hroom]; rfl)

namespace Document

theorem parse_bareScalar (hname : isValidName name = true) :
    ∃ document, parse ("scalar " ++ name) = .ok document ∧
      document.signature = [(.type .scalar false, some name)] := by
  obtain ⟨last, hspells⟩ := spells_bareScalar hname
  have hcontent : Spells ((Document.mk [.type (bareScalar name)]).definitions.flatMap
      Definition.tokens) (scan ("scalar " ++ name).toList) (.done last) := by
    rw [List.flatMap_singleton]
    exact hspells
  obtain ⟨_, document, hrun, hsignature, _⟩ | ⟨hgood, _⟩ :=
    Reader.ends_document (List.cons_ne_nil _ _) hcontent
  · have hblank : allBlank ("scalar " ++ name).toList = false := by
      rw [String.toList_append]
      rfl
    exact ⟨document, ofText_eq_ok_iff.mpr ⟨hblank, _, hrun⟩, hsignature⟩
  · have hfits : (Definition.type (bareScalar name)).Fits := fits_bareScalar name
    exact absurd (List.forall_mem_singleton.mpr hfits) hgood

/-- Every name under which a definition was read is valid. -/
theorem isValidName_of_mem_signature {text : String} {document : Document} {kind : Kind}
    (h : parse text = .ok document) (hmem : (kind, some name) ∈ document.signature) :
    isValidName name = true := by
  obtain ⟨definition, hdefinition, hsignature⟩ := List.mem_map.mp hmem
  have hcheck := check_eq_ok_iff.mp (parse_sound h).check_eq_ok definition hdefinition
  cases definition with
  | schema decl => cases hsignature
  | directive decl =>
      cases hsignature
      exact (DirectiveDef.check_eq_ok_iff.mp hcheck).1
  | type decl =>
      cases hsignature
      exact (TypeDecl.check_eq_ok_iff.mp hcheck).1

end Document

/-- A text is a valid name exactly if behind the keyword of a scalar it is read as one,
with the whole text as the scalar's name and no other definition beside it. -/
theorem isValidName_iff_parse (name : String) :
    isValidName name = true ↔
      ∃ document, Document.parse ("scalar " ++ name) = .ok document ∧
        document.signature = [(.type .scalar false, some name)] := by
  constructor
  · exact Document.parse_bareScalar
  · rintro ⟨document, hparse, hsignature⟩
    apply Document.isValidName_of_mem_signature hparse
    rw [hsignature]
    exact List.mem_singleton_self _

end SchemaLoom
