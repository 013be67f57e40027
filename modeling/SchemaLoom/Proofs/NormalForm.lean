import SchemaLoom.Proofs.RoundTrip

namespace SchemaLoom

open Layout

/-! The normal form of a document from elsewhere.  It keeps all kinds and names if
the names inside values are valid, and so do the trees that take it in.  Names inside
values are not checked before they are written, and with such a name any document at
all can be carried into the normal form of another. -/

def Tree.signature (tree : Tree) : List (Kind × Option String) :=
  tree.definitions.map Definition.signature

theorem Definition.concat?_signature {ours theirs joined : Definition}
    (h : ours.concat? theirs = some joined) : joined.signature = ours.signature := by
  unfold concat? at h
  split at h
  · split at h
    · rename_i sort interfaces fields _ _ _ hours _
      cases h
      cases sort <;> simp [signature, kind, name?, TypeBody.shape, hours]
    · cases h
  · cases h

theorem mergeClosed_signature (entries : List (Kind × Option String)) :
    MergeClosed fun definition => definition.signature ∈ entries := by
  apply MergeClosed.of_concat?
  intro ours theirs joined hours _ hjoined
  rwa [Definition.concat?_signature hjoined]

theorem Source.document?_document {content document : Document}
    (h : (Source.document content).document? = some document) :
    content.normalize = .ok document := by
  unfold Source.document? Source.resolve at h
  cases hnormal : content.normalize with
  | error error => simp [hnormal, Functor.map, Except.map] at h
  | ok found =>
      simp only [hnormal, Functor.map, Except.map, Option.some.injEq] at h
      rw [h]

namespace Document

variable {document result : Document}

theorem signature_of_normalize (hnamed : Named document.values)
    (h : document.normalize = .ok result) : result.signature = document.signature := by
  obtain ⟨hcheck, hread⟩ := normalize_eq_ok_iff.mp h
  exact (ofText_toText hcheck hnamed hread).2

/-- Whatever takes in a document with valid names in its values adds no definition
that the document does not have. -/
theorem normalize_signature (hnamed : Named document.values) :
    (∀ result, document.normalize = .ok result → result.signature = document.signature) ∧
      (∀ tree, Tree.normalized document = .ok tree →
        tree.signature = document.signature) ∧
      (∀ tree : Tree, (tree.append (.document document)).signature ⊆
        tree.signature ++ document.signature) ∧
      ∀ (tree : Tree) (matcher : Matcher),
        (tree.consumeFrom (.document document) matcher).signature ⊆
          tree.signature ++ document.signature := by
  have hsource : ∀ (tree : Tree) found, (Source.document document).document? = some found →
      ∀ definition ∈ found.definitions,
        definition.signature ∈ tree.signature ++ document.signature := by
    intro tree found hfound definition hdefinition
    have hnormal := Source.document?_document hfound
    rw [← signature_of_normalize hnamed hnormal]
    exact List.mem_append_right _ (List.mem_map_of_mem hdefinition)
  have htree : ∀ tree : Tree, ∀ definition ∈ tree.definitions,
      definition.signature ∈ tree.signature ++ document.signature :=
    fun tree definition hdefinition => List.mem_append_left _ (List.mem_map_of_mem hdefinition)
  refine ⟨fun result => signature_of_normalize hnamed, ?_, ?_, ?_⟩
  · intro tree hnormalized
    cases hnormal : document.normalize with
    | error error =>
        rw [Tree.normalized, hnormal] at hnormalized
        cases hnormalized
    | ok found =>
        rw [Tree.normalized, hnormal] at hnormalized
        cases hnormalized
        exact signature_of_normalize hnamed hnormal
  · intro tree entry hentry
    obtain ⟨definition, hdefinition, rfl⟩ := List.mem_map.mp hentry
    exact (mergeClosed_signature _).append (htree tree) (hsource tree) definition hdefinition
  · intro tree matcher entry hentry
    obtain ⟨definition, hdefinition, rfl⟩ := List.mem_map.mp hentry
    exact (mergeClosed_signature _).consumeFrom matcher (htree tree) (hsource tree)
      definition hdefinition

/-- A scalar with a directive, whose argument is the name of an enum value. -/
def carrying (name : String) : Document :=
  ⟨[.type {
    form := .definition none
    pos := .start
    name := "A"
    directives := [{ pos := .start, name := "d", arguments := [("a", .enum name)] }]
    body := .scalar }]⟩

theorem named_carrying {name : String} (hname : isValidName name = true) :
    Named (carrying name).values := by
  simp [Named, carrying, values, Definition.values, TypeForm.values, describing,
    Directive.values, Value.within, TypeBody.values, Value.names, hname]

theorem normalize_signature_carrying :
    (carrying "X").normalize.isOk = true ∧
      (∀ result, (carrying "X").normalize = .ok result →
        result.signature = (carrying "X").signature) :=
  ⟨by decide +kernel, (normalize_signature (named_carrying (by decide))).1⟩

/-- A name with more than a name in it adds a definition. -/
theorem normalize_carrying_scalar :
    (carrying "X) scalar Evil @d(a: Y").signature = [(.type .scalar false, some "A")] ∧
      (carrying "X) scalar Evil @d(a: Y").normalize.toOption.map signature =
        some [(.type .scalar false, some "A"), (.type .scalar false, some "Evil")] := by
  decide +kernel

/-! Any document that can be read can be carried. -/

theorem joined_append (between : List Piece) {front behind : List (List Piece)}
    (hfront : front ≠ []) (hbehind : behind ≠ []) :
    joined between (front ++ behind) =
      joined between front ++ (between ++ joined between behind) := by
  induction front with
  | nil => exact absurd rfl hfront
  | cons first front ih =>
      cases front with
      | nil =>
          obtain ⟨second, rest, rfl⟩ := List.exists_cons_of_ne_nil hbehind
          rw [List.singleton_append, joined_cons_cons]
          simp [joined, List.intercalate]
      | cons second front =>
          rw [List.cons_append, List.cons_append, joined_cons_cons, joined_cons_cons,
            ← List.cons_append, ih (by simp)]
          simp

theorem toText_append {front behind : List Definition} (hfront : front ≠ [])
    (hbehind : behind ≠ []) :
    toText ⟨front ++ behind⟩ = toText ⟨front⟩ ++ '\n' :: toText ⟨behind⟩ := by
  have hjoined : joined [newLine 0] (front.map Definition.pieces ++ behind.map Definition.pieces) =
      joined [newLine 0] (front.map Definition.pieces) ++
        ([newLine 0] ++ joined [newLine 0] (behind.map Definition.pieces)) :=
    joined_append [newLine 0] (by simpa using hfront) (by simpa using hbehind)
  rw [toText, pieces, List.map_append, hjoined, List.flatMap_append, List.flatMap_append]
  rfl

/-- The end of one scalar, a document, and the start of another scalar. -/
def enclosing (content : Document) : String :=
  String.ofList ("X)\n\n".toList ++ (content.toText ++ "\nscalar A @d(a: X".toList))

def enclosed (content : Document) : Document :=
  ⟨(carrying "X").definitions ++ (content.definitions ++ (carrying "X").definitions)⟩

theorem toText_carrying (name : String) :
    (carrying name).toText = "scalar A @d(a: ".toList ++ (name.toList ++ ")\n".toList) := by
  simp [toText, pieces, carrying, joined, Definition.pieces, TypeDecl.pieces, TypeForm.pieces,
    described, directivePieces, Directive.pieces, inParens, Value.memberPieces, Value.pieces,
    TypeBody.keyword, word, sign, space, newLine, Piece.text, Token.text, Mark.text]

theorem toText_enclosed {content : Document} (hnonempty : content.definitions ≠ []) :
    (enclosed content).toText = (carrying (enclosing content)).toText := by
  have hcarrier : (carrying "X").definitions ≠ [] := List.cons_ne_nil _ _
  have hend : "X)\n\n".toList = "X".toList ++ (")\n".toList ++ ['\n']) := by decide
  have hstart : "\nscalar A @d(a: X".toList =
      '\n' :: ("scalar A @d(a: ".toList ++ "X".toList) := by decide
  have hname : (enclosing content).toList =
      "X)\n\n".toList ++ (content.toText ++ "\nscalar A @d(a: X".toList) :=
    String.toList_ofList
  rw [enclosed, toText_append hcarrier (by simp [hnonempty]),
    toText_append hnonempty hcarrier, toText_carrying, toText_carrying, hname, hend, hstart]
  simp only [List.append_assoc, List.cons_append, List.nil_append]

theorem sound_carrying : (carrying "X").Sound := by
  refine ⟨List.cons_ne_nil _ _, List.forall_mem_singleton.mpr ⟨by decide, ?_, trivial, ?_⟩⟩
  · refine List.forall_mem_singleton.mpr ⟨by decide, ?_⟩
    exact List.forall_mem_singleton.mpr ⟨49, rfl, by decide, by decide, rfl⟩
  · intro h
    cases h

theorem sound_enclosed {content : Document} (hsound : content.Sound) :
    (enclosed content).Sound :=
  ⟨List.cons_ne_nil _ _, List.forall_mem_append.mpr ⟨sound_carrying.definitions,
    List.forall_mem_append.mpr ⟨hsound.definitions, sound_carrying.definitions⟩⟩⟩

/-- Under the name of one enum value, every document that can be written and read
again comes into the normal form of a document that does not have it. -/
theorem normalize_enclosing {text : String} {content own : Document}
    (h : parse text = .ok content) (hown : content.normalize = .ok own) :
    (carrying (enclosing content)).signature = [(.type .scalar false, some "A")] ∧
      ∃ result, (carrying (enclosing content)).normalize = .ok result ∧
        result.signature = (.type .scalar false, some "A") ::
          (content.signature ++ [(.type .scalar false, some "A")]) := by
  have hsound := parse_sound h
  have hfits : ∀ definition ∈ content.definitions, definition.Fits :=
    (ofText_toText hsound.check_eq_ok hsound.named (normalize_eq_ok_iff.mp hown).2).1
  have hcarrier : ∀ definition ∈ (carrying "X").definitions, definition.Fits :=
    sound_carrying.fits_iff.mpr ⟨List.forall_mem_singleton.mpr trivial,
      List.forall_mem_singleton.mpr rfl⟩
  have hcheck : (carrying (enclosing content)).check = .ok () := sound_carrying.check_eq_ok
  -- The text is also that of the document between two scalars with valid names.
  have hwhole := sound_enclosed hsound
  obtain ⟨result, hresult⟩ := hwhole.exists_ofText_toText
    (List.forall_mem_append.mpr ⟨hcarrier, List.forall_mem_append.mpr ⟨hfits, hcarrier⟩⟩)
  have hsignature := (ofText_toText hwhole.check_eq_ok hwhole.named hresult).2
  rw [toText_enclosed hsound.nonempty] at hresult
  refine ⟨rfl, result, normalize_eq_ok_iff.mpr ⟨hcheck, hresult⟩, hsignature.trans ?_⟩
  rw [signature, enclosed, List.map_append, List.map_append]
  rfl

end Document

end SchemaLoom
