import SchemaLoom.Proofs.FailedSteps
import SchemaLoom.Proofs.RootTypes

namespace SchemaLoom

/-! Moves from one tree to another.  Either nothing happens to both trees, or one
definition leaves the source and arrives in the target, where it is added or merged
into the first one selected.  Merging joins the parts of two objects or interfaces, so
no part is lost on the way. -/

/-! Parts in number. -/

/-- How many interfaces, directives and fields there are. -/
def Parts.counts : List (Parts → Nat) :=
  [fun parts => parts.interfaces.length, fun parts => parts.directives.length,
    fun parts => parts.fields.length]

theorem Parts.counts_append {count : Parts → Nat} (h : count ∈ counts)
    (first second : Parts) : count (first.append second) = count first + count second := by
  simp only [counts, List.mem_cons, List.not_mem_nil, or_false] at h
  obtain rfl | rfl | rfl := h <;> exact List.length_append

/-- A count summed over all objects and interfaces of a list. -/
def total (count : Parts → Nat) (definitions : List Definition) : Nat :=
  (definitions.filterMap Definition.parts?).foldr (fun parts sum => count parts + sum) 0

theorem total_cons (count : Parts → Nat) (first : Definition) (rest : List Definition) :
    total count (first :: rest) = total count [first] + total count rest := by
  cases hparts : first.parts? <;> simp [total, hparts]

theorem total_middle (count : Parts → Nat) (front behind : List Definition)
    (found : Definition) :
    total count (front ++ found :: behind) =
      total count [found] + total count (front ++ behind) := by
  induction front with
  | nil => exact total_cons count found behind
  | cons first front ih =>
      rw [List.cons_append, List.cons_append, total_cons, ih, total_cons count first (_ ++ _)]
      omega

theorem total_merge {count : Parts → Nat} (hcount : count ∈ Parts.counts)
    {ours theirs : Definition} (hours : ours.parts?.isSome)
    (htheirs : theirs.parts?.isSome) :
    total count [(ours.merge .keepExisting theirs).2] =
      total count [ours] + total count [theirs] := by
  have hjoins : Policy.keepExisting = .replaceWins → ours.kind = theirs.kind := nofun
  have hmerged := (Definition.merge_joins hours htheirs hjoins).1
  simp [total, hmerged, Definition.parts?_eq_some hours,
    Definition.parts?_eq_some htheirs, Parts.counts_append hcount]

namespace Tree

variable {tree source : Tree} {matcher : Matcher} {document : Document}
  {incoming ours : Definition} {front behind : List Definition}

/-- The move by places.  Both are found before anything changes; `none` if one of them
is not in its list. -/
def consumeByPlace? (tree source : Tree) (matcher : Matcher) : Option (Tree × Tree) :=
  match tree.document, source.findIndex? matcher with
  | some document, some place => do
      let incoming ← source.definitions[place]?
      let rest := ofDocument ⟨source.definitions.eraseIdx place⟩
      match tree.findIndex? matcher with
      | none => some (ofDocument ⟨document.definitions ++ [incoming]⟩, rest)
      | some place => do
          let ours ← document.definitions[place]?
          let merged := (ours.merge .keepExisting incoming).2
          some (ofDocument ⟨document.definitions.set place merged⟩, rest)
  | _, _ => some (tree, source)

theorem definitions_of_document (h : tree.document = some document) :
    tree.definitions = document.definitions := by
  simp [definitions, h]

theorem remove_of_firstOf
    (h : FirstOf matcher.selects source.definitions front incoming behind) :
    source.remove matcher = (some incoming, ofDocument ⟨front ++ behind⟩) := by
  have hfound : source.find? matcher = some incoming := h.find?_eq
  cases hdocument : source.document with
  | none =>
      rw [find?, definitions, hdocument] at hfound
      cases hfound
  | some document =>
      rw [definitions_of_document hdocument] at h
      rw [remove, hfound, hdocument, Option.map_some, h.eraseP_eq]
      rfl

theorem consume_of_firstOf (hdocument : tree.document = some document)
    (h : FirstOf matcher.selects source.definitions front incoming behind) :
    tree.consume source matcher =
      (ofDocument ⟨mergeInto .keepExisting matcher.selects incoming document.definitions⟩,
        ofDocument ⟨front ++ behind⟩) := by
  simp only [consume, hdocument, remove_of_firstOf h]

theorem consume_of_find?_eq_none
    (h : tree.document = none ∨ source.find? matcher = none) :
    tree.consume source matcher = (tree, source) := by
  refine consume_of_none (h.imp_right fun hnone => ?_)
  simpa [find?] using hnone

theorem consume_adds (hdocument : tree.document = some document)
    (hincoming : source.find? matcher = some incoming)
    (hnone : tree.find? matcher = none) :
    (tree.consume source matcher).1 = ofDocument ⟨document.definitions ++ [incoming]⟩ := by
  obtain ⟨front, behind, hfirst⟩ := exists_firstOf hincoming
  rw [find?, definitions_of_document hdocument] at hnone
  rw [consume_of_firstOf hdocument hfirst,
    mergeInto_of_none (by simpa using hnone)]

theorem consume_merges (hdocument : tree.document = some document)
    (hincoming : source.find? matcher = some incoming)
    (h : FirstOf matcher.selects document.definitions front ours behind) :
    (tree.consume source matcher).1 =
      ofDocument ⟨front ++ (ours.merge .keepExisting incoming).2 :: behind⟩ := by
  obtain ⟨_, _, hfirst⟩ := exists_firstOf hincoming
  rw [consume_of_firstOf hdocument hfirst, h.mergeInto_eq]

theorem consume_total (hdocument : tree.document = some document)
    (hincoming : source.find? matcher = some incoming)
    (hfound : tree.find? matcher = some ours) (hours : ours.parts?.isSome)
    (hparts : incoming.parts?.isSome) {count : Parts → Nat}
    (hcount : count ∈ Parts.counts) :
    total count (tree.consume source matcher).1.definitions +
        total count (tree.consume source matcher).2.definitions =
      total count tree.definitions + total count source.definitions := by
  obtain ⟨_, _, hsource⟩ := exists_firstOf hincoming
  rw [find?, definitions_of_document hdocument] at hfound
  obtain ⟨_, _, htarget⟩ := exists_firstOf hfound
  -- The parts of the definition that leaves the source are behind those of ours now.
  have hmerge := total_merge hcount hours hparts
  rw [consume_of_firstOf hdocument hsource, htarget.mergeInto_eq,
    definitions_of_document hdocument, htarget.split, hsource.split]
  simp only [definitions, ofDocument, Option.map_some, Option.getD_some]
  rw [total_middle, hmerge, total_middle _ _ _ ours, total_middle _ _ _ incoming]
  omega

/-- Both places are in their lists, and the move by places is the move. -/
theorem consumeByPlace?_eq (tree source : Tree) (matcher : Matcher) :
    tree.consumeByPlace? source matcher = some (tree.consume source matcher) := by
  cases hdocument : tree.document with
  | none =>
      rw [consume_of_find?_eq_none (.inl hdocument)]
      simp only [consumeByPlace?, hdocument]
  | some document =>
      cases hincoming : source.find? matcher with
      | none =>
          have hplace : source.findIndex? matcher = none := by
            simpa [find?, findIndex?] using hincoming
          rw [consume_of_find?_eq_none (.inr hincoming)]
          simp only [consumeByPlace?, hdocument, hplace]
      | some incoming =>
          obtain ⟨front, behind, hsource⟩ := exists_firstOf hincoming
          have hplace : source.findIndex? matcher = some front.length := hsource.findIdx?_eq
          have htree := definitions_of_document hdocument
          rw [consume_of_firstOf hdocument hsource]
          simp only [consumeByPlace?, hdocument, hplace, hsource.getElem?_eq,
            hsource.eraseIdx_eq]
          cases hfound : tree.find? matcher with
          | none =>
              rw [find?, htree] at hfound
              have hnone : tree.findIndex? matcher = none := by
                simpa [findIndex?, htree] using hfound
              rw [mergeInto_of_none (by simpa using hfound)]
              simp [hnone]
          | some ours =>
              rw [find?, htree] at hfound
              obtain ⟨front', behind', htarget⟩ := exists_firstOf hfound
              have hplace' : tree.findIndex? matcher = some front'.length := by
                rw [findIndex?, htree, htarget.findIdx?_eq]
              simp [hplace', htarget.getElem?_eq, htarget.set_eq, htarget.mergeInto_eq]

/-- A move changes both trees or none.  The source is left without its first definition
that is selected, as after a removal.  That definition stands at the end of the target
if none is selected there, and else it is merged into the first that is, all others
staying as they are; if both have parts, none is lost.  No place is out of its list. -/
theorem consume_transaction (tree source : Tree) (matcher : Matcher) :
    (tree.document = none ∨ source.find? matcher = none →
      tree.consume source matcher = (tree, source)) ∧
    (∀ document incoming, tree.document = some document →
      source.find? matcher = some incoming →
        (∃ front behind,
          FirstOf matcher.selects source.definitions front incoming behind ∧
          (tree.consume source matcher).2 = ofDocument ⟨front ++ behind⟩ ∧
          source.remove matcher = (some incoming, (tree.consume source matcher).2)) ∧
        (tree.find? matcher = none →
          (tree.consume source matcher).1 =
            ofDocument ⟨document.definitions ++ [incoming]⟩) ∧
        ∀ ours, tree.find? matcher = some ours →
          (∃ front behind, FirstOf matcher.selects document.definitions front ours behind ∧
            (tree.consume source matcher).1 =
              ofDocument ⟨front ++ (ours.merge .keepExisting incoming).2 :: behind⟩) ∧
          (ours.parts?.isSome → incoming.parts?.isSome → ∀ count ∈ Parts.counts,
            total count (tree.consume source matcher).1.definitions +
                total count (tree.consume source matcher).2.definitions =
              total count tree.definitions + total count source.definitions)) ∧
    tree.consumeByPlace? source matcher = some (tree.consume source matcher) := by
  refine ⟨consume_of_find?_eq_none, ?_, consumeByPlace?_eq tree source matcher⟩
  intro document incoming hdocument hincoming
  refine ⟨?_, consume_adds hdocument hincoming, ?_⟩
  · obtain ⟨front, behind, hfirst⟩ := exists_firstOf hincoming
    have hrest : (tree.consume source matcher).2 = ofDocument ⟨front ++ behind⟩ := by
      rw [consume_of_firstOf hdocument hfirst]
    exact ⟨front, behind, hfirst, hrest, hrest ▸ remove_of_firstOf hfirst⟩
  · intro ours hfound
    refine ⟨?_, ?_⟩
    · have htarget : document.definitions.find? matcher.selects = some ours := by
        rw [← definitions_of_document hdocument]
        exact hfound
      obtain ⟨front, behind, hfirst⟩ := exists_firstOf htarget
      exact ⟨front, behind, hfirst, consume_merges hdocument hincoming hfirst⟩
    · intro hours hparts count hcount
      exact consume_total hdocument hincoming hfound hours hparts hcount

/-- A pattern that is found in every name. -/
def everyName : Matcher :=
  .pattern ⟨"", .empty⟩

/-- An extension of the type of queries, and a scalar with a directive. -/
def extendedQuery : List Definition :=
  [queryWith .extension "b",
    .type {
      form := .definition none
      pos := .start
      name := "Date"
      directives := [⟨.start, "d", []⟩]
      body := .scalar }]

theorem consume_transaction_everyName :
    (emptyObject mutationType).find? everyName =
        (emptyObject mutationType).definitions.head? ∧
      (ofDocument ⟨extendedQuery⟩).find? everyName = extendedQuery.head? ∧
      (∃ front behind,
        FirstOf everyName.selects extendedQuery front (queryWith .extension "b") behind ∧
        ((emptyObject mutationType).consume (ofDocument ⟨extendedQuery⟩) everyName).2 =
          ofDocument ⟨front ++ behind⟩) ∧
      ∀ count ∈ Parts.counts,
        total count ((emptyObject mutationType).consume
              (ofDocument ⟨extendedQuery⟩) everyName).1.definitions +
            total count ((emptyObject mutationType).consume
              (ofDocument ⟨extendedQuery⟩) everyName).2.definitions =
          total count (emptyObject mutationType).definitions +
            total count extendedQuery := by
  have htarget : (emptyObject mutationType).find? everyName =
      (emptyObject mutationType).definitions.head? := rfl
  have hsource : (ofDocument ⟨extendedQuery⟩).find? everyName =
      some (queryWith .extension "b") := rfl
  obtain ⟨⟨front, behind, hfirst, hrest, _⟩, _, hmerged⟩ :=
    (consume_transaction (emptyObject mutationType) (ofDocument ⟨extendedQuery⟩)
      everyName).2.1 _ _ rfl hsource
  exact ⟨htarget, hsource, ⟨front, behind, hfirst, hrest⟩, (hmerged _ htarget).2 rfl rfl⟩

end Tree

end SchemaLoom
