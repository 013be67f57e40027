import SchemaLoom.Document.Printer
import SchemaLoom.Token.Lexeme

namespace SchemaLoom

/-! Block strings as they are written.  The scanner takes each of them as one
token, and it can be read unless the margin of its lines ends inside a character:
a margin is the least indent in bytes, and blanks may take several. -/

/-! No triple quote without a backslash in front is left in an escaped line. -/

namespace Block

theorem escapeQuotes_cons {char : Char} {rest : List Char}
    (h : ∀ more, char = '"' → rest ≠ '"' :: '"' :: more) :
    escapeQuotes (char :: rest) = char :: escapeQuotes rest := by
  rw [escapeQuotes.eq_def]
  split <;> grind

theorem escapeQuotes_ne_pair {line : List Char} (h : ∀ more, line ≠ '"' :: '"' :: more)
    (rest tail : List Char) :
    escapeQuotes line ++ '\n' :: rest ≠ '"' :: '"' :: tail := by
  cases line with
  | nil => simp [escapeQuotes]
  | cons first line =>
      rw [escapeQuotes_cons (by grind)]
      cases line with
      | nil => simp [escapeQuotes]
      | cons second line =>
          intro heq
          have hfirst : first = '"' := by simpa using congrArg List.head? heq
          have hsecond : second ≠ '"' := by grind
          rw [escapeQuotes_cons (by grind)] at heq
          simp only [List.cons_append, List.cons.injEq] at heq
          exact hsecond heq.2.1

theorem escapeQuotes_ne_triple (line rest tail : List Char) :
    escapeQuotes line ++ '\n' :: rest ≠ '"' :: '"' :: '"' :: tail := by
  intro heq
  cases line with
  | nil => simp [escapeQuotes] at heq
  | cons first line =>
      by_cases htriple : ∃ more, first = '"' ∧ line = '"' :: '"' :: more
      · obtain ⟨more, rfl, rfl⟩ := htriple
        simp [escapeQuotes] at heq
      · rw [escapeQuotes_cons (by grind), List.cons_append, List.cons.injEq] at heq
        exact escapeQuotes_ne_pair (by grind) rest _ heq.2

end Block

theorem readBlock_cons {char : Char} {rest : List Char}
    (hquote : ∀ more, char :: rest ≠ '"' :: '"' :: '"' :: more)
    (hescape : ∀ more, char :: rest ≠ '\\' :: '"' :: '"' :: '"' :: more) :
    readBlock (char :: rest) =
      (readBlock rest).map fun (inside, behind) => (char :: inside, behind) := by
  rw [readBlock.eq_def]
  split <;> grind

theorem readBlock_spaces (count : Nat) {rest inside behind : List Char}
    (hrest : readBlock rest = some (inside, behind)) :
    readBlock (List.replicate count ' ' ++ rest) =
      some (List.replicate count ' ' ++ inside, behind) := by
  induction count with
  | zero => exact hrest
  | succ count ih =>
      rw [List.replicate_succ, List.cons_append, readBlock_cons (by simp) (by simp), ih]
      rfl

theorem readBlock_newline {rest inside behind : List Char}
    (hrest : readBlock rest = some (inside, behind)) :
    readBlock ('\n' :: rest) = some ('\n' :: inside, behind) := by
  rw [readBlock_cons (by simp) (by simp), hrest]
  rfl

theorem readBlock_escapeQuotes (line : List Char) {rest inside behind : List Char}
    (hrest : readBlock rest = some (inside, behind)) :
    readBlock (Block.escapeQuotes line ++ '\n' :: rest) =
      some (Block.escapeQuotes line ++ '\n' :: inside, behind) := by
  fun_induction Block.escapeQuotes line with
  | case1 line ih =>
      simp only [List.cons_append, readBlock, ih]
      rfl
  | case2 char line hplain ih =>
      have hquote : ∀ more, char :: (Block.escapeQuotes line ++ '\n' :: rest) ≠
          '"' :: '"' :: '"' :: more := by
        intro more heq
        rw [List.cons.injEq] at heq
        exact Block.escapeQuotes_ne_pair (by grind) rest more heq.2
      have hescape : ∀ more, char :: (Block.escapeQuotes line ++ '\n' :: rest) ≠
          '\\' :: '"' :: '"' :: '"' :: more := by
        intro more heq
        rw [List.cons.injEq] at heq
        exact Block.escapeQuotes_ne_triple line rest more heq.2
      rw [List.cons_append, readBlock_cons hquote hescape, ih]
      rfl
  | case3 => exact readBlock_newline hrest

namespace Block

/-- One line of a block, without its ending. -/
def writtenLine (indent : Nat) (line : List Char) : List Char :=
  if allBlank line then [] else List.replicate (indent + 2) ' ' ++ escapeQuotes line

theorem encode_eq (indent : Nat) (text : List Char) :
    encode indent text =
      '\n' :: ((splitLines text).flatMap (fun line => writtenLine indent line ++ ['\n'])
        ++ List.replicate indent ' ') := rfl

end Block

theorem readBlock_writtenLine (indent : Nat) (line : List Char)
    {rest inside behind : List Char} (hrest : readBlock rest = some (inside, behind)) :
    readBlock (Block.writtenLine indent line ++ ['\n'] ++ rest) =
      some (Block.writtenLine indent line ++ ['\n'] ++ inside, behind) := by
  simp only [Block.writtenLine, List.append_assoc, List.cons_append, List.nil_append]
  split
  · exact readBlock_newline hrest
  · rw [List.append_assoc, List.append_assoc]
    exact readBlock_spaces _ (readBlock_escapeQuotes line hrest)

theorem readBlock_encode (indent : Nat) (text behind : List Char) :
    readBlock (Block.encode indent text ++ (tripleQuote ++ behind)) =
      some (Block.encode indent text, behind) := by
  have hlast : readBlock (List.replicate indent ' ' ++ (tripleQuote ++ behind)) =
      some (List.replicate indent ' ', behind) := by
    have hspaces := readBlock_spaces indent
      (show readBlock (tripleQuote ++ behind) = some ([], behind) from rfl)
    rwa [List.append_nil] at hspaces
  have hlines : ∀ lines : List (List Char),
      readBlock (lines.flatMap (fun line => Block.writtenLine indent line ++ ['\n'])
          ++ (List.replicate indent ' ' ++ (tripleQuote ++ behind))) =
        some (lines.flatMap (fun line => Block.writtenLine indent line ++ ['\n'])
          ++ List.replicate indent ' ', behind) := by
    intro lines
    induction lines with
    | nil => exact hlast
    | cons line lines ih =>
        have hline := readBlock_writtenLine indent line ih
        simpa only [List.flatMap_cons, List.append_assoc] using hline
  rw [Block.encode_eq, List.cons_append, List.append_assoc]
  exact readBlock_newline (hlines _)

theorem readToken_block (indent : Nat) (text behind : List Char) :
    readToken ((Token.block (Block.encode indent text)).text ++ behind) =
      some (.block (Block.encode indent text), behind) := by
  have hread := readBlock_encode indent text behind
  simp only [Token.text, tripleQuote, List.append_assoc, List.cons_append, List.nil_append,
    readToken] at hread ⊢
  rw [hread]
  rfl

/-! The lines of a written block.  A carriage return at the end of a line becomes
part of its ending. -/

def stripReturn : List Char → List Char
  | [] => []
  | ['\r'] => []
  | char :: rest => char :: stripReturn rest

theorem stripReturn_cons {char : Char} {rest : List Char}
    (h : rest ≠ [] ∨ char ≠ '\r') : stripReturn (char :: rest) = char :: stripReturn rest := by
  rw [stripReturn.eq_def]
  split <;> grind

theorem stripReturn_append (front : List Char) {rest : List Char} (h : rest ≠ []) :
    stripReturn (front ++ rest) = front ++ stripReturn rest := by
  induction front with
  | nil => rfl
  | cons char front ih =>
      rw [List.cons_append, stripReturn_cons (by simp [h]), ih]
      rfl

theorem splitLines_cons {char : Char} {rest : List Char} (hline : char ≠ '\n')
    (hreturn : ∀ more, char = '\r' → rest ≠ '\n' :: more) :
    splitLines (char :: rest) = consFirst char (splitLines rest) := by
  rw [splitLines.eq_def]
  split <;> grind

theorem splitLines_line {line : List Char} (hline : '\n' ∉ line) (rest : List Char) :
    splitLines (line ++ '\n' :: rest) = stripReturn line :: splitLines rest := by
  induction line with
  | nil => rfl
  | cons char line ih =>
      simp only [List.mem_cons, not_or] at hline
      by_cases hreturn : char = '\r' ∧ line = []
      · obtain ⟨rfl, rfl⟩ := hreturn
        rfl
      · have hnext : ∀ more, char = '\r' → line ++ '\n' :: rest ≠ '\n' :: more := by
          intro more hchar heq
          cases line with
          | nil => exact hreturn ⟨hchar, rfl⟩
          | cons next line => simp_all
        rw [List.cons_append, splitLines_cons (Ne.symm hline.1) hnext, ih hline.2,
          stripReturn_cons (by grind)]
        rfl

theorem newline_not_mem_of_mem_splitLines {text line : List Char}
    (h : line ∈ splitLines text) : '\n' ∉ line := by
  fun_induction splitLines text generalizing line with
  | case1 => cases h
  | case2 rest ih =>
      rcases List.mem_cons.mp h with rfl | h
      · simp
      · exact ih h
  | case3 rest ih =>
      rcases List.mem_cons.mp h with rfl | h
      · simp
      · exact ih h
  | case4 char rest hline hreturn ih =>
      cases hsplit : splitLines rest with
      | nil =>
          rw [hsplit, consFirst, List.mem_singleton] at h
          subst h
          simpa using Ne.symm hline
      | cons first others =>
          rw [hsplit, consFirst, List.mem_cons] at h
          rw [hsplit] at ih
          rcases h with rfl | h
          · simp only [List.mem_cons, not_or]
            exact ⟨Ne.symm hline, ih (by simp)⟩
          · exact ih (by simp [h])

namespace Block

theorem newline_not_mem_escapeQuotes {line : List Char} (h : '\n' ∉ line) :
    '\n' ∉ escapeQuotes line := by
  fun_induction escapeQuotes line with
  | case1 line ih =>
      simp only [List.mem_cons, not_or] at h ⊢
      exact ⟨by decide, h.1, h.2.1, h.2.2.1, ih h.2.2.2⟩
  | case2 char line _ ih =>
      simp only [List.mem_cons, not_or] at h ⊢
      exact ⟨h.1, ih h.2⟩
  | case3 => exact h

theorem newline_not_mem_writtenLine (indent : Nat) {line : List Char} (h : '\n' ∉ line) :
    '\n' ∉ writtenLine indent line := by
  unfold writtenLine
  split
  · simp
  · simp [List.mem_replicate, newline_not_mem_escapeQuotes h]

/-- The line of blanks in front of the closing quotes. -/
def closingLine (indent : Nat) : List (List Char) :=
  splitLines (List.replicate indent ' ')

theorem splitLines_encode (indent : Nat) (text : List Char) :
    splitLines (encode indent text) =
      [] :: ((splitLines text).map (fun line => stripReturn (writtenLine indent line))
        ++ closingLine indent) := by
  have hlines : ∀ lines : List (List Char), (∀ line ∈ lines, '\n' ∉ line) →
      splitLines (lines.flatMap (fun line => writtenLine indent line ++ ['\n'])
          ++ List.replicate indent ' ') =
        lines.map (fun line => stripReturn (writtenLine indent line))
          ++ closingLine indent := by
    intro lines hlines
    induction lines with
    | nil => rfl
    | cons line lines ih =>
        have hline := newline_not_mem_writtenLine indent (hlines line (by simp))
        rw [List.flatMap_cons, List.append_assoc, List.append_assoc, List.singleton_append,
          splitLines_line hline, ih fun line hmem => hlines line (by simp [hmem])]
        rfl
  rw [encode_eq, splitLines, hlines]
  intro line
  exact newline_not_mem_of_mem_splitLines

/-! Margins. -/

theorem byteSize_cons (char : Char) (rest : List Char) :
    byteSize (char :: rest) = char.utf8Size + byteSize rest := rfl

theorem byteSize_append (front rest : List Char) :
    byteSize (front ++ rest) = byteSize front + byteSize rest := by
  induction front with
  | nil => exact (Nat.zero_add _).symm
  | cons char front ih => rw [List.cons_append, byteSize_cons, byteSize_cons, ih, Nat.add_assoc]

theorem byteSize_spaces (count : Nat) : byteSize (List.replicate count ' ') = count := by
  induction count with
  | zero => rfl
  | succ count ih =>
      rw [List.replicate_succ, byteSize_cons, ih]
      exact Nat.add_comm 1 count

theorem dropBytes_append {size : Nat} {front : List Char} (h : size ≤ byteSize front)
    (rest : List Char) :
    dropBytes size (front ++ rest) = (dropBytes size front).map (· ++ rest) := by
  fun_induction dropBytes size front with
  | case1 line => simp [dropBytes]
  | case2 size => simp [byteSize] at h
  | case3 size char front hfits ih =>
      rw [byteSize_cons] at h
      rw [List.cons_append, dropBytes, if_pos hfits]
      exact ih (by omega)
  | case4 size char front hfits =>
      rw [List.cons_append, dropBytes, if_neg hfits]
      rfl

theorem dropBytes_spaces (count size : Nat) (rest : List Char) :
    dropBytes (count + size) (List.replicate count ' ' ++ rest) = dropBytes size rest := by
  induction count with
  | zero => simp
  | succ count ih =>
      rw [List.replicate_succ, List.cons_append, Nat.add_right_comm, dropBytes,
        if_pos (by simp [Char.utf8Size])]
      exact ih

theorem dropBytes_spaces_isSome (size count : Nat) :
    (dropBytes size (List.replicate count ' ')).isSome = true := by
  induction count generalizing size with
  | zero => cases size <;> rfl
  | succ count ih =>
      cases size with
      | zero => rfl
      | succ size =>
          rw [List.replicate_succ, dropBytes, if_pos (by simp [Char.utf8Size])]
          exact ih _

theorem escapeQuotes_append_blank {lead : List Char}
    (hlead : ∀ char ∈ lead, isBlank char = true) (rest : List Char) :
    escapeQuotes (lead ++ rest) = lead ++ escapeQuotes rest := by
  induction lead with
  | nil => rfl
  | cons char lead ih =>
      have hquote : char ≠ '"' := by
        rintro rfl
        have hblank := hlead '"' (by simp)
        revert hblank
        decide
      rw [List.cons_append, escapeQuotes_cons (fun _ heq => absurd heq hquote),
        ih fun char hmem => hlead char (by simp [hmem])]
      rfl

theorem exists_escapeQuotes {char : Char} (hchar : isBlank char = false) (line : List Char) :
    ∃ first rest, escapeQuotes (char :: line) = first :: rest ∧ isBlank first = false := by
  by_cases htriple : ∃ more, char = '"' ∧ line = '"' :: '"' :: more
  · obtain ⟨more, rfl, rfl⟩ := htriple
    exact ⟨_, _, rfl, by decide⟩
  · exact ⟨_, _, escapeQuotes_cons (by grind), hchar⟩

theorem exists_line {line : List Char} (h : allBlank line = false) :
    ∃ char rest, line = line.takeWhile isBlank ++ char :: rest ∧ isBlank char = false := by
  cases hrest : line.dropWhile isBlank with
  | nil =>
      have hall : allBlank line = true := by
        have hline := List.takeWhile_append_dropWhile (p := isBlank) (l := line)
        rw [hrest, List.append_nil] at hline
        rw [allBlank, ← hline]
        exact List.all_takeWhile
      rw [hall] at h
      cases h
  | cons char rest =>
      refine ⟨char, rest, ?_, ?_⟩
      · rw [← hrest, List.takeWhile_append_dropWhile]
      · have hhead := List.head?_dropWhile_not isBlank line
        rw [hrest] at hhead
        simpa using hhead

/-- What the scanner makes of a line that is not blank: behind the places in front,
the line starts with the same blanks as before. -/
theorem exists_writtenLine (indent : Nat) {line : List Char} (h : allBlank line = false) :
    ∃ first rest, isBlank first = false ∧
      stripReturn (writtenLine indent line) =
        List.replicate (indent + 2) ' ' ++ (line.takeWhile isBlank ++ first :: rest) := by
  obtain ⟨char, behind, hline, hchar⟩ := exists_line h
  obtain ⟨first, rest, hescaped, hfirst⟩ := exists_escapeQuotes hchar behind
  have hlead : ∀ char ∈ line.takeWhile isBlank, isBlank char = true :=
    List.all_eq_true.mp List.all_takeWhile
  have hwhole : escapeQuotes line = line.takeWhile isBlank ++ first :: rest := by
    have happend := escapeQuotes_append_blank hlead (char :: behind)
    rwa [← hline, hescaped] at happend
  have hreturn : first ≠ '\r' := by
    rintro rfl
    revert hfirst
    decide
  refine ⟨first, stripReturn rest, hfirst, ?_⟩
  rw [writtenLine, h, if_neg (by simp), hwhole, ← List.append_assoc,
    stripReturn_append _ (by simp), stripReturn_cons (.inr hreturn), List.append_assoc]

theorem closingLine_succ (indent : Nat) :
    closingLine (indent + 1) = [List.replicate (indent + 1) ' '] := by
  induction indent with
  | zero => rfl
  | succ indent ih =>
      rw [closingLine, List.replicate_succ, splitLines_cons (by decide) (by simp)]
      rw [closingLine] at ih
      rw [ih]
      rfl

theorem eq_replicate_of_mem_closingLine {indent : Nat} {line : List Char}
    (h : line ∈ closingLine indent) : line = List.replicate indent ' ' := by
  cases indent with
  | zero => cases h
  | succ indent =>
      rw [closingLine_succ] at h
      exact List.mem_singleton.mp h

theorem allBlank_replicate (count : Nat) : allBlank (List.replicate count ' ') = true := by
  rw [allBlank, List.all_eq_true]
  intro char hchar
  rw [(List.mem_replicate.mp hchar).2]
  decide

theorem allBlank_writtenLine (indent : Nat) (line : List Char) :
    allBlank (stripReturn (writtenLine indent line)) = allBlank line := by
  cases hline : allBlank line with
  | true =>
      rw [writtenLine, if_pos hline]
      rfl
  | false =>
      obtain ⟨first, rest, hfirst, hwritten⟩ := exists_writtenLine indent hline
      rw [hwritten]
      simp [allBlank, hfirst]

theorem indent_writtenLine (indent : Nat) {line : List Char} (h : allBlank line = false) :
    Block.indent (stripReturn (writtenLine indent line)) = indent + 2 + Block.indent line := by
  obtain ⟨first, rest, hfirst, hwritten⟩ := exists_writtenLine indent h
  have hspaces : ∀ char ∈ List.replicate (indent + 2) ' ', isBlank char = true :=
    List.all_eq_true.mp (allBlank_replicate _)
  have hlead : ∀ char ∈ line.takeWhile isBlank, isBlank char = true :=
    List.all_eq_true.mp List.all_takeWhile
  rw [Block.indent, hwritten, List.takeWhile_append_of_pos hspaces,
    List.takeWhile_append_of_pos hlead, List.takeWhile_cons_of_neg (by simp [hfirst]),
    List.append_nil, byteSize_append, byteSize_spaces, Block.indent]

/-! Only the lines that are not blank decide about the margin, and all of them are
set in by the same places. -/

theorem filter_written (indent : Nat) (lines : List (List Char)) :
    (lines.map (fun line => stripReturn (writtenLine indent line))
        ++ closingLine indent).filter (!allBlank ·) =
      (lines.filter (!allBlank ·)).map (fun line => stripReturn (writtenLine indent line)) := by
  have hclosing : (closingLine indent).filter (!allBlank ·) = [] := by
    rw [List.filter_eq_nil_iff]
    intro line hline
    rw [eq_replicate_of_mem_closingLine hline, allBlank_replicate]
    simp
  rw [List.filter_append, hclosing, List.append_nil, List.filter_map]
  congr 1
  apply List.filter_congr
  intro line _
  simp only [Function.comp, allBlank_writtenLine]

theorem min?_map_add (places : Nat) (sizes : List Nat) :
    (sizes.map (places + ·)).min? = sizes.min?.map (places + ·) := by
  cases hmin : sizes.min? with
  | none =>
      rw [List.min?_eq_none_iff.mp hmin]
      rfl
  | some least =>
      obtain ⟨hmem, hle⟩ := List.min?_eq_some_iff.mp hmin
      rw [Option.map_some, List.min?_eq_some_iff]
      refine ⟨List.mem_map_of_mem hmem, ?_⟩
      intro size hsize
      obtain ⟨other, hother, rfl⟩ := List.mem_map.mp hsize
      have := hle other hother
      omega

theorem margin_written (indent : Nat) (lines : List (List Char)) :
    margin (lines.map (fun line => stripReturn (writtenLine indent line))
        ++ closingLine indent) =
      (margin lines).map (indent + 2 + ·) := by
  have hindents : ((lines.filter (!allBlank ·)).map
      (fun line => stripReturn (writtenLine indent line))).map Block.indent =
      ((lines.filter (!allBlank ·)).map Block.indent).map (indent + 2 + ·) := by
    rw [List.map_map, List.map_map, List.map_inj_left]
    intro line hline
    exact indent_writtenLine indent (by simpa using (List.mem_filter.mp hline).2)
  rw [margin, filter_written, hindents, min?_map_add, margin]

theorem mapM_eq_none_iff {α β : Type} {act : α → Option β} {items : List α} :
    items.mapM act = none ↔ ∃ item ∈ items, act item = none := by
  induction items with
  | nil => simp
  | cons item items ih =>
      rw [List.mapM_cons]
      cases hitem : act item with
      | none => simp [hitem]
      | some result =>
          cases hitems : items.mapM act with
          | none => simpa [hitem, hitems] using ih.mp hitems
          | some results =>
              simp only [hitems, reduceCtorEq, false_iff] at ih
              simpa [hitem, hitems] using ih

theorem mem_dropWhile {α : Type} {drops : α → Bool} {items : List α} {item : α}
    (hmem : item ∈ items) (hitem : drops item = false) : item ∈ items.dropWhile drops := by
  rw [← List.takeWhile_append_dropWhile (p := drops) (l := items), List.mem_append] at hmem
  rcases hmem with hmem | hmem
  · have htake := List.all_eq_true.mp List.all_takeWhile item hmem
    rw [hitem] at htake
    cases htake
  · exact hmem

/-- Only lines that are not blank can make a block unreadable. -/
theorem dedent_eq_none_iff {rest : List (List Char)}
    (hblank : ∀ line ∈ rest, allBlank line = true →
      cutMargin ((margin rest).getD 0) line ≠ none) :
    dedent ([] :: rest) = none ↔
      ∃ line ∈ rest.filter (!allBlank ·), cutMargin ((margin rest).getD 0) line = none := by
  have hdedent : dedent ([] :: rest) =
      ((dropBlankEnd rest).dropWhile allBlank).mapM (cutMargin ((margin rest).getD 0)) := rfl
  rw [hdedent, mapM_eq_none_iff]
  constructor
  · rintro ⟨line, hline, hcut⟩
    have hmem : line ∈ rest := by
      have hend := (List.dropWhile_suffix _).subset hline
      rw [dropBlankEnd, List.mem_reverse] at hend
      exact List.mem_reverse.mp ((List.dropWhile_suffix _).subset hend)
    refine ⟨line, List.mem_filter.mpr ⟨hmem, ?_⟩, hcut⟩
    cases hall : allBlank line with
    | false => rfl
    | true => exact absurd hcut (hblank line hmem hall)
  · rintro ⟨line, hline, hcut⟩
    obtain ⟨hmem, hall⟩ := List.mem_filter.mp hline
    refine ⟨line, ?_, hcut⟩
    apply mem_dropWhile
    · rw [dropBlankEnd, List.mem_reverse]
      exact mem_dropWhile (List.mem_reverse.mpr hmem) (by simpa using hall)
    · simpa using hall

/-- Whether the margin of a text's lines ends inside a character of one of them. -/
def isTorn (text : List Char) : Bool :=
  ((splitLines text).filter (!allBlank ·)).any fun line =>
    (dropBytes ((margin (splitLines text)).getD 0) line).isNone

theorem cutMargin_writtenLine (indent : Nat) {line : List Char} {size : Nat}
    (hline : allBlank line = false) (hsize : size ≤ Block.indent line) :
    cutMargin (indent + 2 + size) (stripReturn (writtenLine indent line)) = none ↔
      dropBytes size line = none := by
  obtain ⟨first, rest, _, hwritten⟩ := exists_writtenLine indent hline
  obtain ⟨char, behind, hsplit, _⟩ := exists_line hline
  have hfits : indent + 2 + size ≤ byteSize (List.replicate (indent + 2) ' ' ++
      (line.takeWhile isBlank ++ first :: rest)) := by
    rw [byteSize_append, byteSize_append, byteSize_spaces]
    unfold Block.indent at hsize
    omega
  have hsame : dropBytes size line = none ↔ dropBytes size (line.takeWhile isBlank) = none := by
    have happend := dropBytes_append hsize (char :: behind)
    rw [← hsplit] at happend
    rw [happend, Option.map_eq_none_iff]
  rw [hwritten, cutMargin, if_pos hfits, dropBytes_spaces, dropBytes_append hsize,
    Option.map_eq_none_iff, hsame]

theorem cutMargin_spaces_ne_none (size count : Nat) :
    cutMargin size (List.replicate count ' ') ≠ none := by
  have hsome := dropBytes_spaces_isSome size count
  unfold cutMargin
  split
  · exact Option.isSome_iff_ne_none.mp hsome
  · simp

/-- A written block cannot be read iff its text is torn, wherever it stands. -/
theorem decode_encode_eq_none_iff (indent : Nat) (text : List Char) :
    decode (encode indent text) = none ↔ isTorn text = true := by
  rw [decode, Option.map_eq_none_iff, splitLines_encode, dedent_eq_none_iff]
  · rw [filter_written, margin_written]
    have hcut : ∀ line ∈ (splitLines text).filter (!allBlank ·),
        (cutMargin (((margin (splitLines text)).map (indent + 2 + ·)).getD 0)
            (stripReturn (writtenLine indent line)) = none ↔
          dropBytes ((margin (splitLines text)).getD 0) line = none) := by
      intro line hline
      have hinked : allBlank line = false := by simpa using (List.mem_filter.mp hline).2
      have hindent : Block.indent line ∈ ((splitLines text).filter (!allBlank ·)).map
          Block.indent := List.mem_map_of_mem hline
      cases hmargin : margin (splitLines text) with
      | none =>
          rw [List.min?_eq_none_iff.mp hmargin] at hindent
          cases hindent
      | some size =>
          exact cutMargin_writtenLine indent hinked
            ((List.min?_eq_some_iff.mp hmargin).2 _ hindent)
    simp only [isTorn, List.any_eq_true, List.mem_map, Option.isNone_iff_eq_none]
    constructor
    · rintro ⟨_, ⟨line, hline, rfl⟩, hnone⟩
      exact ⟨line, hline, (hcut line hline).mp hnone⟩
    · rintro ⟨line, hline, hnone⟩
      exact ⟨_, ⟨line, hline, rfl⟩, (hcut line hline).mpr hnone⟩
  · intro line hline hall
    rcases List.mem_append.mp hline with hline | hline
    · obtain ⟨source, _, rfl⟩ := List.mem_map.mp hline
      rw [allBlank_writtenLine] at hall
      rw [writtenLine, if_pos hall]
      exact cutMargin_spaces_ne_none _ 0
    · rw [eq_replicate_of_mem_closingLine hline]
      exact cutMargin_spaces_ne_none _ indent

end Block

end SchemaLoom
