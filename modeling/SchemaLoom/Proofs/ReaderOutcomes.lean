import SchemaLoom.Proofs.ReaderRuns
import SchemaLoom.Proofs.WrittenTokens
import Mathlib.Data.List.Forall2

namespace SchemaLoom

/-! Written tokens in front of a reader. -/

namespace Spells

theorem append_iff {front behind : List Token} {tokens rest : Tokens} :
    Spells (front ++ behind) tokens rest ↔
      ∃ middle, Spells front tokens middle ∧ Spells behind middle rest := by
  induction front generalizing tokens with
  | nil => simp [Spells]
  | cons token front ih =>
      simp only [List.cons_append, Spells, ih]
      constructor
      · rintro ⟨pos, found, tail, htokens, hfound, middle, hfront, hbehind⟩
        exact ⟨middle, ⟨pos, found, tail, htokens, hfound, hfront⟩, hbehind⟩
      · rintro ⟨middle, ⟨pos, found, tail, htokens, hfound, hfront⟩, hbehind⟩
        exact ⟨pos, found, tail, htokens, hfound, middle, hfront, hbehind⟩

theorem cons_iff {token : Token} (h : token.rescan? = some token) {more : List Token}
    {tokens rest : Tokens} :
    Spells (token :: more) tokens rest ↔
      ∃ pos tail, tokens = .next pos token tail ∧ Spells more tail rest := by
  simp [Spells, h]

theorem mark_iff {sign : Mark} {more : List Token} {tokens rest : Tokens} :
    Spells (.mark sign :: more) tokens rest ↔
      ∃ pos tail, tokens = .next pos (.mark sign) tail ∧ Spells more tail rest :=
  cons_iff rfl

theorem name_iff {text : List Char} {more : List Token} {tokens rest : Tokens} :
    Spells (.name text :: more) tokens rest ↔
      ∃ pos tail, tokens = .next pos (.name text) tail ∧ Spells more tail rest :=
  cons_iff rfl

end Spells

namespace Tokens

def length : Tokens → Nat
  | .next _ _ rest => rest.length + 1
  | _ => 0

/-- The next token is this mark. -/
def At (sign : Mark) (tokens : Tokens) : Prop :=
  tokens.head? = some (.mark sign)

theorem At.not_at {sign other : Mark} {tokens : Tokens} (h : tokens.At sign)
    (hne : sign ≠ other) : ¬tokens.At other := by
  intro hother
  apply hne
  rw [At, h] at hother
  cases hother
  rfl

end Tokens

/-- The first token, if there is one, is one of these, and is taken for itself. -/
def StartsWith (firsts written : List Token) : Prop :=
  ∀ first, written.head? = some first → first ∈ firsts ∧ first.rescan? = some first

theorem startsWith_nil (firsts : List Token) : StartsWith firsts [] := by
  intro first hfirst
  cases hfirst

theorem startsWith_mark {firsts : List Token} {sign : Mark} (h : .mark sign ∈ firsts)
    (rest : List Token) : StartsWith firsts (.mark sign :: rest) := by
  intro first hfirst
  cases hfirst
  exact ⟨h, rfl⟩

theorem startsWith_name {firsts : List Token} {text : List Char} (h : .name text ∈ firsts)
    (rest : List Token) : StartsWith firsts (.name text :: rest) := by
  intro first hfirst
  cases hfirst
  exact ⟨h, rfl⟩

theorem StartsWith.append {firsts front behind : List Token}
    (hfront : StartsWith firsts front) (hbehind : StartsWith firsts behind) :
    StartsWith firsts (front ++ behind) := by
  cases front with
  | nil => exact hbehind
  | cons first front => exact fun token htoken => hfront token htoken

theorem Spells.head?_ne {written firsts : List Token} {tokens rest : Tokens}
    (h : Spells written tokens rest) (hstarts : StartsWith firsts written) {token : Token}
    (htoken : token ∉ firsts) (hrest : rest.head? ≠ some token) :
    tokens.head? ≠ some token := by
  cases written with
  | nil =>
      obtain rfl : tokens = rest := h
      exact hrest
  | cons first written =>
      obtain ⟨pos, found, tail, rfl, hfound, _⟩ := h
      obtain ⟨hfirst, hscan⟩ := hstarts first rfl
      rw [hscan] at hfound
      cases hfound
      intro hhead
      cases hhead
      exact htoken hfirst

theorem Spells.not_at {written firsts : List Token} {tokens rest : Tokens}
    (h : Spells written tokens rest) (hstarts : StartsWith firsts written) {sign : Mark}
    (hsign : .mark sign ∉ firsts) (hrest : ¬rest.At sign) : ¬tokens.At sign :=
  h.head?_ne hstarts hsign hrest

theorem Spells.length_eq {written : List Token} {tokens rest : Tokens}
    (h : Spells written tokens rest) : tokens.length = written.length + rest.length := by
  induction written generalizing tokens with
  | nil =>
      obtain rfl : tokens = rest := h
      simp
  | cons token written ih =>
      obtain ⟨pos, found, tail, rfl, _, htail⟩ := h
      simp only [Tokens.length, ih htail, List.length_cons]
      omega

namespace Reader

variable {α β ι : Type}

/-! Outcomes.  A run on written tokens ends where they end, unless something in
them is not good. -/

/-- Ends at `rest` if all is good, and with an error if not. -/
def Ends (run : Except ParseError (α × Tokens)) (rest : Tokens) (good : Prop)
    (post : α → Prop) : Prop :=
  (good ∧ ∃ result, run = .ok (result, rest) ∧ post result) ∨
    (¬good ∧ ∃ error, run = .error error)

/-- Without an error, something that is not good leaves the reader in front of a
token where the construct around it cannot go on. -/
def Strays (stops : Tokens → Prop) (run : Except ParseError (α × Tokens)) (rest : Tokens)
    (good : Prop) (post : α → Prop) : Prop :=
  Ends run rest good post ∨
    (¬good ∧ ∃ result tokens, run = .ok (result, tokens) ∧ stops tokens)

section

variable {stops : Tokens → Prop} {run : Except ParseError (α × Tokens)}
  {tokens middle rest : Tokens} {good good' : Prop} {post : α → Prop} {post' : β → Prop}
  {reader : Reader α} {next : α → Reader β}

theorem Ends.of_ok {result : α} (hgood : good) (hrun : run = .ok (result, rest))
    (hpost : post result) : Ends run rest good post :=
  .inl ⟨hgood, result, hrun, hpost⟩

theorem Ends.of_error {error : ParseError} (hgood : ¬good) (hrun : run = .error error) :
    Ends run rest good post :=
  .inr ⟨hgood, error, hrun⟩

theorem Ends.congr (h : Ends run rest good post) (hiff : good' ↔ good) :
    Ends run rest good' post := by
  rwa [Ends, hiff]

theorem Ends.imp {post'' : α → Prop} (h : Ends run rest good post)
    (himp : ∀ result, post result → post'' result) : Ends run rest good post'' := by
  obtain ⟨hgood, result, hrun, hpost⟩ | ⟨hgood, error, hrun⟩ := h
  · exact .of_ok hgood hrun (himp result hpost)
  · exact .of_error hgood hrun

theorem Ends.step {first : α} (hrun : reader.run tokens = .ok (first, middle))
    (hnext : Ends ((next first).run middle) rest good post') :
    Ends ((reader >>= next).run tokens) rest good post' := by
  rwa [run_bind_ok hrun]

theorem Ends.bind (hreader : Ends (reader.run tokens) middle good post)
    (hnext : ∀ result, post result → Ends ((next result).run middle) rest good' post') :
    Ends ((reader >>= next).run tokens) rest (good ∧ good') post' := by
  obtain ⟨hgood, result, hrun, hpost⟩ | ⟨hgood, error, hrun⟩ := hreader
  · rw [run_bind_ok hrun]
    exact (hnext result hpost).congr (and_iff_right hgood)
  · exact .of_error (fun h => hgood h.1) (run_bind_error hrun)

theorem Ends.finish (hreader : Ends (reader.run tokens) middle good post)
    (hnext : ∀ result, post result → Ends ((next result).run middle) rest True post') :
    Ends ((reader >>= next).run tokens) rest good post' :=
  (hreader.bind hnext).congr (and_iff_left trivial).symm

theorem Ends.strays (h : Ends run rest good post) : Strays stops run rest good post :=
  .inl h

theorem Strays.congr (h : Strays stops run rest good post) (hiff : good' ↔ good) :
    Strays stops run rest good' post := by
  rwa [Strays, Ends, hiff]

theorem Strays.step {first : α} (hrun : reader.run tokens = .ok (first, middle))
    (hnext : Strays stops ((next first).run middle) rest good post') :
    Strays stops ((reader >>= next).run tokens) rest good post' := by
  rwa [run_bind_ok hrun]

theorem Ends.bind_strays (hreader : Ends (reader.run tokens) middle good post)
    (hnext : ∀ result, post result → Strays stops ((next result).run middle) rest good' post') :
    Strays stops ((reader >>= next).run tokens) rest (good ∧ good') post' := by
  obtain ⟨hgood, result, hrun, hpost⟩ | ⟨hgood, error, hrun⟩ := hreader
  · rw [run_bind_ok hrun]
    exact (hnext result hpost).congr (and_iff_right hgood)
  · exact .inl (.of_error (fun h => hgood h.1) (run_bind_error hrun))

theorem Strays.ends (h : Strays stops run rest good post) (hstops : ∀ tokens, ¬stops tokens) :
    Ends run rest good post := by
  obtain h | ⟨_, _, tokens, _, htokens⟩ := h
  · exact h
  · exact absurd htokens (hstops tokens)

/-- What follows fails where the reader strays to. -/
theorem Strays.bind (hreader : Strays stops (reader.run tokens) middle good post)
    (hstops : ∀ result tokens, stops tokens → ∃ error, (next result).run tokens = .error error)
    (hnext : ∀ result, post result → Ends ((next result).run middle) rest good' post') :
    Ends ((reader >>= next).run tokens) rest (good ∧ good') post' := by
  obtain hends | ⟨hgood, result, strayed, hrun, hstrayed⟩ := hreader
  · exact hends.bind hnext
  · obtain ⟨error, herror⟩ := hstops result strayed hstrayed
    exact .inr ⟨fun h => hgood h.1, error, by rw [run_bind_ok hrun, herror]⟩

theorem Strays.finish (hreader : Strays stops (reader.run tokens) middle good post)
    (hstops : ∀ result tokens, stops tokens → ∃ error, (next result).run tokens = .error error)
    (hnext : ∀ result, post result → Ends ((next result).run middle) rest True post') :
    Ends ((reader >>= next).run tokens) rest good post' :=
  (hreader.bind hstops hnext).congr (and_iff_left trivial).symm

/-- What follows takes no token where the reader strays to. -/
theorem Strays.carry (hreader : Strays stops (reader.run tokens) middle good post)
    (hstops : ∀ result tokens, stops tokens →
      ∃ result', (next result).run tokens = .ok (result', tokens))
    (hnext : ∀ result, post result → Strays stops ((next result).run middle) rest good' post') :
    Strays stops ((reader >>= next).run tokens) rest (good ∧ good') post' := by
  obtain (⟨hgood, result, hrun, hpost⟩ | ⟨hgood, error, hrun⟩) |
    ⟨hgood, result, strayed, hrun, hstrayed⟩ := hreader
  · rw [run_bind_ok hrun]
    exact (hnext result hpost).congr (and_iff_right hgood)
  · exact .inl (.of_error (fun h => hgood h.1) (run_bind_error hrun))
  · obtain ⟨result', hresult'⟩ := hstops result strayed hstrayed
    refine .inr ⟨fun h => hgood h.1, result', strayed, ?_, hstrayed⟩
    rw [run_bind_ok hrun, hresult']

end

/-! Basic readers. -/

theorem run_mark (sign : Mark) (pos : Pos) (rest : Tokens) :
    (mark sign).run (.next pos (.mark sign) rest) = .ok ((), rest) :=
  run_take_some (if_pos rfl) pos rest

theorem run_mark_error {sign : Mark} {tokens : Tokens}
    (h : tokens.head? ≠ some (.mark sign)) :
    ∃ error, (mark sign).run tokens = .error error := by
  refine ⟨_, run_take_none ?_⟩
  intro token htoken
  exact if_neg (by rintro rfl; exact h htoken)

theorem run_name (text : List Char) (pos : Pos) (rest : Tokens) :
    name.run (.next pos (.name text) rest) = .ok (String.ofList text, rest) := by
  unfold name
  apply run_take_some
  rfl

theorem run_word (text : String) (pos : Pos) (rest : Tokens) :
    (word text).run (.next pos (.name text.toList) rest) = .ok ((), rest) :=
  run_take_some (if_pos rfl) pos rest

theorem run_word_error {text : String} {tokens : Tokens}
    (h : tokens.head? ≠ some (.name text.toList)) :
    ∃ error, (word text).run tokens = .error error := by
  refine ⟨_, run_take_none ?_⟩
  intro token htoken
  exact if_neg (by rintro rfl; exact h htoken)

theorem not_any_beq {token : Token} {tokens : Tokens} (h : tokens.head? ≠ some token) :
    tokens.head?.any (· == token) = false := by
  cases hhead : tokens.head? with
  | none => rfl
  | some first =>
      have hne : first ≠ token := by
        rintro rfl
        exact h hhead
      simp [hne]

theorem run_skipMark (sign : Mark) (pos : Pos) (rest : Tokens) :
    (skipMark sign).run (.next pos (.mark sign) rest) = .ok (true, rest) := by
  have hfound : (nextIsMark sign).run (.next pos (.mark sign) rest) =
      .ok (true, .next pos (.mark sign) rest) := by
    rw [nextIsMark, run_nextIs]
    simp [Tokens.head?]
  rw [skipMark, run_bind_ok hfound, if_pos rfl, run_bind_ok (run_mark sign pos rest)]
  rfl

theorem run_skipMark_other {sign : Mark} {tokens : Tokens}
    (h : tokens.head? ≠ some (.mark sign)) :
    (skipMark sign).run tokens = .ok (false, tokens) := by
  have hfound : (nextIsMark sign).run tokens = .ok (false, tokens) := by
    rw [nextIsMark, run_nextIs, not_any_beq h]
  rw [skipMark, run_bind_ok hfound]
  rfl

theorem run_nextIsWord (text : String) (pos : Pos) (rest : Tokens) :
    (nextIsWord text).run (.next pos (.name text.toList) rest) =
      .ok (true, .next pos (.name text.toList) rest) := by
  rw [nextIsWord, run_nextIs]
  simp [Tokens.head?]

theorem run_nextIsWord_other {text : String} {tokens : Tokens}
    (h : tokens.head? ≠ some (.name text.toList)) :
    (nextIsWord text).run tokens = .ok (false, tokens) := by
  rw [nextIsWord, run_nextIs, not_any_beq h]

theorem run_skipWord (text : String) (pos : Pos) (rest : Tokens) :
    (skipWord text).run (.next pos (.name text.toList) rest) = .ok (true, rest) := by
  rw [skipWord, run_bind_ok (run_nextIsWord text pos rest), if_pos rfl,
    run_bind_ok (run_word text pos rest)]
  rfl

theorem run_skipWord_other {text : String} {tokens : Tokens}
    (h : tokens.head? ≠ some (.name text.toList)) :
    (skipWord text).run tokens = .ok (false, tokens) := by
  rw [skipWord, run_bind_ok (run_nextIsWord_other h)]
  rfl

/-! Repetition. -/

/-- One item in the repetition: either it can start, or it cannot and the repetition
ends in front of it. -/
def ItemStrays (stops : Tokens → Prop) (starts : Token → Bool) (item : Reader α)
    (tokens rest : Tokens) (good : Prop) (post : α → Prop) : Prop :=
  (tokens.head?.any starts = true ∧ Strays stops (item.run tokens) rest good post) ∨
    (stops tokens ∧ ¬good)

theorem run_manyWithin_stop {starts : Token → Bool} (item : Reader α) {tokens : Tokens}
    (h : tokens.head?.any starts = false) (bound : Tokens) :
    (manyWithin starts item bound).run tokens = .ok ([], tokens) := by
  cases bound with
  | done pos => rfl
  | broken pos => rfl
  | next pos token bound =>
      rw [manyWithin, run_bind_ok (run_nextIs starts tokens), h]
      rfl

theorem run_manyWithin_next {starts : Token → Bool} (item : Reader α) {tokens : Tokens}
    (h : tokens.head?.any starts = true) (pos : Pos) (token : Token) (bound : Tokens) :
    (manyWithin starts item (.next pos token bound)).run tokens =
      (do
        let first ← item
        let rest ← manyWithin starts item bound
        return first :: rest : Reader (List α)).run tokens := by
  rw [manyWithin, run_bind_ok (run_nextIs starts tokens), h]
  rfl

theorem strays_manyWithin (follows : Tokens → Prop) {stops : Tokens → Prop} {starts : Token → Bool}
    {item : Reader α} {written : ι → List Token} {good : ι → Prop} {post : ι → α → Prop}
    (hstops : ∀ tokens, stops tokens → tokens.head?.any starts = false)
    {items : List ι}
    (hitems : ∀ entry ∈ items, ∀ tokens rest, Spells (written entry) tokens rest →
      follows rest → follows tokens ∧
        ItemStrays stops starts item tokens rest (good entry) (post entry))
    {bound tokens rest : Tokens} (hbound : items.length ≤ bound.length)
    (hrest : follows rest) (hlast : rest.head?.any starts = false)
    (hspells : Spells (items.flatMap written) tokens rest) :
    follows tokens ∧ Strays stops ((manyWithin starts item bound).run tokens) rest
      (∀ entry ∈ items, good entry) (List.Forall₂ post items) := by
  -- What follows an item is known from behind, so the items left come before the first.
  induction items generalizing bound tokens with
  | nil =>
      obtain rfl : tokens = rest := hspells
      refine ⟨hrest, .inl (.of_ok (by simp) (run_manyWithin_stop item hlast bound) .nil)⟩
  | cons entry items ih =>
      rw [List.forall_mem_cons] at hitems
      rw [List.flatMap_cons, Spells.append_iff] at hspells
      obtain ⟨middle, hentry, hspells⟩ := hspells
      cases bound with
      | done pos => simp [Tokens.length] at hbound
      | broken pos => simp [Tokens.length] at hbound
      | next pos token bound =>
          simp only [List.length_cons, Tokens.length] at hbound
          obtain ⟨hmiddle, hmany⟩ : follows middle ∧
              Strays stops ((manyWithin starts item bound).run middle) rest
                (∀ entry ∈ items, good entry) (List.Forall₂ post items) :=
            ih hitems.2 (by omega) hspells
          obtain ⟨htokens, hitem⟩ := hitems.1 tokens middle hentry hmiddle
          refine ⟨htokens, ?_⟩
          obtain ⟨hstart, hitem⟩ | ⟨hstop, hbad⟩ := hitem
          · rw [run_manyWithin_next item hstart]
            refine (hitem.carry ?_ ?_).congr List.forall_mem_cons
            · intro first strayed hstrayed
              exact ⟨[first],
                run_bind_ok (run_manyWithin_stop item (hstops strayed hstrayed) bound)⟩
            · intro first hfirst
              refine (hmany.carry ?_ ?_).congr (and_iff_left trivial).symm
              · exact fun others strayed _ => ⟨first :: others, rfl⟩
              · exact fun others hothers => .inl (.of_ok trivial rfl (.cons hfirst hothers))
          · refine .inr ⟨fun h => hbad (h entry List.mem_cons_self), [], tokens, ?_, hstop⟩
            exact run_manyWithin_stop item (hstops tokens hstop) _

theorem length_le_length_flatMap {written : ι → List Token} {items : List ι}
    (h : ∀ entry ∈ items, written entry ≠ []) :
    items.length ≤ (items.flatMap written).length := by
  induction items with
  | nil => exact Nat.le_refl 0
  | cons entry items ih =>
      rw [List.forall_mem_cons] at h
      have hentry := List.length_pos_iff.mpr h.1
      have hitems := ih h.2
      rw [List.flatMap_cons, List.length_append, List.length_cons]
      omega

theorem strays_many (follows : Tokens → Prop) {stops : Tokens → Prop} {starts : Token → Bool}
    {item : Reader α} {written : ι → List Token} {good : ι → Prop} {post : ι → α → Prop}
    (hstops : ∀ tokens, stops tokens → tokens.head?.any starts = false)
    {items : List ι} (hwritten : ∀ entry ∈ items, written entry ≠ [])
    (hitems : ∀ entry ∈ items, ∀ tokens rest, Spells (written entry) tokens rest →
      follows rest → follows tokens ∧
        ItemStrays stops starts item tokens rest (good entry) (post entry))
    {tokens rest : Tokens} (hrest : follows rest) (hlast : rest.head?.any starts = false)
    (hspells : Spells (items.flatMap written) tokens rest) :
    follows tokens ∧ Strays stops ((many starts item).run tokens) rest
      (∀ entry ∈ items, good entry) (List.Forall₂ post items) := by
  have hlength := length_le_length_flatMap hwritten
  rw [many, run_bind_ok (run_get tokens)]
  refine strays_manyWithin follows hstops hitems ?_ hrest hlast hspells
  rw [hspells.length_eq]
  omega

/-- One item after the other, each of which can start. -/
theorem strays_many1 (follows : Tokens → Prop) {stops : Tokens → Prop} {starts : Token → Bool}
    {item : Reader α} {written : ι → List Token} {good : ι → Prop} {post : ι → α → Prop}
    (hstops : ∀ tokens, stops tokens → tokens.head?.any starts = false)
    {items : List ι} (hnonempty : items ≠ []) (hwritten : ∀ entry ∈ items, written entry ≠ [])
    (hitems : ∀ entry ∈ items, ∀ tokens rest, Spells (written entry) tokens rest →
      follows rest → follows tokens ∧ tokens.head?.any starts = true ∧
        Strays stops (item.run tokens) rest (good entry) (post entry))
    {tokens rest : Tokens} (hrest : follows rest) (hlast : rest.head?.any starts = false)
    (hspells : Spells (items.flatMap written) tokens rest) :
    Strays stops ((many1 starts item).run tokens) rest
      (∀ entry ∈ items, good entry) (List.Forall₂ post items) := by
  cases items with
  | nil => exact absurd rfl hnonempty
  | cons entry items =>
      rw [List.forall_mem_cons] at hitems hwritten
      rw [List.flatMap_cons, Spells.append_iff] at hspells
      obtain ⟨middle, hentry, hspells⟩ := hspells
      obtain ⟨hmiddle, hmany⟩ := strays_many follows hstops hwritten.2
        (fun entry hentry tokens rest hspells hrest =>
          have hitem := hitems.2 entry hentry tokens rest hspells hrest
          ⟨hitem.1, .inl hitem.2⟩)
        hrest hlast hspells
      obtain ⟨_, _, hitem⟩ := hitems.1 tokens middle hentry hmiddle
      refine (hitem.carry ?_ ?_).congr List.forall_mem_cons
      · intro first strayed hstrayed
        refine ⟨[first], run_bind_ok ?_⟩
        rw [many, run_bind_ok (run_get strayed)]
        exact run_manyWithin_stop item (hstops strayed hstrayed) strayed
      · intro first hfirst
        refine (hmany.carry ?_ ?_).congr (and_iff_left trivial).symm
        · exact fun others strayed _ => ⟨first :: others, rfl⟩
        · exact fun others hothers => .inl (.of_ok trivial rfl (.cons hfirst hothers))

theorem ends_bracketedIfAny (follows stops : Tokens → Prop) (post : ι → α → Prop)
    {opening closing : Mark} {starts : Token → Bool} {item : Reader α}
    {written : ι → List Token} {good : ι → Prop} {items : List ι} {present : List α → β}
    {absent : β} {post' : β → Prop} {tokens rest : Tokens}
    (hspells : Spells (Layout.bracketedIfAny opening closing (items.map written)) tokens rest)
    (hrest : ¬rest.At opening) (hclosing : starts (.mark closing) = false)
    (hfollows : ∀ tokens, tokens.At closing → follows tokens)
    (hstops : ∀ tokens, stops tokens →
      tokens.head?.any starts = false ∧ ¬tokens.At closing)
    (hwritten : ∀ entry ∈ items, written entry ≠ [])
    (hitems : ∀ entry ∈ items, ∀ tokens rest, Spells (written entry) tokens rest →
      follows rest → follows tokens ∧ tokens.head?.any starts = true ∧
        Strays stops (item.run tokens) rest (good entry) (post entry))
    (habsent : items = [] → post' absent)
    (hpresent : items ≠ [] → ∀ results, List.Forall₂ post items results →
      post' (present results)) :
    Ends ((do
      if ← skipMark opening then
        let results ← many1 starts item
        mark closing
        return present results
      else return absent : Reader β).run tokens) rest (∀ entry ∈ items, good entry) post' := by
  cases items with
  | nil =>
      obtain rfl : tokens = rest := hspells
      refine .step (run_skipMark_other hrest) ?_
      exact .of_ok (by simp) rfl (habsent rfl)
  | cons entry items =>
      simp only [Layout.bracketedIfAny, List.map_cons, List.isEmpty_cons, Bool.false_eq_true,
        if_false, List.cons_append, Spells.mark_iff, Spells.append_iff] at hspells
      obtain ⟨pos, inside, rfl, behind, hinside, place, tail, rfl, hlast⟩ := hspells
      obtain rfl : tail = rest := hlast
      rw [← List.map_cons, ← List.flatMap_def] at hinside
      have hmany := strays_many1 follows (fun tokens h => (hstops tokens h).1) (by simp)
        hwritten hitems (hfollows (.next place (.mark closing) tail) rfl) hclosing hinside
      refine .step (run_skipMark opening pos inside) (hmany.finish ?_ ?_)
      · intro results strayed hstrayed
        obtain ⟨error, herror⟩ := run_mark_error (hstops strayed hstrayed).2
        exact ⟨error, run_bind_error herror⟩
      · intro results hresults
        refine .step (run_mark closing place tail) ?_
        exact .of_ok trivial rfl (hpresent (by simp) results hresults)

end Reader

end SchemaLoom
