import SchemaLoom.Proofs.Blocks
import SchemaLoom.Proofs.Literals
import SchemaLoom.Proofs.TokenStream

namespace SchemaLoom

/-! Written pieces and the tokens that the scanner finds in their text.  It finds
the tokens that were written, one by one, but for doubles: their text may be that
of an integer or of a name, or of nothing at all. -/

namespace Token

/-- What the text of a written token is taken for. -/
def rescan? : Token → Option Token
  | .float text => if isName text then some (.name text) else numberToken? text
  | token => some token

/-- The tokens that a written form consists of, apart from the check of names. -/
def IsWritten : Token → Prop
  | .mark sign => sign ≠ .spread
  | .name _ => True
  | .int text => ∃ value, text = Layout.intText value
  | .float text => ∃ value : Binary64, text = value.toText
  | .quoted inside => ∃ text, inside = Quoted.encode text
  | .block inside => ∃ indent text, inside = Block.encode indent text

def isMark : Token → Bool
  | .mark _ => true
  | _ => false

theorem readToken_text {token : Token} {behind : List Char} (htoken : token.IsWritten)
    (hname : token.ValidName) (hbehind : token.isMark = false → EndsToken behind) :
    readToken (token.text ++ behind) = token.rescan?.map (·, behind) := by
  cases token with
  | mark sign => exact readToken_mark htoken behind
  | name text => exact readToken_name hname (hbehind rfl)
  | int text =>
      obtain ⟨value, rfl⟩ := htoken
      rw [text, readToken_of_shape (intText_shape value) (hbehind rfl),
        numberToken?_intText]
      rfl
  | float text =>
      obtain ⟨value, rfl⟩ := htoken
      rw [text, rescan?]
      rcases toText_cases value with hname | hshape
      · rw [readToken_name hname (hbehind rfl), if_pos hname]
        rfl
      · rw [readToken_of_shape hshape (hbehind rfl),
          if_neg (by simp [isName_eq_false_of_shape hshape])]
  | quoted inside =>
      obtain ⟨text, rfl⟩ := htoken
      exact readToken_quoted text (hbehind rfl)
  | block inside =>
      obtain ⟨indent, text, rfl⟩ := htoken
      exact readToken_block indent text behind

/-- Brackets are taken for themselves, so the count of open ones is the same. -/
theorem roomBehind?_of_rescan? {token found : Token} (h : token.rescan? = some found)
    (room : Nat) : found.roomBehind? room = token.roomBehind? room := by
  cases token with
  | float text =>
      rw [rescan?] at h
      split at h
      · cases h
        rfl
      · unfold numberToken? at h
        split at h
        · cases h
          rfl
        · split at h <;> cases h
          rfl
  | _ => cases h; rfl

end Token

/-! Characters that the scanner passes over. -/

def passedOver : List Char := ['\ufeff', '\r', '\t', '\n', ' ', ',', '#']

theorem skipBlanks_of_not_mem {text : List Char}
    (h : ∀ char, text.head? = some char → char ∉ passedOver) (pos : Pos) :
    skipBlanks pos text = (pos, text) := by
  cases text with
  | nil => rfl
  | cons first rest =>
      have hfirst := h first rfl
      simp only [passedOver, List.mem_cons, List.not_mem_nil, or_false, not_or] at hfirst
      simp [skipBlanks, hfirst]

theorem plain_of_mem_passedOver :
    ∀ char ∈ passedOver, char ≠ '-' ∧ char.isDigit = false ∧ isNameStart char = false :=
  List.all_iff_forall_prop.mp (by decide)

theorem NumberShaped.not_passedOver {text : List Char} (h : NumberShaped text) :
    ∃ first rest, text = first :: rest ∧ first ∉ passedOver := by
  cases text with
  | nil => exact h.elim
  | cons first rest =>
      refine ⟨first, rest, rfl, ?_⟩
      intro hmem
      obtain ⟨hsign, hdigit, _⟩ := plain_of_mem_passedOver first hmem
      rcases h.1 with hfirst | hfirst
      · exact hsign hfirst
      · rw [hdigit] at hfirst
        cases hfirst

theorem isName_not_passedOver {text : List Char} (h : isName text = true) :
    ∃ first rest, text = first :: rest ∧ first ∉ passedOver := by
  cases text with
  | nil => cases h
  | cons first rest =>
      refine ⟨first, rest, rfl, ?_⟩
      intro hmem
      obtain ⟨_, _, hstart⟩ := plain_of_mem_passedOver first hmem
      simp [isName, hstart] at h

theorem Token.IsWritten.not_passedOver {token : Token} (h : token.IsWritten)
    (hname : token.ValidName) :
    ∃ first rest, token.text = first :: rest ∧ first ∉ passedOver := by
  cases token with
  | mark sign => cases sign <;> exact ⟨_, _, rfl, by decide⟩
  | name text => exact isName_not_passedOver hname
  | int text =>
      obtain ⟨value, rfl⟩ := h
      exact (intText_shape value).not_passedOver
  | float text =>
      obtain ⟨value, rfl⟩ := h
      exact (toText_cases value).elim isName_not_passedOver NumberShaped.not_passedOver
  | quoted inside => exact ⟨_, _, rfl, by decide⟩
  | block inside => exact ⟨_, _, rfl, by decide⟩

/-- The scanner at a written token. -/
theorem scanFrom_token {token : Token} {behind : List Char} (htoken : token.IsWritten)
    (hname : token.ValidName) (hbehind : token.isMark = false → EndsToken behind) (pos : Pos)
    (room : Nat) :
    scanFrom pos room (token.text ++ behind) =
      match token.rescan?, token.roomBehind? room with
      | some found, some inner =>
          .next pos found (scanFrom (pos.past found.text) inner behind)
      | _, _ => .broken pos := by
  obtain ⟨first, rest, htext, hfirst⟩ := htoken.not_passedOver hname
  have hread := Token.readToken_text htoken hname hbehind
  have hskip : skipBlanks pos (token.text ++ behind) = (pos, token.text ++ behind) := by
    apply skipBlanks_of_not_mem
    intro char hchar
    rw [htext] at hchar
    cases hchar
    exact hfirst
  have hnonempty : (token.text ++ behind).isEmpty = false := by
    rw [htext]
    rfl
  rw [scanFrom]
  simp only [hskip, hnonempty, Bool.false_eq_true, if_false]
  cases hfound : token.rescan? with
  | none =>
      rw [hfound] at hread
      split
      · rfl
      · rename_i heq
        rw [hskip, hread] at heq
        cases heq
  | some found =>
      rw [hfound] at hread
      split
      · rename_i heq
        rw [hskip, hread] at heq
        cases heq
      · rename_i heq
        rw [hskip, hread] at heq
        cases heq
        rw [← Token.roomBehind?_of_rescan? hfound room]
        cases found.roomBehind? room <;> rfl

/-! Pieces. -/

def IsGap (text : List Char) : Prop :=
  text ≠ [] ∧ ∀ char ∈ text, char = ' ' ∨ char = ',' ∨ char = '\n'

theorem scanFrom_congr {pos place : Pos} {text behind : List Char} (room : Nat)
    (h : skipBlanks pos text = skipBlanks place behind) :
    scanFrom pos room text = scanFrom place room behind := by
  rw [scanFrom, scanFrom]
  generalize skipBlanks pos text = skipped at h
  subst h
  rfl

theorem scanFrom_gap {gap : List Char} (hgap : IsGap gap) (pos : Pos) (room : Nat)
    (behind : List Char) :
    ∃ place, scanFrom pos room (gap ++ behind) = scanFrom place room behind := by
  have hskip : ∃ place, skipBlanks pos (gap ++ behind) = skipBlanks place behind := by
    obtain ⟨-, hgap⟩ := hgap
    induction gap generalizing pos with
    | nil => exact ⟨pos, rfl⟩
    | cons char gap ih =>
        have hrest : ∀ char ∈ gap, char = ' ' ∨ char = ',' ∨ char = '\n' :=
          fun char hchar => hgap char (by simp [hchar])
        rcases hgap char (by simp) with rfl | rfl | rfl
        · exact ih (pos.right 1) hrest
        · exact ih (pos.right 1) hrest
        · exact ih pos.newLine hrest
  obtain ⟨place, hplace⟩ := hskip
  exact ⟨place, scanFrom_congr room hplace⟩

namespace Piece

/-- A token in front of such a piece ends there. -/
def endsToken : Piece → Bool
  | .gap _ => true
  | .lexeme token => token.isMark

def IsWritten : Piece → Prop
  | .gap text => IsGap text
  | .lexeme token => token.IsWritten

end Piece

def lexemes (pieces : List Piece) : List Token :=
  pieces.filterMap fun
    | .lexeme token => some token
    | .gap _ => none

def piecesText (pieces : List Piece) : List Char :=
  pieces.flatMap Piece.text

/-- Nothing, or pieces behind which a token can stand. -/
def Opens (pieces : List Piece) : Prop :=
  ∀ piece, pieces.head? = some piece → piece.endsToken = true

/-- Written pieces, with a gap or a mark behind every token that is no mark. -/
def Apart : List Piece → Prop
  | [] => True
  | piece :: rest =>
      piece.IsWritten ∧ (piece.endsToken = false → Opens rest) ∧ Apart rest

theorem endsToken_piecesText {pieces : List Piece} (hopens : Opens pieces)
    (hapart : Apart pieces) : EndsToken (piecesText pieces) := by
  intro char hchar
  cases pieces with
  | nil => cases hchar
  | cons piece rest =>
      have hends := hopens piece rfl
      cases piece with
      | gap text =>
          obtain ⟨hnonempty, hgap⟩ : IsGap text := hapart.1
          cases text with
          | nil => exact absurd rfl hnonempty
          | cons first text =>
              cases hchar
              rcases hgap _ List.mem_cons_self with rfl | rfl | rfl <;> decide
      | lexeme token =>
          cases token with
          | mark sign =>
              cases sign <;> cases hchar <;> first | decide | exact absurd rfl hapart.1
          | _ => cases hends

/-- The stream starts with what the scanner takes these tokens for. -/
def Spells : List Token → Tokens → Tokens → Prop
  | [], tokens, rest => tokens = rest
  | token :: more, tokens, rest =>
      ∃ pos found tail, tokens = .next pos found tail ∧ token.rescan? = some found ∧
        Spells more tail rest

/-- The room that is left behind tokens. -/
def roomBehindAll? (room : Nat) (tokens : List Token) : Option Nat :=
  tokens.foldlM (fun room token => token.roomBehind? room) room

/-- A written text that is scanned to its end spells the tokens that were written. -/
theorem exists_spells_of_sound {pieces : List Piece} (hapart : Apart pieces)
    (hnames : ∀ token ∈ lexemes pieces, token.ValidName) {pos : Pos} {room behind : Nat}
    (hsound : (scanFrom pos room (piecesText pieces)).Sound true behind) :
    ∃ last, Spells (lexemes pieces) (scanFrom pos room (piecesText pieces)) (.done last) := by
  induction pieces generalizing pos room behind with
  | nil => exact ⟨_, by rw [piecesText, List.flatMap_nil, scanFrom]; rfl⟩
  | cons piece rest ih =>
      obtain ⟨hpiece, hends, hrest⟩ := hapart
      rw [piecesText, List.flatMap_cons, ← piecesText] at hsound ⊢
      cases piece with
      | gap text =>
          obtain ⟨place, hplace⟩ := scanFrom_gap hpiece pos room (piecesText rest)
          rw [Piece.text, hplace] at hsound ⊢
          exact ih hrest hnames hsound
      | lexeme token =>
          have hbehind : token.isMark = false → EndsToken (piecesText rest) :=
            fun hmark => endsToken_piecesText (hends hmark) hrest
          have hrestNames : ∀ token ∈ lexemes rest, token.ValidName :=
            fun token hmem => hnames token (List.mem_cons_of_mem _ hmem)
          rw [Piece.text, scanFrom_token hpiece (hnames token List.mem_cons_self) hbehind]
            at hsound ⊢
          cases hfound : token.rescan? with
          | none =>
              rw [hfound] at hsound
              cases hsound
          | some found =>
              cases hroom : token.roomBehind? room with
              | none =>
                  rw [hfound, hroom] at hsound
                  cases hsound
              | some inner =>
                  rw [hfound, hroom] at hsound
                  obtain ⟨_, _, _, htail⟩ := hsound
                  obtain ⟨last, hlast⟩ := ih hrest hrestNames htail
                  exact ⟨last, pos, found, _, rfl, hfound, hlast⟩

/-- Nothing stops the scanner if every token can be taken for one and the brackets
fit into the room. -/
theorem exists_spells {pieces : List Piece} (hapart : Apart pieces)
    (hnames : ∀ token ∈ lexemes pieces, token.ValidName)
    (htokens : ∀ token ∈ lexemes pieces, token.rescan?.isSome = true) {pos : Pos}
    {room : Nat} (hroom : (roomBehindAll? room (lexemes pieces)).isSome = true) :
    ∃ last, Spells (lexemes pieces) (scanFrom pos room (piecesText pieces)) (.done last) := by
  induction pieces generalizing pos room with
  | nil => exact ⟨_, by rw [piecesText, List.flatMap_nil, scanFrom]; rfl⟩
  | cons piece rest ih =>
      obtain ⟨hpiece, hends, hrest⟩ := hapart
      rw [piecesText, List.flatMap_cons, ← piecesText]
      cases piece with
      | gap text =>
          obtain ⟨place, hplace⟩ := scanFrom_gap hpiece pos room (piecesText rest)
          rw [Piece.text, hplace]
          exact ih hrest hnames htokens hroom
      | lexeme token =>
          have hbehind : token.isMark = false → EndsToken (piecesText rest) :=
            fun hmark => endsToken_piecesText (hends hmark) hrest
          obtain ⟨found, hfound⟩ := Option.isSome_iff_exists.mp
            (htokens token List.mem_cons_self)
          cases hinner : token.roomBehind? room with
          | none =>
              simp [lexemes, roomBehindAll?, hinner] at hroom
          | some inner =>
              have hroomRest : (roomBehindAll? inner (lexemes rest)).isSome = true := by
                simpa [lexemes, roomBehindAll?, hinner] using hroom
              obtain ⟨last, hlast⟩ : ∃ last, Spells (lexemes rest)
                  (scanFrom (pos.past found.text) inner (piecesText rest)) (.done last) :=
                ih hrest (fun token hmem => hnames token (List.mem_cons_of_mem _ hmem))
                  (fun token hmem => htokens token (List.mem_cons_of_mem _ hmem)) hroomRest
              rw [Piece.text, scanFrom_token hpiece (hnames token List.mem_cons_self) hbehind,
                hfound, hinner]
              exact ⟨last, pos, found, _, rfl, hfound, hlast⟩

/-! Pieces behind each other. -/

@[simp] theorem lexemes_nil : lexemes [] = [] := rfl

@[simp] theorem lexemes_lexeme (token : Token) (rest : List Piece) :
    lexemes (.lexeme token :: rest) = token :: lexemes rest := rfl

@[simp] theorem lexemes_gap (text : List Char) (rest : List Piece) :
    lexemes (.gap text :: rest) = lexemes rest := rfl

@[simp] theorem lexemes_append (front behind : List Piece) :
    lexemes (front ++ behind) = lexemes front ++ lexemes behind :=
  List.filterMap_append

theorem lexemes_flatMap {α : Type} (pieces : α → List Piece) (items : List α) :
    lexemes (items.flatMap pieces) = items.flatMap fun item => lexemes (pieces item) := by
  induction items with
  | nil => rfl
  | cons item items ih => rw [List.flatMap_cons, lexemes_append, ih, List.flatMap_cons]

theorem opens_nil : Opens [] := by
  intro piece hpiece
  cases hpiece

theorem opens_cons {piece : Piece} (h : piece.endsToken = true) (rest : List Piece) :
    Opens (piece :: rest) := by
  intro first hfirst
  cases hfirst
  exact h

theorem Opens.append {front behind : List Piece} (hfront : Opens front)
    (hbehind : Opens behind) : Opens (front ++ behind) := by
  cases front with
  | nil => exact hbehind
  | cons piece front => exact opens_cons (hfront piece rfl) _

theorem Apart.append {front behind : List Piece} (hfront : Apart front)
    (hbehind : Apart behind) (hopens : Opens behind) : Apart (front ++ behind) := by
  induction front with
  | nil => exact hbehind
  | cons piece front ih =>
      obtain ⟨hpiece, hends, hrest⟩ := hfront
      exact ⟨hpiece, fun hplain => (hends hplain).append hopens, ih hrest⟩

/-- A piece that ends tokens, also the one in front of it. -/
theorem Apart.cons {piece : Piece} {rest : List Piece} (hpiece : piece.IsWritten)
    (hends : piece.endsToken = true) (hrest : Apart rest) : Apart (piece :: rest) :=
  ⟨hpiece, fun hplain => absurd (hends.symm.trans hplain) (by simp), hrest⟩

theorem apart_flatMap {α : Type} {pieces : α → List Piece} {items : List α}
    (hapart : ∀ item ∈ items, Apart (pieces item))
    (hopens : ∀ item ∈ items, Opens (pieces item)) :
    Apart (items.flatMap pieces) ∧ Opens (items.flatMap pieces) := by
  induction items with
  | nil => exact ⟨trivial, opens_nil⟩
  | cons item items ih =>
      rw [List.forall_mem_cons] at hapart hopens
      obtain ⟨hrest, hrestOpens⟩ := ih hapart.2 hopens.2
      exact ⟨hapart.1.append hrest hrestOpens, hopens.1.append hrestOpens⟩

namespace Layout

theorem joined_cons_cons (between first second : List Piece) (rest : List (List Piece)) :
    joined between (first :: second :: rest) =
      first ++ (between ++ joined between (second :: rest)) := by
  simp [joined, List.intercalate]

/-- Items with a gap between them. -/
theorem apart_joined {gap : List Char} (hgap : IsGap gap) {items : List (List Piece)}
    (hitems : ∀ item ∈ items, Apart item) : Apart (joined [.gap gap] items) := by
  induction items with
  | nil => trivial
  | cons first rest ih =>
      rw [List.forall_mem_cons] at hitems
      cases rest with
      | nil => simpa [joined, List.intercalate] using hitems.1
      | cons second rest =>
          rw [joined_cons_cons]
          exact hitems.1.append (.cons hgap rfl (ih hitems.2)) (opens_cons rfl _)

theorem lexemes_joined (gap : List Char) (items : List (List Piece)) :
    lexemes (joined [.gap gap] items) = items.flatMap lexemes := by
  induction items with
  | nil => rfl
  | cons first rest ih =>
      cases rest with
      | nil => simp [joined, List.intercalate]
      | cons second rest =>
          rw [joined_cons_cons, lexemes_append, List.singleton_append, lexemes_gap, ih]
          rfl

theorem isGap_space : IsGap [' '] := by
  refine ⟨by simp, ?_⟩
  intro char hchar
  exact .inl (List.mem_singleton.mp hchar)

theorem isGap_comma : IsGap [',', ' '] := by
  refine ⟨by simp, ?_⟩
  intro char hchar
  simp only [List.mem_cons, List.not_mem_nil, or_false] at hchar
  exact hchar.elim (fun h => .inr (.inl h)) .inl

theorem isGap_newLine (indent : Nat) : IsGap ('\n' :: List.replicate indent ' ') := by
  refine ⟨by simp, ?_⟩
  intro char hchar
  rcases List.mem_cons.mp hchar with rfl | hchar
  · exact .inr (.inr rfl)
  · exact .inl (List.mem_replicate.mp hchar).2

end Layout

end SchemaLoom
