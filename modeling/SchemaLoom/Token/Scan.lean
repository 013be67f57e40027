import SchemaLoom.Token.Lexeme

namespace SchemaLoom

/-! From text to tokens.  Between tokens the scanner passes over blanks, commas,
byte-order marks and comments. -/

mutual

/-- A tab takes eight columns; a byte-order mark or a carriage return none. -/
def skipBlanks (pos : Pos) : List Char → Pos × List Char
  | [] => (pos, [])
  | char :: rest =>
      if char = '\ufeff' ∨ char = '\r' then skipBlanks pos rest
      else if char = '\t' then skipBlanks (pos.right 8) rest
      else if char = '\n' then skipBlanks pos.newLine rest
      else if char = ' ' ∨ char = ',' then skipBlanks (pos.right 1) rest
      else if char = '#' then skipComment pos rest
      else (pos, char :: rest)

/-- A comment ends with a carriage return or a line feed, whichever comes first,
and the next line starts there. -/
def skipComment (pos : Pos) : List Char → Pos × List Char
  | [] => (pos, [])
  | char :: rest =>
      if char = '\r' ∨ char = '\n' then skipBlanks pos.newLine rest
      else skipComment pos rest

end

mutual

theorem length_skipBlanks_le (pos : Pos) (text : List Char) :
    (skipBlanks pos text).2.length ≤ text.length := by
  cases text with
  | nil => simp [skipBlanks]
  | cons char rest =>
      have hblank := fun pos => length_skipBlanks_le pos rest
      have hcomment := length_skipComment_le pos rest
      simp only [skipBlanks]
      split
      · exact Nat.le_succ_of_le (hblank _)
      · split
        · exact Nat.le_succ_of_le (hblank _)
        · split
          · exact Nat.le_succ_of_le (hblank _)
          · split
            · exact Nat.le_succ_of_le (hblank _)
            · split
              · exact Nat.le_succ_of_le hcomment
              · exact Nat.le_refl _

theorem length_skipComment_le (pos : Pos) (text : List Char) :
    (skipComment pos text).2.length ≤ text.length := by
  cases text with
  | nil => simp [skipComment]
  | cons char rest =>
      simp only [skipComment]
      split
      · exact Nat.le_succ_of_le (length_skipBlanks_le _ rest)
      · exact Nat.le_succ_of_le (length_skipComment_le pos rest)

end

/-- How many brackets may be open at once. -/
def bracketLimit : Nat := 50

/-- The brackets that may still be opened behind a token; `none` if it opens one
too many. -/
def Token.roomBehind? (room : Nat) : Token → Option Nat
  | .mark .openParen | .mark .openBracket | .mark .openBrace =>
      if room = 0 then none else some (room - 1)
  | .mark .closeParen | .mark .closeBracket | .mark .closeBrace => some (room + 1)
  | _ => some room

def scanFrom (pos : Pos) (room : Nat) (text : List Char) : Tokens :=
  let skipped := skipBlanks pos text
  if skipped.2.isEmpty then .done skipped.1
  else
    match _ : readToken skipped.2 with
    | none => .broken skipped.1
    | some (token, behind) =>
        match token.roomBehind? room with
        | none => .broken skipped.1
        | some room =>
            .next skipped.1 token (scanFrom (skipped.1.past token.text) room behind)
termination_by text.length
decreasing_by
  exact Nat.lt_of_lt_of_le (length_lt_of_readToken ‹_›)
    (length_skipBlanks_le pos text)

/-- The tokens of a whole text. -/
def scan (text : List Char) : Tokens :=
  scanFrom .start bracketLimit text

end SchemaLoom
