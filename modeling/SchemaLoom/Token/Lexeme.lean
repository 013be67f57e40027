import SchemaLoom.Text.Character
import SchemaLoom.Token.Basic

namespace SchemaLoom

/-! The first token of a text that starts with one.  What is left behind it is
shorter than the text. -/

/-! Numbers run up to a blank or a mark.  The last point and the last exponent
mark divide them; an exponent starts with a sign or one of the digits 1 to 8. -/

def endsNumber (char : Char) : Bool :=
  " \n\r\t,#!$:=@|&()[]\x7b\x7d".toList.contains char

def isIntText : List Char → Bool
  | [] => false
  | ['-'] => false
  | ['0'] => true
  | ['-', '0'] => true
  | '0' :: _ => false
  | '-' :: '0' :: _ => false
  | _ :: rest => rest.all Char.isDigit

def isFractionText (text : List Char) : Bool :=
  !text.isEmpty && text.all Char.isDigit

def isExponentText : List Char → Bool
  | [] => false
  | first :: rest =>
      (first == '+' || first == '-' || ('1' ≤ first && first ≤ '8')) &&
        rest.all Char.isDigit

/-- The parts before and behind the last character of a kind. -/
def splitLast? (found : Char → Bool) : List Char → Option (List Char × List Char)
  | [] => none
  | char :: rest =>
      match splitLast? found rest with
      | some (before, behind) => some (char :: before, behind)
      | none => if found char then some ([], rest) else none

def isExponentMark (char : Char) : Bool :=
  char == 'e' || char == 'E'

def isSignificandText (text : List Char) : Bool :=
  match splitLast? (· == '.') text with
  | some (whole, fraction) => isIntText whole && isFractionText fraction
  | none => isIntText text

def isFloatText (text : List Char) : Bool :=
  match splitLast? isExponentMark text with
  | some (significand, exponent) =>
      isSignificandText significand && isExponentText exponent
  | none => text.contains '.' && isSignificandText text

def numberToken? (text : List Char) : Option Token :=
  if isIntText text then some (.int text)
  else if isFloatText text then some (.float text)
  else none

/-! Strings.  A quoted one ends at the next quote that no backslash escapes, on
the same line; a block ends at the next triple quote without a backslash in
front. -/

def readQuoted : List Char → Option (List Char × List Char)
  | [] => none
  | '"' :: rest => some ([], rest)
  | '\n' :: _ => none
  | '\\' :: escaped :: rest =>
      if escaped = '\n' then none
      else (readQuoted rest).map fun (inside, behind) =>
        ('\\' :: escaped :: inside, behind)
  | char :: rest =>
      (readQuoted rest).map fun (inside, behind) => (char :: inside, behind)

def readBlock : List Char → Option (List Char × List Char)
  | [] => none
  | '"' :: '"' :: '"' :: rest => some ([], rest)
  | '\\' :: '"' :: '"' :: '"' :: rest =>
      (readBlock rest).map fun (inside, behind) =>
        ('\\' :: '"' :: '"' :: '"' :: inside, behind)
  | char :: rest =>
      (readBlock rest).map fun (inside, behind) => (char :: inside, behind)

def readWord (char : Char) (rest : List Char) : Option (Token × List Char) :=
  if isNameStart char then
    some (.name (char :: rest.takeWhile isNameRest), rest.dropWhile isNameRest)
  else if char == '-' || char.isDigit then
    (numberToken? (char :: rest.takeWhile (!endsNumber ·))).map
      (·, rest.dropWhile (!endsNumber ·))
  else
    (Mark.ofChar? char).map (.mark ·, rest)

/-- The token that a text starts with, and the text behind it. -/
def readToken : List Char → Option (Token × List Char)
  | [] => none
  | '"' :: '"' :: '"' :: rest =>
      (readBlock rest).map fun (inside, behind) => (.block inside, behind)
  | '"' :: rest =>
      (readQuoted rest).map fun (inside, behind) => (.quoted inside, behind)
  | '.' :: '.' :: '.' :: rest => some (.mark .spread, rest)
  | char :: rest => readWord char rest

theorem readQuoted_eq {text inside behind : List Char}
    (h : readQuoted text = some (inside, behind)) :
    text = inside ++ '"' :: behind := by
  fun_induction readQuoted text generalizing inside with
  | case1 => cases h
  | case2 => cases h; rfl
  | case3 => cases h
  | case4 => cases h
  | case5 escaped rest _ ih =>
      obtain ⟨⟨tail, found⟩, hread, heq⟩ := Option.map_eq_some_iff.mp h
      cases heq
      simp [ih hread]
  | case6 char rest _ _ _ ih =>
      obtain ⟨⟨tail, found⟩, hread, heq⟩ := Option.map_eq_some_iff.mp h
      cases heq
      simp [ih hread]

theorem readBlock_eq {text inside behind : List Char}
    (h : readBlock text = some (inside, behind)) :
    text = inside ++ tripleQuote ++ behind := by
  fun_induction readBlock text generalizing inside with
  | case1 => cases h
  | case2 => cases h; rfl
  | case3 rest ih =>
      obtain ⟨⟨tail, found⟩, hread, heq⟩ := Option.map_eq_some_iff.mp h
      cases heq
      simp [ih hread]
  | case4 char rest _ _ ih =>
      obtain ⟨⟨tail, found⟩, hread, heq⟩ := Option.map_eq_some_iff.mp h
      cases heq
      simp [ih hread]

private theorem length_le_of_readWord {char : Char} {rest behind : List Char}
    {token : Token} (h : readWord char rest = some (token, behind)) :
    behind.length ≤ rest.length := by
  unfold readWord at h
  split at h
  · cases h
    exact (List.dropWhile_suffix _).length_le
  · split at h
    · obtain ⟨number, _, heq⟩ := Option.map_eq_some_iff.mp h
      cases heq
      exact (List.dropWhile_suffix _).length_le
    · obtain ⟨sign, _, heq⟩ := Option.map_eq_some_iff.mp h
      cases heq
      exact Nat.le_refl _

theorem length_lt_of_readToken {text behind : List Char} {token : Token}
    (h : readToken text = some (token, behind)) :
    behind.length < text.length := by
  unfold readToken at h
  split at h
  · cases h
  · obtain ⟨⟨inside, found⟩, hread, heq⟩ := Option.map_eq_some_iff.mp h
    cases heq
    have hlength := congrArg List.length (readBlock_eq hread)
    simp only [List.length_append, List.length_cons] at hlength ⊢
    omega
  · obtain ⟨⟨inside, found⟩, hread, heq⟩ := Option.map_eq_some_iff.mp h
    cases heq
    have hlength := congrArg List.length (readQuoted_eq hread)
    simp only [List.length_append, List.length_cons] at hlength ⊢
    omega
  · cases h
    simp only [List.length_cons]
    omega
  · exact Nat.lt_succ_of_le (length_le_of_readWord h)

end SchemaLoom
