import SchemaLoom.Document.Printer
import SchemaLoom.Document.ValueReader
import SchemaLoom.Token.Lexeme
import Mathlib.Data.Bool.AllAny

namespace SchemaLoom

/-! Quoted strings and numbers as they are written: the scanner takes each of them
as one token, and what it takes can be read. -/

namespace Quoted

theorem hexDigit?_of_isDigit {char : Char} (h : char.isDigit = true) :
    ∃ digit, hexDigit? char = some digit ∧ digit ≤ 9 := by
  simp only [Char.isDigit, Bool.and_eq_true, decide_eq_true_eq] at h
  refine ⟨char.toNat - '0'.toNat, if_pos ⟨h.1, h.2⟩, ?_⟩
  have hle : char.toNat ≤ '9'.toNat := h.2
  have hnine : '9'.toNat = 57 := rfl
  have hzero : '0'.toNat = 48 := rfl
  omega

/-- Four decimal places are the code of a character also when they are read as
hexadecimal ones: halves of surrogate pairs need a letter. -/
theorem codeChar?_of_isDigit {a b c d : Char} (ha : a.isDigit = true)
    (hb : b.isDigit = true) (hc : c.isDigit = true) (hd : d.isDigit = true) :
    (codeChar? [a, b, c, d]).isSome = true := by
  obtain ⟨i, hi, hile⟩ := hexDigit?_of_isDigit ha
  obtain ⟨j, hj, hjle⟩ := hexDigit?_of_isDigit hb
  obtain ⟨k, hk, hkle⟩ := hexDigit?_of_isDigit hc
  obtain ⟨l, hl, hlle⟩ := hexDigit?_of_isDigit hd
  have hplus : a ≠ '+' := by
    rintro rfl
    cases ha
  have hvalue : hexDigits? 0 [a, b, c, d] =
      some (16 * (16 * (16 * i + j) + k) + l) := by
    simp only [hexDigits?, hi, hj, hk, hl, Nat.mul_zero, Nat.zero_add]
  have hvalid : (16 * (16 * (16 * i + j) + k) + l).isValidChar := by
    left
    omega
  unfold codeChar?
  split
  · rename_i heq
    cases heq
    exact absurd rfl hplus
  · simp [hvalue, hvalid]

theorem isDigit_of_mem_paddedCode {char digit : Char} (h : digit ∈ paddedCode char) :
    digit.isDigit = true := by
  simp only [paddedCode, List.mem_append, List.mem_replicate] at h
  rcases h with ⟨_, rfl⟩ | h
  · rfl
  · exact Nat.isDigit_of_mem_toDigits (by decide) (by decide) h

theorem exists_paddedCode (char : Char) :
    ∃ a b c d more, paddedCode char = a :: b :: c :: d :: more := by
  have hlength : 4 ≤ (paddedCode char).length := by
    simp only [paddedCode, List.length_append, List.length_replicate]
    omega
  match hcode : paddedCode char with
  | a :: b :: c :: d :: more => exact ⟨a, b, c, d, more, rfl⟩
  | [] | [_] | [_, _] | [_, _, _] => simp [hcode] at hlength

theorem decode_cons {char : Char} (hchar : char ≠ '\\') (rest : List Char) :
    decode (char :: rest) = (decode rest).map (char :: ·) := by
  have hother : ∀ {tail : List Char}, char :: rest ≠ '\\' :: tail :=
    fun heq => hchar (List.cons.inj heq).1
  rw [decode.eq_def]
  split
  · contradiction
  · exact absurd ‹_› hother
  · exact absurd ‹_› hother
  · exact absurd ‹_› hother
  · rename_i heq
    cases heq
    cases decode rest <;> rfl

theorem decode_append_isSome {plain : List Char} (hplain : '\\' ∉ plain)
    {rest : List Char} (hrest : (decode rest).isSome = true) :
    (decode (plain ++ rest)).isSome = true := by
  induction plain with
  | nil => exact hrest
  | cons char plain ih =>
      simp only [List.mem_cons, not_or] at hplain
      rw [List.cons_append, decode_cons (Ne.symm hplain.1), Option.isSome_map]
      exact ih hplain.2

/-- The ways in which a character is written. -/
theorem encodeChar_cases (char : Char) :
    (∃ letter, encodeChar char = ['\\', letter] ∧ letter ≠ '\n' ∧ letter ≠ 'u' ∧
        (escapeChar? letter).isSome = true) ∨
      (encodeChar char = [char] ∧ char ≠ '"' ∧ char ≠ '\\' ∧ char ≠ '\n') ∨
      encodeChar char = '\\' :: 'u' :: paddedCode char := by
  unfold encodeChar
  split
  · exact .inl ⟨'r', rfl, by decide, by decide, rfl⟩
  · split
    · exact .inl ⟨'n', rfl, by decide, by decide, rfl⟩
    · split
      · exact .inl ⟨'t', rfl, by decide, by decide, rfl⟩
      · split
        · exact .inl ⟨'"', rfl, by decide, by decide, rfl⟩
        · split
          · exact .inl ⟨'\\', rfl, by decide, by decide, rfl⟩
          · split
            · exact .inr (.inl ⟨rfl, ‹_›, ‹_›, ‹_›⟩)
            · exact .inr (.inr rfl)

theorem exists_encodeChar (char : Char) :
    ∃ first rest, encodeChar char = first :: rest ∧ first ≠ '"' := by
  obtain ⟨letter, hchar, _⟩ | ⟨hchar, hquote, _⟩ | hchar := encodeChar_cases char
  · exact ⟨_, _, hchar, by decide⟩
  · exact ⟨_, _, hchar, hquote⟩
  · exact ⟨_, _, hchar, by decide⟩

theorem decode_encodeChar_isSome (char : Char) {rest : List Char}
    (hrest : (decode rest).isSome = true) :
    (decode (encodeChar char ++ rest)).isSome = true := by
  obtain ⟨letter, hchar, _, hletter, hescape⟩ | ⟨hchar, _, hplain, _⟩ | hchar :=
    encodeChar_cases char
  · obtain ⟨meant, hmeant⟩ := Option.isSome_iff_exists.mp hescape
    obtain ⟨text, htext⟩ := Option.isSome_iff_exists.mp hrest
    have hdecode : decode ('\\' :: letter :: rest) = some (meant :: text) := by
      rw [decode.eq_def]
      split <;> grind
    rw [hchar, List.cons_append, List.cons_append, List.nil_append, hdecode]
    rfl
  · rw [hchar]
    exact decode_append_isSome (by simpa using Ne.symm hplain) hrest
  · obtain ⟨a, b, c, d, more, hcode⟩ := exists_paddedCode char
    have hdigit : ∀ digit ∈ a :: b :: c :: d :: more, digit.isDigit = true := by
      intro digit hdigit
      rw [← hcode] at hdigit
      exact isDigit_of_mem_paddedCode hdigit
    have hmore : '\\' ∉ more := by
      intro hmem
      cases hdigit '\\' (by simp [hmem])
    obtain ⟨found, hfound⟩ := Option.isSome_iff_exists.mp
      (codeChar?_of_isDigit (hdigit a (by simp)) (hdigit b (by simp))
        (hdigit c (by simp)) (hdigit d (by simp)))
    obtain ⟨text, htext⟩ := Option.isSome_iff_exists.mp
      (decode_append_isSome hmore hrest)
    rw [hchar, hcode]
    simp only [List.cons_append, decode, hfound, htext, bind, Option.bind]
    rfl

/-- Every text can be written between quotes. -/
theorem decode_encode_isSome (text : List Char) :
    (decode (encode text)).isSome = true := by
  induction text with
  | nil => rfl
  | cons char text ih =>
      rw [encode, List.flatMap_cons]
      exact decode_encodeChar_isSome char ih

theorem decode_encodeChar_of_isPlain {char : Char} (hplain : isPlain char = true)
    {rest text : List Char} (hrest : decode rest = some text) :
    decode (encodeChar char ++ rest) = some (char :: text) := by
  by_cases hquote : char = '"'
  · subst hquote
    change decode ('\\' :: '"' :: rest) = _
    simp [decode, escapeChar?, hrest]
  · by_cases hescape : char = '\\'
    · subst hescape
      change decode ('\\' :: '\\' :: rest) = _
      simp [decode, escapeChar?, hrest]
    · have hsingle : encodeChar char = [char] := by
        have hreturn : char ≠ '\r' := by
          rintro rfl
          cases hplain
        have hfeed : char ≠ '\n' := by
          rintro rfl
          cases hplain
        have htab : char ≠ '\t' := by
          rintro rfl
          cases hplain
        simp only [encodeChar, hreturn, hfeed, htab, hquote, hescape, hplain, if_false,
          if_true]
      rw [hsingle, List.singleton_append, decode_cons hescape, hrest]
      rfl

/-- A text of characters that stand for themselves is read as it was written. -/
theorem decode_encode_of_isPlain {text : List Char}
    (hplain : ∀ char ∈ text, isPlain char = true) : decode (encode text) = some text := by
  induction text with
  | nil => rfl
  | cons char text ih =>
      obtain ⟨hchar, htext⟩ := List.forall_mem_cons.mp hplain
      rw [encode, List.flatMap_cons]
      exact decode_encodeChar_of_isPlain hchar (ih htext)

end Quoted

/-! The scanner over a quoted string. -/

theorem readQuoted_cons {char : Char} (hquote : char ≠ '"') (hline : char ≠ '\n')
    (hescape : char ≠ '\\') (rest : List Char) :
    readQuoted (char :: rest) =
      (readQuoted rest).map fun (inside, behind) => (char :: inside, behind) := by
  rw [readQuoted.eq_def]
  split <;> simp_all

theorem readQuoted_escape {letter : Char} (hline : letter ≠ '\n') (rest : List Char) :
    readQuoted ('\\' :: letter :: rest) =
      (readQuoted rest).map fun (inside, behind) =>
        ('\\' :: letter :: inside, behind) := by
  simp only [readQuoted, if_neg hline]

theorem readQuoted_append_digits {digits rest inside behind : List Char}
    (hdigits : ∀ digit ∈ digits, digit.isDigit = true)
    (hrest : readQuoted rest = some (inside, behind)) :
    readQuoted (digits ++ rest) = some (digits ++ inside, behind) := by
  induction digits with
  | nil => exact hrest
  | cons digit digits ih =>
      have hdigit := hdigits digit (by simp)
      have hne : ∀ char : Char, char.isDigit = false → digit ≠ char := by
        rintro char hchar rfl
        rw [hchar] at hdigit
        cases hdigit
      rw [List.cons_append, readQuoted_cons (hne _ rfl) (hne _ rfl) (hne _ rfl),
        ih fun digit hmem => hdigits digit (by simp [hmem])]
      rfl

theorem readQuoted_encodeChar (char : Char) {rest inside behind : List Char}
    (hrest : readQuoted rest = some (inside, behind)) :
    readQuoted (Quoted.encodeChar char ++ rest) =
      some (Quoted.encodeChar char ++ inside, behind) := by
  obtain ⟨letter, hchar, hline, _, _⟩ | ⟨hchar, hquote, hplain, hline⟩ | hchar :=
    Quoted.encodeChar_cases char
  · rw [hchar, List.cons_append, List.cons_append, List.nil_append,
      readQuoted_escape hline, hrest]
    rfl
  · rw [hchar, List.cons_append, List.nil_append, readQuoted_cons hquote hline hplain,
      hrest]
    rfl
  · rw [hchar, List.cons_append, List.cons_append, readQuoted_escape (by decide),
      readQuoted_append_digits (fun digit => Quoted.isDigit_of_mem_paddedCode) hrest]
    rfl

theorem readQuoted_encode (text behind : List Char) :
    readQuoted (Quoted.encode text ++ '"' :: behind) =
      some (Quoted.encode text, behind) := by
  induction text with
  | nil => rfl
  | cons char text ih =>
      rw [Quoted.encode, List.flatMap_cons, List.append_assoc]
      exact readQuoted_encodeChar char ih

/-! Texts of numbers, and what has to follow a token so that the scanner stops
there. -/

def NumberShaped : List Char → Prop
  | [] => False
  | first :: rest =>
      (first = '-' ∨ first.isDigit = true) ∧ ∀ char ∈ rest, endsNumber char = false

/-- A blank, a mark or nothing. -/
def EndsToken (behind : List Char) : Prop :=
  ∀ char, behind.head? = some char → endsNumber char = true

theorem plain_of_endsNumber {char : Char} (h : endsNumber char = true) :
    char.isDigit = false ∧ isNameRest char = false :=
  List.all_iff_forall_prop (p := fun char => char.isDigit = false ∧ isNameRest char = false)
    |>.mp (by decide) char (List.contains_iff_mem.mp h)

theorem endsNumber_eq_false_of_isDigit {char : Char} (h : char.isDigit = true) :
    endsNumber char = false := by
  cases hends : endsNumber char with
  | false => rfl
  | true =>
      rw [(plain_of_endsNumber hends).1] at h
      cases h

theorem isNameRest_eq_false_of_endsNumber {char : Char} (h : endsNumber char = true) :
    isNameRest char = false :=
  (plain_of_endsNumber h).2

theorem takeWhile_append_of_endsToken {stops : Char → Bool} {text behind : List Char}
    (htext : ∀ char ∈ text, stops char = false)
    (hbehind : ∀ char, behind.head? = some char → stops char = true) :
    (text ++ behind).takeWhile (!stops ·) = text ∧
      (text ++ behind).dropWhile (!stops ·) = behind := by
  have hall : ∀ char ∈ text, (!stops char) = true := by
    intro char hchar
    rw [htext char hchar]
    rfl
  rw [List.takeWhile_append_of_pos hall, List.dropWhile_append_of_pos hall]
  cases behind with
  | nil => simp
  | cons char rest =>
      have hstop := hbehind char rfl
      simp [hstop]

theorem readToken_eq_readWord {char : Char} (hquote : char ≠ '"') (hpoint : char ≠ '.')
    (rest : List Char) : readToken (char :: rest) = readWord char rest := by
  rw [readToken.eq_def]
  split <;> simp_all

theorem ne_of_isDigit {char other : Char} (hchar : char.isDigit = true)
    (hother : other.isDigit = false) : char ≠ other := by
  rintro rfl
  rw [hchar] at hother
  cases hother

theorem isNameStart_eq_false_of_isDigit {char : Char} (h : char.isDigit = true) :
    isNameStart char = false := by
  have hbound : char.val.toNat ≤ 57 := (Char.isDigit_iff_toNat.mp h).2
  have hunderscore : char ≠ '_' := ne_of_isDigit h rfl
  have hupper : char.isUpper = false := decide_eq_false fun hrange => by
    have hlow : 65 ≤ char.val.toNat := UInt32.le_iff_toNat_le.mp hrange.1
    omega
  have hlower : char.isLower = false := Bool.and_eq_false_iff.mpr <| .inl <|
    decide_eq_false fun hrange => by
      have hlow : 97 ≤ char.val.toNat := UInt32.le_iff_toNat_le.mp hrange
      omega
  have halpha : char.isAlpha = false := Bool.or_eq_false_iff.mpr ⟨hupper, hlower⟩
  simp [isNameStart, hunderscore, halpha]

theorem readToken_of_shape {text behind : List Char} (hshape : NumberShaped text)
    (hbehind : EndsToken behind) :
    readToken (text ++ behind) = (numberToken? text).map (·, behind) := by
  cases text with
  | nil => exact hshape.elim
  | cons first rest =>
      obtain ⟨hfirst, hrest⟩ := hshape
      obtain ⟨htake, hdrop⟩ := takeWhile_append_of_endsToken hrest hbehind
      have hstart : isNameStart first = false := by
        rcases hfirst with rfl | hfirst
        · rfl
        · exact isNameStart_eq_false_of_isDigit hfirst
      have hnumber : (first == '-' || first.isDigit) = true := by
        simpa using hfirst
      have hplain : ∀ char : Char, char ≠ '-' → char.isDigit = false → first ≠ char := by
        rintro char hsign hdigit rfl
        rcases hfirst with hfirst | hfirst
        · exact hsign hfirst
        · exact ne_of_isDigit hfirst hdigit rfl
      rw [List.cons_append, readToken_eq_readWord (hplain _ (by decide) rfl)
        (hplain _ (by decide) rfl)]
      simp only [readWord, hstart, hnumber, htake, hdrop, Bool.false_eq_true, if_false,
        if_true]

theorem readToken_name {text behind : List Char} (hname : isName text = true)
    (hbehind : EndsToken behind) :
    readToken (text ++ behind) = some (.name text, behind) := by
  cases text with
  | nil => cases hname
  | cons first rest =>
      simp only [isName, Bool.and_eq_true, List.all_eq_true] at hname
      have hends : ∀ char, behind.head? = some char → (!isNameRest char) = true := by
        intro char hchar
        rw [isNameRest_eq_false_of_endsNumber (hbehind char hchar)]
        rfl
      have hrest : ∀ char ∈ rest, (!isNameRest char) = false := by
        intro char hchar
        rw [hname.2 char hchar]
        rfl
      obtain ⟨htake, hdrop⟩ := takeWhile_append_of_endsToken hrest hends
      simp only [Bool.not_not] at htake hdrop
      have hplain : ∀ char : Char, isNameStart char = false → first ≠ char := by
        rintro char hchar rfl
        rw [hname.1] at hchar
        cases hchar
      rw [List.cons_append, readToken_eq_readWord (hplain _ (by decide)) (hplain _ (by decide))]
      simp only [readWord, hname.1, if_true, htake, hdrop]

theorem readToken_mark {sign : Mark} (hsign : sign ≠ .spread) (behind : List Char) :
    readToken (sign.text ++ behind) = some (.mark sign, behind) := by
  cases sign with
  | spread => exact absurd rfl hsign
  | _ => rfl

theorem readToken_quoted (text : List Char) {behind : List Char}
    (hbehind : EndsToken behind) :
    readToken ((Token.quoted (Quoted.encode text)).text ++ behind) =
      some (.quoted (Quoted.encode text), behind) := by
  have hread := readQuoted_encode text behind
  -- Three quotes in a row would start a block.
  have hopens : ∀ rest, Quoted.encode text ++ '"' :: behind ≠ '"' :: '"' :: rest := by
    intro rest heq
    cases text with
    | nil =>
        simp only [Quoted.encode, List.flatMap_nil, List.nil_append, List.cons.injEq,
          true_and] at heq
        cases hbehind '"' (by rw [heq]; rfl)
    | cons char text =>
        obtain ⟨first, more, hchar, hquote⟩ := Quoted.exists_encodeChar char
        rw [Quoted.encode, List.flatMap_cons, hchar] at heq
        simp only [List.cons_append, List.cons.injEq] at heq
        exact hquote heq.1
  have htoken : readToken ('"' :: (Quoted.encode text ++ '"' :: behind)) =
      (readQuoted (Quoted.encode text ++ '"' :: behind)).map
        fun (inside, behind) => (.quoted inside, behind) := by
    rw [readToken.eq_def]
    split <;> grind
  rw [hread] at htoken
  rw [Token.text, List.append_assoc, List.cons_append]
  exact htoken

/-! Integers are written without zeros in front, so they are read as they were. -/

theorem exists_toDigits {value : Nat} (h : 0 < value) :
    ∃ first rest, Nat.toDigits 10 value = first :: rest ∧ first ≠ '0' := by
  induction value using Nat.base_induction 10 (by decide) with
  | single digit hdigit =>
      refine ⟨digit.digitChar, [], Nat.toDigits_of_lt_base hdigit, ?_⟩
      revert h
      revert digit
      decide
  | digit upper digit hdigit hupper ih =>
      obtain ⟨first, rest, hupperDigits, hfirst⟩ := ih hupper
      refine ⟨first, rest ++ Nat.toDigits 10 digit, ?_, hfirst⟩
      rw [← Nat.toDigits_append_toDigits (by decide) hupper hdigit, hupperDigits]
      rfl

theorem isDigit_of_mem_toDigits {value : Nat} {digit : Char}
    (h : digit ∈ Nat.toDigits 10 value) : digit.isDigit = true :=
  Nat.isDigit_of_mem_toDigits (by decide) (by decide) h

theorem isIntText_cons {first : Char} {rest : List Char} (hfirst : first.isDigit = true)
    (hzero : first ≠ '0') (hrest : ∀ digit ∈ rest, digit.isDigit = true) :
    isIntText (first :: rest) = true := by
  have hsign : first ≠ '-' := ne_of_isDigit hfirst rfl
  have hall := List.all_eq_true.mpr hrest
  rw [isIntText.eq_def]
  split <;> grind

theorem isIntText_toDigits (value : Nat) : isIntText (Nat.toDigits 10 value) = true := by
  rcases Nat.eq_zero_or_pos value with rfl | hpos
  · rfl
  · obtain ⟨first, rest, hdigits, hfirst⟩ := exists_toDigits hpos
    have hdigit : ∀ digit ∈ first :: rest, digit.isDigit = true := by
      rw [← hdigits]
      exact fun digit => isDigit_of_mem_toDigits
    rw [List.forall_mem_cons] at hdigit
    rw [hdigits]
    exact isIntText_cons hdigit.1 hfirst hdigit.2

theorem isIntText_negate {text : List Char} (h : isIntText text = true)
    (hdigits : ∀ digit ∈ text, digit.isDigit = true) : isIntText ('-' :: text) = true := by
  have hall := List.all_eq_true.mpr hdigits
  rw [isIntText.eq_def] at h ⊢
  split <;> grind

theorem isIntText_intText (value : Int) : isIntText (Layout.intText value) = true := by
  unfold Layout.intText
  split
  · exact isIntText_negate (isIntText_toDigits _) fun digit => isDigit_of_mem_toDigits
  · exact isIntText_toDigits value.natAbs

theorem intText_shape (value : Int) : NumberShaped (Layout.intText value) := by
  have hdigits : ∀ digit ∈ Nat.toDigits 10 value.natAbs, digit.isDigit = true :=
    fun digit => isDigit_of_mem_toDigits
  unfold Layout.intText
  split
  · exact ⟨.inl rfl, fun digit hdigit =>
      endsNumber_eq_false_of_isDigit (hdigits digit hdigit)⟩
  · cases htext : Nat.toDigits 10 value.natAbs with
    | nil => exact absurd htext Nat.toDigits_ne_nil
    | cons first rest =>
        rw [htext] at hdigits
        exact ⟨.inr (hdigits first (by simp)), fun digit hdigit =>
          endsNumber_eq_false_of_isDigit (hdigits digit (by simp [hdigit]))⟩

theorem numberToken?_intText (value : Int) :
    numberToken? (Layout.intText value) = some (.int (Layout.intText value)) :=
  if_pos (isIntText_intText value)

theorem digitsValue_toDigits (value : Nat) :
    Binary64.digitsValue (Nat.toDigits 10 value) = value :=
  Nat.ofDigitChars_ten_toDigits

theorem ofIntText?_intText (value : Int) :
    Value.ofIntText? (Layout.intText value) =
      if Value.intInRange value then some (.int value) else none := by
  have hfilter : (Nat.toDigits 10 value.natAbs).filter Char.isDigit =
      Nat.toDigits 10 value.natAbs :=
    List.filter_eq_self.mpr fun digit => isDigit_of_mem_toDigits
  unfold Value.ofIntText? Layout.intText
  split
  · rename_i hnegative
    have hvalue : -(value.natAbs : Int) = value := by omega
    have hsign : ('-' :: Nat.toDigits 10 value.natAbs).filter Char.isDigit =
        Nat.toDigits 10 value.natAbs := hfilter
    simp only [hsign, digitsValue_toDigits, hvalue, List.head?_cons, if_true]
  · rename_i hnegative
    have hvalue : (value.natAbs : Int) = value := by omega
    have hsign : (Nat.toDigits 10 value.natAbs).head? ≠ some '-' := by
      intro hhead
      cases isDigit_of_mem_toDigits (List.mem_of_head? hhead)
    simp only [hfilter, digitsValue_toDigits, hvalue, if_neg hsign]

/-! Doubles are written as numbers, apart from two that are written as names. -/

def IsNumberChar (char : Char) : Prop :=
  char.isDigit = true ∨ char = '.'

theorem IsNumberChar.endsNumber_eq_false {char : Char} (h : IsNumberChar char) :
    endsNumber char = false := by
  rcases h with h | rfl
  · exact endsNumber_eq_false_of_isDigit h
  · rfl

theorem isFractionText_iff {text : List Char} :
    isFractionText text = true ↔ text ≠ [] ∧ ∀ digit ∈ text, digit.isDigit = true := by
  simp [isFractionText]

/-- With digits behind the point, at least one stands in front of it. -/
theorem exists_fraction (digits : Nat) {place : Int} (hplace : place < 0) :
    ∃ whole fraction, Binary64.positional digits place = whole ++ '.' :: fraction ∧
      isIntText whole = true ∧ (∀ digit ∈ whole, digit.isDigit = true) ∧
        isFractionText fraction = true := by
  have hdigits : ∀ digit ∈ Nat.toDigits 10 digits, digit.isDigit = true :=
    fun digit => isDigit_of_mem_toDigits
  have hzero : digits = 0 → (Nat.toDigits 10 digits).length = 1 := by
    rintro rfl
    rfl
  obtain ⟨count, hcount⟩ : ∃ count, (-place).toNat = count + 1 :=
    ⟨(-place).toNat - 1, by omega⟩
  simp only [Binary64.positional, if_pos hplace, hcount]
  by_cases hshort : (Nat.toDigits 10 digits).length ≤ count + 1
  · -- Zeros are put in front until one digit is left there.
    obtain ⟨zeros, hzeros⟩ : ∃ zeros,
        count + 1 + 1 - (Nat.toDigits 10 digits).length = zeros + 1 :=
      ⟨count + 1 - (Nat.toDigits 10 digits).length, by omega⟩
    have hlength : (List.replicate (zeros + 1) '0' ++ Nat.toDigits 10 digits).length -
        (count + 1) = 1 := by
      rw [List.length_append, List.length_replicate]
      omega
    refine ⟨['0'], List.replicate zeros '0' ++ Nat.toDigits 10 digits, ?_, rfl,
      List.forall_mem_singleton.mpr rfl, ?_⟩
    · rw [hzeros, hlength]
      rfl
    · refine isFractionText_iff.mpr ⟨by simp [Nat.toDigits_ne_nil], ?_⟩
      intro digit hdigit
      rcases List.mem_append.mp hdigit with hdigit | hdigit
      · rw [(List.mem_replicate.mp hdigit).2]
        rfl
      · exact hdigits digit hdigit
  · have hpos : 0 < digits := by
      rcases Nat.eq_zero_or_pos digits with hdigit | hpos
      · have hlength := hzero hdigit
        omega
      · exact hpos
    obtain ⟨first, rest, hwritten, hfirst⟩ := exists_toDigits hpos
    obtain ⟨front, hfront⟩ : ∃ front,
        (Nat.toDigits 10 digits).length - (count + 1) = front + 1 :=
      ⟨(Nat.toDigits 10 digits).length - (count + 1) - 1, by omega⟩
    have hnone : count + 1 + 1 - (Nat.toDigits 10 digits).length = 0 := by omega
    rw [hnone, List.replicate_zero, List.nil_append, hfront]
    rw [hwritten] at hfront ⊢
    rw [hwritten, List.forall_mem_cons] at hdigits
    rw [List.length_cons] at hfront
    refine ⟨first :: rest.take front, rest.drop front, rfl, ?_, ?_, ?_⟩
    · exact isIntText_cons hdigits.1 hfirst fun digit hdigit =>
        hdigits.2 digit (List.mem_of_mem_take hdigit)
    · exact List.forall_mem_cons.mpr ⟨hdigits.1, fun digit hdigit =>
        hdigits.2 digit (List.mem_of_mem_take hdigit)⟩
    · refine isFractionText_iff.mpr ⟨?_, fun digit hdigit =>
        hdigits.2 digit (List.mem_of_mem_drop hdigit)⟩
      rw [Ne, List.drop_eq_nil_iff]
      omega

/-- Digits in place, with at least one in front of the point. -/
theorem exists_positional (digits : Nat) (place : Int) :
    ∃ first rest, Binary64.positional digits place = first :: rest ∧
      first.isDigit = true ∧ ∀ char ∈ rest, IsNumberChar char := by
  by_cases hplace : place < 0
  · obtain ⟨whole, fraction, htext, hint, hwhole, hfraction⟩ := exists_fraction digits hplace
    cases whole with
    | nil => cases hint
    | cons first whole =>
        rw [List.forall_mem_cons] at hwhole
        refine ⟨first, whole ++ '.' :: fraction, htext, hwhole.1, ?_⟩
        intro char hchar
        rw [List.mem_append, List.mem_cons] at hchar
        rcases hchar with hchar | rfl | hchar
        · exact .inl (hwhole.2 char hchar)
        · exact .inr rfl
        · exact .inl ((isFractionText_iff.mp hfraction).2 char hchar)
  · cases hwritten : Nat.toDigits 10 digits with
    | nil => exact absurd hwritten Nat.toDigits_ne_nil
    | cons first rest =>
        have hdigits : ∀ digit ∈ first :: rest, digit.isDigit = true := by
          rw [← hwritten]
          exact fun digit => isDigit_of_mem_toDigits
        rw [List.forall_mem_cons] at hdigits
        refine ⟨first, rest ++ List.replicate place.toNat '0', ?_, hdigits.1, ?_⟩
        · simp only [Binary64.positional, if_neg hplace, hwritten, List.cons_append]
        · intro char hchar
          rw [List.mem_append, List.mem_replicate] at hchar
          rcases hchar with hchar | ⟨_, rfl⟩
          · exact .inl (hdigits.2 char hchar)
          · exact .inl rfl

theorem signed_shape (negative : Bool) {text : List Char} {first : Char} {rest : List Char}
    (htext : text = first :: rest) (hfirst : first.isDigit = true)
    (hrest : ∀ char ∈ rest, IsNumberChar char) :
    NumberShaped (Binary64.signed negative text) := by
  subst htext
  cases negative with
  | false => exact ⟨.inr hfirst, fun char hchar => (hrest char hchar).endsNumber_eq_false⟩
  | true =>
      refine ⟨.inl rfl, ?_⟩
      intro char hchar
      rcases List.mem_cons.mp hchar with rfl | hchar
      · exact endsNumber_eq_false_of_isDigit hfirst
      · exact (hrest char hchar).endsNumber_eq_false

theorem toText_cases (value : Binary64) :
    isName value.toText = true ∨ NumberShaped value.toText := by
  cases value with
  | nan => exact .inl rfl
  | infinite negative =>
      cases negative with
      | false => exact .inl rfl
      | true => exact .inr ⟨.inl rfl, List.all_iff_forall_prop.mp (by decide)⟩
  | finite negative significand exponent =>
      right
      cases significand with
      | zero => exact signed_shape negative rfl rfl (by simp)
      | succ significand =>
          obtain ⟨first, rest, htext, hfirst, hrest⟩ := exists_positional
            (Binary64.rounding (significand + 1) exponent).shortest.1
            (Binary64.rounding (significand + 1) exponent).shortest.2
          exact signed_shape negative htext hfirst hrest

theorem isName_eq_false_of_shape {text : List Char} (h : NumberShaped text) :
    isName text = false := by
  cases text with
  | nil => exact h.elim
  | cons first rest =>
      have hstart : isNameStart first = false := by
        rcases h.1 with rfl | hfirst
        · rfl
        · exact isNameStart_eq_false_of_isDigit hfirst
      simp [isName, hstart]

end SchemaLoom
