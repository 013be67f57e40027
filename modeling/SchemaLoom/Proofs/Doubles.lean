import SchemaLoom.Document.ValueReader
import SchemaLoom.Proofs.Literals
import Mathlib.Algebra.Order.Ring.Nat
import Mathlib.Data.List.TakeWhile

namespace SchemaLoom.Binary64

/-! Doubles that can be read from their text.  The text of a double has a point in it
or is that of a whole number; the first is read as a double again, the second as an
integer, which has to be in range. -/

/-! The shortest decimal of a double above zero is above zero. -/

namespace Rounding

variable {interval : Rounding}

theorem contains_zero (h : 0 < interval.low) : interval.contains 0 = false := by
  unfold contains
  split <;> simp [Nat.pos_iff_ne_zero.mp h]

theorem onGrid_low (h : 0 < interval.low) (place : Int) : 0 < (interval.onGrid place).low := by
  unfold onGrid
  split
  · exact Nat.mul_pos h (Nat.pow_pos (by decide))
  · exact h

theorem neighbour?_pos (h : 0 < interval.low) {place : Int} {digits : Nat}
    (hdigits : interval.neighbour? place = some digits) : 0 < digits := by
  have hzero := contains_zero (onGrid_low h place)
  unfold neighbour? at hdigits
  dsimp only at hdigits
  generalize (interval.onGrid place).number / (interval.onGrid place).denominator = floor
    at hdigits
  cases floor with
  | zero =>
      rw [hzero] at hdigits
      split at hdigits <;> simp_all
      omega
  | succ floor =>
      split at hdigits
      · split at hdigits <;> cases hdigits <;> omega
      · cases hdigits
        omega
      · cases hdigits
        omega
      · cases hdigits

/-- The last grid is so fine that the search may end there. -/
theorem search_pos (hlow : 0 < interval.low) {steps : Nat} {place : Int}
    (hlast : interval.denominator ≤ (interval.onGrid (place - steps)).number)
    (hdenominator : 0 < interval.denominator) :
    0 < (interval.search steps place).1 := by
  induction steps generalizing place with
  | zero =>
      rw [Int.natCast_zero, Int.sub_zero] at hlast
      exact Nat.div_pos hlast hdenominator
  | succ steps ih =>
      unfold search
      split
      · rename_i digits hdigits
        exact neighbour?_pos hlow hdigits
      · refine ih ?_
        rwa [show place - 1 - (steps : Int) = place - (steps + 1 : Nat) by omega]

end Rounding

theorem two_pow_le_ten_pow {twos tens : Nat} (hlog : 2 ^ twos ≤ 10 ^ tens) (htwos : twos ≠ 0)
    {bits place : Nat} (h : tens * bits ≤ twos * place) : 2 ^ bits ≤ 10 ^ place := by
  rw [← Nat.pow_le_pow_iff_left htwos]
  calc
    (2 ^ bits) ^ twos = (2 ^ twos) ^ bits := by rw [← Nat.pow_mul, ← Nat.pow_mul, Nat.mul_comm]
    _ ≤ (10 ^ tens) ^ bits := Nat.pow_le_pow_left hlog bits
    _ = 10 ^ (tens * bits) := (Nat.pow_mul ..).symm
    _ ≤ 10 ^ (twos * place) := Nat.pow_le_pow_right (by decide) h
    _ = (10 ^ place) ^ twos := by rw [← Nat.pow_mul, Nat.mul_comm]

/-- The last place of the search is below the number. -/
theorem Rounding.denominator_le_onGrid {interval : Rounding} (hnumber : interval.number ≠ 0) :
    interval.denominator ≤ (interval.onGrid (interval.topPlace - (24 : Nat))).number := by
  have hlow : 2 ^ interval.number.log2 ≤ interval.number := Nat.log2_self_le hnumber
  have hhigh : interval.denominator < 2 ^ (interval.denominator.log2 + 1) := Nat.lt_log2_self
  unfold Rounding.onGrid Rounding.topPlace
  generalize interval.number.log2 = upper at hlow
  generalize interval.denominator.log2 = lower at hhigh
  by_cases hwide : lower + 1 ≤ upper
  · -- The number is at least one.
    have hone : interval.denominator ≤ interval.number :=
      (hhigh.le.trans (Nat.pow_le_pow_right (by decide) hwide)).trans hlow
    split
    · exact hone.trans (Nat.le_mul_of_pos_right _ (Nat.pow_pos (by decide)))
    · exact hone
  · -- The number is below one, and the place far enough behind the point.
    have hlog : 2 ^ 100000 ≤ 10 ^ 30103 := by decide +kernel
    dsimp only
    rw [if_pos (by omega)]
    have hplaces : 2 ^ (lower + 1 - upper) ≤
        10 ^ (-(((upper : Int) + 1 - lower) * 30103 / 100000 + 2 - (24 : Nat))).toNat :=
      two_pow_le_ten_pow hlog (by decide) (by omega)
    calc
      interval.denominator ≤ 2 ^ (upper + (lower + 1 - upper)) := by
        rw [Nat.add_sub_cancel' (by omega)]
        exact hhigh.le
      _ = 2 ^ upper * 2 ^ (lower + 1 - upper) := Nat.pow_add ..
      _ ≤ _ := Nat.mul_le_mul hlow hplaces

theorem scale_pos (exponent : Int) :
    0 < (scale 1 1 exponent).1 ∧ 0 < (scale 1 1 exponent).2 := by
  unfold scale
  split
  · exact ⟨by simp, by simp⟩
  · exact ⟨by simp, by simp⟩

theorem shortest_pos {significand : Nat} (h : significand ≠ 0) (exponent : Int) :
    0 < (rounding significand exponent).shortest.1 := by
  obtain ⟨hfactor, hdenominator⟩ := scale_pos (2 - exponent)
  have hlow : 0 < (rounding significand exponent).low := by
    refine Nat.mul_pos ?_ hfactor
    split <;> omega
  have hnumber : (rounding significand exponent).number ≠ 0 :=
    (Nat.mul_pos (by omega) hfactor).ne'
  exact Rounding.search_pos hlow (Rounding.denominator_le_onGrid hnumber) hdenominator

/-! Numbers with a point. -/

theorem splitLast?_eq_none {found : Char → Bool} {text : List Char}
    (h : ∀ char ∈ text, found char = false) : splitLast? found text = none := by
  induction text with
  | nil => rfl
  | cons char text ih =>
      rw [List.forall_mem_cons] at h
      simp [splitLast?, ih h.2, h.1]

theorem splitLast?_append {found : Char → Bool} {char : Char} (hchar : found char = true)
    (before : List Char) {behind : List Char} (hbehind : ∀ char ∈ behind, found char = false) :
    splitLast? found (before ++ char :: behind) = some (before, behind) := by
  induction before with
  | nil => simp [splitLast?, splitLast?_eq_none hbehind, hchar]
  | cons first before ih => simp [splitLast?, ih]

theorem all_isDigit_of_isIntText {first : Char} {rest : List Char}
    (h : isIntText (first :: rest) = true) : ∀ digit ∈ rest, digit.isDigit = true := by
  rw [← List.all_eq_true]
  rw [isIntText.eq_def] at h
  split at h <;> grind

theorem isExponentMark_of_isDigit {char : Char} (h : char.isDigit = true) :
    isExponentMark char = false := by
  have hlower : char ≠ 'e' := ne_of_isDigit h rfl
  have hupper : char ≠ 'E' := ne_of_isDigit h rfl
  simp [isExponentMark, hlower, hupper]

theorem numberToken?_fraction (negative : Bool) {whole fraction : List Char}
    (hwhole : isIntText whole = true) (hdigits : ∀ digit ∈ whole, digit.isDigit = true)
    (hfraction : isFractionText fraction = true) :
    numberToken? (signed negative (whole ++ '.' :: fraction)) =
      some (.float (signed negative (whole ++ '.' :: fraction))) := by
  have hbehind := (isFractionText_iff.mp hfraction).2
  obtain ⟨front, htext, hfront, hmarks⟩ : ∃ front,
      signed negative (whole ++ '.' :: fraction) = front ++ '.' :: fraction ∧
        isIntText front = true ∧ ∀ char ∈ front, isExponentMark char = false := by
    have hmarks : ∀ char ∈ whole, isExponentMark char = false :=
      fun char hchar => isExponentMark_of_isDigit (hdigits char hchar)
    cases negative with
    | false => exact ⟨whole, rfl, hwhole, hmarks⟩
    | true =>
        exact ⟨'-' :: whole, rfl, isIntText_negate hwhole hdigits,
          List.forall_mem_cons.mpr ⟨rfl, hmarks⟩⟩
  have hint : isIntText (front ++ '.' :: fraction) = false := by
    cases front with
    | nil => cases hfront
    | cons first front =>
        rw [Bool.eq_false_iff]
        intro h
        cases all_isDigit_of_isIntText h '.' (by simp)
  have hmark : splitLast? isExponentMark (front ++ '.' :: fraction) = none := by
    apply splitLast?_eq_none
    refine List.forall_mem_append.mpr ⟨hmarks, List.forall_mem_cons.mpr ⟨rfl, ?_⟩⟩
    exact fun char hchar => isExponentMark_of_isDigit (hbehind char hchar)
  have hpoint : splitLast? (· == '.') (front ++ '.' :: fraction) = some (front, fraction) := by
    apply splitLast?_append rfl
    intro char hchar
    exact beq_eq_false_iff_ne.mpr (ne_of_isDigit (hbehind char hchar) rfl)
  have hfloat : isFloatText (front ++ '.' :: fraction) = true := by
    simp [isFloatText, hmark, isSignificandText, hpoint, hfront, hfraction]
  rw [htext, numberToken?, hint, hfloat]
  rfl

theorem unsign_signed (negative : Bool) {first : Char} (hfirst : first.isDigit = true)
    (rest : List Char) :
    unsign (signed negative (first :: rest)) = (negative, first :: rest) := by
  have hminus : first ≠ '-' := ne_of_isDigit hfirst rfl
  have hplus : first ≠ '+' := ne_of_isDigit hfirst rfl
  cases negative with
  | true => rfl
  | false =>
      rw [signed, if_neg (by decide), unsign.eq_def]
      split <;> grind

theorem magnitude?_fraction (negative : Bool) {whole fraction : List Char}
    (hdigits : ∀ digit ∈ whole, digit.isDigit = true)
    (hfraction : isFractionText fraction = true) :
    (magnitude? negative (whole ++ '.' :: fraction)).isSome = true := by
  obtain ⟨hnonempty, hbehind⟩ := isFractionText_iff.mp hfraction
  have htake : (whole ++ '.' :: fraction).takeWhile Char.isDigit = whole := by
    rw [List.takeWhile_append_of_pos hdigits, List.takeWhile_cons_of_neg (by decide),
      List.append_nil]
  have hdrop : (whole ++ '.' :: fraction).dropWhile Char.isDigit = '.' :: fraction := by
    rw [List.dropWhile_append_of_pos hdigits, List.dropWhile_cons_of_neg (by decide)]
  have htakeFraction : fraction.takeWhile Char.isDigit = fraction :=
    List.takeWhile_eq_self_iff.mpr hbehind
  have hdropFraction : fraction.dropWhile Char.isDigit = [] :=
    List.dropWhile_eq_nil_iff.mpr hbehind
  simp [magnitude?, htake, hdrop, htakeFraction, hdropFraction, hnonempty, exponent?]

theorem toLower_of_isDigit {char : Char} (h : char.isDigit = true) :
    char.toLower = char := by
  have hbound : char.toNat ≤ 57 := (Char.isDigit_iff_toNat.mp h).2
  have hupper : ¬ 'A'.val ≤ char.val := by
    rw [UInt32.le_iff_toNat_le]
    exact Nat.not_le.mpr (Nat.lt_of_le_of_lt hbound (by decide))
  exact dif_neg fun hletter => hupper hletter.1

theorem ofText?_fraction (negative : Bool) {whole fraction : List Char}
    (hwhole : isIntText whole = true) (hdigits : ∀ digit ∈ whole, digit.isDigit = true)
    (hfraction : isFractionText fraction = true) :
    (ofText? (signed negative (whole ++ '.' :: fraction))).isSome = true := by
  have hmagnitude := magnitude?_fraction negative hdigits hfraction
  cases whole with
  | nil => cases hwhole
  | cons first whole =>
      have hfirst := hdigits first List.mem_cons_self
      rw [List.cons_append] at hmagnitude ⊢
      rw [ofText?, unsign_signed negative hfirst]
      dsimp only
      rw [List.map_cons, toLower_of_isDigit hfirst]
      have hnan : first ≠ 'n' := ne_of_isDigit hfirst rfl
      have hinf : first ≠ 'i' := ne_of_isDigit hfirst rfl
      split
      · rename_i heq
        exact absurd (List.cons.inj heq).1 hnan
      · rename_i heq
        exact absurd (List.cons.inj heq).1 hinf
      · rename_i heq
        exact absurd (List.cons.inj heq).1 hinf
      · exact hmagnitude

/-! Whole numbers. -/

theorem toDigits_mul_pow {digits : Nat} (h : 0 < digits) (place : Nat) :
    Nat.toDigits 10 digits ++ List.replicate place '0' =
      Nat.toDigits 10 (digits * 10 ^ place) := by
  induction place with
  | zero => simp
  | succ place ih =>
      have hpos : 0 < digits * 10 ^ place := Nat.mul_pos h (Nat.pow_pos (by decide))
      have hnext : digits * 10 ^ (place + 1) = 10 * (digits * 10 ^ place) + 0 := by
        rw [Nat.pow_succ, Nat.add_zero, ← Nat.mul_assoc, Nat.mul_comm]
      rw [List.replicate_succ', ← List.append_assoc, ih, hnext,
        ← Nat.toDigits_append_toDigits (by decide) hpos (by decide)]
      rfl

theorem signed_positional (negative : Bool) {digits : Nat} (h : 0 < digits) {place : Int}
    (hplace : ¬place < 0) :
    signed negative (positional digits place) =
      Layout.intText (if negative then -(digits * 10 ^ place.toNat : Nat)
        else (digits * 10 ^ place.toNat : Nat)) := by
  have hpos : 0 < digits * 10 ^ place.toNat := Nat.mul_pos h (Nat.pow_pos (by decide))
  simp only [positional, if_neg hplace, toDigits_mul_pow h]
  generalize digits * 10 ^ place.toNat = magnitude at hpos
  cases negative with
  | false => simp [signed, Layout.intText]
  | true => simp [signed, Layout.intText, hpos]

/-- Whether a decimal is written with a point in it, or is an integer in range. -/
def isLegibleDecimal (negative : Bool) (digits : Nat) (place : Int) : Bool :=
  place < 0 || Value.intInRange (if negative then -(digits * 10 ^ place.toNat : Nat)
    else (digits * 10 ^ place.toNat : Nat))

/-- Whether the text of a double is that of a value: of an infinite one it is so, as
a name, unless the sign is negative. -/
def isLegible : Binary64 → Bool
  | .nan => true
  | .infinite negative => !negative
  | .finite _ 0 _ => true
  | .finite negative significand exponent =>
      let (digits, place) := (rounding significand exponent).shortest
      isLegibleDecimal negative digits place

/-- Whether a text is read as a value, being a name or a number. -/
def isValueText (text : List Char) : Bool :=
  isName text || ((numberToken? text).bind Value.ofToken?).isSome

theorem isLegibleDecimal_eq (negative : Bool) {digits : Nat} (h : 0 < digits) (place : Int) :
    isLegibleDecimal negative digits place =
      isValueText (signed negative (positional digits place)) := by
  unfold isLegibleDecimal isValueText
  by_cases hplace : place < 0
  · obtain ⟨whole, fraction, htext, hwhole, hdigits, hfraction⟩ :=
      exists_fraction digits hplace
    have hvalue := ofText?_fraction negative hwhole hdigits hfraction
    rw [htext, numberToken?_fraction negative hwhole hdigits hfraction]
    simp [hplace, Value.ofToken?, hvalue]
  · rw [signed_positional negative h hplace]
    generalize (if negative = true then _ else _ : Int) = whole
    rw [numberToken?_intText, isName_eq_false_of_shape (intText_shape whole), Option.bind_some,
      Value.ofToken?, ofIntText?_intText]
    cases Value.intInRange whole <;> simp [hplace]

theorem isLegible_eq (value : Binary64) : value.isLegible = isValueText value.toText := by
  cases value with
  | nan => decide +kernel
  | infinite negative => cases negative <;> decide +kernel
  | finite negative significand exponent =>
      cases significand with
      | zero =>
          have hzero : ∀ negative, true = isValueText (signed negative ['0']) := by
            decide +kernel
          exact hzero negative
      | succ significand =>
          exact isLegibleDecimal_eq negative
            (shortest_pos (Nat.succ_ne_zero significand) exponent) _

end SchemaLoom.Binary64
