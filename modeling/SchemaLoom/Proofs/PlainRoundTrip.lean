import SchemaLoom.Proofs.RoundTrip

namespace SchemaLoom

/-! Documents with plain literals only, written and read again.  Nothing in them is
lost, unless a directive among them has no place to be used. -/

theorem Value.isLegible_of_isPlain {value : Value} (h : value.isPlain = true) :
    value.isLegible = true := by
  cases value with
  | float value => cases h
  | string text =>
      rw [Value.isLegible, isLegibleText, Reader.not_writesBlock_of_isPlain h]
      rfl
  | _ => rfl

namespace Document

variable {document : Document}

/-- A document that was read and has plain literals only can be written, and what is
read from its written form is the same document at other positions.  It can be read
exactly if every directive has a place. -/
theorem parse_print_plain_iff {text : String} (h : parse text = .ok document)
    (hplain : ∀ value ∈ document.values, value.isPlain = true) :
    ∃ written, document.print = .ok written ∧
      (∀ result, parse written = .ok result → result.unplaced = document.unplaced) ∧
      ((∃ result, parse written = .ok result ∧ result.unplaced = document.unplaced) ↔
        ∀ definition ∈ document.definitions, definition.HasPlace) := by
  have hsound := parse_sound h
  have hcheck := hsound.check_eq_ok
  have hlasting : Lasting document.values := fun value hvalue =>
    ⟨hplain value hvalue, hsound.canonical value hvalue⟩
  have hlegible : ∀ value ∈ document.values, value.isLegible = true :=
    fun value hvalue => Value.isLegible_of_isPlain (hplain value hvalue)
  have hsame : ∀ result, ofText document.toText = .ok result →
      result.unplaced = document.unplaced := by
    intro result hresult
    obtain ⟨_, _, hreturns⟩ := reads_of_ofText hcheck hsound.named hresult
    exact hreturns hlasting
  refine ⟨_, print_eq_ok_iff.mpr ⟨hcheck, rfl⟩, ?_⟩
  rw [parse_ofList_toText]
  refine ⟨hsame, ?_⟩
  constructor
  · rintro ⟨result, hresult, _⟩
    have hfits := (ofText_toText hcheck hsound.named hresult).1
    exact (hsound.fits_iff.mp hfits).1
  · intro hplace
    obtain ⟨result, hresult⟩ :=
      hsound.exists_ofText_toText (hsound.fits_iff.mpr ⟨hplace, hlegible⟩)
    exact ⟨result, hresult, hsame result hresult⟩

/-- Quotes, escapes and values inside values. -/
def quotedText : String :=
  "\"a \\\"b\\\" \\\\ c\" type A implements B & C @d(x: \x7bb: [1, Y], a: $v\x7d) \x7b
    f(y: String = \"\\\"\"): [Int!]! \x7d directive @e repeatable on FIELD | ENUM"

theorem parse_print_plain_iff_quotedText :
    ∃ document, parse quotedText = .ok document ∧
      (∀ value ∈ document.values, value.isPlain = true) ∧
      ∃ written, document.print = .ok written ∧
        (∀ result, parse written = .ok result → result.unplaced = document.unplaced) ∧
        ((∃ result, parse written = .ok result ∧ result.unplaced = document.unplaced) ↔
          ∀ definition ∈ document.definitions, definition.HasPlace) := by
  have hread : (parse quotedText).toOption.any
      (fun document => document.values.all Value.isPlain) = true := by
    decide +kernel
  cases hparse : parse quotedText with
  | error error =>
      rw [hparse] at hread
      cases hread
  | ok document =>
      rw [hparse] at hread
      have hplain : ∀ value ∈ document.values, value.isPlain = true := List.all_eq_true.mp hread
      exact ⟨document, rfl, hplain, parse_print_plain_iff hparse hplain⟩

/-- A directive without places, all of whose literals are plain, is not read from its
written form. -/
theorem parse_print_plain_placeless :
    ∃ document written, parse "\"x\" directive @a(b: Int = 1) repeatable on" = .ok document ∧
      (∀ value ∈ document.values, value.isPlain = true) ∧
      document.print = .ok written ∧ ¬∃ result, parse written = .ok result := by
  have hread : (parse "\"x\" directive @a(b: Int = 1) repeatable on").toOption.any
      (fun document => document.values.all Value.isPlain &&
        document.print.toOption.any fun written => !(parse written).isOk) = true := by
    decide +kernel
  cases hparse : parse "\"x\" directive @a(b: Int = 1) repeatable on" with
  | error error =>
      rw [hparse] at hread
      cases hread
  | ok document =>
      rw [hparse] at hread
      obtain ⟨hplain, hwritten⟩ := Bool.and_eq_true_iff.mp hread
      cases hprint : document.print with
      | error error =>
          rw [hprint] at hwritten
          cases hwritten
      | ok written =>
          rw [hprint] at hwritten
          refine ⟨document, written, rfl, List.all_eq_true.mp hplain, hprint, ?_⟩
          rintro ⟨result, hresult⟩
          simp [Except.toOption, hresult, Except.isOk, Except.toBool] at hwritten

end Document

end SchemaLoom
