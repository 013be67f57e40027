import SchemaLoom.Pattern.Regex
import Mathlib.Data.List.Basic
import Mathlib.Logic.Function.Iterate

namespace SchemaLoom

/-! What it means that an expression matches, and that the search decides it.  A match
is a part of a text.  Whether there is one depends on the part, and through assertions
on what stands before and behind it. -/

abbrev Extent := (before found behind : List Char) → Prop

namespace Extent

def empty : Extent :=
  fun _ found _ => found = []

/-- A part of the one kind, and right behind it a part of the other. -/
def andThen (first second : Extent) : Extent :=
  fun before found behind => ∃ front rest, found = front ++ rest ∧
    first before front (rest ++ behind) ∧ second (before ++ front) rest behind

def either (first second : Extent) : Extent :=
  fun before found behind => first before found behind ∨ second before found behind

def times (once : Extent) : Nat → Extent
  | 0 => empty
  | count + 1 => once.andThen (once.times count)

def upTo (once : Extent) (most : Nat) : Extent :=
  fun before found behind => ∃ count ≤ most, once.times count before found behind

/-- A number of times that is bounded, or any number. -/
def atMost (once : Extent) : Option Nat → Extent
  | some most => once.upTo most
  | none => fun before found behind => ∃ count, once.times count before found behind

/-- Not less than the least number of times, and not more than the greatest if there is
one; the least number is enough even if it is beyond the greatest. -/
def repeated (once : Extent) (least : Nat) (most : Option Nat) : Extent :=
  fun before found behind => ∃ count, least ≤ count ∧
    (∀ bound ∈ most, count ≤ max least bound) ∧ once.times count before found behind

theorem empty_andThen (extent : Extent) : empty.andThen extent = extent := by
  funext before found behind
  apply propext
  constructor
  · rintro ⟨_, rest, rfl, rfl, hrest⟩
    rwa [List.append_nil] at hrest
  · intro hfound
    exact ⟨[], found, rfl, rfl, by rwa [List.append_nil]⟩

theorem andThen_assoc (first second third : Extent) :
    (first.andThen second).andThen third = first.andThen (second.andThen third) := by
  funext before found behind
  apply propext
  constructor
  · rintro ⟨_, rest, rfl, ⟨front, middle, rfl, hfirst, hsecond⟩, hthird⟩
    rw [← List.append_assoc] at hfirst hthird
    exact ⟨front, middle ++ rest, List.append_assoc .., hfirst, middle, rest, rfl, hsecond,
      hthird⟩
  · rintro ⟨front, _, rfl, hfirst, middle, rest, rfl, hsecond, hthird⟩
    rw [List.append_assoc] at hfirst hthird
    exact ⟨front ++ middle, rest, (List.append_assoc ..).symm,
      ⟨front, middle, rfl, hfirst, hsecond⟩, hthird⟩

theorem times_add (once : Extent) (first second : Nat) :
    once.times (first + second) = (once.times first).andThen (once.times second) := by
  induction first with
  | zero => rw [Nat.zero_add, times, empty_andThen]
  | succ first ih => rw [Nat.succ_add, times, times, ih, andThen_assoc]

theorem upTo_zero (once : Extent) : once.upTo 0 = empty := by
  funext before found behind
  simp [upTo, times]

theorem upTo_succ (once : Extent) (most : Nat) :
    once.upTo (most + 1) = (empty.either once).andThen (once.upTo most) := by
  funext before found behind
  apply propext
  constructor
  · rintro ⟨_ | count, hcount, hfound⟩
    · exact ⟨[], found, rfl, .inl rfl, 0, Nat.zero_le most, hfound⟩
    · obtain ⟨front, rest, rfl, hfront, hrest⟩ := hfound
      exact ⟨front, rest, rfl, .inr hfront, count, Nat.le_of_succ_le_succ hcount, hrest⟩
  · rintro ⟨front, rest, rfl, hempty | hfront, count, hcount, hrest⟩
    · obtain rfl : front = [] := hempty
      rw [List.append_nil] at hrest
      exact ⟨count, Nat.le_succ_of_le hcount, hrest⟩
    · exact ⟨count + 1, Nat.succ_le_succ hcount, front, rest, rfl, hfront, hrest⟩

theorem atMost_iff {once : Extent} {most : Option Nat} {before found behind : List Char} :
    once.atMost most before found behind ↔
      ∃ count, (∀ bound ∈ most, count ≤ bound) ∧ once.times count before found behind := by
  cases most with
  | none => simp [atMost]
  | some most => simp [atMost, upTo]

/-- A repetition is made the least number of times, and then perhaps some more. -/
theorem repeated_eq (once : Extent) (least : Nat) (most : Option Nat) :
    once.repeated least most =
      (once.times least).andThen (once.atMost (most.map (· - least))) := by
  funext before found behind
  apply propext
  constructor
  · rintro ⟨count, hleast, hmost, hfound⟩
    obtain ⟨more, rfl⟩ := Nat.exists_eq_add_of_le hleast
    rw [times_add] at hfound
    obtain ⟨front, rest, rfl, hfront, hrest⟩ := hfound
    refine ⟨front, rest, rfl, hfront, atMost_iff.mpr ⟨more, ?_, hrest⟩⟩
    intro left hleft
    obtain ⟨bound, hbound, rfl⟩ := Option.map_eq_some_iff.mp hleft
    have hcount := hmost bound hbound
    show more ≤ bound - least
    omega
  · rintro ⟨front, rest, rfl, hfront, hrest⟩
    obtain ⟨more, hmore, hrest⟩ := atMost_iff.mp hrest
    refine ⟨least + more, Nat.le_add_right least more, ?_, ?_⟩
    · intro bound hbound
      have hleft : more ≤ bound - least := hmore _ (Option.mem_map_of_mem _ hbound)
      omega
    · rw [times_add]
      exact ⟨front, rest, rfl, hfront, hrest⟩

end Extent

/-- What an expression matches. -/
def Regex.Matches : Regex → Extent
  | .empty => .empty
  | .set chars => fun _ found _ => ∃ char, found = [char] ∧ chars.contains char = true
  | .assertion condition => fun before found behind =>
      found = [] ∧ condition.holds before.getLast? behind.head? = true
  | .seq first second => first.Matches.andThen second.Matches
  | .alt first second => first.Matches.either second.Matches
  | .repeated body least most => body.Matches.repeated least most

namespace Places

/-- There is one place more than there are characters. -/
def Covers (text : List Char) (places : Places) : Prop :=
  places.length = text.length + 1

/-- The place behind the front part of a text is one of these. -/
def At (places : Places) (front : List Char) : Prop :=
  places[front.length]? = some true

variable {text front behind : List Char} {places first second : Places}

theorem Covers.length_eq (hfirst : first.Covers text) (hsecond : second.Covers text) :
    first.length = second.length :=
  hfirst.trans hsecond.symm

theorem Covers.join (hfirst : first.Covers text) (hsecond : second.Covers text) :
    (first.join second).Covers text := by
  unfold Covers at *
  simp [Places.join, hfirst, hsecond]

theorem Covers.advance (h : places.Covers text) (chars : CharSet) :
    (places.advance chars text).Covers text := by
  unfold Covers at *
  simp [Places.advance, h]

theorem Covers.keep (h : places.Covers text) (condition : Assertion)
    (before : Option Char) : (places.keep condition before text).Covers text := by
  unfold Covers at *
  fun_induction Places.keep condition before text places with
  | case1 before char rest here places ih => simpa using ih (by simpa using h)
  | case2 => rfl
  | case3 => simp at h

theorem at_join (h : first.length = second.length) :
    (first.join second).At front ↔ first.At front ∨ second.At front := by
  unfold At join
  rw [List.getElem?_zipWith]
  by_cases hplace : front.length < first.length
  · simp [List.getElem?_eq_getElem hplace, List.getElem?_eq_getElem (h ▸ hplace)]
  · have hbeyond : first.length ≤ front.length := Nat.le_of_not_lt hplace
    simp [List.getElem?_eq_none hbeyond, List.getElem?_eq_none (h ▸ hbeyond)]

theorem at_advance (chars : CharSet) (htext : text = front ++ behind) :
    (places.advance chars text).At front ↔
      ∃ start char, front = start ++ [char] ∧ places.At start ∧
        chars.contains char = true := by
  unfold At advance
  rcases List.eq_nil_or_concat' front with rfl | ⟨start, char, rfl⟩
  · simp
  · have hchar : text[start.length]? = some char := by simp [htext]
    rw [List.length_append, List.length_singleton, List.getElem?_cons_succ,
      List.getElem?_zipWith_eq_some, hchar]
    simp

theorem getElem?_keep (condition : Assertion) (before : Option Char)
    (front behind : List Char) (places : Places) :
    (places.keep condition before (front ++ behind))[front.length]? =
      places[front.length]?.map
        (· && condition.holds (front.getLast?.or before) behind.head?) := by
  induction front generalizing before places with
  | nil =>
      cases places with
      | nil => cases behind <;> rfl
      | cons here places => cases behind <;> rfl
  | cons char front ih =>
      cases places with
      | nil => rfl
      | cons here places =>
          rw [List.cons_append, keep, List.length_cons, List.getElem?_cons_succ,
            List.getElem?_cons_succ, ih]
          cases front <;> simp [List.getLast?_cons]

theorem at_keep (condition : Assertion) (htext : text = front ++ behind) :
    (places.keep condition none text).At front ↔
      places.At front ∧ condition.holds front.getLast? behind.head? = true := by
  unfold At
  rw [htext, getElem?_keep, Option.or_none]
  cases places[front.length]? <;> simp

theorem at_all (htext : text = front ++ behind) : (all text).At front := by
  have hplace : front.length < text.length + 1 := by
    rw [htext, List.length_append]
    omega
  rw [At, all, List.getElem?_replicate, if_pos hplace]

theorem covers_all (text : List Char) : (all text).Covers text :=
  List.length_replicate

/-! Rounds. -/

theorem rounds_eq_iterate (step : Places → Places) (count : Nat) (places : Places) :
    rounds step count places = step^[count] places := by
  induction count generalizing places with
  | zero => rfl
  | succ count ih =>
      rw [rounds, Function.iterate_succ_apply, ih]
      split
      · rename_i hfixed
        rw [hfixed, Function.iterate_fixed hfixed]
      · rfl

theorem join_eq_or_count_lt (h : first.length = second.length) :
    first.join second = first ∨ first.count true < (first.join second).count true := by
  induction first generalizing second with
  | nil => exact .inl (by cases second <;> rfl)
  | cons here first ih =>
      cases second with
      | nil => cases h
      | cons there second =>
          rcases ih (Nat.succ.inj h) with heq | hlt
          · rw [join] at heq
            cases here <;> cases there <;> simp [join, heq]
          · right
            rw [join] at hlt
            cases here <;> cases there <;> simp [join] <;> omega

/-- What can be reached from the places by one more step, and the places themselves. -/
def spread (step : Places → Places) (places : Places) : Places :=
  places.join (step places)

/-- A step that leads from places to just those behind a part that is allowed. -/
structure Leads (text : List Char) (step : Places → Places) (extent : Extent) : Prop where
  covers : ∀ {places : Places}, places.Covers text → (step places).Covers text
  at_iff : ∀ {places : Places} {front behind : List Char}, places.Covers text →
    text = front ++ behind →
      ((step places).At front ↔
        ∃ start found, front = start ++ found ∧ places.At start ∧ extent start found behind)

namespace Leads

variable {step other : Places → Places} {once extent : Extent}

theorem empty : Leads text id .empty where
  covers := id
  at_iff _ _ := by simp [Extent.empty]

theorem advance (chars : CharSet) :
    Leads text (Places.advance chars text) (Regex.set chars).Matches where
  covers hplaces := hplaces.advance chars
  at_iff _ htext := by
    rw [at_advance chars htext]
    constructor
    · rintro ⟨start, char, hfront, hstart, hchar⟩
      exact ⟨start, [char], hfront, hstart, char, rfl, hchar⟩
    · rintro ⟨start, _, hfront, hstart, char, rfl, hchar⟩
      exact ⟨start, char, hfront, hstart, hchar⟩

theorem keep (condition : Assertion) :
    Leads text (Places.keep condition none text) (Regex.assertion condition).Matches where
  covers hplaces := hplaces.keep condition none
  at_iff {places front behind} _ htext := by
    rw [at_keep condition htext]
    constructor
    · rintro ⟨hplace, hholds⟩
      exact ⟨front, [], (List.append_nil front).symm, hplace, rfl, hholds⟩
    · rintro ⟨start, _, rfl, hplace, rfl, hholds⟩
      rw [List.append_nil]
      exact ⟨hplace, hholds⟩

theorem comp (hother : Leads text other extent) (hstep : Leads text step once) :
    Leads text (other ∘ step) (once.andThen extent) where
  covers hplaces := hother.covers (hstep.covers hplaces)
  at_iff {places front behind} hplaces htext := by
    rw [Function.comp_apply, hother.at_iff (hstep.covers hplaces) htext]
    constructor
    · rintro ⟨_, rest, rfl, hmiddle, hrest⟩
      rw [List.append_assoc] at htext
      obtain ⟨start, found, rfl, hstart, hfound⟩ := (hstep.at_iff hplaces htext).mp hmiddle
      exact ⟨start, found ++ rest, List.append_assoc .., hstart, found, rest, rfl, hfound,
        hrest⟩
    · rintro ⟨start, _, rfl, hstart, found, rest, rfl, hfound, hrest⟩
      have hsplit : text = (start ++ found) ++ (rest ++ behind) := by
        simpa only [List.append_assoc] using htext
      exact ⟨start ++ found, rest, (List.append_assoc ..).symm,
        (hstep.at_iff hplaces hsplit).mpr ⟨start, found, rfl, hstart, hfound⟩, hrest⟩

theorem join (hstep : Leads text step once) (hother : Leads text other extent) :
    Leads text (fun places => (step places).join (other places)) (once.either extent) where
  covers hplaces := (hstep.covers hplaces).join (hother.covers hplaces)
  at_iff hplaces htext := by
    rw [at_join ((hstep.covers hplaces).length_eq (hother.covers hplaces)),
      hstep.at_iff hplaces htext, hother.at_iff hplaces htext]
    simp only [Extent.either, and_or_left, exists_or]

theorem iterate (hstep : Leads text step once) (count : Nat) :
    Leads text step^[count] (once.times count) := by
  induction count with
  | zero => exact empty
  | succ count ih => exact ih.comp hstep

theorem congr (hstep : Leads text step extent)
    (heq : ∀ places : Places, places.Covers text → other places = step places) :
    Leads text other extent where
  covers hplaces := heq _ hplaces ▸ hstep.covers hplaces
  at_iff hplaces htext := heq _ hplaces ▸ hstep.at_iff hplaces htext

theorem spread (hstep : Leads text step once) :
    Leads text (spread step) (Extent.empty.either once) :=
  empty.join hstep

theorem iterate_spread (hstep : Leads text step once) (most : Nat) :
    Leads text (Places.spread step)^[most] (once.upTo most) := by
  induction most with
  | zero =>
      rw [Extent.upTo_zero]
      exact empty
  | succ most ih =>
      rw [Extent.upTo_succ]
      exact ih.comp hstep.spread

/-- A round that changes something adds a place. -/
theorem fixed_or_grown (hstep : Leads text step once) (hplaces : places.Covers text)
    (count : Nat) :
    Places.spread step ((Places.spread step)^[count] places) =
        (Places.spread step)^[count] places ∨
      count < ((Places.spread step)^[count + 1] places).count true := by
  induction count with
  | zero =>
      rcases join_eq_or_count_lt (hplaces.length_eq (hstep.covers hplaces)) with hfixed | hgrown
      · exact .inl hfixed
      · exact .inr (Nat.zero_lt_of_lt hgrown)
  | succ count ih =>
      have hcovers := (hstep.iterate_spread (count + 1)).covers hplaces
      rw [Function.iterate_succ_apply' _ (count + 1)]
      rcases ih with hfixed | hgrown
      · rw [Function.iterate_succ_apply', hfixed]
        exact .inl hfixed
      · rcases join_eq_or_count_lt (hcovers.length_eq (hstep.covers hcovers)) with heq | hlt
        · exact .inl heq
        · exact .inr (Nat.lt_of_le_of_lt hgrown hlt)

/-- More rounds than there are places lead to no new one. -/
theorem iterate_min (hstep : Leads text step once) (hplaces : places.Covers text)
    (count : Nat) :
    (Places.spread step)^[min places.length count] places =
      (Places.spread step)^[count] places := by
  rcases Nat.le_total count places.length with hle | hle
  · rw [Nat.min_eq_right hle]
  · have hfixed : Places.spread step ((Places.spread step)^[places.length] places) =
        (Places.spread step)^[places.length] places := by
      refine (hstep.fixed_or_grown hplaces places.length).resolve_right ?_
      have hcovers := (hstep.iterate_spread (places.length + 1)).covers hplaces
      exact Nat.not_lt.mpr
        (Nat.le_trans List.count_le_length (Nat.le_of_eq (hcovers.length_eq hplaces)))
    obtain ⟨more, rfl⟩ := Nat.exists_eq_add_of_le hle
    rw [Nat.min_eq_left hle, Nat.add_comm, Function.iterate_add_apply,
      Function.iterate_fixed hfixed]

theorem atMost (hstep : Leads text step once) (most : Option Nat) :
    Leads text (fun places =>
        (Places.spread step)^[most.elim places.length (min places.length)] places)
      (once.atMost most) := by
  cases most with
  | some most =>
      exact (hstep.iterate_spread most).congr fun places hplaces =>
        hstep.iterate_min hplaces most
  | none =>
      refine ⟨fun hplaces => (hstep.iterate_spread _).covers hplaces, ?_⟩
      intro places front behind hplaces htext
      have hreach := fun count => (hstep.iterate_spread count).at_iff hplaces htext
      constructor
      · intro hplace
        obtain ⟨start, found, hfront, hstart, count, _, hfound⟩ := (hreach _).mp hplace
        exact ⟨start, found, hfront, hstart, count, hfound⟩
      · rintro ⟨start, found, hfront, hstart, count, hfound⟩
        have hplace := (hreach count).mpr
          ⟨start, found, hfront, hstart, count, Nat.le_refl count, hfound⟩
        -- As many rounds as there are places are enough, however long the part is.
        rw [← hstep.iterate_min hplaces, hreach] at hplace
        obtain ⟨start, found, hfront, hstart, fewer, hfewer, hfound⟩ := hplace
        exact (hreach _).mpr ⟨start, found, hfront, hstart, fewer,
          Nat.le_trans hfewer (Nat.min_le_left _ _), hfound⟩

theorem repeated (hstep : Leads text step once) (least : Nat) (most : Option Nat) :
    Leads text
      (fun places => rounds (Places.spread step)
        (most.elim places.length fun most => min places.length (most - least))
        (rounds step least places))
      (once.repeated least most) := by
  rw [Extent.repeated_eq]
  refine ((hstep.atMost _).comp (hstep.iterate least)).congr ?_
  intro places hplaces
  rw [rounds_eq_iterate, rounds_eq_iterate, Function.comp_apply,
    ((hstep.iterate least).covers hplaces).length_eq hplaces]
  cases most <;> rfl

end Leads

end Places

namespace Regex

theorem leads_ends (text : List Char) (regex : Regex) :
    Places.Leads text (regex.ends text) regex.Matches := by
  induction regex with
  | empty => exact .empty
  | set chars => exact .advance chars
  | assertion condition => exact .keep condition
  | seq first second hfirst hsecond => exact hsecond.comp hfirst
  | alt first second hfirst hsecond => exact hfirst.join hsecond
  | repeated body least most hbody => exact hbody.repeated least most

/-- The search succeeds exactly if some part of the text is a match. -/
theorem isMatch_iff (regex : Regex) (text : List Char) :
    regex.isMatch text = true ↔
      ∃ before found behind, text = before ++ found ++ behind ∧
        regex.Matches before found behind := by
  have hleads := leads_ends text regex
  have hall := Places.covers_all text
  rw [isMatch, List.contains_iff_mem]
  constructor
  · intro hmem
    obtain ⟨place, hlt, hplace⟩ := List.mem_iff_getElem.mp hmem
    have hle : place ≤ text.length := by
      rw [hleads.covers hall] at hlt
      exact Nat.le_of_lt_succ hlt
    have hat : (regex.ends text (.all text)).At (text.take place) := by
      rw [Places.At, List.length_take, Nat.min_eq_left hle, List.getElem?_eq_getElem hlt,
        hplace]
    obtain ⟨before, found, hfront, _, hfound⟩ :=
      (hleads.at_iff hall (List.take_append_drop place text).symm).mp hat
    exact ⟨before, found, text.drop place, by rw [← hfront, List.take_append_drop], hfound⟩
  · rintro ⟨before, found, behind, htext, hfound⟩
    have hstart : (Places.all text).At before :=
      Places.at_all (htext.trans (List.append_assoc ..))
    exact List.mem_of_getElem? ((hleads.at_iff hall htext).mpr
      ⟨before, found, rfl, hstart, hfound⟩)

end Regex

end SchemaLoom
