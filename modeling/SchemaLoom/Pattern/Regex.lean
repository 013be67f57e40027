import SchemaLoom.Pattern.CharSet

namespace SchemaLoom

/-! Regular expressions over characters, and the search for a match. -/

/-- Conditions on a place in a text that take no character. -/
inductive Assertion where
  | start
  | finish
  | lineStart
  | lineFinish
  | boundary
  | noBoundary
  | wordStart
  | wordFinish
  | noWordBefore
  | noWordBehind
  deriving DecidableEq, Repr

inductive Regex where
  | empty
  | set (chars : CharSet)
  | assertion (condition : Assertion)
  | seq (first second : Regex)
  | alt (first second : Regex)
  | repeated (body : Regex) (least : Nat) (most : Option Nat)
  deriving DecidableEq, Repr

/-- A letter, digit or underscore; names are ASCII. -/
def isWordChar (char : Char) : Bool :=
  char == '_' || char.isAlphanum

/-- Whether an assertion holds between two characters of a text, of which either is
missing at an end of it. -/
def Assertion.holds (condition : Assertion) (before behind : Option Char) : Bool :=
  let inWord := before.any isWordChar
  let atWord := behind.any isWordChar
  match condition with
  | .start => before.isNone
  | .finish => behind.isNone
  | .lineStart => before.all (· == '\n')
  | .lineFinish => behind.all (· == '\n')
  | .boundary => inWord != atWord
  | .noBoundary => inWord == atWord
  | .wordStart => !inWord && atWord
  | .wordFinish => inWord && !atWord
  | .noWordBefore => !inWord
  | .noWordBehind => !atWord

/-! A set of places in a text: for each place, from the start of the text to its
end, whether it is in the set.  There is one place more than there are characters. -/

abbrev Places := List Bool

namespace Places

def all (text : List Char) : Places :=
  List.replicate (text.length + 1) true

def join (first second : Places) : Places :=
  List.zipWith (· || ·) first second

/-- The places right behind a character of the set that stands at one of these. -/
def advance (chars : CharSet) (text : List Char) (places : Places) : Places :=
  false :: List.zipWith (fun char here => here && chars.contains char) text places

/-- Those of the places where an assertion holds, in a text behind a character. -/
def keep (condition : Assertion) : Option Char → List Char → Places → Places
  | before, char :: rest, here :: places =>
      (here && condition.holds before (some char))
        :: keep condition (some char) rest places
  | before, [], here :: _ => [here && condition.holds before none]
  | _, _, [] => []

/-- The places after so many rounds.  A round that changes nothing is the last one,
since the others would change nothing either. -/
def rounds (step : Places → Places) : Nat → Places → Places
  | 0, places => places
  | count + 1, places =>
      let next := step places
      if next = places then places else rounds step count next

end Places

namespace Regex

/-- Every place where a match that starts at one of the places can end.  Of a
repetition without bound, more rounds than there are places lead to no new one. -/
def ends (text : List Char) : Regex → Places → Places
  | .empty, places => places
  | .set chars, places => places.advance chars text
  | .assertion condition, places => places.keep condition none text
  | .seq first second, places => second.ends text (first.ends text places)
  | .alt first second, places =>
      .join (first.ends text places) (second.ends text places)
  | .repeated body least most, places =>
      let bound := places.length
      Places.rounds (fun places => places.join (body.ends text places))
        (most.elim bound fun most => min bound (most - least))
        (Places.rounds (body.ends text) least places)

/-- Whether a match is found anywhere in the text. -/
def isMatch (regex : Regex) (text : List Char) : Bool :=
  (regex.ends text (.all text)).contains true

end Regex

end SchemaLoom
