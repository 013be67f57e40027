import SchemaLoom.Proofs.Matches
import SchemaLoom.Tree.Basic
import Mathlib.Tactic.FinCases

namespace SchemaLoom

/-! Names as patterns.  A name whose special characters are escaped, between the signs
for the start and the end of a text, is read as a pattern that is found in this name and
in no other, so it selects the definitions that the name itself selects. -/

theorem CharSet.contains_single {char other : Char} :
    (CharSet.single char).contains other = true ↔ other = char := by
  simp only [CharSet.single, CharSet.contains, Bool.and_eq_true, decide_eq_true_eq]
  constructor
  · rintro ⟨hlow, hhigh⟩
    exact Char.le_antisymm hhigh hlow
  · rintro rfl
    exact ⟨Char.le_refl other, Char.le_refl other⟩

namespace Pattern

/-- The signs that have a meaning somewhere in a pattern. -/
def specialChars : List Char :=
  ['\\', '.', '+', '*', '?', '(', ')', '|', '[', ']', '\x7b', '\x7d', '^', '$', '#', '&',
    '-', '~']

def escapeChar (char : Char) : List Char :=
  if char ∈ specialChars then ['\\', char] else [char]

def escape (name : String) : String :=
  String.ofList (name.toList.flatMap escapeChar)

def wholeName (name : String) : String :=
  "^" ++ escape name ++ "$"

/-! Symbols. -/

/-- What an escaped character is read as. -/
def Symbol.ofChar (char : Char) : Symbol :=
  if char ∈ specialChars then .literal char else .sign char

theorem read?_special {char : Char} (h : char ∈ specialChars) (rest : List Char) :
    Symbol.read? '\\' (char :: rest) = some (.literal char, 1) := by
  unfold specialChars at h
  fin_cases h <;> rfl

theorem read?_plain {char : Char} (h : char ∉ specialChars) (rest : List Char) :
    Symbol.read? char rest = some (.sign char, 0) := by
  unfold Symbol.read?
  split
  · exact absurd (by decide) h
  · exact absurd (by decide) h
  · rfl

theorem symbols?_cons {char : Char} {rest : List Char} {symbol : Symbol} {length : Nat}
    (h : Symbol.read? char rest = some (symbol, length)) :
    symbols? (char :: rest) = (symbolsBehind? length rest).map (symbol :: ·) := by
  simp only [symbols?, symbolsBehind?, h, Option.bind_eq_bind, Option.bind_some]
  cases symbolsBehind? length rest <;> rfl

theorem symbols?_escapeChar (char : Char) (rest : List Char) :
    symbols? (escapeChar char ++ rest) = (symbols? rest).map (Symbol.ofChar char :: ·) := by
  unfold escapeChar Symbol.ofChar
  split
  · rename_i hspecial
    exact symbols?_cons (read?_special hspecial rest)
  · rename_i hplain
    exact symbols?_cons (read?_plain hplain rest)

theorem symbols?_escape (text rest : List Char) :
    symbols? (text.flatMap escapeChar ++ rest) =
      (symbols? rest).map (text.map Symbol.ofChar ++ ·) := by
  induction text with
  | nil => simp
  | cons char text ih =>
      rw [List.flatMap_cons, List.append_assoc, symbols?_escapeChar, ih, Option.map_map]
      rfl

theorem toList_wholeName (name : String) :
    (wholeName name).toList = '^' :: (name.toList.flatMap escapeChar ++ ['$']) := by
  simp [wholeName, escape]

example : wholeName "Q.*" = "^Q\\.\\*$" := rfl

theorem symbols?_wholeName (name : String) :
    symbols? (wholeName name).toList =
      some (.sign '^' :: (name.toList.map Symbol.ofChar ++ [.sign '$'])) := by
  rw [toList_wholeName]
  refine (symbols?_cons rfl).trans ?_
  rw [← symbols?, symbols?_escape]
  rfl

/-! States. -/

def single (char : Char) : Regex :=
  .set (.single char)

/-- The state behind parts of a pattern that has no groups. -/
def State.behind (parts : List Regex) : State :=
  { flags := .off
    mode := .plain
    groups := [{ outside := .off, done := none, last := parts.reverse }] }

namespace State

theorem put_behind (parts : List Regex) (regex : Regex) :
    (behind parts).put regex = some (behind (parts ++ [regex])) := by
  simp [behind, put]

theorem takeSign_plain {char : Char} (h : char ∉ specialChars) (state : State) :
    state.takeSign char = state.putChar char := by
  unfold takeSign
  split <;> first | rfl | exact absurd (by decide) h

theorem step_ofChar (parts : List Regex) (char : Char) :
    (behind parts).step (Symbol.ofChar char) = some (behind (parts ++ [single char])) := by
  rw [← put_behind]
  unfold Symbol.ofChar
  split
  · rfl
  · rename_i hplain
    exact takeSign_plain hplain (behind parts)

theorem foldlM_step_ofChar (parts : List Regex) (text : List Char) :
    (text.map Symbol.ofChar).foldlM step (behind parts) =
      some (behind (parts ++ text.map single)) := by
  induction text generalizing parts with
  | nil => simp
  | cons char text ih =>
      rw [List.map_cons, List.foldlM_cons, step_ofChar]
      simpa using ih (parts ++ [single char])

theorem finish_behind (parts : List Regex) (last : Regex) :
    (behind (parts ++ [last])).finish = some (parts.foldr .seq last) := by
  simp [behind, finish, Group.regex, Group.sequence, List.foldl_reverse]

end State

/-- A text from its start to its end. -/
def anchored (text : List Char) : Regex :=
  .seq (.assertion .start) ((text.map single).foldr .seq (.assertion .finish))

theorem regex?_wholeName (name : String) :
    regex? (wholeName name).toList = some (anchored name.toList) := by
  have hstart : (State.behind []).step (.sign '^') =
      some (State.behind [.assertion .start]) := rfl
  have hfinish (parts : List Regex) : (State.behind parts).step (.sign '$') =
      some (State.behind (parts ++ [.assertion .finish])) := State.put_behind parts _
  have hread : (Symbol.sign '^' :: (name.toList.map Symbol.ofChar ++ [.sign '$'])).foldlM
      State.step (State.behind []) =
        some (State.behind (.assertion .start :: name.toList.map single ++
          [.assertion .finish])) := by
    rw [List.foldlM_cons, hstart, Option.bind_eq_bind, Option.bind_some, List.foldlM_append,
      State.foldlM_step_ofChar, Option.bind_eq_bind, Option.bind_some, List.foldlM_cons,
      hfinish]
    rfl
  rw [regex?, symbols?_wholeName, Option.bind_eq_bind, Option.bind_some]
  refine (congrArg (· >>= State.finish) hread).trans ?_
  exact State.finish_behind (.assertion .start :: name.toList.map single) _

/-! Matches. -/

theorem matches_foldr (text : List Char) (last : Regex) (before found behind : List Char) :
    ((text.map single).foldr .seq last).Matches before found behind ↔
      ∃ rest, found = text ++ rest ∧ last.Matches (before ++ text) rest behind := by
  induction text generalizing before found with
  | nil => simp
  | cons char text ih =>
      rw [List.map_cons, List.foldr_cons]
      constructor
      · rintro ⟨_, rest, rfl, ⟨other, rfl, hother⟩, hrest⟩
        obtain rfl := CharSet.contains_single.mp hother
        obtain ⟨rest, rfl, hlast⟩ := (ih _ _).mp hrest
        exact ⟨rest, rfl, by simpa using hlast⟩
      · rintro ⟨rest, rfl, hlast⟩
        exact ⟨[char], text ++ rest, rfl, ⟨char, rfl, CharSet.contains_single.mpr rfl⟩,
          (ih _ _).mpr ⟨rest, rfl, by simpa using hlast⟩⟩

theorem matches_anchored (text before found behind : List Char) :
    (anchored text).Matches before found behind ↔
      before = [] ∧ found = text ∧ behind = [] := by
  constructor
  · rintro ⟨_, rest, rfl, ⟨rfl, hstart⟩, hrest⟩
    obtain ⟨_, rfl, rfl, hfinish⟩ := (matches_foldr text _ _ _ _).mp hrest
    refine ⟨?_, List.append_nil text, ?_⟩
    · simpa [Assertion.holds] using hstart
    · simpa [Assertion.holds] using hfinish
  · rintro ⟨rfl, rfl, rfl⟩
    exact ⟨[], found, rfl, ⟨rfl, rfl⟩,
      (matches_foldr found _ _ _ _).mpr ⟨[], (List.append_nil found).symm, rfl, rfl⟩⟩

theorem isMatch_anchored (text candidate : List Char) :
    (anchored text).isMatch candidate = true ↔ candidate = text := by
  rw [Regex.isMatch_iff]
  simp only [matches_anchored]
  constructor
  · rintro ⟨_, _, _, rfl, rfl, rfl, rfl⟩
    simp
  · rintro rfl
    exact ⟨[], candidate, [], by simp, rfl, rfl, rfl⟩

end Pattern

namespace Matcher

variable {first second : Matcher}

theorem selects_congr
    (h : ∀ candidate, first.matchesName candidate = second.matchesName candidate) :
    first.selects = second.selects := by
  have hnames : first.matchesName = second.matchesName := funext h
  funext definition
  rw [selects, selects, hnames]

end Matcher

namespace Tree

variable {first second : Matcher}

theorem find?_congr (h : first.selects = second.selects) (tree : Tree) :
    tree.find? first = tree.find? second := by
  rw [find?, find?, h]

theorem remove_congr (h : first.selects = second.selects) (tree : Tree) :
    tree.remove first = tree.remove second := by
  rw [remove, remove, find?_congr h, h]

theorem consume_congr (h : first.selects = second.selects) (tree source : Tree) :
    tree.consume source first = tree.consume source second := by
  rw [consume, consume, remove_congr h, h]

theorem consumeFrom_congr (h : first.selects = second.selects) (tree : Tree)
    (source : Source) : tree.consumeFrom source first = tree.consumeFrom source second := by
  unfold consumeFrom
  simp only [consume_congr h]

end Tree

theorem Matcher.wholeName_matchesName (name : String) :
    ∃ pattern, Pattern.parse? (Pattern.wholeName name) = some pattern ∧
      ∀ candidate, (Matcher.pattern pattern).matchesName candidate =
        (Matcher.name name).matchesName candidate := by
  refine ⟨⟨Pattern.wholeName name, Pattern.anchored name.toList⟩, ?_, ?_⟩
  · rw [Pattern.parse?, Pattern.regex?_wholeName]
    rfl
  · intro candidate
    rw [Bool.eq_iff_iff]
    show (Pattern.anchored name.toList).isMatch candidate.toList = true ↔
      (name == candidate) = true
    rw [Pattern.isMatch_anchored, String.toList_inj, beq_iff_eq, eq_comm]

/-- The pattern of a whole name can be read, and is found in this name only.  Searching,
removing and moving by it is the same as by the name itself. -/
theorem Matcher.wholeName_selects (name : String) :
    ∃ pattern, Pattern.parse? (Pattern.wholeName name) = some pattern ∧
      (∀ candidate, (Matcher.pattern pattern).matchesName candidate =
        (Matcher.name name).matchesName candidate) ∧
      ∀ tree : Tree,
        tree.find? (.pattern pattern) = tree.find? (.name name) ∧
        tree.remove (.pattern pattern) = tree.remove (.name name) ∧
        (∀ source : Tree,
          tree.consume source (.pattern pattern) = tree.consume source (.name name)) ∧
        ∀ source : Source,
          tree.consumeFrom source (.pattern pattern) =
            tree.consumeFrom source (.name name) := by
  obtain ⟨pattern, hparse, hmatches⟩ := wholeName_matchesName name
  have hselects := selects_congr hmatches
  exact ⟨pattern, hparse, hmatches, fun tree => ⟨Tree.find?_congr hselects tree,
    Tree.remove_congr hselects tree, Tree.consume_congr hselects tree,
    Tree.consumeFrom_congr hselects tree⟩⟩

end SchemaLoom
