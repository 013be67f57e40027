import SchemaLoom.Pattern.Flags
import SchemaLoom.Pattern.OpenSet

namespace SchemaLoom

/-! Patterns: the text form of regular expressions.  Their symbols are taken one by
one, with a stack of the groups that are open. -/

namespace Pattern

/-- A number, perhaps between blanks. -/
def number? (text : List Char) : Option Nat :=
  let digits := trimEnd (text.dropWhile isBlank)
  if digits.isEmpty || !digits.all Char.isDigit then none
  else some (digits.foldl (fun value digit => 10 * value + (digit.toNat - 48)) 0)

/-- The counts between the braces of a repetition: one, or a least and perhaps a
greatest. -/
def counts? (text : List Char) : Option (Nat × Option Nat) :=
  let first := text.takeWhile (· != ',')
  match text.dropWhile (· != ',') with
  | [] => (number? first).map fun count => (count, some count)
  | [_] => (number? first).map fun least => (least, none)
  | _ :: second => do
      let least ← number? first
      let most ← number? second
      if least ≤ most then some (least, some most) else none

/-! The reader's state: what the last symbols have begun, and the open groups. -/

inductive Mode where
  | plain
  /-- Right behind a repetition, where a question mark only says which match to
  prefer; whether there is one does not depend on it. -/
  | repeated
  /-- Right behind the parenthesis of a group. -/
  | opened
  /-- Behind the question mark of a group that has flags or a name, or only no
  number. -/
  | groupHead (text : List Char)
  /-- In a set, and the sets that it is nested in. -/
  | set (place : SetPlace) (current : OpenSet) (outer : List OpenSet)
  | counts (text : List Char)

/-- An open group: the flags outside it, the alternatives in front of its last bar,
and what stands behind it, the last part first. -/
structure Group where
  outside : Flags
  done : Option Regex
  last : List Regex

def Group.fresh (outside : Flags) : Group := ⟨outside, none, []⟩

def Group.sequence (group : Group) : Regex :=
  match group.last with
  | [] => .empty
  | regex :: before => before.foldl (fun behind first => .seq first behind) regex

def Group.regex (group : Group) : Regex :=
  match group.done with
  | none => group.sequence
  | some regex => .alt regex group.sequence

structure State where
  flags : Flags
  mode : Mode
  groups : List Group

namespace State

/-- Puts a part behind the others of the innermost group. -/
def put (state : State) (regex : Regex) : Option State :=
  match state.groups with
  | [] => none
  | group :: outer =>
      some { state with
        mode := .plain
        groups := { group with last := regex :: group.last } :: outer }

def putChar (state : State) (char : Char) : Option State :=
  state.put (.set (OpenSet.fold state.flags.ignoreCase (.single char)))

/-- Repeats the last part. -/
def repeatLast (state : State) (least : Nat) (most : Option Nat) : Option State :=
  match state.groups with
  | { outside, done, last := regex :: before } :: outer =>
      let last := .repeated regex least most :: before
      some { state with
        mode := .repeated
        groups := { outside, done, last } :: outer }
  | _ => none

def openGroup (state : State) : State :=
  { state with mode := .opened, groups := .fresh state.flags :: state.groups }

def closeGroup (state : State) : Option State :=
  match state.groups with
  | group :: outer :: rest =>
      { state with flags := group.outside, groups := outer :: rest }.put group.regex
  | _ => none

/-- Makes a group that holds nothing but flags a change of flags around it. -/
def changeFlags (state : State) (text : List Char) : Option State :=
  match state.groups with
  | _ :: outer :: rest => do
      let flags ← state.flags.change? text
      return { flags, mode := .plain, groups := outer :: rest }
  | _ => none

/-- Takes a symbol between the question mark and the body of a group. -/
def takeInHead (state : State) (text : List Char) (symbol : Symbol) : Option State :=
  match symbol with
  | .sign ':' => do
      return { state with flags := ← state.flags.change? text, mode := .plain }
  | .sign ')' => if text.isEmpty then none else state.changeFlags text
  | .sign '>' =>
      if text.head? = some '<' ∨ text.take 2 = ['P', '<'] then
        some { state with mode := .plain }
      else none
  | .sign char => some { state with mode := .groupHead (text ++ [char]) }
  | _ => none

def bar (state : State) : Option State :=
  match state.groups with
  | [] => none
  | group :: outer =>
      let group := { group with done := some group.regex, last := [] }
      some { state with mode := .plain, groups := group :: outer }

def openSet (state : State) (outer : List OpenSet) : State :=
  { state with mode := .set .first .fresh outer }

def closeSet (state : State) (current : OpenSet) (outer : List OpenSet) :
    Option State :=
  let chars := current.close state.flags.ignoreCase
  match outer with
  | [] => state.put (.set chars)
  | next :: outer => some { state with mode := .set .inside (next.add chars) outer }

def takeSign (state : State) (char : Char) : Option State :=
  match char with
  | '(' => some state.openGroup
  | ')' => state.closeGroup
  | '|' => state.bar
  | '*' => state.repeatLast 0 none
  | '+' => state.repeatLast 1 none
  | '?' => state.repeatLast 0 (some 1)
  | '\x7b' => some { state with mode := .counts [] }
  | '[' => some (state.openSet [])
  | '.' => state.put (.set state.flags.dot)
  | '^' => state.put (.assertion state.flags.lineStart)
  | '$' => state.put (.assertion state.flags.lineFinish)
  | _ => state.putChar char

def takePlain (state : State) (symbol : Symbol) : Option State :=
  match symbol with
  | .sign char => state.takeSign char
  | .literal char => state.putChar char
  | .set chars => state.put (.set chars)
  | .assertion condition => state.put (.assertion condition)
  | .named .. => none

/-- Takes a symbol in a set.  Dashes at the start stand for themselves, and so does
a bracket that would close the set with nothing in it. -/
def takeInSet (state : State) (place : SetPlace) (current : OpenSet)
    (outer : List OpenSet) (symbol : Symbol) : Option State :=
  let go (place : SetPlace) (current : OpenSet) : State :=
    { state with mode := .set place current outer }
  if place = .first ∧ symbol = .sign '^' ∧ !current.negated then
    some (go .first { current with negated := true })
  else if place ≠ .inside ∧ symbol = .sign '-' then
    some (go .dashes (current.add (.single '-')))
  else if place = .first ∧ symbol = .sign ']' then
    some (go .inside (current.add (.single ']')))
  else if symbol = .sign ']' then
    if current.dashed then
      state.closeSet (current.settle.add (.single '-')) outer
    else state.closeSet current outer
  else if symbol = .sign '[' ∧ !current.dashed then
    some (state.openSet (current.settle :: outer))
  else (current.take? state.flags.ignoreCase symbol).map (go .inside)

def takeSymbol (state : State) (symbol : Symbol) : Option State :=
  match state.mode with
  | .plain => state.takePlain symbol
  | .repeated =>
      if symbol = .sign '?' then some { state with mode := .plain }
      else state.takePlain symbol
  | .opened =>
      if symbol = .sign '?' then some { state with mode := .groupHead [] }
      else state.takePlain symbol
  | .groupHead text => state.takeInHead text symbol
  | .set place current outer => state.takeInSet place current outer symbol
  | .counts text =>
      match symbol with
      | .sign '\x7d' => do
          let (least, most) ← counts? text
          state.repeatLast least most
      | .sign char => some { state with mode := .counts (text ++ [char]) }
      | _ => none

/-- Whether a class by its name has a meaning here. -/
def takesNamed (state : State) : Bool :=
  match state.mode with
  | .set _ current _ => !current.dashed
  | _ => false

def step (state : State) (symbol : Symbol) : Option State :=
  match symbol with
  | .named _ _ source =>
      if state.takesNamed then state.takeSymbol symbol
      else source.foldlM (fun state char => state.takeSymbol (.sign char)) state
  | _ => state.takeSymbol symbol

/-- The expression that has been read, if nothing is left open. -/
def finish (state : State) : Option Regex :=
  match state.mode, state.groups with
  | .plain, [group] => some group.regex
  | .repeated, [group] => some group.regex
  | _, _ => none

end State

def regex? (text : List Char) : Option Regex := do
  let symbols ← symbols? text
  let state ← symbols.foldlM State.step
    { flags := .off, mode := .plain, groups := [.fresh .off] }
  state.finish

end Pattern

/-- A regular expression together with the text it was read from. -/
structure Pattern where
  source : String
  regex : Regex
  deriving DecidableEq, Repr

namespace Pattern

def parse? (source : String) : Option Pattern :=
  (regex? source.toList).map fun regex => { source, regex }

def isMatch (pattern : Pattern) (name : String) : Bool :=
  pattern.regex.isMatch name.toList

end Pattern

end SchemaLoom
