import SchemaLoom.Pattern.Symbol

namespace SchemaLoom.Pattern

/-! Sets of a pattern while they are being read. -/

inductive SetOperation where
  | both
  | without
  | onlyOne
  deriving DecidableEq, Repr

namespace SetOperation

/-- An operation is written as two of these signs. -/
def ofSign? : Char → Option SetOperation
  | '&' => some .both
  | '-' => some .without
  | '~' => some .onlyOne
  | _ => none

def apply : SetOperation → CharSet → CharSet → CharSet
  | .both => .both
  | .without => .without
  | .onlyOne => .onlyOne

end SetOperation

/-- Where in a set the next symbol stands. -/
inductive SetPlace where
  /-- Right behind the bracket, and the caret if there is one. -/
  | first
  /-- Behind the dashes that a set starts with. -/
  | dashes
  | inside
  deriving DecidableEq, Repr

/-- An open set: the first operand of the last operation, the members that have
been read behind it, the last symbol apart because a range or an operation may
start with it, and whether a dash stands behind that symbol. -/
structure OpenSet where
  negated : Bool
  operation : Option (SetOperation × CharSet)
  members : CharSet
  last : Option Symbol
  dashed : Bool
  deriving DecidableEq, Repr

namespace OpenSet

def fresh : OpenSet :=
  { negated := false
    operation := none
    members := .empty
    last := none
    dashed := false }

def add (current : OpenSet) (chars : CharSet) : OpenSet :=
  { current with members := .either current.members chars }

/-- Makes the last symbol a member of its own. -/
def settle (current : OpenSet) : OpenSet :=
  { current.add ((current.last.bind Symbol.chars?).getD .empty) with
    last := none
    dashed := false }

/-- Letter case is ignored in each operand by itself, and before a set is negated. -/
def fold (ignoreCase : Bool) (chars : CharSet) : CharSet :=
  if ignoreCase then .anyCase chars else chars

/-- What the set holds so far. -/
def result (ignoreCase : Bool) (current : OpenSet) : CharSet :=
  let chars := fold ignoreCase current.members
  match current.operation with
  | none => chars
  | some (operation, first) => operation.apply first chars

def close (ignoreCase : Bool) (current : OpenSet) : CharSet :=
  let chars := current.settle.result ignoreCase
  if current.negated then .outside chars else chars

def operate (ignoreCase : Bool) (operation : SetOperation) (current : OpenSet) :
    OpenSet :=
  { current with
    operation := some (operation, current.result ignoreCase)
    members := .empty }

/-- Ends the range that the last symbol and the dash have begun. -/
def endRange (current : OpenSet) (symbol : Symbol) : Option OpenSet := do
  let low ← current.last.bind Symbol.char?
  let high ← symbol.char?
  if low ≤ high then
    return { current.add (.range low high) with last := none, dashed := false }
  else none

/-- Takes a sign that does not open or close a set.  Two of a kind may be an
operation.  A dash behind a member may be in the middle of a range. -/
def takeSign (ignoreCase : Bool) (current : OpenSet) (char : Char) : OpenSet :=
  match SetOperation.ofSign? char with
  | some operation =>
      if current.last = some (.sign char) then
        { current with last := none }.operate ignoreCase operation
      else if char = '-' ∧ current.last.isSome then { current with dashed := true }
      else { current.settle with last := some (.sign char) }
  | none => { current.settle with last := some (.sign char) }

def take? (ignoreCase : Bool) (current : OpenSet) (symbol : Symbol) :
    Option OpenSet :=
  if current.dashed then
    if symbol = .sign '-' then some (current.settle.operate ignoreCase .without)
    else current.endRange symbol
  else
    match symbol with
    | .sign char => some (current.takeSign ignoreCase char)
    | .named negated chars _ =>
        let chars := fold ignoreCase chars
        some (current.settle.add (if negated then .outside chars else chars))
    | .assertion _ => none
    | _ => some { current.settle with last := some symbol }

end OpenSet

end SchemaLoom.Pattern
