import SchemaLoom.Document.Definition
import SchemaLoom.Text.Block
import SchemaLoom.Text.Quoted
import SchemaLoom.Token.Basic

namespace SchemaLoom

/-! Reading tokens.  A reader looks at one token ahead and never goes back: once
it has taken the first token of a construct, the construct has to be complete. -/

/-- Why a text is no document.  `unexpected` is the first token that does not fit,
or the end of the text; `tornMargin` is a block string whose margin ends inside a
character. -/
inductive ParseError where
  | emptyDocument
  | unexpected (pos : Pos)
  | tornMargin
  deriving DecidableEq, Repr

abbrev Reader := StateT Tokens (Except ParseError)

namespace Reader

variable {α : Type}

def failAt (pos : Pos) : Reader α :=
  throw (.unexpected pos)

/-- The position of the next token. -/
def position : Reader Pos :=
  return (← get).pos

def peek : Reader (Option Token) :=
  return (← get).head?

def fail : Reader α := do
  failAt (← position)

/-- Takes the next token if the reader of tokens makes sense of it. -/
def take (meaning : Token → Option α) : Reader α := do
  match ← get with
  | .next pos token rest =>
      match meaning token with
      | some result => set rest; return result
      | none => failAt pos
  | tokens => failAt tokens.pos

def mark (sign : Mark) : Reader Unit :=
  take fun token => if token = .mark sign then some () else none

def name : Reader String :=
  take fun
    | .name text => some (String.ofList text)
    | _ => none

def word (text : String) : Reader Unit :=
  take fun token => if token = .name text.toList then some () else none

def nextIs (wanted : Token → Bool) : Reader Bool := do
  return (← peek).any wanted

def nextIsMark (sign : Mark) : Reader Bool :=
  nextIs (· == .mark sign)

def nextIsWord (text : String) : Reader Bool :=
  nextIs (· == .name text.toList)

/-- Takes the mark if it comes next. -/
def skipMark (sign : Mark) : Reader Bool := do
  let found ← nextIsMark sign
  if found then mark sign
  return found

def skipWord (text : String) : Reader Bool := do
  let found ← nextIsWord text
  if found then word text
  return found

/-- Items, at most as many as there are tokens in the bound. -/
def manyWithin (starts : Token → Bool) (item : Reader α) :
    Tokens → Reader (List α)
  | .next _ _ bound => do
      if ← nextIs starts then
        let first ← item
        let rest ← manyWithin starts item bound
        return first :: rest
      else
        return []
  | _ => return []

/-- Items as long as the next token can start one.  Every item takes a token, so
the tokens that are left bound their number. -/
def many (starts : Token → Bool) (item : Reader α) : Reader (List α) := do
  manyWithin starts item (← get)

/-- At least one item. -/
def many1 (starts : Token → Bool) (item : Reader α) : Reader (List α) := do
  let first ← item
  let rest ← many starts item
  return first :: rest

/-- Items with a mark between them; one more may stand in front of the first. -/
def separated (sign : Mark) (item : Reader α) : Reader (List α) := do
  let _ ← skipMark sign
  let first ← item
  let rest ← many (· == .mark sign) (do mark sign; item)
  return first :: rest

/-! Strings.  An escape that stands for nothing is an error at the string. -/

def isText : Token → Bool
  | .quoted _ => true
  | .block _ => true
  | _ => false

def isName : Token → Bool
  | .name _ => true
  | _ => false

def text : Reader String := do
  match ← get with
  | .next pos (.quoted inside) rest =>
      match Quoted.decode inside with
      | some text => set rest; return String.ofList text
      | none => failAt pos
  | .next _ (.block inside) rest =>
      match Block.decode inside with
      | some text => set rest; return String.ofList text
      | none => throw .tornMargin
  | tokens => failAt tokens.pos

def description : Reader (Option String) := do
  if ← nextIs isText then
    return some (← text)
  else
    return none

end Reader

end SchemaLoom
