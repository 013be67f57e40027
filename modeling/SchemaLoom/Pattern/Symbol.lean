import SchemaLoom.Pattern.Regex
import SchemaLoom.Text.Quoted

namespace SchemaLoom.Pattern

/-! Symbols: the smallest parts of a pattern that mean something. -/

inductive Symbol where
  /-- A character written as it is, which may have a meaning where it stands. -/
  | sign (char : Char)
  /-- An escape for a character. -/
  | literal (char : Char)
  | set (chars : CharSet)
  | assertion (condition : Assertion)
  /-- A class by its name.  Only inside a set does it stand for the class; in any
  other place its characters are signs. -/
  | named (negated : Bool) (chars : CharSet) (source : List Char)
  deriving DecidableEq, Repr

namespace Symbol

def char? : Symbol → Option Char
  | .sign char => some char
  | .literal char => some char
  | _ => none

def chars? : Symbol → Option CharSet
  | .set chars => some chars
  | symbol => symbol.char?.map .single

/-- What one character behind a backslash stands for.  Signs stand for themselves;
letters and digits that are not listed have no meaning. -/
def escaped? (char : Char) : Option Symbol :=
  match char with
  | 'd' => some (.set .digit)
  | 'D' => some (.set (.outside .digit))
  | 'w' => some (.set .word)
  | 'W' => some (.set (.outside .word))
  | 's' => some (.set .blank)
  | 'S' => some (.set (.outside .blank))
  | 'a' => some (.literal '\x07')
  | 'f' => some (.literal '\x0c')
  | 'n' => some (.literal '\n')
  | 'r' => some (.literal '\r')
  | 't' => some (.literal '\t')
  | 'v' => some (.literal '\x0b')
  | 'A' => some (.assertion .start)
  | 'z' => some (.assertion .finish)
  | 'b' => some (.assertion .boundary)
  | 'B' => some (.assertion .noBoundary)
  | '<' => some (.assertion .wordStart)
  | '>' => some (.assertion .wordFinish)
  | _ => if char.toNat < 0x80 ∧ !char.isAlphanum then some (.literal char) else none

/-- Assertions that have a name, in braces behind the escape for a boundary. -/
def namedAssertions : List (String × Assertion) :=
  [("\x7bstart\x7d", .wordStart), ("\x7bend\x7d", .wordFinish),
    ("\x7bstart-half\x7d", .noWordBefore), ("\x7bend-half\x7d", .noWordBehind)]

/-- The character with this code. -/
def coded? (digits : List Char) : Option Symbol := do
  if digits.isEmpty then none
  let code ← Quoted.hexDigits? 0 digits
  if code.isValidChar then some (.literal (Char.ofNat code)) else none

/-! Readers get the text behind the first character of a symbol, and also say how
much of it belongs to the symbol. -/

/-- Reads a code: digits in braces, or a fixed number of them. -/
def readCode? (width : Nat) (text : List Char) : Option (Symbol × Nat) :=
  match text with
  | '\x7b' :: rest => do
      let digits := rest.takeWhile (· != '\x7d')
      let '\x7d' :: _ := rest.drop digits.length | none
      return (← coded? digits, digits.length + 2)
  | _ => do
      let digits := text.take width
      if digits.length < width then none
      return (← coded? digits, width)

def readEscape? (text : List Char) : Option (Symbol × Nat) :=
  let behind (result : Option (Symbol × Nat)) : Option (Symbol × Nat) :=
    result.map fun (symbol, length) => (symbol, length + 1)
  match text with
  | [] => none
  | 'x' :: rest => behind (readCode? 2 rest)
  | 'u' :: rest => behind (readCode? 4 rest)
  | 'U' :: rest => behind (readCode? 8 rest)
  | 'b' :: rest =>
      match namedAssertions.find? fun (name, _) => name.toList.isPrefixOf rest with
      | some (name, condition) => some (.assertion condition, name.length + 1)
      | none => some (.assertion .boundary, 1)
  | char :: _ => (escaped? char).map (·, 1)

/-- Reads a class by its name: a colon, perhaps a caret, the name, a colon and a
bracket. -/
def readNamed? (text : List Char) : Option (Symbol × Nat) := do
  let ':' :: rest := text | none
  let negated := rest.head? == some '^'
  let rest := if negated then rest.drop 1 else rest
  let name := rest.takeWhile (· != ':')
  let ':' :: ']' :: _ := rest.drop name.length | none
  let chars ← CharSet.named.lookup (String.ofList name)
  let length := name.length + (if negated then 4 else 3)
  return (.named negated chars ('[' :: text.take length), length)

def read? (char : Char) (text : List Char) : Option (Symbol × Nat) :=
  match char with
  | '\\' => readEscape? text
  | '[' => some ((readNamed? text).getD (.sign '[', 0))
  | _ => some (.sign char, 0)

end Symbol

/-- The symbols of a text, of which so many characters have been read. -/
def symbolsBehind? : Nat → List Char → Option (List Symbol)
  | _, [] => some []
  | read + 1, _ :: rest => symbolsBehind? read rest
  | 0, char :: rest => do
      let (symbol, length) ← Symbol.read? char rest
      return symbol :: (← symbolsBehind? length rest)

def symbols? (text : List Char) : Option (List Symbol) :=
  symbolsBehind? 0 text

end SchemaLoom.Pattern
