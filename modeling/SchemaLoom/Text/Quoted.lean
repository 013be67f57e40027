namespace SchemaLoom.Quoted

/-! Quoted strings: the text between two double quotes.  Writing keeps every
character from the space up to `U+FFFF` but the quote and the backslash; all
else becomes an escape. -/

/-- Characters that stand for themselves in any written string. -/
def isPlain (char : Char) : Bool :=
  0x20 ≤ char.toNat && char.toNat ≤ 0xFFFF

/-- Decimal digits with zeros in front up to four places. -/
def paddedCode (char : Char) : List Char :=
  let digits := Nat.toDigits 10 char.toNat
  List.replicate (4 - digits.length) '0' ++ digits

/-- A control character, or one above `U+FFFF`, is written as its code in
decimal; reading takes four hexadecimal places, so only the other characters
are sure to come back. -/
def encodeChar (char : Char) : List Char :=
  if char = '\r' then ['\\', 'r']
  else if char = '\n' then ['\\', 'n']
  else if char = '\t' then ['\\', 't']
  else if char = '"' then ['\\', '"']
  else if char = '\\' then ['\\', '\\']
  else if isPlain char then [char]
  else '\\' :: 'u' :: paddedCode char

def encode (text : List Char) : List Char :=
  text.flatMap encodeChar

def hexDigit? (char : Char) : Option Nat :=
  if '0' ≤ char ∧ char ≤ '9' then some (char.toNat - '0'.toNat)
  else if 'a' ≤ char ∧ char ≤ 'f' then some (char.toNat - 'a'.toNat + 10)
  else if 'A' ≤ char ∧ char ≤ 'F' then some (char.toNat - 'A'.toNat + 10)
  else none

def hexDigits? (start : Nat) : List Char → Option Nat
  | [] => some start
  | char :: rest =>
      match hexDigit? char with
      | none => none
      | some digit => hexDigits? (16 * start + digit) rest

/-- The character with this code, unless it is half of a surrogate pair.  A plus
sign may stand in front of the digits. -/
def codeChar? (code : List Char) : Option Char := do
  let value ← match code with
    | '+' :: digits => hexDigits? 0 digits
    | digits => hexDigits? 0 digits
  if value.isValidChar then some (Char.ofNat value) else none

/-- What one letter behind a backslash stands for. -/
def escapeChar? (char : Char) : Option Char :=
  match char with
  | '"' => some '"'
  | '\\' => some '\\'
  | '/' => some '/'
  | 'b' => some '\x10'
  | 'f' => some '\x0c'
  | 'n' => some '\n'
  | 'r' => some '\r'
  | 't' => some '\t'
  | _ => none

/-- Reads the escapes of a quoted string; `none` for an escape that stands for
nothing. -/
def decode : List Char → Option (List Char)
  | [] => some []
  | '\\' :: 'u' :: a :: b :: c :: d :: rest => do
      let char ← codeChar? [a, b, c, d]
      let text ← decode rest
      some (char :: text)
  | '\\' :: letter :: rest => do
      let char ← escapeChar? letter
      let text ← decode rest
      some (char :: text)
  | ['\\'] => none
  | char :: rest => do
      let text ← decode rest
      some (char :: text)

end SchemaLoom.Quoted
