import SchemaLoom.Document.Pos

namespace SchemaLoom

/-! Tokens, each with the text that it is written as.  Numbers and strings keep
their text as it stands: what they mean is decided where a value is read. -/

inductive Mark where
  | openParen
  | closeParen
  | openBracket
  | closeBracket
  | openBrace
  | closeBrace
  | bang
  | dollar
  | colon
  | equals
  | at
  | pipe
  | ampersand
  | spread
  deriving DecidableEq, Repr

def Mark.text : Mark → List Char
  | .openParen => ['(']
  | .closeParen => [')']
  | .openBracket => ['[']
  | .closeBracket => [']']
  | .openBrace => ['\x7b']
  | .closeBrace => ['\x7d']
  | .bang => ['!']
  | .dollar => ['$']
  | .colon => [':']
  | .equals => ['=']
  | .at => ['@']
  | .pipe => ['|']
  | .ampersand => ['&']
  | .spread => ['.', '.', '.']

/-- The mark that one character is. -/
def Mark.ofChar? : Char → Option Mark
  | '(' => some .openParen
  | ')' => some .closeParen
  | '[' => some .openBracket
  | ']' => some .closeBracket
  | '\x7b' => some .openBrace
  | '\x7d' => some .closeBrace
  | '!' => some .bang
  | '$' => some .dollar
  | ':' => some .colon
  | '=' => some .equals
  | '@' => some .at
  | '|' => some .pipe
  | '&' => some .ampersand
  | _ => none

inductive Token where
  | mark (sign : Mark)
  | name (text : List Char)
  | int (text : List Char)
  | float (text : List Char)
  | quoted (inside : List Char)
  | block (inside : List Char)
  deriving DecidableEq, Repr

def tripleQuote : List Char := ['"', '"', '"']

def Token.text : Token → List Char
  | .mark sign => sign.text
  | .name text => text
  | .int text => text
  | .float text => text
  | .quoted inside => '"' :: inside ++ ['"']
  | .block inside => tripleQuote ++ inside ++ tripleQuote

/-- The tokens of a text, each at the position where it starts.  `done` is the end
of the text; `broken` is a place where no token starts, and nothing is read
behind it. -/
inductive Tokens where
  | done (pos : Pos)
  | broken (pos : Pos)
  | next (pos : Pos) (token : Token) (rest : Tokens)
  deriving DecidableEq, Repr

namespace Tokens

def pos : Tokens → Pos
  | .done pos => pos
  | .broken pos => pos
  | .next pos _ _ => pos

def head? : Tokens → Option Token
  | .next _ token _ => some token
  | _ => none

end Tokens

end SchemaLoom
