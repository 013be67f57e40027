import SchemaLoom.Text.Character
import SchemaLoom.Text.Split

namespace SchemaLoom.Block

/-! Block strings: the text between two triple quotes.  The margin that all
lines but the first share is not part of the text, nor are blank lines at either
end.  A margin is measured in bytes of UTF-8. -/

def byteSize (text : List Char) : Nat :=
  (text.map Char.utf8Size).foldr (· + ·) 0

/-- Bytes of the blank characters that a line starts with. -/
def indent (line : List Char) : Nat :=
  byteSize (line.takeWhile isBlank)

/-- The least indent of the lines that are not blank. -/
def margin (lines : List (List Char)) : Option Nat :=
  ((lines.filter (!allBlank ·)).map indent).min?

/-- The line without its first `size` bytes; `none` if they end inside a
character. -/
def dropBytes : Nat → List Char → Option (List Char)
  | 0, line => some line
  | _ + 1, [] => some []
  | size + 1, char :: rest =>
      if char.utf8Size ≤ size + 1 then
        dropBytes (size + 1 - char.utf8Size) rest
      else none

/-- A line shorter than the margin keeps what it has. -/
def cutMargin (size : Nat) (line : List Char) : Option (List Char) :=
  if size ≤ byteSize line then dropBytes size line else some line

def dropBlankEnd (lines : List (List Char)) : List (List Char) :=
  (lines.reverse.dropWhile allBlank).reverse

/-- A triple quote behind a backslash is a plain triple quote. -/
def unescapeQuotes : List Char → List Char
  | '\\' :: '"' :: '"' :: '"' :: rest => '"' :: '"' :: '"' :: unescapeQuotes rest
  | char :: rest => char :: unescapeQuotes rest
  | [] => []

def escapeQuotes : List Char → List Char
  | '"' :: '"' :: '"' :: rest => '\\' :: '"' :: '"' :: '"' :: escapeQuotes rest
  | char :: rest => char :: escapeQuotes rest
  | [] => []

/-- The lines that are kept: none that is blank at either end, and all but the
first without the common margin.  `none` if the margin ends inside a character
of such a line. -/
def dedent : List (List Char) → Option (List (List Char))
  | [] => some []
  | first :: rest =>
      let cut := cutMargin ((margin rest).getD 0)
      if allBlank first then
        ((dropBlankEnd rest).dropWhile allBlank).mapM cut
      else
        ((dropBlankEnd rest).mapM cut).map (first :: ·)

/-- The text of a block string; `none` if its margin ends inside a character. -/
def decode (raw : List Char) : Option (List Char) :=
  (dedent (splitLines raw)).map fun lines =>
    joinLines (lines.map unescapeQuotes)

/-- The inside of a block string that starts at the given indent: every line that
is not blank is set in by two more places. -/
def encode (indent : Nat) (text : List Char) : List Char :=
  '\n' :: (splitLines text).flatMap (fun line =>
      (if allBlank line then []
        else List.replicate (indent + 2) ' ' ++ escapeQuotes line) ++ ['\n'])
    ++ List.replicate indent ' '

end SchemaLoom.Block
