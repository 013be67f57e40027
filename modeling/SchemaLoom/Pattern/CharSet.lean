import SchemaLoom.Text.Character

namespace SchemaLoom

/-! Sets of characters, built from ranges. -/

inductive CharSet where
  | empty
  | range (low high : Char)
  | either (first second : CharSet)
  | both (first second : CharSet)
  | without (first second : CharSet)
  | onlyOne (first second : CharSet)
  | outside (chars : CharSet)
  | anyCase (chars : CharSet)
  deriving DecidableEq, Repr

/-- The ASCII letter of the other case. -/
def swapCase (char : Char) : Char :=
  if char.isUpper then char.toLower else char.toUpper

def kelvinSign : Char := '\u212a'

def longS : Char := '\u017f'

/-- The characters that differ from this one in case only.  The Kelvin sign and the
long s are the only ones beyond ASCII that share their cases with ASCII letters.
Names are ASCII, so the cases of other letters do not matter. -/
def caseVariants (char : Char) : List Char :=
  if char ∈ ['k', 'K', kelvinSign] then ['k', 'K', kelvinSign]
  else if char ∈ ['s', 'S', longS] then ['s', 'S', longS]
  else [char, swapCase char]

namespace CharSet

def contains : CharSet → Char → Bool
  | .empty, _ => false
  | .range low high, char => low ≤ char && char ≤ high
  | .either first second, char => first.contains char || second.contains char
  | .both first second, char => first.contains char && second.contains char
  | .without first second, char => first.contains char && !second.contains char
  | .onlyOne first second, char => first.contains char != second.contains char
  | .outside chars, char => !chars.contains char
  | .anyCase chars, char => (caseVariants char).any chars.contains

def single (char : Char) : CharSet := .range char char

def ofRanges (ranges : List (Char × Char)) : CharSet :=
  ranges.foldr (fun range chars => .either (.range range.1 range.2) chars) .empty

/-! Classes.  A class that is not limited to ASCII lists only what a name can meet:
ASCII characters, and their case variants. -/

def digit : CharSet := .range '0' '9'

def upper : CharSet := .range 'A' 'Z'

def lower : CharSet := .range 'a' 'z'

def asciiWord : CharSet :=
  ofRanges [('0', '9'), ('A', 'Z'), ('_', '_'), ('a', 'z')]

def word : CharSet :=
  .either asciiWord (.either (single kelvinSign) (single longS))

def blank : CharSet :=
  ofRanges (blankRanges.map fun range => (Char.ofNat range.1, Char.ofNat range.2))

def any : CharSet := .outside .empty

/-- All characters but the line feed. -/
def inLine : CharSet := .outside (single '\n')

/-- The classes that have a name. -/
def named : List (String × CharSet) :=
  [("alnum", ofRanges [('0', '9'), ('A', 'Z'), ('a', 'z')]),
    ("alpha", .either upper lower),
    ("ascii", .range '\x00' '\x7f'),
    ("blank", .either (single '\t') (single ' ')),
    ("cntrl", .either (.range '\x00' '\x1f') (single '\x7f')),
    ("digit", digit),
    ("graph", .range '!' '~'),
    ("lower", lower),
    ("print", .range ' ' '~'),
    ("punct", ofRanges [('!', '/'), (':', '@'), ('[', '\x60'), ('\x7b', '~')]),
    ("space", .either (.range '\t' '\r') (single ' ')),
    ("upper", upper),
    ("word", asciiWord),
    ("xdigit", ofRanges [('0', '9'), ('A', 'F'), ('a', 'f')])]

end CharSet

end SchemaLoom
