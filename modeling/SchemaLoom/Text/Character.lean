namespace SchemaLoom

/-! Names: a letter or an underscore, then letters, digits and underscores,
all of them ASCII. -/

def isNameStart (char : Char) : Bool :=
  char == '_' || char.isAlpha

def isNameRest (char : Char) : Bool :=
  char == '_' || char.isAlphanum

def isName : List Char → Bool
  | [] => false
  | first :: rest => isNameStart first && rest.all isNameRest

def isValidName (name : String) : Bool :=
  isName name.toList

/-! Blank characters: the Unicode property `White_Space`, as closed ranges of
code points in increasing order.  The byte-order mark and the zero-width space
do not have it. -/

def blankRanges : List (Nat × Nat) :=
  [(0x09, 0x0D), (0x20, 0x20), (0x85, 0x85), (0xA0, 0xA0), (0x1680, 0x1680),
    (0x2000, 0x200A), (0x2028, 0x2029), (0x202F, 0x202F), (0x205F, 0x205F),
    (0x3000, 0x3000)]

def isBlank (char : Char) : Bool :=
  blankRanges.any fun range => range.1 ≤ char.toNat && char.toNat ≤ range.2

/-- A text with nothing but blank characters in it. -/
def allBlank (text : List Char) : Bool :=
  text.all isBlank

def trimEnd (text : List Char) : List Char :=
  (text.reverse.dropWhile isBlank).reverse

end SchemaLoom
