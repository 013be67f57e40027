namespace SchemaLoom

/-! Positions in a text: line and column, both from one. -/

structure Pos where
  line : Nat
  column : Nat
  deriving DecidableEq, Repr

namespace Pos

def start : Pos := ⟨1, 1⟩

def right (pos : Pos) (columns : Nat) : Pos :=
  { pos with column := pos.column + columns }

def newLine (pos : Pos) : Pos :=
  ⟨pos.line + 1, 1⟩

/-- The position behind a text.  Every character but the line feed takes one
column. -/
def past (pos : Pos) (text : List Char) : Pos :=
  text.foldl (fun pos char => if char = '\n' then pos.newLine else pos.right 1) pos

end Pos

end SchemaLoom
