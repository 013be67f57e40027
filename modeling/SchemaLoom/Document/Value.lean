import SchemaLoom.Decimal.Shortest

namespace SchemaLoom

/-! Values of arguments and defaults. -/

inductive Value where
  | variable (name : String)
  | int (value : Int)
  | float (value : Binary64)
  | string (text : String)
  | boolean (value : Bool)
  | null
  | enum (name : String)
  | list (items : List Value)
  | object (members : List (String × Value))
  deriving Repr

namespace Value

/-! Object members stand in increasing order of their keys, and of two members
with one key the later is kept. -/

def insertMember (key : String) (value : Value) :
    List (String × Value) → List (String × Value)
  | [] => [(key, value)]
  | (other, held) :: rest =>
      if key < other then (key, value) :: (other, held) :: rest
      else if key = other then (key, value) :: rest
      else (other, held) :: insertMember key value rest

def ofMembers (members : List (String × Value)) : Value :=
  .object (members.foldl (fun held member => insertMember member.1 member.2 held) [])

/-- Integers are those of 64 bits with a sign. -/
def intInRange (value : Int) : Bool :=
  -(Int.pow 2 63) ≤ value && value < Int.pow 2 63

end Value

end SchemaLoom
