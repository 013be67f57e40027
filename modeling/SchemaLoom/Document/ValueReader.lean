import SchemaLoom.Document.Reader

namespace SchemaLoom

/-! Reading values.  A constant value holds no variable at any depth. -/

inductive ValueSort where
  | constant
  | open
  deriving DecidableEq, Repr

/-- Three names are values of their own; every other name is an enum value. -/
def Value.ofName (name : String) : Value :=
  if name = "true" then .boolean true
  else if name = "false" then .boolean false
  else if name = "null" then .null
  else .enum name

/-- An integer out of range is no value. -/
def Value.ofIntText? (text : List Char) : Option Value :=
  let magnitude : Int := Binary64.digitsValue (text.filter Char.isDigit)
  let value := if text.head? = some '-' then -magnitude else magnitude
  if intInRange value then some (.int value) else none

/-- The value that one token is; a string takes a reader of its own. -/
def Value.ofToken? : Token → Option Value
  | .name text => some (ofName (String.ofList text))
  | .int text => ofIntText? text
  | .float text => (Binary64.ofText? text).map .float
  | _ => none

namespace Reader

def startsValue (sort : ValueSort) : Token → Bool
  | .name _ | .int _ | .float _ | .quoted _ | .block _ => true
  | .mark .openBracket | .mark .openBrace => true
  | .mark .dollar => sort == .open
  | _ => false

/-- A value that nests no deeper than there are tokens in the bound. -/
def valueWithin (sort : ValueSort) : Tokens → Reader Value
  | .next _ _ bound => do
      match ← peek with
      | some (.mark .dollar) =>
          if sort == .open then
            mark .dollar
            return .variable (← name)
          else fail
      | some (.mark .openBracket) => do
          mark .openBracket
          let items ← many (startsValue sort) (valueWithin sort bound)
          mark .closeBracket
          return .list items
      | some (.mark .openBrace) => do
          mark .openBrace
          let members ← many isName (do
            let key ← name
            mark .colon
            let value ← valueWithin sort bound
            return (key, value))
          mark .closeBrace
          return .ofMembers members
      | some (.quoted _) | some (.block _) => return .string (← text)
      | _ => take Value.ofToken?
  | _ => fail

/-- Every value takes a token in front of those inside it, so the tokens that are
left bound its depth. -/
def value (sort : ValueSort) : Reader Value := do
  valueWithin sort (← get)

end Reader

end SchemaLoom
