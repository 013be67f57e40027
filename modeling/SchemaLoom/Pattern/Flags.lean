import SchemaLoom.Pattern.Regex

namespace SchemaLoom.Pattern

/-! Flags change the meaning of what stands behind them, up to the end of the group
that they are set in. -/

structure Flags where
  ignoreCase : Bool
  everyLine : Bool
  dotAll : Bool
  deriving DecidableEq, Repr

namespace Flags

def off : Flags := { ignoreCase := false, everyLine := false, dotAll := false }

/-- Sets or clears a flag.  Two more are known, but whether there is a match in an
ASCII text does not depend on them. -/
def set? (flags : Flags) (value : Bool) (letter : Char) : Option Flags :=
  match letter with
  | 'i' => some { flags with ignoreCase := value }
  | 'm' => some { flags with everyLine := value }
  | 's' => some { flags with dotAll := value }
  | 'u' | 'U' => some flags
  | _ => none

/-- Sets the flags in front of the dash, and clears those behind it. -/
def change? (flags : Flags) (text : List Char) : Option Flags := do
  let wanted := text.takeWhile (· != '-')
  let flags ← wanted.foldlM (set? · true) flags
  (text.drop (wanted.length + 1)).foldlM (set? · false) flags

def dot (flags : Flags) : CharSet :=
  if flags.dotAll then .any else .inLine

def lineStart (flags : Flags) : Assertion :=
  if flags.everyLine then .lineStart else .start

def lineFinish (flags : Flags) : Assertion :=
  if flags.everyLine then .lineFinish else .finish

end Flags

end SchemaLoom.Pattern
