namespace SchemaLoom.Utf8

/-! UTF-8 read byte by byte.  A character is a lead byte and the bytes that have
to follow it, each within its own range; the ranges rule out overlong forms,
surrogates and codes above `U+10FFFF`. -/

/-- Why bytes are no UTF-8, and where the bad sequence starts.  `invalid` counts
the bytes of it that some character starts with; `incomplete` is a sequence that
the end of the text cut short. -/
inductive Fault where
  | invalid (count : Nat) (index : Nat)
  | incomplete (index : Nat)
  deriving DecidableEq, Repr

def Fault.message : Fault → String
  | .invalid count index =>
      s!"invalid utf-8 sequence of {count} bytes from index {index}"
  | .incomplete index =>
      s!"incomplete utf-8 byte sequence from index {index}"

def continuation : Nat × Nat := (0x80, 0xBF)

/-- What a lead byte gives to the code, and the ranges of the bytes behind it. -/
def lead? (byte : Nat) : Option (Nat × List (Nat × Nat)) :=
  if byte ≤ 0x7F then some (byte, [])
  else if byte < 0xC2 then none
  else if byte ≤ 0xDF then some (byte - 0xC0, [continuation])
  else if byte = 0xE0 then some (0, [(0xA0, 0xBF), continuation])
  else if byte = 0xED then some (0x0D, [(0x80, 0x9F), continuation])
  else if byte ≤ 0xEF then some (byte - 0xE0, [continuation, continuation])
  else if byte = 0xF0 then some (0, [(0x90, 0xBF), continuation, continuation])
  else if byte ≤ 0xF3 then
    some (byte - 0xF0, [continuation, continuation, continuation])
  else if byte = 0xF4 then some (4, [(0x80, 0x8F), continuation, continuation])
  else none

/-- A character that is being read: where it started, its code so far, and the
ranges of the bytes it still needs. -/
structure Pending where
  start : Nat
  code : Nat
  owed : List (Nat × Nat)

def decodeFrom (index : Nat) :
    Option Pending → List UInt8 → Except Fault (List Char)
  | none, [] => .ok []
  | some pending, [] => .error (.incomplete pending.start)
  | none, byte :: rest =>
      match lead? byte.toNat with
      | none => .error (.invalid 1 index)
      | some (code, []) =>
          (Char.ofNat code :: ·) <$> decodeFrom (index + 1) none rest
      | some (code, owed) =>
          decodeFrom (index + 1) (some ⟨index, code, owed⟩) rest
  | some pending, byte :: rest =>
      match pending.owed with
      | [] => .error (.invalid 1 index)
      | (low, high) :: owed =>
          if low ≤ byte.toNat ∧ byte.toNat ≤ high then
            let code := 64 * pending.code + (byte.toNat - 0x80)
            match owed with
            | [] => (Char.ofNat code :: ·) <$> decodeFrom (index + 1) none rest
            | _ => decodeFrom (index + 1) (some { pending with code, owed }) rest
          else
            .error (.invalid (index - pending.start) pending.start)

def decode (bytes : List UInt8) : Except Fault (List Char) :=
  decodeFrom 0 none bytes

end SchemaLoom.Utf8
