import SchemaLoom.Decimal.Binary64

namespace SchemaLoom.Binary64

/-! The shortest decimal that reads back as a given double.  On the grid of
multiples of `10 ^ place` only the two neighbours of the number can be nearest
to it; the coarsest grid with a neighbour inside the rounding interval gives the
fewest digits. -/

/-- A number and the interval of reals that round to it, all over one
denominator.  The ends belong to the interval iff the significand is even. -/
structure Rounding where
  number : Nat
  low : Nat
  high : Nat
  denominator : Nat
  closed : Bool

/-- A power of two lies only half as far from the double below it. -/
def rounding (significand : Nat) (exponent : Int) : Rounding :=
  let below := if significand = Nat.pow 2 52 then 1 else 2
  let (factor, denominator) := scale 1 1 (2 - exponent)
  { number := 4 * significand * factor
    low := (4 * significand - below) * factor
    high := (4 * significand + 2) * factor
    denominator
    closed := significand % 2 == 0 }

/-- Everything in units of `10 ^ place`. -/
def Rounding.onGrid (interval : Rounding) (place : Int) : Rounding :=
  if place < 0 then
    let factor := Nat.pow 10 (-place).toNat
    { interval with
      number := interval.number * factor
      low := interval.low * factor
      high := interval.high * factor }
  else
    { interval with denominator := interval.denominator * Nat.pow 10 place.toNat }

def Rounding.contains (interval : Rounding) (multiple : Nat) : Bool :=
  let point := multiple * interval.denominator
  if interval.closed then interval.low ≤ point && point ≤ interval.high
  else interval.low < point && point < interval.high

/-- The neighbour of the number on a grid that reads back; the nearer one if both
do, and the upper one if they are equally near. -/
def Rounding.neighbour? (interval : Rounding) (place : Int) : Option Nat :=
  let grid := interval.onGrid place
  let floor := grid.number / grid.denominator
  match grid.contains floor, grid.contains (floor + 1) with
  | true, true =>
      if grid.denominator ≤ 2 * (grid.number % grid.denominator) then
        some (floor + 1)
      else some floor
  | true, false => some floor
  | false, true => some (floor + 1)
  | false, false => none

def Rounding.search (interval : Rounding) : Nat → Int → Nat × Int
  | 0, place => ((interval.onGrid place).number / interval.denominator, place)
  | steps + 1, place =>
      match interval.neighbour? place with
      | some digits => (digits, place)
      | none => interval.search steps (place - 1)

/-- A place whose power of ten is above the number: `0.30103` is a little more
than the logarithm of two. -/
def Rounding.topPlace (interval : Rounding) : Int :=
  let bits : Int := (interval.number.log2 : Int) + 1 - interval.denominator.log2
  bits * 30103 / 100000 + 2

/-- Seventeen digits always read back, and the search starts at most a few places
above the first. -/
def Rounding.shortest (interval : Rounding) : Nat × Int :=
  interval.search 24 interval.topPlace

/-! Written form: all digits in place, with no exponent and no point behind a
whole number. -/

def positional (digits : Nat) (place : Int) : List Char :=
  let written := Nat.toDigits 10 digits
  if place < 0 then
    let fraction := (-place).toNat
    let padded := List.replicate (fraction + 1 - written.length) '0' ++ written
    padded.take (padded.length - fraction) ++
      '.' :: padded.drop (padded.length - fraction)
  else
    written ++ List.replicate place.toNat '0'

def signed (negative : Bool) (text : List Char) : List Char :=
  if negative then '-' :: text else text

def toText : Binary64 → List Char
  | .nan => "NaN".toList
  | .infinite negative => signed negative "inf".toList
  | .finite negative 0 _ => signed negative ['0']
  | .finite negative significand exponent =>
      let (digits, place) := (rounding significand exponent).shortest
      signed negative (positional digits place)

/-! Reading: a sign, digits with or without a point, and a power of ten. -/

def digitsValue (digits : List Char) : Nat :=
  digits.foldl (fun value digit => 10 * value + (digit.toNat - '0'.toNat)) 0

def unsign : List Char → Bool × List Char
  | '-' :: rest => (true, rest)
  | '+' :: rest => (false, rest)
  | text => (false, text)

def allDigits (text : List Char) : Bool :=
  !text.isEmpty && text.all Char.isDigit

def exponent? : List Char → Option Int
  | [] => some 0
  | mark :: rest =>
      let (negative, digits) := unsign rest
      if (mark == 'e' || mark == 'E') && allDigits digits then
        let value : Int := digitsValue digits
        some (if negative then -value else value)
      else none

def magnitude? (negative : Bool) (text : List Char) : Option Binary64 := do
  let whole := text.takeWhile Char.isDigit
  let (fraction, rest) := match text.dropWhile Char.isDigit with
    | '.' :: rest => (rest.takeWhile Char.isDigit, rest.dropWhile Char.isDigit)
    | rest => ([], rest)
  if (whole ++ fraction).isEmpty then none
  else
    let exponent ← exponent? rest
    some (ofDecimal negative (digitsValue (whole ++ fraction))
      (exponent - fraction.length))

/-- The double nearest to a decimal number, or one of the three texts for what is
not finite. -/
def ofText? (text : List Char) : Option Binary64 :=
  let (negative, size) := unsign text
  match size.map Char.toLower with
  | ['n', 'a', 'n'] => some .nan
  | ['i', 'n', 'f'] => some (.infinite negative)
  | ['i', 'n', 'f', 'i', 'n', 'i', 't', 'y'] => some (.infinite negative)
  | _ => magnitude? negative size

end SchemaLoom.Binary64
