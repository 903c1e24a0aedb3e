import LexicalSelection.Number.Binary64

/-!
# Numbers in decimal

A number is written with the fewest digits that read back as the same number, or with a fixed number
of places, and always without an exponent.  It is read from digits with an optional point and an
optional exponent, and the number nearest to the written value is taken.

* `Decimal.shortest` — the fewest digits of a number, as a whole number and an exponent of ten.
* `Binary64.decimalText`, `Binary64.fixedText` — the two ways to write a number.
* `Binary64.ofText?` — the number that a text gives.
-/

namespace LexicalSelection

namespace Decimal

/-! ## The fewest digits -/

/-- A finite positive number between its neighbours: `value`, and the ends of the interval of what
rounds to it, all in units of `1 / den`. -/
structure Interval where
  /-- The lower end. -/
  low : Nat
  /-- The number itself. -/
  value : Nat
  /-- The upper end. -/
  high : Nat
  /-- The unit's reciprocal. -/
  den : Nat
  /-- Do the ends round to the number? -/
  closed : Bool

/-- The interval of what rounds to the number with this positive finite magnitude.  The gap below a
power of two is half of the gap above it, and the ends round to a number whose last bit is 0. -/
def interval (magnitude : Nat) : Interval :=
  let (m, e) := Binary64.unscale magnitude
  let below :=
    if magnitude % Binary64.leadingUnit = 0 ∧ Binary64.leadingUnit < magnitude then 1 else 2
  let up := twoTo e.toNat
  { low := (4 * m - below) * up, value := 4 * m * up, high := (4 * m + 2) * up
    den := 4 * twoTo (-e).toNat, closed := m % 2 = 0 }

/-- Does `d * 10 ^ k` round to the number? -/
def Interval.contains (i : Interval) (d : Nat) (k : Int) : Bool :=
  let x := d * tenTo k.toNat * i.den
  let scale := tenTo (-k).toNat
  if i.closed then i.low * scale ≤ x && x ≤ i.high * scale
  else i.low * scale < x && x < i.high * scale

/-- The multiple of `10 ^ k` that rounds to the number and is nearest to it, if one rounds to it; of
two that are as near, the larger. -/
def Interval.onGrid? (i : Interval) (k : Int) : Option Nat :=
  let num := i.value * tenTo (-k).toNat
  let den := i.den * tenTo k.toNat
  let below := num / den
  match i.contains below k, i.contains (below + 1) k with
  | true, true => some (if 2 * (num % den) < den then below else below + 1)
  | true, false => some below
  | false, true => some (below + 1)
  | false, false => none

/-- The first of the grids `10 ^ k`, `10 ^ (k - 1)`, … with a multiple that rounds to the number,
and that multiple. -/
def Interval.firstGrid (i : Interval) : Nat → Int → Nat × Int
  | 0, k => (0, k)
  | tries + 1, k =>
    match i.onGrid? k with
    | some d => (d, k)
    | none => i.firstGrid tries (k - 1)

/-- The exponent of the largest power of ten that is not above the number, or one more. -/
def Interval.magnitude10 (i : Interval) : Int :=
  ((Nat.toDigits 10 i.value).length : Int) - (Nat.toDigits 10 i.den).length

/-- The number with a positive finite magnitude by the fewest digits that read back as it, and by
the nearest of those: `d` and `k` such that it is written as `d * 10 ^ k`. -/
def shortest (magnitude : Nat) : Nat × Int :=
  let i := interval magnitude
  i.firstGrid 20 (i.magnitude10 + 1)

/-- Digits without an exponent: `d * 10 ^ k` with as many places as it needs. -/
def positional (d : Nat) (k : Int) : Text :=
  if 0 ≤ k then Text.ofNat (d * tenTo k.toNat)
  else
    let places := (-k).toNat
    let digits := Text.ofNat d
    let padded := List.replicate (places + 1 - digits.length) '0' ++ digits
    let whole := padded.take (padded.length - places)
    whole ++ '.' :: padded.drop (padded.length - places)

end Decimal

namespace Binary64

/-- The sign of a number in front of a text. -/
def signed (x : Binary64) (text : Text) : Text := if x.negative then '-' :: text else text

/-- A number with the fewest digits that read back as it, never with an exponent. -/
def decimalText (x : Binary64) : Text :=
  if x.isNaN then ['N', 'a', 'N']
  else if !x.isFinite then x.signed ['i', 'n', 'f']
  else if x.magnitude = 0 then x.signed ['0']
  else
    let (d, k) := Decimal.shortest x.magnitude
    x.signed (Decimal.positional d k)

/-- A number rounded to `places` decimal places, a half to the even neighbour. -/
def fixedText (places : Nat) (x : Binary64) : Text :=
  if x.isNaN then ['N', 'a', 'N']
  else if !x.isFinite then x.signed ['i', 'n', 'f']
  else
    let (m, e) := unscale x.magnitude
    let d := roundDiv (m * twoTo e.toNat * tenTo places) (twoTo (-e).toNat)
    x.signed (Decimal.positional d (-places))

end Binary64

namespace Decimal

/-! ## Reading -/

/-- The whole number that decimal digits give. -/
def digitsValue (digits : Text) : Nat :=
  digits.foldl (fun n c => 10 * n + (c.toNat - '0'.toNat)) 0

/-- A sign at the front of a text, and what stands behind it: is it a minus sign? -/
def splitSign : Text → Bool × Text
  | '-' :: rest => (true, rest)
  | '+' :: rest => (false, rest)
  | text => (false, text)

/-- The exponent at the end of a number; nothing there means 0. -/
def exponent? : Text → Option Int
  | [] => some 0
  | c :: rest =>
    let (negative, digits) := splitSign rest
    if (c = 'e' ∨ c = 'E') ∧ digits ≠ [] ∧ digits.all Char.isDigit then
      some (if negative then -(digitsValue digits : Int) else digitsValue digits)
    else none

/-- Digits with an optional point among them, and what stands behind them; there is a digit at one
side of the point at least. -/
def splitDigits? (text : Text) : Option (Text × Text × Text) :=
  let whole := text.takeWhile Char.isDigit
  let behind := text.dropWhile Char.isDigit
  let (places, rest) :=
    match behind with
    | '.' :: more => (more.takeWhile Char.isDigit, more.dropWhile Char.isDigit)
    | _ => ([], behind)
  if whole = [] ∧ places = [] then none else some (whole, places, rest)

/-- The magnitude of the number nearest to `d * 10 ^ k`.  A value from `10 ^ 310` up is infinite and
one below `10 ^ (-330)` is zero, whatever its digits. -/
def nearest (d : Nat) (k : Int) : Nat :=
  let size := ((Nat.toDigits 10 d).length : Int) + k
  if d = 0 ∨ size < -330 then 0
  else if 311 < size then Binary64.infinite
  else Binary64.roundRatio (d * tenTo k.toNat) (tenTo (-k).toNat)

/-- The magnitude that an unsigned decimal number gives. -/
def magnitude? (text : Text) : Option Nat := do
  let (whole, places, rest) ← splitDigits? text
  let e ← exponent? rest
  return nearest (digitsValue (whole ++ places)) (e - places.length)

end Decimal

/-- The number that a text gives: a decimal number, or `inf`, `infinity` or `nan` in letters of any
case, behind an optional sign. -/
def Binary64.ofText? (text : Text) : Option Binary64 :=
  let (negative, body) := Decimal.splitSign text
  let word := body.map Char.toLower
  if word = ['i', 'n', 'f'] ∨ word = ['i', 'n', 'f', 'i', 'n', 'i', 't', 'y'] then
    some (infinity negative)
  else if word = ['n', 'a', 'n'] then some (nan negative)
  else (Decimal.magnitude? body).map (ofMagnitude negative)

end LexicalSelection
