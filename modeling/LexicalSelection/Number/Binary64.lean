import LexicalSelection.Number.Power
import LexicalSelection.Text.Basic

/-!
# Double-precision numbers

A number of the format binary64 is kept as its 64 bits, so that equality is equality of bit
patterns: the two zeros differ, and a NaN equals itself.

* `Binary64.ofRatio` — the nearest number to a quotient of natural numbers.
* `Binary64.scaled?` — a finite number as a sign, a whole number and a power of two.
* `Binary64.rank` — the place of a number in the total order of all numbers.
* `Binary64.sum` — the number nearest to the exact sum of two.
* Differences, products and quotients are those of the processor.
-/

namespace LexicalSelection

/-- A double-precision number: its 64 bits. -/
structure Binary64 where
  /-- Sign, exponent and fraction. -/
  bits : UInt64
  deriving DecidableEq, Repr

namespace Binary64

/-! ## Fields -/

/-- The value of the sign bit, `2 ^ 63`. -/
abbrev signUnit : Nat := 0x8000000000000000

/-- The value of the lowest bit of the exponent, `2 ^ 52`, which is also that of the leading bit
that the fraction leaves out. -/
abbrev leadingUnit : Nat := 0x10000000000000

/-- Is the sign bit set? -/
def negative (x : Binary64) : Bool := signUnit ≤ x.bits.toNat

/-- All bits but the sign. -/
def magnitude (x : Binary64) : Nat := x.bits.toNat % signUnit

/-- The magnitude of infinity.  Those below it are of finite numbers, those above of NaNs. -/
def infinite : Nat := 0x7FF * leadingUnit

/-- The number with this sign and magnitude. -/
def ofMagnitude (negative : Bool) (magnitude : Nat) : Binary64 :=
  ⟨UInt64.ofNat (if negative then signUnit + magnitude else magnitude)⟩

/-- Is the number neither infinite nor a NaN? -/
def isFinite (x : Binary64) : Bool := x.magnitude < infinite

/-- Is it no number? -/
def isNaN (x : Binary64) : Bool := infinite < x.magnitude

/-- Infinity with a sign. -/
def infinity (negative : Bool) : Binary64 := ofMagnitude negative infinite

/-- The quiet NaN with a sign and no payload. -/
def nan (negative : Bool) : Binary64 := ofMagnitude negative (infinite + leadingUnit / 2)

/-- A finite magnitude as a whole number `m` and an exponent `e`, so that its value is `m * 2 ^ e`.
The numbers below the smallest exponent share it and have no leading bit. -/
def unscale (magnitude : Nat) : Nat × Int :=
  if magnitude < leadingUnit then (magnitude, -1074)
  else (leadingUnit + magnitude % leadingUnit, (magnitude / leadingUnit : Nat) - 1075)

/-- A finite number as a sign, a whole number and an exponent of two. -/
def scaled? (x : Binary64) : Option (Bool × Nat × Int) :=
  if x.isFinite then some (x.negative, unscale x.magnitude) else none

/-! ## Rounding -/

/-- The quotient rounded to the nearest whole number, and to the even one of two. -/
def roundDiv (num den : Nat) : Nat :=
  let whole := num / den
  let twice := 2 * (num % den)
  if twice < den then whole
  else if den < twice then whole + 1
  else whole + whole % 2

/-- The exponent of the largest power of two that is not above `num / den`. -/
def floorLog2 (num den : Nat) : Int :=
  let guess : Int := (Nat.log2 num : Int) - Nat.log2 den
  if den * twoTo guess.toNat ≤ num * twoTo (-guess).toNat then guess else guess - 1

/-- The exponent of the unit in the last place of the numbers next to `num / den`: in that unit the
quotient has 53 bits before the point, or fewer when the unit is the smallest there is. -/
def unitExponent (num den : Nat) : Int := max (-1074) (floorLog2 num den - 52)

/-- The magnitude of the nearest number to `num / den`, the even one of two.

In a unit above the smallest the leading bit of the rounded quotient counts once more for the
exponent field, which is why the parts are added: a quotient that rounds up to 54 bits carries into
that field. -/
def roundRatio (num den : Nat) : Nat :=
  if num = 0 then 0
  else
    let e := unitExponent num den
    min infinite
      ((e + 1074).toNat * leadingUnit + roundDiv (num * twoTo (-e).toNat) (den * twoTo e.toNat))

/-- The nearest number to `num / den`, with a sign. -/
def ofRatio (negative : Bool) (num den : Nat) : Binary64 :=
  ofMagnitude negative (roundRatio num den)

/-- The nearest number to `m * 2 ^ e`, with a sign. -/
def ofScaled (negative : Bool) (m : Nat) (e : Int) : Binary64 :=
  ofRatio negative (m * twoTo e.toNat) (twoTo (-e).toNat)

/-! ## Order -/

/-- The place of a number among all 64-bit patterns: negative numbers before positive ones, zero
included, and NaNs beyond the infinities. -/
def rank (x : Binary64) : Int := if x.negative then -x.magnitude - 1 else x.magnitude

/-- The total order of all numbers. -/
instance : Ord Binary64 := ⟨compareOn rank⟩

instance : Std.TransOrd Binary64 := inferInstanceAs (Std.TransCmp (compareOn rank))

/-! ## Arithmetic -/

/-- A whole number by its sign and size. -/
def signedInt (negative : Bool) (m : Nat) : Int := if negative then -m else m

/-- The sum of two numbers, rounded to the nearest number.  A sum of zero is negative only when both
numbers are negative zeros.  All sums that are no number are the same NaN. -/
def sum (x y : Binary64) : Binary64 :=
  match x.scaled?, y.scaled? with
  | some (s, m, e), some (t, n, f) =>
    let least := min e f
    let total := signedInt s (m * twoTo (e - least).toNat)
      + signedInt t (n * twoTo (f - least).toNat)
    if total = 0 then ofMagnitude (s && t) 0 else ofScaled (total < 0) total.natAbs least
  | none, some _ => if x.isNaN then nan false else x
  | some _, none => if y.isNaN then nan false else y
  | none, none => if x = y ∧ !x.isNaN then x else nan false

/-- The number that a float of the processor is. -/
def ofFloat (x : Float) : Binary64 := ⟨x.toBits⟩

/-- The float of the processor with these bits. -/
def toFloat (x : Binary64) : Float := Float.ofBits x.bits

instance : Zero Binary64 := ⟨ofMagnitude false 0⟩

instance : One Binary64 := ⟨ofRatio false 1 1⟩

instance : NatCast Binary64 := ⟨fun n => ofRatio false n 1⟩

instance : Neg Binary64 := ⟨fun x => ofMagnitude (!x.negative) x.magnitude⟩

instance : Add Binary64 := ⟨sum⟩

instance : Sub Binary64 := ⟨fun x y => ofFloat (x.toFloat - y.toFloat)⟩

instance : Mul Binary64 := ⟨fun x y => ofFloat (x.toFloat * y.toFloat)⟩

instance : Div Binary64 := ⟨fun x y => ofFloat (x.toFloat / y.toFloat)⟩

instance : LT Binary64 := ⟨fun x y => x.toFloat < y.toFloat⟩

instance : DecidableLT Binary64 := fun x y => Float.decLt x.toFloat y.toFloat

end Binary64

end LexicalSelection
