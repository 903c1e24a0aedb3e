import LexicalSelection.Codec.Integer
import LexicalSelection.Number.Binary64

/-!
# Stored real numbers

A finite number other than zero is stored as two integers, an odd `m` and an `e`, and is
`m * 2 ^ e`.  Zero is stored as 0 and 0, without its sign; what is not finite as 0 and 1, with its
bits behind.

* `Codec.writeReal`, `Codec.readReal` — the format.
* `Binary64.timesPowerOfTwo` — one of the two products by which a number is put together.
-/

namespace LexicalSelection

/-- The product of a number and `2 ^ k`, rounded to the nearest number.  Powers from `2 ^ 1024` up
are infinite and those from `2 ^ (-1024)` down are zero. -/
def Binary64.timesPowerOfTwo (x : Binary64) (k : Int) : Binary64 :=
  match x.scaled? with
  | none => x
  | some (negative, m, e) =>
    if m = 0 then x
    else if 1024 ≤ k then infinity negative
    else if k ≤ -1024 then ofMagnitude negative 0
    else ofScaled negative m (e + k)

namespace Codec

/-- `m * 2 ^ e` with an odd number in place of `m`, unless that is zero. -/
def oddPart (m : Nat) (e : Int) : Nat × Int :=
  if m % 2 = 0 ∧ m ≠ 0 then oddPart (m / 2) (e + 1) else (m, e)
termination_by m

/-- The bytes of a number. -/
def writeReal (x : Binary64) : Bytes :=
  match x.scaled? with
  | none => writeInt 0 ++ writeInt 1 ++ writeNat x.bits.toNat
  | some (negative, m, e) =>
    if m = 0 then writeInt 0 ++ writeInt 0
    else
      let (m, e) := oddPart m e
      writeInt (Binary64.signedInt negative m) ++ writeInt e

/-- The number `m * 2 ^ e`, put together by two products: half of the exponent comes first, so that
neither power is out of range when the number is not. -/
def assemble (m : Int) (e : Int) : Binary64 :=
  let half := e.tdiv 2
  ((Binary64.ofRatio (m < 0) m.natAbs 1).timesPowerOfTwo half).timesPowerOfTwo (e - half)

/-- The number at the front of a byte string.  Exponents beyond 32 bits are refused. -/
def readReal : Decoder Binary64 := do
  let m ← readInt
  let e ← readInt
  if m = 0 then
    if e = 1 then return ⟨UInt64.ofNat (← readNat)⟩ else return 0
  else if -0x80000000 ≤ e ∧ e < 0x80000000 then return assemble m e
  else throw .integerOverflow

end Codec

end LexicalSelection
