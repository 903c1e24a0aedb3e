import LexicalSelection.Codec.Decoder
import LexicalSelection.Number.Power

/-!
# Integers of variable length

A natural number below `2 ^ 64` is stored by its digits to the base 128, lowest first, with the high
bit set in every byte but the last.  An integer is stored as a natural number: 0, -1, 1, -2, 2, …
become 0, 1, 2, 3, 4, ….

* `Codec.writeNat`, `Codec.readNat` — natural numbers.
* `Codec.writeInt`, `Codec.readInt` — integers.
-/

namespace LexicalSelection.Codec

/-- The bytes of a natural number. -/
def writeNat (n : Nat) : Bytes :=
  if n < 128 then [UInt8.ofNat n] else UInt8.ofNat (128 + n % 128) :: writeNat (n / 128)
termination_by n

/-- The rest of a natural number, where `value` has been read and the next digit stands for
multiples of `2 ^ shift`.  A digit that does not fit into 64 bits is refused before its byte's high
bit counts. -/
def readNatFrom (shift value : Nat) : Decoder Nat
  | [] => .error .unexpectedEnd
  | b :: rest =>
    let digit := b.toNat % 128
    if 64 ≤ shift ∨ (shift = 63 ∧ 1 < digit) then .error .integerOverflow
    else if b.toNat < 128 then .ok (value + digit * twoTo shift, rest)
    else readNatFrom (shift + 7) (value + digit * twoTo shift) rest

/-- The natural number at the front of a byte string. -/
def readNat : Decoder Nat := readNatFrom 0 0

/-- The natural number that stands for an integer. -/
def foldInt (z : Int) : Nat := if z < 0 then 2 * z.natAbs - 1 else 2 * z.natAbs

/-- The integer that a natural number stands for. -/
def unfoldInt (n : Nat) : Int := if n % 2 = 0 then (n / 2 : Nat) else -(n / 2 : Nat) - 1

/-- The bytes of an integer. -/
def writeInt (z : Int) : Bytes := writeNat (foldInt z)

/-- The integer at the front of a byte string. -/
def readInt : Decoder Int := do return unfoldInt (← readNat)

end LexicalSelection.Codec
