import LexicalSelection.Codec.Decoder

/-!
# Words of fixed size

* `Codec.writeWord`, `Codec.ofWord` — a natural number as a fixed number of bytes, lowest first.
-/

namespace LexicalSelection.Codec

/-- The lowest `size` bytes of a natural number, lowest first. -/
def writeWord : Nat → Nat → Bytes
  | 0, _ => []
  | size + 1, n => UInt8.ofNat (n % 256) :: writeWord size (n / 256)

/-- The natural number with these bytes, lowest first. -/
def ofWord : Bytes → Nat
  | [] => 0
  | b :: rest => b.toNat + 256 * ofWord rest

/-- The natural number in the next `size` bytes. -/
def readWord (size : Nat) : Decoder Nat := do return ofWord (← Decoder.exactly size)

end LexicalSelection.Codec
