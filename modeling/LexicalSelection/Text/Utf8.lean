import LexicalSelection.Text.Basic

/-!
# UTF-8 sequences

A byte string is read as a row of sequences.  The first byte of a sequence announces how many bytes
belong to it; those bytes are taken together, whatever they are, and then either encode a character
or are broken.

* `Utf8.announcedLength` — how many bytes a first byte announces.
* `Utf8.char?` — the character that the bytes of one sequence encode.
* `Utf8.items` — a byte string as characters and broken sequences.
* `Utf8.decode?` — the text that a byte string encodes, when no sequence of it is broken.
-/

namespace LexicalSelection

/-- A place in an input: a character, or a sequence of bytes that encodes none. -/
inductive Item where
  /-- A character. -/
  | char (c : Char)
  /-- A broken sequence, with the offset of its first byte. -/
  | broken (offset : Nat)
  deriving DecidableEq, Repr

namespace Utf8

/-! ## One sequence -/

/-- The number of bytes in the sequences that begin with this byte; 0 when none does. -/
def announcedLength (lead : UInt8) : Nat :=
  if lead ≤ 0x7F then 1
  else if lead < 0xC2 then 0
  else if lead ≤ 0xDF then 2
  else if lead ≤ 0xEF then 3
  else if lead ≤ 0xF4 then 4
  else 0

/-- The six bits that a continuation byte carries. -/
def continuation? (b : UInt8) : Option Nat :=
  if 0x80 ≤ b ∧ b ≤ 0xBF then some (b.toNat - 0x80) else none

/-- The character with this code point, unless the code point is a surrogate, is too large, or is so
small that a shorter sequence encodes it. -/
def scalar? (least value : Nat) : Option Char :=
  if least ≤ value ∧ value.isValidChar then some (Char.ofNat value) else none

/-- The character that the bytes of one sequence encode, as many as its first byte announces. -/
def char? : Bytes → Option Char
  | [a] => scalar? 0 a.toNat
  | [a, b] => do
      let x ← continuation? b
      scalar? 0x80 ((a.toNat - 0xC0) * 0x40 + x)
  | [a, b, c] => do
      let x ← continuation? b
      let y ← continuation? c
      scalar? 0x800 ((a.toNat - 0xE0) * 0x1000 + x * 0x40 + y)
  | [a, b, c, d] => do
      let x ← continuation? b
      let y ← continuation? c
      let z ← continuation? d
      scalar? 0x10000 ((a.toNat - 0xF0) * 0x40000 + x * 0x1000 + y * 0x40 + z)
  | _ => none

/-! ## A row of sequences -/

/-- The bytes of `tail` that the sequence with this first byte announces, as far as there are
any. -/
def announced (lead : UInt8) (tail : Bytes) : Bytes := tail.take (announcedLength lead - 1)

/-- The sequence at this offset that begins with `lead` and has the bytes `body` behind its first: a
broken one when `lead` begins none, when bytes are missing, or when they encode no character. -/
def item (offset : Nat) (lead : UInt8) (body : Bytes) : Item :=
  if announcedLength lead = body.length + 1 then
    match char? (lead :: body) with
    | some c => .char c
    | none => .broken offset
  else .broken offset

/-- The items of a byte string whose first byte has this offset. -/
def itemsFrom (offset : Nat) : Bytes → List Item
  | [] => []
  | lead :: tail =>
    let body := announced lead tail
    item offset lead body :: itemsFrom (offset + 1 + body.length) (tail.drop body.length)
termination_by bytes => bytes.length
decreasing_by simp only [List.length_drop, List.length_cons]; omega

/-- The characters and broken sequences of a byte string. -/
def items (bytes : Bytes) : List Item := itemsFrom 0 bytes

/-- The character at a place, if it is one. -/
def itemChar? : Item → Option Char
  | .char c => some c
  | .broken _ => none

/-- The text that a byte string encodes, when no sequence of it is broken. -/
def decode? (bytes : Bytes) : Option Text := (items bytes).mapM itemChar?

end Utf8

end LexicalSelection
