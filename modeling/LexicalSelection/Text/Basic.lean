/-!
# Texts and bytes

A text is the list of its characters and a byte string the list of its bytes, so that both are data
to recurse on.

* `Text`, `Bytes` — the two kinds of content.
* `Text.utf8` — the bytes of a text.
-/

namespace LexicalSelection

/-- A text: its characters in order. -/
abbrev Text := List Char

/-- A byte string: its bytes in order. -/
abbrev Bytes := List UInt8

namespace Text

/-- The UTF-8 bytes of a text. -/
def utf8 (text : Text) : Bytes := text.flatMap String.utf8EncodeChar

/-- The decimal digits of a natural number. -/
def ofNat (n : Nat) : Text := Nat.toDigits 10 n

/-- The decimal digits of an integer, behind a minus sign when it is negative. -/
def ofInt (z : Int) : Text :=
  if z < 0 then '-' :: ofNat z.natAbs else ofNat z.natAbs

end Text

end LexicalSelection
