import LexicalSelection.Codec.Integer

/-!
# Stored texts

A text is stored as the number of its UTF-8 bytes and the bytes.

* `Codec.writeText`, `Codec.readText` — the format.
-/

namespace LexicalSelection.Codec

/-- The bytes of a text, behind their number. -/
def writeText (text : Text) : Bytes := writeNat text.utf8.length ++ text.utf8

/-- The text at the front of a byte string. -/
def readText : Decoder Text := do
  let bytes ← Decoder.exactly (← readNat)
  match Utf8.decode? bytes with
  | some text => return text
  | none => throw (.symbolTable .notUtf8)

end LexicalSelection.Codec
