import LexicalSelection.Text.Basic
import LexicalSelection.Text.SpelledOut

/-!
# Quoted text

A text inside a message stands between double quotes.  A double quote, a backslash and the usual
control characters inside it have an escape of two characters, a character that could not be seen
or would join its neighbour is given by its code point, and all others stand for themselves.

* `quotedChar` — one character of a quoted text.
* `quoted` — the whole text with its quotes.
-/

namespace LexicalSelection.Text

/-- The code point of a character in braces, as in `\u{301}`. -/
def codePointEscape (c : Char) : Text :=
  ['\\', 'u', '\x7b'] ++ Nat.toDigits 16 c.toNat ++ ['\x7d']

/-- A character as quoted text shows it. -/
def quotedChar (c : Char) : Text :=
  if c = '"' then ['\\', '"']
  else if c = '\\' then ['\\', '\\']
  else if c = '\n' then ['\\', 'n']
  else if c = '\r' then ['\\', 'r']
  else if c = '\t' then ['\\', 't']
  else if c = '\x00' then ['\\', '0']
  else if isSpelledOut c then codePointEscape c
  else [c]

/-- A text between double quotes. -/
def quoted (text : Text) : Text := '"' :: text.flatMap quotedChar ++ ['"']

end LexicalSelection.Text
