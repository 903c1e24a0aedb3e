import LexicalSelection.Text.Basic

/-!
# Lines

* `Text.lines` — a text cut after each line break, with `\n` and `\r\n` as line breaks.
-/

namespace LexicalSelection.Text

/-- Puts a character in front of the first of some lines. -/
def consLine (c : Char) : List Text → List Text
  | [] => [[c]]
  | line :: rest => (c :: line) :: rest

/-- The lines of a text without their line breaks.  A text that ends in a line break has no line
behind it, and a `\r` that no `\n` follows belongs to its line. -/
def lines : Text → List Text
  | [] => []
  | '\n' :: rest => [] :: lines rest
  | '\r' :: '\n' :: rest => [] :: lines rest
  | c :: rest => consLine c (lines rest)

end LexicalSelection.Text
