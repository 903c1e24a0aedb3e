import LexicalSelection.Text.Basic

/-!
# White space

* `isWhite` — the Unicode property `White_Space`.
* `trimStart` — a text without the white space at its front.
-/

namespace LexicalSelection.Text

/-- The ranges of code points with the property `White_Space`. -/
def whiteRanges : List (Nat × Nat) :=
  [(0x09, 0x0D), (0x20, 0x20), (0x85, 0x85), (0xA0, 0xA0), (0x1680, 0x1680), (0x2000, 0x200A),
    (0x2028, 0x2029), (0x202F, 0x202F), (0x205F, 0x205F), (0x3000, 0x3000)]

/-- Has the character the property `White_Space`? -/
def isWhite (c : Char) : Bool :=
  whiteRanges.any fun (first, last) => first ≤ c.toNat && c.toNat ≤ last

/-- The text without the white space at its front. -/
def trimStart (text : Text) : Text := text.dropWhile isWhite

end LexicalSelection.Text
