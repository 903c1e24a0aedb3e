/-!
# Powers of two and of ten

* `twoTo`, `tenTo` — the scales on which binary and decimal numbers are written.
-/

namespace LexicalSelection

/-- Two to a power. -/
abbrev twoTo (k : Nat) : Nat := Nat.pow 2 k

/-- Ten to a power. -/
abbrev tenTo (k : Nat) : Nat := Nat.pow 10 k

end LexicalSelection
