import LexicalSelection.Text.Utf8

/-!
# Reading an input

An input is the row of items that have not been read.  A reading step takes items from its front
and either finds a value or stops at a broken sequence, which it takes too, so that reading can go
on behind it.

* `Reader` — reading steps, with `peek`, `next` and `isEnd`.
* `copyThrough` — the text up to a closing character, escapes included.
* `readTag` — a tag with its brackets.
* `readBlank` — the text between two lexical units.
-/

namespace LexicalSelection

/-- The items of an input that have not been read. -/
abbrev Input := List Item

/-- The reason why a reading step stops: bytes that encode no character. -/
structure BrokenSequence where
  /-- The offset of the first of the bytes. -/
  offset : Nat
  deriving DecidableEq, Repr

/-- The message for a broken sequence. -/
def BrokenSequence.message (fault : BrokenSequence) : String :=
  s!"invalid UTF-8 sequence at byte offset {fault.offset}"

/-- A reading step: it finds a value or a broken sequence, and leaves the rest of the input. -/
abbrev Reader := EStateM BrokenSequence Input

/-- What a reading step comes to: a value or a broken sequence, and the rest of the input. -/
abbrev Found := EStateM.Result BrokenSequence Input

/-- The same finding with its value changed. -/
def Found.map {α β : Type} (f : α → β) : Found α → Found β
  | .ok value rest => .ok (f value) rest
  | .error fault rest => .error fault rest

namespace Input

/-- The input of a byte string. -/
def ofBytes (bytes : Bytes) : Input := Utf8.items bytes

/-- The input of a text. -/
def ofText (text : Text) : Input := text.map .char

/-! ## Single characters -/

/-- The next character, which is left in the input; `none` at its end. -/
def peek : Reader (Option Char)
  | [] => .ok none []
  | .char c :: rest => .ok (some c) (.char c :: rest)
  | .broken n :: rest => .error ⟨n⟩ rest

/-- The next character, which is taken from the input; `none` at its end. -/
def next : Reader (Option Char)
  | [] => .ok none []
  | .char c :: rest => .ok (some c) rest
  | .broken n :: rest => .error ⟨n⟩ rest

/-- Has every character been taken? -/
def isEnd : Reader Bool := do return (← peek).isNone

/-! ## The characters of the format -/

/-- Opens a lexical unit. -/
def unitOpen : Char := '^'

/-- Stands before each target reading of a unit. -/
def readingSeparator : Char := '/'

/-- Closes a lexical unit. -/
def unitClose : Char := '$'

/-- Takes the special meaning from the character behind it. -/
def escape : Char := '\\'

/-- Stands between two segments of a stream. -/
def segmentSeparator : Char := '\x00'

/-! ## Runs of characters -/

/-- The text up to and with the first `close` that is not escaped, or all of it. -/
def copyThrough (close : Char) : Input → Found Text
  | [] => .ok [] []
  | .broken n :: rest => .error ⟨n⟩ rest
  | .char c :: rest =>
    if c = escape then
      match rest with
      | [] => .ok [c] []
      | .broken n :: rest => .error ⟨n⟩ rest
      | .char d :: rest => (copyThrough close rest).map (c :: d :: ·)
    else if c = close then .ok [c] rest
    else (copyThrough close rest).map (c :: ·)

/-- What `Found.map` leaves is what was left before. -/
theorem map_eq_ok {α β : Type} {f : α → β} {found : Found α} {value : β} {rest : Input} :
    found.map f = .ok value rest ↔ ∃ a, found = .ok a rest ∧ f a = value := by
  cases found with
  | ok a rest₁ =>
    constructor
    · intro h
      cases h
      exact ⟨a, rfl, rfl⟩
    · rintro ⟨b, h, rfl⟩
      cases h
      rfl
  | error fault rest₁ =>
    constructor
    · intro h
      cases h
    · rintro ⟨b, h, -⟩
      cases h

/-- Copying takes characters from the front only. -/
theorem copyThrough_length {close : Char} {input rest : Input} {text : Text}
    (h : copyThrough close input = .ok text rest) : rest.length ≤ input.length := by
  fun_induction copyThrough close input generalizing text with
  | case1 => cases h; simp
  | case2 => cases h
  | case3 => cases h; simp
  | case4 => cases h
  | case5 d input ih =>
    obtain ⟨t, ht, -⟩ := map_eq_ok.1 h
    have := ih ht
    simp only [List.length_cons]; omega
  | case6 => cases h; simp
  | case7 c input _ _ ih =>
    obtain ⟨t, ht, -⟩ := map_eq_ok.1 h
    have := ih ht
    simp only [List.length_cons]; omega

/-- A tag whose opening bracket has been taken, with both brackets.  One that is not closed runs to
the end of the input. -/
def readTag (input : Input) : Found Text := (copyThrough '>' input).map ('<' :: ·)

/-- A tag is taken from the front only. -/
theorem readTag_length {input rest : Input} {tag : Text} (h : readTag input = .ok tag rest) :
    rest.length ≤ input.length := by
  obtain ⟨_, h, -⟩ := map_eq_ok.1 h
  exact copyThrough_length h

/-- The blank text up to the next unit, segment separator or end.  An escaped character and a
stretch in square brackets belong to it as they stand, so that a `^` in them opens no unit. -/
def readBlank : Input → Found Text
  | [] => .ok [] []
  | .broken n :: rest => .error ⟨n⟩ rest
  | .char c :: rest =>
    if c = unitOpen ∨ c = segmentSeparator then .ok [] (.char c :: rest)
    else if c = escape then
      match rest with
      | [] => .ok [c] []
      | .broken n :: rest => .error ⟨n⟩ rest
      | .char d :: rest => (readBlank rest).map (c :: d :: ·)
    else if c = '[' then
      match h : copyThrough ']' rest with
      | .error fault rest => .error fault rest
      | .ok stretch rest =>
        have := copyThrough_length h
        (readBlank rest).map (c :: stretch ++ ·)
    else (readBlank rest).map (c :: ·)
termination_by input => input.length
decreasing_by all_goals simp only [List.length_cons]; omega

/-- A blank is taken from the front only. -/
theorem readBlank_length {input rest : Input} {blank : Text}
    (h : readBlank input = .ok blank rest) : rest.length ≤ input.length := by
  fun_induction readBlank input generalizing blank with
  | case1 => cases h; simp
  | case2 => cases h
  | case3 => cases h; simp
  | case4 => cases h; simp
  | case5 => cases h
  | case6 _ input _ ih =>
    obtain ⟨t, ht, -⟩ := map_eq_ok.1 h
    have := ih ht
    simp only [List.length_cons]; omega
  | case7 => cases h
  | case8 input _ _ body rest' hc hle ih =>
    obtain ⟨t, ht, -⟩ := map_eq_ok.1 h
    have := ih ht
    simp only [List.length_cons]; omega
  | case9 c input _ _ _ ih =>
    obtain ⟨t, ht, -⟩ := map_eq_ok.1 h
    have := ih ht
    simp only [List.length_cons]; omega

end Input

end LexicalSelection
