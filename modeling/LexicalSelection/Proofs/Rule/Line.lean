import LexicalSelection.Proofs.Rule.Token
import LexicalSelection.Proofs.Text.Lines
import LexicalSelection.Rule.Line
import Mathlib.Data.List.Basic

/-!
# What rule lines say, and how it is said

* `Sayable`, `Legible` — the locations and the rules that lines give.
* `legible_ofLine` — no line gives another rule.
* `Plain` — the words that numbers are written as.
* `readLocation_spell` — locations are read back.
* **`ofLine_text`** — rules are read back.
-/

namespace LexicalSelection.Rule

lemma bind_eq_ok {ε α β : Type} {found : Except ε α} {next : α → Except ε β} {value : β} :
    (found >>= next) = .ok value ↔ ∃ first, found = .ok first ∧ next first = .ok value := by
  cases found with
  | error error => simp [bind, Except.bind]
  | ok first => simp [bind, Except.bind]

/-! ## Numbers -/

/-- A number that is read is below its bound, and was spelled in digits. -/
lemma natBelow?_eq_some {bound n : Nat} {digits : Text} (h : natBelow? bound digits = some n) :
    n < bound ∧ ∀ c ∈ digits, c.isDigit = true := by
  rw [natBelow?] at h
  split at h
  · rename_i hdigits
    obtain rfl := Option.some.inj h
    exact ⟨hdigits.2.2, List.all_eq_true.1 hdigits.2.1⟩
  · cases h

lemma isDigit_of_mem_ofNat {c : Char} {n : Nat} (h : c ∈ Text.ofNat n) : c.isDigit = true :=
  Nat.isDigit_of_mem_toDigits (by decide) (by decide) h

/-- A number below the bound is read back from its digits. -/
lemma natBelow?_ofNat {bound n : Nat} (h : n < bound) :
    natBelow? bound (Text.ofNat n) = some n := by
  have hvalue : Decimal.digitsValue (Text.ofNat n) = n := Nat.ofDigitChars_ten_toDigits
  have hdigits : (Text.ofNat n).all Char.isDigit = true :=
    List.all_eq_true.2 fun _ hc => isDigit_of_mem_ofNat hc
  rw [natBelow?, hvalue, if_pos ⟨Nat.toDigits_ne_nil, hdigits, h⟩]

/-- Digits do not begin with a sign. -/
lemma ofNat_ne_cons {n : Nat} {c : Char} (hc : c.isDigit = false) (rest : Text) :
    Text.ofNat n ≠ c :: rest := by
  intro h
  have hdigit : c.isDigit = true := isDigit_of_mem_ofNat (n := n) (h ▸ List.mem_cons_self)
  rw [hc] at hdigit
  cases hdigit

/-- A number of 64 bits is read back as a count. -/
lemma count?_ofNat {n : Nat} (h : n < 0x10000000000000000) : count? (Text.ofNat n) = some n := by
  unfold count?
  split
  · rename_i digits hplus
    exact absurd hplus (ofNat_ne_cons rfl digits)
  · exact natBelow?_ofNat h

/-- A number of 32 bits is read back as a position, with its sign. -/
lemma position?_ofInt {position : Int} (hlower : -0x80000000 ≤ position)
    (hupper : position < 0x80000000) : position? (Text.ofInt position) = some position := by
  rw [Text.ofInt]
  split
  · rename_i hneg
    rw [position?, natBelow?_ofNat (by omega)]
    show some (-(position.natAbs : Int)) = some position
    congr 1
    omega
  · unfold position?
    split
    · rename_i digits hminus
      exact absurd hminus (ofNat_ne_cons rfl digits)
    · rw [natBelow?_ofNat (by omega), Option.map_some]
      congr 1
      omega

/-- A position that is read has 32 bits, and no backslash stands in its spelling. -/
lemma position?_eq_some {text : Text} {position : Int} (h : position? text = some position) :
    -0x80000000 ≤ position ∧ position < 0x80000000 ∧ ∀ c ∈ text, c ≠ '\\' := by
  have hdigit : ∀ {c : Char}, c.isDigit = true → c ≠ '\\' := by
    rintro c hc rfl
    cases hc
  unfold position? at h
  split at h
  · rename_i digits
    obtain ⟨z, hz, rfl⟩ := Option.map_eq_some_iff.1 h
    obtain ⟨n, hn, hz⟩ := Option.bind_eq_some_iff.1 hz
    obtain rfl := Option.some.inj hz
    obtain ⟨hlt, hdigits⟩ := natBelow?_eq_some hn
    refine ⟨by omega, by omega, List.forall_mem_cons.2 ⟨by decide, fun c hc => ?_⟩⟩
    exact hdigit (hdigits c hc)
  · obtain ⟨n, hn, rfl⟩ := Option.map_eq_some_iff.1 h
    obtain ⟨hlt, hdigits⟩ := natBelow?_eq_some hn
    exact ⟨by omega, by omega, fun c hc => hdigit (hdigits c hc)⟩

/-! ## Locations -/

/-- A location that a rule line can name. -/
structure Sayable (loc : NamedLocation) : Prop where
  lower : -0x80000000 ≤ loc.position
  upper : loc.position < 0x80000000
  ne_nil : loc.name ≠ []
  whole : Whole loc.name
  newline : '\n' ∉ loc.name

/-- Behind a character that escapes nothing a whole text is whole. -/
lemma Whole.of_cons {c : Char} {rest : Text} (h : Whole (c :: rest)) (hc : c ≠ '\\') :
    Whole rest := by
  cases h with
  | escaped => exact absurd rfl hc
  | plain _ _ h => exact h

/-- Behind characters that escape nothing a whole text is whole. -/
lemma Whole.of_append {front rest : Text} (h : Whole (front ++ rest))
    (hfront : ∀ c ∈ front, c ≠ '\\') : Whole rest := by
  induction front with
  | nil => exact h
  | cons c front ih =>
      obtain ⟨hc, hfront⟩ := List.forall_mem_cons.1 hfront
      exact ih (h.of_cons hc) hfront

/-- Each location that is read from a token of a line can be said again. -/
lemma sayable_of_readLocation {token : Text} {loc : NamedLocation} (hwhole : Whole token)
    (hnewline : '\n' ∉ token) (h : readLocation token = .ok loc) : Sayable loc := by
  rw [readLocation] at h
  split at h
  · rename_i loc' hloc
    obtain rfl := Except.ok.inj h
    rw [location?] at hloc
    split at hloc
    · rename_i name hname
      split at hloc
      · cases hloc
      · rename_i hne
        obtain ⟨position, hposition, rfl⟩ := Option.map_eq_some_iff.1 hloc
        obtain ⟨hlower, hupper, hfront⟩ := position?_eq_some hposition
        have htoken : token.takeWhile (· ≠ ':') ++ ':' :: name = token := by
          rw [← hname, List.takeWhile_append_dropWhile]
        rw [← htoken] at hwhole hnewline
        have hbehind := hwhole.of_append hfront
        refine ⟨hlower, hupper, hne, ?_, fun hmem => hnewline ?_⟩
        · exact hbehind.of_cons (by decide)
        · exact List.mem_append_right _ (List.mem_cons_of_mem _ hmem)
    · cases hloc
  · cases h

/-! ## Plain words -/

/-- The character is no backslash and no white space. -/
def PlainChar (c : Char) : Prop := c ≠ '\\' ∧ Text.isWhite c = false

instance (c : Char) : Decidable (PlainChar c) :=
  inferInstanceAs (Decidable (c ≠ '\\' ∧ Text.isWhite c = false))

/-- A word without backslashes and white space. -/
structure Plain (text : Text) : Prop where
  ne_nil : text ≠ []
  chars : ∀ c ∈ text, PlainChar c

/-- Plain characters in front of a whole text leave it whole. -/
lemma whole_append_of_plainChar {front rest : Text} (h : ∀ c ∈ front, PlainChar c)
    (hrest : Whole rest) : Whole (front ++ rest) := by
  induction front with
  | nil => exact hrest
  | cons c front ih =>
      obtain ⟨hc, hfront⟩ := List.forall_mem_cons.1 h
      exact .plain hc.1 hc.2 (ih hfront)

/-- Plain text is whole, since it has neither backslashes nor white space. -/
lemma Plain.whole {text : Text} (h : Plain text) : Whole text := by
  have hwhole := whole_append_of_plainChar h.chars .nil
  rwa [List.append_nil] at hwhole

/-- Plain text is one word. -/
lemma Plain.isWord {text : Text} (h : Plain text) : IsWord text where
  ne_nil := h.ne_nil
  whole := Or.inl h.whole

lemma Plain.oneLine {text : Text} (h : Plain text) : Text.OneLine text where
  newline hmem := absurd (h.chars _ hmem) (by decide)
  return_ne hlast := absurd (h.chars _ (List.mem_of_getLast? hlast)) (by decide)

lemma plain_singleton {c : Char} (hc : PlainChar c) : Plain [c] :=
  ⟨List.cons_ne_nil _ _, List.forall_mem_singleton.2 hc⟩

lemma Plain.cons {c : Char} {text : Text} (h : Plain text) (hc : PlainChar c) :
    Plain (c :: text) := ⟨List.cons_ne_nil _ _, List.forall_mem_cons.2 ⟨hc, h.chars⟩⟩

/-- A digit is no white space and no backslash. -/
lemma plainChar_of_isDigit {c : Char} (h : c.isDigit = true) : PlainChar c := by
  have hdigit : 48 ≤ c.toNat ∧ c.toNat ≤ 57 := by
    simpa [Char.isDigit, UInt32.le_iff_toNat_le] using h
  have hranges : ∀ range ∈ Text.whiteRanges, range.2 < 48 ∨ 57 < range.1 := by decide
  constructor
  · rintro rfl
    cases h
  · rw [Text.isWhite, List.any_eq_false]
    intro range hrange
    have houtside := hranges range hrange
    simp only [Bool.and_eq_true, decide_eq_true_eq]
    omega

/-- A number is spelled in plain text. -/
lemma plain_ofNat (n : Nat) : Plain (Text.ofNat n) :=
  ⟨Nat.toDigits_ne_nil, fun _ hc => plainChar_of_isDigit (isDigit_of_mem_ofNat hc)⟩

/-- A number with its sign is spelled in plain text. -/
lemma plain_ofInt (z : Int) : Plain (Text.ofInt z) := by
  rw [Text.ofInt]
  split
  · exact (plain_ofNat _).cons (by decide)
  · exact plain_ofNat _

/-- Digits with a decimal point among them are plain text. -/
lemma plain_positional (d : Nat) (k : Int) : Plain (Decimal.positional d k) := by
  rw [Decimal.positional]
  split
  · exact plain_ofNat _
  · have hpadded : ∀ zeros, ∀ c ∈ List.replicate zeros '0' ++ Text.ofNat d, PlainChar c := by
      intro zeros c hc
      rcases List.mem_append.1 hc with hc | hc
      · rw [List.eq_of_mem_replicate hc]
        decide
      · exact (plain_ofNat d).chars c hc
    refine ⟨List.append_ne_nil_of_right_ne_nil _ (List.cons_ne_nil _ _), fun c hc => ?_⟩
    rcases List.mem_append.1 hc with hc | hc
    · exact hpadded _ c (List.mem_of_mem_take hc)
    · rcases List.mem_cons.1 hc with rfl | hc
      · decide
      · exact hpadded _ c (List.mem_of_mem_drop hc)

lemma Plain.signed {text : Text} (h : Plain text) (x : Binary64) : Plain (x.signed text) := by
  rw [Binary64.signed]
  split
  · exact h.cons (by decide)
  · exact h

lemma plain_nan : Plain ['N', 'a', 'N'] :=
  ((plain_singleton (by decide)).cons (by decide)).cons (by decide)

lemma plain_infinity : Plain ['i', 'n', 'f'] :=
  ((plain_singleton (by decide)).cons (by decide)).cons (by decide)

/-- Any number, also an infinite one or none at all, is spelled in plain text. -/
lemma plain_decimalText (x : Binary64) : Plain x.decimalText := by
  rw [Binary64.decimalText]
  split
  · exact plain_nan
  · split
    · exact plain_infinity.signed x
    · split
      · exact (plain_singleton (by decide)).signed x
      · exact (plain_positional _ _).signed x

/-- The same with a fixed number of decimal places. -/
lemma plain_fixedText (places : Nat) (x : Binary64) : Plain (x.fixedText places) := by
  rw [Binary64.fixedText]
  split
  · exact plain_nan
  · split
    · exact plain_infinity.signed x
    · exact (plain_positional _ _).signed x

/-! ## Locations as they are written -/

/-- A location in a rule line. -/
def spell (loc : NamedLocation) : Text := Text.ofInt loc.position ++ ':' :: loc.name

/-- A position is spelled without the colon that ends it. -/
lemma colon_notMem_ofInt (z : Int) : ':' ∉ Text.ofInt z := by
  have hdigits : ∀ n, ':' ∉ Text.ofNat n :=
    fun n hmem => absurd (isDigit_of_mem_ofNat hmem) (by decide)
  rw [Text.ofInt]
  split
  · intro hmem
    rcases List.mem_cons.1 hmem with hc | hmem
    · cases hc
    · exact hdigits _ hmem
  · exact hdigits _

/-- A location that can be said is read back from its spelling. -/
lemma readLocation_spell {loc : NamedLocation} (h : Sayable loc) :
    readLocation (spell loc) = .ok loc := by
  have hfront : ∀ c ∈ Text.ofInt loc.position, decide (c ≠ ':') = true := by
    intro c hc
    exact decide_eq_true fun heq => colon_notMem_ofInt loc.position (heq ▸ hc)
  have hname : (spell loc).dropWhile (· ≠ ':') = ':' :: loc.name := by
    rw [spell, List.dropWhile_append_of_pos hfront, List.dropWhile_cons_of_neg (by decide)]
  have hposition : (spell loc).takeWhile (· ≠ ':') = Text.ofInt loc.position := by
    rw [spell, List.takeWhile_append_of_pos hfront, List.takeWhile_cons_of_neg (by decide),
      List.append_nil]
  have hfound : location? (spell loc) = some loc := by
    rw [location?, hname, hposition]
    simp only
    rw [if_neg h.ne_nil, position?_ofInt h.lower h.upper]
    rfl
  rw [readLocation, hfound]

/-- The spelling of a location is whole when its name is. -/
lemma whole_spell {loc : NamedLocation} (h : Whole loc.name) : Whole (spell loc) :=
  whole_append_of_plainChar (plain_ofInt loc.position).chars (.plain (by decide) (by decide) h)

lemma spell_ne_nil (loc : NamedLocation) : spell loc ≠ [] := by
  rw [spell]
  exact List.append_ne_nil_of_right_ne_nil _ (List.cons_ne_nil _ _)

/-! ## Lines -/

/-- The pattern can stand on one line behind the name of its feature. -/
structure LegiblePattern (name pattern : Text) : Prop where
  whole : Whole name
  ne_nil : name ≠ []
  newline : '\n' ∉ name
  word : IsWord pattern
  pattern_newline : '\n' ∉ pattern

/-- What is said by a line. -/
def Legible : Rule → Prop
  | beam size => size < twoTo 64
  | lookbehind size => size < twoTo 64
  | lookahead size => size < twoTo 64
  | pattern name patterns => ∀ pattern ∈ patterns, LegiblePattern name pattern
  | weight first second _ => Sayable first ∧ ∀ loc ∈ second, Sayable loc

/-- The arguments are tokens of one line. -/
structure OnLine (arguments : List Text) : Prop where
  word : ∀ token ∈ arguments, IsWord token
  whole : ∀ token ∈ arguments.dropLast, Whole token
  newline : ∀ token ∈ arguments, '\n' ∉ token

/-- The tokens of one line are words, and can stand on one line again. -/
lemma onLine_tokens {line : Text} (h : '\n' ∉ line) : OnLine (tokens line) where
  word _ := isWord_of_mem_tokens
  whole _ := whole_of_mem_dropLast_tokens
  newline _ htoken hmem := h (mem_of_mem_tokens htoken hmem)

/-- A count has 64 bits. -/
lemma count?_lt {token : Text} {n : Nat} (h : count? token = some n) : n < twoTo 64 := by
  unfold count? at h
  split at h <;> exact (natBelow?_eq_some h).1

/-- The count that a setting is given has 64 bits. -/
lemma readOneCount_lt {command : Char} {arguments : List Text} {n : Nat}
    (h : readOneCount command arguments = .ok n) : n < twoTo 64 := by
  rw [readOneCount.eq_def] at h
  split at h
  · rename_i token
    rw [readCount] at h
    split at h
    · rename_i n' hn
      obtain rfl := Except.ok.inj h
      exact count?_lt hn
    · cases h
  · cases h

/-- The rule that is read from words on one line can be written on one line. -/
lemma legible_readCommand {command : Char} {arguments : List Text} {rule : Rule}
    (hline : OnLine arguments) (h : readCommand command arguments = .ok (some rule)) :
    rule.Legible := by
  have hcount : ∀ make : Nat → Rule, (∀ n, n < twoTo 64 → (make n).Legible) →
      (do return some (make (← readOneCount command arguments))) = Except.ok (some rule) →
        rule.Legible := by
    intro make hmake h
    obtain ⟨n, hn, hrule⟩ := bind_eq_ok.1 h
    cases hrule
    exact hmake n (readOneCount_lt hn)
  unfold readCommand at h
  split at h
  · exact hcount .beam (fun _ hn => hn) h
  split at h
  · exact hcount .lookbehind (fun _ hn => hn) h
  split at h
  · exact hcount .lookahead (fun _ hn => hn) h
  split at h
  · split at h
    · rename_i name patterns
      cases h
      obtain ⟨hname, hpatterns⟩ := List.forall_mem_cons.1 hline.word
      obtain ⟨hnewline, hnewlines⟩ := List.forall_mem_cons.1 hline.newline
      intro pattern hpattern
      refine ⟨hline.whole name ?_, hname.ne_nil, hnewline, hpatterns pattern hpattern,
        hnewlines pattern hpattern⟩
      rw [List.dropLast_cons_of_ne_nil (List.ne_nil_of_mem hpattern)]
      exact List.mem_cons_self
    · cases h
  split at h
  · split at h
    · rename_i a w
      obtain ⟨first, hfirst, h⟩ := bind_eq_ok.1 h
      obtain ⟨weight, -, h⟩ := bind_eq_ok.1 h
      cases h
      refine ⟨?_, fun _ hloc => nomatch hloc⟩
      exact sayable_of_readLocation (hline.whole a (by simp)) (hline.newline a (by simp)) hfirst
    · rename_i a b w
      obtain ⟨first, hfirst, h⟩ := bind_eq_ok.1 h
      obtain ⟨second, hsecond, h⟩ := bind_eq_ok.1 h
      obtain ⟨weight, -, h⟩ := bind_eq_ok.1 h
      cases h
      refine ⟨?_, fun loc hloc => ?_⟩
      · exact sayable_of_readLocation (hline.whole a (by simp)) (hline.newline a (by simp)) hfirst
      · obtain rfl := Option.some.inj hloc
        exact sayable_of_readLocation (hline.whole b (by simp)) (hline.newline b (by simp)) hsecond
    · cases h
  · cases h

/-- What a line says is legible. -/
lemma legible_ofLine {line : Text} {rule : Rule} (hline : '\n' ∉ line)
    (h : ofLine line = .ok (some rule)) : rule.Legible := by
  rw [ofLine] at h
  split at h
  · cases h
  · rename_i command rest hrest
    have hsuffix : command :: rest <:+ line := hrest ▸ List.dropWhile_suffix _
    refine legible_readCommand (onLine_tokens fun hmem => hline ?_) h
    exact hsuffix.mem (List.mem_cons_of_mem _ hmem)

/-! ## Rules as they are written -/

/-- A command with its words. -/
def line (command : Char) (words : List Text) : Text := command :: words.flatMap (' ' :: ·)

/-- A line that is written of whole words is read as the command with those words. -/
lemma ofLine_line {command : Char} {words : List Text} {last : Text}
    (hcommand : Text.isWhite command = false) (hwords : ∀ word ∈ words, Whole word ∧ word ≠ [])
    (hlast : IsWord last) :
    ofLine (line command (words ++ [last])) = readCommand command (words ++ [last]) := by
  rw [ofLine, line, Text.trimStart, List.dropWhile_cons_of_neg (by rw [hcommand]; decide)]
  show readCommand command (tokens _) = _
  rw [tokens_spaced hwords hlast]

/-- A line that is written of words without line breaks is one line. -/
lemma oneLine_line {command : Char} {words : List Text} {last : Text} (hcommand : command ≠ '\n')
    (hwords : ∀ word ∈ words, '\n' ∉ word) (hlast : Text.OneLine last) (hne : last ≠ []) :
    Text.OneLine (line command (words ++ [last])) where
  newline := by
    have hspaced : ∀ word ∈ words ++ [last], '\n' ∉ ' ' :: word := by
      intro word hword hmem
      rcases List.mem_append.1 hword with hword | hword
      · exact hwords word hword ((List.mem_cons.1 hmem).resolve_left (by decide))
      · rw [List.mem_singleton.1 hword] at hmem
        exact hlast.newline ((List.mem_cons.1 hmem).resolve_left (by decide))
    intro hmem
    rcases List.mem_cons.1 hmem with hc | hmem
    · exact hcommand hc.symm
    · obtain ⟨word, hword, hmem⟩ := List.mem_flatMap.1 hmem
      exact hspaced word hword hmem
  return_ne := by
    obtain ⟨c, rest, rfl⟩ := List.exists_cons_of_ne_nil hne
    rw [line, List.flatMap_append, List.flatMap_singleton, ← List.cons_append, List.getLast?_append,
      List.getLast?_cons_cons, List.getLast?_eq_some_getLast hne, Option.some_or,
      ← List.getLast?_eq_some_getLast hne]
    exact hlast.return_ne

/-- A rule as it is written. -/
def text : Rule → Text
  | beam size => line 'B' [Text.ofNat size]
  | lookbehind size => line 'L' [Text.ofNat size]
  | lookahead size => line 'R' [Text.ofNat size]
  | pattern name patterns => line 'P' (name :: patterns)
  | weight first none x => line 'W' [spell first, x.decimalText]
  | weight first (some second) x => line 'W' [spell first, spell second, x.decimalText]

/-- The rule is the same when it is read from its line. -/
def Clear : Rule → Prop
  | beam size => size < twoTo 64
  | lookbehind size => size < twoTo 64
  | lookahead size => size < twoTo 64
  | pattern name patterns => ∃ pattern, patterns = [pattern] ∧ LegiblePattern name pattern ∧
      pattern.getLast? ≠ some '\r'
  | weight first second x => Sayable first ∧ (∀ loc ∈ second, Sayable loc) ∧
      Binary64.ofText? x.decimalText = some x

/-- A setting is read back from its digits. -/
lemma readOneCount_ofNat {command : Char} {n : Nat} (h : n < twoTo 64) :
    readOneCount command [Text.ofNat n] = .ok n := by
  rw [readOneCount, readCount, count?_ofNat h]

/-- The spelling of a location has no line break unless its name has one. -/
lemma newline_notMem_spell {loc : NamedLocation} (h : '\n' ∉ loc.name) : '\n' ∉ spell loc := by
  intro hmem
  rcases List.mem_append.1 hmem with hmem | hmem
  · exact (plain_ofInt loc.position).oneLine.newline hmem
  · exact h ((List.mem_cons.1 hmem).resolve_left (by decide))

/-- The word can be followed by another one on its line. -/
structure Inner (word : Text) : Prop where
  whole : Whole word
  ne_nil : word ≠ []
  newline : '\n' ∉ word

/-- The name in front of a pattern can stand inside a line. -/
lemma LegiblePattern.inner {name pattern : Text} (h : LegiblePattern name pattern) : Inner name :=
  ⟨h.whole, h.ne_nil, h.newline⟩

/-- The spelling of a location that can be said can stand inside a line. -/
lemma Sayable.inner {loc : NamedLocation} (h : Sayable loc) : Inner (spell loc) :=
  ⟨whole_spell h.whole, spell_ne_nil loc, newline_notMem_spell h.newline⟩

/-- The rule is written as these words and read from them. -/
structure Spelled (rule : Rule) (command : Char) (words : List Text) (last : Text) : Prop where
  text_eq : rule.text = line command (words ++ [last])
  white : Text.isWhite command = false
  inner : ∀ word ∈ words, Inner word
  last_word : IsWord last
  last_oneLine : Text.OneLine last
  read : readCommand command (words ++ [last]) = .ok (some rule)

/-- A setting is spelled by its letter and its digits. -/
lemma spelled_count {rule : Rule} {command : Char} {n : Nat}
    (htext : rule.text = line command [Text.ofNat n]) (hwhite : Text.isWhite command = false)
    (hread : readCommand command [Text.ofNat n] = .ok (some rule)) :
    Spelled rule command [] (Text.ofNat n) :=
  ⟨htext, hwhite, List.forall_mem_nil _, (plain_ofNat n).isWord, (plain_ofNat n).oneLine, hread⟩

/-- Each clear rule is spelled by a letter and words that are read back as it. -/
lemma exists_spelled {rule : Rule} (h : rule.Clear) :
    ∃ command words last, Spelled rule command words last := by
  cases rule with
  | beam size =>
      refine ⟨'B', [], _, spelled_count rfl rfl ?_⟩
      rw [readCommand, if_pos rfl, readOneCount_ofNat h]
      rfl
  | lookbehind size =>
      refine ⟨'L', [], _, spelled_count rfl rfl ?_⟩
      rw [readCommand, if_neg (by decide), if_pos rfl, readOneCount_ofNat h]
      rfl
  | lookahead size =>
      refine ⟨'R', [], _, spelled_count rfl rfl ?_⟩
      rw [readCommand, if_neg (by decide), if_neg (by decide), if_pos rfl,
        readOneCount_ofNat h]
      rfl
  | pattern name patterns =>
      obtain ⟨pattern, rfl, hpattern, hreturn⟩ := h
      exact ⟨'P', [name], pattern, rfl, rfl, List.forall_mem_singleton.2 hpattern.inner,
        hpattern.word, ⟨hpattern.pattern_newline, hreturn⟩, rfl⟩
  | weight first second x =>
      obtain ⟨hfirst, hsecond, hx⟩ := h
      have hread : readWeight x.decimalText = .ok x := by rw [readWeight, hx]
      cases second with
      | none =>
          refine ⟨'W', [spell first], x.decimalText, rfl, rfl,
            List.forall_mem_singleton.2 hfirst.inner, (plain_decimalText x).isWord,
            (plain_decimalText x).oneLine, ?_⟩
          show (do return some (Rule.weight (← readLocation (spell first)) none
            (← readWeight x.decimalText))) = _
          rw [readLocation_spell hfirst, hread]
          rfl
      | some second =>
          have hsecond := hsecond second rfl
          refine ⟨'W', [spell first, spell second], x.decimalText, rfl, rfl,
            List.forall_mem_cons.2 ⟨hfirst.inner, List.forall_mem_singleton.2 hsecond.inner⟩,
            (plain_decimalText x).isWord, (plain_decimalText x).oneLine, ?_⟩
          show (do return some (Rule.weight (← readLocation (spell first))
            (some (← readLocation (spell second))) (← readWeight x.decimalText))) = _
          rw [readLocation_spell hfirst, readLocation_spell hsecond, hread]
          rfl

/-- **Rules are read back.** -/
lemma ofLine_text {rule : Rule} (h : rule.Clear) : ofLine rule.text = .ok (some rule) := by
  obtain ⟨command, words, last, hspelled⟩ := exists_spelled h
  have hwords : ∀ word ∈ words, Whole word ∧ word ≠ [] := fun word hword =>
    ⟨(hspelled.inner word hword).whole, (hspelled.inner word hword).ne_nil⟩
  rw [hspelled.text_eq, ofLine_line hspelled.white hwords hspelled.last_word, hspelled.read]

/-- A rule that is read back is written on one line. -/
lemma oneLine_text {rule : Rule} (h : rule.Clear) : Text.OneLine rule.text := by
  obtain ⟨command, words, last, hspelled⟩ := exists_spelled h
  have hcommand : command ≠ '\n' := by
    rintro rfl
    exact absurd hspelled.white (by decide)
  rw [hspelled.text_eq]
  exact oneLine_line hcommand (fun word hword => (hspelled.inner word hword).newline)
    hspelled.last_oneLine hspelled.last_word.ne_nil

end LexicalSelection.Rule
