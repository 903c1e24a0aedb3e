import LexicalSelection.Input
import LexicalSelection.Proofs.Text.Utf8

/-!
# Reading one character after the other

A caller looks at the next character, takes it, or asks whether there is one, in any order.  What it
is told comes from the longest text at the front of the bytes, and only a call behind that text can
fail.

* `Utf8.LongestText` — the longest text whose bytes are at the front of a byte string.
* `Input.Call`, `Input.session` — what a caller asks for, and what it is told up to the first error.
* `Input.placed`, `Input.told` — how many characters have been taken before each call, and what the
  call is told by a text.
* **`session_ofBytes`** — a session on any bytes.
-/

namespace LexicalSelection

/-! ## The longest text in front -/

namespace Utf8

variable {bytes : Bytes} {text : Text} {offset n : Nat} {rest : List Item}

/-- The longest text whose bytes are at the front of a byte string. -/
structure LongestText (bytes : Bytes) (text : Text) : Prop where
  front : text.utf8 <+: bytes
  longest : ∀ other : Text, other.utf8 <+: bytes → other.utf8.length ≤ text.utf8.length

/-- There is one such text only. -/
lemma LongestText.unique {other : Text} (h : LongestText bytes text)
    (hother : LongestText bytes other) :
    text = other := by
  have hlength : text.utf8.length = other.utf8.length :=
    Nat.le_antisymm (hother.longest text h.front) (h.longest other hother.front)
  have hutf8 : text.utf8 = other.utf8 :=
    (List.prefix_of_prefix_length_le h.front hother.front (Nat.le_of_eq hlength)).eq_of_length
      hlength
  have hdecode := congrArg decode? hutf8
  rw [decode?_utf8, decode?_utf8] at hdecode
  exact Option.some.inj hdecode

lemma length_utf8_le {front : Text} (h : front <+: text) :
    front.utf8.length ≤ text.utf8.length := by
  obtain ⟨more, rfl⟩ := h
  simp [Text.utf8]

/-- Items are characters up to their end or to the first broken sequence. -/
lemma exists_text (items : List Item) : ∃ text : Text,
    items = text.map .char ∨ ∃ n rest, items = text.map .char ++ .broken n :: rest := by
  induction items with
  | nil => exact ⟨[], Or.inl rfl⟩
  | cons first items ih =>
      cases first with
      | broken n => exact ⟨[], Or.inr ⟨n, items, rfl⟩⟩
      | char c =>
          obtain ⟨text, rfl | ⟨n, rest, rfl⟩⟩ := ih
          · exact ⟨c :: text, Or.inl rfl⟩
          · exact ⟨c :: text, Or.inr ⟨n, rest, rfl⟩⟩

/-- Characters that are read in front have their bytes in front. -/
lemma exists_behind_of_itemsFrom (h : itemsFrom offset bytes = text.map .char ++ rest) :
    ∃ behind, bytes = text.utf8 ++ behind ∧
      itemsFrom (offset + text.utf8.length) behind = rest := by
  induction text generalizing offset bytes with
  | nil => exact ⟨bytes, rfl, h⟩
  | cons c text ih =>
      cases bytes with
      | nil => simp [itemsFrom] at h
      | cons lead tail =>
          rw [itemsFrom, List.map_cons, List.cons_append] at h
          obtain ⟨hitem, hrest⟩ := List.cons.inj h
          have hbytes := item_eq_char hitem
          obtain ⟨behind, htail, hbehind⟩ := ih hrest
          have hannounced : announced lead tail ++ tail.drop (announced lead tail).length = tail :=
            List.prefix_iff_eq_append.1 (List.take_prefix _ _)
          have hutf8 : Text.utf8 (c :: text) = lead :: announced lead tail ++ Text.utf8 text := by
            rw [Text.utf8, List.flatMap_cons, hbytes]
            rfl
          refine ⟨behind, ?_, ?_⟩
          · rw [hutf8, List.append_assoc, ← htail, List.cons_append, hannounced]
          · rw [← hbehind, hutf8]
            congr 1
            simp only [List.length_append, List.length_cons]
            omega

/-- A broken sequence is found at its first byte. -/
lemma offset_of_itemsFrom (h : itemsFrom offset bytes = .broken n :: rest) : n = offset := by
  cases bytes with
  | nil => simp [itemsFrom] at h
  | cons lead tail =>
      rw [itemsFrom] at h
      obtain ⟨hitem, -⟩ := List.cons.inj h
      rw [item] at hitem
      split at hitem
      · split at hitem
        · cases hitem
        · exact (Item.broken.inj hitem).symm
      · exact (Item.broken.inj hitem).symm

lemma longestText_of_items (h : items bytes = text.map .char) : LongestText bytes text where
  front := utf8_of_items h ▸ List.prefix_refl _
  longest _ hother := utf8_of_items h ▸ hother.length_le

/-- **The text in front of the first broken sequence is the longest one**, and the sequence is found
behind its bytes. -/
lemma longestText_of_broken (h : items bytes = text.map .char ++ .broken n :: rest) :
    LongestText bytes text ∧ text.utf8 ≠ bytes ∧ n = text.utf8.length := by
  obtain ⟨behind, hbytes, hbehind⟩ := exists_behind_of_itemsFrom h
  refine ⟨⟨⟨behind, hbytes.symm⟩, fun other hother => ?_⟩, ?_, ?_⟩
  · -- The characters of the other text are the first items, and none of them is broken.
    obtain ⟨more, hmore⟩ := hother
    have hitems := itemsFrom_utf8_append 0 other more
    rw [hmore] at hitems
    have hfront : other.map Item.char <+: text.map .char ++ .broken n :: rest :=
      ⟨_, hitems.symm.trans h⟩
    by_cases hle : other.length ≤ text.length
    · have hmap : other.map Item.char <+: text.map .char :=
        List.prefix_of_prefix_length_le hfront (List.prefix_append _ _) (by simpa using hle)
      exact length_utf8_le ((List.prefix_map_iff_of_injective fun _ _ => Item.char.inj).1 hmap)
    · have hbroken : text.map Item.char ++ [.broken n] <+: other.map Item.char :=
        List.prefix_of_prefix_length_le
          (List.prefix_append_right_inj _ |>.2 ⟨rest, rfl⟩) hfront (by simp; omega)
      obtain ⟨c, -, hc⟩ := List.mem_map.1 (hbroken.subset (by simp : Item.broken n ∈ _))
      cases hc
  · intro hall
    have hnil : behind = [] := List.self_eq_append_right.1 (hall.trans hbytes)
    rw [hnil, itemsFrom] at hbehind
    cases hbehind
  · rw [offset_of_itemsFrom hbehind, Nat.zero_add]

end Utf8

/-! ## Sessions -/

namespace Input

/-- What a caller of a reader asks for. -/
inductive Call where
  /-- To look at the next character. -/
  | peek
  /-- To take the next character. -/
  | next
  /-- Whether every character has been taken. -/
  | isEnd
  deriving DecidableEq, Repr

/-- What a caller is told. -/
inductive Answer where
  /-- The next character; there is none at the end. -/
  | char (c : Option Char)
  /-- Whether every character has been taken. -/
  | isEnd (ended : Bool)
  deriving DecidableEq, Repr

namespace Call

/-- The reading step of a call. -/
def step : Call → Reader Answer
  | .peek => do return .char (← Input.peek)
  | .next => do return .char (← Input.next)
  | .isEnd => do return .isEnd (← Input.isEnd)

/-- The answer to a call when this is the next character. -/
def answer (c : Option Char) : Call → Answer
  | .peek => .char c
  | .next => .char c
  | .isEnd => .isEnd c.isNone

/-- How many characters have been taken behind a call. -/
def behind (taken : Nat) : Call → Nat
  | .next => taken + 1
  | .peek => taken
  | .isEnd => taken

end Call

/-- The calls that are answered, with their answers, and the error that ends them. -/
def session : List Call → Input → List (Call × Answer) × Option BrokenSequence
  | [], _ => ([], none)
  | call :: calls, input =>
    match call.step input with
    | .ok answer rest =>
      let (log, fault) := session calls rest
      ((call, answer) :: log, fault)
    | .error fault _ => ([], some fault)

/-- The characters that are taken in a session. -/
def takenText (log : List (Call × Answer)) : Text :=
  log.filterMap fun
    | (.next, .char c) => c
    | _ => none

/-- The calls, each with the number of characters that have been taken before it. -/
def placed (taken : Nat) : List Call → List (Call × Nat)
  | [] => []
  | call :: calls => (call, taken) :: placed (call.behind taken) calls

/-- What a call is told about a text of which so many characters have been taken. -/
def told (text : Text) (asked : Call × Nat) : Call × Answer :=
  (asked.1, asked.1.answer text[asked.2]?)

variable {text : Text} {taken n : Nat} {calls : List Call} {rest : Input}

/-! ### One call -/

lemma step_nil (call : Call) : call.step [] = .ok (call.answer none) [] := by
  cases call <;> rfl

lemma step_broken (call : Call) (n : Nat) (rest : Input) :
    call.step (.broken n :: rest) = .error ⟨n⟩ rest := by
  cases call <;> rfl

lemma step_text (call : Call) (h : taken < text.length) (rest : Input) :
    call.step (ofText (text.drop taken) ++ rest)
      = .ok (call.answer text[taken]?) (ofText (text.drop (call.behind taken)) ++ rest) := by
  rw [List.getElem?_eq_getElem h, List.drop_eq_getElem_cons h]
  cases call with
  | peek => rw [Call.behind, List.drop_eq_getElem_cons h]; rfl
  | next => rfl
  | isEnd => rw [Call.behind, List.drop_eq_getElem_cons h]; rfl

lemma le_behind (call : Call) (taken : Nat) : taken ≤ call.behind taken := by
  cases call <;> simp [Call.behind]

lemma behind_le (call : Call) (h : taken < text.length) : call.behind taken ≤ text.length := by
  cases call <;> simp only [Call.behind] <;> omega

/-! ### A row of calls -/

lemma session_of_ok {call : Call} {answer : Answer} {input : Input}
    (h : call.step input = .ok answer rest) (calls : List Call) : session (call :: calls) input
      = ((call, answer) :: (session calls rest).1, (session calls rest).2) := by
  rw [session, h]

lemma session_of_error {call : Call} {fault : BrokenSequence} {input : Input}
    (h : call.step input = .error fault rest) (calls : List Call) :
    session (call :: calls) input = ([], some fault) := by
  rw [session, h]

/-- Without a broken sequence every call is answered, also at the end. -/
lemma session_ofText (text : Text) (taken : Nat) (calls : List Call) :
    session calls (ofText (text.drop taken)) = ((placed taken calls).map (told text), none) := by
  induction calls generalizing taken with
  | nil => rfl
  | cons call calls ih =>
      have hstep : call.step (ofText (text.drop taken))
          = .ok (call.answer text[taken]?) (ofText (text.drop (call.behind taken))) := by
        by_cases h : taken < text.length
        · simpa using step_text call h []
        · have hcount := le_behind call taken
          rw [List.drop_eq_nil_of_le (by omega), List.drop_eq_nil_of_le (by omega),
            List.getElem?_eq_none (by omega)]
          exact step_nil call
      rw [session_of_ok hstep, ih]
      rfl

/-- In front of a broken sequence the calls are answered that come before the end of the text. -/
lemma session_broken (hle : taken ≤ text.length) (calls : List Call) (n : Nat) (rest : Input) :
    session calls (ofText (text.drop taken) ++ .broken n :: rest)
      = (((placed taken calls).takeWhile (·.2 < text.length)).map (told text),
        if ∀ asked ∈ placed taken calls, asked.2 < text.length then none else some ⟨n⟩) := by
  induction calls generalizing taken with
  | nil => simp [session, placed]
  | cons call calls ih =>
      have hall : (∀ asked ∈ placed taken (call :: calls), asked.2 < text.length) ↔
          taken < text.length ∧ ∀ asked ∈ placed (call.behind taken) calls, asked.2 < text.length :=
        List.forall_mem_cons
      by_cases h : taken < text.length
      · rw [session_of_ok (step_text call h _), ih (behind_le call h)]
        simp only [hall, h, true_and]
        simp [placed, h, told]
      · rw [List.drop_eq_nil_of_le (Nat.le_of_not_lt h)]
        refine (session_of_error (step_broken call n rest) calls).trans ?_
        simp only [hall, h, false_and]
        simp [placed, h]

/-- The characters that are taken are the next ones of the text, as many as are asked for. -/
lemma takenText_told (text : Text) (taken : Nat) (calls : List Call) :
    takenText ((placed taken calls).map (told text))
      = (text.drop taken).take (calls.count .next) := by
  induction calls generalizing taken with
  | nil => rfl
  | cons call calls ih =>
      rw [placed, List.map_cons, takenText, List.filterMap_cons, ← takenText, ih]
      cases call with
      | peek => rfl
      | isEnd => rfl
      | next =>
          rw [List.count_cons_self, Call.behind]
          by_cases h : taken < text.length
          · rw [List.drop_eq_getElem_cons h, List.take_succ_cons]
            simp [told, Call.answer, h]
          · rw [List.drop_eq_nil_of_le (Nat.le_of_not_lt h), List.drop_eq_nil_of_le (by omega)]
            simp [told, Call.answer, Nat.le_of_not_lt h]

/-- Behind the end of the text no call takes a character. -/
lemma takenText_takeWhile (text : Text) (taken : Nat) (calls : List Call) :
    takenText (((placed taken calls).takeWhile (·.2 < text.length)).map (told text))
      = takenText ((placed taken calls).map (told text)) := by
  induction calls generalizing taken with
  | nil => rfl
  | cons call calls ih =>
      by_cases h : taken < text.length
      · have hrest := ih (call.behind taken)
        simp only [takenText] at hrest
        simp [placed, h, takenText, List.filterMap_cons, hrest]
      · rw [takenText_told, List.drop_eq_nil_of_le (Nat.le_of_not_lt h), List.take_nil]
        simp [placed, h, takenText]

/-- **A session reads the longest text at the front of the bytes.**  In whatever order a caller
looks at characters, takes them and asks for the end, it takes the characters of that text in order
and each once, and is told at each call about the first character that it has not taken.  When there
are no bytes behind the text, no call fails, and behind the last character all calls tell the end.
Otherwise the first call behind the last character fails, and the error has the offset behind the
bytes of the text. -/
theorem session_ofBytes (bytes : Bytes) : ∃ text, Utf8.LongestText bytes text ∧ ∀ calls : List Call,
    takenText (session calls (.ofBytes bytes)).1 = text.take (calls.count .next) ∧
    session calls (.ofBytes bytes) =
      if text.utf8 = bytes then ((placed 0 calls).map (told text), none)
      else (((placed 0 calls).takeWhile (·.2 < text.length)).map (told text),
        if ∀ asked ∈ placed 0 calls, asked.2 < text.length then none
        else some ⟨text.utf8.length⟩) := by
  obtain ⟨text, h | ⟨n, rest, h⟩⟩ := Utf8.exists_text (Utf8.items bytes)
  · have hsession : ∀ calls,
        session calls (.ofBytes bytes) = ((placed 0 calls).map (told text), none) :=
      fun calls => by rw [ofBytes, h]; exact session_ofText text 0 calls
    refine ⟨text, Utf8.longestText_of_items h, fun calls => ⟨?_, ?_⟩⟩
    · rw [hsession, takenText_told, List.drop_zero]
    · rw [if_pos (Utf8.utf8_of_items h), hsession]
  · obtain ⟨hlongest, hne, rfl⟩ := Utf8.longestText_of_broken h
    have hsession := fun calls =>
      session_broken (Nat.zero_le text.length) calls text.utf8.length rest
    rw [List.drop_zero] at hsession
    refine ⟨text, hlongest, fun calls => ?_⟩
    rw [ofBytes, h, if_neg hne, ← ofText]
    refine ⟨?_, hsession calls⟩
    rw [hsession, takenText_takeWhile, takenText_told, List.drop_zero]

/-- The bytes end in the middle of the third character: the two before it can be taken, and the next
call fails at the offset behind their three bytes. -/
theorem session_ofBytes_cut_short :
    let bytes : Bytes := [0x61, 0xC3, 0xA9, 0xE2, 0x82]
    let calls : List Call := [.peek, .next, .isEnd, .next, .isEnd, .next]
    let answered : List (Call × Answer) :=
      [(.peek, .char 'a'), (.next, .char 'a'), (.isEnd, .isEnd false), (.next, .char 'é')]
    Utf8.LongestText bytes ['a', 'é'] ∧
      takenText (session calls (.ofBytes bytes)).1 = ['a', 'é'] ∧
      session calls (.ofBytes bytes) = (answered, some ⟨3⟩) := by
  intro bytes calls answered
  obtain ⟨text, hlongest, hsession⟩ := session_ofBytes bytes
  have hitems : Utf8.items bytes = ['a', 'é'].map .char ++ [.broken 3] := by decide +kernel
  obtain rfl := hlongest.unique (Utf8.longestText_of_broken hitems).1
  obtain ⟨htaken, htold⟩ := hsession calls
  exact ⟨hlongest, htaken.trans (by decide +kernel), htold.trans (by decide +kernel)⟩

end Input

end LexicalSelection
