import LexicalSelection.LexicalUnit
import Mathlib.Data.List.Basic

/-!
# How units are spelled

Reading a unit takes its spelling from the front of the input, no more and no less, and can fail
only at a broken sequence.

* `Input.AtFront` — the end of the input, or one of some characters at its front.
* `LexicalUnit.spelling` — the text of a unit with all of its targets, closed or not.
* **`spelling_of_read`** — what reading a unit takes is the spelling of the unit.  A unit that is
  not closed stands before a segment separator or at the end.
* **`exists_read_ofText`** — a unit can be read from every text.
-/

namespace LexicalSelection

/-- What reading comes to can be compared, so that it can be evaluated. -/
instance Found.instDecidableEq {β : Type} [DecidableEq β] : DecidableEq (Found β)
  | .ok value rest, .ok value' rest' =>
    decidable_of_iff (value = value' ∧ rest = rest') (by rw [EStateM.Result.ok.injEq])
  | .error fault rest, .error fault' rest' =>
    decidable_of_iff (fault = fault' ∧ rest = rest') (by rw [EStateM.Result.error.injEq])
  | .ok .., .error .. => isFalse nofun
  | .error .., .ok .. => isFalse nofun

namespace Input

variable {input rest : Input} {close : Char} {text blank : Text}

/-- The input is at its end, or goes on with a character of this kind. -/
def AtFront (p : Char → Prop) (input : Input) : Prop :=
  input = [] ∨ ∃ c rest, input = .char c :: rest ∧ p c

/-! ## What is taken -/

lemma ofText_append (text text' : Text) : ofText (text ++ text') = ofText text ++ ofText text' :=
  List.map_append

/-- What is copied up to a closing character is taken from the input as it stands. -/
lemma spelling_of_copyThrough (h : copyThrough close input = .ok text rest) :
    input = ofText text ++ rest := by
  fun_induction copyThrough close input generalizing text with
  | case1 => cases h; rfl
  | case2 => cases h
  | case3 => cases h; rfl
  | case4 => cases h
  | case5 d input ih =>
      obtain ⟨text, htext, rfl⟩ := map_eq_ok.1 h
      rw [ih htext]
      rfl
  | case6 => cases h; rfl
  | case7 c input _ _ ih =>
      obtain ⟨text, htext, rfl⟩ := map_eq_ok.1 h
      rw [ih htext]
      rfl

/-- A tag is taken as it stands, behind its opening bracket. -/
lemma spelling_of_readTag {tag : Text} (h : readTag input = .ok tag rest) :
    .char '<' :: input = ofText tag ++ rest := by
  obtain ⟨body, hbody, rfl⟩ := map_eq_ok.1 h
  rw [spelling_of_copyThrough hbody]
  rfl

/-- A blank is taken as it stands, up to a unit, a separator or the end. -/
lemma spelling_of_readBlank (h : readBlank input = .ok blank rest) :
    input = ofText blank ++ rest ∧ rest.AtFront fun c => c = unitOpen ∨ c = segmentSeparator := by
  fun_induction readBlank input generalizing blank with
  | case1 => cases h; exact ⟨rfl, Or.inl rfl⟩
  | case2 => cases h
  | case3 c input hc => cases h; exact ⟨rfl, Or.inr ⟨c, input, rfl, hc⟩⟩
  | case4 => cases h; exact ⟨rfl, Or.inl rfl⟩
  | case5 => cases h
  | case6 d input _ ih =>
      obtain ⟨blank, hblank, rfl⟩ := map_eq_ok.1 h
      obtain ⟨hinput, hfront⟩ := ih hblank
      exact ⟨by rw [hinput]; rfl, hfront⟩
  | case7 => cases h
  | case8 input stretch rest' hstretch _ _ _ ih =>
      obtain ⟨blank, hblank, rfl⟩ := map_eq_ok.1 h
      obtain ⟨hinput, hfront⟩ := ih hblank
      refine ⟨?_, hfront⟩
      rw [spelling_of_copyThrough hstretch, hinput, ← List.append_assoc, ← ofText_append]
      rfl
  | case9 c input _ _ _ ih =>
      obtain ⟨blank, hblank, rfl⟩ := map_eq_ok.1 h
      obtain ⟨hinput, hfront⟩ := ih hblank
      exact ⟨by rw [hinput]; rfl, hfront⟩

/-! ## Where reading fails -/

/-- The input has a broken sequence somewhere. -/
def Broken (input : Input) : Prop := ∃ n, Item.broken n ∈ input

/-- Doing something to what is found does not change where reading fails. -/
lemma map_eq_error {α β : Type} {f : α → β} {found : Found α} {fault : BrokenSequence}
    (h : found.map f = .error fault rest) : found = .error fault rest := by
  cases found with
  | ok a rest => cases h
  | error fault rest => cases h; rfl

/-- A text has no broken sequence. -/
lemma not_broken_ofText (text : Text) : ¬ (ofText text).Broken := by
  simp [Broken, ofText]

lemma Broken.cons (item : Item) (h : input.Broken) : Broken (item :: input) := by
  obtain ⟨n, hn⟩ := h
  exact ⟨n, List.mem_cons_of_mem _ hn⟩

lemma Broken.append_left {front : Input} (h : input.Broken) : Broken (front ++ input) := by
  obtain ⟨n, hn⟩ := h
  exact ⟨n, List.mem_append_right _ hn⟩

lemma broken_cons (n : Nat) (input : Input) : Broken (.broken n :: input) :=
  ⟨n, List.mem_cons_self⟩

lemma broken_of_copyThrough {fault : BrokenSequence}
    (h : copyThrough close input = .error fault rest) : input.Broken := by
  fun_induction copyThrough close input with
  | case1 => cases h
  | case2 n input => exact broken_cons n input
  | case3 => cases h
  | case4 n input => exact (broken_cons n input).cons _
  | case5 d input ih => exact ((ih (map_eq_error h)).cons _).cons _
  | case6 => cases h
  | case7 c input _ _ ih => exact (ih (map_eq_error h)).cons _

lemma broken_of_readTag {fault : BrokenSequence} (h : readTag input = .error fault rest) :
    input.Broken :=
  broken_of_copyThrough (map_eq_error h)

/-- Reading a blank fails only in an input with a broken sequence. -/
lemma broken_of_readBlank {fault : BrokenSequence} (h : readBlank input = .error fault rest) :
    input.Broken := by
  fun_induction readBlank input with
  | case1 => cases h
  | case2 n input => exact broken_cons n input
  | case3 => cases h
  | case4 => cases h
  | case5 n input => exact (broken_cons n input).cons _
  | case6 d input _ ih => exact ((ih (map_eq_error h)).cons _).cons _
  | case7 input fault' rest' hstretch => exact (broken_of_copyThrough hstretch).cons _
  | case8 input stretch rest' hstretch _ _ _ ih =>
      rw [spelling_of_copyThrough hstretch]
      exact ((ih (map_eq_error h)).append_left).cons _
  | case9 c input _ _ _ ih => exact (ih (map_eq_error h)).cons _

end Input

namespace Reading

variable {tags : TagNumbers} {input rest : Input} {pieces : List Piece} {reading : Reading}

/-- The pieces of a reading spell what is taken, and behind them the reading ends. -/
lemma spelling_of_readPieces (h : readPieces tags input = .ok pieces rest) :
    input = .ofText (pieces.flatMap Piece.text) ++ rest ∧ rest.AtFront (endsReading · = true) := by
  fun_induction readPieces tags input generalizing pieces with
  | case1 => cases h; exact ⟨rfl, Or.inl rfl⟩
  | case2 => cases h
  | case3 c input hc => cases h; exact ⟨rfl, Or.inr ⟨c, input, rfl, hc⟩⟩
  | case4 => cases h; exact ⟨rfl, Or.inl rfl⟩
  | case5 => cases h
  | case6 d input _ ih =>
      obtain ⟨pieces, hpieces, rfl⟩ := Input.map_eq_ok.1 h
      obtain ⟨hinput, hfront⟩ := ih hpieces
      exact ⟨by rw [hinput]; rfl, hfront⟩
  | case7 => cases h
  | case8 input tag rest' htag _ _ _ ih =>
      obtain ⟨pieces, hpieces, rfl⟩ := Input.map_eq_ok.1 h
      obtain ⟨hinput, hfront⟩ := ih hpieces
      refine ⟨?_, hfront⟩
      rw [Input.spelling_of_readTag htag, hinput, ← List.append_assoc, ← Input.ofText_append]
      rfl
  | case9 c input _ _ _ ih =>
      obtain ⟨pieces, hpieces, rfl⟩ := Input.map_eq_ok.1 h
      obtain ⟨hinput, hfront⟩ := ih hpieces
      exact ⟨by rw [hinput]; rfl, hfront⟩

/-- A reading is taken as it is spelled, up to what ends it. -/
lemma spelling_of_read (h : read tags input = .ok reading rest) :
    input = .ofText reading.form ++ rest ∧ rest.AtFront (endsReading · = true) := by
  obtain ⟨pieces, hpieces, rfl⟩ := Input.map_eq_ok.1 h
  exact spelling_of_readPieces hpieces

lemma broken_of_readPieces {fault : BrokenSequence}
    (h : readPieces tags input = .error fault rest) : input.Broken := by
  fun_induction readPieces tags input with
  | case1 => cases h
  | case2 n input => exact Input.broken_cons n input
  | case3 => cases h
  | case4 => cases h
  | case5 n input => exact (Input.broken_cons n input).cons _
  | case6 d input _ ih => exact ((ih (Input.map_eq_error h)).cons _).cons _
  | case7 input fault' rest' htag => exact (Input.broken_of_readTag htag).cons _
  | case8 input tag rest' htag _ _ _ ih =>
      rw [Input.spelling_of_readTag htag]
      exact (ih (Input.map_eq_error h)).append_left
  | case9 c input _ _ _ ih => exact (ih (Input.map_eq_error h)).cons _

/-- Reading a reading fails only in an input with a broken sequence. -/
lemma broken_of_read {fault : BrokenSequence} (h : read tags input = .error fault rest) :
    input.Broken :=
  broken_of_readPieces (Input.map_eq_error h)

end Reading

namespace LexicalUnit

variable {tags : TagNumbers} {input rest : Input} {unit : LexicalUnit} {targets : List Reading}

/-- Target readings as text, each behind a separator. -/
def targetsSpelling (targets : List Reading) : Text :=
  targets.flatMap fun target => Input.readingSeparator :: target.form

/-- The text of a unit: its blank, and then its source reading and all of its targets.  The end of a
stream or segment has a blank only. -/
def spelling (closed : Bool) (unit : LexicalUnit) : Text :=
  match unit.source with
  | none => unit.blank
  | some source => unit.blank ++ [Input.unitOpen] ++ source.form ++ targetsSpelling unit.targets
      ++ if closed then [Input.unitClose] else []

/-- The end of a segment is spelled by its blank. -/
lemma spelling_of_isEnd (h : unit.isEnd = true) (closed : Bool) :
    unit.spelling closed = unit.blank := by
  rw [spelling, Option.isNone_iff_eq_none.1 h]

/-- The character ends a unit: it closes it or separates it from the next segment. -/
def EndsUnit (c : Char) : Prop := c = Input.segmentSeparator ∨ c = Input.unitClose

/-- What ends a reading ends the unit too, unless another reading follows. -/
lemma endsUnit_of_endsReading {c : Char} (h : Reading.endsReading c = true)
    (hne : c ≠ Input.readingSeparator) : EndsUnit c := by
  simp only [Reading.endsReading, Bool.or_eq_true, decide_eq_true_eq] at h
  exact h.elim (fun h => h.elim Or.inl fun h => absurd h hne) Or.inr

/-- Targets are taken as they are spelled, each behind its separator, up to the end of the unit. -/
lemma spelling_of_readTargets (h : readTargets tags input = .ok targets rest)
    (hfront : input.AtFront (Reading.endsReading · = true)) :
    input = .ofText (targetsSpelling targets) ++ rest ∧ rest.AtFront EndsUnit := by
  fun_induction readTargets tags input generalizing targets with
  | case1 => cases h
  | case2 input target rest' htarget _ ih =>
      obtain ⟨targets, htargets, rfl⟩ := Input.map_eq_ok.1 h
      obtain ⟨hinput, hfront'⟩ := Reading.spelling_of_read htarget
      obtain ⟨hrest, hfront''⟩ := ih htargets hfront'
      refine ⟨?_, hfront''⟩
      rw [hinput, hrest, ← List.append_assoc, ← Input.ofText_append]
      rfl
  | case3 c input hc =>
      cases h
      refine ⟨rfl, Or.inr ⟨c, input, rfl, ?_⟩⟩
      obtain h | ⟨d, rest, heq, hd⟩ := hfront
      · cases h
      · obtain ⟨rfl, rfl⟩ : c = d ∧ input = rest := by simpa using heq
        exact endsUnit_of_endsReading hd hc
  | case4 => cases h
  | case5 => cases h; exact ⟨rfl, Or.inl rfl⟩

/-- A unit is closed, or ends with the input or before a separator. -/
lemma spelling_of_readClose (h : readClose input = .ok () rest) (hfront : input.AtFront EndsUnit) :
    ∃ closed, input = .ofText (if closed then [Input.unitClose] else []) ++ rest ∧
      (closed = false → rest.AtFront (· = Input.segmentSeparator)) := by
  obtain rfl | ⟨c, behind, rfl, hc⟩ := hfront
  · cases h
    exact ⟨false, rfl, fun _ => Or.inl rfl⟩
  · simp only [readClose] at h
    split at h
    · rename_i hclose
      cases h
      exact ⟨true, by simp [hclose, Input.ofText], by simp⟩
    · rename_i hopen
      cases h
      exact ⟨false, rfl, fun _ => Or.inr ⟨c, behind, rfl, hc.resolve_right hopen⟩⟩

/-- Source and targets are taken as they are spelled, with what closes the unit. -/
lemma spelling_of_readReadings {source : Reading}
    (h : readReadings tags input = .ok (source, targets) rest) :
    ∃ closed, input = .ofText (source.form ++ targetsSpelling targets
        ++ if closed then [Input.unitClose] else []) ++ rest ∧
      (closed = false → rest.AtFront (· = Input.segmentSeparator)) := by
  simp only [readReadings, bind, EStateM.bind] at h
  split at h
  · rename_i source' rest₁ hsource
    split at h
    · rename_i targets' rest₂ htargets
      split at h
      · rename_i rest₃ hclose
        cases h
        obtain ⟨hinput, hfront⟩ := Reading.spelling_of_read hsource
        obtain ⟨hrest₁, hfront⟩ := spelling_of_readTargets htargets hfront
        obtain ⟨closed, hrest₂, hclosed⟩ := spelling_of_readClose hclose hfront
        refine ⟨closed, ?_, hclosed⟩
        rw [hinput, hrest₁, hrest₂]
        simp only [Input.ofText_append, List.append_assoc]
      · cases h
    · cases h
  · cases h

/-- **What reading a unit takes is the spelling of the unit.**  Behind the end of a stream or
segment, and behind a unit that is not closed, there is a separator or nothing. -/
lemma spelling_of_read (h : read tags input = .ok unit rest) :
    ∃ closed, input = .ofText (unit.spelling closed) ++ rest ∧
      (unit.isEnd = true ∨ closed = false → rest.AtFront (· = Input.segmentSeparator)) := by
  unfold read at h
  split at h
  · cases h
  · rename_i blank hblank
    cases h
    exact ⟨true, (Input.spelling_of_readBlank hblank).1, fun _ => Or.inl rfl⟩
  · cases h
  · rename_i blank c behind hblank
    obtain ⟨hinput, hfront⟩ := Input.spelling_of_readBlank hblank
    split at h
    · rename_i hopen
      obtain ⟨⟨source, targets⟩, hreadings, rfl⟩ := Input.map_eq_ok.1 h
      obtain ⟨closed, hbehind, hclosed⟩ := spelling_of_readReadings hreadings
      refine ⟨closed, ?_, fun hend => hclosed (hend.resolve_left (by simp [isEnd]))⟩
      rw [hinput, hbehind, hopen]
      simp [spelling, Input.ofText, List.append_assoc]
    · rename_i hopen
      cases h
      refine ⟨true, hinput, fun _ => Or.inr ⟨c, behind, rfl, ?_⟩⟩
      obtain hnil | ⟨d, rest, heq, hd⟩ := hfront
      · cases hnil
      · obtain ⟨rfl, rfl⟩ : c = d ∧ behind = rest := by simpa using heq
        exact hd.resolve_left hopen

/-- The end of a stream or segment has no targets. -/
lemma targets_of_read (h : read tags input = .ok unit rest) (hend : unit.isEnd = true) :
    unit.targets = [] := by
  unfold read at h
  split at h
  · cases h
  · cases h; rfl
  · cases h
  · split at h
    · obtain ⟨⟨source, targets⟩, -, rfl⟩ := Input.map_eq_ok.1 h
      simp [isEnd] at hend
    · cases h; rfl

/-! ## Texts -/

lemma broken_of_readTargets {fault : BrokenSequence}
    (h : readTargets tags input = .error fault rest) : input.Broken := by
  fun_induction readTargets tags input with
  | case1 input fault' rest' hr => exact (Reading.broken_of_read hr).cons _
  | case2 input target rest' htarget _ ih =>
      rw [(Reading.spelling_of_read htarget).1]
      exact ((ih (Input.map_eq_error h)).append_left).cons _
  | case3 => cases h
  | case4 n input => exact Input.broken_cons n input
  | case5 => cases h

lemma broken_of_readClose {fault : BrokenSequence} (h : readClose input = .error fault rest) :
    input.Broken := by
  unfold readClose at h
  split at h
  · cases h
  · rename_i n behind
    exact Input.broken_cons n behind
  · split at h <;> cases h

lemma broken_of_readReadings {fault : BrokenSequence}
    (h : readReadings tags input = .error fault rest) : input.Broken := by
  simp only [readReadings, bind, EStateM.bind] at h
  split at h
  · rename_i source rest₁ hsource
    obtain ⟨hinput, hfront⟩ := Reading.spelling_of_read hsource
    rw [hinput]
    split at h
    · rename_i targets rest₂ htargets
      rw [(spelling_of_readTargets htargets hfront).1]
      split at h
      · cases h
      · rename_i hclose
        exact (broken_of_readClose hclose).append_left.append_left
    · rename_i htargets
      exact (broken_of_readTargets htargets).append_left
  · rename_i fault' rest₁ hsource
    exact Reading.broken_of_read hsource

/-- So reading a unit fails only in an input with a broken sequence. -/
lemma broken_of_read {fault : BrokenSequence} (h : read tags input = .error fault rest) :
    input.Broken := by
  unfold read at h
  split at h
  · rename_i hblank
    exact Input.broken_of_readBlank hblank
  · cases h
  · rename_i blank n behind hblank
    rw [(Input.spelling_of_readBlank hblank).1]
    exact (Input.broken_cons n behind).append_left
  · rename_i blank c behind hblank
    rw [(Input.spelling_of_readBlank hblank).1]
    split at h
    · exact ((broken_of_readReadings (Input.map_eq_error h)).cons _).append_left
    · cases h

/-- **A unit can be read from every text**, and what it leaves of the text is behind its spelling.
-/
lemma exists_read_ofText (tags : TagNumbers) (text : Text) :
    ∃ unit closed behind, read tags (.ofText text) = .ok unit (.ofText behind) ∧
      text = unit.spelling closed ++ behind ∧
      (unit.isEnd = true ∨ closed = false →
        behind = [] ∨ ∃ more, behind = Input.segmentSeparator :: more) := by
  cases h : read tags (.ofText text) with
  | error fault rest => exact absurd (broken_of_read h) (Input.not_broken_ofText text)
  | ok unit rest =>
      obtain ⟨closed, hinput, hfront⟩ := spelling_of_read h
      obtain ⟨spelled, behind, rfl, hspelled, hrest⟩ := List.map_eq_append_iff.1 hinput
      obtain rfl := List.map_injective_iff.2 (fun _ _ h => by simpa using h) hspelled
      subst hrest
      refine ⟨unit, closed, behind, rfl, rfl, fun hend => ?_⟩
      obtain hnil | ⟨c, more, hcons, rfl⟩ := hfront hend
      · exact Or.inl (List.map_eq_nil_iff.1 hnil)
      · obtain ⟨d, more, rfl, hd, -⟩ := List.map_eq_cons_iff.1 hcons
        obtain rfl : d = Input.segmentSeparator := by simpa using hd
        exact Or.inr ⟨more, rfl⟩

end LexicalUnit

end LexicalSelection
