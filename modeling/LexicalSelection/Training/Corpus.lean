import LexicalSelection.Model.Basic
import LexicalSelection.Text.Quoted

/-!
# Training corpora

A corpus is a raw stream, in which units have several targets, beside a gold stream with the same
units, in which each has the right one.  A unit with a line break before it begins a sentence.

* `Example`, `Corpus` — units with the numbers of their right targets, sentence by sentence.
* `Corpus.load` — the corpus that two inputs give, or the place and nature of the first problem.
-/

namespace LexicalSelection

/-- A unit with its right target. -/
structure Example where
  /-- The unit with all of its targets. -/
  unit : LexicalUnit
  /-- The number of the right target. -/
  gold : Nat
  deriving DecidableEq, Repr

/-- Examples in the order of the text. -/
abbrev Sentence := List Example

/-- The sentences of a text. -/
abbrev Corpus := List Sentence

/-- What can be wrong with a pair of streams. -/
inductive CorpusProblem where
  /-- The gold stream has no unit left. -/
  | goldEndsEarly
  /-- The raw stream has no unit left. -/
  | rawEndsEarly
  /-- The line breaks before two units differ in number. -/
  | lineBreakMismatch
  /-- A raw unit has no target. -/
  | noTargets
  /-- A gold unit has not one target. -/
  | goldReadingCount (found : Nat)
  /-- A gold target is none of the raw ones. -/
  | goldNotInRaw (form : Text)
  deriving DecidableEq, Repr

/-- The message for a problem with a pair of streams. -/
def CorpusProblem.message : CorpusProblem → String
  | goldEndsEarly => "gold corpus ends before raw corpus"
  | rawEndsEarly => "raw corpus ends before gold corpus"
  | lineBreakMismatch => "raw and gold corpora have line breaks in different places"
  | noTargets => "raw unit has no target readings"
  | goldReadingCount found => s!"gold unit must have exactly 1 target reading, found {found}"
  | goldNotInRaw form =>
    s!"gold target {String.ofList form.quoted} is not among the raw targets"

/-- The reasons why two inputs give no corpus. -/
inductive CorpusError where
  /-- The streams do not fit; both counts start with 1, and units are counted in their sentence. -/
  | misfit (line unit : Nat) (problem : CorpusProblem)
  /-- One of the inputs is broken. -/
  | broken (fault : BrokenSequence)
  deriving DecidableEq, Repr

/-- The message for two inputs that give no corpus. -/
def CorpusError.message : CorpusError → String
  | misfit line unit problem => s!"line {line}, unit {unit}: {problem.message}"
  | broken fault => fault.message

namespace Corpus

/-- The example that a raw and a gold unit give.  The gold stream counts only where the raw unit has
several targets; the right one is the first with the form of the gold target. -/
def exampleOf (raw gold : LexicalUnit) : Except CorpusProblem Example :=
  if raw.targets = [] then .error .noTargets
  else if !raw.ambiguous then .ok ⟨raw, 0⟩
  else
    match gold.targets with
    | [target] =>
      match (raw.targets.map Reading.form).idxOf? target.form with
      | some index => .ok ⟨raw, index⟩
      | none => .error (.goldNotInRaw target.form)
    | targets => .error (.goldReadingCount targets.length)

/-- Puts an example in front of the first of some sentences, or in front of them all when a sentence
begins with it and the first of them has yet to end. -/
def consExample (startsSentence : Bool) (new : Example) :
    Sentence × List Sentence → Sentence × List Sentence
  | (sentence, rest) =>
    if startsSentence then ([], (new :: sentence) :: rest) else (new :: sentence, rest)

/-- What two inputs give when reading has come to this line and to this many units of a sentence:
the rest of the sentence, and the sentences behind it. -/
def loadFrom {α : Type} (model : Model α) (line count : Nat) (raw gold : Input) :
    Except CorpusError (Sentence × List Sentence) :=
  match hraw : model.readUnit raw with
  | .error fault _ => .error (.broken fault)
  | .ok rawUnit rawRest =>
    match model.readUnit gold with
    | .error fault _ => .error (.broken fault)
    | .ok goldUnit goldRest =>
      if hend : rawUnit.isEnd then
        if goldUnit.isEnd then .ok ([], []) else .error (.misfit line (count + 1) .rawEndsEarly)
      else if goldUnit.isEnd then .error (.misfit line (count + 1) .goldEndsEarly)
      else if rawUnit.newlines ≠ goldUnit.newlines then
        .error (.misfit line (count + 1) .lineBreakMismatch)
      else
        let startsSentence := 0 < rawUnit.newlines
        let line := line + rawUnit.newlines
        let count := if startsSentence then 0 else count
        match exampleOf rawUnit goldUnit with
        | .error problem => .error (.misfit line (count + 1) problem)
        | .ok new =>
          have : rawRest.length < raw.length := by
            have := Model.readUnit_length hraw
            rw [if_neg hend] at this
            exact this
          (loadFrom model line (count + 1) rawRest goldRest).map (consExample startsSentence new)
termination_by raw.length

/-- The corpus that two inputs give, up to the end of their first segment. -/
def load {α : Type} (model : Model α) (raw gold : Bytes) : Except CorpusError Corpus := do
  let (sentence, rest) ← loadFrom model 1 0 (Input.ofBytes raw) (Input.ofBytes gold)
  return sentence :: rest

end Corpus

end LexicalSelection
