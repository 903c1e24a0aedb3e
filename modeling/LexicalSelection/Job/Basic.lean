import LexicalSelection.Embedding.RuleFragment
import LexicalSelection.Job.Files
import LexicalSelection.Model.Binary
import LexicalSelection.Model.Rules
import LexicalSelection.Selector.Stream
import LexicalSelection.Training.Perceptron

/-!
# Jobs

A job is what one run of the program does with its files.

* `Job` — the four kinds of job.
* `Job.run` — a job done with the files at hand.
* `JobError` — the reasons why a job fails, with its message.
-/

namespace LexicalSelection

/-- What one run of the program does. -/
inductive Job where
  /-- Makes a weights file of a rule file. -/
  | compile (rules output : Place)
  /-- Selects one target for each unit of a stream, by a weights file. -/
  | select (flushing : Bool) (weights : Text) (input output : Place)
  /-- Trains the weights of a rule file in some passes over a corpus. -/
  | train (passes : Nat) (raw gold rules output : Place)
  /-- Trains word vectors on a stream. -/
  | embed (settings : Embedding.Settings) (input output : Place)

/-- What a job reads. -/
inductive JobInput where
  /-- The weights file with a path. -/
  | weights (path : Text)
  /-- A rule file of which a weights file is made. -/
  | rules
  /-- A rule file with weights to be trained. -/
  | seed
  /-- A stream to select in, or one of a corpus. -/
  | stream
  /-- A stream to train word vectors on. -/
  | text
  deriving DecidableEq, Repr

/-- What fails when an input cannot be read, in words.  A stream is not named. -/
def JobInput.failure? : JobInput → Option String
  | weights path => some s!"cannot load {String.ofList path}"
  | rules => some "cannot read rule file"
  | seed => some "cannot read seed weights"
  | stream => none
  | text => some "cannot read corpus"

/-- The reasons why a job fails. -/
inductive JobError where
  /-- A file cannot be opened. -/
  | unopened (place : Place) (fault : FileFault)
  /-- A file cannot be created. -/
  | uncreated (place : Place) (fault : FileFault)
  /-- An open file cannot be read. -/
  | unreadable (input : JobInput) (fault : FileFault)
  /-- A file gives no model. -/
  | noModel (input : JobInput) (error : ModelError)
  /-- A model gives no weights file. -/
  | uncompiled (error : ModelError)
  /-- Two streams give no corpus. -/
  | noCorpus (error : CorpusError)
  /-- A stream is broken. -/
  | broken (input : JobInput) (fault : BrokenSequence)
  deriving DecidableEq, Repr

namespace JobError

/-- A row of reasons, each one caused by the next. -/
def chain (reasons : List String) : String := ": ".intercalate reasons

/-- A reason for which there is no model, with its cause. -/
def modelReasons (error : ModelError) : List String := error.message :: error.cause?.toList

/-- The reason why a file cannot be read, with its cause. -/
def readReasons (fault : FileFault) : List String := [s!"I/O error: {fault.message}", fault.message]

/-- The message for a job that fails: the reason, and behind it what caused it. -/
def message : JobError → String
  | unopened place fault => chain [s!"cannot open {String.ofList place.text}", fault.message]
  | uncreated place fault => chain [s!"cannot create {String.ofList place.text}", fault.message]
  | unreadable input fault => chain (input.failure?.toList ++ readReasons fault)
  | noModel input error => chain (input.failure?.toList ++ modelReasons error)
  | uncompiled error => chain ("cannot write compiled weights" :: modelReasons error)
  | noCorpus error => error.message
  | broken input fault => chain (input.failure?.toList ++ [fault.message])

end JobError

namespace Job

variable {m : Type → Type} [Monad m] [FileAccess m]

/-! ## Steps -/

/-- Opens a place for reading. -/
def openToRead (place : Place) : ExceptT JobError m Contents := do
  match ← (FileAccess.openToRead place : m (Except FileFault Contents)) with
  | .ok contents => return contents
  | .error fault => throw (.unopened place fault)

/-- Makes a place empty. -/
def createEmpty (place : Place) : ExceptT JobError m Unit := do
  match ← (FileAccess.create place : m (Except FileFault Unit)) with
  | .ok _ => return
  | .error fault => throw (.uncreated place fault)

/-- Puts bytes behind those of a place. -/
def append (place : Place) (bytes : Bytes) : ExceptT JobError m Unit :=
  ExceptT.lift (FileAccess.append place bytes)

/-- What a step has come to, or the job's reason to fail. -/
def orFail {ε α : Type} (reason : ε → JobError) : Except ε α → ExceptT JobError m α
  | .ok value => return value
  | .error error => throw (reason error)

/-- All bytes of an input. -/
def readBytes (input : JobInput) (place : Place) : ExceptT JobError m Bytes := do
  orFail (.unreadable input) (← openToRead place)

/-! ## The kinds of job -/

/-- Makes a weights file of a rule file.  The output keeps what has been written when a part of it
cannot be written. -/
def runCompile (rules output : Place) : ExceptT JobError m Unit := do
  let model ← orFail (.noModel .rules) (Model.ofRuleBytes (← readBytes .rules rules))
  createEmpty output
  let (bytes, failure) := model.emit
  append output bytes
  match failure with
  | none => return
  | some error => throw (.uncompiled error)

/-- Selects in a stream.  The output is made before the input is opened, and keeps what has been
written when the input turns out to be broken. -/
def runSelect (flushing : Bool) (weights : Text) (input output : Place) :
    ExceptT JobError m Unit := do
  let stored ← readBytes (.weights weights) (.file weights)
  let (model, _) ← orFail (.noModel (.weights weights)) (Model.load.run stored)
  createEmpty output
  let outcome := Window.initial.process model flushing (← readBytes .stream input)
  append output (Event.written outcome.events).utf8
  match outcome.fault with
  | none => return
  | some fault => throw (.broken .stream fault)

/-- The bytes of a gold stream.  They are needed when the first unit of the raw stream has been
read, so it counts first if that unit is broken. -/
def goldBytes {α : Type} (model : Model α) (raw : Bytes) (gold : Contents) :
    Except JobError Bytes :=
  match gold with
  | .ok bytes => .ok bytes
  | .error fault =>
    match model.readUnit (Input.ofBytes raw) with
    | .ok .. => .error (.unreadable .stream fault)
    | .error broken _ => .error (.noCorpus (.broken broken))

/-- Trains the weights of a rule file. -/
def runTrain (passes : Nat) (raw gold rules output : Place) :
    ExceptT JobError m Perceptron.Summary := do
  let model ← orFail (.noModel .seed) (Model.ofRuleBytes (← readBytes .seed rules))
  let rawContents ← openToRead raw
  let goldContents ← openToRead gold
  let rawBytes ← orFail (.unreadable .stream) rawContents
  let goldBytes ← orFail id (goldBytes model rawBytes goldContents)
  let corpus ← orFail .noCorpus (Corpus.load model rawBytes goldBytes)
  let (summary, model) := Perceptron.train corpus passes model
  createEmpty output
  append output model.rulesText.utf8
  return summary

/-- Trains word vectors. -/
def runEmbed (settings : Embedding.Settings) (input output : Place) :
    ExceptT JobError m Unit := do
  match Embedding.NumberedCorpus.read settings.minCount (← readBytes .text input) with
  | (_, some fault) => throw (.broken .text fault)
  | (corpus, none) =>
    let generator := Embedding.Generator.ofSeed (UInt64.ofNat settings.seed)
    let (layers, _) := (settings.train corpus).run generator
    createEmpty output
    append output (corpus.vocabulary.rulesText layers.vector).utf8

/-- Does a job with the files at hand.  A training has a summary. -/
def run : Job → ExceptT JobError m (Option Perceptron.Summary)
  | compile rules output => do runCompile rules output; return none
  | select flushing weights input output => do
    runSelect flushing weights input output; return none
  | train passes raw gold rules output => some <$> runTrain passes raw gold rules output
  | embed settings input output => do runEmbed settings input output; return none

end Job

end LexicalSelection
