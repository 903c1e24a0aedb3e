import LexicalSelection.Job.Basic

/-!
# Words of a command line

The first word of a command line names a kind of job, and the words behind it are options and
places.  A place that is left out is the standard input or output.

* `OptionForm`, `Arguments.ofWords` — options and other words told apart.
* `Job.ofWords` — the job that a command line asks for.
-/

namespace LexicalSelection

/-- An option of a command line. -/
structure OptionForm where
  /-- Its letter, behind one hyphen. -/
  letter : Char
  /-- Its name, behind two hyphens. -/
  name : String
  /-- Does a value follow? -/
  valued : Bool := true
  deriving DecidableEq, Repr

/-- The reasons why a command line asks for no job. -/
inductive UsageError where
  /-- The first word names no kind of job. -/
  | unknownJob
  /-- There is no such option. -/
  | unknownOption (word : Text)
  /-- The value of an option is missing. -/
  | valueMissing (name : String)
  /-- An option cannot have this value. -/
  | valueRefused (name : String) (value : Text)
  /-- Too few or too many places are named. -/
  | wrongCount
  deriving DecidableEq, Repr

/-- The message for a command line that asks for no job. -/
def UsageError.message : UsageError → String
  | unknownJob => "expected one of: compile, select, train, embed"
  | unknownOption word => s!"unexpected option {String.ofList word}"
  | valueMissing name => s!"a value is required for --{name}"
  | valueRefused name value => s!"invalid value {String.ofList value.quoted} for --{name}"
  | wrongCount => "wrong number of arguments"

/-- The words of a command line, sorted. -/
structure Arguments where
  /-- The options with their values. -/
  options : List (OptionForm × Text) := []
  /-- The other words. -/
  words : List Text := []
  deriving DecidableEq, Repr

namespace Arguments

/-! ## Sorting words -/

/-- The option in a word that begins with a hyphen, and the value in the same word; no other word
has an option in it. -/
def optionIn? (forms : List OptionForm) (word : Text) :
    Option (Except UsageError (OptionForm × Option Text)) :=
  match word with
  | '-' :: '-' :: body =>
    let name := body.takeWhile (· ≠ '=')
    let value := if name.length < body.length then some (body.drop (name.length + 1)) else none
    match forms.find? (·.name.toList = name) with
    | some form => some (.ok (form, value))
    | none => some (.error (.unknownOption word))
  | '-' :: letter :: body =>
    match forms.find? (·.letter = letter) with
    | some form => some (.ok (form, if body = [] then none else some body))
    | none => some (.error (.unknownOption word))
  | _ => none

/-- The arguments with an option in front. -/
def withOption (form : OptionForm) (value : Text) (arguments : Arguments) : Arguments :=
  { arguments with options := (form, value) :: arguments.options }

/-- The options and the other words of a command line.  Two hyphens alone end the options. -/
def ofWords (forms : List OptionForm) : List Text → Except UsageError Arguments
  | [] => .ok {}
  | word :: rest =>
    if word = ['-', '-'] then .ok { words := rest }
    else
      match optionIn? forms word with
      | none => do
        let arguments ← ofWords forms rest
        return { arguments with words := word :: arguments.words }
      | some (.error error) => .error error
      | some (.ok (form, value)) =>
        match form.valued, value, rest with
        | true, some value, rest => return (← ofWords forms rest).withOption form value
        | true, none, value :: rest => return (← ofWords forms rest).withOption form value
        | true, none, [] => .error (.valueMissing form.name)
        | false, none, rest => return (← ofWords forms rest).withOption form []
        | false, some value, _ => .error (.valueRefused form.name value)

/-! ## Values -/

/-- Is an option given? -/
def has (letter : Char) (arguments : Arguments) : Bool :=
  arguments.options.any (·.1.letter = letter)

/-- What the value of an option means, or what counts when the option is not given. -/
def valueOr {α : Type} (letter : Char) (meaning : Text → Option α) (default : α)
    (arguments : Arguments) : Except UsageError α :=
  match arguments.options.find? (·.1.letter = letter) with
  | none => .ok default
  | some (form, value) =>
    match meaning value with
    | some meant => .ok meant
    | none => .error (.valueRefused form.name value)

/-- The input and output at the end of a command line, after `before` other words. -/
def inputAndOutput (before : Nat) (arguments : Arguments) : Except UsageError (Place × Place) :=
  match arguments.words.drop before with
  | [] => if arguments.words.length < before then .error .wrongCount
    else .ok (.standard, .standard)
  | [input] => .ok (.ofText input, .standard)
  | [input, output] => .ok (.ofText input, .ofText output)
  | _ => .error .wrongCount

end Arguments

namespace Job

/-! ## Jobs -/

/-- The option that every job takes: to tell more. -/
def verbose : OptionForm := { letter := 'v', name := "verbose", valued := false }

/-- The options of a selection. -/
def selectOptions : List OptionForm :=
  [verbose, { letter := 'z', name := "null-flush", valued := false }]

/-- The options of a training. -/
def trainOptions : List OptionForm := [verbose, { letter := 'i', name := "iterations" }]

/-- The options of a training of word vectors. -/
def embedOptions : List OptionForm :=
  [verbose, { letter := 'w', name := "window" }, { letter := 'm', name := "min-count" },
    { letter := 'a', name := "learning-rate" }, { letter := 'd', name := "dimension" },
    { letter := 'n', name := "negative" }, { letter := 'i', name := "iterations" },
    { letter := 's', name := "seed" }]

/-- A compilation with these arguments. -/
def compileOf (words : List Text) : Except UsageError Job := do
  let (rules, output) ← (← Arguments.ofWords [verbose] words).inputAndOutput 0
  return .compile rules output

/-- A selection with these arguments. -/
def selectOf (words : List Text) : Except UsageError Job := do
  let arguments ← Arguments.ofWords selectOptions words
  let (input, output) ← arguments.inputAndOutput 1
  return .select (arguments.has 'z') (arguments.words.headD []) input output

/-- A training with these arguments. -/
def trainOf (words : List Text) : Except UsageError Job := do
  let arguments ← Arguments.ofWords trainOptions words
  let passes ← arguments.valueOr 'i' Rule.count? 5
  let (rules, output) ← arguments.inputAndOutput 2
  match arguments.words with
  | raw :: gold :: _ => return .train passes (.ofText raw) (.ofText gold) rules output
  | _ => throw .wrongCount

/-- A training of word vectors with these arguments. -/
def embedOf (words : List Text) : Except UsageError Job := do
  let arguments ← Arguments.ofWords embedOptions words
  let standard : Embedding.Settings := {}
  let rate := fun text => (Binary64.ofText? text).map Binary64.toFloat
  let settings : Embedding.Settings := {
    window := ← arguments.valueOr 'w' Rule.count? standard.window
    minCount := ← arguments.valueOr 'm' Rule.count? standard.minCount
    learningRate := ← arguments.valueOr 'a' rate standard.learningRate
    dimension := ← arguments.valueOr 'd' Rule.count? standard.dimension
    negativeSamples := ← arguments.valueOr 'n' Rule.count? standard.negativeSamples
    iterations := ← arguments.valueOr 'i' Rule.count? standard.iterations
    seed := ← arguments.valueOr 's' Rule.count? standard.seed }
  let (input, output) ← arguments.inputAndOutput 0
  return .embed settings input output

/-- The job that a command line asks for. -/
def ofWords : List Text → Except UsageError Job
  | kind :: words =>
    match String.ofList kind with
    | "compile" => compileOf words
    | "select" => selectOf words
    | "train" => trainOf words
    | "embed" => embedOf words
    | _ => .error .unknownJob
  | [] => .error .unknownJob

end Job

end LexicalSelection
