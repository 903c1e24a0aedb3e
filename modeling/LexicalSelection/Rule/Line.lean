import LexicalSelection.Number.Decimal
import LexicalSelection.Rule.Token
import LexicalSelection.Text.Quoted

/-!
# Rule lines

A rule file has one rule on a line.  The first character that is not white space names a command,
the tokens behind it are its arguments, and a line with another first character carries no rule.

* `Rule` — what a line can say.
* `Rule.ofLine` — the rule of a line, if it carries one, or the reason why it is refused.
* `RuleError.message` — the reasons in words.
-/

namespace LexicalSelection

/-- A position and the name of a feature, as a rule gives them. -/
structure NamedLocation where
  /-- The position relative to the unit that is being decided. -/
  position : Int
  /-- The name of the feature. -/
  name : Text
  deriving DecidableEq, Repr

/-- What a rule line can say. -/
inductive Rule where
  /-- How many hypotheses are kept for each unit; 0 keeps all. -/
  | beam (size : Nat)
  /-- How many units before the current one are looked at. -/
  | lookbehind (size : Nat)
  /-- How many units behind the current one are looked at. -/
  | lookahead (size : Nat)
  /-- A feature, and patterns for it. -/
  | pattern (name : Text) (patterns : List Text)
  /-- The weight of one location, or of two together. -/
  | weight (first : NamedLocation) (second : Option NamedLocation) (weight : Binary64)
  deriving DecidableEq, Repr

/-- The reasons why a rule line is refused. -/
inductive RuleError where
  /-- A command has too few or too many arguments. -/
  | arity (command : Char) (expected : String) (found : Nat)
  /-- An argument is no count. -/
  | badCount (token : Text)
  /-- An argument is no weight. -/
  | badWeight (token : Text)
  /-- An argument is no location. -/
  | badLocation (token : Text)
  /-- No feature has the name. -/
  | unknownFeature (name : Text)
  /-- A position is outside of the window. -/
  | outsideWindow (position : Int) (lookbehind lookahead : Nat)
  deriving DecidableEq, Repr

/-- A text between quotes, in a message. -/
def inQuotes (text : Text) : String := String.ofList text.quoted

/-- The message for a refused line. -/
def RuleError.message : RuleError → String
  | arity command expected found =>
    s!"\x60{command}\x60 expects {expected} arguments, found {found}"
  | badCount token => s!"invalid count {inQuotes token}"
  | badWeight token => s!"invalid weight {inQuotes token}"
  | badLocation token => s!"invalid feature location {inQuotes token}"
  | unknownFeature name => s!"unknown feature {inQuotes name}"
  | outsideWindow position lookbehind lookahead =>
    s!"position {position} outside the window -{lookbehind}..={lookahead}"

namespace Rule

/-! ## Arguments -/

/-- A natural number in decimal digits, if it is below a bound. -/
def natBelow? (bound : Nat) (digits : Text) : Option Nat :=
  if digits ≠ [] ∧ digits.all Char.isDigit ∧ Decimal.digitsValue digits < bound then
    some (Decimal.digitsValue digits)
  else none

/-- The count that a token gives: digits, with an optional plus sign. -/
def count? (token : Text) : Option Nat :=
  match token with
  | '+' :: digits => natBelow? 0x10000000000000000 digits
  | digits => natBelow? 0x10000000000000000 digits

/-- The position that a text gives: digits, with an optional minus sign. -/
def position? (text : Text) : Option Int :=
  match text with
  | '-' :: digits => (natBelow? 0x80000001 digits).map fun n => -n
  | digits => (natBelow? 0x80000000 digits).map Nat.cast

/-- The location that a token gives: a position, a colon and a name. -/
def location? (token : Text) : Option NamedLocation :=
  match token.dropWhile (· ≠ ':') with
  | ':' :: name =>
    if name = [] then none else (position? (token.takeWhile (· ≠ ':'))).map (⟨·, name⟩)
  | _ => none

/-- The count that a token gives, or the reason why it gives none. -/
def readCount (token : Text) : Except RuleError Nat :=
  match count? token with
  | some n => .ok n
  | none => .error (.badCount token)

/-- The location that a token gives, or the reason why it gives none. -/
def readLocation (token : Text) : Except RuleError NamedLocation :=
  match location? token with
  | some loc => .ok loc
  | none => .error (.badLocation token)

/-- The weight that a token gives, or the reason why it gives none. -/
def readWeight (token : Text) : Except RuleError Binary64 :=
  match Binary64.ofText? token with
  | some x => .ok x
  | none => .error (.badWeight token)

/-! ## Commands -/

/-- The only argument of a command that takes a count. -/
def readOneCount (command : Char) (arguments : List Text) : Except RuleError Nat :=
  match arguments with
  | [token] => readCount token
  | _ => .error (.arity command "1" arguments.length)

/-- The rule of the command with this character and these arguments. -/
def readCommand (command : Char) (arguments : List Text) : Except RuleError (Option Rule) :=
  if command = 'B' then do return some (.beam (← readOneCount command arguments))
  else if command = 'L' then do return some (.lookbehind (← readOneCount command arguments))
  else if command = 'R' then do return some (.lookahead (← readOneCount command arguments))
  else if command = 'P' then
    match arguments with
    | name :: patterns => .ok (some (.pattern name patterns))
    | [] => .error (.arity command "at least 1" 0)
  else if command = 'W' then
    match arguments with
    | [a, w] => do return some (.weight (← readLocation a) none (← readWeight w))
    | [a, b, w] => do
        return some (.weight (← readLocation a) (some (← readLocation b)) (← readWeight w))
    | _ => .error (.arity command "2 or 3" arguments.length)
  else .ok none

end Rule

/-- The rule that a line carries, if it carries one. -/
def Rule.ofLine (line : Text) : Except RuleError (Option Rule) :=
  match line.trimStart with
  | [] => .ok none
  | command :: rest => Rule.readCommand command (Rule.tokens rest)

end LexicalSelection
