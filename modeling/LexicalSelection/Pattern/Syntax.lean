import LexicalSelection.Text.Basic

/-!
# Patterns

A pattern describes readings of one side of a unit, or of both: characters and tags in a row, with
wildcards among them that stand for any number of characters or of tags.

* `Pattern` — a side and a row of atoms.
* `Pattern.ofText` — the pattern that a text gives.  Every text gives one.
-/

namespace LexicalSelection

/-- The two sides of a unit. -/
inductive Side where
  /-- The reading to be translated. -/
  | source
  /-- The readings to choose from. -/
  | target
  deriving DecidableEq, Repr

/-- A part of a pattern. -/
inductive Atom where
  /-- A character. -/
  | char (c : Char)
  /-- A tag, spelled with its brackets. -/
  | tag (text : Text)
  /-- Any number of characters. -/
  | anyChars
  /-- Any number of tags. -/
  | anyTags
  deriving DecidableEq, Repr

/-- A description of readings. -/
structure Pattern where
  /-- The side that the readings must be of, unless it does not matter. -/
  side : Option Side
  /-- The parts of the description. -/
  atoms : List Atom
  deriving DecidableEq, Repr

namespace Pattern

/-- The text before the first closing bracket, and the text behind it, if there is one. -/
def splitTag? : Text → Option (Text × Text)
  | [] => none
  | c :: rest =>
    if c = '>' then some ([], rest)
    else (splitTag? rest).map fun (body, behind) => (c :: body, behind)

/-- The text behind a tag is shorter. -/
theorem length_splitTag {text body behind : Text} (h : splitTag? text = some (body, behind)) :
    behind.length < text.length := by
  induction text generalizing body with
  | nil => simp [splitTag?] at h
  | cons c rest ih =>
    simp only [splitTag?] at h
    split at h
    · simp only [Option.some.injEq, Prod.mk.injEq] at h
      simp [← h.2]
    · obtain ⟨⟨body', behind'⟩, h', heq⟩ := Option.map_eq_some_iff.1 h
      simp only [Prod.mk.injEq] at heq
      have := ih (heq.2 ▸ h')
      simp only [List.length_cons]; omega

/-- The atom for a tag with this text between its brackets. -/
def tagAtom (body : Text) : Atom :=
  if body = ['*'] then .anyTags else .tag ('<' :: body ++ ['>'])

/-- The atoms that a text gives.  A backslash takes its meaning from the character behind it, and
gives nothing at the end of the text; a bracket that is not closed is a character. -/
def atomsOf : Text → List Atom
  | [] => []
  | ['\\'] => []
  | '\\' :: c :: rest => .char c :: atomsOf rest
  | c :: rest =>
    if c = '*' then .anyChars :: atomsOf rest
    else if c = '<' then
      match h : splitTag? rest with
      | some (body, behind) =>
        have := length_splitTag h
        tagAtom body :: atomsOf behind
      | none => .char '<' :: atomsOf rest
    else .char c :: atomsOf rest
termination_by text => text.length
decreasing_by all_goals simp only [List.length_cons]; omega

/-- The pattern that a text gives: `sl/` or `tl/` in front names the side. -/
def ofText : Text → Pattern
  | 's' :: 'l' :: '/' :: body => ⟨some .source, atomsOf body⟩
  | 't' :: 'l' :: '/' :: body => ⟨some .target, atomsOf body⟩
  | body => ⟨none, atomsOf body⟩

end Pattern

end LexicalSelection
