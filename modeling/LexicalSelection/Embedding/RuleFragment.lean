import LexicalSelection.Embedding.SkipGram
import LexicalSelection.Number.Decimal
import LexicalSelection.Text.White

/-!
# Vocabularies as rules

A trained vocabulary is written as lines of a rule file.  Each word is a feature whose only pattern
is the form of the word, so that rules can refer to it.  The lines with vectors carry no rule.

* `literalPattern` — a form as a pattern that matches it.
* `Vocabulary.rulesText` — the lines for a vocabulary and its vectors.
-/

namespace LexicalSelection.Embedding

/-- A form as a pattern without wildcards that is one word of a rule.  What is escaped in the form
stays so, and a bare `*` and white space get an escape. -/
def literalPattern : Text → Text
  | [] => []
  | ['\\'] => ['\\']
  | '\\' :: c :: rest => '\\' :: c :: literalPattern rest
  | c :: rest =>
    if c = '*' ∨ Text.isWhite c then '\\' :: c :: literalPattern rest
    else c :: literalPattern rest

/-- The components of a vector to six decimal places, each behind a blank. -/
def componentsText (vector : Components) : Text :=
  vector.flatMap fun x => ' ' :: (Binary64.ofFloat x).fixedText 6

/-- The name of the feature for a word. -/
def featureName (id : Nat) : Text := 'F' :: Text.ofNat id

/-- A line with a vector. -/
def vectorLine (name : Text) (vector : Components) : Text :=
  'V' :: ' ' :: name ++ componentsText vector ++ ['\n']

/-- The lines for a word: its pattern and its vector. -/
def wordLines (id : Nat) (form : Text) (vector : Components) : Text :=
  'P' :: ' ' :: featureName id ++ ' ' :: literalPattern form ++ ['\n']
    ++ vectorLine (featureName id) vector

/-- The lines for a vocabulary with a vector for each number. -/
def Vocabulary.rulesText (vectorOf : Nat → Components) (vocabulary : Vocabulary) : Text :=
  vectorLine ['U', 'N', 'K'] (vectorOf 0)
    ++ (vocabulary.words.zipIdx 1).flatMap fun (word, id) => wordLines id word.form (vectorOf id)

end LexicalSelection.Embedding
