import LexicalSelection.Text.White

/-!
# Tokens of a rule line

The tokens of a line stand between white space.  A backslash takes its meaning from the character
behind it: escaped white space belongs to a token, and the backslash stays in the token.

* `takeToken` — the token at the front of a text, and what stands behind it.
* `tokens` — all tokens of a text.
-/

namespace LexicalSelection.Rule

/-- The text up to the first white space that is not escaped, and the rest. -/
def takeToken : Text → Text × Text
  | [] => ([], [])
  | ['\\'] => (['\\'], [])
  | '\\' :: c :: rest =>
    let (token, rest) := takeToken rest
    ('\\' :: c :: token, rest)
  | c :: rest =>
    if Text.isWhite c then ([], c :: rest)
    else
      let (token, rest) := takeToken rest
      (c :: token, rest)

/-- Nothing is lost when a token is taken. -/
theorem takeToken_append (text : Text) : (takeToken text).1 ++ (takeToken text).2 = text := by
  fun_induction takeToken text <;> simp_all

/-- A text that begins with other than white space has a token at its front. -/
theorem takeToken_ne_nil {c : Char} (rest : Text) (h : Text.isWhite c = false) :
    (takeToken (c :: rest)).1 ≠ [] := by
  unfold takeToken
  split <;> simp_all

/-- Behind a token the text is shorter than before it. -/
theorem length_takeToken {c : Char} (rest : Text) (h : Text.isWhite c = false) :
    (takeToken (c :: rest)).2.length < rest.length + 1 := by
  have happ := congrArg List.length (takeToken_append (c :: rest))
  have hpos := List.length_pos_iff.2 (takeToken_ne_nil rest h)
  simp only [List.length_append, List.length_cons] at happ
  omega

/-- The tokens of a text. -/
def tokens : Text → List Text
  | [] => []
  | c :: rest =>
    if h : Text.isWhite c then tokens rest
    else
      have := length_takeToken rest (Bool.eq_false_iff.2 h)
      (takeToken (c :: rest)).1 :: tokens (takeToken (c :: rest)).2
termination_by text => text.length
decreasing_by all_goals simp only [List.length_cons]; omega

end LexicalSelection.Rule
