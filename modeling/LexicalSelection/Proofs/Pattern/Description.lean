import LexicalSelection.Pattern.Syntax
import LexicalSelection.Reading
import Mathlib.Data.List.Basic

/-!
# What a pattern describes

The meaning of patterns, said without any automaton and without an alphabet: how the text of a
pattern is to be read, and which rows of characters and tags it describes.

* `Token`, `Reading.tokens` — a reading as characters and tags, each tag by its spelling.
* `Pattern.Prefixed`, `Pattern.Spelling` — the grammar of pattern texts.
* `Pattern.Describes` — the rows of tokens that a row of atoms describes.  Wildcards that stand side
  by side describe one stretch, in which they may take turns.
* `Pattern.Matches` — a pattern text, a side and a row of tokens that match.
* **`spelling_iff`** — the grammar has one result for each text, which is the one that `atomsOf`
  finds.
* **`describes_iff_fits`** — atoms may be compared with tokens from left to right, with the
  wildcards of the stretch so far kept aside.
-/

namespace LexicalSelection

/-- A character of a reading or a tag of it, known to an alphabet or not. -/
inductive Token where
  /-- A character, behind an escape or not. -/
  | char (c : Char)
  /-- A tag, spelled with its brackets. -/
  | tag (text : Text)
  deriving DecidableEq, Repr

/-- The token that a piece of a text stands for; a dangling escape stands for none. -/
def Piece.token? : Piece → Option Token
  | plain c => some (.char c)
  | escaped c => some (.char c)
  | danglingEscape => none
  | tag text _ => some (.tag text)

/-- The characters and tags of a reading. -/
def Reading.tokens (reading : Reading) : List Token := reading.pieces.filterMap Piece.token?

namespace Atom

/-- Does the atom stand for any number of tokens? -/
def isWildcard : Atom → Bool
  | anyChars => true
  | anyTags => true
  | _ => false

/-- Is the token of the class that a wildcard names? -/
def Covers : Atom → Token → Prop
  | anyChars, .char _ => True
  | anyTags, .tag _ => True
  | _, _ => False

/-- Does the atom stand for just this token? -/
def Names : Atom → Token → Prop
  | char c, .char d => c = d
  | tag text, .tag text' => text = text'
  | _, _ => False

end Atom

namespace Pattern

variable {text body : Text} {atoms loops : List Atom} {tokens covered : List Token}

/-! ## Texts of patterns -/

/-- A text with the side that it names in front, if it names one, and the text behind. -/
inductive Prefixed : Text → Option Side → Text → Prop
  | source (body : Text) : Prefixed ("sl/".toList ++ body) (some .source) body
  | target (body : Text) : Prefixed ("tl/".toList ++ body) (some .target) body
  | none {text : Text} (hsource : ¬ "sl/".toList <+: text) (htarget : ¬ "tl/".toList <+: text) :
      Prefixed text none text

/-- The atoms that a text spells. -/
inductive Spelling : Text → List Atom → Prop
  | nil : Spelling [] []
  | danglingEscape : Spelling ['\\'] []
  | escaped (c : Char) {rest : Text} {atoms : List Atom} (h : Spelling rest atoms) :
      Spelling ('\\' :: c :: rest) (.char c :: atoms)
  | anyChars {rest : Text} {atoms : List Atom} (h : Spelling rest atoms) :
      Spelling ('*' :: rest) (.anyChars :: atoms)
  | anyTags {rest : Text} {atoms : List Atom} (h : Spelling rest atoms) :
      Spelling ('<' :: '*' :: '>' :: rest) (.anyTags :: atoms)
  | tag {body rest : Text} {atoms : List Atom} (hbody : '>' ∉ body) (hname : body ≠ ['*'])
      (h : Spelling rest atoms) :
      Spelling ('<' :: body ++ '>' :: rest) (.tag ('<' :: body ++ ['>']) :: atoms)
  | unclosed {rest : Text} {atoms : List Atom} (hrest : '>' ∉ rest) (h : Spelling rest atoms) :
      Spelling ('<' :: rest) (.char '<' :: atoms)
  | plain {c : Char} {rest : Text} {atoms : List Atom} (hescape : c ≠ '\\') (hstar : c ≠ '*')
      (hopen : c ≠ '<') (h : Spelling rest atoms) : Spelling (c :: rest) (.char c :: atoms)

/-- A tag goes up to the first closing bracket. -/
lemma splitTag?_eq_some {behind : Text} :
    splitTag? text = some (body, behind) ↔ text = body ++ '>' :: behind ∧ '>' ∉ body := by
  induction text generalizing body behind with
  | nil => simp [splitTag?]
  | cons c rest ih =>
      simp only [splitTag?]
      split
      · rename_i hc
        constructor
        · intro h
          obtain ⟨rfl, rfl⟩ := Prod.mk.inj (Option.some.inj h)
          simp [hc]
        · rintro ⟨h, hbody⟩
          cases body with
          | nil => simp_all
          | cons d body => simp_all
      · rename_i hc
        simp only [Option.map_eq_some_iff, Prod.exists, ih, Prod.mk.injEq]
        constructor
        · rintro ⟨body, behind, ⟨rfl, hbody⟩, rfl, rfl⟩
          exact ⟨rfl, by simp [hbody, Ne.symm hc]⟩
        · rintro ⟨h, hbody⟩
          cases body with
          | nil => simp_all
          | cons d body =>
              simp only [List.cons_append, List.cons.injEq] at h
              exact ⟨body, behind, ⟨h.2, fun hmem => hbody (List.mem_cons_of_mem _ hmem)⟩,
                by rw [h.1], rfl⟩

/-- There is no tag where no bracket is closed. -/
lemma splitTag?_eq_none : splitTag? text = none ↔ '>' ∉ text := by
  induction text with
  | nil => simp [splitTag?]
  | cons c rest ih =>
      simp only [splitTag?]
      split
      · simp_all
      · rename_i hc
        simp [ih, Ne.symm hc]

/-! The equations of `atomsOf` where it looks ahead. -/

/-- A tag in brackets is one atom. -/
lemma atomsOf_tag (behind : Text) (h : '>' ∉ body) :
    atomsOf ('<' :: body ++ '>' :: behind) = tagAtom body :: atomsOf behind := by
  have hsplit : splitTag? (body ++ '>' :: behind) = some (body, behind) :=
    splitTag?_eq_some.2 ⟨rfl, h⟩
  rw [List.cons_append, atomsOf]
  · simp only [Char.reduceEq, if_false, if_true]
    split
    · rename_i body' behind' hsplit'
      obtain ⟨rfl, rfl⟩ := Prod.mk.inj (Option.some.inj (hsplit.symm.trans hsplit'))
      rfl
    · simp_all
  · simp
  · simp

/-- A bracket that is not closed stands for itself. -/
lemma atomsOf_unclosed {rest : Text} (h : '>' ∉ rest) :
    atomsOf ('<' :: rest) = .char '<' :: atomsOf rest := by
  have hsplit : splitTag? rest = none := splitTag?_eq_none.2 h
  rw [atomsOf]
  · simp only [Char.reduceEq, if_false, if_true]
    split
    · simp_all
    · rfl
  · simp
  · simp

/-- A character without a meaning of its own stands for itself. -/
lemma atomsOf_plain {c : Char} {rest : Text} (hescape : c ≠ '\\') (hstar : c ≠ '*')
    (hopen : c ≠ '<') : atomsOf (c :: rest) = .char c :: atomsOf rest := by
  rw [atomsOf]
  · simp [hstar, hopen]
  · simp [hescape]
  · simp [hescape]

/-- A text spells the atoms that are read from it. -/
lemma spelling_atomsOf (text : Text) : Spelling text (atomsOf text) := by
  fun_induction atomsOf text with
  | case1 => exact .nil
  | case2 => exact .danglingEscape
  | case3 c rest ih => exact .escaped c ih
  | case4 rest _ _ ih => exact .anyChars ih
  | case5 rest body behind h _ _ _ _ ih =>
      obtain ⟨rfl, hbody⟩ := splitTag?_eq_some.1 h
      by_cases hname : body = ['*']
      · subst hname
        exact .anyTags ih
      · rw [tagAtom, if_neg hname]
        exact .tag hbody hname ih
  | case6 rest h _ _ _ ih => exact .unclosed (splitTag?_eq_none.1 h) ih
  | case7 c rest hdangling hescaped hstar hopen ih =>
      have hescape : c ≠ '\\' := by
        rintro rfl
        cases rest with
        | nil => exact hdangling rfl rfl
        | cons d rest => exact hescaped d rest rfl rfl
      exact .plain hescape hstar hopen ih

/-- It spells no other atoms. -/
lemma atomsOf_eq_of_spelling (h : Spelling text atoms) : atomsOf text = atoms := by
  induction h with
  | nil => simp [atomsOf]
  | danglingEscape => simp [atomsOf]
  | escaped c _ ih => simp [atomsOf, ih]
  | anyChars _ ih => simp [atomsOf, ih]
  | @anyTags rest _ _ ih =>
      have hstar : '>' ∉ ['*'] := by decide
      simpa [tagAtom, ih] using atomsOf_tag rest hstar
  | tag hbody hname _ ih => rw [atomsOf_tag _ hbody, tagAtom, if_neg hname, ih]
  | unclosed hrest _ ih => rw [atomsOf_unclosed hrest, ih]
  | plain hescape hstar hopen _ ih => rw [atomsOf_plain hescape hstar hopen, ih]

/-- **Each text spells one row of atoms.** -/
lemma spelling_iff : Spelling text atoms ↔ atomsOf text = atoms :=
  ⟨atomsOf_eq_of_spelling, fun h => h ▸ spelling_atomsOf text⟩

/-- A pattern is read as the side in front and the atoms behind. -/
lemma ofText_eq_of_prefixed {side : Option Side} (h : Prefixed text side body) :
    ofText text = ⟨side, atomsOf body⟩ := by
  cases h with
  | source body => rfl
  | target body => rfl
  | none hsource htarget =>
      unfold ofText
      split
      · exact absurd (List.prefix_append _ _) hsource
      · exact absurd (List.prefix_append _ _) htarget
      · rfl

/-- Each text has a side in front or none. -/
lemma exists_prefixed (text : Text) : ∃ side body, Prefixed text side body := by
  by_cases hsource : "sl/".toList <+: text
  · obtain ⟨body, rfl⟩ := hsource
    exact ⟨_, _, .source body⟩
  · by_cases htarget : "tl/".toList <+: text
    · obtain ⟨body, rfl⟩ := htarget
      exact ⟨_, _, .target body⟩
    · exact ⟨_, _, .none hsource htarget⟩

/-! ## Rows of tokens -/

/-- Is the token of a class that one of the wildcards names? -/
def Covered (wildcards : List Atom) (token : Token) : Prop := ∃ atom ∈ wildcards, atom.Covers token

/-- The rows of tokens that a row of atoms describes: a literal describes one token, and a run of
wildcards any row of tokens each of which is of a class that is named in the run. -/
inductive Describes : List Atom → List Token → Prop
  | nil : Describes [] []
  | literal {atom : Atom} {token : Token} {atoms : List Atom} {tokens : List Token}
      (hnames : atom.Names token) (h : Describes atoms tokens) :
      Describes (atom :: atoms) (token :: tokens)
  | run {wildcards atoms : List Atom} {stretch tokens : List Token}
      (hwildcards : ∀ atom ∈ wildcards, atom.isWildcard = true)
      (hstretch : ∀ token ∈ stretch, Covered wildcards token) (h : Describes atoms tokens) :
      Describes (wildcards ++ atoms) (stretch ++ tokens)

/-- Atoms compared with tokens from left to right, when some wildcards stand in front already. -/
def Fits (wildcards : List Atom) : List Atom → List Token → Prop
  | [], tokens => ∀ token ∈ tokens, Covered wildcards token
  | atom :: atoms, tokens =>
    if atom.isWildcard then Fits (wildcards ++ [atom]) atoms tokens
    else ∃ stretch token rest, tokens = stretch ++ token :: rest ∧
      (∀ token ∈ stretch, Covered wildcards token) ∧ atom.Names token ∧ Fits [] atoms rest

/-- Does the text of a pattern match a reading of a side?  The side that the text names in front, if
it names one, must be that side, and the rest must describe the whole reading. -/
def Matches (text : Text) (side : Side) (tokens : List Token) : Prop :=
  ∃ named body atoms, Prefixed text named body ∧ Spelling body atoms ∧
    (∀ other ∈ named, other = side) ∧ Describes atoms tokens

/-- Only a literal atom names a token. -/
lemma not_isWildcard_of_names {atom : Atom} {token : Token} (h : atom.Names token) :
    atom.isWildcard = false := by
  cases atom <;> simp_all [Atom.Names, Atom.isWildcard]

/-- Wildcards in front of the atoms become loops. -/
lemma fits_append_wildcards {wildcards : List Atom}
    (h : ∀ atom ∈ wildcards, atom.isWildcard = true) :
    Fits loops (wildcards ++ atoms) tokens ↔ Fits (loops ++ wildcards) atoms tokens := by
  induction wildcards generalizing loops with
  | nil => simp
  | cons atom wildcards ih =>
      rw [List.cons_append, Fits, if_pos (h atom List.mem_cons_self),
        ih fun atom hatom => h atom (List.mem_cons_of_mem _ hatom)]
      simp

/-- More loops cover more. -/
lemma Covered.mono {loops' : List Atom} {token : Token} (h : Covered loops token)
    (hsubset : loops ⊆ loops') : Covered loops' token := by
  obtain ⟨atom, hatom, hcovers⟩ := h
  exact ⟨atom, hsubset hatom, hcovers⟩

/-- More wildcards may be kept aside, and tokens of their classes may come in front. -/
lemma fits_of_covered {loops' : List Atom} {stretch : List Token} (h : Fits loops atoms tokens)
    (hsubset : loops ⊆ loops') (hstretch : ∀ token ∈ stretch, Covered loops' token) :
    Fits loops' atoms (stretch ++ tokens) := by
  -- Wildcards are moved aside on both sides along the atoms, so `loops` and `loops'` vary.
  induction atoms generalizing loops loops' with
  | nil =>
      intro token htoken
      exact (List.mem_append.1 htoken).elim (hstretch token) fun htoken =>
        (h token htoken).mono hsubset
  | cons atom atoms ih =>
      rw [Fits] at h ⊢
      split
      · rename_i hwildcard
        rw [if_pos hwildcard] at h
        refine ih h (List.append_subset.2 ⟨List.subset_append_of_subset_left _ hsubset,
          List.subset_append_right _ _⟩) fun token htoken => ?_
        exact (hstretch token htoken).mono (List.subset_append_left _ _)
      · rename_i hliteral
        rw [if_neg hliteral] at h
        obtain ⟨stretch', token, rest, rfl, hstretch', hnames, hrest⟩ := h
        refine ⟨stretch ++ stretch', token, rest, by simp, fun token htoken => ?_, hnames, hrest⟩
        exact (List.mem_append.1 htoken).elim (hstretch token) fun htoken =>
          (hstretch' token htoken).mono hsubset

/-- Tokens that are described are fitted by the loops and steps of a chain. -/
lemma fits_of_describes (h : Describes atoms tokens) : Fits [] atoms tokens := by
  induction h with
  | nil => simp [Fits]
  | literal hnames _ ih =>
      rw [Fits, if_neg (by simp [not_isWildcard_of_names hnames])]
      exact ⟨[], _, _, rfl, by simp, hnames, ih⟩
  | run hwildcards hstretch _ ih =>
      rw [fits_append_wildcards hwildcards, List.nil_append]
      exact fits_of_covered ih (List.nil_subset _) hstretch

/-- Tokens that are fitted by loops and steps are described, the loops in front. -/
lemma describes_of_fits (loops : List Atom) (hloops : ∀ atom ∈ loops, atom.isWildcard = true)
    (h : Fits loops atoms tokens) : Describes (loops ++ atoms) tokens := by
  induction atoms generalizing loops tokens with
  | nil => simpa using Describes.run hloops h .nil
  | cons atom atoms ih =>
      rw [Fits] at h
      split at h
      · rename_i hwildcard
        rw [List.append_cons]
        refine ih _ (fun other hother => ?_) h
        rcases List.mem_append.1 hother with hother | hother
        · exact hloops other hother
        · rwa [List.mem_singleton.1 hother]
      · obtain ⟨stretch, token, rest, rfl, hstretch, hnames, hrest⟩ := h
        exact .run hloops hstretch (.literal hnames (ih [] (by simp) hrest))

/-- **Atoms describe what they fit from left to right.** -/
lemma describes_iff_fits : Describes atoms tokens ↔ Fits [] atoms tokens :=
  ⟨fits_of_describes, fun h => describes_of_fits [] (by simp) h⟩

/-- **A text matches what the pattern that it gives fits.** -/
lemma matches_iff {side : Side} : Matches text side tokens ↔
    (∀ other ∈ (ofText text).side, other = side) ∧ Fits [] (ofText text).atoms tokens := by
  constructor
  · rintro ⟨named, body, atoms, hprefixed, hspelling, hside, hdescribes⟩
    rw [ofText_eq_of_prefixed hprefixed, spelling_iff.1 hspelling]
    exact ⟨hside, describes_iff_fits.1 hdescribes⟩
  · rintro ⟨hside, hfits⟩
    obtain ⟨named, body, hprefixed⟩ := exists_prefixed text
    rw [ofText_eq_of_prefixed hprefixed] at hside hfits
    exact ⟨named, body, _, hprefixed, spelling_atomsOf body, hside, describes_iff_fits.2 hfits⟩

end Pattern

end LexicalSelection
