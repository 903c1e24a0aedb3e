import LexicalSelection.Proofs.Text.Lines

/-!
# Lines taken out of a text

A text is its lines with the line breaks behind them.  So some of them can be taken out without a
change to the others.

* **`lines_append`** — the lines of a text that ends in a line break do not depend on what follows.
* `brokenLines`, `joined` — the lines of a text with their line breaks, and the text of such lines.
* `WellBroken` — lines that are read back; what is left of them is read back, too.
* **`lines_joined`** — just the lines that are left are read back.
-/

namespace LexicalSelection.Text

variable {line text : Text}

lemma lines_ne_nil (h : text ≠ []) : lines text ≠ [] := by
  fun_cases lines text with
  | case1 => exact absurd rfl h
  | case2 rest => exact List.cons_ne_nil _ _
  | case3 rest => exact List.cons_ne_nil _ _
  | case4 c rest =>
      cases lines rest <;> exact List.cons_ne_nil _ _

lemma consLine_append {c : Char} {first rest : List Text} (h : first ≠ []) :
    consLine c (first ++ rest) = consLine c first ++ rest := by
  cases first with
  | nil => exact absurd rfl h
  | cons line first => rfl

/-- **A line break parts the lines.** -/
lemma lines_append (text more : Text) :
    lines (text ++ '\n' :: more) = lines (text ++ ['\n']) ++ lines more := by
  fun_induction lines text with
  | case1 => rfl
  | case2 rest ih => rw [List.cons_append, List.cons_append, lines, lines, ih, List.cons_append]
  | case3 rest ih =>
      rw [List.cons_append, List.cons_append, List.cons_append, List.cons_append, lines, lines, ih,
        List.cons_append]
  | case4 c rest hnewline hreturn ih =>
      by_cases hlast : c = '\r' ∧ rest = []
      · obtain ⟨rfl, rfl⟩ := hlast
        rfl
      · -- The character does not become a part of the line break.
        have hcons : ∀ tail, lines (c :: (rest ++ '\n' :: tail))
            = consLine c (lines (rest ++ '\n' :: tail)) := by
          intro tail
          rw [lines]
          · exact hnewline
          · intro behind hc heq
            cases rest with
            | nil => exact hlast ⟨hc, rfl⟩
            | cons d rest => exact hreturn rest hc (congrArg (· :: rest) (List.cons.inj heq).1)
        rw [List.cons_append, List.cons_append, hcons, hcons, ih, consLine_append]
        exact lines_ne_nil (List.append_ne_nil_of_right_ne_nil _ (List.cons_ne_nil _ _))

/-! ## Lines with their line breaks -/

/-- A line and the line break behind it. -/
abbrev BrokenLine := Text × Text

/-- Puts a character in front of the first of some lines. -/
def consBroken (c : Char) : List BrokenLine → List BrokenLine
  | [] => [([c], [])]
  | (line, lineBreak) :: rest => (c :: line, lineBreak) :: rest

/-- The lines of a text with their line breaks.  The last line may have none. -/
def brokenLines : Text → List BrokenLine
  | [] => []
  | '\n' :: rest => ([], ['\n']) :: brokenLines rest
  | '\r' :: '\n' :: rest => ([], ['\r', '\n']) :: brokenLines rest
  | c :: rest => consBroken c (brokenLines rest)

/-- The text of lines with their line breaks. -/
def joined (broken : List BrokenLine) : Text := broken.flatMap fun row => row.1 ++ row.2

lemma joined_cons (row : BrokenLine) (rest : List BrokenLine) :
    joined (row :: rest) = row.1 ++ (row.2 ++ joined rest) := by
  rw [joined, List.flatMap_cons, ← joined, List.append_assoc]

/-- A character in front of the lines is in front of their text. -/
lemma joined_consBroken (c : Char) (broken : List BrokenLine) :
    joined (consBroken c broken) = c :: joined broken := by
  cases broken <;> rfl

lemma map_fst_consBroken (c : Char) (broken : List BrokenLine) :
    (consBroken c broken).map Prod.fst = consLine c (broken.map Prod.fst) := by
  cases broken <;> rfl

/-- The lines of a text with their line breaks make up the text. -/
lemma joined_brokenLines (text : Text) : joined (brokenLines text) = text := by
  fun_induction brokenLines text with
  | case1 => rfl
  | case2 rest ih => rw [joined_cons, ih]; rfl
  | case3 rest ih => rw [joined_cons, ih]; rfl
  | case4 c rest hnewline hreturn ih => rw [joined_consBroken, ih]

/-- Without their line breaks they are its lines. -/
lemma map_fst_brokenLines (text : Text) : (brokenLines text).map Prod.fst = lines text := by
  fun_induction brokenLines text with
  | case1 => rfl
  | case2 rest ih => rw [lines, List.map_cons, ih]
  | case3 rest ih => rw [lines, List.map_cons, ih]
  | case4 c rest hnewline hreturn ih =>
      rw [map_fst_consBroken, ih, lines]
      · exact hnewline
      · exact hreturn

/-- Lines that are read back with the line breaks that they have. -/
inductive WellBroken : List BrokenLine → Prop
  | nil : WellBroken []
  | last {line : Text} (hline : '\n' ∉ line) (hne : line ≠ []) : WellBroken [(line, [])]
  | newline {line : Text} {rest : List BrokenLine} (hline : OneLine line)
      (hrest : WellBroken rest) :
      WellBroken ((line, ['\n']) :: rest)
  | return {line : Text} {rest : List BrokenLine} (hline : '\n' ∉ line) (hrest : WellBroken rest) :
      WellBroken ((line, ['\r', '\n']) :: rest)

/-- Lines can be left out. -/
lemma WellBroken.sublist {broken kept : List BrokenLine} (h : WellBroken broken)
    (hkept : kept.Sublist broken) :
    WellBroken kept := by
  induction h generalizing kept with
  | nil => rw [List.sublist_nil.1 hkept]; exact .nil
  | last hline hne =>
      cases hkept with
      | cons _ hkept => rw [List.sublist_nil.1 hkept]; exact .nil
      | cons_cons _ hkept => rw [List.sublist_nil.1 hkept]; exact .last hline hne
  | newline hline hrest ih =>
      cases hkept with
      | cons _ hkept => exact ih hkept
      | cons_cons _ hkept => exact .newline hline (ih hkept)
  | «return» hline hrest ih =>
      cases hkept with
      | cons _ hkept => exact ih hkept
      | cons_cons _ hkept => exact .return hline (ih hkept)

lemma foldr_consLine_cons (line first : Text) (rest : List Text) :
    line.foldr consLine (first :: rest) = (line ++ first) :: rest := by
  induction line with
  | nil => rfl
  | cons c line ih => rw [List.foldr_cons, ih, consLine, List.cons_append]

lemma foldr_consLine_nil (h : line ≠ []) : line.foldr consLine [] = [line] := by
  induction line with
  | nil => exact absurd rfl h
  | cons c line ih =>
      cases line with
      | nil => rfl
      | cons d line => rw [List.foldr_cons, ih (List.cons_ne_nil d line), consLine]

/-- Characters in front of a text belong to its first line, if none of them is a line break and none
becomes a part of one. -/
lemma lines_append_of_notMem {rest : Text} (hline : '\n' ∉ line)
    (hbreak : line.getLast? = some '\r' → rest.head? ≠ some '\n') :
    lines (line ++ rest) = line.foldr consLine (lines rest) := by
  induction line with
  | nil => rfl
  | cons c line ih =>
      obtain ⟨hc, hline⟩ := not_or.1 (mt List.mem_cons.2 hline)
      have hlast : line.getLast? = some '\r' → rest.head? ≠ some '\n' := by
        intro hreturn
        apply hbreak
        rw [List.getLast?_cons, hreturn, Option.getD_some]
      rw [List.cons_append, lines, ih hline hlast, List.foldr_cons]
      · exact fun heq => hc heq.symm
      · intro behind hreturn heq
        cases line with
        | nil => exact hbreak (congrArg some hreturn) (congrArg List.head? heq)
        | cons d line => exact hline ((List.cons.inj heq).1 ▸ List.mem_cons_self)

/-- **Lines are read back with their line breaks.** -/
lemma lines_joined {broken : List BrokenLine} (h : WellBroken broken) :
    lines (joined broken) = broken.map Prod.fst := by
  induction h with
  | nil => rfl
  | @last line hline hne =>
      have htext : joined [(line, [])] = line ++ [] := List.append_nil _
      rw [htext, lines_append_of_notMem hline (by simp)]
      exact foldr_consLine_nil hne
  | @newline line rest hline hrest ih =>
      rw [joined_cons, List.map_cons, ← ih]
      exact lines_append_newline hline (joined rest)
  | @«return» line rest hline hrest ih =>
      have hbreak : lines ('\r' :: '\n' :: joined rest) = [] :: lines (joined rest) := by rw [lines]
      rw [joined_cons, List.map_cons, ← ih]
      refine (lines_append_of_notMem hline (by simp)).trans ?_
      rw [List.cons_append, List.singleton_append, hbreak, foldr_consLine_cons, List.append_nil]

/-- A character can be put in front when it does not make another line break. -/
lemma WellBroken.cons {c : Char} {broken : List BrokenLine} (h : WellBroken broken) (hc : c ≠ '\n')
    (hreturn : ∀ behind, c = '\r' → joined broken ≠ '\n' :: behind) :
    WellBroken (consBroken c broken) := by
  have hnotMem : ∀ {line : Text}, '\n' ∉ line → '\n' ∉ c :: line :=
    fun hline hmem => (List.mem_cons.1 hmem).elim (fun heq => hc heq.symm) hline
  cases h with
  | nil => exact .last (hnotMem List.not_mem_nil) (List.cons_ne_nil _ _)
  | last hline hne => exact .last (hnotMem hline) (List.cons_ne_nil _ _)
  | @newline line rest hline hrest =>
      refine .newline ⟨hnotMem hline.newline, ?_⟩ hrest
      cases line with
      | nil =>
          intro hlast
          exact hreturn (joined rest) (Option.some.inj hlast) rfl
      | cons d line =>
          rw [List.getLast?_cons_cons]
          exact hline.return_ne
  | «return» hline hrest => exact .return (hnotMem hline) hrest

/-- The lines of a text are read back with their line breaks. -/
lemma wellBroken_brokenLines (text : Text) : WellBroken (brokenLines text) := by
  fun_induction brokenLines text with
  | case1 => exact .nil
  | case2 rest ih => exact .newline ⟨List.not_mem_nil, by simp⟩ ih
  | case3 rest ih => exact .return List.not_mem_nil ih
  | case4 c rest hnewline hreturn ih =>
      refine ih.cons hnewline fun behind hc heq => ?_
      rw [joined_brokenLines] at heq
      exact hreturn behind hc heq

end LexicalSelection.Text
