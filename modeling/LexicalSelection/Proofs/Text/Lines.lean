import LexicalSelection.Text.Lines
import Mathlib.Data.List.Basic

/-!
# Lines and their line breaks

* `OneLine` — a text that is read back as one line when a line break is put behind it.
* `newline_notMem_lines` — no line holds a line break.
* **`lines_flatMap`** — lines that are written one behind the other are read back.
-/

namespace LexicalSelection.Text

variable {line text : Text}

/-- The text holds no line break, and no `\r` at its end would become a part of one. -/
structure OneLine (line : Text) : Prop where
  newline : '\n' ∉ line
  return_ne : line.getLast? ≠ some '\r'

lemma mem_consLine {c d : Char} {lines : List Text} (h : line ∈ consLine c lines) (hd : d ∈ line) :
    d = c ∨ ∃ line ∈ lines, d ∈ line := by
  cases lines with
  | nil =>
      obtain rfl := List.mem_singleton.1 h
      exact Or.inl (List.mem_singleton.1 hd)
  | cons first rest =>
      rcases List.mem_cons.1 h with rfl | h
      · rcases List.mem_cons.1 hd with rfl | hd
        · exact Or.inl rfl
        · exact Or.inr ⟨first, List.mem_cons_self, hd⟩
      · exact Or.inr ⟨line, List.mem_cons_of_mem _ h, hd⟩

lemma newline_notMem_lines (h : line ∈ lines text) : '\n' ∉ line := by
  fun_induction lines text generalizing line with
  | case1 => cases h
  | case2 rest ih =>
      rcases List.mem_cons.1 h with rfl | h
      · exact List.not_mem_nil
      · exact ih h
  | case3 rest ih =>
      rcases List.mem_cons.1 h with rfl | h
      · exact List.not_mem_nil
      · exact ih h
  | case4 c rest hnewline hreturn ih =>
      intro hmem
      rcases mem_consLine h hmem with hc | ⟨line, hline, hmem⟩
      · exact hnewline hc.symm
      · exact ih hline hmem

lemma lines_append_newline (h : OneLine line) (rest : Text) :
    lines (line ++ '\n' :: rest) = line :: lines rest := by
  induction line with
  | nil => rfl
  | cons c line ih =>
      obtain ⟨hc, hline⟩ := not_or.1 (mt List.mem_cons.2 h.newline)
      cases line with
      | nil =>
          have hreturn : c ≠ '\r' := fun hreturn => h.return_ne (congrArg some hreturn)
          rw [List.singleton_append, lines, lines, consLine]
          · exact fun heq => hc heq.symm
          · exact fun _ heq => absurd heq hreturn
      | cons d line =>
          have hlast : (d :: line).getLast? ≠ some '\r' := by
            rw [← List.getLast?_cons_cons]
            exact h.return_ne
          have hd : d ≠ '\n' := fun heq => hline (heq ▸ List.mem_cons_self)
          rw [List.cons_append, lines, ih ⟨hline, hlast⟩, consLine]
          · exact fun heq => hc heq.symm
          · intro _ _ heq
            exact absurd (List.cons.inj heq).1 hd

/-- **Lines are read back.** -/
lemma lines_flatMap {written : List Text} (h : ∀ line ∈ written, OneLine line) :
    lines (written.flatMap (· ++ ['\n'])) = written := by
  induction written with
  | nil => rfl
  | cons line rest ih =>
      obtain ⟨hline, hrest⟩ := List.forall_mem_cons.1 h
      rw [List.flatMap_cons, List.append_assoc, List.singleton_append, lines_append_newline hline,
        ih hrest]

end LexicalSelection.Text
