import LexicalSelection.Alphabet.Basic
import Mathlib.Data.List.Basic

/-!
# Numbers and symbols

A symbol keeps its number while an alphabet grows, and no two symbols share one.

* `Alphabet.Extends` — an alphabet that has all numbers of another.
* **`number?_injective`** — a number stands for one symbol.
* **`number?_intern`**, **`extends_intern`** — a symbol that is asked for has its number from then
  on, and the others keep theirs.
-/

namespace LexicalSelection.Alphabet

variable {alphabet alphabet' alphabet'' : Alphabet} {symbol symbol' : NamedSymbol} {n k : Nat}
  {list : List NamedSymbol}

/-! ## The last place in a list -/

lemma lastNumber?_eq_some (h : lastNumber? symbol n list = some k) :
    n ≤ k ∧ list[k - n]? = some symbol := by
  induction list generalizing n with
  | nil => simp [lastNumber?] at h
  | cons other list ih =>
      simp only [lastNumber?] at h
      cases hrest : lastNumber? symbol (n + 1) list with
      | some found =>
          obtain rfl : found = k := by simpa [hrest] using h
          obtain ⟨hle, hat⟩ := ih hrest
          obtain ⟨d, rfl⟩ := Nat.exists_eq_add_of_le hle
          refine ⟨by omega, ?_⟩
          rw [show n + 1 + d - n = d + 1 by omega, List.getElem?_cons_succ]
          simpa using hat
      | none =>
          simp only [hrest] at h
          split at h
          · rename_i heq
            obtain rfl := Option.some.inj h
            simp [heq]
          · cases h

lemma lastNumber?_append_singleton :
    lastNumber? symbol n (list ++ [symbol'])
      = if symbol' = symbol then some (n + list.length) else lastNumber? symbol n list := by
  induction list generalizing n with
  | nil => simp [lastNumber?]
  | cons other list ih =>
      simp only [List.cons_append, lastNumber?, ih, List.length_cons]
      by_cases heq : symbol' = symbol
      · simp [heq, Nat.add_assoc, Nat.add_comm 1]
      · simp only [heq, if_false]

/-! ## Numbers -/

lemma length_symbols (alphabet : Alphabet) : alphabet.symbols.length = alphabet.size :=
  List.length_append

lemma four_le_number? (h : alphabet.number? symbol = some n) : 4 ≤ n :=
  (lastNumber?_eq_some h).1

/-- **A number stands for one symbol.** -/
lemma number?_injective (h : alphabet.number? symbol = some n)
    (h' : alphabet.number? symbol' = some n) : symbol = symbol' :=
  Option.some.inj ((lastNumber?_eq_some h).2.symm.trans (lastNumber?_eq_some h').2)

/-- The alphabet has all numbers of another. -/
def Extends (alphabet alphabet' : Alphabet) : Prop :=
  ∀ symbol n, alphabet.number? symbol = some n → alphabet'.number? symbol = some n

lemma Extends.refl (alphabet : Alphabet) : alphabet.Extends alphabet := fun _ _ h => h

lemma Extends.trans (h : alphabet.Extends alphabet') (h' : alphabet'.Extends alphabet'') :
    alphabet.Extends alphabet'' := fun symbol n hn => h' symbol n (h symbol n hn)

/-- **A symbol that is asked for has its number from then on.** -/
lemma number?_intern (symbol : NamedSymbol) (alphabet : Alphabet) :
    (alphabet.intern symbol).2.number? symbol = some (alphabet.intern symbol).1 := by
  unfold intern
  split
  · rename_i number hnumber
    exact hnumber
  · simp [number?, lastNumber?_append_singleton, size]

/-- The other symbols keep their numbers. -/
lemma extends_intern (symbol : NamedSymbol) (alphabet : Alphabet) :
    alphabet.Extends (alphabet.intern symbol).2 := by
  intro other n hn
  unfold intern
  split
  · exact hn
  · rename_i hnone
    have hne : symbol ≠ other := by
      rintro rfl
      simp [hnone] at hn
    simpa [number?, lastNumber?_append_singleton, hne] using hn

end LexicalSelection.Alphabet
