import LexicalSelection.Alphabet.Binary
import LexicalSelection.Proofs.Alphabet.Numbering
import LexicalSelection.Proofs.Codec.Numbers

/-!
# Alphabets read back

* `Storable` — the alphabets that can be stored.
* **`takesAll_read`** — such an alphabet is read back.
* `gives_read` — only such alphabets are read.
-/

namespace LexicalSelection.Alphabet

open Decoding Codec

/-- The alphabet can be stored: each character is spelled by one character, and lengths fit. -/
structure Storable (alphabet : Alphabet) : Prop where
  size_lt : alphabet.size < twoTo 64
  spelling : ∀ symbol ∈ alphabet.added, symbol.2.utf8.length < twoTo 64
  char : ∀ symbol ∈ alphabet.added, symbol.1 = .char → symbol.2.length = 1

/-- The symbol can be stored under this number. -/
structure Sound (number : Nat) (symbol : NamedSymbol) : Prop where
  spelling : symbol.2.utf8.length < twoTo 64
  problem : symbolProblem? number symbol = none

/-! ## One symbol -/

/-- A kind is read back from its byte. -/
lemma ofByte?_byte (kind : SymbolKind) : SymbolKind.ofByte? kind.byte = some kind := by
  cases kind <;> rfl

/-- A sound symbol is read back. -/
lemma takesAll_readSymbol {number : Nat} {symbol : NamedSymbol} (h : Sound number symbol) :
    TakesAll (readSymbol number) (writeSymbol symbol) symbol := by
  obtain ⟨kind, spelling⟩ := symbol
  refine (takesAll_byte kind.byte).bind ?_
  rw [ofByte?_byte]
  refine (takesAll_readText h.spelling).bind_nil ?_
  rw [h.problem]
  exact TakesAll.pure (kind, spelling)

lemma steady_readSymbol (number : Nat) : Steady (readSymbol number) := by
  refine steady_byte.bind fun b => ?_
  split
  · exact Steady.throw _
  · refine steady_readText.bind fun spelling => ?_
    split
    · exact Steady.throw _
    · exact Steady.pure _

/-- Only sound symbols are read. -/
lemma gives_readSymbol (number : Nat) : Gives (readSymbol number) (Sound number) := by
  refine (Gives.trivial Decoder.byte).bind fun b _ => ?_
  split
  · exact Gives.throw _ _
  · refine gives_readText.bind fun spelling hspelling => ?_
    split
    · exact Gives.throw _ _
    · rename_i hproblem
      exact Gives.pure ⟨hspelling, hproblem⟩

/-! ## Symbols in a row -/

/-- Symbols in a row are read back when each is sound under its own number. -/
lemma takesAll_readSymbols {symbols : List NamedSymbol} {number : Nat}
    (h : ∀ entry ∈ symbols.zipIdx number, Sound entry.2 entry.1) :
    TakesAll (readSymbols number symbols.length) (symbols.flatMap writeSymbol) symbols := by
  induction symbols generalizing number with
  | nil => exact TakesAll.pure []
  | cons symbol symbols ih =>
      rw [List.zipIdx_cons, List.forall_mem_cons] at h
      exact (takesAll_readSymbol h.1).bind ((ih h.2).bind_pure _)

lemma steady_readSymbols (number count : Nat) : Steady (readSymbols number count) := by
  induction count generalizing number with
  | zero => exact Steady.pure []
  | succ count ih =>
      exact (steady_readSymbol number).bind fun _ => (ih (number + 1)).bind fun _ => Steady.pure _

/-- Each symbol that is read is sound under its own number. -/
lemma gives_readSymbols (number count : Nat) : Gives (readSymbols number count) fun symbols =>
    symbols.length = count ∧ ∀ entry ∈ symbols.zipIdx number, Sound entry.2 entry.1 := by
  induction count generalizing number with
  | zero => exact Gives.pure ⟨rfl, fun _ h => absurd h List.not_mem_nil⟩
  | succ count ih =>
      refine (gives_readSymbol number).bind fun symbol hsymbol =>
        (ih (number + 1)).bind fun symbols hsymbols => Gives.pure ⟨?_, ?_⟩
      · rw [List.length_cons, hsymbols.1]
      · rw [List.zipIdx_cons, List.forall_mem_cons]
        exact ⟨hsymbol, hsymbols.2⟩

/-! ## Whole alphabets -/

/-- The reserved symbols are sound, each under its number. -/
lemma sound_reserved : ∀ entry ∈ reserved.zipIdx 0, Sound entry.2 entry.1 := by
  have h : ∀ entry ∈ reserved.zipIdx 0,
      entry.1.2.utf8.length < twoTo 64 ∧ symbolProblem? entry.2 entry.1 = none := by
    decide
  exact fun entry hentry => ⟨(h entry hentry).1, (h entry hentry).2⟩

/-- No reserved mark stands behind the reserved ones, so only the spelling of characters matters. -/
lemma symbolProblem?_eq_none {number : Nat} (hnumber : reserved.length ≤ number)
    (symbol : NamedSymbol) :
    symbolProblem? number symbol = none ↔ (symbol.1 = .char → symbol.2.length = 1) := by
  have hreserved : reservedProblem? number symbol = none := by
    have hnone : reservedSpellings[number]? = none := List.getElem?_eq_none hnumber
    rw [reservedProblem?, hnone]
  rw [symbolProblem?, hreserved]
  simp

/-- The symbols of a storable alphabet are sound behind the reserved ones. -/
lemma sound_added {alphabet : Alphabet} (h : alphabet.Storable) :
    ∀ entry ∈ alphabet.added.zipIdx reserved.length, Sound entry.2 entry.1 := by
  intro entry hentry
  have hmem : entry.1 ∈ alphabet.added := List.fst_mem_of_mem_zipIdx hentry
  have hle : reserved.length ≤ entry.2 := List.le_snd_of_mem_zipIdx hentry
  exact ⟨h.spelling _ hmem, (symbolProblem?_eq_none hle _).2 (h.char _ hmem)⟩

/-- **An alphabet is read back.** -/
lemma takesAll_read {alphabet : Alphabet} (h : alphabet.Storable) :
    TakesAll read alphabet.write alphabet := by
  have hsymbols : TakesAll (readSymbols 0 alphabet.size) (alphabet.symbols.flatMap writeSymbol)
      alphabet.symbols := by
    rw [← length_symbols]
    refine takesAll_readSymbols ?_
    rw [symbols, List.zipIdx_append, List.forall_mem_append]
    exact ⟨sound_reserved, sound_added h⟩
  have hself : (⟨alphabet.symbols.drop reserved.length⟩ : Alphabet) = alphabet := by
    rw [symbols, List.drop_left]
  refine (takesAll_readNat h.size_lt).bind ?_
  rw [if_neg (by rw [size]; omega)]
  have hread := hsymbols.bind_pure fun symbols => (⟨symbols.drop reserved.length⟩ : Alphabet)
  rwa [hself] at hread

lemma steady_read : Steady read := by
  refine steady_readNat.bind fun count => ?_
  split
  · exact Steady.throw _
  · exact (steady_readSymbols 0 count).bind fun _ => Steady.pure _

/-- An alphabet that is read can be stored again. -/
lemma gives_read : Gives read Storable := by
  refine gives_readNat.bind fun count hcount => ?_
  split
  · exact Gives.throw _ _
  · rename_i hreserved
    refine (gives_readSymbols 0 count).bind fun symbols hsymbols => Gives.pure ?_
    obtain ⟨rfl, hsound⟩ := hsymbols
    have hdrop : ∀ symbol ∈ symbols.drop reserved.length,
        ∃ number, reserved.length ≤ number ∧ Sound number symbol := by
      intro symbol hsymbol
      obtain ⟨index, hindex⟩ := List.mem_iff_getElem?.1 hsymbol
      rw [List.getElem?_drop] at hindex
      refine ⟨reserved.length + index, Nat.le_add_right _ _, hsound (symbol, _) ?_⟩
      rw [List.mem_zipIdx_iff_getElem?]
      simpa using hindex
    refine ⟨?_, fun symbol hsymbol => ?_, fun symbol hsymbol => ?_⟩
    · show reserved.length + (symbols.drop reserved.length).length < twoTo 64
      rw [List.length_drop]
      omega
    · obtain ⟨number, -, hsymbol⟩ := hdrop symbol hsymbol
      exact hsymbol.spelling
    · obtain ⟨number, hnumber, hsymbol⟩ := hdrop symbol hsymbol
      exact (symbolProblem?_eq_none hnumber symbol).1 hsymbol.problem

end LexicalSelection.Alphabet
