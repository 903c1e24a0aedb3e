import LexicalSelection.Codec.Text
import LexicalSelection.Codec.Word
import LexicalSelection.Proofs.Codec.Decoding
import LexicalSelection.Proofs.Codec.Numeral
import LexicalSelection.Proofs.Text.Utf8

/-!
# Stored integers, words and texts

* `takesAll_readNat`, `takes_readInt`, `takesAll_readWord`, `takesAll_readText` — what is written is
  read back when it fits.
* `gives_readNat`, `gives_readWord`, `gives_readText` — what is read fits.
-/

namespace LexicalSelection.Codec

open Decoding

/-! ## Natural numbers -/

/-- A natural number of 64 bits is read back. -/
lemma takes_readNat {n : Nat} (h : n < twoTo 64) : Takes readNat (writeNat n) n :=
  fun rest => readNat_eq_ok_iff.2 (holds_writeNat h rest)

/-- A natural number of 64 bits is read back, and nothing less than all of its bytes. -/
lemma takesAll_readNat {n : Nat} (h : n < twoTo 64) : TakesAll readNat (writeNat n) n where
  takes := takes_readNat h
  misses _ hcut hne := readNat_of_unfinished
    ((isNumeral_writeNat n).unfinished (length_writeNat_le 9 (h.trans (by decide))) hcut hne)

lemma steady_readNat : Steady readNat := by
  intro bytes n rest more h
  obtain ⟨numeral, rfl, hnumeral⟩ := readNat_eq_ok_iff.1 h
  exact readNat_eq_ok_iff.2 ⟨numeral, List.append_assoc _ _ _, hnumeral⟩

/-- Only numbers of 64 bits are read. -/
lemma gives_readNat : Gives readNat (· < twoTo 64) := by
  intro bytes n rest h
  obtain ⟨_, _, _, _, _, hfits⟩ := readNat_eq_ok_iff.1 h
  exact hfits

/-! ## Integers -/

/-- An integer is found again in the natural number that it was folded to. -/
lemma unfoldInt_foldInt (z : Int) : unfoldInt (foldInt z) = z := by
  rw [unfoldInt, foldInt]
  split <;> split <;> omega

/-- An integer that was folded to 64 bits is read back. -/
lemma takes_readInt {z : Int} (h : foldInt z < twoTo 64) : Takes readInt (writeInt z) z := by
  have hread := (takes_readNat h).bind_pure unfoldInt
  rw [unfoldInt_foldInt] at hread
  exact hread

lemma steady_readInt : Steady readInt := steady_readNat.bind fun _ => Steady.pure _

/-! ## Words -/

/-- A word has its size. -/
lemma length_writeWord (size n : Nat) : (writeWord size n).length = size := by
  induction size generalizing n with
  | zero => rfl
  | succ size ih => rw [writeWord, List.length_cons, ih]

/-- A number is found again in a word that has room for it. -/
lemma ofWord_writeWord {size n : Nat} (h : n < 256 ^ size) : ofWord (writeWord size n) = n := by
  induction size generalizing n with
  | zero =>
      rw [Nat.pow_zero] at h
      rw [writeWord, ofWord]
      omega
  | succ size ih =>
      have hrest : n / 256 < 256 ^ size := by
        rw [Nat.pow_succ] at h
        omega
      rw [writeWord, ofWord, ih hrest, UInt8.toNat_ofNat']
      omega

/-- A word holds no number that it has no room for. -/
lemma ofWord_lt (bytes : Bytes) : ofWord bytes < 256 ^ bytes.length := by
  induction bytes with
  | nil => exact Nat.one_pos
  | cons b bytes ih =>
      have hb : b.toNat < 256 := b.toNat_lt
      rw [ofWord, List.length_cons, Nat.pow_succ]
      omega

/-- A word is read back, and nothing less than all of its bytes. -/
lemma takesAll_readWord {size n : Nat} (h : n < 256 ^ size) :
    TakesAll (readWord size) (writeWord size n) n := by
  have hread := (takesAll_exactly (writeWord size n)).bind_pure ofWord
  rw [length_writeWord, ofWord_writeWord h] at hread
  exact hread

lemma steady_readWord (size : Nat) : Steady (readWord size) :=
  (steady_exactly size).bind fun _ => Steady.pure _

lemma gives_readWord (size : Nat) : Gives (readWord size) (· < 256 ^ size) :=
  (gives_exactly size).bind fun bytes hlength => Gives.pure (hlength ▸ ofWord_lt bytes)

/-! ## Texts -/

/-- A text is read back, and nothing less than all of its bytes. -/
lemma takesAll_readText {text : Text} (h : text.utf8.length < twoTo 64) :
    TakesAll readText (writeText text) text := by
  refine (takesAll_readNat h).bind ((takesAll_exactly text.utf8).bind_nil ?_)
  rw [Utf8.decode?_utf8]
  exact TakesAll.pure text

lemma steady_readText : Steady readText := by
  refine steady_readNat.bind fun count => (steady_exactly count).bind fun bytes => ?_
  split
  · exact Steady.pure _
  · exact Steady.throw _

/-- The bytes of a text that is read can be counted in 64 bits. -/
lemma gives_readText : Gives readText (·.utf8.length < twoTo 64) := by
  refine gives_readNat.bind fun count hcount => (gives_exactly count).bind fun bytes hlength => ?_
  split
  · rename_i text htext
    refine Gives.pure ?_
    rw [Utf8.utf8_of_decode? htext, hlength]
    exact hcount
  · exact Gives.throw _ _

end LexicalSelection.Codec
