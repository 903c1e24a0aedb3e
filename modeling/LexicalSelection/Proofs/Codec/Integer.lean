import LexicalSelection.Proofs.Codec.Numbers

/-!
# Stored integers, in words of the machine

Natural numbers and integers are stored by what they are.  A machine of 64 bits comes to the same
numbers by shifts of its words: no digit of a numeral that is read loses a bit, and the sign of an
integer moves to the lowest bit and back, also at both ends of the range.

* `shiftIn` — the digits of a numeral, each shifted to its place.
* `zigzag`, `unzigzag` — an integer as a natural number, by shifts.
* `toNat_shiftIn`, `toNat_zigzag`, `toInt_unzigzag` — both come to the same.
* **`readNat_outcomes`** — what is read of every byte string, and what is written.
-/

namespace LexicalSelection.Codec

/-! ## Natural numbers -/

/-- The word with the digits of some more bytes in it, the first of them shifted by `shift`. -/
def shiftIn (shift : Nat) (word : UInt64) : Bytes → UInt64
  | [] => word
  | b :: rest =>
    shiftIn (shift + 7) (word ||| (b &&& 0x7F).toUInt64 <<< UInt64.ofNat shift) rest

variable {word : UInt64} {b : UInt8} {numeral : Bytes} {n places : Nat}

/-- A digit that is shifted behind the bits of a word is added to it, when it fits. -/
lemma toNat_or_digit (hword : word.toNat < twoTo (7 * places)) (hplaces : places ≤ 9)
    (hfits : b.toNat % 128 * twoTo (7 * places) < twoTo 64) :
    (word ||| (b &&& 0x7F).toUInt64 <<< UInt64.ofNat (7 * places)).toNat
      = word.toNat + b.toNat % 128 * twoTo (7 * places) := by
  have hdigit : (b &&& 0x7F).toUInt64.toNat = b.toNat % 128 := by
    rw [UInt8.toNat_toUInt64, UInt8.toNat_and]
    exact Nat.and_two_pow_sub_one_eq_mod b.toNat 7
  have hshift : (UInt64.ofNat (7 * places)).toNat % 64 = 7 * places := by
    rw [UInt64.toNat_ofNat']
    omega
  calc (word ||| (b &&& 0x7F).toUInt64 <<< UInt64.ofNat (7 * places)).toNat
      = word.toNat ||| b.toNat % 128 * 2 ^ (7 * places) % 2 ^ 64 := by
        rw [UInt64.toNat_or, UInt64.toNat_shiftLeft, hdigit, hshift, Nat.shiftLeft_eq]
    _ = 2 ^ (7 * places) * (b.toNat % 128) ||| word.toNat := by
        rw [Nat.mod_eq_of_lt (show b.toNat % 128 * 2 ^ (7 * places) < 2 ^ 64 from hfits),
          Nat.or_comm,
          Nat.mul_comm]
    _ = 2 ^ (7 * places) * (b.toNat % 128) + word.toNat :=
        (Nat.two_pow_add_eq_or_of_lt hword _).symm
    _ = word.toNat + b.toNat % 128 * twoTo (7 * places) := by
        rw [Nat.add_comm, Nat.mul_comm]
        rfl

/-- **No bit is lost.**  The shifted digits of a numeral that fits make up its value. -/
lemma toNat_shiftIn (hlength : places + numeral.length ≤ 10)
    (hword : word.toNat < twoTo (7 * places))
    (hfits : word.toNat + numeralValue numeral * twoTo (7 * places) < twoTo 64) :
    (shiftIn (7 * places) word numeral).toNat
      = word.toNat + numeralValue numeral * twoTo (7 * places) := by
  induction numeral generalizing places word with
  | nil => simp [shiftIn]
  | cons b numeral ih =>
      rw [List.length_cons] at hlength
      have hnext : twoTo (7 * (places + 1)) = 128 * twoTo (7 * places) := by
        rw [Nat.mul_succ, twoTo_add, Nat.mul_comm]
      have hvalue : numeralValue (b :: numeral) * twoTo (7 * places)
          = b.toNat % 128 * twoTo (7 * places)
            + numeralValue numeral * twoTo (7 * (places + 1)) := by
        rw [numeralValue_cons, hnext]
        ring
      -- With this digit the word stays below the place of the next one.
      have hdigit : b.toNat % 128 * twoTo (7 * places) ≤ 127 * twoTo (7 * places) :=
        Nat.mul_le_mul_right _ (by omega)
      have hor := toNat_or_digit (b := b) hword (by omega) (by omega)
      rw [shiftIn, show 7 * places + 7 = 7 * (places + 1) by ring,
        ih (by omega) (by omega) (by omega),
        hor, hvalue, Nat.add_assoc]

/-! ## Integers -/

/-- An integer of 64 bits as a natural number: all bits are shifted up, and turned round when the
sign says so. -/
def zigzag (z : Int64) : UInt64 := ((z <<< 1) ^^^ (z >>> 63)).toUInt64

/-- The integer of 64 bits that a natural number stands for. -/
def unzigzag (n : UInt64) : Int64 := (n >>> 1).toInt64 ^^^ -(n &&& 1).toInt64

lemma toInt_eq_toNat (z : Int64) :
    z.toInt = if 2 * z.toUInt64.toNat < 2 ^ 64 then (z.toUInt64.toNat : Int)
      else z.toUInt64.toNat - 2 ^ 64 :=
  BitVec.toInt_eq_toNat_cond z.toBitVec

/-- The shift down to the sign fills the word with it. -/
lemma shiftRight_sign (z : Int64) : z >>> 63 = if z.toInt < 0 then -1 else 0 := by
  have hlower := z.le_toInt
  have hupper := z.toInt_lt
  have hshift : (z >>> 63).toInt = z.toInt / 2 ^ 63 := by
    show (z.toBitVec.sshiftRight 63).toInt = _
    rw [BitVec.toInt_sshiftRight, Int.shiftRight_eq_div_pow]
    rfl
  refine Int64.toInt_inj.1 ?_
  rw [hshift]
  split
  · show _ = -1
    omega
  · show _ = 0
    omega

lemma toNat_shiftLeft_one (z : Int64) :
    (z <<< 1).toUInt64.toNat = 2 * z.toUInt64.toNat % 2 ^ 64 := by
  show (z.toBitVec <<< 1).toNat = _
  rw [BitVec.toNat_shiftLeft, Nat.shiftLeft_eq, Nat.mul_comm]
  rfl

lemma toNat_zigzag (z : Int64) : (zigzag z).toNat = foldInt z.toInt := by
  have hlt := z.toUInt64.toNat_lt
  have hint := toInt_eq_toNat z
  have hdouble := toNat_shiftLeft_one z
  have hsize : UInt64.size = 2 ^ 64 := rfl
  rw [zigzag, foldInt, shiftRight_sign]
  split
  · rw [Int64.xor_neg_one, Int64.toUInt64_not, UInt64.toNat_not, hdouble]
    split at hint <;> omega
  · rw [Int64.xor_zero, hdouble]
    split at hint <;> omega

lemma toInt_unzigzag (n : UInt64) : (unzigzag n).toInt = unfoldInt n.toNat := by
  have hlt := n.toNat_lt
  have hhalf : (n >>> 1).toNat = n.toNat / 2 := by
    rw [UInt64.toNat_shiftRight]
    exact Nat.shiftRight_eq_div_pow n.toNat 1
  have hint := toInt_eq_toNat (n >>> 1).toInt64
  rw [UInt64.toUInt64_toInt64, hhalf, if_pos (by omega)] at hint
  have hlow : (n &&& 1).toNat = n.toNat % 2 := by
    rw [UInt64.toNat_and]
    exact Nat.and_one_is_mod n.toNat
  rw [unzigzag, unfoldInt]
  split
  · rename_i heven
    have hzero : n &&& 1 = 0 := UInt64.toNat_inj.1 (by rw [hlow, heven]; rfl)
    rw [hzero]
    show ((n >>> 1).toInt64 ^^^ 0).toInt = _
    rw [Int64.xor_zero, hint]
  · rename_i hodd
    have hone : n &&& 1 = 1 := UInt64.toNat_inj.1 (by rw [hlow, Nat.mod_two_ne_zero.1 hodd]; rfl)
    rw [hone]
    show ((n >>> 1).toInt64 ^^^ -1).toInt = _
    rw [Int64.xor_neg_one, Int64.toInt_not, hint]
    refine Int.bmod_eq_of_le ?_ ?_ <;> omega

/-! ## All byte strings -/

/-- **What is read of every byte string, and what is written.**  A natural number is read just when
the byte string begins with a complete numeral of at most ten bytes for a number of 64 bits; it is
the value of the numeral, also as a word of the machine, and all behind the numeral is left.  A
number is found too large just when the tenth byte says so, or that there is an eleventh one, which
is there.  Nothing else but the end of the bytes stops reading.

What is written of a number is a numeral for it, and the only shortest one.  An integer of 64 bits
is written as the number that it is shifted to; with anything behind, it is read back. -/
theorem readNat_outcomes (bytes : Bytes) :
    (∀ n rest, readNat bytes = .ok (n, rest) ↔ Holds bytes n rest) ∧
    (∀ numeral n rest, bytes = numeral ++ rest → readNat bytes = .ok (n, rest) →
      numeralValue numeral = n ∧ (shiftIn 0 0 numeral).toNat = n) ∧
    (readNat bytes = .error .integerOverflow ↔ Overflows bytes) ∧
    (readNat bytes = .error .unexpectedEnd ↔
      (¬ ∃ n rest, Holds bytes n rest) ∧ ¬ Overflows bytes) ∧
    (∀ n : UInt64, Holds (writeNat n.toNat ++ bytes) n.toNat bytes ∧
      ∀ numeral, Holds numeral n.toNat [] →
        numeral = writeNat n.toNat ∨ (writeNat n.toNat).length < numeral.length) ∧
    ∀ z : Int64, writeInt z.toInt = writeNat (zigzag z).toNat ∧
      (unzigzag (zigzag z)).toInt = unfoldInt (zigzag z).toNat ∧
      readInt (writeInt z.toInt ++ bytes) = .ok (z.toInt, bytes) := by
  refine ⟨fun n rest => readNat_eq_ok_iff, ?_, readNat_eq_overflow_iff, readNat_eq_end_iff, ?_, ?_⟩
  · intro numeral n rest hbytes hread
    obtain ⟨numeral', hbytes', -, hlength, rfl, hfits⟩ := readNat_eq_ok_iff.1 hread
    obtain rfl : numeral = numeral' := List.append_cancel_right (hbytes.symm.trans hbytes')
    have hword : (shiftIn (7 * 0) 0 numeral).toNat
        = (0 : UInt64).toNat + numeralValue numeral * twoTo (7 * 0) :=
      toNat_shiftIn (by omega) (by simp) (by simpa using hfits)
    exact ⟨rfl, by simpa using hword⟩
  · intro n
    refine ⟨holds_writeNat n.toNat_lt bytes, fun numeral hholds => ?_⟩
    obtain ⟨numeral', hbytes, hnumeral, -, hvalue, -⟩ := hholds
    rw [List.append_nil] at hbytes
    subst hbytes
    rw [← hvalue]
    exact writeNat_shortest hnumeral
  · intro z
    have hfolded := toNat_zigzag z
    have hlt : foldInt z.toInt < twoTo 64 := hfolded ▸ (zigzag z).toNat_lt
    exact ⟨by rw [writeInt, hfolded], toInt_unzigzag (zigzag z), takes_readInt hlt bytes⟩

/-- A numeral may be longer than it need be.  Ten bytes that all say that more follows may yet be
the beginning of a number; behind them any byte is too much.  The least integer is read back. -/
theorem readNat_outcomes_padded :
    let padded : Bytes := [0xAC, 0x82, 0x80, 0x00]
    let tenHigh : Bytes := List.replicate 9 0xFF ++ [0x81]
    Holds padded 300 [] ∧ (writeNat 300).length < padded.length ∧
      readNat (padded ++ [7]) = .ok (300, [7]) ∧ (shiftIn 0 0 padded).toNat = 300 ∧
      readNat tenHigh = .error .unexpectedEnd ∧
      Overflows (tenHigh ++ [0]) ∧ readNat (tenHigh ++ [0]) = .error .integerOverflow ∧
      readInt (writeInt Int64.minValue.toInt ++ [7]) = .ok (Int64.minValue.toInt, [7]) := by
  intro padded tenHigh
  have hnumeral : IsNumeral padded :=
    .more (by decide) (.more (by decide) (.more (by decide) (.last (by decide))))
  have hholds : ∀ rest, Holds (padded ++ rest) 300 rest := fun rest =>
    ⟨padded, rfl, hnumeral, by decide, by decide, by decide⟩
  have hpadded : Holds padded 300 [] := hholds []
  obtain ⟨hread, hword, -⟩ := readNat_outcomes (padded ++ [7])
  have hseven : readNat (padded ++ [7]) = .ok (300, [7]) := (hread 300 [7]).2 (hholds [7])
  obtain ⟨-, -, -, -, hwrite, hint⟩ := readNat_outcomes [7]
  have hshortest := ((hwrite 300).2 padded hpadded).resolve_left (by decide +kernel)
  have hoverflows : Overflows (tenHigh ++ [0]) :=
    ⟨List.replicate 9 0xFF, 0x81, [0], rfl, rfl, by simp, .inr ⟨by simp, by simp⟩⟩
  refine ⟨hpadded, hshortest, hseven, (hword padded 300 [7] rfl hseven).2, by decide, hoverflows,
    ?_,
    (hint Int64.minValue).2.2⟩
  exact (readNat_outcomes (tenHigh ++ [0])).2.2.1.2 hoverflows

end LexicalSelection.Codec
