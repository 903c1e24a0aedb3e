import LexicalSelection.Codec.Real
import LexicalSelection.Proofs.Codec.Numbers
import LexicalSelection.Proofs.Number.Rounding

/-!
# Stored real numbers

* `Binary64.dropZeroSign` — a number, with the positive zero in place of the negative one.
* **`assemble_eq_encode`** — the two products by which a number is put together are exact.
* **`takes_readReal`** — a number is read back bit for bit but for the sign of zero.
-/

namespace LexicalSelection

namespace Binary64

/-- The number itself, but the positive zero for the negative one. -/
def dropZeroSign (x : Binary64) : Binary64 := if x = negativeZero then 0 else x

variable {m m' : Nat} {e e' : Int}

/-- A product with a power of two is exact when it can be held. -/
lemma timesPowerOfTwo_encode (negative : Bool) (hnormal : Normal m e) (hm : 0 < m) {k : Int}
    (hlower : -1024 < k) (hupper : k < 1024) (hnormal' : Normal m' e') (hm' : 0 < m')
    (h : value m' e' = value m (e + k)) :
    (encode negative m e).timesPowerOfTwo k = encode negative m' e' := by
  rw [timesPowerOfTwo, scaled?_encode negative hnormal]
  simp only
  rw [if_neg hm.ne', if_neg (by omega), if_neg (by omega)]
  exact ofScaled_eq_encode negative hnormal' hm' h.symm

lemma signedInt_lt_zero (negative : Bool) (hm : 0 < m) :
    decide (signedInt negative m < 0) = negative := by
  cases negative with
  | false => simp [signedInt]
  | true => simpa [signedInt] using hm

lemma natAbs_signedInt (negative : Bool) (m : Nat) : (signedInt negative m).natAbs = m := by
  cases negative <;> simp [signedInt]

end Binary64

namespace Codec

open Decoding Binary64

variable {m m' : Nat} {e e' : Int}

/-- Halving an even number as often as possible loses nothing. -/
lemma oddPart_spec (m : Nat) (e : Int) (hm : 0 < m) :
    0 < (oddPart m e).1 ∧ e ≤ (oddPart m e).2 ∧
      (oddPart m e).1 * twoTo ((oddPart m e).2 - e).toNat = m := by
  induction m, e using oddPart.induct with
  | case1 m e heven ih =>
      obtain ⟨hpos, hle, hvalue⟩ := ih (by omega)
      rw [oddPart, if_pos heven]
      refine ⟨hpos, by omega, ?_⟩
      have hstep : ((oddPart (m / 2) (e + 1)).2 - e).toNat
          = ((oddPart (m / 2) (e + 1)).2 - (e + 1)).toNat + 1 := by
        omega
      rw [hstep, twoTo_add, ← Nat.mul_assoc, hvalue, show twoTo 1 = 2 from rfl]
      omega
  | case2 m e hodd =>
      rw [oddPart, if_neg hodd]
      exact ⟨hm, le_refl e, by simp [twoTo]⟩

/-- The odd part with its exponent has the same value. -/
lemma value_oddPart (hm : 0 < m) : value (oddPart m e).1 (oddPart m e).2 = value m e := by
  obtain ⟨-, hle, hvalue⟩ := oddPart_spec m e hm
  obtain ⟨k, hk⟩ := Int.eq_ofNat_of_zero_le (Int.sub_nonneg_of_le hle)
  have hsecond : (oddPart m e).2 = k + e := by omega
  rw [hk, Int.toNat_natCast] at hvalue
  rw [hsecond, value, value, zpow_add₀ two_ne_zero, ← mul_assoc, zpow_natCast]
  congr 1
  exact_mod_cast hvalue

/-- The odd part of what a number holds stays in range. -/
lemma oddPart_bounds (hnormal : Normal m e) (hm : 0 < m) :
    (oddPart m e).1 < 2 * leadingUnit ∧ -1074 ≤ (oddPart m e).2 ∧ (oddPart m e).2 ≤ 1023 := by
  obtain ⟨hpos, hle, hvalue⟩ := oddPart_spec m e hm
  obtain ⟨hlt, hleast, hlargest, -⟩ := hnormal
  refine ⟨?_, hleast.trans hle, ?_⟩
  · refine lt_of_le_of_lt ?_ hlt
    calc (oddPart m e).1 ≤ (oddPart m e).1 * twoTo ((oddPart m e).2 - e).toNat :=
          Nat.le_mul_of_pos_right _ (Nat.two_pow_pos _)
      _ = m := hvalue
  · have hpower : twoTo ((oddPart m e).2 - e).toNat < twoTo 53 := by
      calc twoTo ((oddPart m e).2 - e).toNat
          ≤ (oddPart m e).1 * twoTo ((oddPart m e).2 - e).toNat := Nat.le_mul_of_pos_left _ hpos
        _ = m := hvalue
        _ < twoTo 53 := hlt
    have hexponent := (Nat.pow_lt_pow_iff_right (by decide)).1 hpower
    omega

/-- **The two products are exact.**  A whole number of 53 bits and an exponent that come from a
number are put together to this number: half of the exponent leaves it within range. -/
lemma assemble_eq_encode (negative : Bool) (hnormal : Normal m e) (hm : 0 < m) (hm' : 0 < m')
    (hlt : m' < 2 * leadingUnit) (hleast : -1074 ≤ e') (hlargest : e' ≤ 1023)
    (h : value m' e' = value m e) :
    assemble (signedInt negative m') e' = encode negative m e := by
  have hbounds : e' - 1 ≤ 2 * e'.tdiv 2 ∧ 2 * e'.tdiv 2 ≤ e' + 1 := by
    rw [Int.tdiv_eq_ediv]
    split
    · omega
    · rw [show Int.sign 2 = 1 from rfl]
      omega
  obtain ⟨m₀, e₀, hnormal₀, hm₀, hvalue₀⟩ :=
    exists_normal_value hm' hlt (by omega : (-1074 : Int) ≤ 0) (by omega)
  obtain ⟨m₁, e₁, hnormal₁, hm₁, hvalue₁⟩ :=
    exists_normal_value hm' hlt (by omega : -1074 ≤ e'.tdiv 2) (by omega)
  have hwhole : ofRatio negative m' 1 = encode negative m₀ e₀ := by
    refine ofRatio_eq_encode negative hnormal₀ hm₀ Nat.one_pos ?_
    rw [hvalue₀, value, zpow_zero, Nat.cast_one, div_one, mul_one]
  have hhalf : (encode negative m₀ e₀).timesPowerOfTwo (e'.tdiv 2) = encode negative m₁ e₁ := by
    refine timesPowerOfTwo_encode negative hnormal₀ hm₀ (by omega) (by omega) hnormal₁ hm₁ ?_
    rw [hvalue₁, ← value_mul_two_zpow, hvalue₀, value_mul_two_zpow, Int.zero_add]
  rw [assemble, signedInt_lt_zero negative hm', natAbs_signedInt, hwhole]
  simp only [hhalf]
  refine timesPowerOfTwo_encode negative hnormal₁ hm₁ (by omega) (by omega) hnormal hm ?_
  rw [← h, ← value_mul_two_zpow, hvalue₁, value_mul_two_zpow]
  congr 1
  omega

lemma foldInt_signedInt_lt (negative : Bool) (hlt : m < 2 * leadingUnit) :
    foldInt (signedInt negative m) < twoTo 64 := by
  have hword : twoTo 64 = 18446744073709551616 := rfl
  have hunit : leadingUnit = 4503599627370496 := rfl
  rw [foldInt, natAbs_signedInt]
  split <;> omega

/-- Small integers are folded to 64 bits. -/
lemma foldInt_lt {z : Int} (hlower : -2000 ≤ z) (hupper : z ≤ 2000) : foldInt z < twoTo 64 := by
  have hword : twoTo 64 = 18446744073709551616 := rfl
  rw [foldInt]
  split <;> omega

lemma takes_mark {z : Int} (hlower : 0 ≤ z) (hupper : z ≤ 1) : Takes readInt (writeInt z) z :=
  takes_readInt (foldInt_lt (by omega) (by omega))

/-- Numbers that are not finite are written by their bits. -/
lemma takes_readReal_bits (x : Binary64) :
    Takes readReal (writeInt 0 ++ (writeInt 1 ++ writeNat x.bits.toNat)) x := by
  have hread := (takes_readNat x.bits.toNat_lt).bind_pure
    fun n => (⟨UInt64.ofNat n⟩ : Binary64)
  rw [UInt64.ofNat_toNat] at hread
  exact (takes_mark (le_refl 0) (by omega)).bind
    ((takes_mark (by omega) (le_refl 1)).bind hread)

lemma takes_readReal_zero : Takes readReal (writeInt 0 ++ writeInt 0) 0 :=
  have hread := takes_mark (le_refl 0) (by omega)
  hread.bind (hread.bind_nil (Takes.pure 0))

/-- Numbers that are finite and not zero are put together again. -/
lemma takes_readReal_finite (negative : Bool) (hnormal : Normal m e) (hm : 0 < m) :
    Takes readReal (writeInt (signedInt negative (oddPart m e).1) ++ writeInt (oddPart m e).2)
      (encode negative m e) := by
  obtain ⟨hlt, hleast, hlargest⟩ := oddPart_bounds hnormal hm
  obtain ⟨hodd, -, -⟩ := oddPart_spec m e hm
  have hsigned : signedInt negative (oddPart m e).1 ≠ 0 := by
    intro hzero
    have habs := natAbs_signedInt negative (oddPart m e).1
    rw [hzero] at habs
    exact hodd.ne habs
  refine (takes_readInt (foldInt_signedInt_lt negative hlt)).bind
    ((takes_readInt (foldInt_lt (by omega) (by omega))).bind_nil ?_)
  rw [if_neg hsigned, if_pos (by omega),
    assemble_eq_encode negative hnormal hm hodd hlt hleast hlargest (value_oddPart hm)]
  exact Takes.pure _

/-- **A number is read back**, bit for bit but for the sign of zero. -/
lemma takes_readReal (x : Binary64) : Takes readReal (writeReal x) x.dropZeroSign := by
  rw [writeReal]
  cases hx : x.scaled? with
  | none =>
      rw [dropZeroSign, if_neg (ne_negativeZero_of_scaled?_none hx), List.append_assoc]
      exact takes_readReal_bits x
  | some form =>
      obtain ⟨negative, m, e⟩ := form
      obtain ⟨hnormal, rfl⟩ := eq_encode_of_scaled? hx
      simp only
      split
      · -- zero, whose sign is lost
        rename_i hm
        subst hm
        obtain rfl : e = -1074 := hnormal.leading.resolve_left (by decide)
        have hzero : (encode negative 0 (-1074)).dropZeroSign = 0 := by
          cases negative <;> decide
        rw [hzero]
        exact takes_readReal_zero
      · rename_i hm
        have hne : encode negative m e ≠ negativeZero := by
          intro hzero
          rw [hzero, scaled?_negativeZero] at hx
          cases hx
          exact hm rfl
        rw [dropZeroSign, if_neg hne]
        exact takes_readReal_finite negative hnormal (Nat.pos_of_ne_zero hm)

lemma steady_readReal : Steady readReal := by
  refine steady_readInt.bind fun m => steady_readInt.bind fun e => ?_
  split
  · split
    · exact steady_readNat.bind fun _ => Steady.pure _
    · exact Steady.pure _
  · split
    · exact Steady.pure _
    · exact Steady.throw _

end Codec

end LexicalSelection
