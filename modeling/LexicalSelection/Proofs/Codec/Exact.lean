import LexicalSelection.Proofs.Codec.Real
import Mathlib.Algebra.Ring.Parity

/-!
# Stored real numbers are exact

A finite number stands for a rational one, which its fields give.  What is stored of it is the one
way to write this rational number as an odd whole number and a power of two, so the bytes and the
value determine each other.

* `Binary64.toRat` — the value of a finite number, by its fields.
* `writeReal_of_finite` — what is stored of a finite number has just its value.
* `eq_of_odd_mul` — there is only one odd form of a value.
* **`writeReal_exact`** — what is stored can be read back, stands for the value exactly, and is the
  same only for the same value.
-/

namespace LexicalSelection

namespace Binary64

/-! ## Values -/

/-- The field of the exponent. -/
def exponentField (x : Binary64) : Nat := x.magnitude / leadingUnit

/-- The field of the fraction. -/
def fractionField (x : Binary64) : Nat := x.magnitude % leadingUnit

/-- The rational number that a finite number stands for.  The leading bit that the fraction leaves
out is there unless the exponent field is 0. -/
def toRat (x : Binary64) : ℚ :=
  (if x.negative then -1 else 1) *
    if x.exponentField = 0 then x.fractionField * (2 : ℚ) ^ (-1074 : ℤ)
    else (2 ^ 52 + x.fractionField) * (2 : ℚ) ^ ((x.exponentField : ℤ) - 1075)

variable {x y : Binary64} {negative : Bool} {m : Nat} {e : Int}

lemma toRat_eq (h : x.scaled? = some (negative, m, e)) :
    x.toRat = signedInt negative m * (2 : ℚ) ^ e := by
  have hunit : leadingUnit = 4503599627370496 := rfl
  obtain ⟨-, hfields⟩ := Option.ite_none_right_eq_some.1 h
  obtain ⟨rfl, hform⟩ := Prod.mk.inj (Option.some.inj hfields)
  have hsign : ∀ r : ℚ, (if x.negative then -1 else 1) * (m * r) = signedInt x.negative m * r := by
    intro r
    cases x.negative <;> simp [signedInt]
  rw [toRat, exponentField, fractionField]
  rw [unscale] at hform
  split at hform
  · rename_i hsmall
    obtain ⟨rfl, rfl⟩ := Prod.mk.inj hform
    rw [if_pos (Nat.div_eq_of_lt hsmall), Nat.mod_eq_of_lt hsmall, hsign]
  · rename_i hlarge
    obtain ⟨hm, rfl⟩ := Prod.mk.inj hform
    have hfield : x.magnitude / leadingUnit ≠ 0 := by
      rw [hunit] at hlarge ⊢
      omega
    have hleading : (2 ^ 52 + (x.magnitude % leadingUnit : Nat) : ℚ) = m := by
      rw [← hm, hunit]
      push_cast
      norm_num
    rw [if_neg hfield, hleading, hsign]

/-- Two numbers that differ by the sign of zero at most. -/
lemma eq_of_dropZeroSign (h : y.dropZeroSign = x.dropZeroSign) :
    y = x ∨ y.magnitude = 0 ∧ x.magnitude = 0 := by
  rw [dropZeroSign, dropZeroSign] at h
  split at h <;> split at h <;> rename_i hy hx
  · exact Or.inl (hy.trans hx.symm)
  · exact Or.inr ⟨hy ▸ rfl, h ▸ rfl⟩
  · exact Or.inr ⟨h ▸ rfl, hx ▸ rfl⟩
  · exact Or.inl h

lemma isFinite_iff : x.isFinite = true ↔ ∃ form, x.scaled? = some form := by
  rw [scaled?]
  cases x.isFinite <;> simp

/-- Only the zeros have no bit but the sign. -/
lemma magnitude_encode (hnormal : Normal m e) : (encode negative m e).magnitude = 0 ↔ m = 0 := by
  have hsign := hnormal.magnitude_lt.trans infinite_lt_signUnit
  rw [encode, magnitude_ofMagnitude _ hsign]
  constructor
  · intro h
    omega
  · rintro rfl
    obtain rfl : e = -1074 := hnormal.leading.resolve_left (by decide)
    rfl

end Binary64

namespace Codec

open Decoding Binary64

variable {x y : Binary64} {negative : Bool} {m : Nat} {e : Int}

/-! ## Odd forms -/

lemma odd_oddPart (m : Nat) (e : Int) (hm : 0 < m) : Odd (oddPart m e).1 := by
  induction m, e using oddPart.induct with
  | case1 m e heven ih =>
      rw [oddPart, if_pos heven]
      exact ih (by omega)
  | case2 m e hodd =>
      rw [oddPart, if_neg hodd]
      exact Nat.odd_iff.2 (by omega)

lemma odd_signedInt (negative : Bool) (hm : Odd m) : Odd (signedInt negative m) := by
  have hodd : Odd (m : ℤ) := by exact_mod_cast hm
  cases negative with
  | false => exact hodd
  | true => exact hodd.neg

/-- **There is only one odd form of a value.**  Of two exponents the larger one would leave a factor
of two to the number beside the smaller one. -/
lemma eq_of_odd_mul {m m' e e' : ℤ} (hm : Odd m) (hm' : Odd m')
    (h : (m : ℚ) * 2 ^ e = m' * 2 ^ e') : m = m' ∧ e = e' := by
  have hle : ∀ {m m' e e' : ℤ}, Odd m → (m : ℚ) * 2 ^ e = m' * 2 ^ e' → e' ≤ e := by
    intro m m' e e' hm h
    by_contra hlt
    obtain ⟨k, hk⟩ := Int.eq_ofNat_of_zero_le (by omega : 0 ≤ e' - e - 1)
    obtain rfl : e' = e + (k + 1 : Nat) := by
      push_cast
      omega
    rw [zpow_add₀ two_ne_zero, zpow_natCast, mul_left_comm, mul_comm (m : ℚ),
      mul_right_inj' (zpow_ne_zero e two_ne_zero)] at h
    have hwhole : m = m' * 2 ^ (k + 1) := by exact_mod_cast h
    have heven : Even m := hwhole ▸ (even_two.pow_of_ne_zero k.succ_ne_zero).mul_left m'
    exact (Int.not_even_iff_odd.2 hm) heven
  obtain rfl : e = e' := le_antisymm (hle hm' h.symm) (hle hm h)
  have hcancel := mul_right_cancel₀ (zpow_ne_zero e two_ne_zero) h
  exact ⟨by exact_mod_cast hcancel, rfl⟩

/-! ## What is stored -/

lemma writeReal_of_zero (h : x.scaled? = some (negative, 0, e)) :
    writeReal x = writeInt 0 ++ writeInt 0 := by
  rw [writeReal, h]
  rfl

/-- What is stored of a finite number other than zero has just its value. -/
lemma writeReal_of_finite (hfinite : x.isFinite = true) (hne : x.magnitude ≠ 0) :
    ∃ m e : ℤ, Odd m ∧ |m| < 2 ^ 53 ∧ -1074 ≤ e ∧ e ≤ 1023 ∧
      (m : ℚ) * 2 ^ e = x.toRat ∧ writeReal x = writeInt m ++ writeInt e := by
  obtain ⟨⟨negative, m, e⟩, hform⟩ := isFinite_iff.1 hfinite
  obtain ⟨hnormal, hx⟩ := eq_encode_of_scaled? hform
  have hm : m ≠ 0 := fun hzero => hne (hx ▸ (magnitude_encode hnormal).2 hzero)
  have hpos : 0 < m := Nat.pos_of_ne_zero hm
  obtain ⟨hlt, hleast, hlargest⟩ := oddPart_bounds hnormal hpos
  refine ⟨signedInt negative (oddPart m e).1, (oddPart m e).2,
    odd_signedInt negative (odd_oddPart m e hpos), ?_, hleast, hlargest, ?_, ?_⟩
  · rw [Int.abs_eq_natAbs, natAbs_signedInt]
    exact_mod_cast hlt
  · have hvalue := value_oddPart (e := e) hpos
    rw [toRat_eq hform]
    rw [value, value] at hvalue
    cases negative with
    | false => exact hvalue
    | true =>
        simp only [signedInt, if_true, Int.cast_neg, neg_mul, neg_inj]
        exact hvalue
  · rw [writeReal, hform]
    simp only
    rw [if_neg hm]

/-- Equal bytes with anything behind them are read as the same number. -/
lemma eq_of_writeReal_append {rest rest' : Bytes} (h : writeReal y ++ rest' = writeReal x ++ rest) :
    y.dropZeroSign = x.dropZeroSign ∧ rest' = rest := by
  have hx := takes_readReal x rest
  have hy := takes_readReal y rest'
  rw [h, hx, Except.ok.injEq, Prod.mk.injEq] at hy
  exact ⟨hy.1.symm, hy.2.symm⟩

lemma toRat_of_zero (hfinite : x.isFinite = true) (hzero : x.magnitude = 0) :
    x.toRat = 0 ∧ writeReal x = writeInt 0 ++ writeInt 0 := by
  obtain ⟨⟨negative, m, e⟩, hform⟩ := isFinite_iff.1 hfinite
  obtain ⟨hnormal, hx⟩ := eq_encode_of_scaled? hform
  obtain rfl : m = 0 := (magnitude_encode hnormal).1 (hx ▸ hzero)
  refine ⟨?_, writeReal_of_zero hform⟩
  rw [toRat_eq hform]
  cases negative <;> simp [signedInt]

lemma toRat_ne_zero (hfinite : x.isFinite = true) (hne : x.magnitude ≠ 0) : x.toRat ≠ 0 := by
  obtain ⟨m, e, hm, -, -, -, hvalue, -⟩ := writeReal_of_finite hfinite hne
  rw [← hvalue]
  refine mul_ne_zero (Int.cast_ne_zero.2 ?_) (zpow_ne_zero e two_ne_zero)
  rintro rfl
  exact absurd hm (by decide)

lemma toRat_dropZeroSign (x : Binary64) : x.dropZeroSign.toRat = x.toRat := by
  rw [dropZeroSign]
  split
  · rename_i hzero
    rw [hzero, (toRat_of_zero (x := 0) (by decide) (by decide)).1,
      (toRat_of_zero (x := negativeZero) (by decide) (by decide)).1]
  · rfl

/-- **Bytes and values determine each other.** -/
lemma writeReal_eq_iff (hx : x.isFinite = true) (hy : y.isFinite = true) :
    writeReal x = writeReal y ↔ x.toRat = y.toRat := by
  constructor
  · intro h
    have hsame := (eq_of_writeReal_append (congrArg (· ++ []) h)).1
    rw [← toRat_dropZeroSign x, hsame, toRat_dropZeroSign]
  · intro h
    by_cases hzero : x.magnitude = 0
    · obtain ⟨hvalue, hbytes⟩ := toRat_of_zero hx hzero
      have hzero' : y.magnitude = 0 := by
        by_contra hne
        exact toRat_ne_zero hy hne (h.symm.trans hvalue)
      rw [hbytes, (toRat_of_zero hy hzero').2]
    · obtain ⟨m, e, hm, -, -, -, hvalue, hbytes⟩ := writeReal_of_finite hx hzero
      have hzero' : y.magnitude ≠ 0 := by
        intro hzero'
        exact toRat_ne_zero hx hzero (h.trans (toRat_of_zero hy hzero').1)
      obtain ⟨m', e', hm', -, -, -, hvalue', hbytes'⟩ := writeReal_of_finite hy hzero'
      obtain ⟨rfl, rfl⟩ := eq_of_odd_mul hm hm' (hvalue.trans (h.trans hvalue'.symm))
      rw [hbytes, hbytes']

/-- **Stored real numbers are exact.**  Whatever lies behind the bytes of a number, just they are
read back: as the number itself, bit for bit, but the negative zero as the positive one.  The bytes
of a finite number other than zero are those of an odd whole number and of an exponent, which make
up its value exactly.  No beginning of bytes stands for two numbers, unless for the two zeros, and
finite numbers have the same bytes just when they have the same value. -/
theorem writeReal_exact (x : Binary64) (rest : Bytes) :
    readReal (writeReal x ++ rest) = .ok (if x = negativeZero then 0 else x, rest) ∧
    (x.isFinite = true → x.magnitude ≠ 0 → ∃ m e : ℤ, Odd m ∧ |m| < 2 ^ 53 ∧ -1074 ≤ e ∧ e ≤ 1023 ∧
      (m : ℚ) * 2 ^ e = x.toRat ∧ writeReal x = writeInt m ++ writeInt e) ∧
    (∀ y rest', writeReal y ++ rest' = writeReal x ++ rest →
      (y = x ∨ y.magnitude = 0 ∧ x.magnitude = 0) ∧ rest' = rest) ∧
    ∀ y, x.isFinite = true → y.isFinite = true →
      (writeReal x = writeReal y ↔ x.toRat = y.toRat) := by
  refine ⟨takes_readReal x rest, writeReal_of_finite, fun y rest' h => ?_,
    fun y hx hy => writeReal_eq_iff hx hy⟩
  obtain ⟨hsame, hrest⟩ := eq_of_writeReal_append h
  exact ⟨eq_of_dropZeroSign hsame, hrest⟩

/-- The third number below zero has no leading bit, and a number that is none has a payload. -/
theorem writeReal_exact_subnormal :
    let x : Binary64 := ⟨0x8000000000000003⟩
    let y : Binary64 := ⟨0xFFF0000000000005⟩
    x.isFinite = true ∧ x.magnitude ≠ 0 ∧ x.toRat = (-3 : ℤ) * (2 : ℚ) ^ (-1074 : ℤ) ∧
      readReal (writeReal x ++ [7]) = .ok (x, [7]) ∧
      writeReal x = writeInt (-3) ++ writeInt (-1074) ∧
      y.isNaN = true ∧ readReal (writeReal y ++ [7]) = .ok (y, [7]) := by
  intro x y
  have hfinite : x.isFinite = true := by decide
  have hne : x.magnitude ≠ 0 := by decide
  have hscaled : x.scaled? = some (true, 3, -1074) := by decide
  have hvalue : x.toRat = (-3 : ℤ) * (2 : ℚ) ^ (-1074 : ℤ) := toRat_eq hscaled
  obtain ⟨hread, hform, -⟩ := writeReal_exact x [7]
  obtain ⟨m, e, hm, -, -, -, hsame, hbytes⟩ := hform hfinite hne
  obtain ⟨rfl, rfl⟩ := eq_of_odd_mul hm (by decide) (hsame.trans hvalue)
  exact ⟨hfinite, hne, hvalue, hread, hbytes, by decide, (writeReal_exact y [7]).1⟩

end Codec

end LexicalSelection
