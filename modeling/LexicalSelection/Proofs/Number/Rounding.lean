import LexicalSelection.Number.Binary64
import Mathlib.Algebra.Order.Field.Power
import Mathlib.Algebra.Order.Ring.Rat
import Mathlib.Tactic.FieldSimp
import Mathlib.Tactic.Linarith
import Mathlib.Tactic.Ring

/-!
# Rounding to double precision

A finite number has just one form `m * 2 ^ e` in which its fields hold `m` and `e`.  Rounding finds
that form again, so what can be held is not changed by rounding, however it is written.

* `Normal`, `encode` — the forms that the fields hold, and the number that holds one.
* **`ofScaled_eq_encode`** — a product that has such a form is rounded to it.
* **`sum_ne_negativeZero`**, **`sum_negativeZero`** — a sum is the negative zero only when both
  parts are, and to other numbers it is no matter which of the two zeros is added.
-/

namespace LexicalSelection.Binary64

/-! ## Sign and magnitude -/

/-- A number has the sign that it was made with. -/
lemma negative_ofMagnitude (negative : Bool) {magnitude : Nat} (h : magnitude < signUnit) :
    (ofMagnitude negative magnitude).negative = negative := by
  cases negative with
  | false =>
      have hnat : (UInt64.ofNat magnitude).toNat = magnitude := by
        rw [UInt64.toNat_ofNat']
        exact Nat.mod_eq_of_lt (h.trans (by decide))
      simp only [Binary64.negative, ofMagnitude, Bool.false_eq_true, if_false, hnat]
      simpa using h
  | true =>
      have hnat : (UInt64.ofNat (signUnit + magnitude)).toNat = signUnit + magnitude := by
        rw [UInt64.toNat_ofNat']
        exact Nat.mod_eq_of_lt (Nat.add_lt_add_left h signUnit)
      simp only [Binary64.negative, ofMagnitude, if_true, hnat]
      simp

/-- A number has the magnitude that it was made with. -/
lemma magnitude_ofMagnitude (negative : Bool) {magnitude : Nat} (h : magnitude < signUnit) :
    (ofMagnitude negative magnitude).magnitude = magnitude := by
  rw [Binary64.magnitude, ofMagnitude, UInt64.toNat_ofNat']
  simp only [signUnit] at h ⊢
  split <;> omega

/-- A number is its sign and its magnitude. -/
lemma ofMagnitude_self (x : Binary64) : ofMagnitude x.negative x.magnitude = x := by
  obtain ⟨bits⟩ := x
  have hlt : bits.toNat < 18446744073709551616 := bits.toNat_lt
  rw [ofMagnitude, Binary64.negative, Binary64.magnitude]
  congr 1
  rw [← UInt64.toNat_inj, UInt64.toNat_ofNat']
  simp only [decide_eq_true_eq, signUnit]
  split <;> omega

/-! ## Forms of finite numbers -/

/-- The form in which the fields of a number hold `m * 2 ^ e`. -/
structure Normal (m : Nat) (e : Int) : Prop where
  lt : m < 2 * leadingUnit
  least_le : -1074 ≤ e
  le_largest : e ≤ 971
  leading : leadingUnit ≤ m ∨ e = -1074

/-- The number whose fields hold `m * 2 ^ e`. -/
def encode (negative : Bool) (m : Nat) (e : Int) : Binary64 :=
  ofMagnitude negative ((e + 1074).toNat * leadingUnit + m)

variable {m : Nat} {e : Int}

/-- What a form gives as a magnitude is below those of infinite numbers. -/
lemma Normal.magnitude_lt (h : Normal m e) :
    (e + 1074).toNat * leadingUnit + m < infinite := by
  obtain ⟨hlt, hleast, hlargest, -⟩ := h
  simp only [infinite, leadingUnit] at hlt ⊢
  omega

/-- The form is found again in its magnitude. -/
lemma Normal.unscale_eq (h : Normal m e) :
    unscale ((e + 1074).toNat * leadingUnit + m) = (m, e) := by
  obtain ⟨hlt, hleast, hlargest, hleading⟩ := h
  simp only [unscale, leadingUnit] at hlt hleading ⊢
  split
  · rename_i hsmall
    obtain rfl : e = -1074 := by omega
    simp
  · rename_i hlarge
    rw [Prod.mk.injEq]
    constructor <;> omega

/-- Each finite magnitude holds a form. -/
lemma normal_unscale {magnitude : Nat} (h : magnitude < infinite) :
    Normal (unscale magnitude).1 (unscale magnitude).2 := by
  have hunit : leadingUnit = 4503599627370496 := rfl
  rw [infinite] at h
  rw [unscale]
  split
  · exact ⟨by omega, le_refl _, by omega, Or.inr rfl⟩
  · rename_i hlarge
    rw [hunit] at h hlarge
    show Normal (0x10000000000000 + magnitude % 0x10000000000000)
      (((magnitude / 0x10000000000000 : Nat) : Int) - 1075)
    exact ⟨by omega, by omega, by omega, Or.inl (by omega)⟩

/-- The form in a finite magnitude gives that magnitude. -/
lemma magnitude_unscale {magnitude : Nat} (h : magnitude < infinite) :
    ((unscale magnitude).2 + 1074).toNat * leadingUnit + (unscale magnitude).1 = magnitude := by
  simp only [unscale, infinite, leadingUnit] at h ⊢
  split
  · simp
  · show (((magnitude / 0x10000000000000 : Nat) : Int) - 1075 + 1074).toNat * 0x10000000000000
      + (0x10000000000000 + magnitude % 0x10000000000000) = magnitude
    omega

lemma infinite_lt_signUnit : infinite < signUnit := by decide

/-- A number that holds a form is scaled as the form says. -/
lemma scaled?_encode (negative : Bool) (h : Normal m e) :
    (encode negative m e).scaled? = some (negative, m, e) := by
  have hlt := h.magnitude_lt
  have hsign := hlt.trans infinite_lt_signUnit
  rw [scaled?, isFinite, encode, magnitude_ofMagnitude _ hsign, negative_ofMagnitude _ hsign,
    if_pos (decide_eq_true hlt), h.unscale_eq]

/-- Each number that can be scaled holds a form. -/
lemma eq_encode_of_scaled? {x : Binary64} {negative : Bool}
    (h : x.scaled? = some (negative, m, e)) : Normal m e ∧ x = encode negative m e := by
  rw [scaled?] at h
  split at h
  · rename_i hfinite
    have hlt : x.magnitude < infinite := of_decide_eq_true hfinite
    obtain ⟨rfl, hform⟩ := Prod.mk.inj (Option.some.inj h)
    have hnormal := normal_unscale hlt
    have hmagnitude := magnitude_unscale hlt
    rw [hform] at hnormal hmagnitude
    refine ⟨hnormal, ?_⟩
    rw [encode, hmagnitude, ofMagnitude_self]
  · cases h

/-! ## Values -/

/-- The value of `m * 2 ^ e`. -/
def value (m : Nat) (e : Int) : ℚ := m * (2 : ℚ) ^ e

/-- A power of two moves into the exponent. -/
lemma value_mul_two_zpow (m : Nat) (e k : Int) : value m e * (2 : ℚ) ^ k = value m (e + k) := by
  rw [value, value, zpow_add₀ two_ne_zero, mul_assoc]

lemma value_pos (h : 0 < m) (e : Int) : 0 < value m e :=
  mul_pos (Nat.cast_pos.2 h) (zpow_pos two_pos e)

/-- Doubling the one part and lowering the exponent leaves the value. -/
lemma value_double (m : Nat) (e : Int) : value (2 * m) (e - 1) = value m e := by
  rw [value, value, zpow_sub_one₀ two_ne_zero]
  push_cast
  ring

/-- A power of two as a quotient of two whole ones. -/
lemma two_zpow_eq (e : Int) : (2 : ℚ) ^ e = (twoTo e.toNat : Nat) / (twoTo (-e).toNat : Nat) := by
  rcases le_total 0 e with h | h
  · obtain ⟨n, rfl⟩ := Int.eq_ofNat_of_zero_le h
    simp [twoTo]
  · obtain ⟨n, hn⟩ := Int.eq_ofNat_of_zero_le (Int.neg_nonneg_of_nonpos h)
    obtain rfl : e = -n := by omega
    simp [twoTo]

/-- Whether a quotient reaches a power of two can be told in natural numbers. -/
lemma two_zpow_le_iff (num den : Nat) (hden : 0 < den) (e : Int) :
    (2 : ℚ) ^ e ≤ (num : ℚ) / den ↔ den * twoTo e.toNat ≤ num * twoTo (-e).toNat := by
  have hpower : (0 : ℚ) < (twoTo (-e).toNat : Nat) := Nat.cast_pos.2 (Nat.two_pow_pos _)
  rw [two_zpow_eq, div_le_div_iff₀ hpower (Nat.cast_pos.2 hden)]
  norm_cast
  rw [Nat.mul_comm]

/-- The exponent of the largest power of two that is not above a quotient. -/
lemma floorLog2_spec {num den : Nat} (hnum : 0 < num) (hden : 0 < den) :
    (2 : ℚ) ^ floorLog2 num den ≤ (num : ℚ) / den ∧
      (num : ℚ) / den < (2 : ℚ) ^ (floorLog2 num den + 1) := by
  have hden' : (0 : ℚ) < den := Nat.cast_pos.2 hden
  have hnumLower : (2 : ℚ) ^ (Nat.log2 num : Int) ≤ num := by
    rw [zpow_natCast]
    exact_mod_cast Nat.log2_self_le hnum.ne'
  have hnumUpper : (num : ℚ) < (2 : ℚ) ^ ((Nat.log2 num : Int) + 1) := by
    have h : num < 2 ^ (Nat.log2 num + 1) := Nat.lt_log2_self
    exact_mod_cast h
  have hdenLower : (2 : ℚ) ^ (Nat.log2 den : Int) ≤ den := by
    rw [zpow_natCast]
    exact_mod_cast Nat.log2_self_le hden.ne'
  have hdenUpper : (den : ℚ) < (2 : ℚ) ^ ((Nat.log2 den : Int) + 1) := by
    have h : den < 2 ^ (Nat.log2 den + 1) := Nat.lt_log2_self
    exact_mod_cast h
  rw [floorLog2]
  generalize hguess : (Nat.log2 num : Int) - Nat.log2 den = guess
  split
  · rename_i hle
    refine ⟨(two_zpow_le_iff num den hden guess).2 hle, ?_⟩
    rw [div_lt_iff₀ hden']
    calc (num : ℚ) < (2 : ℚ) ^ ((Nat.log2 num : Int) + 1) := hnumUpper
      _ = (2 : ℚ) ^ (guess + 1) * (2 : ℚ) ^ (Nat.log2 den : Int) := by
          rw [← zpow_add₀ two_ne_zero]
          congr 1
          omega
      _ ≤ (2 : ℚ) ^ (guess + 1) * den :=
          mul_le_mul_of_nonneg_left hdenLower (zpow_pos two_pos _).le
  · rename_i hgt
    refine ⟨?_, ?_⟩
    · rw [le_div_iff₀ hden']
      calc (2 : ℚ) ^ (guess - 1) * den
          ≤ (2 : ℚ) ^ (guess - 1) * (2 : ℚ) ^ ((Nat.log2 den : Int) + 1) :=
            mul_le_mul_of_nonneg_left hdenUpper.le (zpow_pos two_pos _).le
        _ = (2 : ℚ) ^ (Nat.log2 num : Int) := by
            rw [← zpow_add₀ two_ne_zero]
            congr 1
            omega
        _ ≤ num := hnumLower
    · rw [sub_add_cancel]
      exact not_le.1 fun h => hgt ((two_zpow_le_iff num den hden guess).1 h)

/-! ## What can be held is not changed -/

/-- The exponent that rounding finds for a value is that of its form. -/
lemma unitExponent_eq {num den : Nat} (hnormal : Normal m e) (hnum : 0 < num)
    (hden : 0 < den) (h : (num : ℚ) / den = value m e) : unitExponent num den = e := by
  obtain ⟨hlt, hleast, -, hleading⟩ := hnormal
  obtain ⟨hlower, hupper⟩ := floorLog2_spec hnum hden
  rw [h, value] at hlower hupper
  have hpower : (0 : ℚ) < (2 : ℚ) ^ e := zpow_pos two_pos e
  -- the number has at most 53 bits, so its largest power of two is at most 52 above the unit
  have hle : floorLog2 num den ≤ e + 52 := by
    by_contra hgt
    have hbig : (2 : ℚ) ^ (53 + e) ≤ (2 : ℚ) ^ floorLog2 num den :=
      zpow_le_zpow_right₀ one_le_two (by omega)
    rw [zpow_add₀ two_ne_zero] at hbig
    have hm' : (m : ℚ) < (2 : ℚ) ^ (53 : Int) := by exact_mod_cast hlt
    exact absurd (hbig.trans hlower) (not_le.2 (mul_lt_mul_of_pos_right hm' hpower))
  rw [unitExponent]
  rcases hleading with hleading | rfl
  · have hge : e + 52 ≤ floorLog2 num den := by
      by_contra hlt
      have hsmall : (2 : ℚ) ^ (floorLog2 num den + 1) ≤ (2 : ℚ) ^ (52 + e) :=
        zpow_le_zpow_right₀ one_le_two (by omega)
      rw [zpow_add₀ two_ne_zero (52 : Int) e] at hsmall
      have hm' : (2 : ℚ) ^ (52 : Int) ≤ m := by exact_mod_cast hleading
      exact absurd (hupper.trans_le hsmall) (not_lt.2 (mul_le_mul_of_nonneg_right hm' hpower.le))
    omega
  · omega

lemma roundDiv_mul (m : Nat) {den : Nat} (hden : 0 < den) : roundDiv (m * den) den = m := by
  simp [roundDiv, Nat.mul_div_cancel m hden, hden]

/-- A quotient with the value of a form is rounded to that form. -/
lemma ofRatio_eq_encode (negative : Bool) {num den : Nat} (hnormal : Normal m e) (hm : 0 < m)
    (hden : 0 < den) (h : (num : ℚ) / den = value m e) :
    ofRatio negative num den = encode negative m e := by
  have hden' : (den : ℚ) ≠ 0 := Nat.cast_ne_zero.2 hden.ne'
  have hnum : 0 < num := by
    rw [Nat.pos_iff_ne_zero]
    rintro rfl
    rw [Nat.cast_zero, zero_div] at h
    exact absurd h (value_pos hm e).ne
  have hcross : num * twoTo (-e).toNat = m * (den * twoTo e.toNat) := by
    have hpower : ((twoTo (-e).toNat : Nat) : ℚ) ≠ 0 := Nat.cast_ne_zero.2 (Nat.two_pow_pos _).ne'
    rw [value, two_zpow_eq, div_eq_iff hden'] at h
    have hfield : (num : ℚ) * (twoTo (-e).toNat : Nat) = m * (den * (twoTo e.toNat : Nat)) := by
      rw [h]
      field_simp
    exact_mod_cast hfield
  have hrounded : roundDiv (num * twoTo (-e).toNat) (den * twoTo e.toNat) = m := by
    rw [hcross]
    exact roundDiv_mul m (Nat.mul_pos hden (Nat.two_pow_pos _))
  rw [ofRatio, roundRatio, if_neg hnum.ne']
  simp only [unitExponent_eq hnormal hnum hden h, hrounded]
  rw [min_eq_right hnormal.magnitude_lt.le, encode]

/-- **What can be held is not changed by rounding**: a product that has a form in which it is held
is rounded to the number that holds it. -/
lemma ofScaled_eq_encode (negative : Bool) {m' : Nat} {e' : Int} (hnormal : Normal m e) (hm : 0 < m)
    (h : value m' e' = value m e) : ofScaled negative m' e' = encode negative m e := by
  refine ofRatio_eq_encode negative hnormal hm (Nat.two_pow_pos _) ?_
  rw [← h, value, two_zpow_eq, Nat.cast_mul, mul_div_assoc]

/-- A value with few enough bits has a form, as long as its exponent is in range. -/
lemma exists_normal (k : Nat) {m : Nat} (hm : 0 < m) (hlt : m < 2 * leadingUnit)
    (hk : k ≤ 2045) :
    ∃ m' e', Normal m' e' ∧ 0 < m' ∧ value m' e' = value m (k - 1074) := by
  induction k generalizing m with
  | zero => exact ⟨m, -1074, ⟨hlt, le_refl _, by omega, Or.inr rfl⟩, hm, by norm_num⟩
  | succ k ih =>
      by_cases hleading : leadingUnit ≤ m
      · exact ⟨m, _, ⟨hlt, by omega, by omega, Or.inl hleading⟩, hm, rfl⟩
      · obtain ⟨m', e', hnormal, hm', hvalue⟩ :=
          ih (m := 2 * m) (by omega) (by omega) (by omega)
        refine ⟨m', e', hnormal, hm', ?_⟩
        rw [hvalue, ← value_double m]
        congr 1
        push_cast
        ring

/-- Each product of a whole number of 53 bits and a power of two in range has a form in which it is
held. -/
lemma exists_normal_value (hm : 0 < m) (hlt : m < 2 * leadingUnit) (hleast : -1074 ≤ e)
    (hlargest : e ≤ 971) : ∃ m' e', Normal m' e' ∧ 0 < m' ∧ value m' e' = value m e := by
  obtain ⟨m', e', h⟩ := exists_normal (e + 1074).toNat hm hlt (by omega)
  refine ⟨m', e', h.1, h.2.1, h.2.2.trans ?_⟩
  congr 1
  omega

/-! ## Sums and the negative zero -/

/-- The zero with a minus sign. -/
def negativeZero : Binary64 := ofMagnitude true 0

lemma normal_zero : Normal 0 (-1074) := ⟨by decide, le_refl _, by decide, Or.inr rfl⟩

lemma scaled?_negativeZero : negativeZero.scaled? = some (true, 0, -1074) :=
  scaled?_encode true normal_zero

lemma scaled?_zero : (0 : Binary64).scaled? = some (false, 0, -1074) :=
  scaled?_encode false normal_zero

/-- Only the negative zero has the negative sign and nothing else. -/
lemma eq_negativeZero {x : Binary64} (h : x.scaled? = some (true, 0, e)) : x = negativeZero := by
  obtain ⟨hnormal, rfl⟩ := eq_encode_of_scaled? h
  obtain rfl : e = -1074 := hnormal.leading.resolve_left (by decide)
  rfl

/-- A quotient of one or more is not rounded to zero. -/
lemma roundDiv_pos {num den : Nat} (hden : 0 < den) (h : den ≤ num) : 0 < roundDiv num den := by
  have hwhole : 0 < num / den := Nat.div_pos h hden
  simp only [roundDiv]
  split
  · exact hwhole
  · split <;> omega

/-- What is not below the smallest number is not rounded to zero. -/
lemma roundRatio_pos {num den : Nat} (hnum : 0 < num) (hden : 0 < den)
    (h : (2 : ℚ) ^ (-1074 : Int) ≤ (num : ℚ) / den) : 0 < roundRatio num den := by
  have hinfinite : 0 < infinite := by decide
  rw [roundRatio, if_neg hnum.ne']
  refine lt_min hinfinite ?_
  have hleast : -1074 ≤ unitExponent num den := le_max_left _ _
  rcases hleast.eq_or_lt with hunit | hunit
  · rw [← hunit]
    exact Nat.add_pos_right _
      (roundDiv_pos (Nat.mul_pos hden (Nat.two_pow_pos _)) ((two_zpow_le_iff num den hden _).1 h))
  · refine Nat.add_pos_left (Nat.mul_pos ?_ (by decide)) _
    omega

/-- A product that is a whole number of the smallest units is not rounded to zero. -/
lemma magnitude_ofScaled_pos (negative : Bool) (hm : 0 < m) (he : -1074 ≤ e) :
    0 < (ofScaled negative m e).magnitude := by
  have hlt : roundRatio (m * twoTo e.toNat) (twoTo (-e).toNat) < signUnit := by
    rw [roundRatio]
    split
    · decide
    · exact (min_le_left _ _).trans_lt infinite_lt_signUnit
  rw [ofScaled, ofRatio, magnitude_ofMagnitude _ hlt]
  refine roundRatio_pos (Nat.mul_pos hm (Nat.two_pow_pos _)) (Nat.two_pow_pos _) ?_
  calc (2 : ℚ) ^ (-1074 : Int) ≤ (2 : ℚ) ^ e := zpow_le_zpow_right₀ one_le_two he
    _ = 1 * (2 : ℚ) ^ e := (one_mul _).symm
    _ ≤ m * (2 : ℚ) ^ e :=
        mul_le_mul_of_nonneg_right (Nat.one_le_cast.2 hm) (zpow_pos two_pos e).le
    _ = _ := by rw [two_zpow_eq, Nat.cast_mul, mul_div_assoc]

/-- So it does not become the negative zero, whatever its sign. -/
lemma ofScaled_ne_negativeZero (negative : Bool) (hm : 0 < m) (he : -1074 ≤ e) :
    ofScaled negative m e ≠ negativeZero := by
  intro h
  have hpositive := magnitude_ofScaled_pos negative hm he
  rw [h] at hpositive
  exact absurd hpositive (by decide)

/-- Two numbers that are not positive sum up to zero only when both are zero. -/
lemma signedInt_true_add_eq_zero {a b : Nat} (h : signedInt true a + signedInt true b = 0) :
    a = 0 := by
  simp only [signedInt, if_true] at h
  omega

/-- **Which zero is added is no matter**, unless it is added to the negative zero. -/
lemma sum_negativeZero {x : Binary64} (h : x ≠ negativeZero) : x + negativeZero = x + 0 := by
  show sum x negativeZero = sum x 0
  rw [sum, sum, scaled?_negativeZero, scaled?_zero]
  cases hx : x.scaled? with
  | none => rfl
  | some form =>
      obtain ⟨negative, m, e⟩ := form
      cases negative with
      | false => simp [signedInt]
      | true =>
          have hm : m ≠ 0 := by
            rintro rfl
            exact h (eq_negativeZero hx)
          simp [signedInt, hm]

/-- What is not finite is not the negative zero. -/
lemma ne_negativeZero_of_scaled?_none {x : Binary64} (h : x.scaled? = none) : x ≠ negativeZero := by
  rintro rfl
  rw [scaled?_negativeZero] at h
  cases h

/-- An exact sum of zero has the negative sign only when both parts have it. -/
lemma ofMagnitude_and_ne_negativeZero {x : Binary64} {s t : Bool} {a b n : Nat}
    (hx : x.scaled? = some (s, m, e)) (h : x ≠ negativeZero)
    (htotal : signedInt s (m * twoTo a) + signedInt t (n * twoTo b) = 0) :
    ofMagnitude (s && t) 0 ≠ negativeZero := by
  cases s with
  | false =>
      rw [Bool.false_and]
      decide
  | true =>
      cases t with
      | false =>
          rw [Bool.and_false]
          decide
      | true =>
          have hm : m = 0 :=
            (Nat.mul_eq_zero.1 (signedInt_true_add_eq_zero htotal)).resolve_right
              (Nat.two_pow_pos _).ne'
          exact absurd (eq_negativeZero (hm ▸ hx)) h

/-- **A sum is not the negative zero** when its first part is not. -/
lemma sum_ne_negativeZero {x : Binary64} (y : Binary64) (h : x ≠ negativeZero) :
    x + y ≠ negativeZero := by
  have hnan : nan false ≠ negativeZero := by decide
  show sum x y ≠ negativeZero
  rw [sum]
  cases hx : x.scaled? with
  | none =>
      cases hy : y.scaled? with
      | none =>
          simp only
          split
          · exact h
          · exact hnan
      | some form =>
          simp only
          split
          · exact hnan
          · exact h
  | some form =>
      cases hy : y.scaled? with
      | none =>
          simp only
          split
          · exact hnan
          · exact ne_negativeZero_of_scaled?_none hy
      | some form' =>
          simp only
          split
          · rename_i htotal
            exact ofMagnitude_and_ne_negativeZero hx h htotal
          · rename_i htotal
            have hleast := le_min (eq_encode_of_scaled? hx).1.least_le
              (eq_encode_of_scaled? hy).1.least_le
            exact ofScaled_ne_negativeZero _ (Int.natAbs_pos.2 htotal) hleast

end LexicalSelection.Binary64
