import LexicalSelection.Codec.Integer
import Mathlib.Algebra.BigOperators.Fin
import Mathlib.Tactic.Ring

/-!
# Numerals

The bytes of a natural number are a numeral to the base 128, lowest digit first: the high bit of a
byte says that more digits follow.  What a reader finds at the front of a byte string depends on the
first ten bytes and on whether there is another one behind them.

* `IsNumeral`, `numeralValue` — numerals, and the sums that they stand for.
* `Holds`, `Overflows` — a byte string begins with a numeral of 64 bits, or with too large a one.
* **`readNat_eq_ok_iff`**, `readNat_eq_overflow_iff`, `readNat_eq_end_iff` — what is read, and when
  nothing is.
* **`writeNat_shortest`** — of all numerals of a number the written one is the only shortest.
-/

namespace LexicalSelection.Codec

lemma twoTo_add (a b : Nat) : twoTo (a + b) = twoTo a * twoTo b := Nat.pow_add 2 a b

lemma twoTo_lt_twoTo {a b : Nat} (h : a < b) : twoTo a < twoTo b :=
  Nat.pow_lt_pow_right (by decide) h

lemma lt_sixtyfour {n : Nat} (h : n < twoTo 32) : n < twoTo 64 :=
  h.trans (twoTo_lt_twoTo (by decide))

/-! ## Numerals -/

/-- A complete numeral: the high bit is set in all bytes but the last. -/
inductive IsNumeral : Bytes → Prop
  | last {b : UInt8} (h : b.toNat < 128) : IsNumeral [b]
  | more {b : UInt8} {numeral : Bytes} (h : 128 ≤ b.toNat) (hrest : IsNumeral numeral) :
      IsNumeral (b :: numeral)

/-- The sum of the digits, each times the power of the base that its place stands for. -/
def numeralValue (bytes : Bytes) : Nat :=
  ∑ place : Fin bytes.length, bytes[place].toNat % 128 * 128 ^ (place : Nat)

/-- The byte string begins with a complete numeral for a number of 64 bits, with `rest` behind. -/
def Holds (bytes : Bytes) (n : Nat) (rest : Bytes) : Prop :=
  ∃ numeral, bytes = numeral ++ rest ∧ IsNumeral numeral ∧ numeral.length ≤ 10 ∧
    numeralValue numeral = n ∧ n < twoTo 64

/-- The first nine bytes have the high bit, and the tenth one has a digit for more than 64 bits, or
the high bit and another byte behind it. -/
def Overflows (bytes : Bytes) : Prop :=
  ∃ nine tenth rest, bytes = nine ++ tenth :: rest ∧ nine.length = 9 ∧ (∀ b ∈ nine, 128 ≤ b.toNat) ∧
    (2 ≤ tenth.toNat % 128 ∨ 128 ≤ tenth.toNat ∧ rest ≠ [])

@[simp] lemma numeralValue_nil : numeralValue [] = 0 := rfl

@[simp] lemma numeralValue_cons (b : UInt8) (bytes : Bytes) :
    numeralValue (b :: bytes) = b.toNat % 128 + 128 * numeralValue bytes := by
  have hsum := Fin.sum_univ_succ fun place : Fin (bytes.length + 1) =>
    (b :: bytes)[place].toNat % 128 * 128 ^ (place : Nat)
  have htail : ∀ place : Fin bytes.length,
      bytes[place].toNat % 128 * 128 ^ ((place : Nat) + 1)
        = 128 * (bytes[place].toNat % 128 * 128 ^ (place : Nat)) := by
    intro place
    ring
  calc numeralValue (b :: bytes)
      = b.toNat % 128 * 128 ^ 0
        + ∑ place : Fin bytes.length, bytes[place].toNat % 128 * 128 ^ ((place : Nat) + 1) := hsum
    _ = b.toNat % 128 + 128 * numeralValue bytes := by
        simp only [htail, ← Finset.mul_sum, numeralValue, Nat.pow_zero, Nat.mul_one]

/-- Further bytes count for more, by 128 for each byte before them. -/
lemma numeralValue_append (front back : Bytes) :
    numeralValue (front ++ back) = numeralValue front + 128 ^ front.length * numeralValue back := by
  induction front with
  | nil => simp
  | cons b front ih =>
      simp only [List.cons_append, numeralValue_cons, ih, List.length_cons]
      ring

/-- So many bytes have room for so large a number. -/
lemma numeralValue_lt (bytes : Bytes) : numeralValue bytes < 128 ^ bytes.length := by
  induction bytes with
  | nil => simp
  | cons b bytes ih =>
      have hdigit : b.toNat % 128 < 128 := Nat.mod_lt _ (by norm_num)
      simp only [numeralValue_cons, List.length_cons, Nat.pow_succ]
      omega

lemma IsNumeral.ne_nil {numeral : Bytes} (h : IsNumeral numeral) : numeral ≠ [] := by
  cases h <;> simp

/-- All bytes of a numeral but the last have the high bit. -/
lemma isNumeral_iff {numeral : Bytes} : IsNumeral numeral ↔
    ∃ front last, numeral = front ++ [last] ∧ (∀ b ∈ front, 128 ≤ b.toNat) ∧ last.toNat < 128 := by
  constructor
  · intro h
    induction h with
    | @last b h => exact ⟨[], b, rfl, by simp, h⟩
    | @more b _ h _ ih =>
        obtain ⟨front, last, rfl, hfront, hlast⟩ := ih
        exact ⟨b :: front, last, rfl, List.forall_mem_cons.2 ⟨h, hfront⟩, hlast⟩
  · rintro ⟨front, last, rfl, hfront, hlast⟩
    induction front with
    | nil => exact .last hlast
    | cons b front ih =>
        obtain ⟨hb, hfront⟩ := List.forall_mem_cons.1 hfront
        exact .more hb (ih hfront)

/-! ## The outcomes of reading -/

variable {bytes front rest : Bytes} {b : UInt8} {n places value : Nat}

/-- The last byte of a numeral. -/
lemma readNatFrom_last (h : b.toNat < 128) (hplaces : places ≤ 9)
    (hdigit : places = 9 → b.toNat % 128 < 2) :
    readNatFrom (7 * places) value (b :: rest)
      = .ok (value + b.toNat % 128 * twoTo (7 * places), rest) := by
  rw [readNatFrom, if_neg (by omega), if_pos h]

/-- A byte that more digits follow. -/
lemma readNatFrom_more (h : 128 ≤ b.toNat) (hplaces : places ≤ 9)
    (hdigit : places = 9 → b.toNat % 128 < 2) :
    readNatFrom (7 * places) value (b :: rest)
      = readNatFrom (7 * (places + 1)) (value + b.toNat % 128 * twoTo (7 * places)) rest := by
  rw [readNatFrom, if_neg (by omega), if_neg (by omega), Nat.mul_succ]

/-- A digit that has no place in 64 bits, or not all of whose bits have one. -/
lemma readNatFrom_beyond (h : 10 ≤ places ∨ places = 9 ∧ 2 ≤ b.toNat % 128) :
    readNatFrom (7 * places) value (b :: rest) = .error .integerOverflow := by
  rw [readNatFrom, if_pos (by omega)]

/-- Up to nine bytes with the high bit are read before anything can go wrong. -/
lemma readNatFrom_front (hfront : ∀ b ∈ front, 128 ≤ b.toNat)
    (hlength : places + front.length ≤ 9) :
    readNatFrom (7 * places) value (front ++ rest)
      = readNatFrom (7 * (places + front.length)) (value + numeralValue front * twoTo (7 * places))
          rest := by
  induction front generalizing places value with
  | nil => simp
  | cons b front ih =>
      obtain ⟨hb, hfront⟩ := List.forall_mem_cons.1 hfront
      rw [List.length_cons] at hlength ⊢
      have hvalue : value + b.toNat % 128 * twoTo (7 * places)
            + numeralValue front * twoTo (7 * (places + 1))
          = value + numeralValue (b :: front) * twoTo (7 * places) := by
        rw [Nat.mul_succ, twoTo_add, numeralValue_cons, show twoTo 7 = 128 from rfl]
        ring
      rw [List.cons_append, readNatFrom_more hb (by omega) (by omega), ih hfront (by omega), hvalue,
        Nat.add_right_comm, Nat.add_assoc]

/-- Up to nine bytes that announce more only add to the number. -/
lemma readNat_front (hfront : ∀ b ∈ front, 128 ≤ b.toNat) (hlength : front.length ≤ 9) :
    readNat (front ++ rest) = readNatFrom (7 * front.length) (numeralValue front) rest := by
  have hread : readNatFrom (7 * 0) 0 (front ++ rest)
      = readNatFrom (7 * (0 + front.length)) (0 + numeralValue front * twoTo (7 * 0)) rest :=
    readNatFrom_front hfront (by omega)
  simpa [readNat] using hread

lemma twoTo_seven_mul (places : Nat) : twoTo (7 * places) = 128 ^ places := Nat.pow_mul 2 7 places

/-- A numeral of ten bytes is a number of 64 bits when its last digit is 0 or 1, and shorter ones
always are. -/
lemma numeralValue_lt_iff {last : UInt8} (hlength : front.length ≤ 9) :
    numeralValue (front ++ [last]) < twoTo 64 ↔ (front.length = 9 → last.toNat % 128 < 2) := by
  have hlt := numeralValue_lt front
  have hdigit : last.toNat % 128 < 128 := Nat.mod_lt _ (by norm_num)
  have hlimit : twoTo 64 = 2 * 128 ^ 9 := by norm_num
  simp only [numeralValue_append, numeralValue_cons, numeralValue_nil, Nat.mul_zero, Nat.add_zero]
  rcases Nat.lt_or_eq_of_le hlength with hshort | hnine
  · have hpower : 128 ^ front.length ≤ 128 ^ 8 := Nat.pow_le_pow_right (by norm_num) (by omega)
    have hproduct : 128 ^ front.length * (last.toNat % 128) ≤ 128 ^ 8 * 127 :=
      Nat.mul_le_mul hpower (by omega)
    omega
  · rw [hnine] at hlt ⊢
    omega

/-- Reading gives the number of a numeral that fits, and leaves what is behind it. -/
lemma readNat_of_holds (h : Holds bytes n rest) : readNat bytes = .ok (n, rest) := by
  obtain ⟨numeral, rfl, hnumeral, hlength, rfl, hfits⟩ := h
  obtain ⟨front, last, rfl, hfront, hlast⟩ := isNumeral_iff.1 hnumeral
  rw [List.length_append, List.length_singleton] at hlength
  have hnine : front.length ≤ 9 := by omega
  rw [List.append_assoc, readNat_front hfront hnine, List.singleton_append,
    readNatFrom_last hlast hnine ((numeralValue_lt_iff hnine).1 hfits), twoTo_seven_mul,
    numeralValue_append]
  simp [Nat.mul_comm]

/-- Reading refuses bytes whose number has more than 64 bits. -/
lemma readNat_of_overflows (h : Overflows bytes) : readNat bytes = .error .integerOverflow := by
  obtain ⟨nine, tenth, rest, rfl, hnine, hhigh, hbeyond⟩ := h
  rw [readNat_front hhigh hnine.le, hnine]
  by_cases hdigit : 2 ≤ tenth.toNat % 128
  · exact readNatFrom_beyond (.inr ⟨rfl, hdigit⟩)
  · obtain ⟨htenth, hrest⟩ := hbeyond.resolve_left hdigit
    obtain ⟨eleventh, rest, rfl⟩ := List.exists_cons_of_ne_nil hrest
    rw [readNatFrom_more htenth (by omega) (by omega)]
    exact readNatFrom_beyond (.inl (by omega))

/-- The bytes end before a numeral does, and nothing is wrong with them so far. -/
structure Unfinished (bytes : Bytes) : Prop where
  high : ∀ b ∈ bytes, 128 ≤ b.toNat
  length_le : bytes.length ≤ 10
  tenth : ∀ b, bytes[9]? = some b → b.toNat % 128 < 2

/-- Reading refuses bytes that end before the number does. -/
lemma readNat_of_unfinished (h : Unfinished bytes) : readNat bytes = .error .unexpectedEnd := by
  have hbytes := List.take_append_drop 9 bytes
  have hhigh : ∀ b ∈ bytes.take 9, 128 ≤ b.toNat := fun b hb => h.high b (List.mem_of_mem_take hb)
  have hlength : (bytes.take 9).length ≤ 9 := List.length_take_le 9 bytes
  rw [← hbytes, readNat_front hhigh hlength]
  cases hdrop : bytes.drop 9 with
  | nil => rfl
  | cons tenth more =>
      have hlong := congrArg List.length hdrop
      have htenth : bytes[9]? = some tenth := by
        rw [← List.head?_drop, hdrop, List.head?_cons]
      have hdigit := h.tenth tenth htenth
      have hmore := h.length_le
      rw [List.length_drop, List.length_cons] at hlong
      obtain rfl : more = [] := List.length_eq_zero_iff.1 (by omega)
      have hnine : (bytes.take 9).length = 9 := by
        rw [List.length_take]
        omega
      rw [hnine,
        readNatFrom_more (h.high tenth (List.mem_of_getElem? htenth)) (by omega) (by omega)]
      rfl

/-- Either all bytes have the high bit, or there is a first one that does not. -/
lemma high_or_split (bytes : Bytes) : (∀ b ∈ bytes, 128 ≤ b.toNat) ∨
    ∃ front last rest, bytes = front ++ last :: rest ∧ (∀ b ∈ front, 128 ≤ b.toNat) ∧
      last.toNat < 128 := by
  induction bytes with
  | nil => simp
  | cons b bytes ih =>
      rcases Nat.lt_or_ge b.toNat 128 with hlow | hhigh
      · exact .inr ⟨[], b, bytes, rfl, by simp, hlow⟩
      · rcases ih with hbytes | ⟨front, last, rest, rfl, hfront, hlast⟩
        · exact .inl (List.forall_mem_cons.2 ⟨hhigh, hbytes⟩)
        · exact .inr ⟨b :: front, last, rest, rfl, List.forall_mem_cons.2 ⟨hhigh, hfront⟩, hlast⟩

/-- Ten bytes with the high bit are too many, unless the bytes end there and the digit is small. -/
lemma overflows_of_high {tenth : UInt8} {back : Bytes} (hfront : ∀ b ∈ front, 128 ≤ b.toNat)
    (htenth : front[9]? = some tenth)
    (hbeyond : 2 ≤ tenth.toNat % 128 ∨ 10 < (front ++ back).length) :
    Overflows (front ++ back) := by
  obtain ⟨hlength, rfl⟩ := List.getElem?_eq_some_iff.1 htenth
  have hsplit : front = front.take 9 ++ front[9] :: front.drop 10 := by
    rw [← List.drop_eq_getElem_cons hlength, List.take_append_drop]
  refine ⟨front.take 9, front[9], front.drop 10 ++ back, ?_, ?_, ?_, ?_⟩
  · rw [← List.cons_append, ← List.append_assoc, ← hsplit]
  · rw [List.length_take]
    omega
  · exact fun b hb => hfront b (List.mem_of_mem_take hb)
  · refine hbeyond.imp_right fun hlong => ⟨hfront _ (List.getElem_mem hlength), ?_⟩
    intro hnil
    have hrest := congrArg List.length hnil
    rw [List.length_append] at hlong
    rw [List.length_append, List.length_drop, List.length_nil] at hrest
    omega

/-- A numeral that is cut off is unfinished. -/
lemma IsNumeral.unfinished {numeral cut : Bytes} (h : IsNumeral numeral)
    (hlength : numeral.length ≤ 10)
    (hcut : cut <+: numeral) (hne : cut ≠ numeral) : Unfinished cut := by
  obtain ⟨front, last, rfl, hfront, -⟩ := isNumeral_iff.1 h
  have hprefix : cut <+: front := (List.prefix_concat_iff.1 hcut).resolve_left hne
  have hshort := hprefix.length_le
  rw [List.length_append, List.length_singleton] at hlength
  refine ⟨fun b hb => hfront b (List.IsPrefix.subset hprefix hb), by omega, fun b hb => ?_⟩
  rw [List.getElem?_eq_none (by omega)] at hb
  cases hb

/-- There is no other byte string. -/
lemma holds_or_overflows_or_unfinished (bytes : Bytes) :
    (∃ n rest, Holds bytes n rest) ∨ Overflows bytes ∨ Unfinished bytes := by
  rcases high_or_split bytes with hhigh | ⟨front, last, rest, rfl, hfront, hlast⟩
  -- No numeral ends: there is a tenth byte that is at fault, or there are too few bytes.
  · by_cases hbeyond : ∃ tenth, bytes[9]? = some tenth ∧
      (2 ≤ tenth.toNat % 128 ∨ 10 < (bytes ++ []).length)
    · obtain ⟨tenth, htenth, hbeyond⟩ := hbeyond
      have hoverflows := overflows_of_high hhigh htenth hbeyond
      rw [List.append_nil] at hoverflows
      exact .inr (.inl hoverflows)
    · simp only [not_exists, not_and, not_or, Nat.not_le, Nat.not_lt, List.append_nil] at hbeyond
      refine .inr (.inr ⟨hhigh, ?_, fun tenth htenth => (hbeyond tenth htenth).1⟩)
      by_contra hlong
      exact hlong (hbeyond _ (List.getElem?_eq_getElem (by omega : 9 < bytes.length))).2
  -- A numeral ends, in time or too late, and may still be for too large a number.
  · rcases Nat.lt_or_ge front.length 10 with hshort | hlong
    · by_cases hfits : front.length = 9 → last.toNat % 128 < 2
      · have hnumeral := isNumeral_iff.2 ⟨front, last, rfl, hfront, hlast⟩
        refine .inl ⟨_, rest, front ++ [last], by simp, hnumeral, ?_, rfl,
          (numeralValue_lt_iff (by omega)).2 hfits⟩
        rw [List.length_append, List.length_singleton]
        omega
      · simp only [Classical.not_imp, Nat.not_lt] at hfits
        exact .inr (.inl ⟨front, last, rest, rfl, hfits.1, hfront, .inl hfits.2⟩)
    · refine .inr (.inl (overflows_of_high hfront
        (List.getElem?_eq_getElem (by omega : 9 < front.length)) (.inr ?_)))
      rw [List.length_append, List.length_cons]
      omega

/-- **What is read** is a numeral of 64 bits. -/
lemma readNat_eq_ok_iff : readNat bytes = .ok (n, rest) ↔ Holds bytes n rest := by
  refine ⟨fun h => ?_, readNat_of_holds⟩
  rcases holds_or_overflows_or_unfinished bytes with ⟨n', rest', hholds⟩ | hoverflows | hunfinished
  · rw [readNat_of_holds hholds] at h
    cases h
    exact hholds
  · rw [readNat_of_overflows hoverflows] at h
    cases h
  · rw [readNat_of_unfinished hunfinished] at h
    cases h

/-- A number is too large when its bytes say so. -/
lemma readNat_eq_overflow_iff : readNat bytes = .error .integerOverflow ↔ Overflows bytes := by
  refine ⟨fun h => ?_, readNat_of_overflows⟩
  rcases holds_or_overflows_or_unfinished bytes with ⟨n, rest, hholds⟩ | hoverflows | hunfinished
  · rw [readNat_of_holds hholds] at h
    cases h
  · exact hoverflows
  · rw [readNat_of_unfinished hunfinished] at h
    cases h

/-- All other byte strings end too early. -/
lemma readNat_eq_end_iff : readNat bytes = .error .unexpectedEnd ↔
    (¬ ∃ n rest, Holds bytes n rest) ∧ ¬ Overflows bytes := by
  constructor
  · intro h
    constructor
    · rintro ⟨n, rest, hholds⟩
      rw [readNat_of_holds hholds] at h
      cases h
    · intro hoverflows
      rw [readNat_of_overflows hoverflows] at h
      cases h
  · rintro ⟨hholds, hoverflows⟩
    have hunfinished := ((holds_or_overflows_or_unfinished bytes).resolve_left hholds).resolve_left
      hoverflows
    exact readNat_of_unfinished hunfinished

/-! ## The outcome of writing -/

/-- What is written of a number is one numeral. -/
lemma isNumeral_writeNat (n : Nat) : IsNumeral (writeNat n) := by
  fun_induction writeNat n with
  | case1 n h =>
      refine .last ?_
      rw [UInt8.toNat_ofNat']
      omega
  | case2 n h ih =>
      refine .more ?_ ih
      rw [UInt8.toNat_ofNat']
      omega

/-- The written numeral has the value of the number. -/
@[simp] lemma numeralValue_writeNat (n : Nat) : numeralValue (writeNat n) = n := by
  fun_induction writeNat n with
  | case1 n h =>
      simp only [numeralValue_cons, numeralValue_nil, UInt8.toNat_ofNat']
      omega
  | case2 n h ih =>
      simp only [numeralValue_cons, UInt8.toNat_ofNat', ih]
      omega

/-- No more bytes are written than the number needs. -/
lemma length_writeNat_le (places : Nat) (h : n < 128 ^ (places + 1)) :
    (writeNat n).length ≤ places + 1 := by
  induction places generalizing n with
  | zero =>
      rw [writeNat, if_pos (by simpa using h)]
      simp
  | succ places ih =>
      rw [writeNat]
      split
      · simp
      · rw [Nat.pow_succ] at h
        exact Nat.succ_le_succ (ih (Nat.div_lt_of_lt_mul (by omega)))

/-- **The written numeral is the only shortest one** of its number. -/
lemma writeNat_shortest {numeral : Bytes} (h : IsNumeral numeral) :
    numeral = writeNat (numeralValue numeral) ∨
      (writeNat (numeralValue numeral)).length < numeral.length := by
  induction h with
  | @last b h =>
      left
      rw [numeralValue_cons, numeralValue_nil, Nat.mod_eq_of_lt h, writeNat]
      simp [h]
  | @more b numeral h hrest ih =>
      rw [writeNat]
      split
      -- A small number has one byte; this numeral has more, which stand for nothing.
      · right
        have hlength := List.length_pos_of_ne_nil hrest.ne_nil
        simpa using hlength
      · have hdigit : numeralValue (b :: numeral) % 128 = b.toNat % 128 := by
          rw [numeralValue_cons]
          omega
        have hvalue : numeralValue (b :: numeral) / 128 = numeralValue numeral := by
          rw [numeralValue_cons]
          omega
        have hbyte : UInt8.ofNat (128 + b.toNat % 128) = b := by
          refine UInt8.toNat_inj.1 ?_
          have hlt := b.toNat_lt
          rw [UInt8.toNat_ofNat']
          omega
        rw [hdigit, hvalue, hbyte]
        rcases ih with heq | hlt
        · exact .inl (congrArg (b :: ·) heq)
        · exact .inr (Nat.succ_lt_succ hlt)

/-- What is written of a number of 64 bits can be read. -/
lemma holds_writeNat (h : n < twoTo 64) (rest : Bytes) : Holds (writeNat n ++ rest) n rest := by
  have hlimit : n < 128 ^ 10 := h.trans (by decide)
  exact ⟨writeNat n, rfl, isNumeral_writeNat n, length_writeNat_le 9 hlimit,
    numeralValue_writeNat n, h⟩

end LexicalSelection.Codec
