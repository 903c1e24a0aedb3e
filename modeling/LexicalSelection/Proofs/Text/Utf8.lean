import LexicalSelection.Text.Utf8
import Mathlib.Data.List.Basic

/-!
# The items of a text in UTF-8

The bytes of a text are read back as its characters, and no sequence among them is broken.

* `Utf8.Encodes` — a row of bytes that is one sequence and encodes a character.
* **`encodes_utf8EncodeChar`** — the bytes of a character are such a row.
* **`items_utf8`**, `decode?_utf8` — the items of a text are its characters.
* **`utf8_of_decode?`** — a byte string that encodes a text is the bytes of that text.
-/

namespace LexicalSelection.Utf8

variable {c : Char}

/-- The bytes are one sequence, which encodes the character. -/
structure Encodes (c : Char) (lead : UInt8) (body : Bytes) : Prop where
  announced : announcedLength lead = body.length + 1
  char? : char? (lead :: body) = some c

/-! ## One character -/

lemma toNat_ofNat_of_lt {n : Nat} (h : n < 256) : (UInt8.ofNat n).toNat = n := by
  simpa using h

/-- The code of a character is that of a scalar value. -/
lemma scalar?_toNat {least value : Nat} (hvalue : value = c.toNat) (h : least ≤ value) :
    scalar? least value = some c := by
  have hvalid : c.toNat.isValidChar := c.valid
  subst hvalue
  simp [scalar?, h, hvalid]

/-- The six bits of a continuation byte are found in it. -/
lemma continuation?_ofNat (n : Nat) :
    continuation? (UInt8.ofNat (n % 0x40 + 0x80)) = some (n % 0x40) := by
  have hlt : n % 0x40 < 0x40 := Nat.mod_lt _ (by decide)
  have hbyte := toNat_ofNat_of_lt (n := n % 0x40 + 0x80) (by omega)
  simp only [continuation?, UInt8.le_iff_toNat_le, hbyte]
  simp
  omega

-- What is made of the value is left open here, since the kernel would compute with code points.
lemma bind_eq_of_eq_some {β γ : Type} {found : Option β} {value : β} (h : found = some value)
    (f : β → Option γ) : found >>= f = f value := by
  rw [h]
  rfl

lemma char?_two {a b : UInt8} {x : Nat} (hb : continuation? b = some x) :
    char? [a, b] = scalar? 0x80 ((a.toNat - 0xC0) * 0x40 + x) := by
  rw [char?, bind_eq_of_eq_some hb]

lemma char?_three {a b c : UInt8} {x y : Nat} (hb : continuation? b = some x)
    (hc : continuation? c = some y) :
    char? [a, b, c] = scalar? 0x800 ((a.toNat - 0xE0) * 0x1000 + x * 0x40 + y) := by
  rw [char?, bind_eq_of_eq_some hb, bind_eq_of_eq_some hc]

lemma char?_four {a b c d : UInt8} {x y z : Nat} (hb : continuation? b = some x)
    (hc : continuation? c = some y) (hd : continuation? d = some z) : char? [a, b, c, d]
      = scalar? 0x10000 ((a.toNat - 0xF0) * 0x40000 + x * 0x1000 + y * 0x40 + z) := by
  rw [char?, bind_eq_of_eq_some hb, bind_eq_of_eq_some hc, bind_eq_of_eq_some hd]

/-- How long a sequence is can be told by comparing its first byte with a few numbers. -/
lemma announcedLength_ofNat {n : Nat} (h : n < 256) : announcedLength (UInt8.ofNat n) =
    if n ≤ 0x7F then 1 else if n < 0xC2 then 0 else if n ≤ 0xDF then 2 else if n ≤ 0xEF then 3
    else if n ≤ 0xF4 then 4 else 0 := by
  simp only [announcedLength, UInt8.le_iff_toNat_le, UInt8.lt_iff_toNat_lt, toNat_ofNat_of_lt h]
  rfl

lemma announcedLength_one {n : Nat} (h : n ≤ 0x7F) : announcedLength (UInt8.ofNat n) = 1 := by
  rw [announcedLength_ofNat (by omega), if_pos h]

lemma announcedLength_two {n : Nat} (h : 0xC2 ≤ n) (h' : n ≤ 0xDF) :
    announcedLength (UInt8.ofNat n) = 2 := by
  rw [announcedLength_ofNat (by omega), if_neg (by omega), if_neg (by omega), if_pos h']

lemma announcedLength_three {n : Nat} (h : 0xE0 ≤ n) (h' : n ≤ 0xEF) :
    announcedLength (UInt8.ofNat n) = 3 := by
  rw [announcedLength_ofNat (by omega), if_neg (by omega), if_neg (by omega), if_neg (by omega),
    if_pos h']

lemma announcedLength_four {n : Nat} (h : 0xF0 ≤ n) (h' : n ≤ 0xF4) :
    announcedLength (UInt8.ofNat n) = 4 := by
  rw [announcedLength_ofNat (by omega), if_neg (by omega), if_neg (by omega), if_neg (by omega),
    if_neg (by omega), if_pos h']

/-- Codes up to 0x7F are encoded in one byte. -/
lemma encodes_one {v : Nat} (hv : v = c.toNat) (h : v ≤ 0x7F) : Encodes c (UInt8.ofNat v) [] where
  announced := announcedLength_one h
  char? := by
    rw [char?, toNat_ofNat_of_lt (by omega)]
    exact scalar?_toNat hv (Nat.zero_le _)

/-- Codes up to 0x7FF are encoded in two bytes. -/
lemma encodes_two {v : Nat} (hv : v = c.toNat) (h : 0x7F < v) (h' : v ≤ 0x7FF) :
    Encodes c (UInt8.ofNat (v / 64 % 0x20 + 0xC0)) [UInt8.ofNat (v % 0x40 + 0x80)] where
  announced := announcedLength_two (by omega) (by omega)
  char? := by
    rw [char?_two (continuation?_ofNat _), toNat_ofNat_of_lt (by omega)]
    exact scalar?_toNat (by omega) (by omega)

/-- Codes up to 0xFFFF are encoded in three bytes. -/
lemma encodes_three {v : Nat} (hv : v = c.toNat) (h : 0x7FF < v) (h' : v ≤ 0xFFFF) :
    Encodes c (UInt8.ofNat (v / 4096 % 0x10 + 0xE0))
      [UInt8.ofNat (v / 64 % 0x40 + 0x80), UInt8.ofNat (v % 0x40 + 0x80)] where
  announced := announcedLength_three (by omega) (by omega)
  char? := by
    rw [char?_three (continuation?_ofNat _) (continuation?_ofNat _), toNat_ofNat_of_lt (by omega)]
    exact scalar?_toNat (by omega) (by omega)

/-- All other codes are encoded in four bytes. -/
lemma encodes_four {v : Nat} (hv : v = c.toNat) (h : 0xFFFF < v) (h' : v < 0x110000) :
    Encodes c (UInt8.ofNat (v / 262144 % 0x08 + 0xF0)) [UInt8.ofNat (v / 4096 % 0x40 + 0x80),
      UInt8.ofNat (v / 64 % 0x40 + 0x80), UInt8.ofNat (v % 0x40 + 0x80)] where
  announced := announcedLength_four (by omega) (by omega)
  char? := by
    rw [char?_four (continuation?_ofNat _) (continuation?_ofNat _) (continuation?_ofNat _),
      toNat_ofNat_of_lt (by omega)]
    exact scalar?_toNat (by omega) (by omega)

/-- **The bytes of a character are one sequence that encodes it.** -/
lemma encodes_utf8EncodeChar (c : Char) :
    ∃ lead body, String.utf8EncodeChar c = lead :: body ∧ Encodes c lead body := by
  have hvalid : c.toNat.isValidChar := c.valid
  have hlt : c.toNat < 0x110000 := by
    simp only [Nat.isValidChar] at hvalid
    omega
  have htoNat : c.val.toNat = c.toNat := rfl
  unfold String.utf8EncodeChar
  simp only [htoNat]
  split
  · rename_i h
    exact ⟨_, _, rfl, encodes_one rfl h⟩
  · rename_i h
    split
    · rename_i h'
      exact ⟨_, _, rfl, encodes_two rfl (by omega) h'⟩
    · rename_i h'
      split
      · rename_i h''
        exact ⟨_, _, rfl, encodes_three rfl (by omega) h''⟩
      · exact ⟨_, _, rfl, encodes_four rfl (by omega) hlt⟩

/-! ## Texts -/

/-- Behind the bytes of a text the items go on with whatever is there. -/
lemma itemsFrom_utf8_append (offset : Nat) (text : Text) (bytes : Bytes) :
    itemsFrom offset (text.utf8 ++ bytes)
      = text.map .char ++ itemsFrom (offset + text.utf8.length) bytes := by
  induction text generalizing offset with
  | nil => simp [Text.utf8]
  | cons c text ih =>
      obtain ⟨lead, body, hbytes, hencodes⟩ := encodes_utf8EncodeChar c
      have hannounced : announced lead (body ++ (Text.utf8 text ++ bytes)) = body := by
        rw [announced, hencodes.announced]
        simp
      have hutf8 : Text.utf8 (c :: text) = lead :: (body ++ Text.utf8 text) := by
        rw [Text.utf8, List.flatMap_cons, hbytes]
        rfl
      have hoffset : offset + 1 + body.length + (Text.utf8 text).length
          = offset + (lead :: (body ++ Text.utf8 text)).length := by
        simp only [List.length_cons, List.length_append]
        omega
      rw [hutf8, List.cons_append, List.append_assoc, itemsFrom, ← hoffset]
      simp [hannounced, item, hencodes.announced, hencodes.char?, ih]

/-- The bytes of a text are the items of its characters. -/
lemma itemsFrom_utf8 (offset : Nat) (text : Text) :
    itemsFrom offset text.utf8 = text.map .char := by
  simpa [itemsFrom] using itemsFrom_utf8_append offset text []

/-- **The items of a text are its characters.** -/
lemma items_utf8 (text : Text) : items text.utf8 = text.map .char := itemsFrom_utf8 0 text

/-- A text is read back from its bytes. -/
lemma decode?_utf8 (text : Text) : decode? text.utf8 = some text := by
  rw [decode?, items_utf8, List.mapM_map]
  induction text with
  | nil => rfl
  | cons c text ih => simp_all [itemChar?]

/-! ## Bytes that encode a text -/

/-- A code that stands for a character is that of the character, and not overlong. -/
lemma scalar?_eq_some {least value : Nat} (h : scalar? least value = some c) :
    least ≤ value ∧ value = c.toNat := by
  rw [scalar?] at h
  split at h
  · rename_i hvalid
    obtain rfl := Option.some.inj h
    rw [Char.ofNat, dif_pos hvalid.2]
    exact ⟨hvalid.1, rfl⟩
  · cases h

/-- A continuation byte is made of its six bits. -/
lemma continuation?_eq_some {b : UInt8} {x : Nat} (h : continuation? b = some x) :
    b = UInt8.ofNat (x + 0x80) ∧ x < 0x40 := by
  simp only [continuation?, UInt8.le_iff_toNat_le] at h
  split at h
  · rename_i hrange
    obtain rfl := Option.some.inj h
    obtain ⟨hlower, hupper⟩ := hrange
    have hlower' : 0x80 ≤ b.toNat := hlower
    have hupper' : b.toNat ≤ 0xBF := hupper
    rw [Nat.sub_add_cancel hlower', UInt8.ofNat_toNat]
    exact ⟨rfl, by omega⟩
  · cases h

/-- Each length goes with a range of first bytes. -/
lemma announcedLength_cases (lead : UInt8) :
    (announcedLength lead = 0) ∨ (announcedLength lead = 1 ∧ lead.toNat ≤ 0x7F) ∨
      (announcedLength lead = 2 ∧ 0xC2 ≤ lead.toNat ∧ lead.toNat ≤ 0xDF) ∨
      (announcedLength lead = 3 ∧ 0xE0 ≤ lead.toNat ∧ lead.toNat ≤ 0xEF) ∨
      (announcedLength lead = 4 ∧ 0xF0 ≤ lead.toNat ∧ lead.toNat ≤ 0xF4) := by
  have hlt : lead.toNat < 256 := lead.toNat_lt
  rw [← UInt8.ofNat_toNat (x := lead), announcedLength_ofNat hlt, UInt8.ofNat_toNat]
  split_ifs <;> omega

/-- The bytes of one sequence that encodes a character are the bytes of the character. -/
lemma utf8EncodeChar_of_char? {lead : UInt8} {body : Bytes}
    (hannounced : announcedLength lead = body.length + 1) (h : char? (lead :: body) = some c) :
    String.utf8EncodeChar c = lead :: body := by
  have htoNat : c.val.toNat = c.toNat := rfl
  have hlead : UInt8.ofNat lead.toNat = lead := UInt8.ofNat_toNat
  have hvalid : c.toNat.isValidChar := c.valid
  rcases announcedLength_cases lead with h' | ⟨h', hle⟩ | ⟨h', hge, hle⟩ | ⟨h', hge, hle⟩ |
    ⟨h', hge, hle⟩ <;> rw [h'] at hannounced
  · omega
  · obtain rfl : body = [] := List.eq_nil_of_length_eq_zero (by omega)
    obtain ⟨-, hvalue⟩ := scalar?_eq_some h
    rw [String.utf8EncodeChar, htoNat, ← hvalue, if_pos hle, hlead]
  · obtain ⟨b, rfl⟩ := List.length_eq_one_iff.1 (by omega : body.length = 1)
    simp only [char?, Option.bind_eq_bind, Option.bind_eq_some_iff] at h
    obtain ⟨x, hx, h⟩ := h
    obtain ⟨rfl, hx⟩ := continuation?_eq_some hx
    obtain ⟨hleast, hvalue⟩ := scalar?_eq_some h
    have hfirst : c.toNat / 64 % 0x20 + 0xC0 = lead.toNat := by omega
    have hsecond : c.toNat % 0x40 = x := by omega
    rw [String.utf8EncodeChar, htoNat, if_neg (by omega), if_pos (by omega), hfirst, hsecond, hlead]
  · obtain ⟨b, b', rfl⟩ := List.length_eq_two.1 (by omega : body.length = 2)
    simp only [char?, Option.bind_eq_bind, Option.bind_eq_some_iff] at h
    obtain ⟨x, hx, y, hy, h⟩ := h
    obtain ⟨rfl, hx⟩ := continuation?_eq_some hx
    obtain ⟨rfl, hy⟩ := continuation?_eq_some hy
    obtain ⟨hleast, hvalue⟩ := scalar?_eq_some h
    have hfirst : c.toNat / 4096 % 0x10 + 0xE0 = lead.toNat := by omega
    have hsecond : c.toNat / 64 % 0x40 = x := by omega
    have hthird : c.toNat % 0x40 = y := by omega
    rw [String.utf8EncodeChar, htoNat, if_neg (by omega), if_neg (by omega), if_pos (by omega),
      hfirst, hsecond, hthird, hlead]
  · obtain ⟨b, b', b'', rfl⟩ := List.length_eq_three.1 (by omega : body.length = 3)
    simp only [char?, Option.bind_eq_bind, Option.bind_eq_some_iff] at h
    obtain ⟨x, hx, y, hy, z, hz, h⟩ := h
    obtain ⟨rfl, hx⟩ := continuation?_eq_some hx
    obtain ⟨rfl, hy⟩ := continuation?_eq_some hy
    obtain ⟨rfl, hz⟩ := continuation?_eq_some hz
    obtain ⟨hleast, hvalue⟩ := scalar?_eq_some h
    have hlt : c.toNat < 0x110000 := by
      simp only [Nat.isValidChar] at hvalid
      omega
    have hfirst : c.toNat / 262144 % 0x08 + 0xF0 = lead.toNat := by omega
    have hsecond : c.toNat / 4096 % 0x40 = x := by omega
    have hthird : c.toNat / 64 % 0x40 = y := by omega
    have hfourth : c.toNat % 0x40 = z := by omega
    rw [String.utf8EncodeChar, htoNat, if_neg (by omega), if_neg (by omega), if_neg (by omega),
      hfirst, hsecond, hthird, hfourth, hlead]

/-- A sequence that stands for a character is the one that encodes it. -/
lemma item_eq_char {offset : Nat} {lead : UInt8} {body : Bytes}
    (h : item offset lead body = .char c) : String.utf8EncodeChar c = lead :: body := by
  rw [item] at h
  split at h
  · rename_i hannounced
    split at h
    · rename_i c' hc
      obtain rfl := Item.char.inj h
      exact utf8EncodeChar_of_char? hannounced hc
    · cases h
  · cases h

/-- Bytes in which only characters are found are the bytes of these characters. -/
lemma utf8_of_itemsFrom {offset : Nat} {bytes : Bytes} {text : Text}
    (h : (itemsFrom offset bytes).mapM itemChar? = some text) : text.utf8 = bytes := by
  fun_induction itemsFrom offset bytes generalizing text with
  | case1 offset =>
      obtain rfl := Option.some.inj h
      rfl
  | case2 offset lead tail body =>
      rename_i ih
      rw [List.mapM_cons] at h
      simp only [Option.bind_eq_bind, Option.bind_eq_some_iff] at h
      obtain ⟨c, hc, behind, hbehind, hsome⟩ := h
      obtain rfl := Option.some.inj hsome
      have hitem : item offset lead body = .char c := by
        cases hitem : item offset lead body with
        | char c' =>
            rw [hitem] at hc
            rw [Option.some.inj hc]
        | broken fault =>
            rw [hitem] at hc
            cases hc
      have htail : body ++ tail.drop body.length = tail :=
        List.prefix_iff_eq_append.1 (List.take_prefix _ _)
      rw [Text.utf8, List.flatMap_cons, item_eq_char hitem]
      show lead :: body ++ Text.utf8 behind = lead :: tail
      rw [ih hbehind, List.cons_append, htail]

/-- **A byte string that encodes a text is the bytes of that text.** -/
lemma utf8_of_decode? {bytes : Bytes} {text : Text} (h : decode? bytes = some text) :
    text.utf8 = bytes :=
  utf8_of_itemsFrom h

/-- So the text of such bytes has them as its bytes. -/
lemma utf8_of_items {bytes : Bytes} {text : Text} (h : items bytes = text.map .char) :
    text.utf8 = bytes :=
  utf8_of_decode? (by rw [decode?, h, ← items_utf8]; exact decode?_utf8 text)

/-- The bytes of a character that is read have been there. -/
lemma subset_of_char_mem {offset : Nat} {bytes : Bytes} (h : .char c ∈ itemsFrom offset bytes) :
    String.utf8EncodeChar c ⊆ bytes := by
  fun_induction itemsFrom offset bytes with
  | case1 => cases h
  | case2 offset lead tail body ih =>
      rcases List.mem_cons.1 h with hitem | hbehind
      · rw [item_eq_char hitem.symm]
        exact List.cons_subset_cons lead (List.take_subset _ _)
      · exact fun b hb => List.mem_cons_of_mem _ (List.mem_of_mem_drop (ih hbehind hb))

end LexicalSelection.Utf8
