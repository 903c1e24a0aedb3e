import LexicalSelection.Codec.Decoder
import Mathlib.Data.List.Basic

/-!
# Formats that can be read one behind the other

Three things are said of a decoder.  They hold of a sequence of decoders when they hold of its
parts, and so of whole formats.

* `Takes` — a decoder takes just these bytes for this value, whatever lies behind them.
* `Steady` — a decoder that comes to an end does so whatever lies behind.
* `Gives` — all values of a decoder have a property.
* **`Takes.error_of_prefix`** — a steady decoder that takes some bytes takes no beginning of them.
* `TakesAll` — a decoder takes just these bytes, and misses those that are cut off.
-/

namespace LexicalSelection.Decoding

variable {ε α β : Type}

/-- The decoder takes these bytes, and none behind them, for the value. -/
def Takes (decoder : StateT Bytes (Except ε) α) (bytes : Bytes) (value : α) : Prop :=
  ∀ rest, decoder (bytes ++ rest) = .ok (value, rest)

/-- When the decoder finds a value, it finds the same one with more bytes behind. -/
def Steady (decoder : StateT Bytes (Except ε) α) : Prop :=
  ∀ bytes value rest more, decoder bytes = .ok (value, rest) →
    decoder (bytes ++ more) = .ok (value, rest ++ more)

/-- All values that the decoder finds have the property. -/
def Gives (decoder : StateT Bytes (Except ε) α) (property : α → Prop) : Prop :=
  ∀ bytes value rest, decoder bytes = .ok (value, rest) → property value

/-! ## Sequences -/

/-- A sequence succeeds when its parts do, the second one on the bytes that the first one leaves. -/
lemma bind_eq_ok {decoder : StateT Bytes (Except ε) α} {next : α → StateT Bytes (Except ε) β}
    {bytes rest : Bytes} {value : β} :
    (decoder >>= next) bytes = .ok (value, rest) ↔
      ∃ first between, decoder bytes = .ok (first, between) ∧
        next first between = .ok (value, rest) := by
  show (decoder bytes).bind (fun found => next found.1 found.2) = .ok (value, rest) ↔ _
  cases decoder bytes with
  | error error => simp [Except.bind]
  | ok found =>
      constructor
      · intro hnext
        exact ⟨found.1, found.2, rfl, hnext⟩
      · rintro ⟨first, between, ⟨⟩, hnext⟩
        exact hnext

/-- Behind a part that succeeds the sequence goes on with the bytes that are left. -/
lemma bind_of_ok {decoder : StateT Bytes (Except ε) α} {next : α → StateT Bytes (Except ε) β}
    {bytes between : Bytes} {first : α} (h : decoder bytes = .ok (first, between)) :
    (decoder >>= next) bytes = next first between := by
  show (decoder bytes).bind (fun found => next found.1 found.2) = _
  rw [h]
  rfl

/-- A sequence fails with the error of its first part. -/
lemma bind_of_error {decoder : StateT Bytes (Except ε) α} {next : α → StateT Bytes (Except ε) β}
    {bytes : Bytes} {error : ε} (h : decoder bytes = .error error) :
    (decoder >>= next) bytes = .error error := by
  show (decoder bytes).bind (fun found => next found.1 found.2) = _
  rw [h]
  rfl

lemma pure_eq_ok {value value' : α} {bytes rest : Bytes} :
    (pure value : StateT Bytes (Except ε) α) bytes = .ok (value', rest) ↔
      value = value' ∧ bytes = rest := by
  show Except.ok (value, bytes) = Except.ok (value', rest) ↔ _
  simp

lemma throw_ne_ok {error : ε} {value : α} {bytes rest : Bytes} :
    (throw error : StateT Bytes (Except ε) α) bytes ≠ .ok (value, rest) := by
  intro h
  cases h

lemma Takes.pure (value : α) : Takes (Pure.pure value : StateT Bytes (Except ε) α) [] value :=
  fun _ => rfl

/-- A sequence takes the bytes of its parts, one behind the other. -/
lemma Takes.bind {decoder : StateT Bytes (Except ε) α} {next : α → StateT Bytes (Except ε) β}
    {bytes bytes' : Bytes} {first : α} {value : β} (h : Takes decoder bytes first)
    (hnext : Takes (next first) bytes' value) :
    Takes (decoder >>= next) (bytes ++ bytes') value := by
  intro rest
  rw [List.append_assoc]
  exact bind_eq_ok.2 ⟨first, bytes' ++ rest, h _, hnext rest⟩

/-- A second part that takes no bytes leaves the bytes of the first one. -/
lemma Takes.bind_nil {decoder : StateT Bytes (Except ε) α} {next : α → StateT Bytes (Except ε) β}
    {bytes : Bytes} {first : α} {value : β} (h : Takes decoder bytes first)
    (hnext : Takes (next first) [] value) : Takes (decoder >>= next) bytes value := by
  rw [← List.append_nil bytes]
  exact h.bind hnext

/-- A decoder with something done to its value. -/
lemma Takes.bind_pure {decoder : StateT Bytes (Except ε) α} {bytes : Bytes} {first : α}
    (h : Takes decoder bytes first) (next : α → β) :
    Takes (do return next (← decoder)) bytes (next first) :=
  h.bind_nil (Takes.pure (next first))

lemma Steady.pure (value : α) : Steady (Pure.pure value : StateT Bytes (Except ε) α) := by
  intro bytes value' rest more h
  obtain ⟨rfl, rfl⟩ := pure_eq_ok.1 h
  rfl

lemma Steady.throw (error : ε) : Steady (throw error : StateT Bytes (Except ε) α) :=
  fun _ _ _ _ h => absurd h throw_ne_ok

/-- A sequence of steady parts is steady. -/
lemma Steady.bind {decoder : StateT Bytes (Except ε) α} {next : α → StateT Bytes (Except ε) β}
    (h : Steady decoder) (hnext : ∀ first, Steady (next first)) : Steady (decoder >>= next) := by
  intro bytes value rest more hfound
  obtain ⟨first, between, hfirst, hvalue⟩ := bind_eq_ok.1 hfound
  exact bind_eq_ok.2
    ⟨first, between ++ more, h _ _ _ more hfirst, hnext first _ _ _ more hvalue⟩

lemma Gives.pure {property : α → Prop} {value : α} (h : property value) :
    Gives (Pure.pure value : StateT Bytes (Except ε) α) property := by
  intro bytes value' rest hfound
  obtain ⟨rfl, -⟩ := pure_eq_ok.1 hfound
  exact h

lemma Gives.throw (error : ε) (property : α → Prop) :
    Gives (throw error : StateT Bytes (Except ε) α) property :=
  fun _ _ _ h => absurd h throw_ne_ok

/-- What the first part gives may be used to say what the second one gives. -/
lemma Gives.bind {decoder : StateT Bytes (Except ε) α} {next : α → StateT Bytes (Except ε) β}
    {property : α → Prop} {property' : β → Prop} (h : Gives decoder property)
    (hnext : ∀ first, property first → Gives (next first) property') :
    Gives (decoder >>= next) property' := by
  intro bytes value rest hfound
  obtain ⟨first, between, hfirst, hvalue⟩ := bind_eq_ok.1 hfound
  exact hnext first (h _ _ _ hfirst) _ _ _ hvalue

lemma Gives.and {decoder : StateT Bytes (Except ε) α} {property property' : α → Prop}
    (h : Gives decoder property) (h' : Gives decoder property') :
    Gives decoder fun value => property value ∧ property' value :=
  fun _ _ _ hfound => ⟨h _ _ _ hfound, h' _ _ _ hfound⟩

lemma Gives.trivial (decoder : StateT Bytes (Except ε) α) : Gives decoder fun _ => True :=
  fun _ _ _ _ => True.intro

/-- **No beginning is enough.**  A steady decoder that takes some bytes fails on each strict prefix
of them: what it found there it would find with the other bytes behind, too, and leave those. -/
lemma Takes.error_of_prefix {decoder : StateT Bytes (Except ε) α} {bytes cut : Bytes} {value : α}
    (h : Takes decoder bytes value) (hsteady : Steady decoder) (hcut : cut <+: bytes)
    (hne : cut ≠ bytes) : ∃ error, decoder cut = .error error := by
  obtain ⟨more, rfl⟩ := hcut
  cases hfound : decoder cut with
  | error error => exact ⟨error, rfl⟩
  | ok found =>
      have hmore := hsteady _ _ _ more hfound
      have hwhole := h []
      rw [List.append_nil, hmore] at hwhole
      obtain ⟨-, hrest⟩ := Prod.mk.inj (Except.ok.inj hwhole)
      obtain ⟨-, rfl⟩ := List.append_eq_nil_iff.1 hrest
      exact absurd (List.append_nil cut).symm hne

/-! ## Missing bytes -/

/-- The decoder takes these bytes for the value.  Of any strict prefix of them it says that the
bytes end too early. -/
structure TakesAll (decoder : Decoder α) (bytes : Bytes) (value : α) : Prop where
  takes : Takes decoder bytes value
  misses : ∀ cut, cut <+: bytes → cut ≠ bytes → decoder cut = .error .unexpectedEnd

lemma TakesAll.pure (value : α) : TakesAll (Pure.pure value : Decoder α) [] value where
  takes := Takes.pure value
  misses _ hcut hne := absurd (List.prefix_nil.1 hcut) hne

/-- A cut falls either into the bytes of the first decoder or into those of the second. -/
lemma TakesAll.bind {decoder : Decoder α} {next : α → Decoder β} {bytes bytes' : Bytes} {first : α}
    {value : β} (h : TakesAll decoder bytes first) (hnext : TakesAll (next first) bytes' value) :
    TakesAll (decoder >>= next) (bytes ++ bytes') value where
  takes := h.takes.bind hnext.takes
  misses := by
    intro cut hcut hne
    -- The first decoder is content just when all of its bytes are there.
    by_cases hbytes : bytes <+: cut
    · obtain ⟨cut', rfl⟩ := hbytes
      rw [bind_of_ok (h.takes cut')]
      refine hnext.misses cut' ((List.prefix_append_right_inj bytes).1 hcut) ?_
      rintro rfl
      exact hne rfl
    · have hfirst : cut <+: bytes :=
        (List.prefix_or_prefix_of_prefix hcut (List.prefix_append bytes bytes')).resolve_right
          hbytes
      refine bind_of_error (h.misses cut hfirst ?_)
      rintro rfl
      exact hbytes List.prefix_rfl

/-- A second part that takes no bytes adds no prefix on which bytes are missing. -/
lemma TakesAll.bind_nil {decoder : Decoder α} {next : α → Decoder β} {bytes : Bytes} {first : α}
    {value : β} (h : TakesAll decoder bytes first) (hnext : TakesAll (next first) [] value) :
    TakesAll (decoder >>= next) bytes value := by
  rw [← List.append_nil bytes]
  exact h.bind hnext

/-- Computing with what was taken takes no more bytes. -/
lemma TakesAll.bind_pure {decoder : Decoder α} {bytes : Bytes} {first : α}
    (h : TakesAll decoder bytes first) (next : α → β) :
    TakesAll (do return next (← decoder)) bytes (next first) :=
  h.bind_nil (TakesAll.pure (next first))

/-! ## The parts of formats -/

/-- A byte is read back, and is missing only where there is none. -/
lemma takesAll_byte (b : UInt8) : TakesAll Decoder.byte [b] b where
  takes _ := rfl
  misses := by
    intro cut hcut hne
    rcases List.prefix_concat_iff.1 (show cut <+: [] ++ [b] from hcut) with hcut | hcut
    · exact absurd hcut hne
    · rw [List.prefix_nil.1 hcut]
      rfl

lemma steady_byte : Steady Decoder.byte := by
  intro bytes value rest more h
  cases bytes with
  | nil => cases h
  | cons b bytes => cases h; rfl

/-- Reading so many bytes splits them off. -/
lemma exactly_eq_ok {count : Nat} {bytes front rest : Bytes} :
    Decoder.exactly count bytes = .ok (front, rest) ↔
      front.length = count ∧ bytes = front ++ rest := by
  simp only [Decoder.exactly]
  split
  · rename_i hshort
    constructor
    · intro h
      cases h
    · rintro ⟨rfl, rfl⟩
      simp at hshort
  · rename_i hlong
    rw [Except.ok.injEq, Prod.mk.injEq]
    constructor
    · rintro ⟨rfl, rfl⟩
      rw [List.length_take] at hlong ⊢
      exact ⟨by omega, (List.take_append_drop count bytes).symm⟩
    · rintro ⟨rfl, rfl⟩
      simp

/-- So many bytes are read back, and some are missing on each strict prefix. -/
lemma takesAll_exactly (bytes : Bytes) :
    TakesAll (Decoder.exactly bytes.length) bytes bytes where
  takes _ := exactly_eq_ok.2 ⟨rfl, rfl⟩
  misses := by
    intro cut hcut hne
    have hshort : cut.length < bytes.length :=
      Nat.lt_of_le_of_ne hcut.length_le fun hlength => hne (hcut.eq_of_length hlength)
    rw [Decoder.exactly]
    simp only [List.length_take]
    rw [if_pos (by omega)]

/-- Bytes behind those that are asked for make no difference. -/
lemma steady_exactly (count : Nat) : Steady (Decoder.exactly count) := by
  intro bytes value rest more h
  obtain ⟨hlength, rfl⟩ := exactly_eq_ok.1 h
  exact exactly_eq_ok.2 ⟨hlength, List.append_assoc _ _ _⟩

lemma gives_exactly (count : Nat) :
    Gives (Decoder.exactly count) fun bytes => bytes.length = count :=
  fun _ _ _ h => (exactly_eq_ok.1 h).1

/-- Values in a row are read back when each of them is. -/
lemma takesAll_times {decoder : Decoder α} {write : α → Bytes} {values : List α}
    (h : ∀ value ∈ values, TakesAll decoder (write value) value) :
    TakesAll (Decoder.times decoder values.length) (values.flatMap write) values := by
  induction values with
  | nil => exact TakesAll.pure []
  | cons value values ih =>
      obtain ⟨hvalue, hvalues⟩ := List.forall_mem_cons.1 h
      exact hvalue.bind ((ih hvalues).bind_pure _)

/-- Repeating a steady decoder is steady. -/
lemma steady_times {decoder : Decoder α} (h : Steady decoder) (count : Nat) :
    Steady (Decoder.times decoder count) := by
  induction count with
  | zero => exact Steady.pure []
  | succ count ih => exact h.bind fun _ => ih.bind fun _ => Steady.pure _

/-- Repeating a decoder gives as many values as were asked for, each like those of the decoder. -/
lemma gives_times {decoder : Decoder α} {property : α → Prop} (h : Gives decoder property)
    (count : Nat) :
    Gives (Decoder.times decoder count) fun values =>
      values.length = count ∧ ∀ value ∈ values, property value := by
  induction count with
  | zero => exact Gives.pure ⟨rfl, fun _ hmem => absurd hmem List.not_mem_nil⟩
  | succ count ih =>
      refine h.bind fun value hvalue => ih.bind fun values hvalues => Gives.pure ⟨?_, ?_⟩
      · rw [List.length_cons, hvalues.1]
      · exact List.forall_mem_cons.2 ⟨hvalue, hvalues.2⟩

end LexicalSelection.Decoding
