import LexicalSelection.Proofs.Model.Loaded
import LexicalSelection.Proofs.Model.Windowed

/-!
# The positions of a weights file

A weights file gives each position by its distance from the start of the window.  Loading checks
that the position has 32 bits.  No distance leads in front of the window; but a position behind the
window is loaded as it stands.

* `place`, `Has32Bits` — the position with a distance, and whether it has 32 bits.
* `Loader.distances` — a weights file read without its positions being checked.
* `Checks` — a loader that fails just at the first distance that does not fit.
* **`positions_of_load`** — which positions are loaded, and which are refused.
* `load_beyond_window` — a weight behind the window.
-/

namespace LexicalSelection

open Decoding Codec

namespace Model

variable {lookbehind lookahead : Nat}

/-! ## Positions -/

/-- The position with a distance from the start of the window, in 64 bits. -/
def place (lookbehind distance : Nat) : Int :=
  wrap64 (min (distance : Int) 0x7FFFFFFFFFFFFFFF - wrap64 lookbehind)

/-- The position has 32 bits. -/
def Has32Bits (position : Int) : Prop := -0x80000000 ≤ position ∧ position < 0x80000000

instance decidableHas32Bits (position : Int) : Decidable (Has32Bits position) :=
  inferInstanceAs (Decidable (_ ∧ _))

/-- The first of some distances whose position does not have 32 bits. -/
def misfit? (lookbehind : Nat) (distances : List Nat) : Option Nat :=
  distances.find? fun distance => ¬ Has32Bits (place lookbehind distance)

/-- A distance is a place behind the start of the window, unless it is larger than any signed
word. -/
lemma place_eq (h : lookbehind < twoTo 63) (distance : Nat) :
    place lookbehind distance = min (distance : Int) 0x7FFFFFFFFFFFFFFF - lookbehind := by
  have hword : twoTo 63 = 9223372036854775808 := rfl
  have hword' : (twoTo 63 : Int) = 9223372036854775808 := rfl
  rw [place, wrap64_eq (by omega : -(twoTo 63 : Int) ≤ lookbehind) (by omega),
    wrap64_eq (by omega) (by omega)]

/-- A distance is refused just when the place has more than 32 bits. -/
lemma positionOfStored_eq (lookbehind lookahead distance : Nat) :
    positionOfStored lookbehind lookahead distance =
      if Has32Bits (place lookbehind distance) then .ok (place lookbehind distance)
      else .error (.positionOutOfWindow (place lookbehind distance) lookbehind lookahead) := rfl

/-- No distance leads in front of the window: either the window begins so far back that no position
of 32 bits lies in front of it, or nothing is cut off. -/
lemma lookbehind_le_place {distance : Nat} (h : Has32Bits (place lookbehind distance)) :
    -(lookbehind : Int) ≤ place lookbehind distance := by
  have hword : twoTo 63 = 9223372036854775808 := rfl
  by_cases hsmall : lookbehind < twoTo 63
  · rw [place_eq hsmall]
    omega
  · have hlower := h.1
    omega

/-! ## Positions that are loaded -/

/-- The position of the location has 32 bits and does not lie in front of the window. -/
structure Placed (lookbehind : Nat) (loc : Location) : Prop where
  has32Bits : Has32Bits loc.position
  lookbehind_le : -(lookbehind : Int) ≤ loc.position

/-- A location that is read lies where a distance leads to. -/
lemma gives_location_placed :
    Gives (Loader.location lookbehind lookahead) (Placed lookbehind) := by
  refine (Gives.trivial Loader.nat).bind fun distance _ => ?_
  have hposition : Gives (liftM (positionOfStored lookbehind lookahead distance) : Loader Int)
      fun position => Has32Bits position ∧ -(lookbehind : Int) ≤ position := by
    intro bytes position rest hfound
    have hstored := (liftM_eq_ok.1 hfound).1
    rw [positionOfStored_eq] at hstored
    split at hstored
    · rename_i hbits
      obtain rfl := Except.ok.inj hstored
      exact ⟨hbits, lookbehind_le_place hbits⟩
    · cases hstored
  exact hposition.bind fun position h => (Gives.trivial _).bind fun feature _ =>
    Gives.pure ⟨h.1, h.2⟩

variable {row : WeightRow Binary64} {table : WeightTable Binary64}

/-- So do all locations of the entries that are read. -/
lemma gives_entries_placed (count : Nat) (h : ∀ entry ∈ row, Placed lookbehind entry.1) :
    Gives (Loader.entries lookbehind lookahead count row) fun row =>
      ∀ entry ∈ row, Placed lookbehind entry.1 := by
  induction count generalizing row with
  | zero => exact Gives.pure h
  | succ count ih =>
      refine gives_location_placed.bind fun second hsecond => (Gives.trivial _).bind
        fun weight _ => ih fun entry hentry => ?_
      rcases Ascending.mem_keys_alter hentry with hkey | ⟨old, hold⟩
      · rw [hkey]
        exact hsecond
      · exact h (entry.1, old) hold

/-- So do all locations of the rows that are read. -/
lemma gives_rows_placed (count : Nat) (hordered : table.Ordered)
    (h : ∀ loc, table.Stores loc → Placed lookbehind loc) :
    Gives (Loader.rows lookbehind lookahead count table) fun table =>
      ∀ loc, table.Stores loc → Placed lookbehind loc := by
  induction count generalizing table with
  | zero => exact Gives.pure h
  | succ count ih =>
      refine gives_location_placed.bind fun first hfirst => (Gives.trivial _).bind fun size _ =>
        ((gives_entries_strictKeys size List.Pairwise.nil).and (gives_entries_placed size ?_)).bind
          fun row hrow => ih (WeightTable.ordered_put hordered first hrow.1) fun loc hloc => ?_
      · exact fun _ hentry => absurd hentry List.not_mem_nil
      · rcases WeightTable.stores_put hordered hloc with rfl | ⟨entry, hentry, rfl⟩ | hold
        · exact hfirst
        · exact hrow.2 entry hentry
        · exact h loc hold

/-- **No position in front of the window is loaded**, and none that does not have 32 bits. -/
lemma gives_load_placed :
    Gives load fun model => ∀ loc, model.weights.Stores loc → Placed model.lookbehind loc :=
  (Gives.trivial _).bind fun _ _ => (Gives.trivial _).bind fun _ _ => (Gives.trivial _).bind
    fun _ _ => (Gives.trivial _).bind fun _ _ => (Gives.trivial _).bind fun _ _ =>
      (Gives.trivial _).bind fun _ _ => (Gives.trivial _).bind fun count _ =>
        (gives_rows_placed count WeightTable.ordered_empty
          fun _ hloc => absurd hloc WeightTable.not_stores_empty).bind
            fun _ htable => Gives.pure htable

/-! ## Positions that are refused -/

namespace Loader

/-- The distance of the next location. -/
def locationDistance : Loader (List Nat) := do
  let distance ← Loader.nat
  let _ ← Loader.nat
  return [distance]

/-- Distances, and those behind them. -/
def append (distances behind : Loader (List Nat)) : Loader (List Nat) := do
  return (← distances) ++ (← behind)

/-- The distances of the next entries of a row, the number of them given. -/
def entryDistances : Nat → Loader (List Nat)
  | 0 => pure []
  | count + 1 => locationDistance.append do
      let _ ← Loader.ofDecoder Codec.readReal
      entryDistances count

/-- The distances of the next rows, the number of them given, each in front of those of its
entries. -/
def rowDistances : Nat → Loader (List Nat)
  | 0 => pure []
  | count + 1 => locationDistance.append do
      let size ← Loader.nat
      (entryDistances size).append (rowDistances count)

/-- The window of a weights file, and all distances in the order of the file.  No position is
checked. -/
def distances : Loader (Nat × Nat × List Nat) := do
  Loader.header
  Loader.flags
  let _ ← Loader.nat
  let lookbehind ← Loader.nat
  let lookahead ← Loader.nat
  let _ ← Loader.ofDecoder Matcher.read
  let count ← Loader.nat
  return (lookbehind, lookahead, ← rowDistances count)

end Loader

section Checks

variable {α γ : Type} {loader : Loader α} {distances behind : Loader (List Nat)}

/-- The loader takes the same bytes as a reader of distances when all distances fit.  Else it fails
at the first one that does not. -/
def Checks (lookbehind lookahead : Nat) (loader : Loader α) (distances : Loader (List Nat)) :
    Prop :=
  ∀ bytes found rest, distances bytes = .ok (found, rest) →
    match misfit? lookbehind found with
    | none => ∃ value, loader bytes = .ok (value, rest)
    | some distance => loader bytes =
        .error (.positionOutOfWindow (place lookbehind distance) lookbehind lookahead)

/-- A loader that takes no bytes checks nothing. -/
lemma checks_pure (value : α) :
    Checks lookbehind lookahead (pure value) (pure ([] : List Nat)) := by
  intro bytes found rest hfound
  obtain ⟨rfl, rfl⟩ := pure_eq_ok.1 hfound
  exact ⟨value, rfl⟩

/-- A value that both read changes nothing. -/
lemma Checks.bind_same {decoder : Loader γ} {next : γ → Loader α} {next' : γ → Loader (List Nat)}
    (h : ∀ first, Checks lookbehind lookahead (next first) (next' first)) :
    Checks lookbehind lookahead (decoder >>= next) (decoder >>= next') := by
  intro bytes found rest hfound
  obtain ⟨first, between, hfirst, hfound⟩ := bind_eq_ok.1 hfound
  rw [bind_of_ok hfirst]
  exact h first between found rest hfound

/-- A sequence of loaders checks what its parts check, in their order. -/
lemma Checks.bind {next : α → Loader γ} (h : Checks lookbehind lookahead loader distances)
    (hnext : ∀ value, Checks lookbehind lookahead (next value) behind) :
    Checks lookbehind lookahead (loader >>= next) (distances.append behind) := by
  intro bytes found rest hfound
  obtain ⟨front, between, hfront, hfound⟩ := bind_eq_ok.1 hfound
  obtain ⟨back, between', hback, hfound⟩ := bind_eq_ok.1 hfound
  obtain ⟨rfl, rfl⟩ := pure_eq_ok.1 hfound
  have hfirst := h bytes front between hfront
  rw [misfit?, List.find?_append]
  cases hmisfit : misfit? lookbehind front with
  | none =>
      rw [hmisfit] at hfirst
      obtain ⟨value, hvalue⟩ := hfirst
      rw [misfit?] at hmisfit
      rw [hmisfit, Option.none_or, bind_of_ok hvalue]
      exact hnext value between back between' hback
  | some distance =>
      rw [hmisfit] at hfirst
      rw [misfit?] at hmisfit
      rw [hmisfit, Option.some_or, bind_of_error hfirst]

/-- A location is refused just when its own distance does not fit. -/
lemma checks_location (lookbehind lookahead : Nat) :
    Checks lookbehind lookahead (Loader.location lookbehind lookahead) Loader.locationDistance := by
  refine Checks.bind_same fun distance => ?_
  intro bytes found rest hfound
  obtain ⟨feature, between, hfeature, hfound⟩ := bind_eq_ok.1 hfound
  obtain ⟨rfl, rfl⟩ := pure_eq_ok.1 hfound
  rw [misfit?, List.find?_singleton]
  by_cases hbits : Has32Bits (place lookbehind distance)
  · have hposition : (liftM (positionOfStored lookbehind lookahead distance) : Loader Int) bytes
        = .ok (place lookbehind distance, bytes) := by
      rw [positionOfStored_eq, if_pos hbits]
      rfl
    rw [if_neg (by simpa using hbits), bind_of_ok hposition, bind_of_ok hfeature]
    exact ⟨_, rfl⟩
  · have hposition : (liftM (positionOfStored lookbehind lookahead distance) : Loader Int) bytes
        = .error (.positionOutOfWindow (place lookbehind distance) lookbehind lookahead) := by
      rw [positionOfStored_eq, if_neg hbits]
      rfl
    rw [if_pos (by simpa using hbits), bind_of_error hposition]

/-- Of the entries of a row the first one with a distance that does not fit is refused. -/
lemma checks_entries (count : Nat) (row : WeightRow Binary64) :
    Checks lookbehind lookahead (Loader.entries lookbehind lookahead count row)
      (Loader.entryDistances count) := by
  induction count generalizing row with
  | zero => exact checks_pure row
  | succ count ih =>
      exact (checks_location lookbehind lookahead).bind fun _ => Checks.bind_same fun _ => ih _

/-- Of the rows the first location with a distance that does not fit is refused. -/
lemma checks_rows (count : Nat) (table : WeightTable Binary64) :
    Checks lookbehind lookahead (Loader.rows lookbehind lookahead count table)
      (Loader.rowDistances count) := by
  induction count generalizing table with
  | zero => exact checks_pure table
  | succ count ih =>
      exact (checks_location lookbehind lookahead).bind fun _ => Checks.bind_same fun size =>
        (checks_entries size []).bind fun _ => ih _

end Checks

/-- **A file is loaded just when all its distances fit**; else it is refused at the first that does
not. -/
lemma load_of_distances {bytes rest : Bytes} {distances : List Nat}
    (h : Loader.distances bytes = .ok ((lookbehind, lookahead, distances), rest)) :
    match misfit? lookbehind distances with
    | none => ∃ model, load bytes = .ok (model, rest) ∧ model.lookbehind = lookbehind ∧
        model.lookahead = lookahead
    | some distance => load bytes =
        .error (.positionOutOfWindow (place lookbehind distance) lookbehind lookahead) := by
  obtain ⟨_, bytes₁, hheader, h⟩ := bind_eq_ok.1 h
  obtain ⟨_, bytes₂, hflags, h⟩ := bind_eq_ok.1 h
  obtain ⟨beam, bytes₃, hbeam, h⟩ := bind_eq_ok.1 h
  obtain ⟨_, bytes₄, hlookbehind, h⟩ := bind_eq_ok.1 h
  obtain ⟨_, bytes₅, hlookahead, h⟩ := bind_eq_ok.1 h
  obtain ⟨matcher, bytes₆, hmatcher, h⟩ := bind_eq_ok.1 h
  obtain ⟨count, bytes₇, hcount, h⟩ := bind_eq_ok.1 h
  obtain ⟨_, bytes₈, hrows, h⟩ := bind_eq_ok.1 h
  obtain ⟨hfound, rfl⟩ := pure_eq_ok.1 h
  cases hfound
  rw [load, bind_of_ok hheader, bind_of_ok hflags, bind_of_ok hbeam, bind_of_ok hlookbehind,
    bind_of_ok hlookahead, bind_of_ok hmatcher, bind_of_ok hcount]
  have hchecks : Checks lookbehind lookahead (Loader.rows lookbehind lookahead count {})
      (Loader.rowDistances count) := checks_rows count {}
  have hload := hchecks bytes₇ distances bytes₈ hrows
  cases hmisfit : misfit? lookbehind distances with
  | none =>
      rw [hmisfit] at hload
      obtain ⟨weights, hweights⟩ := hload
      exact ⟨_, bind_of_ok hweights, rfl, rfl⟩
  | some distance =>
      rw [hmisfit] at hload
      exact bind_of_error hload

/-- A loader that blames a position only if it does not have 32 bits. -/
def BlamesMisfits {α : Type} (loader : Loader α) : Prop :=
  ∀ bytes position lookbehind lookahead,
    loader bytes = .error (.positionOutOfWindow position lookbehind lookahead) →
      ¬ Has32Bits position

section Blames

variable {α β : Type}

lemma blames_pure (value : α) : BlamesMisfits (pure value : Loader α) := by
  intro bytes position lookbehind lookahead h
  cases h

/-- A sequence of loaders blames misfits only when both of its parts do. -/
lemma BlamesMisfits.bind {loader : Loader α} {next : α → Loader β} (h : BlamesMisfits loader)
    (hnext : ∀ value, BlamesMisfits (next value)) : BlamesMisfits (loader >>= next) := by
  intro bytes position lookbehind lookahead herror
  cases hfound : loader bytes with
  | error error =>
      rw [bind_of_error hfound] at herror
      obtain rfl := Except.error.inj herror
      exact h bytes position lookbehind lookahead hfound
  | ok found =>
      rw [bind_of_ok hfound] at herror
      exact hnext found.1 found.2 position lookbehind lookahead herror

/-- A broken format is not blamed on a position. -/
lemma blames_ofDecoder (decoder : Decoder α) : BlamesMisfits (Loader.ofDecoder decoder) := by
  intro bytes position lookbehind lookahead h
  rw [Loader.ofDecoder] at h
  split at h <;> cases h

lemma blames_header : BlamesMisfits Loader.header := by
  intro bytes position lookbehind lookahead h
  rw [Loader.header] at h
  split at h <;> cases h

lemma blames_flags : BlamesMisfits Loader.flags := by
  intro bytes position lookbehind lookahead h
  rw [Loader.flags] at h
  split at h
  · cases h
  · split at h <;> cases h

/-- A position is blamed only when it has more than 32 bits. -/
lemma blames_position (lookbehind lookahead distance : Nat) :
    BlamesMisfits (liftM (positionOfStored lookbehind lookahead distance) : Loader Int) := by
  intro bytes position lookbehind' lookahead' h
  rw [positionOfStored_eq] at h
  split at h
  · cases h
  · rename_i hbits
    cases h
    exact hbits

/-- Reading a location blames no other position. -/
lemma blames_location (lookbehind lookahead : Nat) :
    BlamesMisfits (Loader.location lookbehind lookahead) :=
  (blames_ofDecoder _).bind fun distance => (blames_position lookbehind lookahead distance).bind
    fun _ => (blames_ofDecoder _).bind fun _ => blames_pure _

/-- Nor does reading the entries of a row. -/
lemma blames_entries (lookbehind lookahead count : Nat) (row : WeightRow Binary64) :
    BlamesMisfits (Loader.entries lookbehind lookahead count row) := by
  induction count generalizing row with
  | zero => exact blames_pure row
  | succ count ih =>
      exact (blames_location lookbehind lookahead).bind fun _ => (blames_ofDecoder _).bind
        fun _ => ih _

/-- Nor does reading rows. -/
lemma blames_rows (lookbehind lookahead count : Nat) (table : WeightTable Binary64) :
    BlamesMisfits (Loader.rows lookbehind lookahead count table) := by
  induction count generalizing table with
  | zero => exact blames_pure table
  | succ count ih =>
      exact (blames_location lookbehind lookahead).bind fun _ => (blames_ofDecoder _).bind
        fun size => (blames_entries lookbehind lookahead size []).bind fun _ => ih _

/-- Nor does loading a whole file. -/
lemma blames_load : BlamesMisfits load :=
  blames_header.bind fun _ => blames_flags.bind fun _ => (blames_ofDecoder _).bind fun _ =>
    (blames_ofDecoder _).bind fun lookbehind => (blames_ofDecoder _).bind fun lookahead =>
      (blames_ofDecoder _).bind fun _ => (blames_ofDecoder _).bind fun count =>
        (blames_rows lookbehind lookahead count {}).bind fun _ => blames_pure _

end Blames

/-! ## All files -/

/-- A file that was written of a model from a rule file has its locations inside the window. -/
lemma exists_windowed_of_compile {rules written more : Bytes} {source : Model Binary64}
    (hrules : ofRuleBytes rules = .ok source) (hfits : source.FitsWords)
    (hsettings : source.SmallSettings) (hcompile : source.compile = .ok written) :
    ∃ model, load (written ++ more) = .ok (model, more) ∧ model.Windowed := by
  have hstorable := (Obtained.rules rules source hrules hfits).storable hsettings
  rw [compile_eq hstorable, Except.ok.injEq] at hcompile
  refine ⟨source.stored, by rw [← hcompile, takes_load hstorable more], ?_⟩
  obtain ⟨text, rfl⟩ := exists_text_of_ofRuleBytes hrules
  intro loc hloc
  exact windowed_ofRules text loc ((WeightTable.stores_mapWeights _).1 hloc)

/-- **The positions of a weights file.**  All locations that are loaded, whatever the bytes, have
positions of 32 bits that do not lie in front of the window.

A file that can be read but for its positions is loaded just when the position of each distance has
32 bits.  Else it is refused, and the first position that does not is blamed.  No other position is
ever blamed.  The end of the window is not looked at; but in all files that have been written of
models from rule files, no location lies behind it. -/
theorem positions_of_load (bytes : Bytes) :
    (∀ model rest, load bytes = .ok (model, rest) →
      ∀ loc, model.weights.Stores loc → Placed model.lookbehind loc) ∧
    (∀ lookbehind lookahead distances rest,
      Loader.distances bytes = .ok ((lookbehind, lookahead, distances), rest) →
        match misfit? lookbehind distances with
        | none => ∃ model, load bytes = .ok (model, rest) ∧ model.lookbehind = lookbehind ∧
            model.lookahead = lookahead
        | some distance => load bytes =
            .error (.positionOutOfWindow (place lookbehind distance) lookbehind lookahead)) ∧
    (∀ position lookbehind lookahead,
      load bytes = .error (.positionOutOfWindow position lookbehind lookahead) →
        ¬ Has32Bits position) ∧
    ∀ rules source written, ofRuleBytes rules = .ok source → source.FitsWords →
      source.SmallSettings → source.compile = .ok written → written <+: bytes →
        ∃ model rest, load bytes = .ok (model, rest) ∧ model.Windowed := by
  refine ⟨gives_load_placed bytes, fun _ _ _ _ => load_of_distances, blames_load bytes, ?_⟩
  rintro rules source written hrules hfits hsettings hcompile ⟨more, rfl⟩
  obtain ⟨model, hload, hwindowed⟩ := exists_windowed_of_compile hrules hfits hsettings hcompile
  exact ⟨model, more, hload, hwindowed⟩

/-- The beginning of a weights file that has no window and no patterns, as far as its rows. -/
def windowless : Bytes :=
  [65, 80, 83, 76, 0, 0, 0, 0, 0, 0, 0, 0, 0, 0, 0, 4, 0, 10, 60, 65, 78, 89, 95, 67, 72, 65, 82,
    62, 0, 9, 60, 65, 78, 89, 95, 84, 65, 71, 62, 0, 9, 60, 115, 105, 100, 101, 58, 115, 108, 62, 0,
    9, 60, 115, 105, 100, 101, 58, 116, 108, 62, 1, 0, 0, 0, 0]

/-- The second position of the first file is that of its window.  The one of the second file is the
first that has no 32 bits, and is refused. -/
theorem positions_of_load_two_files :
    let inside := windowless ++ [1, 0, 0, 1, 0, 1, 10, 0]
    let refused := windowless ++ [1, 0, 0, 1, 128, 128, 128, 128, 8, 1, 10, 0]
    Loader.distances inside = .ok ((0, 0, [0, 0]), []) ∧
    (∃ model, load inside = .ok (model, []) ∧ model.lookbehind = 0 ∧
      ∀ loc, model.weights.Stores loc → Placed 0 loc) ∧
    Loader.distances refused = .ok ((0, 0, [0, 0x80000000]), []) ∧
    load refused = .error (.positionOutOfWindow 0x80000000 0 0) := by
  intro inside refused
  have hinside : Loader.distances inside = .ok ((0, 0, [0, 0]), []) := by decide +kernel
  have hrefused : Loader.distances refused = .ok ((0, 0, [0, 0x80000000]), []) := by decide +kernel
  obtain ⟨hplaced, hload, -⟩ := positions_of_load inside
  obtain ⟨model, hmodel, hlookbehind, -⟩ := hload 0 0 _ _ hinside
  refine ⟨hinside, ⟨model, hmodel, hlookbehind, fun loc hloc => ?_⟩, hrefused, ?_⟩
  · rw [← hlookbehind]
    exact hplaced model [] hmodel loc hloc
  · exact (positions_of_load refused).2.1 0 0 _ _ hrefused

/-- This file has no units ahead in its window, and a weight for the unit ahead.  It is loaded. -/
theorem load_beyond_window :
    let bytes := windowless ++ [1, 0, 0, 1, 1, 1, 10, 0]
    ∃ model, load bytes = .ok (model, []) ∧ model.lookbehind = 0 ∧ model.lookahead = 0 ∧
      model.weights.Stores ⟨1, 1⟩ ∧ ¬ model.Windowed := by
  intro bytes
  have hdistances : Loader.distances bytes = .ok ((0, 0, [0, 1]), []) := by decide +kernel
  obtain ⟨model, hload, hlookbehind, hlookahead⟩ := load_of_distances hdistances
  obtain ⟨model', hload', hrows⟩ : ∃ model, load bytes = .ok (model, []) ∧
      model.weights.rows = [(⟨0, 0⟩, [(⟨1, 1⟩, ⟨0x4014000000000000⟩)])] :=
    exists_of_loadedRows (by decide +kernel)
  obtain rfl : model' = model := (Prod.mk.inj (Except.ok.inj (hload'.symm.trans hload))).1
  have hweights : model'.weights = ⟨[(⟨0, 0⟩, [(⟨1, 1⟩, ⟨0x4014000000000000⟩)])]⟩ :=
    congrArg WeightTable.mk hrows
  have hstores : model'.weights.Stores ⟨1, 1⟩ := by
    rw [hweights]
    decide
  refine ⟨model', hload, hlookbehind, hlookahead, hstores, fun hwindowed => ?_⟩
  have hposition := (hwindowed ⟨1, 1⟩ hstores).2
  rw [hlookahead] at hposition
  exact absurd hposition (by decide)

end Model

end LexicalSelection
