import LexicalSelection.Model.Binary
import LexicalSelection.Proofs.Codec.Real
import LexicalSelection.Proofs.Model.Features
import LexicalSelection.Proofs.Model.Rules
import LexicalSelection.Proofs.Pattern.Stored

/-!
# Weights files read back

* `Model.Storable` — the models that can be stored.
* `Model.stored` — what comes back of a model: no names, and no negative zeros.
* `takes_load`, `steady_load` — a stored model is read back, and no beginning of its file is read.
* `score_dropZeroSign` — without negative zeros, all features weigh the same.
* **`load_compile`** — so it is with all models from rule files and from weights files.
-/

namespace LexicalSelection

open Decoding Codec

/-! ## Weights without negative zeros -/

namespace WeightTable

variable {α β : Type}

/-- The row with something done to each weight. -/
def mapRow (f : α → β) (row : WeightRow α) : WeightRow β :=
  row.map fun (second, weight) => (second, f weight)

lemma mapRow_cons (f : α → β) (second : Location) (weight : α) (row : WeightRow α) :
    mapRow f ((second, weight) :: row) = (second, f weight) :: mapRow f row := rfl

/-- The table with something done to each weight. -/
def mapWeights (f : α → β) (table : WeightTable α) : WeightTable β :=
  ⟨table.rows.map fun (first, row) => (first, mapRow f row)⟩

/-- Looking a key up does not care for what is done to the values. -/
lemma find?_map {κ : Type} [Ord κ] (f : α → β) (k : κ) (map : List (κ × α)) :
    Ascending.find? k (map.map fun (l, b) => (l, f b)) = (Ascending.find? k map).map f := by
  induction map with
  | nil => rfl
  | cons head rest ih =>
      rw [List.map_cons, Ascending.find?, Ascending.find?]
      split
      · rfl
      · exact ih

/-- The changed table finds a weight where the table finds one, and changes it. -/
lemma find?_mapWeights (f : α → β) (table : WeightTable α) (first second : Location) :
    (table.mapWeights f).find? first second = (table.find? first second).map f := by
  have hrow : Ascending.find? first (table.mapWeights f).rows
      = (Ascending.find? first table.rows).map (mapRow f) := find?_map (mapRow f) first table.rows
  rw [find?, find?, hrow]
  cases Ascending.find? first table.rows with
  | none => rfl
  | some row => exact find?_map f second row

/-- Only weights change, so the smaller location of each pair still comes first. -/
lemma canonical_mapWeights {table : WeightTable α} (h : table.Canonical) (f : α → β) :
    (table.mapWeights f).Canonical := by
  intro first second weight hweight
  rw [find?_mapWeights] at hweight
  obtain ⟨weight, hweight, -⟩ := Option.map_eq_some_iff.1 hweight
  exact h first second weight hweight

/-- The same pairs are scored, each with its changed weight. -/
lemma scored_mapWeights (f : α → β) (table : WeightTable α) (active : List Location) :
    (table.mapWeights f).scored active
      = (table.scored active).map fun (pair, weight) => (pair, f weight) := by
  induction active with
  | nil => rfl
  | cons first rest ih =>
      rw [scored_cons, scored_cons, List.map_append, ← ih, List.map_filterMap]
      simp only [find?_mapWeights, Option.map_map]
      rfl

/-- **Negative zeros do not count.**  A sum that starts with the positive zero never becomes the
negative one, and to all other numbers it is no matter which zero is added. -/
lemma foldl_add_dropZeroSign (weights : List (Pair × Binary64)) {total : Binary64}
    (htotal : total ≠ Binary64.negativeZero) :
    (weights.map fun (pair, weight) => (pair, weight.dropZeroSign)).foldl
        (fun total (_, weight) => total + weight) total
      = weights.foldl (fun total (_, weight) => total + weight) total := by
  induction weights generalizing total with
  | nil => rfl
  | cons entry weights ih =>
      have hstep : total + entry.2.dropZeroSign = total + entry.2 := by
        rw [Binary64.dropZeroSign]
        split
        · rename_i hzero
          rw [hzero, Binary64.sum_negativeZero htotal]
        · rfl
      rw [List.map_cons, List.foldl_cons, List.foldl_cons]
      show List.foldl _ (total + entry.2.dropZeroSign) _ = List.foldl _ (total + entry.2) _
      rw [hstep]
      exact ih (Binary64.sum_ne_negativeZero entry.2 htotal)

/-- Without the signs of zeros, any active locations score as much as before. -/
lemma score_dropZeroSign (table : WeightTable Binary64) (active : List Location) :
    (table.mapWeights Binary64.dropZeroSign).score active = table.score active := by
  rw [score, scored_mapWeights]
  exact foldl_add_dropZeroSign _ (by decide)

end WeightTable

namespace Model

/-! ## Positions -/

/-- What fits into 64 bits is not wrapped. -/
lemma wrap64_eq {z : Int} (hlower : -twoTo 63 ≤ z) (hupper : z < twoTo 63) : wrap64 z = z := by
  have hword : (twoTo 63 : Int) = 9223372036854775808 := rfl
  rw [wrap64]
  exact Int.bmod_eq_of_le (by omega) (by omega)

variable {lookbehind lookahead features : Nat} {loc : Location}

/-- The distance of a location from the start of the window. -/
def distance (lookbehind : Nat) (loc : Location) : Nat := (loc.position + lookbehind).toNat

/-- A position in the window is stored as its distance from the start of the window. -/
lemma storedPosition_eq (hlookbehind : lookbehind < twoTo 62) (h : loc.Within lookbehind features) :
    storedPosition lookbehind lookahead loc.position = .ok (distance lookbehind loc) := by
  have hword : twoTo 62 = 4611686018427387904 := rfl
  have hword' : (twoTo 63 : Int) = 9223372036854775808 := rfl
  obtain ⟨hlower, hupper, hinside, -⟩ := h
  rw [storedPosition, wrap64_eq (by omega : -(twoTo 63 : Int) ≤ lookbehind) (by omega),
    wrap64_eq (by omega) (by omega)]
  rw [if_pos hinside, distance]

/-- The stored distance of a position in the window is read as that position. -/
lemma positionOfStored_distance (hlookbehind : lookbehind < twoTo 62)
    (h : loc.Within lookbehind features) :
    positionOfStored lookbehind lookahead (distance lookbehind loc) = .ok loc.position := by
  have hword : twoTo 62 = 4611686018427387904 := rfl
  have hword' : (twoTo 63 : Int) = 9223372036854775808 := rfl
  obtain ⟨hlower, hupper, hinside, -⟩ := h
  have hdistance : (min (distance lookbehind loc : Int) 0x7FFFFFFFFFFFFFFF - lookbehind)
      = loc.position := by
    rw [distance]
    omega
  rw [positionOfStored, wrap64_eq (by omega : -(twoTo 63 : Int) ≤ lookbehind) (by omega), hdistance,
    wrap64_eq (by omega) (by omega)]
  rw [if_pos ⟨hlower, hupper⟩]

/-- A position that is read is one that is written. -/
lemma positionOfStored_eq_ok {distance : Nat} {position : Int} (hlookbehind : lookbehind < twoTo 62)
    (h : positionOfStored lookbehind lookahead distance = .ok position) :
    -0x80000000 ≤ position ∧ position < 0x80000000 ∧ 0 ≤ position + lookbehind := by
  have hword : twoTo 62 = 4611686018427387904 := rfl
  have hword' : (twoTo 63 : Int) = 9223372036854775808 := rfl
  rw [positionOfStored, wrap64_eq (by omega : -(twoTo 63 : Int) ≤ lookbehind) (by omega),
    wrap64_eq (by omega) (by omega)] at h
  split at h
  · rename_i hbounds
    obtain rfl := Except.ok.inj h
    omega
  · cases h

/-! ## Writing -/

/-- The bytes of a location. -/
def locationBytes (lookbehind : Nat) (loc : Location) : Bytes :=
  writeNat (distance lookbehind loc) ++ writeNat loc.feature

/-- The bytes of an entry. -/
def entryBytes (lookbehind : Nat) (entry : Location × Binary64) : Bytes :=
  locationBytes lookbehind entry.1 ++ writeReal entry.2

/-- The bytes of a row. -/
def rowBytes (lookbehind : Nat) (row : Location × WeightRow Binary64) : Bytes :=
  locationBytes lookbehind row.1
    ++ (writeNat row.2.length ++ row.2.flatMap (entryBytes lookbehind))

/-- The bytes of a model all of whose positions can be stored. -/
def fileBytes (model : Model Binary64) : Bytes :=
  model.writeSettings ++ (writeNat model.weights.rows.length
    ++ model.weights.rows.flatMap (rowBytes model.lookbehind))

/-- All parts can be written, and these are their bytes. -/
def Written (parts : List FilePart) (bytes : Bytes) : Prop := writeParts parts = (bytes, none)

lemma written_nil : Written [] [] := rfl

lemma Written.cons {parts : List FilePart} {bytes : Bytes} (front : Bytes)
    (h : Written parts bytes) : Written (.ok front :: parts) (front ++ bytes) := by
  rw [Written, writeParts, h]

/-- What can be written in two pieces can be written in one, bytes behind bytes. -/
lemma Written.append {parts parts' : List FilePart} {bytes bytes' : Bytes}
    (h : Written parts bytes) (h' : Written parts' bytes') :
    Written (parts ++ parts') (bytes ++ bytes') := by
  induction parts generalizing bytes with
  | nil =>
      obtain rfl : [] = bytes := (Prod.mk.inj h).1
      exact h'
  | cons part parts ih =>
      cases part with
      | error error => cases h
      | ok front =>
          obtain ⟨hbytes, hnone⟩ := Prod.mk.inj h
          subst hbytes
          rw [List.append_assoc]
          exact Written.cons front (ih (Prod.ext rfl hnone))

/-- If the parts of each item can be written, so can the parts of all of them in a row. -/
lemma written_flatMap {β : Type} {items : List β} {parts : β → List FilePart} {bytes : β → Bytes}
    (h : ∀ item ∈ items, Written (parts item) (bytes item)) :
    Written (items.flatMap parts) (items.flatMap bytes) := by
  induction items with
  | nil => exact written_nil
  | cons item items ih =>
      obtain ⟨hitem, hitems⟩ := List.forall_mem_cons.1 h
      exact hitem.append (ih hitems)

/-- The rows can be stored. -/
structure RowsStorable (lookbehind : Nat) (table : WeightTable Binary64) : Prop where
  ordered : table.Ordered
  length_lt : ∀ first row, (first, row) ∈ table.rows → row.length < twoTo 64
  within : ∀ first row, (first, row) ∈ table.rows → first.Within lookbehind (twoTo 64) ∧
    ∀ second weight, (second, weight) ∈ row → second.Within lookbehind (twoTo 64)

/-- The settings leave room for positions in 64 bits. -/
structure SmallSettings (model : Model Binary64) : Prop where
  beam : model.beam < twoTo 62
  lookbehind : model.lookbehind < twoTo 62
  lookahead : model.lookahead < twoTo 62

/-- The model can be stored. -/
structure Storable (model : Model Binary64) : Prop where
  settings : model.SmallSettings
  matcher : model.matcher.Storable
  rows : RowsStorable model.lookbehind model.weights
  count_lt : model.weights.rows.length < twoTo 64

/-- A location in the window can be written. -/
lemma writeLocation_eq {model : Model Binary64} (hlookbehind : model.lookbehind < twoTo 62)
    (h : loc.Within model.lookbehind features) :
    model.writeLocation loc = .ok (locationBytes model.lookbehind loc) := by
  rw [writeLocation, storedPosition_eq hlookbehind h]
  rfl

/-- A weight can be written when its second location lies in the window. -/
lemma written_entryParts {model : Model Binary64} {entry : Location × Binary64}
    (hlookbehind : model.lookbehind < twoTo 62)
    (h : entry.1.Within model.lookbehind features) :
    Written (model.entryParts entry) (entryBytes model.lookbehind entry) := by
  have hreal := Written.cons (writeReal entry.2) written_nil
  rw [List.append_nil] at hreal
  rw [entryParts, writeLocation_eq hlookbehind h]
  exact Written.cons _ hreal

/-- A row can be written when all of its locations lie in the window. -/
lemma written_rowParts {model : Model Binary64} {row : Location × WeightRow Binary64}
    (hlookbehind : model.lookbehind < twoTo 62) (hfirst : row.1.Within model.lookbehind features)
    (hsecond : ∀ entry ∈ row.2, entry.1.Within model.lookbehind features) :
    Written (model.rowParts row) (rowBytes model.lookbehind row) := by
  rw [rowParts, writeLocation_eq hlookbehind hfirst]
  exact Written.cons _ (Written.cons _ (written_flatMap fun entry hentry =>
    written_entryParts hlookbehind (hsecond entry hentry)))

/-- No part of the file of a storable model meets an error. -/
lemma written_fileParts {model : Model Binary64} (h : model.Storable) :
    Written model.fileParts model.fileBytes := by
  have hrow : ∀ row ∈ model.weights.rows,
      Written (model.rowParts row) (rowBytes model.lookbehind row) := by
    intro row hrow
    obtain ⟨hfirst, hsecond⟩ := h.rows.within row.1 row.2 hrow
    exact written_rowParts h.settings.lookbehind hfirst fun entry hentry =>
      hsecond entry.1 entry.2 hentry
  rw [fileBytes, ← List.append_assoc]
  exact Written.cons _ (written_flatMap hrow)

/-- A storable model is compiled, and to just these bytes. -/
lemma compile_eq {model : Model Binary64} (h : model.Storable) :
    model.compile = .ok model.fileBytes := by
  have hemit : model.emit = (model.fileBytes, none) := written_fileParts h
  rw [compile, hemit]

/-! ## Reading -/

/-- A loader takes what the decoder in it takes. -/
lemma takes_ofDecoder {α : Type} {decoder : Decoder α} {bytes : Bytes} {value : α}
    (h : Takes decoder bytes value) : Takes (Loader.ofDecoder decoder) bytes value := by
  intro rest
  rw [Loader.ofDecoder, h rest]

/-- Wrapping the errors of a decoder does not change when it succeeds. -/
lemma ofDecoder_eq_ok {α : Type} {decoder : Decoder α} {bytes rest : Bytes} {value : α} :
    Loader.ofDecoder decoder bytes = .ok (value, rest) ↔ decoder bytes = .ok (value, rest) := by
  rw [Loader.ofDecoder]
  cases decoder bytes <;> simp

/-- A loader is as steady as the decoder in it. -/
lemma steady_ofDecoder {α : Type} {decoder : Decoder α} (h : Steady decoder) :
    Steady (Loader.ofDecoder decoder) :=
  fun bytes value rest more hfound =>
    ofDecoder_eq_ok.2 (h bytes value rest more (ofDecoder_eq_ok.1 hfound))

/-- A loader gives what the decoder in it gives. -/
lemma gives_ofDecoder {α : Type} {decoder : Decoder α} {property : α → Prop}
    (h : Gives decoder property) : Gives (Loader.ofDecoder decoder) property :=
  fun bytes value rest hfound => h bytes value rest (ofDecoder_eq_ok.1 hfound)

lemma takes_nat {n : Nat} (h : n < twoTo 64) : Takes Loader.nat (writeNat n) n :=
  takes_ofDecoder (takes_readNat h)

lemma steady_nat : Steady Loader.nat := steady_ofDecoder steady_readNat

lemma gives_nat : Gives Loader.nat (· < twoTo 64) := gives_ofDecoder gives_readNat

/-- The header that is written is the one that is asked for. -/
lemma takes_header : Takes Loader.header header () := by
  intro rest
  rw [Loader.header, if_pos (List.prefix_append _ _), List.drop_left]

lemma steady_header : Steady Loader.header := by
  intro bytes value rest more h
  rw [Loader.header] at h ⊢
  split at h
  · rename_i hprefix
    obtain ⟨behind, rfl⟩ := hprefix
    obtain ⟨-, rfl⟩ := Prod.mk.inj (Except.ok.inj h)
    rw [List.append_assoc, if_pos (List.prefix_append _ _), List.drop_left, List.drop_left]
  · cases h

/-- The flags are read back when none is set. -/
lemma takes_flags : Takes Loader.flags (writeWord 8 0) () := by
  intro rest
  rw [Loader.flags, (takesAll_readWord (by decide)).takes rest]
  rfl

lemma steady_flags : Steady Loader.flags := by
  intro bytes value rest more h
  rw [Loader.flags] at h ⊢
  split at h
  · cases h
  · rename_i flags behind hflags
    rw [steady_readWord 8 _ _ _ more hflags]
    split at h
    · rename_i hzero
      obtain ⟨-, rfl⟩ := Prod.mk.inj (Except.ok.inj h)
      simp only [hzero, if_true]
    · cases h

/-- A computed part takes no bytes, and fails just when its computation does. -/
lemma liftM_eq_ok {α : Type} {found : Except ModelError α} {bytes rest : Bytes} {value : α} :
    (liftM found : Loader α) bytes = .ok (value, rest) ↔ found = .ok value ∧ bytes = rest := by
  show found.bind (fun value => .ok (value, bytes)) = .ok (value, rest) ↔ _
  cases found <;> simp [Except.bind]

/-- A location in the window is read back from its distance and its feature. -/
lemma takes_location (hlookbehind : lookbehind < twoTo 62)
    (h : loc.Within lookbehind (twoTo 64)) :
    Takes (Loader.location lookbehind lookahead) (locationBytes lookbehind loc) loc := by
  have hdistance : distance lookbehind loc < twoTo 64 := by
    have hword : twoTo 62 = 4611686018427387904 := rfl
    have hword' : twoTo 64 = 18446744073709551616 := rfl
    have hupper := h.upper
    rw [distance]
    omega
  have hposition : Takes (liftM (positionOfStored lookbehind lookahead (distance lookbehind loc))
      : Loader Int) [] loc.position :=
    fun rest => liftM_eq_ok.2 ⟨positionOfStored_distance hlookbehind h, rfl⟩
  exact (takes_nat hdistance).bind (hposition.bind ((takes_nat h.feature_lt).bind_pure _))

lemma steady_liftM {α : Type} (found : Except ModelError α) :
    Steady (liftM found : Loader α) := by
  intro bytes value rest more h
  obtain ⟨hfound, rfl⟩ := liftM_eq_ok.1 h
  exact liftM_eq_ok.2 ⟨hfound, rfl⟩

/-- Bytes behind a location make no difference to reading it. -/
lemma steady_location (lookbehind lookahead : Nat) :
    Steady (Loader.location lookbehind lookahead) :=
  steady_nat.bind fun _ => (steady_liftM _).bind fun _ => steady_nat.bind fun _ => Steady.pure _

/-- Each location that is read lies in the window, and its feature has 64 bits. -/
lemma gives_location (hlookbehind : lookbehind < twoTo 62) :
    Gives (Loader.location lookbehind lookahead) (Location.Within lookbehind (twoTo 64)) := by
  refine (Gives.trivial Loader.nat).bind fun distance _ => ?_
  have hposition : Gives (liftM (positionOfStored lookbehind lookahead distance) : Loader Int)
      fun position => -0x80000000 ≤ position ∧ position < 0x80000000 ∧
        0 ≤ position + lookbehind :=
    fun _ _ _ h => positionOfStored_eq_ok hlookbehind (liftM_eq_ok.1 h).1
  exact hposition.bind fun position hposition => gives_nat.bind fun feature hfeature =>
    Gives.pure ⟨hposition.1, hposition.2.1, hposition.2.2, hfeature⟩

/-! ## Rows -/

variable {row entries : WeightRow Binary64}

/-- Entries that come in ascending order behind those of a row are added at its end. -/
lemma takes_entries (hlookbehind : lookbehind < twoTo 62)
    (hstrict : Ascending.StrictKeys entries)
    (hbehind : ∀ new ∈ entries, ∀ old ∈ row, compare new.1 old.1 = .gt)
    (hwithin : ∀ entry ∈ entries, entry.1.Within lookbehind (twoTo 64)) :
    Takes (Loader.entries lookbehind lookahead entries.length row)
      (entries.flatMap (entryBytes lookbehind))
      (row ++ WeightTable.mapRow Binary64.dropZeroSign entries) := by
  induction entries generalizing row with
  | nil =>
      rw [WeightTable.mapRow, List.map_nil, List.append_nil]
      exact Takes.pure row
  | cons entry entries ih =>
      obtain ⟨second, weight⟩ := entry
      obtain ⟨hsecond, hentries⟩ := List.pairwise_cons.1 hstrict
      obtain ⟨hlast, hbehind⟩ := List.forall_mem_cons.1 hbehind
      obtain ⟨hloc, hwithin⟩ := List.forall_mem_cons.1 hwithin
      have hput : Ascending.put second weight.dropZeroSign row
          = row ++ [(second, weight.dropZeroSign)] := Ascending.alter_of_forall_gt hlast
      rw [List.flatMap_cons, entryBytes, List.append_assoc]
      refine (takes_location hlookbehind hloc).bind
        ((takes_ofDecoder (takes_readReal weight)).bind ?_)
      rw [WeightTable.mapRow_cons, List.append_cons row, hput]
      refine ih hentries (fun new hnew old hold => ?_) hwithin
      rcases List.mem_append.1 hold with hold | hold
      · exact hbehind new hnew old hold
      · rw [List.mem_singleton.1 hold]
        exact Std.OrientedCmp.gt_of_lt (hsecond new hnew)

lemma steady_entries (lookbehind lookahead count : Nat) (row : WeightRow Binary64) :
    Steady (Loader.entries lookbehind lookahead count row) := by
  induction count generalizing row with
  | zero => exact Steady.pure row
  | succ count ih =>
      exact (steady_location lookbehind lookahead).bind fun _ =>
        (steady_ofDecoder steady_readReal).bind fun _ => ih _

/-- The row can be stored, if it has no more than so many entries. -/
structure RowStorable (lookbehind count : Nat) (row : WeightRow Binary64) : Prop where
  strict : Ascending.StrictKeys row
  length_le : row.length ≤ count
  within : ∀ entry ∈ row, entry.1.Within lookbehind (twoTo 64)

/-- Putting one more location of the window into a row leaves it storable. -/
lemma rowStorable_put {count : Nat} (h : RowStorable lookbehind count row)
    (hloc : loc.Within lookbehind (twoTo 64)) (weight : Binary64) :
    RowStorable lookbehind (count + 1) (Ascending.put loc weight row) where
  strict := Ascending.strictKeys_alter h.strict
  length_le := (Ascending.length_alter_le _ _ _).trans (Nat.succ_le_succ h.length_le)
  within entry hentry := by
    rcases (Ascending.mem_alter h.strict).1 hentry with ⟨heq, -⟩ | ⟨-, hmem⟩
    · rw [heq]
      exact hloc
    · exact h.within _ hmem

/-- A row that is read can be stored again, with at most one entry more for each that was
announced. -/
lemma gives_entries (hlookbehind : lookbehind < twoTo 62) (count : Nat) {length : Nat}
    (h : RowStorable lookbehind length row) :
    Gives (Loader.entries lookbehind lookahead count row)
      (RowStorable lookbehind (length + count)) := by
  induction count generalizing row length with
  | zero => exact Gives.pure h
  | succ count ih =>
      refine (gives_location hlookbehind).bind fun second hsecond =>
        (Gives.trivial _).bind fun weight _ => ?_
      rw [Nat.add_comm count 1, ← Nat.add_assoc]
      exact ih (rowStorable_put h hsecond weight)

variable {table : WeightTable Binary64} {rows : List (Location × WeightRow Binary64)}

/-- Rows that come in ascending order behind those of a table are added at its end. -/
lemma takes_rows (hlookbehind : lookbehind < twoTo 62)
    (hstrict : Ascending.StrictKeys rows)
    (hbehind : ∀ new ∈ rows, ∀ old ∈ table.rows, compare new.1 old.1 = .gt)
    (hrows : ∀ row ∈ rows, row.1.Within lookbehind (twoTo 64) ∧ row.2.length < twoTo 64 ∧
      Ascending.StrictKeys row.2 ∧ ∀ entry ∈ row.2, entry.1.Within lookbehind (twoTo 64)) :
    Takes (Loader.rows lookbehind lookahead rows.length table) (rows.flatMap (rowBytes lookbehind))
      ⟨table.rows ++ rows.map fun (first, row) =>
        (first, WeightTable.mapRow Binary64.dropZeroSign row)⟩ := by
  induction rows generalizing table with
  | nil =>
      rw [List.map_nil, List.append_nil]
      exact Takes.pure table
  | cons head rows ih =>
      obtain ⟨first, row⟩ := head
      obtain ⟨hfirst, hrest⟩ := List.pairwise_cons.1 hstrict
      obtain ⟨hlast, hbehind⟩ := List.forall_mem_cons.1 hbehind
      obtain ⟨⟨hloc, hlength, hrow, hwithin⟩, hrows⟩ := List.forall_mem_cons.1 hrows
      have hentries : Takes (Loader.entries lookbehind lookahead row.length [])
          (row.flatMap (entryBytes lookbehind)) (WeightTable.mapRow Binary64.dropZeroSign row) :=
        takes_entries hlookbehind hrow (fun _ _ _ hold => absurd hold List.not_mem_nil) hwithin
      have hput : Ascending.put first (WeightTable.mapRow Binary64.dropZeroSign row) table.rows
          = table.rows ++ [(first, WeightTable.mapRow Binary64.dropZeroSign row)] :=
        Ascending.alter_of_forall_gt hlast
      rw [List.flatMap_cons, rowBytes, List.append_assoc, List.append_assoc]
      refine (takes_location hlookbehind hloc).bind ((takes_nat hlength).bind (hentries.bind ?_))
      rw [List.map_cons, List.append_cons table.rows, hput]
      refine ih hrest (fun new hnew old hold => ?_) hrows
      rcases List.mem_append.1 hold with hold | hold
      · exact hbehind new hnew old hold
      · rw [List.mem_singleton.1 hold]
        exact Std.OrientedCmp.gt_of_lt (hfirst new hnew)

lemma steady_rows (lookbehind lookahead count : Nat) (table : WeightTable Binary64) :
    Steady (Loader.rows lookbehind lookahead count table) := by
  induction count generalizing table with
  | zero => exact Steady.pure table
  | succ count ih =>
      exact (steady_location lookbehind lookahead).bind fun _ => steady_nat.bind fun _ =>
        (steady_entries lookbehind lookahead _ _).bind fun _ => ih _

/-- Putting one more storable row into a table leaves its rows storable. -/
lemma rowsStorable_put (h : RowsStorable lookbehind table)
    (hloc : loc.Within lookbehind (twoTo 64)) (hstrict : Ascending.StrictKeys row)
    (hlength : row.length < twoTo 64)
    (hwithin : ∀ entry ∈ row, entry.1.Within lookbehind (twoTo 64)) :
    RowsStorable lookbehind ⟨Ascending.put loc row table.rows⟩ := by
  have hmem : ∀ first row', (first, row') ∈ Ascending.put loc row table.rows →
      (first = loc ∧ row' = row) ∨ (first, row') ∈ table.rows := by
    intro first row' hrow
    rcases (Ascending.mem_alter h.ordered.rows).1 hrow with hnew | ⟨-, hold⟩
    · exact Or.inl hnew
    · exact Or.inr hold
  refine ⟨WeightTable.ordered_put h.ordered loc hstrict, ?_, ?_⟩
  · intro first row' hrow
    rcases hmem first row' hrow with ⟨-, rfl⟩ | hrow
    · exact hlength
    · exact h.length_lt first row' hrow
  · intro first row' hrow
    rcases hmem first row' hrow with ⟨rfl, rfl⟩ | hrow
    · exact ⟨hloc, fun second weight hentry => hwithin (second, weight) hentry⟩
    · exact h.within first row' hrow

/-- The rows that are read can be stored again, and there are no more of them than were
announced. -/
lemma gives_rows (hlookbehind : lookbehind < twoTo 62) (count : Nat) {length : Nat}
    (h : RowsStorable lookbehind table) (hlength : table.rows.length ≤ length) :
    Gives (Loader.rows lookbehind lookahead count table) fun table' =>
      RowsStorable lookbehind table' ∧ table'.rows.length ≤ length + count := by
  induction count generalizing table length with
  | zero => exact Gives.pure ⟨h, hlength⟩
  | succ count ih =>
      have hempty : RowStorable lookbehind 0 [] :=
        ⟨List.Pairwise.nil, le_refl 0, fun _ hentry => absurd hentry List.not_mem_nil⟩
      refine (gives_location hlookbehind).bind fun first hfirst => gives_nat.bind
        fun size hsize => (gives_entries hlookbehind size hempty).bind fun row hrow => ?_
      rw [Nat.add_comm count 1, ← Nat.add_assoc]
      refine ih (rowsStorable_put h hfirst hrow.strict ?_ hrow.within) ?_
      · have hle := hrow.length_le
        omega
      · exact (Ascending.length_alter_le _ _ _).trans (Nat.succ_le_succ hlength)

/-! ## Whole files -/

/-- What comes back of a model. -/
def stored (model : Model Binary64) : Model Binary64 :=
  { beam := model.beam, lookbehind := model.lookbehind, lookahead := model.lookahead
    matcher := model.matcher, weights := model.weights.mapWeights Binary64.dropZeroSign }

variable {model : Model Binary64}

/-- **A stored model is read back.** -/
lemma takes_load (h : model.Storable) : Takes load model.fileBytes model.stored := by
  have hsmall : ∀ {n : Nat}, n < twoTo 62 → n < twoTo 64 := fun hn => hn.trans (by decide)
  have hrows : ∀ row ∈ model.weights.rows, row.1.Within model.lookbehind (twoTo 64) ∧
      row.2.length < twoTo 64 ∧ Ascending.StrictKeys row.2 ∧
        ∀ entry ∈ row.2, entry.1.Within model.lookbehind (twoTo 64) := by
    intro row hrow
    obtain ⟨hfirst, hsecond⟩ := h.rows.within row.1 row.2 hrow
    exact ⟨hfirst, h.rows.length_lt row.1 row.2 hrow, h.rows.ordered.entries row.1 row.2 hrow,
      fun entry hentry => hsecond entry.1 entry.2 hentry⟩
  have hweights : Takes (Loader.rows model.lookbehind model.lookahead model.weights.rows.length {})
      (model.weights.rows.flatMap (rowBytes model.lookbehind))
      (model.weights.mapWeights Binary64.dropZeroSign) :=
    takes_rows h.settings.lookbehind h.rows.ordered.rows
      (fun _ _ _ hold => absurd hold List.not_mem_nil) hrows
  rw [fileBytes, writeSettings]
  simp only [List.append_assoc]
  exact takes_header.bind (takes_flags.bind ((takes_nat (hsmall h.settings.beam)).bind
    ((takes_nat (hsmall h.settings.lookbehind)).bind
      ((takes_nat (hsmall h.settings.lookahead)).bind
        ((takes_ofDecoder (Matcher.takesAll_read h.matcher).takes).bind
          ((takes_nat h.count_lt).bind (hweights.bind_pure _)))))))

/-- Bytes behind a weights file make no difference to loading it. -/
lemma steady_load : Steady load :=
  steady_header.bind fun _ => steady_flags.bind fun _ => steady_nat.bind fun _ =>
    steady_nat.bind fun _ => steady_nat.bind fun _ => (steady_ofDecoder Matcher.steady_read).bind
      fun _ => steady_nat.bind fun _ => (steady_rows _ _ _ _).bind fun _ => Steady.pure _

/-- What is read can be stored. -/
lemma gives_load : Gives load fun model => model.SmallSettings → model.Storable := by
  have hempty : ∀ lookbehind, RowsStorable lookbehind {} := fun _ =>
    ⟨WeightTable.ordered_empty, fun _ _ hrow => absurd hrow List.not_mem_nil,
      fun _ _ hrow => absurd hrow List.not_mem_nil⟩
  refine (Gives.trivial _).bind fun _ _ => (Gives.trivial _).bind fun _ _ =>
    (Gives.trivial _).bind fun beam _ => (Gives.trivial _).bind fun lookbehind _ =>
      (Gives.trivial _).bind fun lookahead _ =>
        (gives_ofDecoder Matcher.gives_read).bind fun matcher hmatcher => gives_nat.bind
          fun count hcount => ?_
  by_cases hlookbehind : lookbehind < twoTo 62
  · refine (gives_rows hlookbehind count (hempty lookbehind) (le_refl 0)).bind
      fun table htable => Gives.pure fun hsettings => ?_
    rw [Nat.zero_add] at htable
    exact ⟨hsettings, hmatcher, htable.1, htable.2.trans_lt hcount⟩
  · exact (Gives.trivial _).bind fun _ _ => Gives.pure fun hsettings =>
      absurd hsettings.lookbehind hlookbehind

/-! ## Models of both kinds -/

/-- The numbers of the model fit into the words of the machine. -/
structure FitsWords (model : Model Binary64) : Prop where
  matcher : model.matcher.FitsWords
  features : model.features.length ≤ twoTo 64
  rows : model.weights.rows.length < twoTo 64
  row : ∀ first row, (first, row) ∈ model.weights.rows → row.length < twoTo 64

/-- The model comes from a rule file or from a weights file. -/
inductive Obtained : Model Binary64 → Prop where
  | rules (bytes : Bytes) (model : Model Binary64) (h : ofRuleBytes bytes = .ok model)
      (hfits : model.FitsWords) : Obtained model
  | file (bytes rest : Bytes) (model : Model Binary64) (h : load bytes = .ok (model, rest)) :
      Obtained model

/-- However a model has come about, it can be stored when its settings are small. -/
lemma Obtained.storable (h : model.Obtained) (hsettings : model.SmallSettings) :
    model.Storable := by
  cases h with
  | rules bytes _ h hfits =>
      obtain ⟨text, rfl⟩ := exists_text_of_ofRuleBytes h
      have hconsistent := consistent_ofRules text
      refine ⟨hsettings, Matcher.storable_compile hfits.matcher,
        ⟨hconsistent.ordered, hfits.row, fun first row hrow => ?_⟩, hfits.rows⟩
      obtain ⟨hfirst, hsecond⟩ := hconsistent.holds first row hrow
      exact ⟨hfirst.mono (le_refl _) hfits.features,
        fun second weight hentry => (hsecond second weight hentry).mono (le_refl _) hfits.features⟩
  | file bytes rest _ h => exact gives_load _ _ _ h hsettings

/-- The sign of a zero is not stored. -/
lemma writeReal_dropZeroSign (x : Binary64) : writeReal x.dropZeroSign = writeReal x := by
  rw [Binary64.dropZeroSign]
  split
  · rename_i hzero
    rw [hzero, writeReal, writeReal, Binary64.scaled?_zero, Binary64.scaled?_negativeZero]
    rfl
  · rfl

/-- The bytes of a row do not tell the signs of zeros. -/
lemma rowBytes_dropZeroSign (lookbehind : Nat) (row : Location × WeightRow Binary64) :
    rowBytes lookbehind (row.1, WeightTable.mapRow Binary64.dropZeroSign row.2)
      = rowBytes lookbehind row := by
  have hentries : (WeightTable.mapRow Binary64.dropZeroSign row.2).flatMap (entryBytes lookbehind)
      = row.2.flatMap (entryBytes lookbehind) := by
    rw [WeightTable.mapRow, List.flatMap_map]
    refine List.flatMap_congr fun entry _ => ?_
    rw [entryBytes, entryBytes, writeReal_dropZeroSign]
  rw [rowBytes, rowBytes, hentries, WeightTable.mapRow, List.length_map]

/-- What comes back of a model is stored in the same bytes as the model. -/
lemma fileBytes_stored (model : Model Binary64) : model.stored.fileBytes = model.fileBytes := by
  show model.writeSettings ++ (writeNat (model.weights.rows.map _).length
    ++ (model.weights.rows.map _).flatMap (rowBytes model.lookbehind)) = model.fileBytes
  rw [List.length_map, List.flatMap_map, fileBytes]
  congr 2
  exact List.flatMap_congr fun row _ => rowBytes_dropZeroSign model.lookbehind row

/-- **Weights files keep models.**  A model from a rule file or from a weights file can be written
as a weights file.  Whatever lies behind the file, just its bytes are read back, and what they give
has the same settings, the same matcher and the same weights, except that negative zeros have become
positive.  All features weigh the same under it, bit for bit, and it is written as the same file.
No strict prefix of the file can be read. -/
theorem load_compile (model : Model Binary64) (h : model.Obtained)
    (hsettings : model.SmallSettings) :
    ∃ bytes loaded,
      model.compile = .ok bytes ∧
      (∀ rest, load (bytes ++ rest) = .ok (loaded, rest)) ∧
      loaded.beam = model.beam ∧ loaded.lookbehind = model.lookbehind ∧
      loaded.lookahead = model.lookahead ∧
      loaded.matcher = model.matcher ∧
      loaded.weights = model.weights.mapWeights Binary64.dropZeroSign ∧
      (∀ active, loaded.weights.score active = model.weights.score active) ∧
      loaded.compile = .ok bytes ∧
      ∀ cut, cut <+: bytes → cut ≠ bytes → ∃ error, load cut = .error error := by
  have hstorable := h.storable hsettings
  have hload := takes_load hstorable
  -- what is read back can be stored again, for all that is read can
  have hagain : model.stored.Storable :=
    gives_load _ _ _ (hload []) ⟨hsettings.beam, hsettings.lookbehind, hsettings.lookahead⟩
  refine ⟨model.fileBytes, model.stored, compile_eq hstorable, hload, rfl, rfl, rfl, rfl, rfl,
    WeightTable.score_dropZeroSign model.weights, ?_, ?_⟩
  · rw [compile_eq hagain, fileBytes_stored]
  · intro cut hcut hne
    exact hload.error_of_prefix steady_load hcut hne

/-- A negative zero comes back as a positive one, and the other weight as it was. -/
theorem load_compile_negative_zero :
    let rules : Text := "L 1\nP A tl/a\nW 0:A -0\nW -1:A 0:A 2.5\n".toList
    let model := ofRules rules
    model.Obtained ∧ model.SmallSettings ∧ ∃ bytes loaded,
      model.compile = .ok bytes ∧ load (bytes ++ [7]) = .ok (loaded, [7]) ∧
      model.weights.rows.map (fun row => row.2.map fun entry => entry.2.bits)
        = [[0x4004000000000000], [0x8000000000000000]] ∧
      loaded.weights.rows.map (fun row => row.2.map fun entry => entry.2.bits)
        = [[0x4004000000000000], [0]] := by
  intro rules model
  have hbytes : ofRuleBytes rules.utf8 = .ok model := by
    rw [ofRuleBytes, Utf8.decode?_utf8]
  have hmatcher : model.matcher.FitsWords := by
    constructor <;> decide +kernel
  have hrow : ∀ row ∈ model.weights.rows, row.2.length < twoTo 64 := by decide +kernel
  have hfits : model.FitsWords :=
    ⟨hmatcher, by decide +kernel, by decide +kernel, fun first row hmem => hrow (first, row) hmem⟩
  have hobtained : model.Obtained := .rules _ model hbytes hfits
  have hsettings : model.SmallSettings := ⟨by decide +kernel, by decide +kernel, by decide +kernel⟩
  obtain ⟨bytes, loaded, hcompile, hload, -, -, -, -, hweights, -⟩ :=
    load_compile model hobtained hsettings
  refine ⟨hobtained, hsettings, bytes, loaded, hcompile, hload [7], by decide +kernel, ?_⟩
  rw [hweights]
  decide +kernel

end Model

end LexicalSelection
