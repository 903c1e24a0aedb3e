import LexicalSelection.Proofs.Model.Stored

/-!
# The weights of a weights file

A weights file gives the two locations of each weight in an order of its own.  Loading keeps the
order that it finds, and checks neither that the smaller location comes first nor that a weight
comes once.

* `gives_load_ordered` — rows and their entries ascend, whatever the file.
* `canonical_of_compile` — a file that was written of a canonical model has all weights in order.
* **`weights_of_load`** — what holds of the weights of a file, and what holds just when they are in
  order.
* `load_reversed` — a weight that is listed and not found.
-/

namespace LexicalSelection

open Decoding Codec

namespace Model

variable {lookbehind lookahead : Nat} {row : WeightRow Binary64} {table : WeightTable Binary64}
  {model loaded : Model Binary64} {bytes rest more : Bytes}

/-! ## Order -/

lemma gives_entries_strictKeys (count : Nat) (h : Ascending.StrictKeys row) :
    Gives (Loader.entries lookbehind lookahead count row) Ascending.StrictKeys := by
  induction count generalizing row with
  | zero => exact Gives.pure h
  | succ count ih =>
      exact (Gives.trivial _).bind fun _ _ => (Gives.trivial _).bind fun _ _ =>
        ih (Ascending.strictKeys_alter h)

lemma gives_rows_ordered (count : Nat) (h : table.Ordered) :
    Gives (Loader.rows lookbehind lookahead count table) WeightTable.Ordered := by
  induction count generalizing table with
  | zero => exact Gives.pure h
  | succ count ih =>
      exact (Gives.trivial _).bind fun first _ => (Gives.trivial _).bind fun size _ =>
        (gives_entries_strictKeys size List.Pairwise.nil).bind fun row hrow =>
          ih (WeightTable.ordered_put h first hrow)

/-- **Rows and their entries ascend**, whatever bytes they have been loaded from. -/
lemma gives_load_ordered : Gives load fun model => model.weights.Ordered :=
  (Gives.trivial _).bind fun _ _ => (Gives.trivial _).bind fun _ _ => (Gives.trivial _).bind
    fun _ _ => (Gives.trivial _).bind fun _ _ => (Gives.trivial _).bind fun _ _ =>
      (Gives.trivial _).bind fun _ _ => (Gives.trivial _).bind fun count _ =>
        (gives_rows_ordered count WeightTable.ordered_empty).bind fun _ htable => Gives.pure htable

/-! ## Files that have been written -/

/-- A file that was written of a canonical model has all weights in order. -/
lemma canonical_of_compile (h : model.Storable) (hcanonical : model.weights.Canonical)
    (hcompile : model.compile = .ok bytes) (hload : load (bytes ++ more) = .ok (loaded, rest)) :
    loaded.weights.Canonical := by
  rw [compile_eq h, Except.ok.injEq] at hcompile
  rw [← hcompile, takes_load h more] at hload
  cases hload
  exact WeightTable.canonical_mapWeights hcanonical _

/-! ## All files -/

lemma canonical_ofRuleBytes (h : ofRuleBytes bytes = .ok model) : model.weights.Canonical := by
  obtain ⟨text, rfl⟩ := exists_text_of_ofRuleBytes h
  exact (consistent_ofRules text).canonical

/-- The rows of the weights of a file that has nothing behind it. -/
def loadedRows? (bytes : Bytes) : Option (List (Location × WeightRow Binary64)) :=
  match load bytes with
  | .ok (model, []) => some model.weights.rows
  | _ => none

lemma exists_of_loadedRows {rows : List (Location × WeightRow Binary64)}
    (h : loadedRows? bytes = some rows) :
    ∃ model, load bytes = .ok (model, []) ∧ model.weights.rows = rows := by
  rw [loadedRows?] at h
  split at h
  · rename_i model hload
    exact ⟨model, hload, Option.some.inj h⟩
  · cases h

/-- **The weights of a weights file.**  Whatever bytes a model has been loaded from, the rows of its
weights ascend, and so do the entries of each row.

The first of two locations is never the larger one just when the listing ascends, with no pair
twice, and lists the weights that are found.  Then the weight of a pair is the one that is listed
for it, and what is scored are the listed weights of two different active locations.  So it is with
all files that have been written of models from rule files. -/
theorem weights_of_load (h : load bytes = .ok (model, rest)) :
    model.weights.Ordered ∧
    (model.weights.Canonical ↔ ∀ first row, (first, row) ∈ model.weights.rows →
      ∀ second weight, (second, weight) ∈ row → compare first second ≠ .gt) ∧
    (model.weights.Canonical ↔ Ascending.StrictKeys model.weights.entries ∧
      ∀ pair weight, (pair, weight) ∈ model.weights.entries →
        model.weights.find? pair.first pair.second = some weight) ∧
    (model.weights.Canonical →
      (∀ pair, model.weights.get pair = (model.weights.entries.lookup pair).getD 0) ∧
      ∀ active, Ascending.Strict active →
        model.weights.scored active = model.weights.entries.filter fun (pair, _) =>
          pair.first ≠ pair.second ∧ pair.first ∈ active ∧ pair.second ∈ active) ∧
    ∀ rules source written, ofRuleBytes rules = .ok source → source.FitsWords →
      source.SmallSettings → source.compile = .ok written → written <+: bytes →
        model.weights.Canonical := by
  have hordered := gives_load_ordered _ _ _ h
  refine ⟨hordered, WeightTable.canonical_iff_rows hordered, ⟨fun hcanonical => ?_, ?_⟩, ?_, ?_⟩
  · refine ⟨WeightTable.strictKeys_entries hordered hcanonical, fun pair weight hlisted => ?_⟩
    exact (WeightTable.mem_entries_of_canonical hordered hcanonical pair weight).1 hlisted
  · rintro ⟨hstrict, hlisted⟩
    exact WeightTable.canonical_of_listed hordered hstrict hlisted
  · intro hcanonical
    refine ⟨fun pair => ?_, fun active hactive => ?_⟩
    · rw [WeightTable.lookup_entries hordered hcanonical, WeightTable.get]
    · exact WeightTable.scored_eq_filter hordered hcanonical hactive
  · rintro rules source written hrules hfits hsettings hcompile ⟨behind, rfl⟩
    have hstorable := (Obtained.rules rules source hrules hfits).storable hsettings
    exact canonical_of_compile hstorable (canonical_ofRuleBytes hrules) hcompile h

/-- The weight of this file is in order.  It is found, and it counts when both locations are
active. -/
theorem weights_of_load_in_order :
    let bytes : Bytes :=
      [65, 80, 83, 76, 0, 0, 0, 0, 0, 0, 0, 0, 0, 0, 0, 4, 0, 10, 60, 65, 78, 89, 95, 67, 72, 65,
        82, 62, 0, 9, 60, 65, 78, 89, 95, 84, 65, 71, 62, 0, 9, 60, 115, 105, 100, 101, 58, 115,
        108, 62, 0, 9, 60, 115, 105, 100, 101, 58, 116, 108, 62, 1, 0, 0, 0, 0, 1, 0, 0, 1, 0, 1,
        10, 0]
    let pair := Pair.of ⟨0, 0⟩ ⟨0, 1⟩
    ∃ model, load bytes = .ok (model, []) ∧ model.weights.Canonical ∧
      model.weights.get pair = ⟨0x4014000000000000⟩ ∧
      model.weights.scored [⟨0, 0⟩, ⟨0, 1⟩] = [(pair, ⟨0x4014000000000000⟩)] := by
  intro bytes pair
  obtain ⟨model, hload, hrows⟩ : ∃ model, load bytes = .ok (model, []) ∧
      model.weights.rows = [(⟨0, 0⟩, [(⟨0, 1⟩, ⟨0x4014000000000000⟩)])] :=
    exists_of_loadedRows (by decide +kernel)
  obtain ⟨-, hinOrder, -, hcanonical, -⟩ := weights_of_load hload
  have hmodel := hinOrder.2 (by simp [hrows]; decide)
  obtain ⟨hget, hscored⟩ := hcanonical hmodel
  refine ⟨model, hload, hmodel, ?_, ?_⟩
  · rw [hget, WeightTable.entries, hrows]
    decide
  · rw [hscored _ (List.pairwise_pair.2 rfl), WeightTable.entries, hrows]
    decide

/-- The weight of this file has the larger location first.  It is listed for the pair; but the
weight of the pair is 0, and nothing counts when both locations are active. -/
theorem load_reversed :
    let bytes : Bytes :=
      [65, 80, 83, 76, 0, 0, 0, 0, 0, 0, 0, 0, 0, 0, 0, 4, 0, 10, 60, 65, 78, 89, 95, 67, 72, 65,
        82, 62, 0, 9, 60, 65, 78, 89, 95, 84, 65, 71, 62, 0, 9, 60, 115, 105, 100, 101, 58, 115,
        108, 62, 0, 9, 60, 115, 105, 100, 101, 58, 116, 108, 62, 1, 0, 0, 0, 0, 1, 0, 1, 1, 0, 0,
        10, 0]
    let pair := Pair.of ⟨0, 0⟩ ⟨0, 1⟩
    ∃ model, load bytes = .ok (model, []) ∧
      model.weights.rows = [(⟨0, 1⟩, [(⟨0, 0⟩, ⟨0x4014000000000000⟩)])] ∧
      compare (⟨0, 1⟩ : Location) ⟨0, 0⟩ = .gt ∧
      model.weights.entries = [(pair, ⟨0x4014000000000000⟩)] ∧
      model.weights.get pair = 0 ∧ model.weights.score [⟨0, 0⟩, ⟨0, 1⟩] = 0 := by
  intro bytes pair
  obtain ⟨model, hload, hrows⟩ : ∃ model, load bytes = .ok (model, []) ∧
      model.weights.rows = [(⟨0, 1⟩, [(⟨0, 0⟩, ⟨0x4014000000000000⟩)])] :=
    exists_of_loadedRows (by decide +kernel)
  have hweights : model.weights = ⟨[(⟨0, 1⟩, [(⟨0, 0⟩, ⟨0x4014000000000000⟩)])]⟩ :=
    congrArg WeightTable.mk hrows
  refine ⟨model, hload, hrows, by decide, ?_, ?_, ?_⟩
  · rw [hweights]
    decide
  · rw [hweights]
    decide
  · rw [hweights]
    decide

end Model

end LexicalSelection
