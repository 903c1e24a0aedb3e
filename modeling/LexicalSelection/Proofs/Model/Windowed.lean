import LexicalSelection.Proofs.Model.Legible
import LexicalSelection.Proofs.Model.Stored

/-!
# Weights inside the window

* `WeightTable.Stores` — a location with a row, or with an entry in one.
* `Model.Windowed` — all locations that have weights lie inside the window.
* **`windowed_ofRules`** — so it is with models from rule files, whose window never shrinks.
-/

namespace LexicalSelection

namespace WeightTable

variable {α β : Type} {table : WeightTable α} {loc : Location}

/-- The location has a row of the table or an entry in one. -/
def Stores (table : WeightTable α) (loc : Location) : Prop :=
  ∃ row ∈ table.rows, loc = row.1 ∨ ∃ entry ∈ row.2, loc = entry.1

instance decidableStores (table : WeightTable α) (loc : Location) : Decidable (table.Stores loc) :=
  inferInstanceAs (Decidable (∃ row ∈ table.rows, loc = row.1 ∨ ∃ entry ∈ row.2, loc = entry.1))

lemma not_stores_empty : ¬ ({} : WeightTable α).Stores loc := by
  rintro ⟨row, hrow, -⟩
  cases hrow

/-- A new row stores its location and those of its entries. -/
lemma stores_put (hordered : table.Ordered) {first : Location} {row : WeightRow α}
    (h : (⟨Ascending.put first row table.rows⟩ : WeightTable α).Stores loc) :
    loc = first ∨ (∃ entry ∈ row, loc = entry.1) ∨ table.Stores loc := by
  obtain ⟨⟨first', row'⟩, hrow, hloc⟩ := h
  rcases (Ascending.mem_alter hordered.rows).1 hrow with ⟨rfl, rfl⟩ | ⟨-, hold⟩
  · rcases hloc with hloc | hloc
    · exact Or.inl hloc
    · exact Or.inr (Or.inl hloc)
  · exact Or.inr (Or.inr ⟨(first', row'), hold, hloc⟩)

/-- An altered pair adds its two locations at most. -/
lemma stores_alter (hordered : table.Ordered) {pair : Pair} {f : Option α → α}
    (h : (table.alter pair f).Stores loc) :
    loc = pair.first ∨ loc = pair.second ∨ table.Stores loc := by
  obtain ⟨⟨first, row⟩, hrow, hloc⟩ := h
  rcases (Ascending.mem_alter hordered.rows).1 hrow with ⟨rfl, rfl⟩ | ⟨-, hold⟩
  · rcases hloc with hloc | ⟨entry, hentry, hloc⟩
    · exact Or.inl hloc
    · rcases Ascending.mem_keys_alter hentry with hsecond | ⟨weight, hentry⟩
      · exact Or.inr (Or.inl (hloc.trans hsecond))
      · obtain ⟨row, hrow, hentry⟩ := exists_row hentry
        exact Or.inr (Or.inr ⟨(pair.first, row), hrow, Or.inr ⟨_, hentry, hloc⟩⟩)
  · exact Or.inr (Or.inr ⟨(first, row), hold, hloc⟩)

lemma stores_mapWeights (f : α → β) : (table.mapWeights f).Stores loc ↔ table.Stores loc := by
  simp only [Stores, mapWeights, mapRow, List.mem_map, exists_exists_and_eq_and]

end WeightTable

namespace Model

variable {model model' : Model Binary64}

/-- All locations that have weights lie inside the window. -/
def Windowed (model : Model Binary64) : Prop :=
  ∀ loc, model.weights.Stores loc → -(model.lookbehind : Int) ≤ loc.position ∧
    loc.position ≤ model.lookahead

/-- A window that grows holds what it held before. -/
lemma Windowed.mono (h : model.Windowed) (hweights : model'.weights = model.weights)
    (hbehind : model.lookbehind ≤ model'.lookbehind)
    (hahead : model.lookahead ≤ model'.lookahead) : model'.Windowed := by
  intro loc hloc
  rw [hweights] at hloc
  obtain ⟨hlower, hupper⟩ := h loc hloc
  omega

/-- A location that a rule names lies inside the window as it is then. -/
lemma Names.inside {x : NamedLocation} {a : Location} (h : model.Names x a) :
    -(model.lookbehind : Int) ≤ a.position ∧ a.position ≤ model.lookahead := by
  have hnear := h.near
  rw [(locate?_eq_some h.located).1]
  simpa [inWindow] using hnear

/-- Both locations of a pair that a rule gives a weight to lie inside the window. -/
lemma Weighable.inside {pair : Pair} {loc : Location} (h : model.Weighable pair)
    (hloc : loc = pair.first ∨ loc = pair.second) :
    -(model.lookbehind : Int) ≤ loc.position ∧ loc.position ≤ model.lookahead := by
  have hof : ∀ {a b : Location}, loc = (Pair.of a b).first ∨ loc = (Pair.of a b).second →
      loc = a ∨ loc = b := by
    intro a b hloc
    rw [Pair.of] at hloc
    split at hloc
    · exact hloc.symm
    · exact hloc
  cases h with
  | unary hx =>
      rcases hof hloc with rfl | rfl
      · exact hx.inside
      · have hposition : Location.universal.position = 0 := rfl
        omega
  | two hx hy =>
      rcases hof hloc with rfl | rfl
      · exact hx.inside
      · exact hy.inside

lemma windowed_apply {rule : Rule} (hrule : rule.Legible) (hordered : model.weights.Ordered)
    (h : model.Windowed) (happly : model.apply rule = .ok model') : model'.Windowed := by
  cases rule with
  | beam size =>
      cases happly
      exact h.mono rfl (le_refl _) (le_refl _)
  | lookbehind size =>
      cases happly
      exact h.mono rfl (le_setOnce _ _) (le_refl _)
  | lookahead size =>
      cases happly
      exact h.mono rfl (le_refl _) (le_setOnce _ _)
  | pattern name patterns =>
      cases happly
      obtain ⟨-, hbehind, hahead, hweights⟩ := settings_internFeature name model
      exact h.mono hweights hbehind.ge hahead.ge
  | weight first second weight =>
      obtain ⟨pair, hpair, happly⟩ := Rule.bind_eq_ok.1 happly
      cases happly
      have hweighable := weighable_of_resolvePair hrule.1 hrule.2 hpair
      intro loc hloc
      rcases WeightTable.stores_alter hordered hloc with hfirst | hsecond | hold
      · exact hweighable.inside (Or.inl hfirst)
      · exact hweighable.inside (Or.inr hsecond)
      · exact h loc hold

/-- **Models from rule files have no weights outside of their windows.**  A rule for a weight is
checked against the window as it is then, and the window only grows. -/
lemma windowed_ofRules (text : Text) : (ofRules text).Windowed := by
  -- Each step needs the order of the weights, which consistency keeps.
  let Both (model : Model Binary64) : Prop := model.Consistent ∧ model.Windowed
  have hempty : Both {} := ⟨consistent_empty, fun _ h => absurd h WeightTable.not_stores_empty⟩
  have hstep : ∀ model rule model', rule.Legible → Both model → model.apply rule = .ok model' →
      Both model' :=
    fun _ _ _ hrule h happly => ⟨consistent_apply h.1 hrule happly,
      windowed_apply hrule h.1.ordered h.2 happly⟩
  have hmatcher : ∀ model, Both model → Both model.rebuildMatcher :=
    fun _ h => ⟨h.1.mono rfl (le_refl _) (List.prefix_refl _) h.1.nodup,
      h.2.mono rfl (le_refl _) (le_refl _)⟩
  exact (ofRules_induction hempty hstep hmatcher text).2

end Model

end LexicalSelection
