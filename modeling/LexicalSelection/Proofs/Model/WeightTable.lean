import LexicalSelection.Model.WeightTable
import LexicalSelection.Proofs.Order.Ascending
import Mathlib.Algebra.BigOperators.Group.List.Basic
import Mathlib.Data.List.Pairwise

/-!
# Facts on tables of weights

A table holds one weight for each two locations.  What an operation does is said by the weight that
is found afterwards, and by the entries that are listed.

* `WeightTable.Ordered` — rows and their entries are in strictly ascending order.
* `WeightTable.Canonical` — only locations in order have a weight.
* **`find?_alter`** — one weight changes and no other.
* **`alter_comm`** — the weights of two pairs can be changed in any order.
* `mem_entries` — the listed entries are the weights that are found.
* **`scored_eq_filter`** — what is scored are the listed entries of two different active locations.
-/

namespace LexicalSelection

instance : Std.TransOrd Pair :=
  inferInstanceAs (Std.TransCmp (compareLex (compareOn Pair.first) (compareOn Pair.second)))

instance : Std.LawfulEqOrd Pair where
  eq_of_compare {a b} h := by
    obtain ⟨h₁, h₂⟩ := Ordering.then_eq_eq.1 h
    obtain ⟨p, q, hpq⟩ := a
    obtain ⟨r, s, hrs⟩ := b
    obtain rfl : p = r := Std.LawfulEqOrd.eq_of_compare h₁
    obtain rfl : q = s := Std.LawfulEqOrd.eq_of_compare h₂
    rfl

lemma Pair.of_eq {a b : Location} (h : compare a b ≠ .gt) : Pair.of a b = ⟨a, b, h⟩ := by
  rw [Pair.of, dif_neg h]

lemma Pair.of_first_second (pair : Pair) : Pair.of pair.first pair.second = pair :=
  Pair.of_eq pair.ordered

/-- Pairs are compared by their first locations, and then by their second ones. -/
lemma Pair.compare_eq (pair pair' : Pair) : compare pair pair'
    = (compare pair.first pair'.first).then (compare pair.second pair'.second) := rfl

namespace WeightTable

variable {α : Type}

/-- Rows stand in strictly ascending order, and so do the entries of each row. -/
structure Ordered (table : WeightTable α) : Prop where
  rows : Ascending.StrictKeys table.rows
  entries : ∀ first row, (first, row) ∈ table.rows → Ascending.StrictKeys row

/-- Only locations that are in order have a weight. -/
def Canonical (table : WeightTable α) : Prop :=
  ∀ a b weight, table.find? a b = some weight → compare a b ≠ .gt

/-- The entries that a first location has. -/
def row (table : WeightTable α) (first : Location) : WeightRow α :=
  (Ascending.find? first table.rows).getD []

lemma ordered_empty : ({} : WeightTable α).Ordered where
  rows := List.Pairwise.nil
  entries _ _ h := by cases h

/-- The second locations of a row are in strict order. -/
lemma Ordered.strictKeys_row {table : WeightTable α} (h : table.Ordered) (first : Location) :
    Ascending.StrictKeys (table.row first) := by
  rw [row]
  cases hrow : Ascending.find? first table.rows with
  | none => exact List.Pairwise.nil
  | some row => exact h.entries first row ((Ascending.find?_eq_some_iff h.rows).1 hrow)

/-- An entry of a row stands in the table. -/
lemma exists_row {table : WeightTable α} {first : Location} {entry : Location × α}
    (h : entry ∈ table.row first) : ∃ row, (first, row) ∈ table.rows ∧ entry ∈ row := by
  rw [row] at h
  cases hrow : Ascending.find? first table.rows with
  | none =>
      rw [hrow] at h
      cases h
  | some row =>
      rw [hrow] at h
      exact ⟨row, Ascending.mem_of_find? hrow, h⟩

/-- A weight is looked up in the row of its first location. -/
lemma find?_eq (table : WeightTable α) (first second : Location) :
    table.find? first second = Ascending.find? second (table.row first) := by
  rw [find?, row]
  cases Ascending.find? first table.rows <;> rfl

/-- Altering a pair alters one row, at one entry. -/
lemma row_alter {table : WeightTable α} (h : table.Ordered) (pair : Pair) (f : Option α → α)
    (first : Location) : (table.alter pair f).row first =
      if first = pair.first then Ascending.alter pair.second f (table.row first)
      else table.row first := by
  rw [row, alter, Ascending.find?_alter h.rows]
  split
  · rename_i hfirst
    rw [hfirst]
    rfl
  · rfl

/-- A table stays in order when a pair is altered. -/
lemma ordered_alter {table : WeightTable α} (h : table.Ordered) (pair : Pair) (f : Option α → α) :
    (table.alter pair f).Ordered where
  rows := Ascending.strictKeys_alter h.rows
  entries first row hrow := by
    rcases (Ascending.mem_alter h.rows).1 hrow with ⟨-, rfl⟩ | ⟨-, hrow⟩
    · exact Ascending.strictKeys_alter (h.strictKeys_row pair.first)
    · exact h.entries first row hrow

/-- A table stays in order when a row in order is put into it. -/
lemma ordered_put {table : WeightTable α} (h : table.Ordered) (first : Location) {row : WeightRow α}
    (hrow : Ascending.StrictKeys row) :
    (⟨Ascending.put first row table.rows⟩ : WeightTable α).Ordered where
  rows := Ascending.strictKeys_alter h.rows
  entries first' row' hrow' := by
    rcases (Ascending.mem_alter h.rows).1 hrow' with ⟨-, rfl⟩ | ⟨-, hold⟩
    · exact hrow
    · exact h.entries first' row' hold

/-- **One weight changes and no other.** -/
lemma find?_alter {table : WeightTable α} (h : table.Ordered) (pair : Pair) (f : Option α → α)
    (first second : Location) : (table.alter pair f).find? first second =
      if first = pair.first ∧ second = pair.second then some (f (table.find? first second))
      else table.find? first second := by
  rw [find?_eq, find?_eq, row_alter h]
  by_cases hfirst : first = pair.first
  · rw [if_pos hfirst, Ascending.find?_alter (h.strictKeys_row first)]
    by_cases hsecond : second = pair.second
    · rw [if_pos hsecond, if_pos ⟨hfirst, hsecond⟩, hsecond]
    · rw [if_neg hsecond, if_neg fun hboth => hsecond hboth.2]
  · rw [if_neg hfirst, if_neg fun hboth => hfirst hboth.1]

lemma pair_eq_iff {pair pair' : Pair} :
    pair = pair' ↔ pair.first = pair'.first ∧ pair.second = pair'.second := by
  obtain ⟨a, b, h⟩ := pair
  obtain ⟨c, d, h'⟩ := pair'
  simp

/-- Altering a pair changes its own weight, and nothing else. -/
lemma find?_alter_pair {table : WeightTable α} (h : table.Ordered) (pair pair' : Pair)
    (f : Option α → α) : (table.alter pair f).find? pair'.first pair'.second =
      if pair' = pair then some (f (table.find? pair'.first pair'.second))
      else table.find? pair'.first pair'.second := by
  rw [find?_alter h]
  simp only [pair_eq_iff]

/-- Setting a weight changes that of its own pair, and no other one. -/
lemma get_set [Zero α] {table : WeightTable α} (h : table.Ordered) (pair pair' : Pair)
    (weight : α) :
    (table.set pair weight).get pair' = if pair' = pair then weight else table.get pair' := by
  rw [get, set, find?_alter_pair h]
  split
  · rfl
  · rfl

/-- Altering a pair makes a row for its first location if there is none. -/
lemma find?_rows_alter {table : WeightTable α} (h : table.Ordered) (pair : Pair)
    (f : Option α → α) (first : Location) : Ascending.find? first (table.alter pair f).rows =
      if first = pair.first then some (Ascending.alter pair.second f (table.row first))
      else Ascending.find? first table.rows := by
  rw [alter, Ascending.find?_alter h.rows]
  split
  · rename_i hfirst
    rw [hfirst]
    rfl
  · rfl

/-- **The weights of two different pairs can be changed in any order.** -/
lemma alter_comm {table : WeightTable α} (h : table.Ordered) {pair pair' : Pair}
    (hne : pair ≠ pair') (f g : Option α → α) :
    (table.alter pair f).alter pair' g = (table.alter pair' g).alter pair f := by
  have hordered := ordered_alter h pair f
  have hordered' := ordered_alter h pair' g
  have hrows : ((table.alter pair f).alter pair' g).rows
      = ((table.alter pair' g).alter pair f).rows := by
    refine Ascending.eq_of_find?_eq (ordered_alter hordered pair' g).rows
      (ordered_alter hordered' pair f).rows fun first => ?_
    rw [find?_rows_alter hordered, find?_rows_alter hordered', find?_rows_alter h,
      find?_rows_alter h, row_alter h, row_alter h]
    by_cases hfirst : first = pair.first
    · by_cases hfirst' : first = pair'.first
      · -- The pairs differ in their second locations, and so do the places in their row.
        have hsecond : pair'.second ≠ pair.second := fun heq =>
          hne (pair_eq_iff.2 ⟨hfirst.symm.trans hfirst', heq.symm⟩)
        simp only [if_pos hfirst, if_pos hfirst']
        rw [Ascending.alter_comm (h.strictKeys_row first) hsecond]
      · simp only [if_pos hfirst, if_neg hfirst']
    · simp only [if_neg hfirst]
  exact congrArg mk hrows

/-- The smaller location of each pair still comes first when a pair is altered. -/
lemma canonical_alter {table : WeightTable α} (h : table.Ordered) (hcanonical : table.Canonical)
    (pair : Pair) (f : Option α → α) : (table.alter pair f).Canonical := by
  intro a b weight hweight
  rw [find?_alter h] at hweight
  split at hweight
  · rename_i hpair
    rw [hpair.1, hpair.2]
    exact pair.ordered
  · exact hcanonical a b weight hweight

/-! ## Entries -/

/-- The entries of the rows are the weights that are found. -/
lemma mem_rows_iff {table : WeightTable α} (h : table.Ordered) (first second : Location)
    (weight : α) : (∃ row, (first, row) ∈ table.rows ∧ (second, weight) ∈ row) ↔
      table.find? first second = some weight := by
  rw [find?_eq, Ascending.find?_eq_some_iff (h.strictKeys_row first), row]
  constructor
  · rintro ⟨row, hrow, hentry⟩
    rw [(Ascending.find?_eq_some_iff h.rows).2 hrow]
    exact hentry
  · exact exists_row

/-- The listed entries are the weights that are found, each with its two locations in order. -/
lemma mem_entries {table : WeightTable α} (h : table.Ordered) (pair : Pair) (weight : α) :
    (pair, weight) ∈ table.entries ↔
      ∃ first second, Pair.of first second = pair ∧ table.find? first second = some weight := by
  simp only [entries, List.mem_flatMap, List.mem_map, Prod.exists, Prod.mk.injEq]
  constructor
  · rintro ⟨first, row, hrow, second, weight, hentry, hpair, rfl⟩
    exact ⟨first, second, hpair, (mem_rows_iff h first second weight).1 ⟨row, hrow, hentry⟩⟩
  · rintro ⟨first, second, hpair, hweight⟩
    obtain ⟨row, hrow, hentry⟩ := (mem_rows_iff h first second weight).2 hweight
    exact ⟨first, row, hrow, second, weight, hentry, hpair, rfl⟩

/-- When the smaller location always comes first, the listed weights are those that are found. -/
lemma mem_entries_of_canonical {table : WeightTable α} (h : table.Ordered)
    (hcanonical : table.Canonical) (pair : Pair) (weight : α) :
    (pair, weight) ∈ table.entries ↔ table.find? pair.first pair.second = some weight := by
  rw [mem_entries h]
  constructor
  · rintro ⟨first, second, rfl, hweight⟩
    rw [Pair.of_eq (hcanonical first second weight hweight)]
    exact hweight
  · intro hweight
    exact ⟨pair.first, pair.second, Pair.of_first_second pair, hweight⟩

/-- Then looking a pair up in the listing finds its weight. -/
lemma lookup_entries {table : WeightTable α} (h : table.Ordered) (hcanonical : table.Canonical)
    (pair : Pair) : table.entries.lookup pair = table.find? pair.first pair.second := by
  cases hlookup : table.entries.lookup pair with
  | some weight =>
      obtain ⟨before, behind, hentries, -⟩ := List.lookup_eq_some_iff.1 hlookup
      have hmem : (pair, weight) ∈ table.entries := by
        rw [hentries]
        exact List.mem_append_right _ List.mem_cons_self
      exact ((mem_entries_of_canonical h hcanonical pair weight).1 hmem).symm
  | none =>
      refine (Option.eq_none_iff_forall_ne_some.2 fun weight hweight => ?_).symm
      have hmem := (mem_entries_of_canonical h hcanonical pair weight).2 hweight
      have hne := List.lookup_eq_none_iff.1 hlookup (pair, weight) hmem
      simp at hne

/-- Each row has the keys that it should, when the first of two locations is never the larger
one. -/
lemma canonical_iff_rows {table : WeightTable α} (h : table.Ordered) :
    table.Canonical ↔ ∀ first row, (first, row) ∈ table.rows →
      ∀ second weight, (second, weight) ∈ row → compare first second ≠ .gt := by
  constructor
  · intro hcanonical first row hrow second weight hentry
    exact hcanonical first second weight
      ((mem_rows_iff h first second weight).1 ⟨row, hrow, hentry⟩)
  · intro hrows first second weight hweight
    obtain ⟨row, hrow, hentry⟩ := (mem_rows_iff h first second weight).2 hweight
    exact hrows first row hrow second weight hentry

/-- The entries that a row adds to the listing. -/
def listRow (first : Location) (row : WeightRow α) : List (Pair × α) :=
  row.map fun entry => (Pair.of first entry.1, entry.2)

lemma entries_eq (table : WeightTable α) :
    table.entries = table.rows.flatMap fun row => listRow row.1 row.2 := rfl

/-- All pairs that are listed for a row have its first location. -/
lemma first_of_mem_listRow {first : Location} {row : WeightRow α} {listed : Pair × α}
    (horder : ∀ entry ∈ row, compare first entry.1 ≠ .gt) (h : listed ∈ listRow first row) :
    listed.1.first = first := by
  obtain ⟨entry, hentry, rfl⟩ := List.mem_map.1 h
  rw [Pair.of_eq (horder entry hentry)]

/-- The pairs that are listed for a row are in strict order. -/
lemma strictKeys_listRow {first : Location} {row : WeightRow α} (h : Ascending.StrictKeys row)
    (horder : ∀ entry ∈ row, compare first entry.1 ≠ .gt) :
    Ascending.StrictKeys (listRow first row) := by
  rw [Ascending.StrictKeys, listRow, List.pairwise_map]
  refine h.imp_of_mem ?_
  intro entry entry' hentry hentry' hlt
  rw [Pair.of_eq (horder entry hentry), Pair.of_eq (horder entry' hentry'), Pair.compare_eq]
  simp [Std.ReflCmp.compare_self, hlt]

/-- **The listing of a canonical table ascends**, and so no pair is in it twice. -/
lemma strictKeys_entries {table : WeightTable α} (h : table.Ordered)
    (hcanonical : table.Canonical) : Ascending.StrictKeys table.entries := by
  have horder : ∀ row ∈ table.rows, ∀ entry ∈ row.2, compare row.1 entry.1 ≠ .gt :=
    fun row hrow entry hentry =>
      (canonical_iff_rows h).1 hcanonical row.1 row.2 hrow entry.1 entry.2
      hentry
  rw [entries_eq, Ascending.StrictKeys, List.pairwise_flatMap]
  constructor
  · intro row hrow
    exact strictKeys_listRow (h.entries row.1 row.2 hrow) (horder row hrow)
  · refine h.rows.imp_of_mem ?_
    intro row row' hrow hrow' hlt listed hlisted listed' hlisted'
    rw [Pair.compare_eq, first_of_mem_listRow (horder row hrow) hlisted,
      first_of_mem_listRow (horder row' hrow') hlisted', hlt]
    rfl

/-- A table is canonical when its listing ascends and has just the weights that are found.  Else
there were two locations in the other order, whose weight would be listed in the rows of both. -/
lemma canonical_of_listed {table : WeightTable α} (h : table.Ordered)
    (hstrict : Ascending.StrictKeys table.entries)
    (hlisted : ∀ pair weight, (pair, weight) ∈ table.entries →
      table.find? pair.first pair.second = some weight) : table.Canonical := by
  intro a b weight hweight hgt
  have hpair : Pair.of a b = ⟨b, a, by simp [Std.OrientedCmp.lt_of_gt hgt]⟩ := by
    rw [Pair.of, dif_pos hgt]
  have hfound : table.find? b a = some weight := by
    have hfound := hlisted _ _ ((mem_entries h (Pair.of a b) weight).2 ⟨a, b, rfl, hweight⟩)
    rwa [hpair] at hfound
  obtain ⟨row, hrow, hentry⟩ := (mem_rows_iff h a b weight).2 hweight
  obtain ⟨row', hrow', hentry'⟩ := (mem_rows_iff h b a weight).2 hfound
  -- The pair is in the listing of two different rows.
  have hne : (a, row) ≠ (b, row') := by
    rintro heq
    obtain rfl := (Prod.mk.inj heq).1
    simp [Std.ReflCmp.compare_self] at hgt
  rw [entries_eq, Ascending.StrictKeys, List.pairwise_flatMap] at hstrict
  let Apart (row row' : Location × WeightRow α) : Prop :=
    ∀ listed ∈ listRow row.1 row.2, ∀ listed' ∈ listRow row'.1 row'.2, listed.1 ≠ listed'.1
  have hsymmetric : Std.Symm Apart :=
    ⟨fun _ _ h listed hlisted listed' hlisted' => (h listed' hlisted' listed hlisted).symm⟩
  have hapart : table.rows.Pairwise Apart := by
    refine hstrict.2.imp ?_
    intro row row' hlt listed hlisted listed' hlisted' heq
    have hlt := hlt listed hlisted listed' hlisted'
    simp [heq, Std.ReflCmp.compare_self] at hlt
  exact hapart.forall hrow hrow' hne
    _ (List.mem_map_of_mem hentry) _ (List.mem_map_of_mem hentry') (Pair.of_comm a b)

/-! ## Scores -/

/-- The pairs of active locations are those with the first one, and then those of the others. -/
lemma scored_cons (table : WeightTable α) (first : Location) (rest : List Location) :
    table.scored (first :: rest)
      = rest.filterMap (fun second => (table.find? first second).map (Pair.of first second, ·))
        ++ table.scored rest := by
  rw [scored]
  congr 1
  cases hrow : Ascending.find? first table.rows with
  | none => simp [find?, hrow]
  | some row => simp [find?, hrow]

/-- **What is scored are the weights of two different active locations.** -/
lemma mem_scored {table : WeightTable α} {active : List Location} (h : Ascending.Strict active)
    (pair : Pair) (weight : α) : (pair, weight) ∈ table.scored active ↔
      pair.first ≠ pair.second ∧ pair.first ∈ active ∧ pair.second ∈ active ∧
        table.find? pair.first pair.second = some weight := by
  induction active with
  | nil => simp [scored]
  | cons first rest ih =>
      obtain ⟨hfirst, hrest⟩ := List.pairwise_cons.1 h
      rw [scored_cons, List.mem_append, ih hrest, List.mem_filterMap]
      constructor
      · rintro (⟨second, hsecond, hweight⟩ | ⟨hne, hmem, hmem', hweight⟩)
        · obtain ⟨_, hfound, rfl, rfl⟩ : ∃ found, table.find? first second = some found ∧
              Pair.of first second = pair ∧ found = weight := by simpa using hweight
          have hlt := hfirst second hsecond
          rw [Pair.of_eq (by simp [hlt])]
          refine ⟨fun heq => ?_, List.mem_cons_self, List.mem_cons_of_mem _ hsecond, hfound⟩
          obtain rfl : first = second := heq
          simp [Std.ReflCmp.compare_self] at hlt
        · exact ⟨hne, List.mem_cons_of_mem _ hmem, List.mem_cons_of_mem _ hmem', hweight⟩
      · rintro ⟨hne, hmem, hmem', hweight⟩
        rcases List.mem_cons.1 hmem with heq | hmem
        · have hsecond := (List.mem_cons.1 hmem').resolve_left fun heq' => hne (heq.trans heq'.symm)
          refine Or.inl ⟨pair.second, hsecond, ?_⟩
          rw [← heq, hweight, Pair.of_first_second]
          rfl
        · rcases List.mem_cons.1 hmem' with heq' | hmem'
          · have hlt := hfirst pair.first hmem
            rw [← heq'] at hlt
            exact absurd (Std.OrientedCmp.gt_of_lt hlt) pair.ordered
          · exact Or.inr ⟨hne, hmem, hmem', hweight⟩

/-- Pairs are scored in strict order, so none counts twice. -/
lemma strictKeys_scored {table : WeightTable α} {active : List Location}
    (h : Ascending.Strict active) : Ascending.StrictKeys (table.scored active) := by
  induction active with
  | nil => exact List.Pairwise.nil
  | cons first rest ih =>
      obtain ⟨hfirst, hrest⟩ := List.pairwise_cons.1 h
      have hmem : ∀ listed ∈ rest.filterMap
          (fun second => (table.find? first second).map (Pair.of first second, ·)),
          listed.1.first = first := by
        intro listed hlisted
        obtain ⟨second, hsecond, hweight⟩ := List.mem_filterMap.1 hlisted
        obtain ⟨_, -, rfl⟩ := Option.map_eq_some_iff.1 hweight
        rw [Pair.of_eq (by simp [hfirst second hsecond])]
      rw [scored_cons, Ascending.StrictKeys, List.pairwise_append]
      refine ⟨?_, ih hrest, ?_⟩
      · rw [List.pairwise_filterMap]
        refine hrest.imp_of_mem ?_
        intro second second' hsecond hsecond' hlt listed hlisted listed' hlisted'
        obtain ⟨_, -, rfl⟩ := Option.map_eq_some_iff.1 hlisted
        obtain ⟨_, -, rfl⟩ := Option.map_eq_some_iff.1 hlisted'
        rw [Pair.of_eq (by simp [hfirst second hsecond]),
          Pair.of_eq (by simp [hfirst second' hsecond']), Pair.compare_eq]
        simp [Std.ReflCmp.compare_self, hlt]
      · intro listed hlisted listed' hlisted'
        have hbehind := ((mem_scored hrest listed'.1 listed'.2).1 hlisted').2.1
        rw [Pair.compare_eq, hmem listed hlisted, hfirst _ hbehind]
        rfl

/-- A score is the sum of the weights that are scored. -/
lemma score_eq_sum_scored [AddCommMonoid α] (table : WeightTable α) (active : List Location) :
    table.score active = ((table.scored active).map Prod.snd).sum := by
  rw [score, List.sum_eq_foldl, List.foldl_map]

/-- **A canonical table is scored as it is listed**: each weight of two different locations counts
once when both are active. -/
lemma scored_eq_filter {table : WeightTable α} (h : table.Ordered) (hcanonical : table.Canonical)
    {active : List Location} (hactive : Ascending.Strict active) :
    table.scored active = table.entries.filter fun (pair, _) =>
      pair.first ≠ pair.second ∧ pair.first ∈ active ∧ pair.second ∈ active := by
  refine Ascending.map_eq_of_mem_iff (strictKeys_scored hactive)
    ((strictKeys_entries h hcanonical).filter _) ?_
  rintro ⟨pair, weight⟩
  rw [mem_scored hactive, List.mem_filter, mem_entries_of_canonical h hcanonical]
  constructor
  · rintro ⟨hne, hfirst, hsecond, hweight⟩
    exact ⟨hweight, decide_eq_true ⟨hne, hfirst, hsecond⟩⟩
  · rintro ⟨hweight, hkept⟩
    obtain ⟨hne, hfirst, hsecond⟩ := of_decide_eq_true hkept
    exact ⟨hne, hfirst, hsecond, hweight⟩

end WeightTable

end LexicalSelection
