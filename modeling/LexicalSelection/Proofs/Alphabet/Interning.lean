import LexicalSelection.Proofs.Alphabet.Stored
import Mathlib.Data.Finset.Card

/-!
# The numbers that an alphabet gives out

An alphabet is asked for characters, tags and marks, in any order and any number of times.  Things
of the three kinds are different things, however they are spelled, and so is a mark from a reserved
one of the same spelling.

* `Request`, `internAll` — what is asked for, and the numbers that are given for it in turn.
* `number?_eq_some_iff` — a number is looked up just where its symbol is stored.
* `LookUps.of` — look-ups that are kept as three tables, filled as symbols are added.
* **`internAll_numbers`** — the numbers of all requests.
-/

namespace LexicalSelection.Alphabet

open Codec

/-! ## Requests -/

/-- What an alphabet may be asked for. -/
inductive Request where
  | char (c : Char)
  | tag (spelling : Text)
  | special (spelling : Text)
  deriving DecidableEq, Repr

/-- The symbol that is asked for. -/
def Request.symbol : Request → NamedSymbol
  | char c => (.char, [c])
  | tag spelling => (.tag, spelling)
  | special spelling => (.special, spelling)

/-- The numbers of the things that are asked for in turn, and the alphabet that has them all. -/
def internAll : List Request → Alphabet → List Nat × Alphabet
  | [], alphabet => ([], alphabet)
  | request :: requests, alphabet =>
    let (number, alphabet) := alphabet.intern request.symbol
    let (numbers, alphabet) := internAll requests alphabet
    (number :: numbers, alphabet)

/-- Different requests ask for different symbols. -/
lemma Request.symbol_injective : Function.Injective Request.symbol := by
  intro request request' h
  cases request <;> cases request' <;> simp_all [symbol]

/-- Requests in two goes are answered like all of them in one. -/
lemma internAll_append (before after : List Request) (alphabet : Alphabet) :
    internAll (before ++ after) alphabet
      = ((internAll before alphabet).1 ++ (internAll after (internAll before alphabet).2).1,
          (internAll after (internAll before alphabet).2).2) := by
  induction before generalizing alphabet with
  | nil => rfl
  | cons request before ih => simp [internAll, ih]

/-! ## Symbols without repetition -/

variable {alphabet : Alphabet} {symbol symbol' : NamedSymbol} {n : Nat} {list : List NamedSymbol}

/-- No place is found for a symbol just when the list does not have it. -/
lemma lastNumber?_eq_none_iff : lastNumber? symbol n list = none ↔ symbol ∉ list := by
  induction list generalizing n with
  | nil => simp [lastNumber?]
  | cons other list ih =>
      simp only [lastNumber?, List.mem_cons, not_or]
      cases hrest : lastNumber? symbol (n + 1) list with
      | some found =>
          have hmem : ¬ symbol ∉ list := by simp [← ih (n := n + 1), hrest]
          simp [hmem]
      | none =>
          have hmem : symbol ∉ list := ih.1 hrest
          simp [hmem, eq_comm]

/-- A symbol has no number just when it has not been added. -/
lemma number?_eq_none_iff : alphabet.number? symbol = none ↔ symbol ∉ alphabet.added :=
  lastNumber?_eq_none_iff

lemma symbol?_of_four_le (h : 4 ≤ n) : alphabet.symbol? n = alphabet.added[n - 4]? :=
  List.getElem?_append_right h

/-- **A number is looked up just where its symbol is stored**, behind the reserved ones. -/
lemma number?_eq_some_iff (hnodup : alphabet.added.Nodup) :
    alphabet.number? symbol = some n ↔ 4 ≤ n ∧ alphabet.symbol? n = some symbol := by
  constructor
  · intro h
    obtain ⟨hle, hat⟩ := lastNumber?_eq_some h
    exact ⟨hle, (symbol?_of_four_le hle).trans hat⟩
  · rintro ⟨hle, hat⟩
    rw [symbol?_of_four_le hle] at hat
    have hmem : symbol ∈ alphabet.added := List.mem_of_getElem? hat
    cases hnumber : alphabet.number? symbol with
    | none => exact absurd hmem (number?_eq_none_iff.1 hnumber)
    | some number =>
        obtain ⟨hle', hat'⟩ := lastNumber?_eq_some hnumber
        -- The search finds the last place of the symbol, which is its only one.
        obtain ⟨hlt, -⟩ := List.getElem?_eq_some_iff.1 hat
        have hsame : n - 4 = number - 4 := (List.getElem?_inj hlt hnodup).1 (hat.trans hat'.symm)
        have hfour : 4 ≤ number := hle'
        exact congrArg some (by omega)

/-! ## One request -/

/-- Asking for a symbol that is there changes nothing. -/
lemma intern_of_mem (h : symbol ∈ alphabet.added) : (alphabet.intern symbol).2 = alphabet := by
  rw [intern]
  split
  · rfl
  · rename_i hnone
    exact absurd h (number?_eq_none_iff.1 hnone)

/-- A new symbol is added behind the others, and gets the next number. -/
lemma intern_of_not_mem (h : symbol ∉ alphabet.added) :
    alphabet.intern symbol = (alphabet.size, ⟨alphabet.added ++ [symbol]⟩) := by
  rw [intern, number?_eq_none_iff.2 h]

/-- No symbol is added twice. -/
lemma nodup_intern (h : alphabet.added.Nodup) : (alphabet.intern symbol).2.added.Nodup := by
  by_cases hmem : symbol ∈ alphabet.added
  · rwa [intern_of_mem hmem]
  · rw [intern_of_not_mem hmem]
    exact List.nodup_append'.2 ⟨h, List.nodup_singleton _, List.disjoint_singleton.2 hmem⟩

/-- Asking for a symbol adds it, and nothing else. -/
lemma mem_added_intern :
    symbol' ∈ (alphabet.intern symbol).2.added ↔ symbol' ∈ alphabet.added ∨ symbol' = symbol := by
  by_cases hmem : symbol ∈ alphabet.added
  · rw [intern_of_mem hmem]
    constructor
    · exact .inl
    · rintro (h | rfl)
      · exact h
      · exact hmem
  · simp [intern_of_not_mem hmem]

/-- The symbols that were there stay in their places. -/
lemma added_prefix_intern (symbol : NamedSymbol) (alphabet : Alphabet) :
    alphabet.added <+: (alphabet.intern symbol).2.added := by
  by_cases hmem : symbol ∈ alphabet.added
  · rw [intern_of_mem hmem]
  · rw [intern_of_not_mem hmem]
    exact List.prefix_append _ _

/-! ## All requests -/

/-- No symbol is added twice, however often it is asked for. -/
lemma nodup_internAll {requests : List Request} (h : alphabet.added.Nodup) :
    (internAll requests alphabet).2.added.Nodup := by
  induction requests generalizing alphabet with
  | nil => exact h
  | cons request requests ih => exact ih (nodup_intern h)

/-- The symbols that are there in the end were there before or have been asked for. -/
lemma mem_added_internAll {requests : List Request} :
    symbol ∈ (internAll requests alphabet).2.added ↔
      symbol ∈ alphabet.added ∨ ∃ request ∈ requests, request.symbol = symbol := by
  induction requests generalizing alphabet with
  | nil => simp [internAll]
  | cons request requests ih =>
      simp only [internAll, ih, mem_added_intern, List.exists_mem_cons_iff, or_assoc, eq_comm]

/-- The symbols that were there stay in their places through all requests. -/
lemma added_prefix_internAll (requests : List Request) (alphabet : Alphabet) :
    alphabet.added <+: (internAll requests alphabet).2.added := by
  induction requests generalizing alphabet with
  | nil => exact List.prefix_rfl
  | cons request requests ih => exact (added_prefix_intern _ _).trans (ih _)

lemma extends_internAll (requests : List Request) (alphabet : Alphabet) :
    alphabet.Extends (internAll requests alphabet).2 := by
  induction requests generalizing alphabet with
  | nil => exact Extends.refl alphabet
  | cons request requests ih => exact (extends_intern _ _).trans (ih _)

/-- Each thing that was asked for has the number that was given for it. -/
lemma map_number?_internAll (requests : List Request) (alphabet : Alphabet) :
    requests.map (fun request => (internAll requests alphabet).2.number? request.symbol)
      = (internAll requests alphabet).1.map some := by
  induction requests generalizing alphabet with
  | nil => rfl
  | cons request requests ih =>
      have hfirst := number?_intern request.symbol alphabet
      simp only [internAll, List.map_cons, ih]
      rw [extends_internAll requests _ _ _ hfirst]

/-! ## A fresh alphabet -/

variable {requests before : List Request} {request : Request}

lemma nodup_fresh (requests : List Request) : (internAll requests {}).2.added.Nodup :=
  nodup_internAll List.nodup_nil

/-- A fresh alphabet ends with the symbols that it was asked for. -/
lemma mem_added_fresh :
    symbol ∈ (internAll requests {}).2.added ↔ ∃ request ∈ requests, request.symbol = symbol := by
  simp [mem_added_internAll]

/-- There is one symbol for each of the different things that were asked for. -/
lemma size_internAll (requests : List Request) :
    (internAll requests {}).2.size = 4 + requests.toFinset.card := by
  have hadded :
      (internAll requests {}).2.added.toFinset = requests.toFinset.image Request.symbol := by
    ext symbol
    simp [mem_added_fresh]
  have hcard := List.toFinset_card_of_nodup (nodup_fresh requests)
  rw [hadded, Finset.card_image_of_injective _ Request.symbol_injective] at hcard
  rw [size, ← hcard]
  rfl

/-- A thing that is asked for first has the next number. -/
lemma intern_first (h : request ∉ before) :
    ((internAll before {}).2.intern request.symbol).1 = 4 + before.toFinset.card := by
  have hnew : request.symbol ∉ (internAll before {}).2.added := by
    rw [mem_added_fresh]
    rintro ⟨request', hmem, hsymbol⟩
    obtain rfl := Request.symbol_injective hsymbol
    exact h hmem
  rw [intern_of_not_mem hnew, size_internAll]

/-- Each request is answered by one number. -/
lemma length_numbers_internAll (requests : List Request) (alphabet : Alphabet) :
    (internAll requests alphabet).1.length = requests.length := by
  simpa using (congrArg List.length (map_number?_internAll requests alphabet)).symm

/-- The numbers that are given are those of the requested symbols in the end. -/
lemma mem_numbers_internAll :
    n ∈ (internAll requests alphabet).1 ↔
      ∃ request ∈ requests, (internAll requests alphabet).2.number? request.symbol = some n := by
  rw [← List.mem_map, map_number?_internAll, List.mem_map_of_injective (Option.some_injective _)]

/-- The numbers from 4 on are given out without a gap. -/
lemma mem_numbers_iff :
    n ∈ (internAll requests {}).1 ↔ 4 ≤ n ∧ n < (internAll requests {}).2.size := by
  have hlength := length_symbols (internAll requests {}).2
  simp only [mem_numbers_internAll, number?_eq_some_iff (nodup_fresh requests)]
  constructor
  · rintro ⟨request, -, hle, hat⟩
    exact ⟨hle, hlength ▸ (List.getElem?_eq_some_iff.1 hat).1⟩
  · rintro ⟨hle, hlt⟩
    have hat : (internAll requests {}).2.symbol? n = some _ :=
      List.getElem?_eq_getElem (hlength ▸ hlt)
    obtain ⟨request, hmem, hsymbol⟩ :=
      mem_added_fresh.1 (List.mem_of_getElem? ((symbol?_of_four_le hle).symm.trans hat))
    exact ⟨request, hmem, hle, hsymbol ▸ hat⟩

/-! ## Earlier and later alphabets -/

/-- What was given for the first requests is not changed by the later ones. -/
lemma internAll_prefix (before after : List Request) (alphabet : Alphabet) :
    (internAll before alphabet).1 <+: (internAll (before ++ after) alphabet).1 ∧
      (internAll before alphabet).2.symbols <+: (internAll (before ++ after) alphabet).2.symbols ∧
      (internAll before alphabet).2.Extends (internAll (before ++ after) alphabet).2 := by
  rw [internAll_append]
  refine ⟨List.prefix_append _ _, ?_, extends_internAll after _⟩
  exact (List.prefix_append_right_inj reserved).2 (added_prefix_internAll after _)

/-- What was asked for is known by its number. -/
lemma number?_inj_internAll {request' : Request} (hmem : request ∈ requests)
    (h : (internAll requests alphabet).2.number? request.symbol
      = (internAll requests alphabet).2.number? request'.symbol) : request = request' := by
  have hnumber : (internAll requests alphabet).2.number? request.symbol
      ∈ (internAll requests alphabet).1.map some := by
    rw [← map_number?_internAll]
    exact List.mem_map_of_mem hmem
  obtain ⟨n, -, hn⟩ := List.mem_map.1 hnumber
  exact Request.symbol_injective (number?_injective hn.symm (h.symm.trans hn.symm))

/-- Two of the numbers are the same just where the same thing was asked for. -/
lemma numbers_eq_iff (i j : Nat) :
    (internAll requests alphabet).1[i]? = (internAll requests alphabet).1[j]? ↔
      requests[i]? = requests[j]? := by
  have hat : ∀ i : Nat, (internAll requests alphabet).1[i]?.map some
      = requests[i]?.map fun request => (internAll requests alphabet).2.number? request.symbol := by
    intro i
    rw [← List.getElem?_map, ← List.getElem?_map, map_number?_internAll]
  constructor
  · intro h
    have hsame := (hat i).symm.trans ((congrArg (Option.map some) h).trans (hat j))
    cases hi : requests[i]? with
    | none => simp_all
    | some request =>
        cases hj : requests[j]? with
        | none => simp_all
        | some request' =>
            rw [hi, hj] at hsame
            have heq := number?_inj_internAll (List.mem_of_getElem? hi) (Option.some.inj hsame)
            exact congrArg some heq
  · intro h
    exact Option.map_injective (Option.some_injective _)
      ((hat i).trans ((congrArg _ h).trans (hat j).symm))

/-! ## Look-ups kept as tables -/

/-- What an alphabet looks up, kept as one table for each kind. -/
structure LookUps where
  /-- How many symbols have been added. -/
  size : Nat := 0
  chars : Char → Option Nat := fun _ => none
  tags : Text → Option Nat := fun _ => none
  specials : Text → Option Nat := fun _ => none

/-- The tables after one more symbol.  A reserved one has no entry, and a later entry hides an
earlier one. -/
def LookUps.push (lookUps : LookUps) (symbol : NamedSymbol) : LookUps where
  size := lookUps.size + 1
  chars c :=
    if symbol.1 = .char ∧ symbol.2.head? = some c then some lookUps.size else lookUps.chars c
  tags spelling := if symbol = (.tag, spelling) then some lookUps.size else lookUps.tags spelling
  specials spelling :=
    if reserved.length ≤ lookUps.size ∧ symbol = (.special, spelling) then some lookUps.size
    else lookUps.specials spelling

/-- The tables that are filled by adding the symbols of an alphabet one by one. -/
def LookUps.of (alphabet : Alphabet) : LookUps := alphabet.symbols.foldl push {}

/-- **The tables look up what the alphabet does.** -/
lemma lookUps_of (h : ∀ symbol ∈ alphabet.added, symbol.1 = .char → symbol.2.length = 1) :
    LookUps.of alphabet = ⟨alphabet.size, alphabet.charNumber?, alphabet.tagNumber?,
      fun spelling => alphabet.number? (.special, spelling)⟩ := by
  obtain ⟨added⟩ := alphabet
  induction added using List.reverseRecOn with
  | nil => rfl
  | append_singleton added symbol ih =>
      have hlast : LookUps.of ⟨added ++ [symbol]⟩ = (LookUps.of ⟨added⟩).push symbol := by
        simp [LookUps.of, symbols]
      -- The table of characters is filled by the first character of a spelling, and asked for all
      -- of it.
      have hspelled : ∀ c, symbol.1 = .char ∧ symbol.2.head? = some c ↔ symbol = (.char, [c]) := by
        intro c
        constructor
        · rintro ⟨hchar, hhead⟩
          have hone := h symbol (by simp) hchar
          obtain ⟨kind, spelling⟩ := symbol
          obtain ⟨c', rfl⟩ := List.length_eq_one_iff.1 hone
          simp_all
        · rintro rfl
          simp
      rw [hlast, ih fun symbol hsymbol => h symbol (List.mem_append_left _ hsymbol)]
      simp only [LookUps.push, hspelled, LookUps.mk.injEq]
      refine ⟨?_, ?_, ?_, ?_⟩
      · simp [size]; omega
      · funext c
        simp [charNumber?, number?, lastNumber?_append_singleton, size]
      · funext spelling
        simp [tagNumber?, number?, lastNumber?_append_singleton, size]
      · funext spelling
        simp [number?, lastNumber?_append_singleton, size]

/-! ## All numbers -/

/-- An alphabet of characters, tags and marks can be stored when it is not too large. -/
lemma storable_internAll (hsize : (internAll requests {}).2.size < twoTo 64)
    (hspelling : ∀ request ∈ requests, request.symbol.2.utf8.length < twoTo 64) :
    (internAll requests {}).2.Storable where
  size_lt := hsize
  spelling := by
    intro symbol hsymbol
    obtain ⟨request, hmem, rfl⟩ := mem_added_fresh.1 hsymbol
    exact hspelling request hmem
  char := by
    intro symbol hsymbol hchar
    obtain ⟨request, -, rfl⟩ := mem_added_fresh.1 hsymbol
    cases request with
    | char c => rfl
    | tag spelling => cases hchar
    | special spelling => cases hchar

/-- **The numbers of an alphabet.**  Whatever a fresh alphabet is asked for, each thing has the
number that was given for it, and two things have the same number just when they are the same.  The
numbers from 4 on are given out one after the other, in the order in which things are first asked
for, and are not changed later.  A number is looked up, in the alphabet and in its tables, just
where the symbol is stored behind the reserved ones.  The alphabet is read back, and with it all
that it looks up. -/
theorem internAll_numbers {requests : List Request} {numbers : List Nat} {alphabet : Alphabet}
    (h : internAll requests {} = (numbers, alphabet)) (hsize : alphabet.size < twoTo 32)
    (hspelling : ∀ request ∈ requests, request.symbol.2.utf8.length < twoTo 64) :
    requests.map (fun request => alphabet.number? request.symbol) = numbers.map some ∧
    (∀ i j : Nat, numbers[i]? = numbers[j]? ↔ requests[i]? = requests[j]?) ∧
    (∀ n, n ∈ numbers ↔ 4 ≤ n ∧ n < alphabet.size) ∧
    (∀ before request after, requests = before ++ request :: after → request ∉ before →
      numbers[before.length]? = some (4 + before.toFinset.card)) ∧
    (∀ before after, requests = before ++ after →
      (internAll before {}).1 <+: numbers ∧
      (internAll before {}).2.symbols <+: alphabet.symbols ∧
      (internAll before {}).2.Extends alphabet) ∧
    (∀ c n, alphabet.charNumber? c = some n ↔ 4 ≤ n ∧ alphabet.symbol? n = some (.char, [c])) ∧
    (∀ tag n, alphabet.tagNumber? tag = some n ↔ 4 ≤ n ∧ alphabet.symbol? n = some (.tag, tag)) ∧
    (∀ mark n, alphabet.number? (.special, mark) = some n ↔
      4 ≤ n ∧ alphabet.symbol? n = some (.special, mark)) ∧
    LookUps.of alphabet = ⟨alphabet.size, alphabet.charNumber?, alphabet.tagNumber?,
      fun mark => alphabet.number? (.special, mark)⟩ ∧
    ∀ rest, read (alphabet.write ++ rest) = .ok (alphabet, rest) := by
  obtain ⟨rfl, rfl⟩ := Prod.mk.inj h
  have hnodup := nodup_fresh requests
  have hstorable := storable_internAll (lt_sixtyfour hsize) hspelling
  refine ⟨map_number?_internAll requests {}, numbers_eq_iff, fun n => mem_numbers_iff, ?_, ?_,
    fun c n => number?_eq_some_iff hnodup, fun tag n => number?_eq_some_iff hnodup,
    fun mark n => number?_eq_some_iff hnodup, lookUps_of hstorable.char,
    (takesAll_read hstorable).takes⟩
  · rintro before request after rfl hnew
    have hlength := length_numbers_internAll before {}
    rw [internAll_append, List.getElem?_append_right hlength.le, hlength, Nat.sub_self]
    exact congrArg some (intern_first hnew)
  · rintro before after rfl
    exact internAll_prefix before after {}

/-- A tag and a mark with the spelling of a reserved mark are two more things. -/
theorem internAll_numbers_same_spelling :
    let mark := "<side:sl>".toList
    let requests : List Request := [.char '<', .tag mark, .special mark, .tag mark, .char '<']
    let alphabet : Alphabet := ⟨[(.char, ['<']), (.tag, mark), (.special, mark)]⟩
    internAll requests {} = ([4, 5, 6, 5, 4], alphabet) ∧ alphabet.size < twoTo 32 ∧
      (∀ request ∈ requests, request.symbol.2.utf8.length < twoTo 64) ∧
      alphabet.charNumber? '<' = some 4 ∧ alphabet.tagNumber? mark = some 5 ∧
      alphabet.number? (.special, mark) = some 6 ∧
      read (alphabet.write ++ [9]) = .ok (alphabet, [9]) := by
  intro mark requests alphabet
  have h : internAll requests {} = ([4, 5, 6, 5, 4], alphabet) := by decide
  have hsize : alphabet.size < twoTo 32 := by decide
  have hspelling : ∀ request ∈ requests, request.symbol.2.utf8.length < twoTo 64 := by decide
  obtain ⟨-, -, -, -, -, hchar, htag, hmark, -, hread⟩ := internAll_numbers h hsize hspelling
  exact ⟨h, hsize, hspelling, (hchar '<' 4).2 (by decide), (htag mark 5).2 (by decide),
    (hmark mark 6).2 (by decide), hread [9]⟩

end LexicalSelection.Alphabet
