import LexicalSelection.Pattern.Matcher
import LexicalSelection.Proofs.Alphabet.Numbering
import LexicalSelection.Proofs.Automaton.Building
import LexicalSelection.Proofs.Pattern.Description
import Mathlib.Data.List.Forall2

/-!
# The chain of states for a pattern

A pattern is put into the graph as a chain: each literal leads to a new state, wildcards stay where
they are, and the mark of the feature leads from the end of the chain to a final state.

* `Atom.number?`, `Token.offered` — atoms and tokens as symbols of the automaton.
* `Graph.AcceptsVia` — some word with one of the offered symbols at each step, and a mark behind it,
  leads to a final state.
* `Chain` — a chain from a state on, as it stands in a graph.
* **`Chain.acceptsVia_iff`** — what a chain accepts is what its atoms fit, with its own mark behind.
-/

namespace LexicalSelection

variable {alphabet alphabet' : Alphabet} {graph graph' : Graph}

/-! ## Atoms and tokens as symbols -/

/-- The symbol of the automaton that an atom is put in as. -/
def Atom.number? (alphabet : Alphabet) : Atom → Option Nat
  | anyChars => some Alphabet.anyChar
  | anyTags => some Alphabet.anyTag
  | char c => alphabet.charNumber? c
  | tag text => alphabet.tagNumber? text

/-- The reserved symbol of a wildcard. -/
def Atom.reserved? : Atom → Option Nat
  | anyChars => some Alphabet.anyChar
  | anyTags => some Alphabet.anyTag
  | _ => none

/-- The symbols that are offered for a token. -/
def Token.offered (alphabet : Alphabet) : Token → List Nat
  | char c => Automaton.eitherOf (alphabet.charNumber? c) Alphabet.anyChar
  | tag text => Automaton.eitherOf (alphabet.tagNumber? text) Alphabet.anyTag

/-- A step offers the exact symbol, if there is one, and the wildcard. -/
lemma mem_eitherOf {exact : Option Nat} {wildcard n : Nat} :
    n ∈ Automaton.eitherOf exact wildcard ↔ exact = some n ∨ n = wildcard := by
  cases exact with
  | none => simp [Automaton.eitherOf]
  | some symbol =>
      simp only [Automaton.eitherOf, Option.some.injEq]
      split <;> simp_all [eq_comm]

namespace Atom

variable {atom atom' : Atom} {token : Token} {n : Nat}

/-- An atom keeps its number in a larger alphabet. -/
lemma number?_mono (hextends : alphabet.Extends alphabet') (h : atom.number? alphabet = some n) :
    atom.number? alphabet' = some n := by
  cases atom with
  | char c => exact hextends _ _ h
  | tag text => exact hextends _ _ h
  | anyChars => exact h
  | anyTags => exact h

/-- A literal atom has none of the reserved numbers. -/
lemma four_le_number? (h : atom.number? alphabet = some n) (hliteral : atom.isWildcard = false) :
    4 ≤ n := by
  cases atom with
  | char c => exact Alphabet.four_le_number? h
  | tag text => exact Alphabet.four_le_number? h
  | anyChars => simp [isWildcard] at hliteral
  | anyTags => simp [isWildcard] at hliteral

/-- A wildcard has one of the first two numbers. -/
lemma number?_lt_two (h : atom.number? alphabet = some n) (hwildcard : atom.isWildcard = true) :
    n < 2 := by
  cases atom with
  | char c => cases hwildcard
  | tag text => cases hwildcard
  | anyChars =>
      obtain rfl : Alphabet.anyChar = n := Option.some.inj h
      decide
  | anyTags =>
      obtain rfl : Alphabet.anyTag = n := Option.some.inj h
      decide

/-- No two atoms have one symbol: those of wildcards are reserved, and the others are numbers of
different symbols. -/
lemma number?_inj (h : atom.number? alphabet = some n) (h' : atom'.number? alphabet = some n) :
    atom = atom' := by
  cases hatom : atom.isWildcard <;> cases hatom' : atom'.isWildcard
  · cases atom <;> cases atom' <;> simp [isWildcard] at hatom hatom' <;>
      simpa using Alphabet.number?_injective h h'
  · have := four_le_number? h hatom
    have := number?_lt_two h' hatom'
    omega
  · have := number?_lt_two h hatom
    have := four_le_number? h' hatom'
    omega
  · have hnumbers := h.trans h'.symm
    cases atom <;> cases atom' <;> simp [isWildcard] at hatom hatom' <;>
      simp [number?, Alphabet.anyChar, Alphabet.anyTag] at hnumbers ⊢

/-- Whatever a token offers is an atom that names or covers it. -/
lemma exists_of_mem_offered (h : n ∈ token.offered alphabet) :
    ∃ atom : Atom, atom.number? alphabet = some n ∧ (atom.Names token ∨ atom.Covers token) := by
  cases token with
  | char c =>
      rcases mem_eitherOf.1 h with h | rfl
      · exact ⟨.char c, h, Or.inl rfl⟩
      · exact ⟨.anyChars, rfl, Or.inr trivial⟩
  | tag text =>
      rcases mem_eitherOf.1 h with h | rfl
      · exact ⟨.tag text, h, Or.inl rfl⟩
      · exact ⟨.anyTags, rfl, Or.inr trivial⟩

/-- **An atom is offered for the tokens that it names or covers.** -/
lemma mem_offered_iff (h : atom.number? alphabet = some n) :
    n ∈ token.offered alphabet ↔ atom.Names token ∨ atom.Covers token := by
  constructor
  · intro hmem
    obtain ⟨atom', h', hmatch⟩ := exists_of_mem_offered hmem
    exact number?_inj h h' ▸ hmatch
  · intro hmatch
    cases atom <;> cases token <;> simp only [Names, Covers, or_self, or_false, false_or] at hmatch
    · exact mem_eitherOf.2 (Or.inl (hmatch ▸ h))
    · exact mem_eitherOf.2 (Or.inl (hmatch ▸ h))
    · exact mem_eitherOf.2 (Or.inr (Option.some.inj h).symm)
    · exact mem_eitherOf.2 (Or.inr (Option.some.inj h).symm)

/-- The mark of a feature is offered for no token. -/
lemma not_mem_offered_of_special {spelling : Text}
    (h : alphabet.number? (.special, spelling) = some n) : n ∉ token.offered alphabet := by
  intro hmem
  have hle := Alphabet.four_le_number? h
  obtain ⟨atom, hatom, -⟩ := exists_of_mem_offered hmem
  cases hwildcard : atom.isWildcard with
  | true =>
      have := number?_lt_two hatom hwildcard
      omega
  | false =>
      cases atom <;> simp [isWildcard] at hwildcard <;>
        simpa using Alphabet.number?_injective h hatom

/-- A literal atom covers nothing. -/
lemma not_covers_of_literal (h : atom.isWildcard = false) : ¬ atom.Covers token := by
  cases atom <;> simp_all [isWildcard, Covers]

/-- A wildcard names nothing. -/
lemma not_names_of_reserved (h : atom.reserved? = some n) : ¬ atom.Names token := by
  cases atom <;> simp_all [reserved?, Names]

/-- A wildcard has its reserved number in every alphabet. -/
lemma number?_of_reserved (alphabet : Alphabet) (h : atom.reserved? = some n) :
    atom.number? alphabet = some n := by
  cases atom <;> simp_all [reserved?, number?]

/-- What covers a token is a wildcard. -/
lemma exists_reserved_of_covers (h : atom.Covers token) : ∃ n, atom.reserved? = some n := by
  cases atom <;> simp_all [reserved?, Covers]

end Atom

/-! ## Words with a choice at each step -/

namespace Graph

variable {p m : Nat} {symbols : List Nat} {offered : List (List Nat)}

/-- Does some word that takes one of the offered symbols at each step, with a mark behind it, lead
from the state to a final one? -/
def AcceptsVia (graph : Graph) (p : Nat) (offered : List (List Nat)) (m : Nat) : Prop :=
  ∃ word, List.Forall₂ (· ∈ ·) word offered ∧ graph.AcceptsFrom p (word ++ [m])

/-- Behind the last step only the mark is taken, to a final state. -/
lemma acceptsVia_nil : graph.AcceptsVia p [] m
    ↔ ∃ q, ⟨m, q⟩ ∈ graph.arcs p ∧ graph.isFinal q = true := by
  simp [AcceptsVia]

/-- A step takes an arc for one of the offered symbols. -/
lemma acceptsVia_cons : graph.AcceptsVia p (symbols :: offered) m
    ↔ ∃ q, ∃ symbol ∈ symbols, ⟨symbol, q⟩ ∈ graph.arcs p ∧ graph.AcceptsVia q offered m := by
  simp only [AcceptsVia, List.forall₂_cons_right_iff]
  constructor
  · rintro ⟨_, ⟨symbol, word, hsymbol, hword, rfl⟩, haccepts⟩
    obtain ⟨q, harc, haccepts⟩ := acceptsFrom_cons.1 haccepts
    exact ⟨q, symbol, hsymbol, harc, word, hword, haccepts⟩
  · rintro ⟨q, symbol, hsymbol, harc, word, hword, haccepts⟩
    refine ⟨symbol :: word, ⟨symbol, word, hsymbol, hword, rfl⟩, ?_⟩
    exact acceptsFrom_cons.2 ⟨q, harc, haccepts⟩

end Graph

/-! ## Chains -/

/-- An arc that stays in its state, for one of some wildcards. -/
def IsLoop (loops : List Atom) (state : Nat) (arc : Arc) : Prop :=
  arc.target = state ∧ ∃ atom ∈ loops, atom.reserved? = some arc.symbol

/-- The state has loops for some wildcards, one arc more, and is neither the start nor final. -/
structure Leads (graph : Graph) (loops : List Atom) (state : Nat) (way : Arc) : Prop where
  ne_start : state ≠ 0
  not_final : graph.isFinal state = false
  mem_arcs : ∀ arc, arc ∈ graph.arcs state ↔ IsLoop loops state arc ∨ arc = way

/-- The chain for some atoms with a mark at its end, from a state on where some wildcards stand in
front already. -/
inductive Chain (alphabet : Alphabet) (graph : Graph) (mark : Nat) :
    List Atom → List Atom → Nat → Prop
  | stop {loops : List Atom} {state last : Nat} (hleads : Leads graph loops state ⟨mark, last⟩)
      (hstart : last ≠ 0) (hfinal : graph.isFinal last = true) :
      Chain alphabet graph mark loops [] state
  | wildcard {loops atoms : List Atom} {atom : Atom} {state : Nat} (hatom : atom.isWildcard = true)
      (h : Chain alphabet graph mark (loops ++ [atom]) atoms state) :
      Chain alphabet graph mark loops (atom :: atoms) state
  | literal {loops atoms : List Atom} {atom : Atom} {state n next : Nat}
      (hatom : atom.isWildcard = false) (hn : atom.number? alphabet = some n)
      (hleads : Leads graph loops state ⟨n, next⟩)
      (h : Chain alphabet graph mark [] atoms next) :
      Chain alphabet graph mark loops (atom :: atoms) state

variable {loops atoms : List Atom} {state mark m : Nat} {way : Arc} {tokens : List Token}

/-- A state with one way on ends a reading just when that way is the mark. -/
lemma Leads.acceptsVia_nil (h : Leads graph loops state way) :
    graph.AcceptsVia state [] m ↔ m = way.symbol ∧ graph.isFinal way.target = true := by
  rw [Graph.acceptsVia_nil]
  constructor
  · rintro ⟨q, harc, hfinal⟩
    rcases (h.mem_arcs _).1 harc with ⟨rfl, -⟩ | rfl
    · simp [h.not_final] at hfinal
    · exact ⟨rfl, hfinal⟩
  · rintro ⟨rfl, hfinal⟩
    exact ⟨way.target, (h.mem_arcs _).2 (Or.inr rfl), hfinal⟩

/-- At a state with one way on, a token is taken by a loop or on that way. -/
lemma Leads.acceptsVia_cons (h : Leads graph loops state way) {token : Token}
    {offered : List (List Nat)} :
    graph.AcceptsVia state (token.offered alphabet :: offered) m ↔
      (Pattern.Covered loops token ∧ graph.AcceptsVia state offered m) ∨
        (way.symbol ∈ token.offered alphabet ∧ graph.AcceptsVia way.target offered m) := by
  rw [Graph.acceptsVia_cons]
  constructor
  · rintro ⟨q, symbol, hsymbol, harc, haccepts⟩
    rcases (h.mem_arcs _).1 harc with ⟨rfl, atom, hatom, hn⟩ | rfl
    · have hnumber := Atom.number?_of_reserved alphabet hn
      rcases (Atom.mem_offered_iff hnumber).1 hsymbol with hnames | hcovers
      · exact absurd hnames (Atom.not_names_of_reserved hn)
      · exact Or.inl ⟨⟨atom, hatom, hcovers⟩, haccepts⟩
    · exact Or.inr ⟨hsymbol, haccepts⟩
  · rintro (⟨⟨atom, hatom, hcovers⟩, haccepts⟩ | ⟨hsymbol, haccepts⟩)
    · obtain ⟨n, hn⟩ := Atom.exists_reserved_of_covers hcovers
      have hnumber := Atom.number?_of_reserved alphabet hn
      exact ⟨state, n, (Atom.mem_offered_iff hnumber).2 (Or.inr hcovers),
        (h.mem_arcs _).2 (Or.inl ⟨rfl, atom, hatom, hn⟩), haccepts⟩
    · exact ⟨way.target, way.symbol, hsymbol, (h.mem_arcs _).2 (Or.inr rfl), haccepts⟩

/-- No state of a chain is final, since its mark comes behind. -/
lemma Chain.not_final (h : Chain alphabet graph mark loops atoms state) :
    graph.isFinal state = false := by
  induction h with
  | stop hleads _ _ => exact hleads.not_final
  | wildcard _ _ ih => exact ih
  | literal _ _ hleads _ _ => exact hleads.not_final

/-- When no atoms are left, further tokens must be covered by the loops. -/
lemma fits_nil_cons {token : Token} : Pattern.Fits loops [] (token :: tokens)
    ↔ Pattern.Covered loops token ∧ Pattern.Fits loops [] tokens := by
  simp [Pattern.Fits]

/-- A token before a literal atom is covered by the loops or is the named one. -/
lemma fits_literal_cons {atom : Atom} {token : Token} (h : atom.isWildcard = false) :
    Pattern.Fits loops (atom :: atoms) (token :: tokens) ↔
      (Pattern.Covered loops token ∧ Pattern.Fits loops (atom :: atoms) tokens) ∨
        (atom.Names token ∧ Pattern.Fits [] atoms tokens) := by
  simp only [Pattern.Fits, h, Bool.false_eq_true, if_false]
  constructor
  · rintro ⟨stretch, token', rest, heq, hstretch, hnames, hrest⟩
    cases stretch with
    | nil =>
        obtain ⟨rfl, rfl⟩ := List.cons.inj heq
        exact Or.inr ⟨hnames, hrest⟩
    | cons head stretch =>
        obtain ⟨rfl, rfl⟩ := List.cons.inj heq
        exact Or.inl ⟨hstretch _ List.mem_cons_self, stretch, token', rest, rfl,
          fun token htoken => hstretch token (List.mem_cons_of_mem _ htoken), hnames, hrest⟩
  · rintro (⟨hcovered, stretch, token', rest, rfl, hstretch, hnames, hrest⟩ | ⟨hnames, hrest⟩)
    · exact ⟨token :: stretch, token', rest, rfl, List.forall_mem_cons.2 ⟨hcovered, hstretch⟩,
        hnames, hrest⟩
    · exact ⟨[], token, tokens, rfl, by simp, hnames, hrest⟩

/-- **What a chain accepts.**  The wildcards and literals fit the tokens, and its own mark is
behind. -/
lemma Chain.acceptsVia_iff (h : Chain alphabet graph mark loops atoms state)
    {spelling : Text} (hmark : alphabet.number? (.special, spelling) = some mark) :
    graph.AcceptsVia state (tokens.map (Token.offered alphabet)) m
      ↔ m = mark ∧ Pattern.Fits loops atoms tokens := by
  induction h generalizing tokens with
  | stop hleads _ hfinal =>
      -- A loop takes a token and stays, so the tokens at one state need an induction of their own.
      induction tokens with
      | nil => simp [hleads.acceptsVia_nil, hfinal, Pattern.Fits]
      | cons token tokens ih =>
          have hoffered : mark ∉ token.offered alphabet := Atom.not_mem_offered_of_special hmark
          rw [List.map_cons, hleads.acceptsVia_cons, ih, fits_nil_cons]
          simp only [hoffered, false_and, or_false]
          exact and_left_comm
  | wildcard hatom _ ih =>
      rw [Pattern.Fits, if_pos hatom]
      exact ih
  | literal hatom hn hleads h ih =>
      induction tokens with
      | nil => simp [hleads.acceptsVia_nil, h.not_final, Pattern.Fits, hatom]
      | cons token tokens ihtokens =>
          rw [List.map_cons, hleads.acceptsVia_cons, ihtokens, ih,
            fits_literal_cons hatom, Atom.mem_offered_iff hn]
          simp only [Atom.not_covers_of_literal hatom, or_false]
          tauto

end LexicalSelection
