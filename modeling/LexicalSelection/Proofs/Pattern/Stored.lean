import LexicalSelection.Pattern.Binary
import LexicalSelection.Proofs.Alphabet.Stored
import LexicalSelection.Proofs.Automaton.Stored
import LexicalSelection.Proofs.Pattern.Features

/-!
# Matchers read back

* `Storable` — the matchers that can be stored.
* **`takesAll_read`** — such a matcher is read back.
* `gives_read` — only such matchers are read.
* `FitsWords`, `storable_compile` — a matcher for patterns can be stored when its numbers fit.
-/

namespace LexicalSelection.Matcher

open Decoding Codec

/-- The matcher can be stored: its final states are those where features end, and numbers fit. -/
structure Storable (matcher : Matcher) : Prop where
  alphabet : matcher.alphabet.Storable
  automaton : matcher.automaton.Storable
  finals : matcher.automaton.withFinals (matcher.featureStates.map FeatureState.state)
    = matcher.automaton
  strict : Ascending.Strict matcher.featureStates
  count_lt : matcher.featureStates.length < twoTo 64
  state_lt : ∀ entry ∈ matcher.featureStates, entry.state < matcher.automaton.size
  feature_lt : ∀ entry ∈ matcher.featureStates, entry.feature < twoTo 64

/-! ## States where features end -/

/-- A state where a feature ends is read back with the feature. -/
lemma takesAll_readFeatureState {count : Nat} {entry : FeatureState} (hcount : count < twoTo 32)
    (hstate : entry.state < count) (hfeature : entry.feature < twoTo 64) :
    TakesAll (readFeatureState count) (writeFeatureState entry) entry :=
  (Automaton.takesAll_readState hcount hstate).bind ((takesAll_readNat hfeature).bind_pure _)

lemma steady_readFeatureState (count : Nat) : Steady (readFeatureState count) :=
  (Automaton.steady_readState count).bind fun _ => steady_readNat.bind fun _ => Steady.pure _

/-- Each state that is read is one of the automaton. -/
lemma gives_readFeatureState (count : Nat) : Gives (readFeatureState count) fun entry =>
    entry.state < count ∧ entry.feature < twoTo 64 :=
  (Automaton.gives_readState count).bind fun _ hstate =>
    gives_readNat.bind fun _ hfeature => Gives.pure ⟨hstate, hfeature⟩

/-! ## Whole matchers -/

/-- **A matcher is read back.** -/
lemma takesAll_read {matcher : Matcher} (h : matcher.Storable) :
    TakesAll read matcher.write matcher := by
  have hentries : ∀ entry ∈ matcher.featureStates,
      TakesAll (readFeatureState matcher.automaton.size) (writeFeatureState entry) entry :=
    fun entry hentry => takesAll_readFeatureState h.automaton.size_lt (h.state_lt entry hentry)
      (h.feature_lt entry hentry)
  have hself : ofFeatureStates matcher.alphabet matcher.automaton
      (Ascending.ofList matcher.featureStates) = matcher := by
    rw [Ascending.ofList_of_strict h.strict, ofFeatureStates, h.finals]
  rw [write]
  simp only [List.append_assoc]
  refine (Alphabet.takesAll_read h.alphabet).bind ((Automaton.takesAll_read h.automaton).bind
    ((takesAll_readNat h.count_lt).bind ((takesAll_times hentries).bind_nil ?_)))
  rw [hself]
  exact TakesAll.pure matcher

lemma steady_read : Steady read :=
  Alphabet.steady_read.bind fun _ => Automaton.steady_read.bind fun automaton =>
    steady_readNat.bind fun _ => (steady_times (steady_readFeatureState automaton.size) _).bind
      fun _ => Steady.pure _

/-- The final states of a matcher are those where features end. -/
lemma finals_ofFeatureStates (alphabet : Alphabet) (automaton : Automaton)
    (featureStates : List FeatureState) :
    (ofFeatureStates alphabet automaton featureStates).automaton.withFinals
        (featureStates.map FeatureState.state)
      = (ofFeatureStates alphabet automaton featureStates).automaton := by
  rw [ofFeatureStates]
  simp only
  rw [Automaton.withFinals, Automaton.size_withFinals]
  rfl

/-- A matcher can be stored when its parts can. -/
lemma storable_ofFeatureStates {alphabet : Alphabet} {automaton : Automaton}
    {featureStates : List FeatureState} (halphabet : alphabet.Storable)
    (hautomaton : automaton.Storable) (hstrict : Ascending.Strict featureStates)
    (hcount : featureStates.length < twoTo 64)
    (hentries : ∀ entry ∈ featureStates, entry.state < automaton.size ∧ entry.feature < twoTo 64) :
    (ofFeatureStates alphabet automaton featureStates).Storable where
  alphabet := halphabet
  automaton := hautomaton.withFinals _
  finals := finals_ofFeatureStates alphabet automaton featureStates
  strict := hstrict
  count_lt := hcount
  state_lt entry hentry := by
    show entry.state < (automaton.withFinals _).size
    rw [Automaton.size_withFinals]
    exact (hentries entry hentry).1
  feature_lt entry hentry := (hentries entry hentry).2

/-- A matcher that is read can be stored again. -/
lemma gives_read : Gives read Storable := by
  refine Alphabet.gives_read.bind fun alphabet halphabet => Automaton.gives_read.bind
    fun automaton hautomaton => gives_readNat.bind fun count hcount =>
      (gives_times (gives_readFeatureState automaton.size) count).bind fun entries hentries =>
        Gives.pure ?_
  obtain ⟨hlength, hentries⟩ := hentries
  refine storable_ofFeatureStates halphabet hautomaton (Ascending.strict_ofList entries) ?_ ?_
  · rw [← hlength] at hcount
    exact (Ascending.length_ofList_le entries).trans_lt hcount
  · exact fun entry hentry => hentries entry (Ascending.mem_ofList.1 hentry)

/-! ## Matchers for patterns -/

/-- The numbers of the matcher fit: those of states, arcs and symbols into 32 bits and all others
into 64. -/
structure FitsWords (matcher : Matcher) : Prop where
  symbols : matcher.alphabet.size < twoTo 64
  spelling : ∀ symbol ∈ matcher.alphabet.added, symbol.2.utf8.length < twoTo 64
  states : matcher.automaton.size < twoTo 32
  arcs : matcher.automaton.table.length < twoTo 32
  symbol : ∀ arc ∈ matcher.automaton.table, arc.symbol < twoTo 32
  ends : matcher.featureStates.length < twoTo 64
  feature : ∀ entry ∈ matcher.featureStates, entry.feature < twoTo 64

/-- Each character of the alphabet is spelled by one character. -/
def OneCharacter (alphabet : Alphabet) : Prop :=
  ∀ symbol ∈ alphabet.added, symbol.1 = .char → symbol.2.length = 1

/-- Adding a character that is one character keeps all of them so. -/
lemma oneCharacter_intern {alphabet : Alphabet} {symbol : NamedSymbol} (h : OneCharacter alphabet)
    (hsymbol : symbol.1 = .char → symbol.2.length = 1) :
    OneCharacter (alphabet.intern symbol).2 := by
  rw [Alphabet.intern]
  split
  · exact h
  · intro other hother
    rcases List.mem_append.1 hother with hother | hother
    · exact h other hother
    · obtain rfl := List.mem_singleton.1 hother
      exact hsymbol

namespace Draft

/-- The mark for a side is a reserved symbol, and not added. -/
lemma alphabet_addSide (side : Option Side) (draft : Draft) :
    (draft.addSide side).2.alphabet = draft.alphabet := by
  cases side <;> rfl

/-- An atom adds no character but its own. -/
lemma oneCharacter_addAtom {draft : Draft} (atom : Atom) (state : Nat)
    (h : OneCharacter draft.alphabet) : OneCharacter (draft.addAtom atom state).2.alphabet := by
  cases atom with
  | anyChars => exact h
  | anyTags => exact h
  | char c => exact oneCharacter_intern h fun _ => rfl
  | tag text => exact oneCharacter_intern h fun hkind => nomatch hkind

lemma oneCharacter_addAtoms {draft : Draft} (atoms : List Atom) (state : Nat)
    (h : OneCharacter draft.alphabet) : OneCharacter (addAtoms atoms state draft).2.alphabet := by
  induction atoms generalizing draft state with
  | nil => exact h
  | cons atom atoms ih => exact ih _ (oneCharacter_addAtom atom state h)

/-- A pattern adds no characters but those of its atoms. -/
lemma oneCharacter_addPattern {draft : Draft} (feature : Nat) (pattern : Pattern)
    (h : OneCharacter draft.alphabet) :
    OneCharacter (draft.addPattern feature pattern).alphabet := by
  have hmark : OneCharacter (draft.withMark feature).alphabet :=
    oneCharacter_intern h fun hkind => nomatch hkind
  rw [addPattern_eq]
  refine oneCharacter_addAtoms pattern.atoms _ ?_
  rw [alphabet_addSide]
  exact hmark

end Draft

/-- In the alphabet of a draft each character is one character. -/
lemma oneCharacter_draftOf (patterns : List (Nat × Text)) :
    OneCharacter (draftOf patterns).alphabet := by
  rw [draftOf]
  refine List.foldlRecOn (motive := fun draft : Draft => OneCharacter draft.alphabet) patterns _
    (fun _ h => absurd h List.not_mem_nil) fun draft h entry _ => ?_
  exact Draft.oneCharacter_addPattern entry.1 (.ofText entry.2) h

/-- The matcher for a closed graph can be stored when its numbers fit. -/
lemma storable_ofGraph {alphabet : Alphabet} {graph : Graph} {featureStates : List FeatureState}
    (h : (ofFeatureStates alphabet (.ofGraph graph) featureStates).FitsWords)
    (hcharacter : OneCharacter alphabet) (hclosed : graph.Closed) (hpos : 0 < graph.size)
    (hstrict : Ascending.Strict featureStates)
    (hstate : ∀ entry ∈ featureStates, entry.state < (Automaton.ofGraph graph).size) :
    (ofFeatureStates alphabet (.ofGraph graph) featureStates).Storable := by
  have hstates : ((Automaton.ofGraph graph).withFinals _).size < twoTo 32 := h.states
  rw [Automaton.size_withFinals, Automaton.size_ofGraph] at hstates
  exact storable_ofFeatureStates ⟨h.symbols, h.spelling, hcharacter⟩
    (Automaton.storable_ofGraph hclosed hpos hstates h.arcs h.symbol) hstrict h.ends
    fun entry hentry => ⟨hstate entry hentry, h.feature entry hentry⟩

/-- **A matcher for patterns can be stored** when its numbers fit. -/
lemma storable_compile {patterns : List (Nat × Text)} (h : (compile patterns).FitsWords) :
    (compile patterns).Storable := by
  have hclosed : (draftOf patterns).graph.minimize.Closed :=
    Graph.closed_determinize (Graph.closed_reverse (Graph.closed_determinize
      (Graph.closed_reverse (represents_draftOf patterns).closed)))
  have hinitial : 0 ∈ (draftOf patterns).graph.minimize.initials := List.mem_singleton_self 0
  rw [compile_eq] at h ⊢
  exact storable_ofGraph h (oneCharacter_draftOf patterns) hclosed (hclosed.initial_lt 0 hinitial)
    (Ascending.strict_ofList _) fun entry hentry => (mem_findFeatureStates.1 hentry).1

end LexicalSelection.Matcher
