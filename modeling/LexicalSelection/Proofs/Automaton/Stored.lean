import LexicalSelection.Automaton.Binary
import LexicalSelection.Proofs.Automaton.Running
import LexicalSelection.Proofs.Codec.Numbers

/-!
# Automata read back

* `Storable` — the automata that can be stored: the offsets are those of some numbers of arcs, and
  numbers fit.
* **`takesAll_read`** — such an automaton is read back, and nothing less than all of its bytes.
* `gives_read` — only such automata are read.
* `storable_ofGraph` — a graph that is laid out can be stored when its numbers fit.
-/

namespace LexicalSelection.Automaton

open Decoding Codec

/-- The automaton can be stored.  States, arcs and symbols have 32 bits. -/
structure Storable (automaton : Automaton) : Prop where
  offsets_eq : ∃ counts, automaton.offsets = runningSums 0 counts ∧
    counts.length = automaton.size ∧ counts.sum = automaton.table.length
  size_pos : 0 < automaton.size
  size_lt : automaton.size < twoTo 32
  table_lt : automaton.table.length < twoTo 32
  symbol_lt : ∀ arc ∈ automaton.table, arc.symbol < twoTo 32
  target_lt : ∀ arc ∈ automaton.table, arc.target < automaton.size

/-! ## Where the arcs of a state end -/

/-- Where each of some more states ends. -/
def endsFrom (total : Nat) : List Nat → List Nat
  | [] => []
  | n :: rest => (total + n) :: endsFrom (total + n) rest

/-- Running sums begin with what was there before. -/
lemma runningSums_eq (total : Nat) (counts : List Nat) :
    runningSums total counts = total :: endsFrom total counts := by
  induction counts generalizing total with
  | nil => rfl
  | cons n rest ih => rw [runningSums, ih, endsFrom]

/-- Numbers are found again as the gaps between their running sums. -/
lemma gaps_runningSums (total : Nat) (counts : List Nat) :
    gaps (runningSums total counts) = counts := by
  induction counts generalizing total with
  | nil => rfl
  | cons n rest ih =>
      rw [runningSums, runningSums_eq, gaps, Nat.add_sub_cancel_left, ← runningSums_eq, ih]

/-- Where the arcs of states end is read back from their numbers. -/
lemma takesAll_readEnds {expected total : Nat} {counts : List Nat}
    (htotal : total + counts.sum = expected) (hexpected : expected < twoTo 32) :
    TakesAll (readEnds expected counts.length total) (counts.flatMap writeNat)
      (endsFrom total counts) := by
  have hword : twoTo 32 = 0x100000000 := rfl
  induction counts generalizing total with
  | nil =>
      show TakesAll (if total = expected then pure [] else throw _) [] []
      rw [if_pos (by simpa using htotal)]
      exact TakesAll.pure []
  | cons n rest ih =>
      rw [List.sum_cons, ← Nat.add_assoc] at htotal
      have hend : min (total + n) 0xFFFFFFFFFFFFFFFF = total + n := by omega
      refine (takesAll_readNat (lt_sixtyfour (by omega : n < twoTo 32))).bind ?_
      simp only [hend]
      rw [if_neg (by omega)]
      exact (ih htotal).bind_pure _

lemma steady_readEnds (expected states total : Nat) : Steady (readEnds expected states total) := by
  induction states generalizing total with
  | zero =>
      show Steady (if total = expected then pure [] else throw _)
      split
      · exact Steady.pure _
      · exact Steady.throw _
  | succ states ih =>
      refine steady_readNat.bind fun n => ?_
      show Steady (if _ then throw _ else _)
      split
      · exact Steady.throw _
      · exact (ih _).bind fun _ => Steady.pure _

/-- The numbers of arcs that are read sum up to the announced number of all arcs. -/
lemma gives_readEnds {expected states total : Nat} (h : total < twoTo 32) :
    Gives (readEnds expected states total) fun ends => expected < twoTo 32 ∧
      ∃ counts, counts.length = states ∧ ends = endsFrom total counts ∧
        total + counts.sum = expected := by
  have hword : twoTo 32 = 0x100000000 := rfl
  induction states generalizing total with
  | zero =>
      show Gives (if total = expected then pure [] else throw _) _
      split
      · rename_i htotal
        subst htotal
        exact Gives.pure ⟨h, [], rfl, rfl, rfl⟩
      · exact Gives.throw _ _
  | succ states ih =>
      refine (Gives.trivial readNat).bind fun n _ => ?_
      show Gives (if expected < min (total + n) 0xFFFFFFFFFFFFFFFF ∨
          0x100000000 ≤ min (total + n) 0xFFFFFFFFFFFFFFFF then throw _ else _) _
      split
      · exact Gives.throw _ _
      · rename_i hfits
        have hend : min (total + n) 0xFFFFFFFFFFFFFFFF = total + n := by omega
        rw [hend]
        refine (ih (by omega)).bind fun ends hends => Gives.pure ?_
        obtain ⟨hexpected, counts, hlength, rfl, hsum⟩ := hends
        refine ⟨hexpected, n :: counts, ?_, rfl, ?_⟩
        · rw [List.length_cons, hlength]
        · rw [List.sum_cons, ← Nat.add_assoc, hsum]

/-! ## Arcs and states -/

/-- An arc of 32 bits is read back. -/
lemma takesAll_readArc {arc : Arc} (hsymbol : arc.symbol < twoTo 32)
    (htarget : arc.target < twoTo 32) :
    TakesAll readArc (writeArc arc) arc :=
  (takesAll_readWord hsymbol).bind ((takesAll_readWord htarget).bind_pure _)

lemma steady_readArc : Steady readArc :=
  (steady_readWord 4).bind fun _ => (steady_readWord 4).bind fun _ => Steady.pure _

lemma gives_readArc : Gives readArc (·.symbol < twoTo 32) :=
  (gives_readWord 4).bind fun _ hsymbol => (Gives.trivial _).bind fun _ _ => Gives.pure hsymbol

/-- The number of a state is read back. -/
lemma takesAll_readState {count state : Nat} (hcount : count < twoTo 32) (h : state < count) :
    TakesAll (readState count) (writeNat state) state := by
  refine (takesAll_readNat (lt_sixtyfour (h.trans hcount))).bind_nil ?_
  rw [if_pos h]
  exact TakesAll.pure state

lemma steady_readState (count : Nat) : Steady (readState count) := by
  refine steady_readNat.bind fun state => ?_
  split
  · exact Steady.pure _
  · exact Steady.throw _

/-- A number of a state that is read is that of a state. -/
lemma gives_readState (count : Nat) : Gives (readState count) (· < count) := by
  refine (Gives.trivial readNat).bind fun state _ => ?_
  split
  · rename_i h
    exact Gives.pure h
  · exact Gives.throw _ _

/-! ## Final states -/

lemma mem_finals {automaton : Automaton} {state : Nat} :
    state ∈ automaton.finals ↔ state < automaton.size ∧ automaton.isFinal state = true := by
  rw [finals, List.mem_filter, List.mem_range]

/-- No more states are final than there are. -/
lemma length_finals_le (automaton : Automaton) : automaton.finals.length ≤ automaton.size := by
  rw [finals]
  exact (List.length_filter_le _ _).trans_eq List.length_range

/-- The final states say which flags are set. -/
lemma finalFlags_eq (automaton : Automaton) :
    (List.range automaton.size).map automaton.finals.contains = automaton.finalFlags := by
  have hlength : ((List.range automaton.size).map automaton.finals.contains).length
      = automaton.finalFlags.length := by
    rw [List.length_map, List.length_range, size]
  refine List.ext_getElem hlength fun state hstate hstate' => ?_
  have hflag : automaton.isFinal state = automaton.finalFlags[state] := by
    rw [isFinal, List.getElem?_eq_getElem hstate', Option.getD_some]
  rw [List.getElem_map, List.getElem_range, Bool.eq_iff_iff, List.contains_iff_mem, mem_finals,
    hflag]
  exact ⟨fun h => h.2, fun h => ⟨hstate', h⟩⟩

/-! ## Whole automata -/

/-- **An automaton is read back.** -/
lemma takesAll_read {automaton : Automaton} (h : automaton.Storable) :
    TakesAll read automaton.write automaton := by
  have hword : twoTo 32 = 0x100000000 := rfl
  obtain ⟨⟨counts, hoffsets, hlength, hsum⟩, hpos, hsize, htable, hsymbol, htarget⟩ := h
  have harcs : ∀ arc ∈ automaton.table, TakesAll readArc (writeArc arc) arc :=
    fun arc harc => takesAll_readArc (hsymbol arc harc) ((htarget arc harc).trans hsize)
  have hends := takesAll_readEnds ((Nat.zero_add counts.sum).trans hsum) htable
  have hfinals : ∀ state ∈ automaton.finals,
      TakesAll (readState automaton.size) (writeNat state) state :=
    fun state hstate => takesAll_readState hsize (mem_finals.1 hstate).1
  have hfinds : automaton.table.find? (automaton.size ≤ ·.target) = none := by
    rw [List.find?_eq_none]
    intro arc harc
    simpa using htarget arc harc
  rw [write, hoffsets, gaps_runningSums]
  simp only [List.append_assoc]
  refine (takesAll_readNat (lt_sixtyfour hsize)).bind
    ((takesAll_readNat (lt_sixtyfour htable)).bind ?_)
  rw [if_neg (by omega)]
  rw [hlength] at hends
  refine hends.bind ((takesAll_times harcs).bind ?_)
  rw [hfinds]
  have hcount := (length_finals_le automaton).trans_lt hsize
  refine (takesAll_readNat (lt_sixtyfour hcount)).bind ((takesAll_times hfinals).bind_nil ?_)
  rw [finalFlags_eq, ← runningSums_eq, ← hoffsets]
  exact TakesAll.pure automaton

lemma steady_read : Steady read := by
  refine steady_readNat.bind fun states => steady_readNat.bind fun arcCount => ?_
  split
  · exact Steady.throw _
  · refine (steady_readEnds _ _ _).bind fun ends =>
      (steady_times steady_readArc _).bind fun table => ?_
    split
    · exact Steady.throw _
    · exact steady_readNat.bind fun _ => (steady_times (steady_readState _) _).bind fun _ =>
        Steady.pure _

/-- An automaton that is read can be stored again. -/
lemma gives_read : Gives read Storable := by
  have hword : twoTo 32 = 0x100000000 := rfl
  refine (Gives.trivial readNat).bind fun states _ =>
    (Gives.trivial readNat).bind fun arcCount _ => ?_
  split
  · exact Gives.throw _ _
  · rename_i hstates
    refine (gives_readEnds (by decide)).bind fun ends hends =>
      (gives_times gives_readArc arcCount).bind fun table htable => ?_
    obtain ⟨harcCount, counts, hlength, rfl, hsum⟩ := hends
    obtain ⟨htable, hsymbol⟩ := htable
    split
    · exact Gives.throw _ _
    · rename_i hfinds
      refine (Gives.trivial readNat).bind fun _ _ => (Gives.trivial _).bind fun finals _ =>
        Gives.pure ?_
      have hsize : ((List.range states).map finals.contains).length = states := by
        rw [List.length_map, List.length_range]
      refine ⟨⟨counts, (runningSums_eq 0 counts).symm, ?_, ?_⟩, ?_, ?_, ?_, hsymbol, ?_⟩
      · rw [size, hsize, hlength]
      · rw [htable, ← hsum, Nat.zero_add]
      · rw [size, hsize]
        omega
      · rw [size, hsize]
        omega
      · rw [htable]
        exact harcCount
      · intro arc harc
        rw [size, hsize]
        have htarget := List.find?_eq_none.1 hfinds arc harc
        simpa using htarget

/-! ## Other final states -/

@[simp] lemma size_withFinals (states : List Nat) (automaton : Automaton) :
    (automaton.withFinals states).size = automaton.size := by
  rw [withFinals, size, List.length_map, List.length_range]

/-- With other final states an automaton can still be stored. -/
lemma Storable.withFinals {automaton : Automaton} (h : automaton.Storable) (states : List Nat) :
    (automaton.withFinals states).Storable where
  offsets_eq := by
    rw [size_withFinals]
    exact h.offsets_eq
  size_pos := by
    rw [size_withFinals]
    exact h.size_pos
  size_lt := by
    rw [size_withFinals]
    exact h.size_lt
  table_lt := h.table_lt
  symbol_lt := h.symbol_lt
  target_lt := by
    rw [size_withFinals]
    exact h.target_lt

/-! ## Graphs laid out -/

/-- A graph laid out can be stored when its numbers have 32 bits. -/
lemma storable_ofGraph {graph : Graph} (hclosed : graph.Closed) (hpos : 0 < graph.size)
    (hsize : graph.size < twoTo 32) (htable : (ofGraph graph).table.length < twoTo 32)
    (hsymbol : ∀ arc ∈ (ofGraph graph).table, arc.symbol < twoTo 32) :
    (ofGraph graph).Storable where
  offsets_eq := by
    refine ⟨graph.nodes.map (·.arcs.length), rfl, ?_, ?_⟩
    · rw [size_ofGraph, List.length_map, Graph.size]
    · rw [ofGraph, List.length_flatMap]
  size_pos := by rwa [size_ofGraph]
  size_lt := by rwa [size_ofGraph]
  table_lt := htable
  symbol_lt := hsymbol
  target_lt := by
    intro arc harc
    obtain ⟨node, hnode, harc⟩ := List.mem_flatMap.1 harc
    obtain ⟨state, hstate⟩ := List.mem_iff_getElem?.1 hnode
    rw [size_ofGraph]
    exact hclosed.target_lt state arc (Graph.mem_arcs.2 ⟨node, hstate, harc⟩)

end LexicalSelection.Automaton
