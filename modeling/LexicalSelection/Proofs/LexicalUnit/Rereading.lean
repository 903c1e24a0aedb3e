import LexicalSelection.Proofs.LexicalUnit.Spelling
import LexicalSelection.Proofs.Text.Utf8

/-!
# What is written is read again

The text of a reading or of a blank says by itself where it ends, unless the input ended in it: an
escape, a tag or a bracket may be open there.  So a unit that has been closed can be written with
other readings beside or in place of its own, and what is written is read as it was meant.

* `copyThrough_again`, `readBlank_again`, `Reading.read_again` — what has been read is read again,
  in front of something else.
* `CutOff` — behind the readings of a unit the input ends, or a separator stands there.
* **`write_of_read`** — a unit is written as it was read, and closed if it was cut off; a reading is
  found again in its own text.
* `Delimited` — a unit whose blank and readings can stand in front of anything.
* **`read_spelling`** — such a unit is read from its spelling, whatever comes behind.
* **`read_of_write`** — so it is with a unit that was closed and is written with a chosen target.
-/

namespace LexicalSelection

namespace Input

variable {input rest rest' : Input} {close c : Char} {text blank : Text}

@[simp] lemma ofText_nil : ofText [] = [] := rfl

@[simp] lemma ofText_cons (c : Char) (text : Text) : ofText (c :: text) = .char c :: ofText text :=
  rfl

lemma ofText_injective : Function.Injective ofText :=
  List.map_injective_iff.2 fun _ _ h => by simpa using h

lemma atFront_ofText {p : Char → Prop} (h : (ofText text).AtFront p) :
    text = [] ∨ ∃ c more, text = c :: more ∧ p c := by
  cases text with
  | nil => exact Or.inl rfl
  | cons c more =>
      obtain ⟨d, rest, heq, hd⟩ := h.resolve_left (List.cons_ne_nil _ _)
      obtain ⟨rfl, -⟩ : c = d ∧ ofText more = rest := by simpa using heq
      exact Or.inr ⟨c, more, rfl, hd⟩

/-! ## What has been read -/

/-- A stretch is copied again.  If the end of the input has closed it, it must come again. -/
lemma copyThrough_again (h : copyThrough close input = .ok text rest)
    (hend : rest = [] → rest' = []) :
    copyThrough close (ofText text ++ rest') = .ok text rest' := by
  fun_induction copyThrough close input generalizing text with
  | case1 => cases h; simp [copyThrough, hend rfl]
  | case2 => cases h
  | case3 => cases h; simp [copyThrough, hend rfl]
  | case4 => cases h
  | case5 d input ih =>
      obtain ⟨text, htext, rfl⟩ := map_eq_ok.1 h
      simp [copyThrough, ih htext, Found.map]
  | case6 input hescape => cases h; simp [copyThrough.eq_def, hescape]
  | case7 c input hescape hclose ih =>
      obtain ⟨text, htext, rfl⟩ := map_eq_ok.1 h
      rw [ofText_cons, List.cons_append, copyThrough.eq_def]
      simp [hescape, hclose, ih htext, Found.map]

/-- A tag is read again from what comes behind its opening bracket. -/
lemma readTag_again {tag : Text} (h : readTag input = .ok tag rest)
    (hend : rest = [] → rest' = []) :
    ∃ body, '<' :: body = tag ∧ readTag (ofText body ++ rest') = .ok tag rest' := by
  obtain ⟨body, hbody, rfl⟩ := map_eq_ok.1 h
  exact ⟨body, rfl, map_eq_ok.2 ⟨body, copyThrough_again hbody hend, rfl⟩⟩

/-- The character ends a blank. -/
def EndsBlank (c : Char) : Prop := c = unitOpen ∨ c = segmentSeparator

/-- A blank is read again, in front of a character that ends a blank. -/
lemma readBlank_again (h : readBlank input = .ok blank rest) (hfront : rest'.AtFront EndsBlank)
    (hend : rest = [] → rest' = []) : readBlank (ofText blank ++ rest') = .ok blank rest' := by
  have hstop : readBlank rest' = .ok [] rest' := by
    obtain rfl | ⟨c, behind, rfl, hc⟩ := hfront
    · rw [readBlank]
    · rw [readBlank.eq_def]
      exact if_pos hc
  fun_induction readBlank input generalizing blank with
  | case1 => cases h; exact hstop
  | case2 => cases h
  | case3 => cases h; exact hstop
  | case4 hc => cases h; simp [readBlank, hc, hend rfl]
  | case5 => cases h
  | case6 d input hc ih =>
      obtain ⟨blank, hblank, rfl⟩ := map_eq_ok.1 h
      simp [readBlank, ih hblank, hc, Found.map]
  | case7 => cases h
  | case8 input stretch rest₁ hstretch _ hc hescape ih =>
      obtain ⟨blank, hblank, rfl⟩ := map_eq_ok.1 h
      -- A stretch that the end of the input has closed is the last thing in the blank.
      have hlast : rest₁ = [] → ofText blank ++ rest' = [] := by
        rintro rfl
        obtain ⟨rfl, rfl⟩ : [] = blank ∧ [] = rest := by simpa [readBlank] using hblank
        exact hend rfl
      have hcopied := copyThrough_again hstretch hlast
      have hbehind := ih hblank
      rw [List.cons_append, ofText_cons, ofText_append, List.cons_append, List.append_assoc,
        readBlank.eq_def]
      simp only [hc, hescape, if_false, if_true]
      split
      · rename_i hfound
        cases hcopied.symm.trans hfound
      · rename_i hfound
        cases hcopied.symm.trans hfound
        rw [hbehind]
        rfl
  | case9 c input hc hescape hbracket ih =>
      obtain ⟨blank, hblank, rfl⟩ := map_eq_ok.1 h
      rw [ofText_cons, List.cons_append, readBlank.eq_def]
      simp [hc, hescape, hbracket, ih hblank, Found.map]

end Input

namespace Reading

variable {tags : TagNumbers} {input rest rest' : Input} {pieces : List Piece} {reading : Reading}

lemma readPieces_again (h : readPieces tags input = .ok pieces rest)
    (hfront : rest'.AtFront (endsReading · = true)) (hend : rest = [] → rest' = []) :
    readPieces tags (.ofText (pieces.flatMap Piece.text) ++ rest') = .ok pieces rest' := by
  have hstop : readPieces tags rest' = .ok [] rest' := by
    obtain rfl | ⟨c, behind, rfl, hc⟩ := hfront
    · rw [readPieces]
    · rw [readPieces.eq_def]
      exact if_pos hc
  fun_induction readPieces tags input generalizing pieces with
  | case1 => cases h; exact hstop
  | case2 => cases h
  | case3 => cases h; exact hstop
  | case4 hc => cases h; simp [readPieces, hc, hend rfl, Piece.text]
  | case5 => cases h
  | case6 d input hc ih =>
      obtain ⟨pieces, hpieces, rfl⟩ := Input.map_eq_ok.1 h
      simp [readPieces, ih hpieces, hc, Found.map, Piece.text]
  | case7 => cases h
  | case8 input tag rest₁ htag _ hc hescape ih =>
      obtain ⟨pieces, hpieces, rfl⟩ := Input.map_eq_ok.1 h
      -- A tag that the end of the input has closed is the last piece.
      have hlast : rest₁ = [] → .ofText (pieces.flatMap Piece.text) ++ rest' = [] := by
        rintro rfl
        obtain ⟨rfl, rfl⟩ : [] = pieces ∧ [] = rest := by simpa [readPieces] using hpieces
        exact hend rfl
      obtain ⟨body, rfl, hagain⟩ := Input.readTag_again htag hlast
      have hbehind := ih hpieces
      rw [List.flatMap_cons, Piece.text, List.cons_append, Input.ofText_cons, Input.ofText_append,
        List.cons_append, List.append_assoc, readPieces.eq_def]
      simp only [hc, hescape, Bool.false_eq_true, if_false, if_true]
      split
      · rename_i hfound
        cases hagain.symm.trans hfound
      · rename_i hfound
        cases hagain.symm.trans hfound
        rw [hbehind]
        rfl
  | case9 c input hc hescape hbracket ih =>
      obtain ⟨pieces, hpieces, rfl⟩ := Input.map_eq_ok.1 h
      rw [List.flatMap_cons, Piece.text, List.singleton_append, Input.ofText_cons, List.cons_append,
        readPieces.eq_def]
      simp [hc, hescape, hbracket, ih hpieces, Found.map]

/-- **A reading is read again from its text**, in front of a character that ends a reading. -/
lemma read_again (h : read tags input = .ok reading rest)
    (hfront : rest'.AtFront (endsReading · = true)) (hend : rest = [] → rest' = []) :
    read tags (.ofText reading.form ++ rest') = .ok reading rest' := by
  obtain ⟨pieces, hpieces, rfl⟩ := Input.map_eq_ok.1 h
  exact Input.map_eq_ok.2 ⟨pieces, readPieces_again hpieces hfront hend, rfl⟩

/-- A reading is found again in its own text. -/
lemma parse_form (h : read tags input = .ok reading rest) : parse tags reading.form = reading := by
  have hagain := read_again h (Or.inl rfl) fun _ => rfl
  rw [List.append_nil] at hagain
  rw [parse, hagain]

/-- The reading is read from its text in front of any character that ends a reading. -/
def Delimited (tags : TagNumbers) (reading : Reading) : Prop :=
  ∀ c behind, endsReading c = true →
    read tags (Input.ofText reading.form ++ .char c :: behind) = .ok reading (.char c :: behind)

lemma delimited_of_read (h : read tags input = .ok reading rest) (hne : rest ≠ []) :
    reading.Delimited tags :=
  fun c behind hc => read_again h (Or.inr ⟨c, behind, rfl, hc⟩) fun hnil => absurd hnil hne

end Reading

namespace LexicalUnit

variable {tags : TagNumbers} {input rest behind : Input} {unit : LexicalUnit}
  {targets : List Reading} {target : Reading}

/-! ## Units that are cut off -/

/-- The unit at the front of the input is cut off: behind its readings the input ends, or a
separator stands there. -/
def CutOff (tags : TagNumbers) (input : Input) : Prop :=
  ∃ blank behind source rest targets rest',
    Input.readBlank input = .ok blank (.char Input.unitOpen :: behind) ∧
      Reading.read tags behind = .ok source rest ∧ readTargets tags rest = .ok targets rest' ∧
      rest'.AtFront (· = Input.segmentSeparator)

/-- How a unit is read: a blank, the character that opens a unit, and readings. -/
lemma read_eq_ok (h : read tags input = .ok unit rest) (hopen : unit.isEnd = false) :
    ∃ behind source rest₁ rest₂, unit.source = some source ∧
      Input.readBlank input = .ok unit.blank (.char Input.unitOpen :: behind) ∧
      Reading.read tags behind = .ok source rest₁ ∧
      readTargets tags rest₁ = .ok unit.targets rest₂ ∧ readClose rest₂ = .ok () rest := by
  unfold read at h
  split at h
  · cases h
  · cases h; cases hopen
  · cases h
  · rename_i blank c behind hblank
    split at h
    · rename_i hc
      obtain ⟨⟨source, targets⟩, hreadings, rfl⟩ := Input.map_eq_ok.1 h
      simp only [readReadings, bind, EStateM.bind] at hreadings
      split at hreadings
      · rename_i source' rest₁ hsource
        split at hreadings
        · rename_i targets' rest₂ htargets
          split at hreadings
          · rename_i rest₃ hclose
            cases hreadings
            exact ⟨behind, source, rest₁, rest₂, rfl, hc ▸ hblank, hsource, htargets, hclose⟩
          · cases hreadings
        · cases hreadings
      · cases hreadings
    · cases h; cases hopen

/-- What reading leaves of the input says whether a unit was cut off. -/
lemma cutOff_iff {source : Reading} {blank : Text} {rest₁ rest₂ : Input}
    (hblank : Input.readBlank input = .ok blank (.char Input.unitOpen :: behind))
    (hsource : Reading.read tags behind = .ok source rest₁)
    (htargets : readTargets tags rest₁ = .ok targets rest₂) :
    CutOff tags input ↔ rest₂.AtFront (· = Input.segmentSeparator) := by
  constructor
  · rintro ⟨_, _, _, _, _, _, hblank', hsource', htargets', hfront⟩
    cases hblank.symm.trans hblank'
    cases hsource.symm.trans hsource'
    cases htargets.symm.trans htargets'
    exact hfront
  · intro hfront
    exact ⟨_, _, _, _, _, _, hblank, hsource, htargets, hfront⟩

/-- The end of a stream or segment is not cut off. -/
lemma isEnd_of_cutOff (h : read tags input = .ok unit rest) (hcut : CutOff tags input) :
    unit.isEnd = false := by
  obtain ⟨blank, behind, -, -, -, -, hblank, -⟩ := hcut
  rw [read, hblank] at h
  dsimp only at h
  rw [if_pos rfl] at h
  obtain ⟨readings, -, rfl⟩ := Input.map_eq_ok.1 h
  rfl

/-- What comes behind the readings of a unit closes it, or it is cut off. -/
lemma spelling_of_open (h : read tags input = .ok unit rest) (hopen : unit.isEnd = false) :
    CutOff tags input ∧ input = .ofText (unit.spelling false) ++ rest ∧
        rest.AtFront (· = Input.segmentSeparator) ∨
      ¬CutOff tags input ∧ input = .ofText (unit.spelling true) ++ rest := by
  obtain ⟨behind, source, rest₁, rest₂, hunit, hblank, hsource, htargets, hclose⟩ :=
    read_eq_ok h hopen
  obtain ⟨hinput, -⟩ := Input.spelling_of_readBlank hblank
  obtain ⟨hbehind, hfront⟩ := Reading.spelling_of_read hsource
  obtain ⟨hrest₁, hfront⟩ := spelling_of_readTargets htargets hfront
  obtain ⟨closed, hrest₂, hclosed⟩ := spelling_of_readClose hclose hfront
  have hspelling : input = .ofText (unit.spelling closed) ++ rest := by
    rw [hinput, hbehind, hrest₁, hrest₂, spelling, hunit]
    simp [Input.ofText_append]
  rw [cutOff_iff hblank hsource htargets]
  cases closed with
  | false =>
      have hsame : rest₂ = rest := by simpa using hrest₂
      exact Or.inl ⟨hsame ▸ hclosed rfl, hspelling, hclosed rfl⟩
  | true =>
      refine Or.inr ⟨?_, hspelling⟩
      rw [hrest₂]
      simp [Input.AtFront, Input.unitClose, Input.segmentSeparator]

/-! ## What is written -/

lemma exists_source (hopen : unit.isEnd = false) : ∃ source, unit.source = some source :=
  Option.isSome_iff_exists.1 (by simpa [isEnd] using hopen)

/-- With its source reading, a unit is written as the unit that has the targets in the order in
which they are written. -/
lemma write_withSurface (selected : Nat) (selectedFirst : Bool) (unit : LexicalUnit) :
    unit.write selected selectedFirst true = spelling true
      { unit with targets := unit.targets[selected]?.toList
          ++ if selectedFirst then unit.targets.eraseIdx selected else [] } := by
  rw [write, spelling]
  cases unit.source with
  | none => rfl
  | some source => cases selectedFirst <;> simp [targetsSpelling, List.flatMap_map]

/-- Without its source reading, a unit is written as the unit that has the chosen target in its
place.
-/
lemma write_withoutSurface {selected : Nat} (hopen : unit.isEnd = false)
    (htarget : unit.targets[selected]? = some target) :
    unit.write selected false false
      = spelling true { unit with source := some target, targets := [] } := by
  obtain ⟨source, hsource⟩ := exists_source hopen
  simp [write, spelling, targetsSpelling, hsource, htarget]

lemma write_all (unit : LexicalUnit) : unit.write 0 true true = unit.spelling true := by
  have htargets : unit.targets[0]?.toList ++ unit.targets.eraseIdx 0 = unit.targets := by
    cases unit.targets <;> simp
  rw [write_withSurface, if_pos rfl, htargets]

lemma spelling_closed (hopen : unit.isEnd = false) :
    unit.spelling true = unit.spelling false ++ [Input.unitClose] := by
  obtain ⟨source, hsource⟩ := exists_source hopen
  simp [spelling, hsource]

/-- **Reading a unit loses nothing.**  From every text a unit can be read.  When it is written with
all of its targets in their order, the text that reading has taken comes out again; behind a unit
that was cut off by a separator or by the end of the text it is followed by the character that
closes a unit.  And a reading that has been read, from any input, is found again in its own text. -/
theorem write_of_read (tags : TagNumbers) :
    (∀ text : Text, ∃ unit taken behind,
      read tags (.ofBytes text.utf8) = .ok unit (.ofText behind) ∧ text = taken ++ behind ∧
        (¬CutOff tags (.ofBytes text.utf8) ∧ unit.write 0 true true = taken ∨
          CutOff tags (.ofBytes text.utf8) ∧
            unit.write 0 true true = taken ++ [Input.unitClose] ∧
            (behind = [] ∨ ∃ more, behind = Input.segmentSeparator :: more))) ∧
    ∀ input reading rest, Reading.read tags input = .ok reading rest →
      Reading.parse tags reading.form = reading := by
  refine ⟨fun text => ?_, fun input reading rest h => Reading.parse_form h⟩
  obtain ⟨unit, closed, behind, hread, htext, hbehind⟩ := exists_read_ofText tags text
  rw [show Input.ofBytes text.utf8 = .ofText text from Utf8.items_utf8 text]
  cases hend : unit.isEnd with
  | true =>
      refine ⟨unit, unit.spelling closed, behind, hread, htext, Or.inl ⟨fun hcut => ?_, ?_⟩⟩
      · simp [isEnd_of_cutOff hread hcut] at hend
      · rw [write_all, spelling_of_isEnd hend, spelling_of_isEnd hend]
  | false =>
      rcases spelling_of_open hread hend with ⟨hcut, hinput, hfront⟩ | ⟨hclosed, hinput⟩
      · rw [← Input.ofText_append] at hinput
        refine ⟨unit, _, behind, hread, Input.ofText_injective hinput, Or.inr ⟨hcut, ?_, ?_⟩⟩
        · rw [write_all, spelling_closed hend]
        · rcases Input.atFront_ofText hfront with hnil | ⟨_, more, hmore, rfl⟩
          · exact Or.inl hnil
          · exact Or.inr ⟨more, hmore⟩
      · rw [← Input.ofText_append] at hinput
        exact ⟨unit, _, behind, hread, Input.ofText_injective hinput,
          Or.inl ⟨hclosed, write_all unit⟩⟩

/-- A unit whose last tag is not closed is cut off by the end of the text. -/
theorem write_of_read_unterminated :
    let tags : TagNumbers := fun tag => if tag = "<n\\>>".toList then some 0 else none
    let text : Text := "[\\]^]^a\\/<n\\>>/b<v".toList
    let source : Reading := ⟨[.plain 'a', .escaped '/', .tag "<n\\>>".toList (some 0)], []⟩
    let target : Reading := ⟨[.plain 'b', .tag "<v".toList none], []⟩
    let unit : LexicalUnit := ⟨"[\\]^]".toList, some source, [target]⟩
    read tags (.ofBytes text.utf8) = .ok unit [] ∧ CutOff tags (.ofBytes text.utf8) ∧
      unit.write 0 true true = text ++ [Input.unitClose] ∧
      Reading.parse tags target.form = target := by
  intro tags text source target unit
  have hread : read tags (.ofBytes text.utf8) = .ok unit [] := by decide +kernel
  have htarget : Reading.read tags (.ofText "b<v".toList) = .ok target [] := by decide +kernel
  obtain ⟨hwrite, hparse⟩ := write_of_read tags
  obtain ⟨unit', taken, behind, hread', htext, h⟩ := hwrite text
  have hresult : EStateM.Result.ok unit [] = .ok unit' (Input.ofText behind) :=
    hread.symm.trans hread'
  obtain ⟨hunit, hbehind⟩ := EStateM.Result.ok.inj hresult
  obtain rfl : [] = behind := Input.ofText_injective hbehind
  obtain rfl : taken = text := (htext.trans (List.append_nil taken)).symm
  rw [← hunit] at h
  have hlong : unit.write 0 true true ≠ text := by decide +kernel
  obtain ⟨hcut, hwritten, -⟩ := h.resolve_left fun h => hlong h.2
  exact ⟨hread, hcut, hwritten, hparse _ _ _ htarget⟩

/-! ## Units that were closed -/

/-- The blank of the unit can stand before any unit, and each of its readings before any character
that ends a reading. -/
structure Delimited (tags : TagNumbers) (unit : LexicalUnit) : Prop where
  blank : ∀ behind, Input.readBlank (Input.ofText unit.blank ++ .char Input.unitOpen :: behind)
    = .ok unit.blank (.char Input.unitOpen :: behind)
  source : ∀ source ∈ unit.source, source.Delimited tags
  targets : ∀ target ∈ unit.targets, target.Delimited tags

lemma readTargets_nil : readTargets tags [] = .ok [] [] := by rw [readTargets]

/-- All targets but the last stand before another one, and the last one before what is left. -/
lemma delimited_of_readTargets (h : readTargets tags input = .ok targets rest) (hne : rest ≠ []) :
    ∀ target ∈ targets, target.Delimited tags := by
  fun_induction readTargets tags input generalizing targets with
  | case1 => cases h
  | case2 input target rest' htarget _ ih =>
      obtain ⟨targets, htargets, rfl⟩ := Input.map_eq_ok.1 h
      refine List.forall_mem_cons.2 ⟨Reading.delimited_of_read htarget ?_, ih htargets⟩
      rintro rfl
      cases readTargets_nil.symm.trans htargets
      exact hne rfl
  | case3 => cases h; simp
  | case4 => cases h
  | case5 => cases h; simp

/-- **What was closed says by itself where it ends.** -/
lemma delimited_of_read (h : read tags input = .ok unit rest) (hopen : unit.isEnd = false)
    (hclosed : ¬CutOff tags input) : unit.Delimited tags := by
  obtain ⟨behind, source, rest₁, rest₂, hunit, hblank, hsource, htargets, -⟩ := read_eq_ok h hopen
  have hne₂ : rest₂ ≠ [] := fun hnil =>
    hclosed ((cutOff_iff hblank hsource htargets).2 (Or.inl hnil))
  have hne₁ : rest₁ ≠ [] := by
    rintro rfl
    exact hne₂ (EStateM.Result.ok.inj (readTargets_nil.symm.trans htargets)).2.symm
  refine ⟨fun more => ?_, fun other hother => ?_, delimited_of_readTargets htargets hne₂⟩
  · exact Input.readBlank_again hblank (Or.inr ⟨_, more, rfl, Or.inl rfl⟩) (by simp)
  · obtain rfl : source = other := by simpa [hunit] using hother
    exact Reading.delimited_of_read hsource hne₁

/-- With other targets in their place such a unit is such a unit still. -/
lemma Delimited.withTargets (h : unit.Delimited tags)
    (htargets : ∀ target ∈ targets, target.Delimited tags) :
    Delimited tags { unit with targets } :=
  ⟨h.blank, h.source, htargets⟩

/-- Behind a reading of a closed unit there is the next one, or the unit is closed. -/
lemma exists_endsReading (targets : List Reading) (behind : Input) :
    ∃ c more, Input.ofText (targetsSpelling targets) ++ .char Input.unitClose :: behind
      = .char c :: more ∧ Reading.endsReading c = true := by
  cases targets with
  | nil => exact ⟨Input.unitClose, behind, rfl, by decide⟩
  | cons target targets => exact ⟨Input.readingSeparator, _, rfl, by decide⟩

/-- The target readings are read from their spelling, before the character that closes a unit. -/
lemma readTargets_spelling (h : ∀ target ∈ targets, target.Delimited tags) (behind : Input) :
    readTargets tags (.ofText (targetsSpelling targets) ++ .char Input.unitClose :: behind)
      = .ok targets (.char Input.unitClose :: behind) := by
  induction targets with
  | nil =>
      rw [targetsSpelling, List.flatMap_nil, Input.ofText_nil, List.nil_append, readTargets]
      exact if_neg (by decide)
  | cons target targets ih =>
      obtain ⟨htarget, hothers⟩ := List.forall_mem_cons.1 h
      have hbehind := ih hothers
      obtain ⟨c, more, hmore, hc⟩ := exists_endsReading targets behind
      rw [hmore] at hbehind
      have hread := htarget c more hc
      rw [show targetsSpelling (target :: targets)
          = Input.readingSeparator :: (target.form ++ targetsSpelling targets) from rfl,
        Input.ofText_cons, Input.ofText_append, List.cons_append, List.append_assoc, hmore,
        readTargets]
      simp only [if_true]
      split
      · rename_i hfound
        cases hread.symm.trans hfound
      · rename_i hfound
        cases hread.symm.trans hfound
        rw [hbehind]
        rfl

/-- **Such a unit is read from its spelling**, whatever comes behind. -/
lemma Delimited.read_spelling (h : unit.Delimited tags) (hopen : unit.isEnd = false)
    (behind : Input) : read tags (.ofText (unit.spelling true) ++ behind) = .ok unit behind := by
  obtain ⟨source, hsource⟩ := exists_source hopen
  have htargets := readTargets_spelling h.targets behind
  obtain ⟨c, more, hmore, hc⟩ := exists_endsReading unit.targets behind
  rw [hmore] at htargets
  have hread := h.source source hsource c more hc
  have hreadings : readReadings tags (.ofText source.form ++ .char c :: more)
      = .ok (source, unit.targets) behind := by
    simp [readReadings, bind, EStateM.bind, hread, htargets, readClose, pure, EStateM.pure]
  have hinput : Input.ofText (unit.spelling true) ++ behind
      = Input.ofText unit.blank
        ++ .char Input.unitOpen :: (Input.ofText source.form ++ .char c :: more) := by
    rw [← hmore, spelling, hsource]
    simp [Input.ofText_append]
  rw [hinput, read, h.blank]
  dsimp only
  rw [if_pos rfl, hreadings, Found.map, ← hsource]

/-- **What is written is read as it was chosen.**  A unit that has been read, and was closed, is
written with one of its targets, alone or before the others, or in place of the source reading.
From the written text, whatever comes behind it, the same unit with these readings is read, and
nothing more is taken. -/
theorem read_of_write {index : Nat} (hread : read tags input = .ok unit rest)
    (hclosed : ¬CutOff tags input) (htarget : unit.targets[index]? = some target) (behind : Input) :
    read tags (.ofText (unit.write index false true) ++ behind)
        = .ok { unit with targets := [target] } behind ∧
      read tags (.ofText (unit.write index true true) ++ behind)
        = .ok { unit with targets := target :: unit.targets.eraseIdx index } behind ∧
      read tags (.ofText (unit.write index false false) ++ behind)
        = .ok { unit with source := some target, targets := [] } behind := by
  have hmem : target ∈ unit.targets := List.mem_of_getElem? htarget
  have hopen : unit.isEnd = false := by
    cases hend : unit.isEnd with
    | false => rfl
    | true => simp [targets_of_read hread hend] at hmem
  have hunit := delimited_of_read hread hopen hclosed
  have hchosen : target.Delimited tags := hunit.targets target hmem
  refine ⟨?_, ?_, ?_⟩
  · have hwritten := hunit.withTargets (List.forall_mem_singleton.2 hchosen)
    rw [write_withSurface, htarget]
    exact hwritten.read_spelling hopen behind
  · have hothers : ∀ other ∈ unit.targets.eraseIdx index, other.Delimited tags :=
      fun other hother =>
      hunit.targets other (List.mem_of_mem_eraseIdx hother)
    have hwritten := hunit.withTargets (List.forall_mem_cons.2 ⟨hchosen, hothers⟩)
    rw [write_withSurface, htarget]
    exact hwritten.read_spelling hopen behind
  · have hwritten : Delimited tags { unit with source := some target, targets := [] } :=
      ⟨hunit.blank, by simpa using hchosen, by simp⟩
    rw [write_withoutSurface hopen htarget]
    exact hwritten.read_spelling rfl behind

/-- The second of two targets is chosen, in front of a text that could go on with it. -/
theorem read_of_write_second :
    let tags : TagNumbers := fun _ => none
    let source : Reading := ⟨[.plain 'a', .escaped '$'], []⟩
    let first : Reading := ⟨[.tag "<n\\>>".toList none], []⟩
    let second : Reading := ⟨[.plain 'c', .escaped '\\'], []⟩
    let unit : LexicalUnit := ⟨"[^] ".toList, some source, [first, second]⟩
    read tags (.ofText "[^] ^a\\$/<n\\>>/c\\\\$ x".toList) = .ok unit (.ofText " x".toList) ∧
      read tags (.ofText (unit.write 1 false true) ++ .ofText "/d$".toList)
        = .ok { unit with targets := [second] } (.ofText "/d$".toList) ∧
      read tags (.ofText (unit.write 1 true true) ++ .ofText "/d$".toList)
        = .ok { unit with targets := [second, first] } (.ofText "/d$".toList) ∧
      read tags (.ofText (unit.write 1 false false) ++ .ofText "/d$".toList)
        = .ok { unit with source := some second, targets := [] } (.ofText "/d$".toList) := by
  intro tags source first second unit
  have hread : read tags (.ofText "[^] ^a\\$/<n\\>>/c\\\\$ x".toList)
      = .ok unit (.ofText " x".toList) := by decide +kernel
  have hclosed : ¬CutOff tags (.ofText "[^] ^a\\$/<n\\>>/c\\\\$ x".toList) := fun hcut =>
    (spelling_of_open hread rfl).elim (fun h => absurd h.2.1 (by decide +kernel)) (·.1 hcut)
  exact ⟨hread, read_of_write hread hclosed rfl (.ofText "/d$".toList)⟩

end LexicalUnit

end LexicalSelection
