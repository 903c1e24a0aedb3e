import LexicalSelection.Model.Basic
import LexicalSelection.Proofs.LexicalUnit.Spelling

/-!
# Reading looks at one item more at most

A reading step that leaves something of its input has looked at the first item that it leaves, and
at nothing behind that.  With other items there it finds the same value, and leaves those.

* `Input.Local` — a step that looks at one item more than it takes at most.
* `Local.map`, `Local.bind` — steps that are made of such steps.
* **`Model.local_readUnit`** — so it is with reading a unit.
-/

namespace LexicalSelection

namespace Input

variable {α β : Type} {close : Char}

/-- The step looks at one item more than it takes at most.  When it leaves something, it finds the
same with other items behind the first one that it leaves. -/
def Local (reader : Input → Found α) : Prop :=
  ∀ ⦃input kept behind : Input⦄ ⦃item : Item⦄ ⦃value : α⦄,
    reader input = .ok value (kept ++ item :: behind) →
      ∃ front, input = front ++ item :: behind ∧
        ∀ behind', reader (front ++ item :: behind') = .ok value (kept ++ item :: behind')

lemma Local.map {reader : Input → Found α} (h : Local reader) (f : α → β) :
    Local fun input => (reader input).map f := by
  intro input kept behind item value hfound
  obtain ⟨value, hvalue, rfl⟩ := map_eq_ok.1 hfound
  obtain ⟨front, hinput, hfront⟩ := h hvalue
  exact ⟨front, hinput, fun behind' => map_eq_ok.2 ⟨value, hfront behind', rfl⟩⟩

/-- Two such steps in a row are such a step again. -/
lemma Local.bind {reader : Reader α} {next : α → Reader β} (h : Local reader)
    (hnext : ∀ value, Local (next value)) : Local (reader >>= next) := by
  intro input kept behind item value hfound
  simp only [Bind.bind, EStateM.bind] at hfound
  split at hfound
  · rename_i first rest hfirst
    obtain ⟨middle, rfl, hmiddle⟩ := hnext first hfound
    obtain ⟨front, rfl, hfront⟩ := h hfirst
    refine ⟨front, rfl, fun behind' => ?_⟩
    simp only [Bind.bind, EStateM.bind, hfront, hmiddle]
  · cases hfound

lemma Local.pure (value : α) : Local (Pure.pure value : Reader α) := by
  intro input kept behind item value' hfound
  cases hfound
  exact ⟨kept, rfl, fun _ => rfl⟩

/-- At a character that makes the step take nothing, it does so whatever is behind. -/
lemma exists_front_of_untouched {reader : Input → Found α} {c : Char}
    {input kept behind : Input} {item : Item} {value value' : α}
    (huntouched : ∀ behind, reader (.char c :: behind) = .ok value (.char c :: behind))
    (h : (.ok value (.char c :: input) : Found α) = .ok value' (kept ++ item :: behind)) :
    ∃ front, .char c :: input = front ++ item :: behind ∧
      ∀ behind', reader (front ++ item :: behind') = .ok value' (kept ++ item :: behind') := by
  obtain ⟨rfl, hkept⟩ := EStateM.Result.ok.inj h
  refine ⟨kept, hkept, fun behind' => ?_⟩
  cases kept with
  | nil =>
      obtain ⟨rfl, -⟩ := List.cons.inj hkept
      exact huntouched _
  | cons first kept =>
      obtain ⟨rfl, -⟩ := List.cons.inj hkept
      exact huntouched _

/-- Copying looks no further than the closing character. -/
lemma local_copyThrough (close : Char) : Local (copyThrough close) := by
  intro input kept behind item text h
  fun_induction copyThrough close input generalizing text with
  | case1 => simp at h
  | case2 => cases h
  | case3 => simp at h
  | case4 => cases h
  | case5 d input ih =>
      obtain ⟨text, htext, rfl⟩ := map_eq_ok.1 h
      obtain ⟨front, rfl, hfront⟩ := ih htext
      exact ⟨.char escape :: .char d :: front, rfl,
        fun _ => by simp [copyThrough, hfront, Found.map]⟩
  | case6 input hescape =>
      cases h
      exact ⟨.char close :: kept, rfl, fun _ => by simp [copyThrough.eq_def, hescape]⟩
  | case7 c input hescape hclose ih =>
      obtain ⟨text, htext, rfl⟩ := map_eq_ok.1 h
      obtain ⟨front, rfl, hfront⟩ := ih htext
      refine ⟨.char c :: front, rfl, fun _ => ?_⟩
      rw [List.cons_append, copyThrough.eq_def]
      simp [hescape, hclose, hfront, Found.map]

lemma local_readTag : Local readTag := (local_copyThrough '>').map _

/-- Reading a blank looks at the character that ends it. -/
lemma local_readBlank : Local readBlank := by
  intro input kept behind item blank h
  fun_induction readBlank input generalizing blank with
  | case1 => simp at h
  | case2 => cases h
  | case3 c input hc =>
      refine exists_front_of_untouched (fun behind => ?_) h
      rw [readBlank.eq_def]
      simp [hc]
  | case4 => simp at h
  | case5 => cases h
  | case6 d input hc ih =>
      obtain ⟨blank, hblank, rfl⟩ := map_eq_ok.1 h
      obtain ⟨front, rfl, hfront⟩ := ih hblank
      exact ⟨.char escape :: .char d :: front, rfl,
        fun _ => by simp [readBlank, hfront, Found.map, hc]⟩
  | case7 => cases h
  | case8 input stretch rest' hstretch _ hc hescape ih =>
      obtain ⟨blank, hblank, rfl⟩ := map_eq_ok.1 h
      obtain ⟨middle, rfl, hmiddle⟩ := ih hblank
      obtain ⟨front, rfl, hfront⟩ := local_copyThrough _ hstretch
      refine ⟨.char '[' :: front, rfl, fun behind' => ?_⟩
      have hstretch := hfront behind'
      rw [List.cons_append, readBlank.eq_def]
      simp only [hc, hescape, if_false, if_true]
      split
      · rename_i hfound
        cases hstretch.symm.trans hfound
      · rename_i hfound
        cases hstretch.symm.trans hfound
        rw [hmiddle, Found.map]
  | case9 c input hc hescape hbracket ih =>
      obtain ⟨blank, hblank, rfl⟩ := map_eq_ok.1 h
      obtain ⟨front, rfl, hfront⟩ := ih hblank
      refine ⟨.char c :: front, rfl, fun _ => ?_⟩
      rw [List.cons_append, readBlank.eq_def]
      simp [hc, hescape, hbracket, hfront, Found.map]

end Input

namespace Reading

open Input (Local)

/-- Reading pieces looks at the character that ends the reading. -/
lemma local_readPieces (tags : TagNumbers) : Local (readPieces tags) := by
  intro input kept behind item pieces h
  fun_induction readPieces tags input generalizing pieces with
  | case1 => simp at h
  | case2 => cases h
  | case3 c input hc =>
      refine Input.exists_front_of_untouched (fun behind => ?_) h
      rw [readPieces.eq_def]
      simp [hc]
  | case4 => simp at h
  | case5 => cases h
  | case6 d input hc ih =>
      obtain ⟨pieces, hpieces, rfl⟩ := Input.map_eq_ok.1 h
      obtain ⟨front, rfl, hfront⟩ := ih hpieces
      exact ⟨.char Input.escape :: .char d :: front, rfl, fun _ => by
        simp [readPieces, hfront, Found.map, hc]⟩
  | case7 => cases h
  | case8 input tag rest' htag _ hc hescape ih =>
      obtain ⟨pieces, hpieces, rfl⟩ := Input.map_eq_ok.1 h
      obtain ⟨middle, rfl, hmiddle⟩ := ih hpieces
      obtain ⟨front, rfl, hfront⟩ := Input.local_readTag htag
      refine ⟨.char '<' :: front, rfl, fun behind' => ?_⟩
      have htag := hfront behind'
      rw [List.cons_append, readPieces.eq_def]
      simp only [hc, hescape, Bool.false_eq_true, if_false, if_true]
      split
      · rename_i hfound
        cases htag.symm.trans hfound
      · rename_i hfound
        cases htag.symm.trans hfound
        rw [hmiddle, Found.map]
  | case9 c input hc hescape hbracket ih =>
      obtain ⟨pieces, hpieces, rfl⟩ := Input.map_eq_ok.1 h
      obtain ⟨front, rfl, hfront⟩ := ih hpieces
      refine ⟨.char c :: front, rfl, fun _ => ?_⟩
      rw [List.cons_append, readPieces.eq_def]
      simp [hc, hescape, hbracket, hfront, Found.map]

lemma local_read (tags : TagNumbers) : Local (read tags) :=
  (local_readPieces tags).map _

end Reading

namespace LexicalUnit

open Input (Local)

/-- Reading targets looks at the character that ends the last one. -/
lemma local_readTargets (tags : TagNumbers) : Local (readTargets tags) := by
  intro input kept behind item targets h
  fun_induction readTargets tags input generalizing targets with
  | case1 => cases h
  | case2 input target rest' htarget _ ih =>
      obtain ⟨targets, htargets, rfl⟩ := Input.map_eq_ok.1 h
      obtain ⟨middle, rfl, hmiddle⟩ := ih htargets
      obtain ⟨front, rfl, hfront⟩ := Reading.local_read tags htarget
      refine ⟨.char Input.readingSeparator :: front, rfl, fun behind' => ?_⟩
      have htarget := hfront behind'
      rw [List.cons_append, readTargets.eq_def]
      simp only [if_true]
      split
      · rename_i hfound
        cases htarget.symm.trans hfound
      · rename_i hfound
        cases htarget.symm.trans hfound
        rw [hmiddle, Found.map]
  | case3 c input hc =>
      refine Input.exists_front_of_untouched (fun behind => ?_) h
      rw [readTargets.eq_def]
      simp [hc]
  | case4 => cases h
  | case5 => simp at h

/-- Closing a unit looks at one character. -/
lemma local_readClose : Local readClose := by
  intro input kept behind item _ h
  cases input with
  | nil => simp [readClose] at h
  | cons first input =>
      cases first with
      | broken n => cases h
      | char c =>
          by_cases hclose : c = Input.unitClose
          · obtain rfl : input = kept ++ item :: behind := by simpa [readClose, hclose] using h
            exact ⟨.char c :: kept, rfl, fun _ => by simp [readClose, hclose]⟩
          · have hopen : ∀ behind, readClose (.char c :: behind) = .ok () (.char c :: behind) :=
              fun behind => by simp [readClose, hclose]
            exact Input.exists_front_of_untouched hopen ((hopen input).symm.trans h)

lemma local_readReadings (tags : TagNumbers) : Local (readReadings tags) :=
  (Reading.local_read tags).bind fun _ => (local_readTargets tags).bind fun _ =>
    local_readClose.bind fun _ => .pure _

lemma local_read (tags : TagNumbers) : Local (read tags) := by
  intro input kept behind item unit h
  unfold read at h
  split at h
  · cases h
  · simp at h
  · cases h
  · rename_i blank c rest hblank
    split at h
    · rename_i hopen
      obtain ⟨readings, hreadings, rfl⟩ := Input.map_eq_ok.1 h
      obtain ⟨middle, rfl, hmiddle⟩ := local_readReadings tags hreadings
      rw [← List.cons_append] at hblank
      obtain ⟨front, rfl, hfront⟩ := Input.local_readBlank hblank
      exact ⟨front, rfl, fun behind' => by simp [read, hfront, hmiddle, hopen, Found.map]⟩
    · rename_i hopen
      obtain ⟨rfl, hkept⟩ := EStateM.Result.ok.inj h
      rw [hkept] at hblank
      obtain ⟨front, rfl, hfront⟩ := Input.local_readBlank hblank
      refine ⟨front, rfl, fun behind' => ?_⟩
      rw [read, hfront]
      cases kept with
      | nil =>
          obtain ⟨rfl, -⟩ := List.cons.inj hkept
          exact if_neg hopen
      | cons first kept =>
          obtain ⟨rfl, -⟩ := List.cons.inj hkept
          exact if_neg hopen

end LexicalUnit

/-- Reading a unit looks at one character more than it takes, at most. -/
lemma Model.local_readUnit {α : Type} (model : Model α) : Input.Local model.readUnit :=
  (LexicalUnit.local_read _).map _

end LexicalSelection
