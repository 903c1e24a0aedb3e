import LexicalSelection.Order.Ascending
import Mathlib.Algebra.Ring.Nat
import Mathlib.Data.List.Sort

/-!
# Facts on ascending lists

What the operations on ascending lists do, said by membership and by order.

* `Strict` — strictly ascending, the order that every set is kept in.
* **`mem_ofList`**, **`strict_ofList`** — a list as a set has the same members, in ascending order.
* `mem_ofList_of_distinct` — so has one whose members do not compare equal, whatever else does.
* **`eq_of_mem_iff`** — sets with the same members are the same list.
* **`mem_alter`**, `strictKeys_alter` — an altered map holds one new entry beside the old ones.
* `alter_comm` — what two keys hold can be changed in any order.

Membership in one direction needs no law of the order at all (`mem_of_mem_ofList`,
`ofList_ne_nil`): whatever the comparison answers, nothing is made up and something is kept.
-/

namespace LexicalSelection.Ascending

variable {α κ β : Type} [Ord α] [Ord κ]

/-- Strictly ascending. -/
def Strict (set : List α) : Prop := set.Pairwise fun x y => compare x y = .lt

/-- Strictly ascending keys. -/
def StrictKeys (map : List (κ × β)) : Prop := map.Pairwise fun x y => compare x.1 y.1 = .lt

/-! ## Members, whatever the order -/

/-- Inserting brings in nothing else. -/
lemma mem_of_mem_insert {x z : α} {set : List α} (h : z ∈ insert x set) : z = x ∨ z ∈ set := by
  induction set with
  | nil => simpa [insert] using h
  | cons y ys ih =>
      simp only [insert] at h
      split at h
      · simpa using h
      · exact Or.inr h
      · rcases List.mem_cons.1 h with rfl | h
        · simp
        · rcases ih h with rfl | h
          · simp
          · simp [h]

/-- Merging behind a first member brings in nothing else, if the merge of the others does not. -/
lemma mem_of_mem_unionFrom {x z : α} {join : List α → List α} {set : List α}
    {xs : List α} (hjoin : ∀ ys, z ∈ join ys → z ∈ xs ∨ z ∈ ys)
    (h : z ∈ unionFrom x join set) : z ∈ x :: xs ∨ z ∈ set := by
  induction set with
  | nil =>
      rcases List.mem_cons.1 h with rfl | h
      · simp
      · exact (hjoin [] h).imp (List.mem_cons_of_mem _) id
  | cons y ys ih =>
      simp only [unionFrom] at h
      split at h
      · rcases List.mem_cons.1 h with rfl | h
        · simp
        · exact (hjoin _ h).imp (List.mem_cons_of_mem _) id
      · rcases List.mem_cons.1 h with rfl | h
        · simp
        · exact (hjoin _ h).imp (List.mem_cons_of_mem _) (List.mem_cons_of_mem _)
      · rcases List.mem_cons.1 h with rfl | h
        · simp
        · exact (ih h).imp id (List.mem_cons_of_mem _)

/-- A union has no members but those of its two sets. -/
lemma mem_of_mem_union {z : α} {xs ys : List α} (h : z ∈ union xs ys) : z ∈ xs ∨ z ∈ ys := by
  induction xs generalizing ys with
  | nil => exact Or.inr h
  | cons x xs ih => exact mem_of_mem_unionFrom (fun _ => ih) h

/-- Joining sets in pairs brings in nothing that was in none of them. -/
lemma mem_of_mem_unionPairs {z : α} {set : List α} {sets : List (List α)}
    (hset : set ∈ unionPairs sets) (hz : z ∈ set) : ∃ s ∈ sets, z ∈ s := by
  fun_induction unionPairs sets with
  | case1 first second rest ih =>
      rcases List.mem_cons.1 hset with rfl | hset
      · rcases mem_of_mem_union hz with hz | hz
        · exact ⟨first, by simp, hz⟩
        · exact ⟨second, by simp, hz⟩
      · obtain ⟨s, hs, hz⟩ := ih hset
        exact ⟨s, by simp [hs], hz⟩
  | case2 => exact ⟨set, hset, hz⟩

/-- However many rounds of joining are made, all members come from the sets. -/
lemma mem_of_mem_unionAll {z : α} {rounds : Nat} {sets : List (List α)}
    (h : z ∈ unionAll rounds sets) : ∃ s ∈ sets, z ∈ s := by
  induction rounds generalizing sets with
  | zero => simpa [unionAll] using h
  | succ rounds ih =>
      obtain ⟨set, hset, hz⟩ := ih h
      exact mem_of_mem_unionPairs hset hz

/-- A list as a set has no members of its own making. -/
lemma mem_of_mem_ofList {z : α} {xs : List α} (h : z ∈ ofList xs) : z ∈ xs := by
  obtain ⟨s, hs, hz⟩ := mem_of_mem_unionAll h
  obtain ⟨x, hx, rfl⟩ := List.mem_map.1 hs
  obtain rfl := List.mem_singleton.1 hz
  exact hx

lemma unionFrom_ne_nil (x : α) (join : List α → List α) (set : List α) :
    unionFrom x join set ≠ [] := by
  cases set with
  | nil => simp [unionFrom]
  | cons y ys =>
      simp only [unionFrom]
      split <;> simp

lemma union_ne_nil {xs ys : List α} (h : xs ≠ [] ∨ ys ≠ []) : union xs ys ≠ [] := by
  cases xs with
  | nil => simpa [union] using h
  | cons x xs => exact unionFrom_ne_nil x (union xs) ys

/-- No empty set comes of joining sets in pairs when none was empty. -/
lemma unionPairs_ne_nil {sets : List (List α)} (h : ∀ s ∈ sets, s ≠ []) :
    ∀ s ∈ unionPairs sets, s ≠ [] := by
  fun_induction unionPairs sets with
  | case1 first second rest ih =>
      intro s hs
      rcases List.mem_cons.1 hs with rfl | hs
      · exact union_ne_nil (Or.inl (h first (by simp)))
      · exact ih (fun s hs => h s (by simp [hs])) s hs
  | case2 => exact h

lemma unionPairs_eq_nil {sets : List (List α)} : unionPairs sets = [] ↔ sets = [] := by
  fun_induction unionPairs sets <;> simp

/-- The union of sets is not empty when there are sets and none is empty. -/
lemma unionAll_ne_nil {rounds : Nat} {sets : List (List α)} (hne : sets ≠ [])
    (h : ∀ s ∈ sets, s ≠ []) : unionAll rounds sets ≠ [] := by
  induction rounds generalizing sets with
  | zero =>
      obtain ⟨s, rest, rfl⟩ := List.exists_cons_of_ne_nil hne
      simp [unionAll, h s (by simp)]
  | succ rounds ih => exact ih (mt unionPairs_eq_nil.1 hne) (unionPairs_ne_nil h)

/-- A list with members gives a set with members. -/
lemma ofList_ne_nil {xs : List α} (h : xs ≠ []) : ofList xs ≠ [] := by
  refine unionAll_ne_nil (by simpa using h) ?_
  intro s hs
  obtain ⟨x, -, rfl⟩ := List.mem_map.1 hs
  simp

/-! ## Members, when things that compare equal are equal -/

section Lawful

variable [Std.LawfulEqOrd α]

@[simp] lemma mem_insert {x z : α} {set : List α} : z ∈ insert x set ↔ z = x ∨ z ∈ set := by
  refine ⟨mem_of_mem_insert, ?_⟩
  induction set with
  | nil => simp [insert]
  | cons y ys ih =>
      simp only [insert]
      split
      · simp
      · rename_i heq
        obtain rfl := Std.LawfulEqOrd.eq_of_compare heq
        simp
      · simp only [List.mem_cons]
        rintro (h | h | h)
        · exact Or.inr (ih (Or.inl h))
        · exact Or.inl h
        · exact Or.inr (ih (Or.inr h))

/-- Merging behind a first member keeps it, all that the other merge keeps, and nothing else. -/
lemma mem_unionFrom {x z : α} {join : List α → List α} {set xs : List α}
    (hjoin : ∀ ys, z ∈ join ys ↔ z ∈ xs ∨ z ∈ ys) :
    z ∈ unionFrom x join set ↔ z ∈ x :: xs ∨ z ∈ set := by
  refine ⟨mem_of_mem_unionFrom fun ys => (hjoin ys).1, ?_⟩
  induction set with
  | nil => simp [unionFrom, hjoin]
  | cons y ys ih =>
      simp only [unionFrom]
      split
      · simp only [List.mem_cons, hjoin]
        tauto
      · rename_i heq
        obtain rfl := Std.LawfulEqOrd.eq_of_compare heq
        simp only [List.mem_cons, hjoin]
        tauto
      · simp only [List.mem_cons] at ih ⊢
        tauto

@[simp] lemma mem_union {z : α} {xs ys : List α} : z ∈ union xs ys ↔ z ∈ xs ∨ z ∈ ys := by
  induction xs generalizing ys with
  | nil => simp [union]
  | cons x xs ih => exact mem_unionFrom fun _ => ih

/-- Joining sets in pairs loses no member. -/
lemma exists_mem_unionPairs {z : α} {sets : List (List α)} :
    (∃ s ∈ unionPairs sets, z ∈ s) ↔ ∃ s ∈ sets, z ∈ s := by
  fun_induction unionPairs sets with
  | case1 first second rest ih =>
      simp only [List.exists_mem_cons_iff, mem_union, ih, or_assoc]
  | case2 => rfl

/-- The members of the union of all sets are those of the sets. -/
lemma mem_unionAll {z : α} {rounds : Nat} {sets : List (List α)} :
    z ∈ unionAll rounds sets ↔ ∃ s ∈ sets, z ∈ s := by
  induction rounds generalizing sets with
  | zero => simp [unionAll]
  | succ rounds ih => rw [unionAll, ih, exists_mem_unionPairs]

/-- **A list as a set has the members of the list.** -/
@[simp] lemma mem_ofList {z : α} {xs : List α} : z ∈ ofList xs ↔ z ∈ xs := by
  simp [ofList, mem_unionAll]

end Lawful

/-! ## Members, when different things may compare equal -/

section Covered

variable [Std.TransOrd α] {z : α}

/-- Something in the list compares equal. -/
def Covers (xs : List α) (z : α) : Prop := ∃ x ∈ xs, compare z x = .eq

omit [Std.TransOrd α] in
lemma covers_cons {x : α} {xs : List α} : Covers (x :: xs) z ↔ compare z x = .eq ∨ Covers xs z :=
  List.exists_mem_cons_iff _ _ _

/-- Merging behind a first member covers what one of the two sides covers. -/
lemma covers_unionFrom {x : α} {join : List α → List α} {set xs : List α}
    (hjoin : ∀ ys, Covers xs z ∨ Covers ys z → Covers (join ys) z)
    (h : Covers (x :: xs) z ∨ Covers set z) : Covers (unionFrom x join set) z := by
  rw [covers_cons] at h
  induction set with
  | nil =>
      rw [unionFrom, covers_cons]
      exact h.elim (Or.imp_right fun h => hjoin [] (Or.inl h)) (Or.inr ∘ hjoin [] ∘ Or.inr)
  | cons y ys ih =>
      rw [covers_cons] at h
      rw [unionFrom]
      split
      · rw [covers_cons]
        rcases h with (h | h) | h
        · exact Or.inl h
        · exact Or.inr (hjoin _ (Or.inl h))
        · exact Or.inr (hjoin _ (Or.inr (covers_cons.2 h)))
      · rename_i heq
        rw [covers_cons]
        rcases h with (h | h) | h | h
        · exact Or.inl h
        · exact Or.inr (hjoin _ (Or.inl h))
        · -- What compares equal to `y` compares equal to `x`, which stays.
          exact Or.inl (Std.TransCmp.eq_trans h (Std.OrientedCmp.eq_symm heq))
        · exact Or.inr (hjoin _ (Or.inr h))
      · rw [covers_cons]
        rcases h with h | h | h
        · exact Or.inr (ih (Or.inl h))
        · exact Or.inl h
        · exact Or.inr (ih (Or.inr h))

/-- A union covers what one of its sets covers, although it drops one of two equals. -/
lemma covers_union {xs ys : List α} (h : Covers xs z ∨ Covers ys z) : Covers (union xs ys) z := by
  induction xs generalizing ys with
  | nil => exact h.resolve_left fun ⟨_, hx, _⟩ => absurd hx List.not_mem_nil
  | cons x xs ih => exact covers_unionFrom (fun _ => ih) h

/-- What is covered stays covered when sets are joined in pairs. -/
lemma exists_covers_unionPairs {sets : List (List α)} (h : ∃ s ∈ sets, Covers s z) :
    ∃ s ∈ unionPairs sets, Covers s z := by
  fun_induction unionPairs sets with
  | case1 first second rest ih =>
      simp only [List.exists_mem_cons_iff] at h ⊢
      rcases h with h | h | h
      · exact Or.inl (covers_union (Or.inl h))
      · exact Or.inl (covers_union (Or.inr h))
      · exact Or.inr (ih h)
  | case2 => exact h

/-- The union of all sets covers what one of them covers. -/
lemma covers_unionAll {rounds : Nat} {sets : List (List α)} (h : ∃ s ∈ sets, Covers s z) :
    Covers (unionAll rounds sets) z := by
  induction rounds generalizing sets with
  | zero =>
      obtain ⟨s, hs, x, hx, heq⟩ := h
      exact ⟨x, List.mem_flatten_of_mem hs hx, heq⟩
  | succ rounds ih => exact ih (exists_covers_unionPairs h)

/-- The members of a list are those of its set, if no two of them compare equal. -/
lemma mem_ofList_of_distinct {xs : List α}
    (h : ∀ x ∈ xs, ∀ y ∈ xs, compare x y = .eq → x = y) : z ∈ ofList xs ↔ z ∈ xs := by
  refine ⟨mem_of_mem_ofList, fun hz => ?_⟩
  have hcovers : Covers (ofList xs) z :=
    covers_unionAll
      ⟨[z], List.mem_map_of_mem hz, z, List.mem_singleton_self z, Std.ReflCmp.compare_self⟩
  obtain ⟨x, hx, heq⟩ := hcovers
  rwa [h z hz x (mem_of_mem_ofList hx) heq]

end Covered

/-! ## Order -/

section Ordered

variable [Std.TransOrd α]

/-- A set stays in strict order when something is inserted. -/
lemma strict_insert {x : α} {set : List α} (h : Strict set) : Strict (insert x set) := by
  induction set with
  | nil => simp [insert, Strict]
  | cons y ys ih =>
      obtain ⟨hy, hys⟩ := List.pairwise_cons.1 h
      simp only [insert]
      split
      · rename_i hlt
        refine List.Pairwise.cons ?_ h
        rintro z hz
        rcases List.mem_cons.1 hz with rfl | hz
        · exact hlt
        · exact Std.TransCmp.lt_trans hlt (hy z hz)
      · exact h
      · rename_i hgt
        refine List.Pairwise.cons ?_ (ih hys)
        intro z hz
        rcases mem_of_mem_insert hz with rfl | hz
        · exact Std.OrientedCmp.lt_of_gt hgt
        · exact hy z hz

/-- Merging behind a first member keeps strict order, since that member is below the others of its
side. -/
lemma strict_unionFrom {x : α} {join : List α → List α} {set xs : List α}
    (hmem : ∀ ys, ∀ z ∈ join ys, z ∈ xs ∨ z ∈ ys) (hjoin : ∀ ys, Strict ys → Strict (join ys))
    (hx : ∀ z ∈ xs, compare x z = .lt) (h : Strict set) : Strict (unionFrom x join set) := by
  induction set with
  | nil =>
      refine List.Pairwise.cons (fun z hz => ?_) (hjoin [] List.Pairwise.nil)
      exact (hmem [] z hz).elim (hx z) (by simp)
  | cons y ys ih =>
      obtain ⟨hy, hys⟩ := List.pairwise_cons.1 h
      simp only [unionFrom]
      split
      · rename_i hlt
        refine List.Pairwise.cons (fun z hz => ?_) (hjoin _ h)
        rcases hmem _ z hz with hz | hz
        · exact hx z hz
        · rcases List.mem_cons.1 hz with rfl | hz
          · exact hlt
          · exact Std.TransCmp.lt_trans hlt (hy z hz)
      · rename_i heq
        refine List.Pairwise.cons (fun z hz => ?_) (hjoin _ hys)
        rcases hmem _ z hz with hz | hz
        · exact hx z hz
        · exact Std.TransCmp.lt_of_eq_of_lt heq (hy z hz)
      · rename_i hgt
        have hyx : compare y x = .lt := Std.OrientedCmp.lt_of_gt hgt
        refine List.Pairwise.cons (fun z hz => ?_) (ih hys)
        rcases mem_of_mem_unionFrom (hmem · z) hz with hz | hz
        · rcases List.mem_cons.1 hz with rfl | hz
          · exact hyx
          · exact Std.TransCmp.lt_trans hyx (hx z hz)
        · exact hy z hz

/-- The union of two sets in strict order is in strict order. -/
lemma strict_union {xs ys : List α} (hxs : Strict xs) (hys : Strict ys) :
    Strict (union xs ys) := by
  induction xs generalizing ys with
  | nil => exact hys
  | cons x xs ih =>
      obtain ⟨hx, hxs⟩ := List.pairwise_cons.1 hxs
      exact strict_unionFrom (fun _ _ => mem_of_mem_union) (fun _ => ih hxs) hx hys

/-- Sets in strict order are joined in pairs to sets in strict order. -/
lemma strict_unionPairs {sets : List (List α)} (h : ∀ s ∈ sets, Strict s) :
    ∀ s ∈ unionPairs sets, Strict s := by
  fun_induction unionPairs sets with
  | case1 first second rest ih =>
      intro s hs
      rcases List.mem_cons.1 hs with rfl | hs
      · exact strict_union (h first (by simp)) (h second (by simp))
      · exact ih (fun s hs => h s (by simp [hs])) s hs
  | case2 => exact h

omit [Std.TransOrd α] in
/-- A round halves the row, up to one set that has no partner. -/
lemma length_unionPairs (sets : List (List α)) :
    (unionPairs sets).length = (sets.length + 1) / 2 := by
  fun_induction unionPairs sets with
  | case1 first second rest ih => simp only [List.length_cons, ih]; omega
  | case2 sets h =>
      match sets, h with
      | [], _ => simp
      | [_], _ => simp
      | first :: second :: rest, h => exact absurd rfl (h first second rest)

/-- With enough rounds to halve the number of sets down to one, the union is in strict order. -/
lemma strict_unionAll {rounds : Nat} {sets : List (List α)} (h : ∀ s ∈ sets, Strict s)
    (hlen : sets.length ≤ 2 ^ rounds) : Strict (unionAll rounds sets) := by
  induction rounds generalizing sets with
  | zero =>
      match sets, hlen with
      | [], _ => exact List.Pairwise.nil
      | [s], _ => simpa [unionAll] using h s (by simp)
  | succ rounds ih =>
      refine ih (strict_unionPairs h) ?_
      rw [length_unionPairs]
      rw [Nat.pow_succ] at hlen
      omega

/-- **A list as a set is strictly ascending.**  The rounds suffice, since each halves the row. -/
lemma strict_ofList (xs : List α) : Strict (ofList xs) := by
  refine strict_unionAll ?_ ?_
  · intro s hs
    obtain ⟨x, -, rfl⟩ := List.mem_map.1 hs
    exact List.pairwise_singleton _ _
  · rw [List.length_map]
    exact Nat.lt_log2_self.le

/-- The first member of a set is the least. -/
lemma Strict.take_one {set : List α} {least : α} (h : Strict set) (hmem : least ∈ set)
    (hleast : ∀ x ∈ set, x ≠ least → compare least x = .lt) : set.take 1 = [least] := by
  obtain ⟨first, rest, rfl⟩ := List.exists_cons_of_ne_nil (List.ne_nil_of_mem hmem)
  rcases List.mem_cons.1 hmem with rfl | hrest
  · rfl
  · have hlt := (List.pairwise_cons.1 h).1 least hrest
    by_cases hfirst : first = least
    · simp [hfirst, Std.ReflCmp.compare_self] at hlt
    · exact absurd (hleast first List.mem_cons_self hfirst) (Std.OrientedCmp.not_lt_of_lt hlt)

lemma Strict.nodup {set : List α} (h : Strict set) : set.Nodup :=
  h.imp fun hlt heq => by simp [heq, Std.ReflCmp.compare_self] at hlt

/-- Lists that ascend by a key and have the same members are the same. -/
lemma eq_of_mem_iff_by {γ : Type} (key : γ → α) {xs ys : List γ}
    (hxs : xs.Pairwise fun x y => compare (key x) (key y) = .lt)
    (hys : ys.Pairwise fun x y => compare (key x) (key y) = .lt) (h : ∀ z, z ∈ xs ↔ z ∈ ys) :
    xs = ys := by
  have hnodup :
      ∀ {zs : List γ}, (zs.Pairwise fun x y => compare (key x) (key y) = .lt) → zs.Nodup :=
    fun hzs => hzs.imp fun hlt heq => by simp [heq, Std.ReflCmp.compare_self] at hlt
  refine List.Perm.eq_of_pairwise (fun a b _ _ hab hba => ?_) hxs hys
    ((List.perm_ext_iff_of_nodup (hnodup hxs) (hnodup hys)).2 h)
  exact absurd hba (Std.OrientedCmp.not_lt_of_lt hab)

/-- **Sets with the same members are the same list.** -/
lemma eq_of_mem_iff {xs ys : List α} (hxs : Strict xs) (hys : Strict ys)
    (h : ∀ z, z ∈ xs ↔ z ∈ ys) : xs = ys :=
  eq_of_mem_iff_by id hxs hys h

variable [Std.LawfulEqOrd α]

/-- Lists with the same members are the same set. -/
lemma ofList_congr {xs ys : List α} (h : ∀ z, z ∈ xs ↔ z ∈ ys) : ofList xs = ofList ys :=
  eq_of_mem_iff (strict_ofList xs) (strict_ofList ys) (by simpa using h)

/-- A list in strict order is its own ascending set. -/
lemma ofList_of_strict {set : List α} (h : Strict set) : ofList set = set :=
  eq_of_mem_iff (strict_ofList set) h fun _ => mem_ofList

omit [Std.LawfulEqOrd α] in
lemma length_ofList_le (xs : List α) : (ofList xs).length ≤ xs.length :=
  (List.subperm_of_subset (strict_ofList xs).nodup fun _ => mem_of_mem_ofList).length_le

end Ordered

/-! ## Maps -/

section Maps

variable {k l : κ} {b : β} {f : Option β → β} {map : List (κ × β)}

/-- Altering a map brings in no other key. -/
lemma mem_keys_alter {entry : κ × β} (h : entry ∈ alter k f map) :
    entry.1 = k ∨ ∃ b, (entry.1, b) ∈ map := by
  induction map with
  | nil => simp_all [alter]
  | cons head rest ih =>
      obtain ⟨l, c⟩ := head
      simp only [alter] at h
      split at h
      · rcases List.mem_cons.1 h with rfl | h
        · simp
        · exact Or.inr ⟨entry.2, h⟩
      · rcases List.mem_cons.1 h with rfl | h
        · exact Or.inr ⟨c, by simp⟩
        · exact Or.inr ⟨entry.2, by simp [h]⟩
      · rcases List.mem_cons.1 h with rfl | h
        · exact Or.inr ⟨c, by simp⟩
        · obtain h | ⟨b, h⟩ := ih h
          · exact Or.inl h
          · exact Or.inr ⟨b, by simp [h]⟩

/-- What lies behind all other keys is added at the end. -/
lemma alter_of_forall_gt (h : ∀ entry ∈ map, compare k entry.1 = .gt) :
    alter k f map = map ++ [(k, f none)] := by
  induction map with
  | nil => rfl
  | cons head rest ih =>
      obtain ⟨hhead, hrest⟩ := List.forall_mem_cons.1 h
      rw [alter]
      simp only [hhead]
      rw [ih hrest, List.cons_append]

/-- Altering a map adds one entry at most. -/
lemma length_alter_le (k : κ) (f : Option β → β) (map : List (κ × β)) :
    (alter k f map).length ≤ map.length + 1 := by
  induction map with
  | nil => exact le_refl 1
  | cons head rest ih =>
      rw [alter]
      split
      · exact le_refl _
      · exact Nat.le_succ _
      · exact Nat.succ_le_succ ih

variable [Std.TransOrd κ]

/-- The keys stay in strict order when an entry is altered. -/
lemma strictKeys_alter (h : StrictKeys map) : StrictKeys (alter k f map) := by
  induction map with
  | nil => exact List.pairwise_singleton _ _
  | cons head rest ih =>
      obtain ⟨l, c⟩ := head
      obtain ⟨hl, hrest⟩ := List.pairwise_cons.1 h
      simp only [alter]
      split
      · rename_i hlt
        refine List.Pairwise.cons (fun entry hentry => ?_) h
        rcases List.mem_cons.1 hentry with rfl | hentry
        · exact hlt
        · exact Std.TransCmp.lt_trans hlt (hl entry hentry)
      · exact List.Pairwise.cons hl hrest
      · rename_i hgt
        refine List.Pairwise.cons (fun entry hentry => ?_) (ih hrest)
        obtain heq | ⟨b, hb⟩ := mem_keys_alter hentry
        · simpa [heq] using Std.OrientedCmp.lt_of_gt hgt
        · exact (hl (entry.1, b) hb :)

variable [Std.LawfulEqOrd κ]

omit [Std.TransOrd κ] in
/-- What is found is an entry of the map. -/
lemma mem_of_find? (h : find? k map = some b) : (k, b) ∈ map := by
  induction map with
  | nil => cases h
  | cons head rest ih =>
      obtain ⟨l, c⟩ := head
      rw [find?] at h
      split at h
      · rename_i heq
        obtain rfl := Std.LawfulEqOrd.eq_of_compare heq
        obtain rfl := Option.some.inj h
        exact List.mem_cons_self
      · exact List.mem_cons_of_mem _ (ih h)

omit [Std.TransOrd κ] in
/-- The value found for a key is the one of its only entry. -/
lemma find?_eq_some_iff (h : StrictKeys map) : find? k map = some b ↔ (k, b) ∈ map := by
  induction map with
  | nil => simp [find?]
  | cons head rest ih =>
      obtain ⟨l, c⟩ := head
      obtain ⟨hl, hrest⟩ := List.pairwise_cons.1 h
      simp only [find?, List.mem_cons, Prod.mk.injEq]
      split
      · rename_i heq
        obtain rfl := Std.LawfulEqOrd.eq_of_compare heq
        have hnot : (k, b) ∉ rest := fun hmem => by
          simpa [Std.ReflCmp.compare_self] using hl _ hmem
        simp [hnot, eq_comm]
      · rename_i hne
        have hkl : k ≠ l := fun heq => hne (by simp [heq, Std.ReflCmp.compare_self])
        rw [ih hrest]
        simp [hkl]

/-- Altering an entry changes what is found for its key, and nothing else. -/
lemma find?_alter [DecidableEq κ] (h : StrictKeys map) :
    find? l (alter k f map) = if l = k then some (f (find? k map)) else find? l map := by
  induction map with
  | nil => simp [alter, find?]
  | cons head rest ih =>
      obtain ⟨m, c⟩ := head
      obtain ⟨hm, hrest⟩ := List.pairwise_cons.1 h
      have hfind : compare k m = .lt → find? k rest = none := by
        intro hlt
        rw [Option.eq_none_iff_forall_ne_some]
        intro b hb
        have := hm _ ((find?_eq_some_iff hrest).1 hb)
        exact absurd this (Std.OrientedCmp.not_lt_of_lt hlt)
      simp only [alter]
      split
      · rename_i hlt
        have hkm : k ≠ m := fun heq => by simp [heq, Std.ReflCmp.compare_self] at hlt
        by_cases hlk : l = k <;>
          simp [find?, hlk, hkm, hfind hlt]
      · rename_i heq
        obtain rfl := Std.LawfulEqOrd.eq_of_compare heq
        by_cases hlk : l = k <;> simp [find?, hlk]
      · rename_i hgt
        have hkm : k ≠ m := fun heq => by simp [heq, Std.ReflCmp.compare_self] at hgt
        by_cases hlm : l = m
        · simp [find?, hlm, hkm.symm]
        · simp [find?, hlm, hkm, ih hrest]

omit [Std.LawfulEqOrd κ] in
/-- **Maps with the same entries are the same list.** -/
lemma map_eq_of_mem_iff {map' : List (κ × β)} (h : StrictKeys map) (h' : StrictKeys map')
    (hmem : ∀ entry, entry ∈ map ↔ entry ∈ map') : map = map' :=
  eq_of_mem_iff_by Prod.fst h h' hmem

/-- **An altered map holds one new entry beside the old ones of other keys.** -/
lemma mem_alter (h : StrictKeys map) :
    (l, b) ∈ alter k f map ↔ (l = k ∧ b = f (find? k map)) ∨ (l ≠ k ∧ (l, b) ∈ map) := by
  classical
  rw [← find?_eq_some_iff (strictKeys_alter h), ← find?_eq_some_iff h, find?_alter h]
  by_cases hlk : l = k <;> simp [hlk, eq_comm]

/-- Maps in which the same is found are the same list. -/
lemma eq_of_find?_eq {map' : List (κ × β)} (h : StrictKeys map) (h' : StrictKeys map')
    (hfind : ∀ k, find? k map = find? k map') : map = map' := by
  refine map_eq_of_mem_iff h h' fun ⟨k, b⟩ => ?_
  rw [← find?_eq_some_iff h, ← find?_eq_some_iff h', hfind]

/-- What two different keys hold can be changed in any order. -/
lemma alter_comm [DecidableEq κ] {g : Option β → β} (h : StrictKeys map) (hne : k ≠ l) :
    alter k f (alter l g map) = alter l g (alter k f map) := by
  refine eq_of_find?_eq (strictKeys_alter (strictKeys_alter h))
    (strictKeys_alter (strictKeys_alter h)) fun m => ?_
  rw [find?_alter (strictKeys_alter h), find?_alter (strictKeys_alter h), find?_alter h,
    find?_alter h, find?_alter h, find?_alter h, if_neg hne, if_neg hne.symm]
  by_cases hmk : m = k
  · rw [if_pos hmk, if_pos hmk, if_neg fun hml => hne (hmk.symm.trans hml)]
  · rw [if_neg hmk, if_neg hmk]

end Maps

end LexicalSelection.Ascending
