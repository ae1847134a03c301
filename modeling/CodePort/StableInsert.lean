/-
Stable insertion by key.

A list that is kept in the order of a key, where an element is put right before the first one with
a greater key, so elements of one key stay in the order of their insertion.

Main definitions:

* `StableInsert.insertByKey` — insert one element;
* `StableInsert.insertAll` — insert the elements of a list, one after another.

Main results:

* `StableInsert.perm_insertByKey`, `pairwise_insertByKey` — **insertion loses nothing and keeps the
  order**;
* `StableInsert.insertByKey_split` — where the element is put;
* `StableInsert.filter_insertAll` — **elements of one key keep their order**;
* `StableInsert.insertAll_of_first_min` — the first element of the least key comes first.
-/

import Mathlib.Data.List.Induction
import Mathlib.Data.List.Perm.Basic
import Mathlib.Order.Basic
import Mathlib.Order.Nat

set_option relaxedAutoImplicit false
set_option autoImplicit false

namespace StableInsert

variable {α : Type*} (key : α → ℕ)

/-- Insert an element right before the first one with a greater key. -/
def insertByKey (a : α) : List α → List α
  | [] => [a]
  | b :: l => if key a < key b then a :: b :: l else b :: insertByKey a l

/-- Insert the elements of a list, one after another. -/
def insertAll (l : List α) : List α := l.foldl (fun acc a => insertByKey key a acc) []

/-- **Where the element is put**: behind everything with a key not greater than its own. -/
theorem insertByKey_split (a : α) (l : List α) :
    ∃ l₁ l₂, l = l₁ ++ l₂ ∧ insertByKey key a l = l₁ ++ a :: l₂ ∧ (∀ b ∈ l₁, key b ≤ key a) ∧
      ∀ b ∈ l₂.head?, key a < key b := by
  induction l with
  | nil => exact ⟨[], [], rfl, rfl, by simp, by simp⟩
  | cons b l ih =>
      rw [insertByKey]
      split_ifs with h
      · exact ⟨[], b :: l, rfl, rfl, by simp, by simpa using h⟩
      · obtain ⟨l₁, l₂, rfl, hins, hle, hlt⟩ := ih
        refine ⟨b :: l₁, l₂, rfl, by rw [hins]; rfl, ?_, hlt⟩
        intro c hc
        rcases List.mem_cons.1 hc with rfl | hc
        · exact not_lt.1 h
        · exact hle c hc

/-- **Insertion loses nothing.** -/
theorem perm_insertByKey (a : α) (l : List α) : (insertByKey key a l).Perm (a :: l) := by
  obtain ⟨l₁, l₂, rfl, hins, -, -⟩ := insertByKey_split key a l
  rw [hins]
  exact List.perm_middle

/-- **Insertion keeps the order.** -/
theorem pairwise_insertByKey {a : α} {l : List α} (h : l.Pairwise fun a b => key a ≤ key b) :
    (insertByKey key a l).Pairwise fun a b => key a ≤ key b := by
  induction l with
  | nil => exact List.pairwise_singleton _ _
  | cons b l ih =>
      obtain ⟨hb, hl⟩ := List.pairwise_cons.1 h
      rw [insertByKey]
      split_ifs with hab
      · refine List.pairwise_cons.2 ⟨?_, h⟩
        intro c hc
        rcases List.mem_cons.1 hc with rfl | hc
        · exact hab.le
        · exact hab.le.trans (hb c hc)
      · refine List.pairwise_cons.2 ⟨?_, ih hl⟩
        intro c hc
        rcases List.mem_cons.1 ((perm_insertByKey key a l).subset hc) with rfl | hc
        · exact not_lt.1 hab
        · exact hb c hc

theorem insertAll_concat (l : List α) (a : α) :
    insertAll key (l ++ [a]) = insertByKey key a (insertAll key l) := by
  rw [insertAll, List.foldl_append]
  rfl

theorem perm_insertAll (l : List α) : (insertAll key l).Perm l := by
  induction l using List.reverseRecOn with
  | nil => exact List.Perm.refl _
  | append_singleton l a ih =>
      rw [insertAll_concat]
      exact (perm_insertByKey key a _).trans ((ih.cons a).trans (List.perm_append_singleton a l).symm)

theorem pairwise_insertAll (l : List α) :
    (insertAll key l).Pairwise fun a b => key a ≤ key b := by
  induction l using List.reverseRecOn with
  | nil => exact List.Pairwise.nil
  | append_singleton l a ih =>
      rw [insertAll_concat]
      exact pairwise_insertByKey key ih

/-- An element is put behind all those of its key. -/
theorem filter_insertByKey {l : List α} (h : l.Pairwise fun a b => key a ≤ key b) (a : α) (k : ℕ) :
    (insertByKey key a l).filter (fun b => key b = k) = (l ++ [a]).filter fun b => key b = k := by
  obtain ⟨l₁, l₂, rfl, hins, -, hlt⟩ := insertByKey_split key a l
  have hgt : ∀ b ∈ l₂, key a < key b := by
    have hl₂ := (List.pairwise_append.1 h).2.1
    intro b hb
    cases l₂ with
    | nil => cases hb
    | cons c l₂ =>
        have hc : key a < key c := hlt c rfl
        rcases List.mem_cons.1 hb with rfl | hb
        · exact hc
        · exact hc.trans_le ((List.pairwise_cons.1 hl₂).1 b hb)
  rw [hins, List.append_assoc, List.filter_append, List.filter_append, List.filter_append]
  congr 1
  by_cases ha : key a = k
  · -- behind the place of the element all keys are greater
    have hnil : l₂.filter (fun b => key b = k) = [] := by
      refine List.filter_eq_nil_iff.2 fun b hb => ?_
      have hb' := hgt b hb
      simp only [decide_eq_true_eq]
      omega
    rw [List.filter_cons_of_pos (by simp [ha]), hnil, List.nil_append,
      List.filter_cons_of_pos (by simp [ha])]
    rfl
  · rw [List.filter_cons_of_neg (by simp [ha]), List.filter_cons_of_neg (by simp [ha]),
      List.filter_nil, List.append_nil]

/-- **Elements of one key keep their order.** -/
theorem filter_insertAll (l : List α) (k : ℕ) :
    (insertAll key l).filter (fun b => key b = k) = l.filter fun b => key b = k := by
  induction l using List.reverseRecOn with
  | nil => rfl
  | append_singleton l a ih =>
      rw [insertAll_concat, filter_insertByKey key (pairwise_insertAll key l), List.filter_append,
        List.filter_append, ih]

/-- Elements may be inserted before or after they are renamed. -/
theorem map_insertByKey {β : Type*} (f : β → α) (b : β) (l : List β) :
    (insertByKey (fun c => key (f c)) b l).map f = insertByKey key (f b) (l.map f) := by
  induction l with
  | nil => rfl
  | cons c l ih =>
      rw [insertByKey, List.map_cons, insertByKey]
      split_ifs
      · rfl
      · rw [List.map_cons, ih]

theorem map_insertAll {β : Type*} (f : β → α) (l : List β) :
    (insertAll (fun c => key (f c)) l).map f = insertAll key (l.map f) := by
  induction l using List.reverseRecOn with
  | nil => rfl
  | append_singleton l b ih =>
      rw [insertAll_concat, map_insertByKey, ih, List.map_append, List.map_singleton, insertAll_concat]

/-! ### The first element -/

/-- An element that is before all others in a list and has no greater key is not passed. -/
theorem insertByKey_of_forall_lt {a : α} {l : List α} (h : ∀ b ∈ l, key a < key b) :
    insertByKey key a l = a :: l := by
  cases l with
  | nil => rfl
  | cons b l => rw [insertByKey, if_pos (h b List.mem_cons_self)]

theorem insertByKey_cons_of_le {a b : α} (h : key b ≤ key a) (l : List α) :
    insertByKey key a (b :: l) = b :: insertByKey key a l := by
  rw [insertByKey, if_neg (not_lt.2 h)]

/-- A list has a first element of the least key. -/
theorem exists_first_min {l : List α} (h : l ≠ []) : ∃ l₁ a l₂, l = l₁ ++ a :: l₂ ∧
    (∀ b ∈ l₁, key a < key b) ∧ ∀ b ∈ l₂, key a ≤ key b := by
  induction l with
  | nil => exact absurd rfl h
  | cons c l ih =>
      rcases eq_or_ne l [] with rfl | hl
      · exact ⟨[], c, [], rfl, by simp, by simp⟩
      · obtain ⟨l₁, a, l₂, rfl, hlt, hle⟩ := ih hl
        rcases le_or_gt (key c) (key a) with hca | hca
        · refine ⟨[], c, l₁ ++ a :: l₂, rfl, by simp, ?_⟩
          intro b hb
          rcases List.mem_append.1 hb with hb | hb
          · exact hca.trans (hlt b hb).le
          · rcases List.mem_cons.1 hb with rfl | hb
            · exact hca
            · exact hca.trans (hle b hb)
        · refine ⟨c :: l₁, a, l₂, rfl, ?_, hle⟩
          intro b hb
          rcases List.mem_cons.1 hb with rfl | hb
          · exact hca
          · exact hlt b hb

/-- **The first element of the least key comes first**, and the others as without it. -/
theorem insertAll_of_first_min {l₁ l₂ : List α} {a : α} (hlt : ∀ b ∈ l₁, key a < key b)
    (hle : ∀ b ∈ l₂, key a ≤ key b) :
    insertAll key (l₁ ++ a :: l₂) = a :: insertAll key (l₁ ++ l₂) := by
  induction l₂ using List.reverseRecOn with
  | nil =>
      rw [insertAll_concat, List.append_nil]
      exact insertByKey_of_forall_lt key fun b hb => hlt b ((perm_insertAll key l₁).subset hb)
  | append_singleton l₂ b ih =>
      rw [← List.cons_append, ← List.append_assoc, insertAll_concat,
        ih fun c hc => hle c (List.mem_append_left _ hc),
        insertByKey_cons_of_le key (hle b (by simp)), ← List.append_assoc, insertAll_concat]

end StableInsert
