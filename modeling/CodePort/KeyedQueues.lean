/-
Queues with keys.

A map from keys to queues is kept as a list in the order of its keys.  Something is put at the end of the
queue with a key, which is made when there is none, or taken from the front of one.  What is in the queues
altogether changes by just that.

Main definitions:

* `KeyedQueues.pushBack`, `popFront` — the operations;
* `KeyedQueues.contents` — what is in the queues altogether;
* `KeyedQueues.mapAll` — the queues of the images of their elements.

Main results:

* `KeyedQueues.forall_pushBack`, `forall_popFront` — **what holds of every queue** with its key;
* `KeyedQueues.contents_pushBack`, `contents_popFront` — **the contents change by one element**;
* `KeyedQueues.mapAll_pushBack`, `mapAll_popFront`, `mapAll_congr` — the queues of the images of their
  elements.
-/

import CodePort.KeyedList
import Mathlib.Data.List.Perm.Basic
import Mathlib.Data.Prod.Basic

set_option relaxedAutoImplicit false
set_option autoImplicit false

namespace KeyedQueues

open KeyedList

variable {κ α β : Type}

/-- What is in the queues altogether. -/
def contents (l : List (κ × List α)) : List α := l.flatMap Prod.snd

/-- The queues of the images of their elements. -/
def mapAll (f : α → β) (l : List (κ × List α)) : List (κ × List β) := l.map fun e => (e.1, e.2.map f)

variable {k : κ} {a : α} {q : List α} {l : List (κ × List α)}

/-- Images under functions that agree on what is in the queues. -/
theorem mapAll_congr {f g : α → β} (h : ∀ a ∈ contents l, f a = g a) : mapAll f l = mapAll g l := by
  refine List.map_congr_left fun e he => ?_
  rw [List.map_congr_left fun a ha => h a (List.mem_flatMap.2 ⟨e, he, ha⟩)]

variable [DecidableEq κ]

/-- What is found is in the queues. -/
theorem mem_of_lookup (hlook : lookup l k = some q) : (k, q) ∈ l := by
  induction l with
  | nil => exact absurd hlook (by simp [lookup])
  | cons e l ih =>
      rw [lookup] at hlook
      split_ifs at hlook with hkey
      · obtain rfl := Option.some.inj hlook
        exact hkey ▸ List.mem_cons_self
      · exact List.mem_cons_of_mem e (ih hlook)

theorem lookup_eq_none_iff_notMem : lookup l k = none ↔ k ∉ l.map Prod.fst := by
  rw [lookup_eq_none_iff, List.mem_map]
  constructor
  · rintro h ⟨e, he, heq⟩
    exact h e he heq
  · exact fun h e he heq => h ⟨e, he, heq⟩

/-- The image of a queue is found in its place. -/
theorem lookup_mapAll (f : α → β) (k : κ) (l : List (κ × List α)) :
    lookup (mapAll f l) k = (lookup l k).map (List.map f) := by
  induction l with
  | nil => rfl
  | cons e l ih =>
      simp only [mapAll, List.map_cons, lookup] at ih ⊢
      split_ifs
      · rfl
      · exact ih

/-! ### Taking from the front -/

/-- Take the first element of the queue with the key `k` away. -/
def popFront (k : κ) : List (κ × List α) → List (κ × List α)
  | [] => []
  | (key, q) :: l => if key = k then (key, q.tail) :: l else (key, q) :: popFront k l

/-- **What holds of every queue** holds after one has lost its first element. -/
theorem forall_popFront {P : κ → List α → Prop} (hlook : lookup l k = some (a :: q))
    (h : ∀ e ∈ l, P e.1 e.2) (hpop : P k (a :: q) → P k q) : ∀ e ∈ popFront k l, P e.1 e.2 := by
  induction l with
  | nil => exact h
  | cons e l ih =>
      obtain ⟨key, q'⟩ := e
      obtain ⟨hq', hl⟩ := List.forall_mem_cons.1 h
      rw [lookup] at hlook
      rw [popFront]
      split_ifs with hkey
      · rw [if_pos hkey] at hlook
        obtain rfl := Option.some.inj hlook
        exact List.forall_mem_cons.2 ⟨hkey ▸ hpop (hkey ▸ hq'), hl⟩
      · rw [if_neg hkey] at hlook
        exact List.forall_mem_cons.2 ⟨hq', ih hlook hl⟩

/-- **One element less** is in the queues. -/
theorem contents_popFront (hlook : lookup l k = some (a :: q)) :
    (contents l).Perm (a :: contents (popFront k l)) := by
  induction l with
  | nil => exact absurd hlook (by simp [lookup])
  | cons e l ih =>
      obtain ⟨key, q'⟩ := e
      rw [lookup] at hlook
      rw [popFront]
      split_ifs with hkey
      · rw [if_pos hkey] at hlook
        obtain rfl := Option.some.inj hlook
        simp only [contents, List.flatMap_cons, List.tail_cons, List.cons_append]
        exact List.Perm.refl _
      · rw [if_neg hkey] at hlook
        simp only [contents, List.flatMap_cons] at ih ⊢
        exact ((ih hlook).append_left q').trans List.perm_middle

theorem keys_popFront (k : κ) (l : List (κ × List α)) :
    (popFront k l).map Prod.fst = l.map Prod.fst := by
  induction l with
  | nil => rfl
  | cons e l ih =>
      obtain ⟨key, q⟩ := e
      rw [popFront]
      split_ifs
      · rfl
      · rw [List.map_cons, List.map_cons, ih]

theorem mapAll_popFront (f : α → β) (k : κ) (l : List (κ × List α)) :
    mapAll f (popFront k l) = popFront k (mapAll f l) := by
  induction l with
  | nil => rfl
  | cons e l ih =>
      obtain ⟨key, q⟩ := e
      simp only [popFront, mapAll, List.map_cons] at ih ⊢
      split_ifs
      · rw [List.map_cons, List.map_tail]
      · rw [List.map_cons, ih]

/-! ### Putting at the end -/

variable [LT κ] [DecidableLT κ]

/-- Put something at the end of the queue with the key `k`. -/
def pushBack (k : κ) (a : α) : List (κ × List α) → List (κ × List α)
  | [] => [(k, [a])]
  | (key, q) :: l =>
      if key = k then (key, q ++ [a]) :: l
      else if k < key then (k, [a]) :: (key, q) :: l
      else (key, q) :: pushBack k a l

/-- **What holds of every queue** holds after something has been put into one. -/
theorem forall_pushBack {P : κ → List α → Prop} (h : ∀ e ∈ l, P e.1 e.2) (hnew : P k [a])
    (hpush : ∀ q, P k q → P k (q ++ [a])) : ∀ e ∈ pushBack k a l, P e.1 e.2 := by
  induction l with
  | nil =>
      intro e he
      rw [List.mem_singleton.1 he]
      exact hnew
  | cons e l ih =>
      obtain ⟨key, q⟩ := e
      obtain ⟨hq, hl⟩ := List.forall_mem_cons.1 h
      rw [pushBack]
      split_ifs with hkey
      · exact List.forall_mem_cons.2 ⟨hkey ▸ hpush q (hkey ▸ hq), hl⟩
      · exact List.forall_mem_cons.2 ⟨hnew, h⟩
      · exact List.forall_mem_cons.2 ⟨hq, ih hl⟩

/-- **One element more** is in the queues. -/
theorem contents_pushBack (k : κ) (a : α) (l : List (κ × List α)) :
    (contents (pushBack k a l)).Perm (a :: contents l) := by
  induction l with
  | nil => exact List.Perm.refl _
  | cons e l ih =>
      obtain ⟨key, q⟩ := e
      rw [pushBack]
      split_ifs
      · simp only [contents, List.flatMap_cons, List.append_assoc, List.singleton_append]
        exact List.perm_middle
      · simp only [contents, List.flatMap_cons, List.singleton_append]
        exact List.Perm.refl _
      · simp only [contents, List.flatMap_cons] at ih ⊢
        exact (ih.append_left q).trans List.perm_middle

/-- No key is lost. -/
theorem mem_keys_pushBack {k' : κ} :
    k' ∈ (pushBack k a l).map Prod.fst ↔ k' = k ∨ k' ∈ l.map Prod.fst := by
  induction l with
  | nil => simp [pushBack]
  | cons e l ih =>
      obtain ⟨key, q⟩ := e
      rw [pushBack]
      split_ifs with hkey
      · simp [hkey]
      · simp
      · simp only [List.map_cons, List.mem_cons, ih]
        exact or_left_comm

theorem mapAll_pushBack (f : α → β) (k : κ) (a : α) (l : List (κ × List α)) :
    mapAll f (pushBack k a l) = pushBack k (f a) (mapAll f l) := by
  induction l with
  | nil => rfl
  | cons e l ih =>
      obtain ⟨key, q⟩ := e
      simp only [pushBack, mapAll, List.map_cons] at ih ⊢
      split_ifs
      · simp
      · rfl
      · rw [List.map_cons, ih]

end KeyedQueues
