/-
Queues that are threaded through their nodes.

Every node holds a link to the next one, so a queue is no more than two pointers: to its first node
and to its last one.  The links of the nodes that are not in the queue do not matter, and a queue
does not notice when they change.

Main definitions:

* `LinkedQueue.Visits` — the nodes that one meets by following the links from a pointer;
* `LinkedQueue.Queue` — the two pointers and the nodes of a queue;
* `LinkedQueue.relink` — the links after a node has been put at the end;
* `LinkedQueue.linkBehind` — the links after a node has been put behind another one.

Main results:

* `LinkedQueue.Visits.unique` — the links determine the nodes;
* `LinkedQueue.Visits.splice` — **putting a node between two others**;
* `LinkedQueue.Queue.congr` — **the frame rule**;
* `LinkedQueue.Queue.pop`, `LinkedQueue.Queue.push` — **taking the first node, and putting one at
  the end**.
-/

import Mathlib.Data.List.Nodup
import Mathlib.Logic.Function.Basic

set_option relaxedAutoImplicit false
set_option autoImplicit false

namespace LinkedQueue

variable {α : Type*} {next next' : α → Option α}

/-- The nodes that one meets by following the links from a pointer up to the end. -/
def Visits (next : α → Option α) : Option α → List α → Prop
  | p, [] => p = none
  | p, a :: l => p = some a ∧ Visits next (next a) l

theorem Visits.head?_eq {p : Option α} {l : List α} (h : Visits next p l) : l.head? = p := by
  cases l with
  | nil => exact h.symm
  | cons a l => exact h.1.symm

/-- **The links determine the nodes.** -/
theorem Visits.unique {p : Option α} {l l' : List α} (h : Visits next p l)
    (h' : Visits next p l') : l = l' := by
  induction l generalizing p l' with
  | nil =>
      cases l' with
      | nil => rfl
      | cons b l' => cases h.symm.trans h'.1
  | cons a l ih =>
      cases l' with
      | nil => cases h.1.symm.trans h'
      | cons b l' =>
          obtain rfl : a = b := Option.some.inj (h.1.symm.trans h'.1)
          rw [ih h.2 h'.2]

/-- Only the links of the nodes matter. -/
theorem Visits.congr {p : Option α} {l : List α} (h : Visits next p l)
    (hnext : ∀ a ∈ l, next' a = next a) : Visits next' p l := by
  induction l generalizing p with
  | nil => exact h
  | cons a l ih =>
      refine ⟨h.1, ?_⟩
      rw [hnext a List.mem_cons_self]
      exact ih h.2 fun b hb => hnext b (List.mem_cons_of_mem a hb)

variable [DecidableEq α]

/-- The links after the node `b` has been put behind the last node. -/
def relink (next : α → Option α) (tail : Option α) (b : α) : α → Option α :=
  Function.update (match tail with
    | some t => Function.update next t (some b)
    | none => next) b none

@[simp] theorem relink_self (tail : Option α) (b : α) : relink next tail b b = none :=
  Function.update_self _ _ _

theorem relink_tail {t b : α} (h : t ≠ b) : relink next (some t) b t = some b := by
  unfold relink
  rw [Function.update_of_ne h]
  exact Function.update_self _ _ _

theorem relink_of_ne {tail : Option α} {a b : α} (hb : a ≠ b) (ht : tail ≠ some a) :
    relink next tail b a = next a := by
  unfold relink
  rw [Function.update_of_ne hb]
  cases tail with
  | none => rfl
  | some t =>
      have hat : a ≠ t := fun h => ht (congrArg some h.symm)
      exact Function.update_of_ne hat _ _

/-- A node that is put behind the last one is visited after it. -/
theorem Visits.snoc {p : Option α} {l : List α} {a b : α} (h : Visits next p (l ++ [a]))
    (hnodup : (l ++ [a]).Nodup) (hb : b ∉ l ++ [a]) :
    Visits (relink next (some a) b) p (l ++ [a] ++ [b]) := by
  induction l generalizing p with
  | nil =>
      have hab : a ≠ b := fun hab => hb (List.mem_singleton.2 hab.symm)
      refine ⟨h.1, ?_⟩
      rw [relink_tail hab]
      exact ⟨rfl, relink_self _ b⟩
  | cons c l ih =>
      obtain ⟨hc, hnodup'⟩ := List.nodup_cons.1 hnodup
      obtain ⟨hbc, hb'⟩ := not_or.1 (mt List.mem_cons.2 hb)
      have hca : some a ≠ some c := by
        intro hac
        exact hc (List.mem_append_right l (List.mem_singleton.2 (Option.some.inj hac).symm))
      refine ⟨h.1, ?_⟩
      rw [relink_of_ne (Ne.symm hbc) hca]
      exact ih h.2 hnodup' hb'

/-- The links after `b` has been put behind the node before it, if there is one.  The link of `b` itself
is set already. -/
def linkBehind (next : α → Option α) (prev : Option α) (b : α) : α → Option α :=
  match prev with
  | some a => Function.update next a (some b)
  | none => next

theorem linkBehind_of_ne {prev : Option α} {a b : α} (h : prev ≠ some a) :
    linkBehind next prev b a = next a := by
  cases prev with
  | none => rfl
  | some c =>
      have hac : a ≠ c := fun hac => h (congrArg some hac.symm)
      exact Function.update_of_ne hac _ _

/-- **A node is put between two others**, or at either end. -/
theorem Visits.splice {p : Option α} {l r : List α} {b : α} (h : Visits next p (l ++ r))
    (hnodup : (l ++ r).Nodup) (hb : b ∉ l ++ r) (hnext : next b = r.head?) :
    Visits (linkBehind next l.getLast? b) (if l = [] then some b else p) (l ++ b :: r) := by
  induction l generalizing p with
  | nil =>
      refine ⟨rfl, ?_⟩
      have hr : Visits next p r := h
      have hp : next b = p := hnext.trans hr.head?_eq
      change Visits next (next b) r
      rwa [hp]
  | cons a l ih =>
      rw [List.cons_append] at h hnodup hb
      obtain ⟨ha, hnodup'⟩ := List.nodup_cons.1 hnodup
      obtain ⟨hba, hb'⟩ := not_or.1 (mt List.mem_cons.2 hb)
      have hrec := ih h.2 hnodup' hb'
      rw [if_neg (List.cons_ne_nil a l)]
      refine ⟨h.1, ?_⟩
      cases l with
      | nil =>
          -- the new node comes right behind this one
          have hself : linkBehind next [a].getLast? b a = some b := Function.update_self _ _ _
          have hlink : linkBehind next [a].getLast? b b = next b :=
            linkBehind_of_ne fun hab => hba (Option.some.inj hab).symm
          have hr : Visits next (next b) r := hrec.2
          rw [hself]
          refine ⟨rfl, ?_⟩
          rw [hlink]
          refine hr.congr fun c hc => linkBehind_of_ne fun hac => ha ?_
          obtain rfl : a = c := Option.some.inj hac
          exact hc
      | cons c l =>
          have hne : (c :: l).getLast? ≠ some a := fun hlast =>
            ha (List.mem_append_left r (List.mem_of_getLast? hlast))
          rw [List.getLast?_cons_cons, linkBehind_of_ne hne]
          rw [if_neg (List.cons_ne_nil c l)] at hrec
          exact hrec

/-- The two pointers of a queue, and its nodes. -/
structure Queue (next : α → Option α) (head tail : Option α) (l : List α) : Prop where
  visits : Visits next head l
  getLast?_eq : l.getLast? = tail
  nodup : l.Nodup

namespace Queue

variable {head tail : Option α} {l : List α}

omit [DecidableEq α] in
theorem empty : Queue next none none ([] : List α) := ⟨rfl, rfl, List.nodup_nil⟩

omit [DecidableEq α] in
/-- **The frame rule**: a queue stays a queue when other links change. -/
theorem congr (h : Queue next head tail l) (hnext : ∀ a ∈ l, next' a = next a) :
    Queue next' head tail l :=
  ⟨h.visits.congr hnext, h.getLast?_eq, h.nodup⟩

omit [DecidableEq α] in
theorem eq_nil (h : Queue next none tail l) : l = [] :=
  List.head?_eq_none_iff.1 h.visits.head?_eq

omit [DecidableEq α] in
/-- **Taking the first node.** -/
theorem pop {b : α} (h : Queue next (some b) tail l) :
    ∃ l', l = b :: l' ∧ Queue next (next b) (if next b = none then none else tail) l' := by
  cases l with
  | nil => cases h.visits
  | cons a l' =>
      obtain rfl : b = a := Option.some.inj h.visits.1
      refine ⟨l', rfl, h.visits.2, ?_, (List.nodup_cons.1 h.nodup).2⟩
      have hhead := h.visits.2.head?_eq
      have htail := h.getLast?_eq
      cases l' with
      | nil =>
          have hnone : next b = none := hhead.symm
          rw [if_pos hnone]
          rfl
      | cons c l' =>
          rw [if_neg (by rw [← hhead]; exact Option.some_ne_none c)]
          rwa [List.getLast?_cons_cons] at htail

/-- **Putting a node at the end.** -/
theorem push {b : α} (h : Queue next head tail l) (hb : b ∉ l) :
    Queue (relink next tail b) (if head = none then some b else head) (some b) (l ++ [b]) := by
  refine ⟨?_, List.getLast?_concat, ?_⟩
  · rcases List.eq_nil_or_concat l with rfl | ⟨l, a, rfl⟩
    · obtain rfl : none = head := h.visits.head?_eq
      exact ⟨rfl, relink_self _ b⟩
    · rw [List.concat_eq_append] at h hb ⊢
      have hhead : head ≠ none := by
        rw [← h.visits.head?_eq]
        simp
      have htail := h.getLast?_eq
      rw [List.getLast?_concat] at htail
      rw [if_neg hhead, ← htail]
      exact h.visits.snoc h.nodup hb
  · exact List.nodup_append.2 ⟨h.nodup, List.nodup_singleton b, fun a ha c hc hac =>
      hb (List.mem_singleton.1 hc ▸ hac ▸ ha)⟩

/-- Nothing but the last node and the new one is linked anew. -/
theorem relink_eq_of_notMem {a b : α} (h : Queue next head tail l) (ha : a ∉ l) (hab : a ≠ b) :
    LinkedQueue.relink next tail b a = next a := by
  refine relink_of_ne hab fun htail => ha ?_
  rw [← h.getLast?_eq] at htail
  exact List.mem_of_getLast? htail

end Queue

end LinkedQueue
