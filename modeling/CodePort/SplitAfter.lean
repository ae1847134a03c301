/-
Sequences cut behind a terminator.

A sequence in which one element ends a piece is cut behind every occurrence of it.  What follows the
last occurrence is a piece as well when there is anything.  This module develops the pieces over an
arbitrary element type, with the induction that follows them.

Main definitions:

* `SplitAfter.splitAfter` — the pieces.

Main results:

* `SplitAfter.induction` — induction piece by piece;
* `SplitAfter.flatten_splitAfter` — **the pieces make up the sequence**;
* `SplitAfter.getLast?_of_mem_dropLast` — **every piece but possibly the last ends with the terminator**;
* `SplitAfter.notMem_dropLast_of_mem` — **the terminator stands nowhere else in a piece**.
-/

import Mathlib.Data.List.Basic
import Mathlib.Tactic.Linarith

set_option relaxedAutoImplicit false
set_option autoImplicit false

namespace SplitAfter

variable {α : Type*}

/-- Induction over a sequence by its pieces: nothing, a piece without a terminator, or a piece that ends
with the terminator and what follows it. -/
theorem induction {motive : List α → Prop} (a : α) (nil : motive [])
    (last : ∀ l, a ∉ l → l ≠ [] → motive l)
    (piece : ∀ l r, a ∉ l → motive r → motive (l ++ a :: r)) (l : List α) : motive l := by
  induction hn : l.length using Nat.strong_induction_on generalizing l with
  | _ n ih =>
      by_cases hmem : a ∈ l
      · obtain ⟨b, r, rfl, hb⟩ := List.eq_append_cons_of_mem hmem
        exact piece b r hb (ih r.length (by rw [← hn]; simp; omega) r rfl)
      · by_cases hl : l = []
        · exact hl ▸ nil
        · exact last l hmem hl

variable [DecidableEq α]

/-- The pieces of a sequence, each with the terminator `a` at its end. -/
def splitAfter (a : α) : List α → List (List α)
  | [] => []
  | b :: l =>
      if b = a then [b] :: splitAfter a l
      else match splitAfter a l with
        | [] => [[b]]
        | piece :: pieces => (b :: piece) :: pieces

@[simp] theorem splitAfter_nil (a : α) : splitAfter a [] = [] := rfl

/-- A sequence without the terminator is one piece. -/
theorem splitAfter_of_notMem {a : α} {l : List α} (hl : a ∉ l) (hne : l ≠ []) :
    splitAfter a l = [l] := by
  induction l with
  | nil => exact absurd rfl hne
  | cons b l ih =>
      obtain ⟨hb, hl⟩ := not_or.1 (mt List.mem_cons.2 hl)
      rw [splitAfter, if_neg (Ne.symm hb)]
      by_cases hnil : l = []
      · rw [hnil, splitAfter_nil]
      · rw [ih hl hnil]

/-- The first piece goes up to the first terminator. -/
theorem splitAfter_append_cons {a : α} {l : List α} (hl : a ∉ l) (r : List α) :
    splitAfter a (l ++ a :: r) = (l ++ [a]) :: splitAfter a r := by
  induction l with
  | nil => rw [List.nil_append, splitAfter, if_pos rfl, List.nil_append]
  | cons b l ih =>
      obtain ⟨hb, hl⟩ := not_or.1 (mt List.mem_cons.2 hl)
      rw [List.cons_append, splitAfter, if_neg (Ne.symm hb), ih hl, List.cons_append]

/-- **The pieces make up the sequence.** -/
theorem flatten_splitAfter (a : α) (l : List α) : (splitAfter a l).flatten = l := by
  induction l using induction a with
  | nil => rfl
  | last l hl hne => rw [splitAfter_of_notMem hl hne, List.flatten_singleton]
  | piece l r hl ih =>
      rw [splitAfter_append_cons hl, List.flatten_cons, ih, List.append_assoc, List.singleton_append]

/-- **Every piece but possibly the last ends with the terminator.** -/
theorem getLast?_of_mem_dropLast (a : α) (l : List α) :
    ∀ piece ∈ (splitAfter a l).dropLast, piece.getLast? = some a := by
  induction l using induction a with
  | nil => simp
  | last l hl hne => simp [splitAfter_of_notMem hl hne]
  | piece l r hl ih =>
      rw [splitAfter_append_cons hl]
      intro piece hpiece
      by_cases hr : splitAfter a r = []
      · simp [hr] at hpiece
      · rw [List.dropLast_cons_of_ne_nil hr] at hpiece
        rcases List.mem_cons.1 hpiece with rfl | hpiece
        · exact List.getLast?_concat
        · exact ih piece hpiece

/-- **The terminator stands nowhere but at the end of a piece.** -/
theorem notMem_dropLast_of_mem (a : α) (l : List α) :
    ∀ piece ∈ splitAfter a l, a ∉ piece.dropLast := by
  induction l using induction a with
  | nil => simp
  | last l hl hne =>
      rw [splitAfter_of_notMem hl hne]
      intro piece hpiece hmem
      rw [List.mem_singleton.1 hpiece] at hmem
      exact hl (List.dropLast_subset l hmem)
  | piece l r hl ih =>
      rw [splitAfter_append_cons hl]
      intro piece hpiece
      rcases List.mem_cons.1 hpiece with rfl | hpiece
      · rwa [List.dropLast_concat]
      · exact ih piece hpiece

end SplitAfter
