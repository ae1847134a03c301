/-
Replacing a substring.

`ReplaceSubString` replaces the first occurrence of a substring until there is none left.  It refuses a
replacement that contains the substring, but the text around a replacement can make a new occurrence
together with its beginning or its end, and then the loop may go on for ever.

Main definitions:

* `CodePort.ReplaceState.replaceLoop`, `replaceSubString` — the loop and the function; a loop that does not end has
  no outcome, which is `none`.

Main results:

* `CodePort.replaceLoop_eq_some_iff` — the loop is a number of replacements;
* `CodePort.replaceSubString_ends_iff` — **the loop ends, without an occurrence in the result, if and only
  if only finitely many replacements straddle**, and it does for all harmless substrings;
* `CodePort.replaceSubString_grows` — a replacement that goes on for ever.
-/

import CodePort.Replacement
import Mathlib.Data.List.Pairwise

set_option relaxedAutoImplicit false
set_option autoImplicit false

namespace CodePort

open Replacement

/-- The variable of the loop of `ReplaceSubString`. -/
structure ReplaceState where
  rv : List UInt8

/-- The loop of `ReplaceSubString`. -/
def ReplaceState.replaceLoop (origSub newSub : List UInt8) (st : ReplaceState) :
    Option (List UInt8) :=
  match find st.rv origSub with
  | some pos =>
      { rv := st.rv.take pos ++ newSub ++ st.rv.drop (pos + origSub.length) : ReplaceState }
        |>.replaceLoop origSub newSub
  | none => some st.rv
partial_fixpoint

/-- Replace all occurrences of a substring. -/
def replaceSubString (input origSub newSub : List UInt8) : Option (List UInt8) :=
  -- protect from recursion
  if find newSub origSub ≠ none then some input
  else ReplaceState.replaceLoop origSub newSub { rv := input }

/-- A number of replacements are passes of the loop. -/
theorem replaceLoop_of_afterSteps {origSub newSub input : List UInt8} :
    ∀ {k : ℕ} {rv : List UInt8}, afterSteps origSub newSub input k = some rv →
      ReplaceState.replaceLoop origSub newSub ⟨input⟩ =
        ReplaceState.replaceLoop origSub newSub ⟨rv⟩ := by
  intro k
  induction k with
  | zero =>
      intro rv hk
      rw [Option.some.inj hk]
  | succ k ih =>
      intro rv hk
      obtain ⟨m, hm, hrep⟩ := Option.bind_eq_some_iff.1 hk
      obtain ⟨pos, hpos, rfl⟩ := Option.map_eq_some_iff.1 hrep
      rw [ih hm, ReplaceState.replaceLoop, hpos]

/-- **The loop is a number of replacements** behind which the substring does not occur. -/
theorem replaceLoop_eq_some_iff {origSub newSub input r : List UInt8} :
    ReplaceState.replaceLoop origSub newSub ⟨input⟩ = some r ↔
      ∃ k, afterSteps origSub newSub input k = some r ∧ ¬ origSub <:+: r := by
  constructor
  · intro hrun
    refine ReplaceState.replaceLoop.partial_correctness origSub newSub (fun st r => ∀ k,
      afterSteps origSub newSub input k = some st.rv →
        ∃ k, afterSteps origSub newSub input k = some r ∧ ¬ origSub <:+: r) ?_ ⟨input⟩ r hrun 0 rfl
    intro loop ih st r hrun k hk
    cases hpos : find st.rv origSub with
    | none =>
        rw [hpos] at hrun
        obtain rfl := Option.some.inj hrun
        exact ⟨k, hk, find_eq_none_iff.1 hpos⟩
    | some pos =>
        rw [hpos] at hrun
        exact ih _ _ hrun (k + 1) (by rw [afterSteps_succ hk, replaceFirst, hpos, Option.map_some])
  · rintro ⟨k, hk, hno⟩
    rw [replaceLoop_of_afterSteps hk, ReplaceState.replaceLoop, find_eq_none_iff.2 hno]

/-- The replacements end when the loop returns, and then the substring does not occur. -/
theorem replaceSubString_ends_iff_stops {input origSub newSub : List UInt8} (h : ¬ origSub <:+: newSub) :
    (∃ rv, replaceSubString input origSub newSub = some rv ∧ ¬ origSub <:+: rv) ↔
      ∃ k, afterSteps origSub newSub input k = none := by
  have hguard : replaceSubString input origSub newSub =
      ReplaceState.replaceLoop origSub newSub ⟨input⟩ := by
    rw [replaceSubString, find_eq_none_iff.2 h, if_neg (not_not.2 rfl)]
  rw [hguard]
  constructor
  · rintro ⟨rv, hrun, -⟩
    obtain ⟨k, hk, hno⟩ := replaceLoop_eq_some_iff.1 hrun
    exact ⟨k + 1, (afterSteps_succ hk).trans (replaceFirst_eq_none_iff.2 hno)⟩
  · rintro ⟨k, hk⟩
    -- the last text of the replacements
    induction k with
    | zero => exact absurd hk (Option.some_ne_none _)
    | succ k ih =>
        cases hm : afterSteps origSub newSub input k with
        | none => exact ih hm
        | some rv =>
            rw [afterSteps_succ hm, replaceFirst_eq_none_iff] at hk
            exact ⟨rv, replaceLoop_eq_some_iff.2 ⟨k, hm, hk⟩, hk⟩

/-- **`ReplaceSubString` ends, without an occurrence in its result, if and only if only finitely many of
its replacements make an occurrence at the edge of the inserted text**; and it does whenever the substring
and its replacement are harmless. -/
theorem replaceSubString_ends_iff (input origSub newSub : List UInt8) (h : ¬ origSub <:+: newSub) :
    ((∃ rv, replaceSubString input origSub newSub = some rv ∧ ¬ origSub <:+: rv) ↔
      ∃ N, ∀ k, N ≤ k → ∀ rv, afterSteps origSub newSub input k = some rv →
        ¬ Straddles origSub newSub rv) ∧
      (Harmless origSub newSub →
        ∃ rv, replaceSubString input origSub newSub = some rv ∧ ¬ origSub <:+: rv) := by
  refine ⟨(replaceSubString_ends_iff_stops h).trans (stops_iff h), fun hharm => ?_⟩
  exact (replaceSubString_ends_iff_stops h).2 (stops_of_acc (acc_of_harmless h hharm input) (k := 0) rfl)

/-- `"ab"` is replaced by `"b"`. -/
theorem replaceSubString_ends_shorter :
    ∃ rv, replaceSubString [97, 97, 98] [97, 98] [98] = some rv ∧ ¬ [97, 98] <:+: rv :=
  (replaceSubString_ends_iff [97, 97, 98] [97, 98] [98] (by decide)).2 (.inl ⟨97, by decide⟩)

/-! ### A replacement that goes on for ever -/

/-- The first `"ab"` behind letters `b` and letters `a` is replaced. -/
theorem replaceFirst_ab (newSub x y : List UInt8) (hx : (x ++ [97]).Pairwise (· ≥ ·)) :
    replaceFirst [97, 98] newSub (x ++ [97, 98] ++ y) = some (x ++ newSub ++ y) := by
  have hfind : find (x ++ [97, 98] ++ y) [97, 98] = some x.length := by
    refine find_eq_some_iff.2 ⟨⟨x, y, rfl, rfl⟩, fun x' y' hl => ?_⟩
    by_contra hlt
    have hpre : x' ++ [97, 98] <+: x ++ [97] := by
      have hone : x ++ [97] <+: x ++ [97, 98] ++ y := ⟨98 :: y, by simp⟩
      refine List.prefix_of_prefix_length_le ⟨y', hl.symm⟩ hone ?_
      simp only [List.length_append, List.length_cons, List.length_nil]
      omega
    have hinfix := (List.suffix_append x' [97, 98]).isInfix.trans hpre.isInfix
    exact absurd (hx.sublist hinfix.sublist) (by decide)
  exact replaceFirst_of_find hfind

/-- Two replacements in `"aab"` between letters `b` and letters `a` leave it between more of them. -/
theorem afterSteps_grows (k : ℕ) : ∃ i j,
    afterSteps [97, 98] [98, 98, 97, 97] ([97, 97, 98] : List UInt8) (2 * k) =
      some (List.replicate i 98 ++ [97, 97, 98] ++ List.replicate j 97) := by
  induction k with
  | zero => exact ⟨0, 0, rfl⟩
  | succ k ih =>
      obtain ⟨i, j, hk⟩ := ih
      have hsorted : ∀ n, (List.replicate i (98 : UInt8) ++ List.replicate n 97).Pairwise (· ≥ ·) := by
        intro n
        refine List.pairwise_append.2 ⟨?_, ?_, ?_⟩
        · exact List.pairwise_replicate.2 (.inr (by decide))
        · exact List.pairwise_replicate.2 (.inr (by decide))
        · intro b hb a ha
          rw [List.eq_of_mem_replicate hb, List.eq_of_mem_replicate ha]
          decide
      have hfirst := replaceFirst_ab [98, 98, 97, 97] (List.replicate i 98 ++ [97]) (List.replicate j 97)
        (by rw [List.append_assoc]; exact hsorted 2)
      have hsecond := replaceFirst_ab [98, 98, 97, 97] (List.replicate i 98)
        (98 :: 97 :: 97 :: List.replicate j 97) (hsorted 1)
      have hone : afterSteps [97, 98] [98, 98, 97, 97] ([97, 97, 98] : List UInt8) (2 * k + 1) =
          some (List.replicate i 98 ++ [97, 98] ++ (98 :: 97 :: 97 :: List.replicate j 97)) := by
        rw [afterSteps_succ hk]
        simpa only [List.append_assoc, List.cons_append, List.nil_append] using hfirst
      refine ⟨i + 2, j + 2, (afterSteps_succ hone).trans (hsecond.trans ?_)⟩
      rw [List.replicate_add i, List.replicate_succ', List.replicate_succ (n := j + 1),
        List.replicate_succ (n := j)]
      simp

/-- `"ab"` in `"aab"` is replaced by `"bbaa"`, which does not contain it, for ever. -/
theorem replaceSubString_grows :
    ¬ ([97, 98] : List UInt8) <:+: [98, 98, 97, 97] ∧
      replaceSubString [97, 97, 98] [97, 98] [98, 98, 97, 97] = none ∧
      ¬ ∃ rv, replaceSubString [97, 97, 98] [97, 98] [98, 98, 97, 97] = some rv ∧
        ¬ [97, 98] <:+: rv := by
  have hnew : ¬ ([97, 98] : List UInt8) <:+: [98, 98, 97, 97] := by decide
  have hnever : ¬ ∃ k, afterSteps [97, 98] [98, 98, 97, 97] ([97, 97, 98] : List UInt8) k = none := by
    rintro ⟨k, hk⟩
    obtain ⟨i, j, hsome⟩ := afterSteps_grows k
    rw [afterSteps_eq_none_of_le (by omega) hk] at hsome
    exact absurd hsome.symm (Option.some_ne_none _)
  have hno := mt (replaceSubString_ends_iff_stops hnew).1 hnever
  refine ⟨hnew, ?_, hno⟩
  by_contra hne
  obtain ⟨rv, hrun⟩ := Option.ne_none_iff_exists'.1 hne
  have hloop : ReplaceState.replaceLoop [97, 98] [98, 98, 97, 97] ⟨[97, 97, 98]⟩ = some rv := by
    rw [← hrun, replaceSubString, find_eq_none_iff.2 hnew, if_neg (not_not.2 rfl)]
  obtain ⟨k, hk, hend⟩ := replaceLoop_eq_some_iff.1 hloop
  exact hno ⟨rv, hrun, hend⟩

end CodePort
