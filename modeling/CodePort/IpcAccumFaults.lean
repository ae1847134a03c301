/-
Accumulators that get a segment twice, lose one, or wait too long.

`Complete` compares two counters, the highest fragment number and the number of submissions, so a
segment that comes twice makes up for one that is missing.  And `AccumThread` looks for accumulators
that have expired only when it does not handle a segment, so they stay as long as segments keep
arriving.

Main definitions:

* `CodePort.Fragments` — segments of one message, of which any may be missing or repeated;
* `CodePort.IpcAccum.Whole` — what a complete accumulator owes;
* `CodePort.IpcAccumMap.Sweeps` — what the handling of a segment owes.

Main results:

* `CodePort.IpcAccum.complete_submitAll_iff` — when an accumulator says that it is complete;
* `CodePort.accum_complete_whole_iff` — **it is right unless a repetition makes up for a loss**;
* `CodePort.IpcAccumMap.lookup_accumulate` — what the handling of a segment changes;
* `CodePort.accumThread_sweeps_iff` — **expired accumulators are removed at arrivals only if the
  segments that arrive complete them**.
-/

import CodePort.IpcAccumMap
import Mathlib.Data.List.Perm.Subperm

set_option relaxedAutoImplicit false
set_option autoImplicit false

namespace CodePort

open IpcSegment StableInsert StepSystem

/-! ### Segments that are lost or come twice -/

/-- Segments of one message of `n` fragments, any of which may be missing or repeated. -/
structure Fragments (n : ℕ) (l : List SegPtr) : Prop where
  range : ∀ p ∈ l, 1 ≤ p.fragNum ∧ p.fragNum ≤ n
  multipart : ∀ p ∈ l, p.multipart = true
  initial : ∀ p ∈ l, (p.initial = true ↔ p.fragNum = n)

/-- A repeated segment makes up for a missing one: the last fragment is there, there are as many
segments as fragments, and two of them have the same number. -/
def MakesUp (n : ℕ) (l : List SegPtr) : Prop :=
  n ∈ l.map SegPtr.fragNum ∧ l.length % 2 ^ 32 = n ∧ ¬ (l.map SegPtr.fragNum).Nodup

/-- Numbers from one to `n`, each only once, are some of them. -/
theorem subperm_range' {l : List ℕ} {n : ℕ} (hnodup : l.Nodup)
    (hrange : ∀ k ∈ l, 1 ≤ k ∧ k ≤ n) : l.Subperm (List.range' 1 n) := by
  refine List.subperm_of_subset hnodup fun k hk => ?_
  have := hrange k hk
  rw [List.mem_range'_1]
  omega

namespace IpcAccum

/-- What a complete accumulator owes: every fragment is in its list exactly once, so the message that
it hands out has no hole and repeats nothing. -/
def Whole (n : ℕ) (a : IpcAccum) : Prop :=
  (∀ k, 1 ≤ k → k ≤ n → (a.list.map SegPtr.fragNum).count k = 1) ∧
    a.messageGet.1.map SegPtr.fragNum = List.range' 1 n

variable {n : ℕ} {l : List SegPtr}

/-- The numbers of the list are those of the submitted segments. -/
theorem list_perm (now : ℕ) (l : List SegPtr) :
    (((construct now).submitAll l).list.map SegPtr.fragNum).Perm (l.map SegPtr.fragNum) := by
  rw [list_submitAll]
  exact (perm_insertAll _ _).map _

/-- **When an accumulator says that it is complete**: the last fragment has come, and the number of
submissions is the number of fragments. -/
theorem complete_submitAll_iff (now : ℕ) (h : Fragments n l) :
    ((construct now).submitAll l).complete = true ↔
      n ∈ l.map SegPtr.fragNum ∧ l.length % 2 ^ 32 = n := by
  have hholds := holds_submitAll (n := n) now fun p hp => ⟨h.multipart p hp, h.initial p hp⟩
  have hempty : ((construct now).submitAll l).list = [] ↔ l = [] := by
    rw [list_submitAll, ← List.length_eq_zero_iff, (perm_insertAll _ l).length_eq,
      List.length_eq_zero_iff]
  simp only [complete, hholds.total_eq, hholds.received_eq, Bool.and_eq_true, Bool.not_eq_true',
    List.isEmpty_eq_false_iff, decide_eq_true_eq, ne_eq, hempty]
  constructor
  · rintro ⟨⟨-, hpos⟩, heq⟩
    split_ifs at hpos heq with hn
    · exact ⟨hn, heq.symm⟩
    · exact absurd hpos (Nat.lt_irrefl 0)
  · rintro ⟨hn, hlen⟩
    obtain ⟨p, hp, rfl⟩ := List.mem_map.1 hn
    rw [if_pos hn]
    exact ⟨⟨List.ne_nil_of_mem hp, (h.range p hp).1⟩, hlen.symm⟩

/-- A list with a repetition is not whole. -/
theorem Whole.nodup {now : ℕ} (h : Whole n ((construct now).submitAll l)) :
    (l.map SegPtr.fragNum).Nodup := by
  rw [← (list_perm now l).nodup_iff]
  have hlist := h.2
  rw [messageGet] at hlist
  rw [hlist]
  exact List.nodup_range'

/-- As many segments as there are fragments, and no repetition. -/
theorem whole_of_nodup (now : ℕ) (h : Fragments n l) (hn : n ∈ l.map SegPtr.fragNum)
    (hlen : l.length % 2 ^ 32 = n) (hnodup : (l.map SegPtr.fragNum).Nodup) :
    Whole n ((construct now).submitAll l) := by
  have hrange : ∀ k ∈ l.map SegPtr.fragNum, 1 ≤ k ∧ k ≤ n := by
    intro k hk
    obtain ⟨p, hp, rfl⟩ := List.mem_map.1 hk
    exact h.range p hp
  obtain ⟨p, -, hp⟩ := List.mem_map.1 hn
  have hlt : n < 2 ^ 16 := hp ▸ readUint16B_lt _
  have hsub := subperm_range' hnodup hrange
  have hle := hsub.length_le
  rw [List.length_map, List.length_range'] at hle
  rw [Nat.mod_eq_of_lt (by omega)] at hlen
  have hperm := hsub.perm_of_length_le (by rw [List.length_map, List.length_range', hlen])
  refine ⟨fun k hk hkn => ?_, ?_⟩
  · rw [(list_perm now l).count_eq, hperm.count_eq]
    refine List.count_eq_one_of_mem List.nodup_range' (List.mem_range'_1.2 ?_)
    omega
  · change ((construct now).submitAll l).list.map SegPtr.fragNum = List.range' 1 n
    rw [list_submitAll]
    exact map_fragNum_insertAll hperm

end IpcAccum

open IpcAccum in
/-- **A complete accumulator is whole unless a repetition makes up for a loss**: for every series of
segments of a message of `n` fragments, `Complete` is true only of the whole message if and only if
it is not so that the last fragment has come, as many segments have come as there are fragments, and
two of them have the same number. -/
theorem accum_complete_whole_iff (n now : ℕ) (l : List SegPtr) (h : Fragments n l) :
    (((construct now).submitAll l).complete = true → Whole n ((construct now).submitAll l)) ↔
      ¬ MakesUp n l := by
  rw [complete_submitAll_iff now h]
  constructor
  · rintro hwhole ⟨hn, hlen, hrepeated⟩
    exact hrepeated (hwhole ⟨hn, hlen⟩).nodup
  · intro hmakes hcomplete
    have hnodup : (l.map SegPtr.fragNum).Nodup := by
      by_contra hrepeated
      exact hmakes ⟨hcomplete.1, hcomplete.2, hrepeated⟩
    exact whole_of_nodup now h hcomplete.1 hcomplete.2 hnodup

open IpcAccum in
/-- The second of three fragments comes twice, and the first one not yet. -/
theorem accum_complete_whole_iff_three :
    (((construct 0).submitAll [sampleSeg 0 0x20 2 1 5 7, sampleSeg 1 0x20 2 1 5 7]).complete = true →
        Whole 3 ((construct 0).submitAll [sampleSeg 0 0x20 2 1 5 7, sampleSeg 1 0x20 2 1 5 7])) ↔
      ¬ MakesUp 3 [sampleSeg 0 0x20 2 1 5 7, sampleSeg 1 0x20 2 1 5 7] :=
  accum_complete_whole_iff 3 0 [sampleSeg 0 0x20 2 1 5 7, sampleSeg 1 0x20 2 1 5 7]
    ⟨by decide, by decide, by decide⟩

open IpcAccum in
/-- A message of two fragments of which the second one comes twice and the first one is lost: the
accumulator says that it is complete, and hands out the second fragment twice. -/
theorem accum_complete_hole :
    Fragments 2 [sampleSeg 0 0x60 2 1 5 7, sampleSeg 1 0x60 2 1 5 7] ∧
      ((construct 0).submitAll [sampleSeg 0 0x60 2 1 5 7, sampleSeg 1 0x60 2 1 5 7]).complete = true ∧
      ((construct 0).submitAll [sampleSeg 0 0x60 2 1 5 7,
        sampleSeg 1 0x60 2 1 5 7]).messageGet.1.map SegPtr.fragNum = [2, 2] :=
  ⟨⟨by decide, by decide, by decide⟩, by decide, by decide⟩

/-! ### Segments that keep arriving -/

namespace IpcAccumMap

/-- The lists of which a turn alerts the node.  There is no such call where a segment is handled. -/
def notices (s : IpcAccumMap) (i : AccumIn) : List (List SegPtr) :=
  match i.segment, i.exitFlag with
  | some _, false => []
  | _, _ => (houseKeep i s.accumMap s.accumMap.entries).notified

/-- What the handling of a segment owes: no accumulator is left that had expired when it began, and the
node has been alerted once of each one that is gone, other than the one of the segment itself. -/
structure Swept (s : IpcAccumMap) (i : AccumIn) (p : SegPtr) (s' : IpcAccumMap) : Prop where
  gone : ∀ g a, s.accumMap.lookup g = some a → a.expired i.now = true → s'.accumMap.lookup g = none
  reported : ∀ g a, s.accumMap.lookup g = some a → a.expired i.now = true → g ≠ p.guid →
    s'.accumMap.lookup g = none → (notices s i).count a.list = 1

/-- What a turn owes that handles a segment. -/
def Sweeps (s : IpcAccumMap) (i : AccumIn) : Prop :=
  ∀ p o s', Arrives i p → accumStep s i = some (o, s') → Swept s i p s'

/-- Nothing has expired when a segment is handled, but possibly the accumulator of its own message, and
then the segment completes the message. -/
def Fresh (s : IpcAccumMap) (i : AccumIn) : Prop :=
  ∀ p, Arrives i p → ∀ g a, s.accumMap.lookup g = some a → a.expired i.now = true →
    g = p.guid ∧ p.multipart = true ∧ (a.submitSegment p).complete = true

/-- The accumulators after a segment has been handled are those after it has been accumulated. -/
theorem accumMap_receive (s : IpcAccumMap) (i : AccumIn) (p : SegPtr) :
    (receive s i p).2.accumMap = (accumulate s.accumMap i.now p).2 := by
  rw [receive]
  cases (accumulate s.accumMap i.now p).1 <;> rfl

/-- **What the handling of a segment changes**: an accumulator is gone only if the segment completes its
message. -/
theorem lookup_accumulate {m : AList fun _ : ℕ => IpcAccum} {g : ℕ} {a : IpcAccum}
    (h : m.lookup g = some a) (now : ℕ) (p : SegPtr) :
    (accumulate m now p).2.lookup g = none ↔
      g = p.guid ∧ p.multipart = true ∧ (a.submitSegment p).complete = true := by
  rw [accumulate]
  by_cases hmulti : p.multipart = true
  · rw [if_pos hmulti]
    rcases eq_or_ne g p.guid with rfl | hg
    · simp only [h, Option.getD_some]
      split_ifs with hcomplete
      · simp [hcomplete, hmulti]
      · simp [hcomplete]
    · dsimp only
      split_ifs
      · simp [AList.lookup_erase_ne hg, h, hg]
      · simp [AList.lookup_insert_ne hg, h, hg]
  · rw [if_neg hmulti]
    simp [h, hmulti]

/-- A turn that handles a segment removes what has expired if and only if nothing has, or the segment
completes it. -/
theorem sweeps_iff (s : IpcAccumMap) (i : AccumIn) : Sweeps s i ↔ Fresh s i := by
  constructor
  · intro hsweeps p hp g a hg hexpired
    have hgone : (receive s i p).2.accumMap.lookup g = none :=
      (hsweeps p _ _ hp (accumStep_of_arrives hp s)).gone g a hg hexpired
    rw [accumMap_receive] at hgone
    exact (lookup_accumulate hg i.now p).1 hgone
  · intro hfresh p o s' hp hstep
    rw [accumStep_of_arrives hp s] at hstep
    obtain ⟨-, rfl⟩ := Prod.mk.inj (Option.some.inj hstep)
    refine ⟨fun g a hg hexpired => ?_, fun g a hg hexpired hne _ => ?_⟩
    · change (receive s i p).2.accumMap.lookup g = none
      rw [accumMap_receive]
      exact (lookup_accumulate hg i.now p).2 (hfresh p hp g a hg hexpired)
    · exact absurd (hfresh p hp g a hg hexpired).1 hne

end IpcAccumMap

open IpcAccumMap in
/-- **Expired accumulators and traffic**: in a run of any turns, every turn that handles a segment
removes what had expired, and alerts the node of it, if and only if in every such turn nothing had
expired but an accumulator that the segment completes. -/
theorem accumThread_sweeps_iff (is : List AccumIn) :
    Meets accumStep Sweeps is construct ↔ Meets accumStep Fresh is construct :=
  ⟨fun h => h.mono fun s i => (sweeps_iff s i).1, fun h => h.mono fun s i => (sweeps_iff s i).2⟩

open IpcAccumMap in
/-- A fragment arrives, and a minute later a segment of another message: the accumulator of the first
message has expired and is still there, and the node has not been alerted. -/
def lateTurns : List AccumIn :=
  [⟨some (sampleSeg 0 0x20 1 1 5 7), false, 0, true, 0⟩,
    ⟨some (sampleSeg 1 0 1 1 6 0), false, 60000, true, 0⟩]

open IpcAccumMap in
theorem accumThread_keeps_expired :
    ∃ outs s s' o i, run accumStep (lateTurns.take 1) construct = some (outs, s) ∧
      lateTurns.drop 1 = [i] ∧ accumStep s i = some (o, s') ∧ notices s i = [] ∧
      (s.accumMap.lookup (sampleSeg 0 0x20 1 1 5 7).guid).map (fun a => a.expired 60000) = some true ∧
      (s'.accumMap.lookup (sampleSeg 0 0x20 1 1 5 7).guid).isSome = true :=
  ⟨_, _, _, _, _, rfl, rfl, rfl, rfl, by decide, by decide⟩

end CodePort
