/-
The segment accumulator.

An accumulator collects the segments of one message in whatever order they arrive, keeps them
sorted by fragment number, and learns how many there are from the one that carries both flags.

Main definitions:

* `CodePort.SegPtr` — a segment at an address;
* `CodePort.IpcAccum` — the class;
* `CodePort.MessageSet` — the segments of one message, in any order;
* `CodePort.IpcAccum.Holds` — an accumulator has received a list of segments.

Main results:

* `CodePort.IpcAccum.Holds.submitSegment` — what a submission changes;
* `CodePort.IpcAccum.Holds.complete_iff` — **a message is complete when nothing of it is missing**;
* `CodePort.IpcAccum.Holds.messageGet` — **the segments come out in the order of their fragment
  numbers**.
-/

import CodePort.IpcSegment
import CodePort.StableInsert
import Mathlib.Data.List.Range

set_option relaxedAutoImplicit false
set_option autoImplicit false

namespace CodePort

open StableInsert IpcSegment

/-- A segment at an address.  Two segments at two addresses may have the same contents. -/
structure SegPtr where
  addr : ℕ
  seg : IpcSegment
  deriving DecidableEq

/-- The fragment number of the segment at an address. -/
def SegPtr.fragNum (p : SegPtr) : ℕ := p.seg.fragNum

/-- The segment carries the flag of a message of several segments. -/
def SegPtr.multipart (p : SegPtr) : Bool := decide (p.seg.options &&& optMultipart ≠ 0)

/-- The segment carries the flag of the highest numbered segment. -/
def SegPtr.initial (p : SegPtr) : Bool := decide (p.seg.options &&& optInitial ≠ 0)

/-- The accumulation timeout, in milliseconds. -/
def ipcAccumulatorTimeout : ℕ := 60000

/-- The segment accumulator class. -/
structure IpcAccum where
  /-- Accumulation expiration time. -/
  timeout : ℕ
  /-- Total number of segments in this message. -/
  total : ℕ
  /-- Number of segments received. -/
  received : ℕ
  /-- The segment list. -/
  list : List SegPtr

namespace IpcAccum

/-- The constructor, at time `now`. -/
def construct (now : ℕ) : IpcAccum := ⟨now + ipcAccumulatorTimeout, 0, 0, []⟩

/-- Submit a segment for accumulation.  It is put immediately before a higher fragment number. -/
def submitSegment (a : IpcAccum) (p : SegPtr) : IpcAccum :=
  { a with
    received := (a.received + 1) % 2 ^ 32
    -- check if this is the highest numbered segment
    total := if p.multipart && p.initial then p.fragNum else a.total
    list := insertByKey SegPtr.fragNum p a.list }

/-- Submit segments one after another. -/
def submitAll (a : IpcAccum) (l : List SegPtr) : IpcAccum := l.foldl submitSegment a

/-- Get the received set of segments. -/
def messageGet (a : IpcAccum) : List SegPtr × IpcAccum := (a.list, { a with list := [] })

/-- Return true if all message segments received. -/
def complete (a : IpcAccum) : Bool :=
  !a.list.isEmpty && decide (0 < a.total) && decide (a.total = a.received)

/-- Returns true if this accumulator has expired. -/
def expired (a : IpcAccum) (now : ℕ) : Bool := decide (a.timeout ≤ now)

/-- Resets the accumulation timeout. -/
def resetTimeout (a : IpcAccum) (now milliSecs : ℕ) : IpcAccum :=
  { a with timeout := now + milliSecs }

end IpcAccum

/-! ### The segments of a message -/

/-- The segments of one message of `n` fragments, in any order. -/
structure MessageSet (l : List SegPtr) (n : ℕ) : Prop where
  numbers : (l.map SegPtr.fragNum).Perm (List.range' 1 n)
  multipart : ∀ p ∈ l, p.multipart = true
  initial : ∀ p ∈ l, (p.initial = true ↔ p.fragNum = n)

theorem readUint16B_lt (l : List UInt8) : readUint16B l < 2 ^ 16 := by
  have h := Octets.ofBE_lt (l.takeD 2 0)
  rw [List.takeD_length] at h
  exact h

namespace MessageSet

variable {l : List SegPtr} {n : ℕ}

theorem length_eq (h : MessageSet l n) : l.length = n := by
  have := h.numbers.length_eq
  rwa [List.length_map, List.length_range'] at this

theorem perm (h : MessageSet l n) {l' : List SegPtr} (hp : l.Perm l') : MessageSet l' n where
  numbers := (hp.map _).symm.trans h.numbers
  multipart := fun p hp' => h.multipart p (hp.mem_iff.2 hp')
  initial := fun p hp' => h.initial p (hp.mem_iff.2 hp')

/-- A fragment number is a shortword, so a message has fewer than 2^16 segments. -/
theorem lt (h : MessageSet l n) : n < 2 ^ 16 := by
  rcases Nat.eq_zero_or_pos n with rfl | hn
  · decide
  · have hmem : n ∈ l.map SegPtr.fragNum := by
      rw [h.numbers.mem_iff, List.mem_range'_1]
      omega
    obtain ⟨p, -, hp⟩ := List.mem_map.1 hmem
    rw [← hp]
    exact readUint16B_lt _

theorem nodup (h : MessageSet l n) : (l.map SegPtr.fragNum).Nodup :=
  h.numbers.nodup_iff.2 List.nodup_range'

end MessageSet

/-! ### What an accumulator has received -/

namespace IpcAccum

/-- The accumulator has received the segments `l` of a message of `n` fragments. -/
structure Holds (n : ℕ) (a : IpcAccum) (l : List SegPtr) : Prop where
  list_eq : a.list = insertAll SegPtr.fragNum l
  received_eq : a.received = l.length % 2 ^ 32
  total_eq : a.total = if n ∈ l.map SegPtr.fragNum then n else 0

theorem holds_construct (n now : ℕ) : Holds n (construct now) [] :=
  ⟨rfl, rfl, by simp [construct]⟩

variable {n : ℕ} {a : IpcAccum} {l : List SegPtr}

/-- **What a submission changes.** -/
theorem Holds.submitSegment (h : Holds n a l) {p : SegPtr} (hm : p.multipart = true)
    (hi : p.initial = true ↔ p.fragNum = n) : Holds n (a.submitSegment p) (l ++ [p]) where
  list_eq := by rw [insertAll_concat, ← h.list_eq]; rfl
  received_eq := by
    rw [List.length_append, List.length_singleton, Nat.add_mod, ← h.received_eq]
    simp [IpcAccum.submitSegment, Nat.add_mod]
  total_eq := by
    have htotal : (a.submitSegment p).total = if p.multipart && p.initial then p.fragNum
        else a.total := rfl
    rw [htotal, hm, Bool.true_and, h.total_eq, List.map_append, List.map_singleton]
    by_cases hp : p.fragNum = n
    · rw [if_pos (hi.2 hp), if_pos (by simp [hp]), hp]
    · rw [if_neg (fun hc => hp (hi.1 hc))]
      simp only [List.mem_append, List.mem_singleton, Ne.symm hp, or_false]

theorem Holds.resetTimeout (h : Holds n a l) (now ms : ℕ) : Holds n (a.resetTimeout now ms) l :=
  ⟨h.list_eq, h.received_eq, h.total_eq⟩

/-- **A message is complete when nothing of it is missing.** -/
theorem Holds.complete_iff (h : Holds n a l) {rest : List SegPtr} (hset : MessageSet (l ++ rest) n)
    (hl : l ≠ []) : a.complete = true ↔ rest = [] := by
  have hlen := hset.length_eq
  have hlt := hset.lt
  rw [List.length_append] at hlen
  have hpos := List.length_pos_iff.2 hl
  have hrecv : a.received = l.length := by
    rw [h.received_eq, Nat.mod_eq_of_lt (by omega)]
  have hlist : a.list ≠ [] := by
    rw [h.list_eq]
    intro hc
    have := (perm_insertAll SegPtr.fragNum l).length_eq
    rw [hc, List.length_nil] at this
    omega
  have hempty : a.list.isEmpty = false := by
    cases hc : a.list with
    | nil => exact absurd hc hlist
    | cons => rfl
  rw [complete, hempty, hrecv, h.total_eq]
  simp only [Bool.not_false, Bool.true_and, Bool.and_eq_true, decide_eq_true_eq]
  constructor
  · rintro ⟨h0, heq⟩
    split_ifs at h0 heq with hn
    · exact List.length_eq_zero_iff.1 (by omega)
    · omega
  · rintro rfl
    rw [List.append_nil] at hset
    have hn : n ∈ l.map SegPtr.fragNum := by
      rw [hset.numbers.mem_iff, List.mem_range'_1]
      omega
    rw [if_pos hn]
    rw [List.length_nil] at hlen
    omega

/-- Segments numbered from one on end up in the order of their numbers. -/
theorem map_fragNum_insertAll (h : (l.map SegPtr.fragNum).Perm (List.range' 1 n)) :
    (insertAll SegPtr.fragNum l).map SegPtr.fragNum = List.range' 1 n := by
  have hsorted : ((insertAll SegPtr.fragNum l).map SegPtr.fragNum).Pairwise (· ≤ ·) := by
    rw [List.pairwise_map]
    exact pairwise_insertAll _ _
  have hperm := ((perm_insertAll SegPtr.fragNum l).map SegPtr.fragNum).trans h
  exact hperm.eq_of_pairwise (fun _ _ _ _ hab hba => le_antisymm hab hba) hsorted
    List.pairwise_le_range'

/-- **The segments come out in the order of their fragment numbers.** -/
theorem Holds.messageGet (h : Holds n a l) (hset : MessageSet l n) :
    a.messageGet.1.Perm l ∧ a.messageGet.1.map SegPtr.fragNum = List.range' 1 n := by
  change a.list.Perm l ∧ a.list.map SegPtr.fragNum = List.range' 1 n
  rw [h.list_eq]
  exact ⟨perm_insertAll _ _, map_fragNum_insertAll hset.numbers⟩

/-- An accumulator after the submission of a list of segments of one message. -/
theorem holds_submitAll (now : ℕ) (hl : ∀ p ∈ l, p.multipart = true ∧
    (p.initial = true ↔ p.fragNum = n)) : Holds n ((construct now).submitAll l) l := by
  induction l using List.reverseRecOn with
  | nil => exact holds_construct n now
  | append_singleton l p ih =>
      have hp := hl p (by simp)
      have hrec := ih fun q hq => hl q (List.mem_append_left _ hq)
      rw [submitAll, List.foldl_append]
      exact hrec.submitSegment hp.1 hp.2

/-- An accumulator lists its segments whatever their flags are. -/
theorem list_submitAll (now : ℕ) (l : List SegPtr) :
    ((construct now).submitAll l).list = insertAll SegPtr.fragNum l := by
  induction l using List.reverseRecOn with
  | nil => rfl
  | append_singleton l p ih =>
      rw [submitAll, List.foldl_append, insertAll_concat, ← ih]
      rfl

end IpcAccum

end CodePort
