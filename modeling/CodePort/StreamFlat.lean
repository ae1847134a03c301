/-
The stream base class refines a sequence with a cursor.

`CodePort.LawfulBlockStore` says what a derived class owes `StreamBase`: its blocks are a list, a
write stays inside the block it names, and adding memory appends blocks, of which the last one is
needed.  Under these laws every
member function of `StreamBase` does what the operation of the same meaning does on
`FlatStream`, whatever the sizes of the blocks.

Main definitions:

* `CodePort.LawfulBlockStore` — the laws, for stores whose memory never runs out;
* `CodePort.StreamBase.Wf` — the invariant of the four position members;
* `CodePort.StreamBase.octets` — the octets of a stream;
* `CodePort.StreamBase.Represents` — a stream stands for a sequence with a cursor.

Main results:

* `CodePort.StreamBase.Represents.arrayRd`, `arrayWr`, `seek`, `clear` — **the operations
  commute with the representation**;
* `CodePort.StreamBase.Represents.pos`, `lenGet`, `readable` — so do the observers;
* `CodePort.StreamBase.WrDone.noSpare` — **a write allocates no block that it does not use**.
-/

import CodePort.StreamBase
import CodePort.FlatStream

set_option relaxedAutoImplicit false
set_option autoImplicit false

namespace CodePort

open BlockStore BlockList

/-- What a class derived from `StreamBase` owes it, as long as memory does not run out. -/
class LawfulBlockStore (β : Type) [BlockStore β] where
  /-- The memory blocks of the store. -/
  blocks : β → List (List UInt8)
  /-- The store is well formed and its memory will not run out. -/
  Ready : β → Prop
  length_pos : ∀ {b : β}, Ready b → ∀ x ∈ blocks b, 0 < x.length
  memoryChk_eq : ∀ {b : β}, Ready b → memoryChk b = decide (blocks b ≠ [])
  validBlock_eq : ∀ {b : β}, Ready b → ∀ k, validBlock b k = decide (k < (blocks b).length)
  blockSize_eq : ∀ {b : β}, Ready b → ∀ (k : ℕ) (hk : k < (blocks b).length),
    blockSize b k = (blocks b)[k].length
  blockMemPtr_eq : ∀ {b : β}, Ready b → ∀ (k : ℕ) (hk : k < (blocks b).length),
    ∃ tail, blockMemPtr b k = some ((blocks b)[k] ++ tail)
  ready_memWr : ∀ {b : β}, Ready b → ∀ (k off : ℕ) (d : List UInt8)
    (hk : k < (blocks b).length), off + d.length ≤ (blocks b)[k].length →
      Ready (blockMemWr b k off d)
  blocks_memWr : ∀ {b : β}, Ready b → ∀ (k off : ℕ) (d : List UInt8)
    (hk : k < (blocks b).length), off + d.length ≤ (blocks b)[k].length →
      blocks (blockMemWr b k off d) = (blocks b).set k (overwrite (blocks b)[k] off d)
  memoryAdd_eq : ∀ {b : β}, Ready b → ∀ n, 0 < n →
    ∃ b' new, memoryAdd b n = (true, b') ∧ Ready b' ∧ new ≠ [] ∧
      new.dropLast.flatten.length < n ∧ blocks b' = blocks b ++ new
  ready_memoryFree : ∀ {b : β}, Ready b → Ready (memoryFree b)
  blocks_memoryFree : ∀ {b : β}, Ready b → blocks (memoryFree b) = []

open LawfulBlockStore

namespace StreamBase

variable {β : Type} [BlockStore β] [LawfulBlockStore β]

/-- The blocks of a stream. -/
def blks (s : StreamBase β) : List (List UInt8) := blocks s.store

/-- The invariant of a stream: the end of the data lies in the last written block and not at its
start, except in the first block; the cursor does not lie behind the end. -/
structure Wf (s : StreamBase β) : Prop where
  ready : Ready s.store
  unbacked : s.blks = [] → s.lastBlock = 0 ∧ s.lastPos = 0
  lastBlock_lt : s.blks ≠ [] → s.lastBlock < s.blks.length
  lastPos_le : s.lastPos ≤ blockSize s.store s.lastBlock
  lastPos_pos : 0 < s.lastBlock → 0 < s.lastPos
  curBlock_le : s.curBlock ≤ s.lastBlock
  curPos_le : s.curBlock < s.lastBlock → s.curPos ≤ blockSize s.store s.curBlock
  curPos_le_lastPos : s.curBlock = s.lastBlock → s.curPos ≤ s.lastPos

/-- The octets of a stream. -/
def octets (s : StreamBase β) : List UInt8 := s.blks.flatten.take s.lenGet

/-! ### Positions -/

/-- The sizes of the blocks before a block add up to the index it starts at. -/
theorem sizeBefore_eq {b : β} (hb : Ready b) {n : ℕ} (hn : n ≤ (blocks b).length) :
    sizeBefore b n = start (blocks b) n := by
  induction n with
  | zero => simp [sizeBefore]
  | succ n ih =>
      rw [sizeBefore_succ, start_succ (by omega), ih (by omega), blockSize_eq hb n (by omega)]

namespace Wf

variable {s : StreamBase β}

theorem lastBlock_le (h : s.Wf) : s.lastBlock ≤ s.blks.length := by
  by_cases hb : s.blks = []
  · have := (h.unbacked hb).1; omega
  · exact (h.lastBlock_lt hb).le

/-- A stream that has something in it owns the block of its cursor. -/
theorem curBlock_lt (h : s.Wf) (hb : s.blks ≠ []) : s.curBlock < s.blks.length :=
  lt_of_le_of_lt h.curBlock_le (h.lastBlock_lt hb)

theorem pos_eq (h : s.Wf) : s.pos = start s.blks s.curBlock + s.curPos := by
  rw [pos, sizeBefore_eq h.ready (h.curBlock_le.trans h.lastBlock_le), blks]

theorem lenGet_eq (h : s.Wf) : s.lenGet = start s.blks s.lastBlock + s.lastPos := by
  rw [lenGet, sizeBefore_eq h.ready h.lastBlock_le, blks]

theorem lenGet_le (h : s.Wf) : s.lenGet ≤ s.blks.flatten.length := by
  by_cases hb : s.blks = []
  · obtain ⟨hl, hp⟩ := h.unbacked hb
    rw [h.lenGet_eq, hl, hp]; simp
  · have hlt := h.lastBlock_lt hb
    have hle := h.lastPos_le
    rw [blockSize_eq h.ready _ hlt] at hle
    rw [h.lenGet_eq]
    exact start_add_le_length hlt hle

@[simp] theorem length_octets (h : s.Wf) : s.octets.length = s.lenGet := by
  rw [octets, List.length_take]
  exact min_eq_left h.lenGet_le

/-- What is left in the current block lies inside the stream. -/
theorem pos_add_readSize_le (h : s.Wf) : s.pos + s.readSize ≤ s.lenGet := by
  rw [pos, lenGet, readSize]
  split_ifs with hlt
  · have hmono := sizeBefore_mono s.store (show s.curBlock + 1 ≤ s.lastBlock by omega)
    rw [sizeBefore_succ] at hmono
    have := h.curPos_le hlt
    omega
  · have heq : s.curBlock = s.lastBlock := le_antisymm h.curBlock_le (by omega)
    have := h.curPos_le_lastPos heq
    rw [heq]
    omega

theorem pos_le (h : s.Wf) : s.pos ≤ s.lenGet := by
  have := h.pos_add_readSize_le
  omega

/-- A stream that can be read owns blocks. -/
theorem blks_ne_nil (h : s.Wf) (hlt : s.curBlock < s.lastBlock ∨ s.curPos < s.lastPos) :
    s.blks ≠ [] := by
  intro hb
  obtain ⟨hl, hp⟩ := h.unbacked hb
  omega

/-- `Readable()` compares the position with the length. -/
theorem readable_eq (h : s.Wf) : s.readable = decide (s.pos < s.lenGet) := by
  have hchk := memoryChk_eq (b := s.store) h.ready
  have key : (s.curBlock < s.lastBlock ∨ s.curPos < s.lastPos) ↔ s.pos < s.lenGet := by
    rcases Nat.lt_or_ge s.curBlock s.lastBlock with hlt | hge
    · have hmono := sizeBefore_mono s.store (show s.curBlock + 1 ≤ s.lastBlock by omega)
      rw [sizeBefore_succ] at hmono
      have h₁ := h.curPos_le hlt
      have h₂ := h.lastPos_pos (by omega)
      simp only [hlt, true_or, true_iff, pos, lenGet]
      omega
    · have heq : s.curBlock = s.lastBlock := le_antisymm h.curBlock_le hge
      simp only [pos, lenGet, heq, lt_irrefl, false_or]
      omega
  rw [readable, hchk]
  by_cases hlt : s.curBlock < s.lastBlock ∨ s.curPos < s.lastPos
  · have hb : blocks s.store ≠ [] := h.blks_ne_nil hlt
    rcases hlt with hlt | hlt <;> simp [hb, hlt, ← key]
  · push Not at hlt
    simp [← key, hlt.1, hlt.2]

end Wf

/-! ### Reading -/

/-- One `memcpy` inside the current block reads the octets at the stream position. -/
theorem chunkOctets_eq {s : StreamBase β} (h : s.Wf) {n : ℕ} (hn : n ≤ s.readSize)
    (hn0 : 0 < n) :
    chunkOctets s.store ⟨s.curBlock, s.curPos, n⟩ = (s.octets.drop s.pos).take n := by
  have hrd := h.pos_add_readSize_le
  have hlt : s.curBlock < s.lastBlock ∨ s.curPos < s.lastPos := by
    simp only [readSize] at hn
    split_ifs at hn <;> omega
  have hb : s.curBlock < (blocks s.store).length := h.curBlock_lt (h.blks_ne_nil hlt)
  have hsize : s.curPos + n ≤ (blocks s.store)[s.curBlock].length := by
    rw [← blockSize_eq h.ready _ hb]
    simp only [readSize] at hn
    split_ifs at hn with hl
    · omega
    · have heq : s.curBlock = s.lastBlock := le_antisymm h.curBlock_le (by omega)
      have := h.lastPos_le
      rw [heq]
      omega
  obtain ⟨tail, htail⟩ := blockMemPtr_eq h.ready _ hb
  have hdrop : (((blocks s.store)[s.curBlock] ++ tail).drop s.curPos).takeD n 0 =
      ((blocks s.store)[s.curBlock].drop s.curPos).take n := by
    rw [List.takeD_eq_take, List.drop_append_of_le_length (by omega),
      List.take_append_of_le_length (by simp; omega)]
    simp only [List.length_drop, List.length_append]
    omega
  simp only [chunkOctets, htail]
  rw [hdrop, take_drop_flatten hb hsize, octets, List.drop_take, List.take_take,
    Nat.min_eq_left (by omega), h.pos_eq, blks]

/-- The loop of `ArrayRd` copies the octets at the stream position and moves the cursor behind
them. -/
theorem arrayRdLoop_spec (s : StreamBase β) (left : ℕ) (h : s.Wf) :
    (s.arrayRdLoop left).1.flatMap (chunkOctets s.store) = (s.octets.drop s.pos).take left ∧
      (s.arrayRdLoop left).2.Wf ∧ (s.arrayRdLoop left).2.store = s.store ∧
      (s.arrayRdLoop left).2.lastBlock = s.lastBlock ∧
      (s.arrayRdLoop left).2.lastPos = s.lastPos ∧
      (s.arrayRdLoop left).2.pos = s.pos + min left (s.lenGet - s.pos) := by
  induction s, left using arrayRdLoop.induct with
  | case1 s => rw [arrayRdLoop]; simp [h]
  | case2 s left h0 hrs hnull =>
      -- the current block has an address
      exfalso
      have hlt : s.curBlock < s.lastBlock ∨ s.curPos < s.lastPos := by
        simp only [readSize] at hrs
        split_ifs at hrs <;> omega
      obtain ⟨tail, htail⟩ := blockMemPtr_eq h.ready _ (h.curBlock_lt (h.blks_ne_nil hlt))
      rw [htail] at hnull
      exact absurd hnull (by simp)
  | case3 s left h0 hrs mem hmem n ih =>
      have hn : n ≤ s.readSize := min_le_left _ _
      have hn0 : 0 < n := lt_min hrs (Nat.pos_of_ne_zero h0)
      have hrd := h.pos_add_readSize_le
      have hwf : ({ s with curPos := s.curPos + n } : StreamBase β).Wf := by
        refine { h with curPos_le := fun hlt => ?_, curPos_le_lastPos := fun heq => ?_ }
        · simp only [readSize, if_pos (show s.curBlock < s.lastBlock from hlt)] at hn
          have := h.curPos_le hlt
          simp only
          omega
        · have hnlt : ¬ s.curBlock < s.lastBlock := by
            have : s.curBlock = s.lastBlock := heq
            omega
          simp only [readSize, if_neg hnlt] at hn
          have := h.curPos_le_lastPos heq
          simp only
          omega
      have hpos : ({ s with curPos := s.curPos + n } : StreamBase β).pos = s.pos + n := by
        simp only [pos]; omega
      obtain ⟨hd, hw, hs, hlb, hlp, hp⟩ := ih hwf
      rw [arrayRdLoop, if_neg h0, if_pos hrs, hmem]
      refine ⟨?_, hw, hs, hlb, hlp, ?_⟩
      · simp only [List.flatMap_cons]
        rw [show min s.readSize left = n from rfl, hd, hpos, chunkOctets_eq h hn hn0]
        have hoct : ({ s with curPos := s.curPos + n } : StreamBase β).octets = s.octets := rfl
        have hle : n ≤ left := min_le_right _ _
        rw [hoct, ← List.drop_drop, ← List.take_add, Nat.add_sub_cancel' hle]
      · show ({ s with curPos := s.curPos + n } : StreamBase β).arrayRdLoop (left - n) |>.2.pos = _
        rw [hp, hpos]
        have hlen : ({ s with curPos := s.curPos + n } : StreamBase β).lenGet = s.lenGet := rfl
        have hle : n ≤ left := min_le_right _ _
        rw [hlen]
        omega
  | case4 s left h0 hrs hlt ih =>
      have hwf : ({ s with curBlock := s.curBlock + 1, curPos := 0 } : StreamBase β).Wf :=
        { h with
          curBlock_le := hlt
          curPos_le := fun _ => Nat.zero_le _
          curPos_le_lastPos := fun _ => Nat.zero_le _ }
      have hpos : ({ s with curBlock := s.curBlock + 1, curPos := 0 } : StreamBase β).pos =
          s.pos := by
        have := h.curPos_le hlt
        simp only [readSize, if_pos hlt] at hrs
        simp only [pos, sizeBefore_succ]
        omega
      obtain ⟨hd, hw, hs, hlb, hlp, hp⟩ := ih hwf
      rw [arrayRdLoop, if_neg h0, if_neg hrs, if_pos hlt]
      rw [hpos] at hd hp
      exact ⟨hd, hw, hs, hlb, hlp, hp⟩
  | case5 s left h0 hrs hlt =>
      have heq : s.curBlock = s.lastBlock := le_antisymm h.curBlock_le (by omega)
      have hend : s.lenGet ≤ s.pos := by
        simp only [readSize, if_neg hlt] at hrs
        simp only [lenGet, pos, heq]
        omega
      rw [arrayRdLoop, if_neg h0, if_neg hrs, if_neg hlt]
      refine ⟨?_, h, rfl, rfl, rfl, by simp only; omega⟩
      rw [List.drop_eq_nil_of_le (by rw [h.length_octets]; exact hend)]
      simp

/-! ### Writing -/

/-- Where the write loop can stand: inside a block, or just behind its last octet. -/
structure WrInv (s : StreamBase β) : Prop where
  ready : Ready s.store
  curBlock_lt : s.curBlock < s.blks.length
  curPos_le : s.curPos ≤ blockSize s.store s.curBlock

theorem WrInv.pos_eq {s : StreamBase β} (h : s.WrInv) :
    s.pos = start s.blks s.curBlock + s.curPos := by
  rw [pos, sizeBefore_eq h.ready h.curBlock_lt.le, blks]

/-- What the write loop has done when it has stored `d` and stopped at `s'`: it has appended blocks
and overwritten the octets at its position. -/
structure WrDone (s s' : StreamBase β) (d : List UInt8) : Prop where
  inv : s'.WrInv
  lastBlock_eq : s'.lastBlock = s.lastBlock
  lastPos_eq : s'.lastPos = s.lastPos
  blks_eq : ∃ extra, s'.blks.map List.length = (s.blks ++ extra).map List.length ∧
    s'.blks.flatten = overwrite (s.blks ++ extra).flatten s.pos d
  pos_eq : s'.pos = s.pos + d.length
  curPos_pos : d ≠ [] → 0 < s'.curPos
  curBlock_le : s.curBlock ≤ s'.curBlock
  last_needed : s'.blks.length = s.blks.length ∨ start s'.blks (s'.blks.length - 1) < s'.pos

/-- Blocks keep their places while the stream is written. -/
theorem WrDone.start_eq {s s' : StreamBase β} {d : List UInt8} (h : s.WrDone s' d) {k : ℕ}
    (hk : k ≤ s.blks.length) : start s'.blks k = start s.blks k := by
  obtain ⟨extra, hmap, -⟩ := h.blks_eq
  rw [start, hmap, ← start, start_append hk]

/-- Nothing left to store. -/
theorem WrDone.refl {s : StreamBase β} (h : s.WrInv) : s.WrDone s [] :=
  ⟨h, rfl, rfl, ⟨[], by simp, by simp⟩, by simp, by simp, le_rfl, Or.inl rfl⟩

/-- The stream after one `memcpy` of `ArrayWr`. -/
def wrBlock (s : StreamBase β) (d : List UInt8) : StreamBase β :=
  { s with store := blockMemWr s.store s.curBlock s.curPos d, curPos := s.curPos + d.length }

/-- One `memcpy` of `ArrayWr` overwrites the octets at the stream position. -/
theorem WrInv.wrBlock {s : StreamBase β} (h : s.WrInv) {d : List UInt8}
    (hd : s.curPos + d.length ≤ blockSize s.store s.curBlock) :
    (s.wrBlock d).WrInv ∧
      (s.wrBlock d).blks.map List.length = s.blks.map List.length ∧
      (s.wrBlock d).blks.flatten = overwrite s.blks.flatten s.pos d ∧
      (s.wrBlock d).pos = s.pos + d.length := by
  have hk : s.curBlock < (blocks s.store).length := h.curBlock_lt
  rw [blockSize_eq h.ready _ hk] at hd
  have hblks : (s.wrBlock d).blks = s.blks.set s.curBlock (overwrite (blocks s.store)[s.curBlock]
      s.curPos d) := blocks_memWr h.ready _ _ _ hk hd
  have hready : Ready (s.wrBlock d).store := ready_memWr h.ready _ _ _ hk hd
  have hlen : (overwrite (blocks s.store)[s.curBlock] s.curPos d).length =
      (blocks s.store)[s.curBlock].length := length_overwrite_of_le hd
  have hmap : (s.wrBlock d).blks.map List.length = s.blks.map List.length := by
    rw [hblks]
    exact map_length_set hk hlen
  have hlt : (s.wrBlock d).curBlock < (s.wrBlock d).blks.length := by
    rw [hblks, List.length_set]; exact hk
  have hsize : blockSize (s.wrBlock d).store (s.wrBlock d).curBlock =
      (blocks s.store)[s.curBlock].length := by
    rw [blockSize_eq hready _ hlt, ← hlen]
    exact congrArg List.length ((List.getElem_of_eq hblks hlt).trans (List.getElem_set_self _))
  have hinv : (s.wrBlock d).WrInv := ⟨hready, hlt, by rw [hsize]; exact hd⟩
  refine ⟨hinv, hmap, ?_, ?_⟩
  · rw [hblks, h.pos_eq]
    exact flatten_set_overwrite hk hd
  · rw [hinv.pos_eq, h.pos_eq, start, hmap, Nat.add_assoc]
    rfl

/-- The write loop from a position with room in its block, by storing one piece and going on. -/
theorem arrayWrLoop_room {buf : List UInt8} {s : StreamBase β} {nw left : ℕ} (h : s.WrInv)
    (hroom : s.curPos < blockSize s.store s.curBlock) (hleft : 0 < left)
    (hbuf : nw + left = buf.length)
    (ih : ∀ m < left, ∀ (t : StreamBase β) (n : ℕ), t.WrInv → n + m = buf.length →
      ∃ t', arrayWrLoop buf t n m = some (buf.length, t') ∧ t.WrDone t' (buf.drop n)) :
    ∃ s', arrayWrLoop buf s nw left = some (buf.length, s') ∧ s.WrDone s' (buf.drop nw) := by
  set n := min (blockSize s.store s.curBlock - s.curPos) left with hn
  set d := (buf.drop nw).take n with hd
  have hn0 : 0 < n := lt_min (by omega) hleft
  have hdlen : d.length = n := by
    rw [hd, List.length_take, List.length_drop]
    omega
  obtain ⟨hinv, hmap, hflat, hpos⟩ := h.wrBlock (d := d) (by omega)
  obtain ⟨t', hrun, hdone⟩ := ih (left - n) (by omega) (s.wrBlock d) (nw + n) hinv (by omega)
  obtain ⟨tail, htail⟩ := blockMemPtr_eq h.ready _ h.curBlock_lt
  obtain ⟨extra, hmap', hflat'⟩ := hdone.blks_eq
  have hrest : d ++ buf.drop (nw + n) = buf.drop nw := by
    rw [hd, ← List.drop_drop, List.take_append_drop]
  have hblks : (s.wrBlock d).blks.length = s.blks.length := by
    simpa using congrArg List.length hmap
  refine ⟨t', ?_, hdone.inv, hdone.lastBlock_eq, hdone.lastPos_eq, ⟨extra, ?_, ?_⟩, ?_, ?_, ?_,
    by rw [← hblks]; exact hdone.last_needed⟩
  · rw [arrayWrLoop, if_neg (by omega), if_pos hroom]
    simp only [htail]
    rw [← hrun, wrBlock, hdlen]
  · rw [hmap', List.map_append, List.map_append, hmap]
  · -- the piece stored first, then the rest behind it
    have hin : s.pos + d.length ≤ s.blks.flatten.length := by
      rw [← hpos, hinv.pos_eq, start, hmap, ← start]
      have := hinv.curPos_le
      rw [blockSize_eq hinv.ready _ hinv.curBlock_lt] at this
      have hlt : (s.wrBlock d).curBlock < (s.wrBlock d).blks.length := hinv.curBlock_lt
      have hle := start_add_le_length hlt this
      have hsame : (s.wrBlock d).blks.flatten.length = s.blks.flatten.length := by
        rw [List.length_flatten, hmap, List.length_flatten]
      rw [hsame, start, hmap, ← start] at hle
      exact hle
    have hle : s.pos ≤ (s.blks.flatten ++ extra.flatten).length := by
      rw [List.length_append]
      omega
    rw [hflat', List.flatten_append, List.flatten_append, hflat, hpos,
      ← overwrite_append_left hin, overwrite_overwrite hle, hrest]
  · rw [hdone.pos_eq, hpos, ← hrest, List.length_append]
    omega
  · intro _
    by_cases hne : buf.drop (nw + n) = []
    · -- the loop stops right here
      have hz : left - n = 0 := by
        have := congrArg List.length hne
        rw [List.length_drop, List.length_nil] at this
        omega
      rw [hz, arrayWrLoop, if_pos rfl, Option.some_inj, Prod.mk.injEq] at hrun
      rw [← hrun.2, wrBlock, hdlen]
      simp only
      omega
    · exact hdone.curPos_pos hne
  · exact hdone.curBlock_le

/-- The write loop without room in its block moves to the next block, which it allocates when there
is none. -/
theorem arrayWrLoop_next {buf : List UInt8} {s : StreamBase β} {nw left : ℕ} (h : s.WrInv)
    (hroom : ¬ s.curPos < blockSize s.store s.curBlock) (hleft : 0 < left) :
    ∃ t new, t.WrInv ∧ t.curPos < blockSize t.store t.curBlock ∧
      arrayWrLoop buf s nw left = arrayWrLoop buf t nw left ∧
      t.blks = s.blks ++ new ∧ t.pos = s.pos ∧ t.lastBlock = s.lastBlock ∧
      t.lastPos = s.lastPos ∧ s.curBlock ≤ t.curBlock ∧
      (new = [] ∨ start t.blks (t.blks.length - 1) < t.pos + left) := by
  have hlt := h.curBlock_lt
  have hfull : s.curPos = blockSize s.store s.curBlock := le_antisymm h.curPos_le (by omega)
  -- a cursor behind its block stands at the start of the next one
  have hstart : s.pos = start s.blks (s.curBlock + 1) := by
    rw [h.pos_eq, start_succ hlt, hfull, blockSize_eq h.ready _ hlt]
    rfl
  have hvalid := validBlock_eq h.ready (s.curBlock + 1)
  by_cases hv : s.curBlock + 1 < (blocks s.store).length
  · set t : StreamBase β := { s with curBlock := s.curBlock + 1, curPos := 0 } with ht
    have hinv : t.WrInv := ⟨h.ready, hv, Nat.zero_le _⟩
    refine ⟨t, [], hinv, ?_, ?_, by simp [ht, blks], ?_, rfl, rfl, Nat.le_succ _,
      Or.inl rfl⟩
    · show 0 < blockSize s.store (s.curBlock + 1)
      rw [blockSize_eq h.ready _ hv]
      exact length_pos h.ready _ (List.getElem_mem _)
    · rw [arrayWrLoop, if_neg (by omega), if_neg hroom, hvalid, if_pos (by simpa using hv)]
    · rw [hinv.pos_eq, hstart]; rfl
  · obtain ⟨b', new, hadd, hready, hnew, hneed, hblks⟩ := memoryAdd_eq h.ready left hleft
    set t : StreamBase β := { s with store := b', curBlock := s.curBlock + 1, curPos := 0 } with ht
    have hlen : s.curBlock + 1 = s.blks.length := by
      show s.curBlock + 1 = (blocks s.store).length
      exact le_antisymm hlt (by omega)
    have hlt' : t.curBlock < (blocks t.store).length := by
      show s.curBlock + 1 < (blocks b').length
      rw [hblks, List.length_append, hlen]
      have := List.length_pos_iff.2 hnew
      exact Nat.lt_add_of_pos_right this
    have hinv : t.WrInv := ⟨hready, hlt', Nat.zero_le _⟩
    have hpos : t.pos = start s.blks s.blks.length := by
      rw [hinv.pos_eq, ← hlen]
      show start (blocks b') (s.curBlock + 1) + 0 = _
      rw [hblks]
      exact start_append hlen.le new
    refine ⟨t, new, hinv, ?_, ?_, hblks, by rw [hpos, hstart, hlen], rfl, rfl, Nat.le_succ _,
      Or.inr ?_⟩
    · show 0 < blockSize t.store t.curBlock
      rw [blockSize_eq hready _ hlt']
      exact length_pos hready _ (List.getElem_mem _)
    · rw [arrayWrLoop, if_neg (by omega), if_neg hroom, hvalid, if_neg (by simpa using hv), hadd]
    · -- all the new blocks but the last one would not have been enough
      rw [show t.blks = s.blks ++ new from hblks, start_append_last s.blks hnew, hpos]
      omega

/-- **The write loop** stores everything that is left, whatever the sizes of the blocks. -/
theorem arrayWrLoop_spec (buf : List UInt8) (left : ℕ) :
    ∀ (s : StreamBase β) (nw : ℕ), s.WrInv → nw + left = buf.length →
      ∃ s', arrayWrLoop buf s nw left = some (buf.length, s') ∧ s.WrDone s' (buf.drop nw) := by
  induction left using Nat.strong_induction_on with
  | _ left ih =>
      intro s nw h hbuf
      rcases Nat.eq_zero_or_pos left with rfl | hleft
      · refine ⟨s, ?_, ?_⟩
        · rw [arrayWrLoop, if_pos rfl, ← hbuf, Nat.add_zero]
        · rw [List.drop_eq_nil_of_le (by omega)]
          exact WrDone.refl h
      · by_cases hroom : s.curPos < blockSize s.store s.curBlock
        · exact arrayWrLoop_room h hroom hleft hbuf ih
        · obtain ⟨t, new, hinv, hroom', hrun, hblks, hpos, hlb, hlp, hcur, hneed⟩ :=
            arrayWrLoop_next h hroom hleft
          obtain ⟨t', hrun', hdone⟩ := arrayWrLoop_room hinv hroom' hleft hbuf ih
          obtain ⟨extra, hmap, hflat⟩ := hdone.blks_eq
          refine ⟨t', hrun.trans hrun', hdone.inv, hdone.lastBlock_eq.trans hlb,
            hdone.lastPos_eq.trans hlp, ⟨new ++ extra, ?_, ?_⟩, ?_, hdone.curPos_pos,
            hcur.trans hdone.curBlock_le, ?_⟩
          · rw [hmap, hblks, List.append_assoc]
          · rw [hflat, hblks, List.append_assoc, hpos]
          · rw [hdone.pos_eq, hpos]
          · rcases hdone.last_needed with hsame | hlt
            · rcases hneed with rfl | hlt
              · left
                rw [hsame, hblks, List.append_nil]
              · right
                have hlen : t.blks.length - 1 ≤ t.blks.length := Nat.sub_le _ _
                rw [hsame, hdone.start_eq hlen, hdone.pos_eq, List.length_drop]
                omega
            · exact Or.inr hlt

/-- A well-formed stream that owns blocks can be written. -/
theorem Wf.wrInv {s : StreamBase β} (h : s.Wf) (hb : s.blks ≠ []) : s.WrInv := by
  refine ⟨h.ready, h.curBlock_lt hb, ?_⟩
  rcases Nat.lt_or_ge s.curBlock s.lastBlock with hlt | hge
  · exact h.curPos_le hlt
  · have heq : s.curBlock = s.lastBlock := le_antisymm h.curBlock_le hge
    rw [heq]
    exact (h.curPos_le_lastPos heq).trans h.lastPos_le

/-- A block keeps its size while the stream is written. -/
theorem WrDone.blockSize_eq {s s' : StreamBase β} {d : List UInt8} (h : s.WrDone s' d)
    (hs : Ready s.store) {k : ℕ} (hk : k < s.blks.length) :
    blockSize s'.store k = blockSize s.store k := by
  obtain ⟨extra, hmap, -⟩ := h.blks_eq
  have hlen := congrArg List.length hmap
  simp only [List.length_map, List.length_append] at hlen
  have hk' : k < s'.blks.length := by omega
  have hget : (s'.blks.map List.length)[k]? = ((s.blks ++ extra).map List.length)[k]? := by
    rw [hmap]
  rw [List.getElem?_map, List.getElem?_map, List.getElem?_append_left hk,
    List.getElem?_eq_getElem hk', List.getElem?_eq_getElem hk, Option.map_some, Option.map_some,
    Option.some_inj] at hget
  rw [LawfulBlockStore.blockSize_eq h.inv.ready k hk', LawfulBlockStore.blockSize_eq hs k hk]
  exact hget

theorem WrDone.length_le {s s' : StreamBase β} {d : List UInt8} (h : s.WrDone s' d) :
    s.blks.length ≤ s'.blks.length := by
  obtain ⟨extra, hmap, -⟩ := h.blks_eq
  have hlen := congrArg List.length hmap
  simp only [List.length_map, List.length_append] at hlen
  omega

section AdjustLast

variable {s s' : StreamBase β} {d : List UInt8}

/-- The old end lies in the blocks that are there. -/
theorem WrDone.lastBlock_lt (hdone : s.WrDone s' d) (h : s.Wf) (hb : s.blks ≠ []) :
    s.lastBlock < s'.blks.length :=
  lt_of_lt_of_le (h.lastBlock_lt hb) hdone.length_le

theorem WrDone.blks_ne_nil (hdone : s.WrDone s' d) (h : s.Wf) (hb : s.blks ≠ []) : s'.blks ≠ [] := by
  intro hc
  have hlt := hdone.lastBlock_lt h hb
  rw [hc] at hlt
  exact absurd hlt (Nat.not_lt_zero _)

theorem WrDone.lastPos_le (hdone : s.WrDone s' d) (h : s.Wf) (hb : s.blks ≠ []) :
    s.lastPos ≤ blockSize s'.store s.lastBlock := by
  rw [hdone.blockSize_eq h.ready (h.lastBlock_lt hb)]
  exact h.lastPos_le

/-- The old length, in the new blocks. -/
theorem WrDone.lenGet_eq (hdone : s.WrDone s' d) (h : s.Wf) (hb : s.blks ≠ []) :
    s.lenGet = start s'.blks s.lastBlock + s.lastPos := by
  rw [h.lenGet_eq, hdone.start_eq (h.lastBlock_lt hb).le]

/-- The end after a write: the stream is well formed, and as long as before or up to the cursor. -/
structure Adjusted (s s' : StreamBase β) : Prop where
  wf : s'.adjustLast.Wf
  lenGet_eq : s'.adjustLast.lenGet = max s.lenGet s'.pos
  blks_eq : s'.adjustLast.blks = s'.blks
  pos_eq : s'.adjustLast.pos = s'.pos

/-- A write that ends before the last block does not move the end. -/
theorem WrDone.adjusted_of_lt (hdone : s.WrDone s' d) (h : s.Wf) (hb : s.blks ≠ [])
    (hc : s'.curBlock < s.lastBlock) : s.Adjusted s' := by
  have hlt' := hdone.lastBlock_lt h hb
  have hlb := hdone.lastBlock_eq
  have hlp := hdone.lastPos_eq
  have hadj : s'.adjustLast = s' := by
    rw [StreamBase.adjustLast, if_neg (by omega), if_neg (by omega)]
  have hwf : s'.Wf :=
    { ready := hdone.inv.ready
      unbacked := fun hn => absurd hn (hdone.blks_ne_nil h hb)
      lastBlock_lt := fun _ => by omega
      lastPos_le := by rw [hlb, hlp]; exact hdone.lastPos_le h hb
      lastPos_pos := by rw [hlb, hlp]; exact h.lastPos_pos
      curBlock_le := by omega
      curPos_le := fun _ => hdone.inv.curPos_le
      curPos_le_lastPos := fun heq => absurd heq (by omega) }
  have hle := hwf.pos_le
  have hl : s'.lenGet = s.lenGet := by rw [hwf.lenGet_eq, hlb, hlp, hdone.lenGet_eq h hb]
  refine ⟨?_, ?_, ?_, ?_⟩ <;> rw [hadj]
  · exact hwf
  · omega

/-- A write that ends in the last block moves the end up to the cursor. -/
theorem WrDone.adjusted_of_eq (hdone : s.WrDone s' d) (h : s.Wf) (hb : s.blks ≠ []) (hd : d ≠ [])
    (hc : s'.curBlock = s.lastBlock) : s.Adjusted s' := by
  have hlt' := hdone.lastBlock_lt h hb
  have hlb := hdone.lastBlock_eq
  have hlp := hdone.lastPos_eq
  have hlen := hdone.lenGet_eq h hb
  have hadj : s'.adjustLast = { s' with lastPos := max s'.lastPos s'.curPos } := by
    rw [StreamBase.adjustLast, if_neg (by omega), if_pos (by omega)]
    split_ifs with hp
    · rw [max_eq_right (by omega)]
    · rw [max_eq_left (by omega)]
  have hwf : s'.adjustLast.Wf := by
    rw [hadj]
    exact
      { ready := hdone.inv.ready
        unbacked := fun hn => absurd hn (hdone.blks_ne_nil h hb)
        lastBlock_lt := fun _ => by simp only; exact hlb ▸ hlt'
        lastPos_le := by
          simp only
          rw [hlp, hlb]
          exact max_le (hdone.lastPos_le h hb) (hc ▸ hdone.inv.curPos_le)
        lastPos_pos := fun _ => lt_max_of_lt_right (hdone.curPos_pos hd)
        curBlock_le := by simp only; omega
        curPos_le := fun hn => by simp only at hn; omega
        curPos_le_lastPos := fun _ => le_max_right _ _ }
  refine ⟨hwf, ?_, by rw [hadj]; rfl, by rw [hadj]; rfl⟩
  rw [hwf.lenGet_eq, hdone.inv.pos_eq, hlen, hadj, hc]
  simp only [hlb, hlp]
  show start s'.blks s.lastBlock + _ = _
  omega

/-- A write that ends behind the last block makes the cursor the end. -/
theorem WrDone.adjusted_of_gt (hdone : s.WrDone s' d) (h : s.Wf) (hb : s.blks ≠ []) (hd : d ≠ [])
    (hc : s.lastBlock < s'.curBlock) : s.Adjusted s' := by
  have hlt' := hdone.lastBlock_lt h hb
  have hlb := hdone.lastBlock_eq
  have hlen := hdone.lenGet_eq h hb
  have hpos' := hdone.inv.pos_eq
  have hadj : s'.adjustLast = { s' with lastBlock := s'.curBlock, lastPos := s'.curPos } := by
    rw [StreamBase.adjustLast, if_pos (by omega)]
  have hwf : s'.adjustLast.Wf := by
    rw [hadj]
    exact
      { ready := hdone.inv.ready
        unbacked := fun hn => absurd hn (hdone.blks_ne_nil h hb)
        lastBlock_lt := fun _ => hdone.inv.curBlock_lt
        lastPos_le := hdone.inv.curPos_le
        lastPos_pos := fun _ => hdone.curPos_pos hd
        curBlock_le := le_rfl
        curPos_le := fun hn => absurd hn (lt_irrefl _)
        curPos_le_lastPos := fun _ => le_rfl }
  refine ⟨hwf, ?_, by rw [hadj]; rfl, by rw [hadj]; rfl⟩
  have hle : s.lenGet ≤ s'.pos := by
    have hlast := hdone.lastPos_le h hb
    rw [LawfulBlockStore.blockSize_eq hdone.inv.ready _ hlt'] at hlast
    have := start_add_le hlt' hc hlast
    simp only [blks] at this hlen hpos' ⊢
    omega
  rw [hwf.lenGet_eq, hadj]
  show start s'.blks s'.curBlock + s'.curPos = _
  rw [← hpos']
  omega

/-- **A finished write leaves a well-formed stream** whose octets are overwritten at the position,
and lengthened when the data run past the end. -/
theorem WrDone.adjustLast (h : s.Wf) (hb : s.blks ≠ []) (hd : d ≠ []) (hdone : s.WrDone s' d) :
    s'.adjustLast.Wf ∧ s'.adjustLast.pos = s.pos + d.length ∧
      s'.adjustLast.octets = overwrite s.octets s.pos d ∧ s'.adjustLast.blks ≠ [] := by
  -- where the cursor stands relative to the old end decides what the new end is
  obtain ⟨hwf, hlen, hblks, hpos⟩ : s.Adjusted s' := by
    rcases Nat.lt_trichotomy s'.curBlock s.lastBlock with hc | hc | hc
    · exact hdone.adjusted_of_lt h hb hc
    · exact hdone.adjusted_of_eq h hb hd hc
    · exact hdone.adjusted_of_gt h hb hd hc
  obtain ⟨extra, -, hflat⟩ := hdone.blks_eq
  refine ⟨hwf, by rw [hpos, hdone.pos_eq], ?_, by rw [hblks]; exact hdone.blks_ne_nil h hb⟩
  have hle := h.lenGet_le
  rw [octets, hlen, hblks, hflat, hdone.pos_eq, take_overwrite h.pos_le (by
    rw [List.flatten_append, List.length_append]; omega), octets, List.flatten_append,
    List.take_append_of_le_length hle]

end AdjustLast

/-- No block lies behind the end of the data. -/
def NoSpare (s : StreamBase β) : Prop := s.blks.length ≤ s.lastBlock + 1

omit [BlockStore β] [LawfulBlockStore β] in
theorem lastBlock_adjustLast (s : StreamBase β) :
    s.adjustLast.lastBlock = max s.lastBlock s.curBlock := by
  rw [adjustLast]
  split_ifs with h₁ h₂
  · exact (max_eq_right h₁.le).symm
  · exact (max_eq_left h₂.ge).symm
  · exact (max_eq_left h₂.ge).symm
  · exact (max_eq_left (not_lt.1 h₁)).symm

theorem blks_adjustLast (s : StreamBase β) : s.adjustLast.blks = s.blks := by
  rw [adjustLast]
  split_ifs <;> rfl

/-- A position behind the start of the last block lies in the last block. -/
theorem WrInv.noSpare_of_lt {s : StreamBase β} (h : s.WrInv)
    (hlt : start s.blks (s.blks.length - 1) < s.pos) : s.blks.length ≤ s.curBlock + 1 := by
  by_contra hc
  have hcur := h.curPos_le
  have hk := h.curBlock_lt
  rw [LawfulBlockStore.blockSize_eq h.ready _ hk] at hcur
  have hle := start_add_le hk (show s.curBlock < s.blks.length - 1 by omega) hcur
  rw [h.pos_eq] at hlt
  exact absurd hlt (not_lt.2 hle)

/-- **A write leaves no spare block**, when there was none or the last block is needed for it. -/
theorem WrDone.noSpare {s s' : StreamBase β} {d : List UInt8} (h : s.WrDone s' d)
    (hs : s.NoSpare ∨ start s.blks (s.blks.length - 1) < s.pos + d.length) :
    s'.adjustLast.NoSpare := by
  have key : s'.blks.length ≤ s.lastBlock + 1 ∨ start s'.blks (s'.blks.length - 1) < s'.pos := by
    rcases h.last_needed with hsame | hlt
    · rcases hs with hs | hlt
      · left
        rw [hsame]
        exact hs
      · right
        rw [hsame, h.start_eq (Nat.sub_le _ _), h.pos_eq]
        exact hlt
    · exact Or.inr hlt
  rw [NoSpare, blks_adjustLast, lastBlock_adjustLast, h.lastBlock_eq]
  rcases key with hle | hlt
  · omega
  · have := h.inv.noSpare_of_lt hlt
    omega

/-! ### Seeking -/

/-- What a seek that stopped at `s'` has done: it has moved the cursor to `p`, or to the end of the
stream when that comes before `p`. -/
structure SeekDone (s s' : StreamBase β) (p : ℕ) : Prop where
  store_eq : s'.store = s.store
  lastBlock_eq : s'.lastBlock = s.lastBlock
  lastPos_eq : s'.lastPos = s.lastPos
  pos_eq : s'.pos = min p s.lenGet
  curBlock_le : s'.curBlock ≤ s.lastBlock
  curPos_le : s'.curPos ≤ s.usedSize s'.curBlock

/-- **The loop of `Seek`** from a block that does not start behind the position it looks for. -/
theorem seekLoop_spec {p : ℕ} {s₀ : StreamBase β} (h : s₀.Wf) (hb : s₀.blks ≠ []) :
    ∀ (n : ℕ) (s : StreamBase β) (i : ℕ), s₀.lastBlock - i = n → i ≤ s₀.lastBlock →
      s.store = s₀.store → s.lastBlock = s₀.lastBlock → s.lastPos = s₀.lastPos →
      sizeBefore s₀.store i ≤ p →
      (seekLoop p s i (sizeBefore s₀.store i)).1 = decide (p ≤ s₀.lenGet) ∧
        s₀.SeekDone (seekLoop p s i (sizeBefore s₀.store i)).2 p := by
  intro n
  induction n with
  | zero =>
      intro s i hn hi hst hlb hlp hip
      have heq : i = s₀.lastBlock := by omega
      subst heq
      have hused : s.usedSize s₀.lastBlock = s₀.usedSize s₀.lastBlock := by
        simp only [usedSize, hst, hlb, hlp]
      have hlast := sizeBefore_add_usedSize_last s₀
      have hvalid := validBlock_eq h.ready s₀.lastBlock
      have hvalid' := validBlock_eq h.ready (s₀.lastBlock + 1)
      have hlt : s₀.lastBlock < (blocks s₀.store).length := h.lastBlock_lt hb
      rw [seekLoop, hst, hvalid, hlb, if_pos (by simp [hlt]), hused, hlast]
      split_ifs with hp
      · exact ⟨by simp [hp], rfl, rfl, hlp, by simp only [pos]; omega, le_rfl, by
          simp only; omega⟩
      · -- the seek position lies behind the end, so the next block ends the loop
        rw [seekLoop]
        rw [if_neg (by simp)]
        exact ⟨by simp [hp], rfl, rfl, hlp, by simp only [pos]; omega, le_rfl, le_rfl⟩
  | succ n ih =>
      intro s i hn hi hst hlb hlp hip
      have hi' : i < s₀.lastBlock := by omega
      have hused : s.usedSize i = s₀.usedSize i := by simp only [usedSize, hst, hlb, hlp]
      have hnext := sizeBefore_add_usedSize hi'
      have hvalid := validBlock_eq h.ready i
      have hlt : i < (blocks s₀.store).length := lt_trans hi' (h.lastBlock_lt hb)
      have hmono := sizeBefore_mono s₀.store (show i + 1 ≤ s₀.lastBlock from hi')
      have hlen : s₀.lenGet = sizeBefore s₀.store s₀.lastBlock + s₀.lastPos := rfl
      rw [seekLoop, hst, hvalid, hlb, if_pos (by simp [hlt, hi]), hused, hnext]
      split_ifs with hp
      · exact ⟨by simp; omega, rfl, rfl, hlp, by simp only [pos]; omega, hi, by
          simp only; omega⟩
      · exact ih _ (i + 1) (by omega) (by omega) rfl rfl hlp (by omega)

theorem SeekDone.wf {s s' : StreamBase β} {p : ℕ} (h : s.Wf) (hd : s.SeekDone s' p) : s'.Wf where
  ready := by rw [hd.store_eq]; exact h.ready
  unbacked := by
    rw [blks, hd.store_eq, hd.lastBlock_eq, hd.lastPos_eq]; exact h.unbacked
  lastBlock_lt := by rw [blks, hd.store_eq, hd.lastBlock_eq]; exact h.lastBlock_lt
  lastPos_le := by rw [hd.store_eq, hd.lastBlock_eq, hd.lastPos_eq]; exact h.lastPos_le
  lastPos_pos := by rw [hd.lastBlock_eq, hd.lastPos_eq]; exact h.lastPos_pos
  curBlock_le := by rw [hd.lastBlock_eq]; exact hd.curBlock_le
  curPos_le := by
    rw [hd.store_eq, hd.lastBlock_eq]
    intro hlt
    have := hd.curPos_le
    rwa [usedSize, if_pos hlt] at this
  curPos_le_lastPos := by
    rw [hd.lastBlock_eq, hd.lastPos_eq]
    intro heq
    have := hd.curPos_le
    rwa [usedSize, if_neg (by omega)] at this

/-! ### The representation -/

/-- A stream stands for a sequence with a cursor. -/
structure Represents (s : StreamBase β) (f : FlatStream UInt8) : Prop where
  wf : s.Wf
  octets_eq : s.octets = f.content
  pos_eq : s.pos = f.pos
  backed_iff : s.blks ≠ [] ↔ f.backed = true

namespace Represents

variable {s : StreamBase β} {f : FlatStream UInt8}

theorem lenGet_eq (h : s.Represents f) : s.lenGet = f.content.length := by
  rw [← h.wf.length_octets, h.octets_eq]

theorem readable_eq (h : s.Represents f) : s.readable = f.readable := by
  rw [h.wf.readable_eq, FlatStream.readable, h.pos_eq, h.lenGet_eq]

/-- **`ArrayRd` reads the next octets.** -/
theorem arrayRd (h : s.Represents f) (len : ℕ) :
    (s.arrayRd len).1 = (f.read len).1 ∧ (s.arrayRd len).2.Represents (f.read len).2 := by
  have key : (s.arrayRd len).1 = (s.octets.drop s.pos).take len ∧ (s.arrayRd len).2.Wf ∧
      (s.arrayRd len).2.store = s.store ∧ (s.arrayRd len).2.lastBlock = s.lastBlock ∧
      (s.arrayRd len).2.lastPos = s.lastPos ∧
      (s.arrayRd len).2.pos = s.pos + min len (s.lenGet - s.pos) := by
    simp only [StreamBase.arrayRd, arrayRdChunks]
    rcases Nat.eq_zero_or_pos len with rfl | hlen
    · simp [h.wf]
    rw [if_neg (by omega)]
    by_cases hr : s.readable
    · rw [if_pos hr]
      exact arrayRdLoop_spec s len h.wf
    · have hend : s.lenGet ≤ s.pos := by simpa [h.wf.readable_eq] using hr
      rw [if_neg hr, List.drop_eq_nil_of_le (by rw [h.wf.length_octets]; exact hend)]
      exact ⟨by simp, h.wf, rfl, rfl, rfl, by simp only; omega⟩
  obtain ⟨hd, hw, hst, hlb, hlp, hp⟩ := key
  refine ⟨?_, hw, ?_, ?_, ?_⟩
  · rw [hd, h.octets_eq, h.pos_eq]; rfl
  · rw [octets, lenGet, blks, hst, hlb, hlp]
    exact h.octets_eq
  · rw [hp, h.pos_eq, h.lenGet_eq]; rfl
  · rw [blks, hst]; exact h.backed_iff

/-- **`Seek` moves the cursor**, and says whether the position was in the stream. -/
theorem seek (h : s.Represents f) (p : ℕ) :
    (s.seek p).1 = (f.seek p).1 ∧ (s.seek p).2.Represents (f.seek p).2 := by
  by_cases hb : s.blks = []
  · have hf : f.backed = false := by simpa [hb] using h.backed_iff
    have hs : s.seek p = (false, s) := by
      have hvalid : validBlock s.store 0 = false := by
        rw [validBlock_eq h.wf.ready]
        simpa [blks] using hb
      rw [StreamBase.seek, seekLoop, hvalid]
      simp
    rw [hs, FlatStream.seek, if_neg (by simp [hf])]
    exact ⟨rfl, h⟩
  · have hf : f.backed = true := h.backed_iff.1 hb
    obtain ⟨hr, hd⟩ := seekLoop_spec (p := p) h.wf hb _ s 0 rfl (Nat.zero_le _) rfl rfl rfl
      (by simp [sizeBefore])
    rw [show sizeBefore s.store 0 = 0 from rfl] at hr hd
    rw [FlatStream.seek, if_pos hf]
    refine ⟨by rw [StreamBase.seek, hr, h.lenGet_eq], hd.wf h.wf, ?_, ?_, ?_⟩
    · rw [StreamBase.seek, octets, lenGet, blks, hd.store_eq, hd.lastBlock_eq, hd.lastPos_eq]
      exact h.octets_eq
    · rw [StreamBase.seek, hd.pos_eq, h.lenGet_eq]
    · rw [StreamBase.seek, blks, hd.store_eq]; exact h.backed_iff

/-- **`Clear` empties the stream.** -/
theorem clear (h : s.Represents f) : s.clear.Represents (FlatStream.empty false) := by
  have hb : s.clear.blks = [] := blocks_memoryFree h.wf.ready
  have hwf : s.clear.Wf :=
    { ready := ready_memoryFree h.wf.ready
      unbacked := fun _ => ⟨rfl, rfl⟩
      lastBlock_lt := fun hn => absurd hb hn
      lastPos_le := Nat.zero_le _
      lastPos_pos := fun hlt => absurd hlt (lt_irrefl _)
      curBlock_le := le_rfl
      curPos_le := fun hlt => absurd hlt (lt_irrefl _)
      curPos_le_lastPos := fun _ => le_rfl }
  exact ⟨hwf, by simp [octets, hb], rfl, by simp [hb]⟩

/-- The stream on which the loop of `ArrayWr` starts: at least one block is allocated. -/
theorem arrayWr_start (h : s.Represents f) {buf : List UInt8} (hpos : 0 < buf.length) :
    ∃ t : StreamBase β,
      s.arrayWr buf = ((arrayWrLoop buf t 0 buf.length).map fun r => (r.1, r.2.adjustLast)) ∧
        t.Wf ∧ t.blks ≠ [] ∧ t.octets = s.octets ∧ t.pos = s.pos ∧
        (s.NoSpare → t.NoSpare ∨ start t.blks (t.blks.length - 1) < t.pos + buf.length) := by
  have hchk := memoryChk_eq h.wf.ready
  by_cases hb : s.blks = []
  · obtain ⟨b', new, hadd, hready, hnew, hneed, hbl⟩ := memoryAdd_eq h.wf.ready buf.length hpos
    have hbl' : blocks b' = new := by rw [hbl, show blocks s.store = [] from hb, List.nil_append]
    obtain ⟨hl, hp⟩ := h.wf.unbacked hb
    have hc : s.curBlock = 0 := by have := h.wf.curBlock_le; omega
    have hcp : s.curPos = 0 := by have := h.wf.curPos_le_lastPos (by omega); omega
    have hpos0 : ({ s with store := b' } : StreamBase β).pos = 0 := by
      simp [pos, hc, hcp, sizeBefore]
    refine ⟨{ s with store := b' }, ?_, ?_, ?_, ?_, ?_, fun _ => Or.inr ?_⟩
    · have hchk' : memoryChk s.store = false := by rw [hchk]; simpa [blks] using hb
      rw [StreamBase.arrayWr, if_neg (by omega)]
      simp only [hchk', hadd, if_true, Bool.false_eq_true, if_false]
      cases arrayWrLoop buf { s with store := b' } 0 buf.length <;> rfl
    · exact
        { ready := hready
          unbacked := fun _ => ⟨hl, hp⟩
          lastBlock_lt := fun _ => by
            show s.lastBlock < (blocks b').length
            rw [hl, hbl']
            exact List.length_pos_iff.2 hnew
          lastPos_le := by simp only [hp]; exact Nat.zero_le _
          lastPos_pos := fun hlt => absurd hlt (by simp only; omega)
          curBlock_le := h.wf.curBlock_le
          curPos_le := fun hlt => absurd hlt (by simp only; omega)
          curPos_le_lastPos := h.wf.curPos_le_lastPos }
    · show blocks b' ≠ []
      rw [hbl']
      exact hnew
    · simp [octets, lenGet, hl, hp, sizeBefore]
    · simp [pos, hc, sizeBefore]
    · have hlast := start_append_last ([] : List (List UInt8)) hnew
      rw [hpos0, show ({ s with store := b' } : StreamBase β).blks = new from hbl', Nat.zero_add]
      rw [List.nil_append, List.length_nil, start_zero, Nat.zero_add] at hlast
      omega
  · refine ⟨s, ?_, h.wf, hb, rfl, rfl, Or.inl⟩
    have hchk' : memoryChk s.store = true := by rw [hchk]; simpa [blks] using hb
    rw [StreamBase.arrayWr, if_neg (by omega)]
    simp only [hchk', if_true]
    cases arrayWrLoop buf s 0 buf.length <;> rfl

/-- **`ArrayWr` overwrites the octets at the cursor**, lengthens the stream when the data run past
its end, stores everything it is given, and allocates no block that it does not use. -/
theorem arrayWr (h : s.Represents f) (buf : List UInt8) :
    ∃ s', s.arrayWr buf = some (buf.length, s') ∧ s'.Represents (f.write buf) ∧
      (s.NoSpare → s'.NoSpare) := by
  rcases Nat.eq_zero_or_pos buf.length with h0 | hpos
  · refine ⟨s, by rw [StreamBase.arrayWr, if_pos h0, h0], ?_, id⟩
    rw [List.length_eq_zero_iff.1 h0, FlatStream.write_nil]
    exact h
  have hne : buf ≠ [] := List.length_pos_iff.1 hpos
  obtain ⟨t, hrun, hwf, hblks, hoct, htpos, hspare⟩ := h.arrayWr_start hpos
  obtain ⟨t', hloop, hdone⟩ := arrayWrLoop_spec buf buf.length t 0 (hwf.wrInv hblks) (by omega)
  rw [List.drop_zero] at hdone
  obtain ⟨hwf', hpos', hoct', hblks'⟩ := hdone.adjustLast hwf hblks hne
  obtain ⟨hcontent, hfpos, hbacked⟩ := f.write_of_ne_nil hne
  refine ⟨t'.adjustLast, by rw [hrun, hloop]; rfl, ⟨hwf', ?_, ?_, ?_⟩,
    fun hs => hdone.noSpare (hspare hs)⟩
  · rw [hoct', hoct, htpos, hcontent, h.octets_eq, h.pos_eq]
  · rw [hpos', htpos, hfpos, h.pos_eq]
  · simp [hblks', hbacked]

end Represents

end StreamBase

end CodePort
