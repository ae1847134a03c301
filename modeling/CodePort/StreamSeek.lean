/-
Seeks that start at the current position.

`Skip` and `Back` add a number of octets to the position, or take it away, in 64 bits, and seek to the
result.  When the sum has wrapped around, `Skip` seeks to the largest position there is, which lies behind
the end of every stream; but its test also takes a sum that is not larger than the position for one that
has wrapped around, and so it goes to the end when it shall not move at all.

Main definitions:

* `CodePort.StreamBase.skip`, `back` — the member functions of that name;
* `CodePort.StreamBuf.Addressable` — the blocks lie in the memory of a 64-bit machine;
* `CodePort.StreamBuf.RelativeSeeks` — what the two owe.

Main results:

* `CodePort.StreamBuf.skip_spec`, `back_spec` — **both are clamped moves**, `Skip` by at least one octet;
* `CodePort.relative_seeks_iff` — **after every series of calls, both are clamped moves if and only if
  the number of octets is not zero**.
-/

import CodePort.MemMgr
import CodePort.StreamPlaced

set_option relaxedAutoImplicit false
set_option autoImplicit false

namespace CodePort

open BlockStore

namespace StreamBase

variable {β : Type} [BlockStore β]

/-- Skips forward by the specified count. -/
def skip (s : StreamBase β) (num : UInt64) : Bool × StreamBase β :=
  let pos := UInt64.ofNat s.pos
  -- make sure size_t doesn't overflow
  if pos < pos + num then s.seek (pos + num).toNat else s.seek (-1 : UInt64).toNat

/-- Skips backward by the specified count. -/
def back (s : StreamBase β) (num : UInt64) : Bool × StreamBase β :=
  let pos := UInt64.ofNat s.pos
  -- make sure size_t doesn't underflow
  if num ≤ pos then s.seek (pos - num).toNat else (false, (s.seek 0).2)

/-- A stream in which only the cursor has moved. -/
def SameContent (s t : StreamBase β) : Prop :=
  t.store = s.store ∧ t.lastBlock = s.lastBlock ∧ t.lastPos = s.lastPos

theorem sameContent_skip (s : StreamBase β) (num : UInt64) : s.SameContent (s.skip num).2 := by
  rw [skip]
  split_ifs <;> exact seekLoop_frame _ s 0 0

theorem sameContent_back (s : StreamBase β) (num : UInt64) : s.SameContent (s.back num).2 := by
  rw [back]
  split_ifs <;> exact seekLoop_frame _ s 0 0

end StreamBase

namespace StreamBuf

open StreamBase

/-- The blocks of a stream and their headers have addresses of 64 bits. -/
def Addressable (s : StreamBuf) : Prop :=
  (s.store.vecBlocks.map fun block => MemBlock.sizeOf + block.length).sum ≤ 2 ^ 64

/-- **What `Skip` and `Back` owe**: they move the cursor by the number of octets, but not out of the stream,
they report whether it has been moved by all of them, and they leave the content as it is. -/
structure RelativeSeeks (s : StreamBuf) (num : UInt64) : Prop where
  skip_found : (s.skip num).1 = decide (s.pos + num.toNat ≤ s.lenGet)
  skip_pos : (s.skip num).2.pos = min (s.pos + num.toNat) s.lenGet
  skip_content : s.SameContent (s.skip num).2
  back_found : (s.back num).1 = decide (num.toNat ≤ s.pos)
  back_pos : (s.back num).2.pos = s.pos - num.toNat
  back_content : s.SameContent (s.back num).2

/-! ### The length of a stream -/

theorem sizeBefore_le (b : StrmBufMem) (n : ℕ) : sizeBefore b n ≤ (b.vecBlocks.map List.length).sum := by
  have hall : ∀ m, m ≤ b.vecBlocks.length → sizeBefore b m = ((b.vecBlocks.map List.length).take m).sum := by
    intro m
    induction m with
    | zero => exact fun _ => rfl
    | succ m ih =>
        intro hm
        have hblock : blockSize b m = b.vecBlocks[m].length := by
          simp only [blockSize, StrmBufMem.blockSize, List.getElem?_eq_getElem hm, Option.getD_some]
        rw [sizeBefore_succ, ih (by omega), hblock, List.take_add_one, List.sum_append, List.getElem?_map,
          List.getElem?_eq_getElem hm]
        simp
  rcases Nat.le_total n b.vecBlocks.length with hn | hn
  · refine (sizeBefore_mono b hn).trans ?_
    rw [hall _ le_rfl, List.take_of_length_le (by simp)]
  · rw [sizeBefore_of_length_le le_rfl hn, hall _ le_rfl, List.take_of_length_le (by simp)]

/-- **The length of a stream is not the largest number of 64 bits**: there is at least one header. -/
theorem lenGet_lt {s : StreamBuf} (h : s.Placed) (hb : s.store.vecBlocks ≠ []) (haddr : Addressable s) :
    s.lenGet < 2 ^ 64 - 1 := by
  have hsum : ∀ l : List (List UInt8), (l.map fun block => MemBlock.sizeOf + block.length).sum =
      MemBlock.sizeOf * l.length + (l.map List.length).sum := by
    intro l
    induction l with
    | nil => rfl
    | cons block l ih =>
        rw [List.map_cons, List.sum_cons, ih, List.map_cons, List.sum_cons, List.length_cons,
          Nat.mul_succ]
        omega
  have hle : s.lenGet ≤ (s.store.vecBlocks.map List.length).sum := by
    refine le_trans ?_ (sizeBefore_le s.store (s.lastBlock + 1))
    rw [sizeBefore_succ, lenGet]
    exact Nat.add_le_add_left h.lastPos_le _
  have hpos := List.length_pos_iff.2 hb
  rw [Addressable, hsum, MemBlock.sizeOf] at haddr
  omega

/-! ### Relative seeks -/

theorem toNat_pos {s : StreamBuf} (h : s.pos < 2 ^ 64) : (UInt64.ofNat s.pos).toNat = s.pos :=
  UInt64.toNat_ofNat_of_lt' h

/-- **`Skip` by at least one octet is a clamped move.** -/
theorem skip_spec {s : StreamBuf} (h : s.Placed) (hb : s.store.vecBlocks ≠ [])
    (hlen : s.lenGet < 2 ^ 64 - 1) {num : UInt64} (hnum : num ≠ 0) :
    (s.skip num).1 = decide (s.pos + num.toNat ≤ s.lenGet) ∧
      (s.skip num).2.pos = min (s.pos + num.toNat) s.lenGet := by
  have hpos := h.pos_le_lenGet
  have hn : num.toNat ≠ 0 := fun hzero => hnum (UInt64.toNat.inj hzero)
  have hlt := num.toNat_lt
  have hnat := toNat_pos (s := s) (by omega)
  rw [skip]
  simp only [UInt64.lt_iff_toNat_lt, UInt64.toNat_add, hnat]
  split_ifs with hfits
  · -- the sum has not wrapped around
    have hmod : (s.pos + num.toNat) % 2 ^ 64 = s.pos + num.toNat := Nat.mod_eq_of_lt (by omega)
    rw [hmod]
    exact seek_placed h hb _
  · obtain ⟨hfound, hmoved⟩ := seek_placed h hb (-1 : UInt64).toNat
    have hmax : (-1 : UInt64).toNat = 2 ^ 64 - 1 := rfl
    rw [hmax] at hfound hmoved ⊢
    refine ⟨hfound.trans ?_, hmoved.trans ?_⟩
    · rw [decide_eq_decide]
      omega
    · omega

/-- **`Skip` by no octets goes to the end, and reports a failure.** -/
theorem skip_zero {s : StreamBuf} (h : s.Placed) (hb : s.store.vecBlocks ≠ [])
    (hlen : s.lenGet < 2 ^ 64 - 1) : (s.skip 0).1 = false ∧ (s.skip 0).2.pos = s.lenGet := by
  obtain ⟨hfound, hmoved⟩ := seek_placed h hb (-1 : UInt64).toNat
  have hmax : (-1 : UInt64).toNat = 2 ^ 64 - 1 := rfl
  have hskip : s.skip 0 = s.seek (-1 : UInt64).toNat := by
    rw [skip]
    exact if_neg (by rw [UInt64.add_zero]; exact UInt64.lt_irrefl _)
  rw [hskip]
  rw [hmax] at hfound hmoved ⊢
  exact ⟨hfound.trans (decide_eq_false (by omega)), hmoved.trans (by omega)⟩

/-- **`Back` is a clamped move.** -/
theorem back_spec {s : StreamBuf} (h : s.Placed) (hb : s.store.vecBlocks ≠ [])
    (hlen : s.lenGet < 2 ^ 64 - 1) (num : UInt64) :
    (s.back num).1 = decide (num.toNat ≤ s.pos) ∧ (s.back num).2.pos = s.pos - num.toNat := by
  have hpos := h.pos_le_lenGet
  have hnat := toNat_pos (s := s) (by omega)
  rw [back]
  simp only [UInt64.le_iff_toNat_le, hnat]
  split_ifs with hfits
  · obtain ⟨hfound, hmoved⟩ := seek_placed h hb (UInt64.ofNat s.pos - num).toNat
    have hsub : (UInt64.ofNat s.pos - num).toNat = s.pos - num.toNat := by
      rw [UInt64.toNat_sub_of_le _ _ (UInt64.le_iff_toNat_le.2 (by rw [hnat]; exact hfits)), hnat]
    rw [hsub] at hfound hmoved ⊢
    refine ⟨hfound.trans ?_, hmoved.trans (by omega)⟩
    rw [decide_eq_true hfits, decide_eq_true (by omega)]
  · refine ⟨(decide_eq_false hfits).symm, (seek_placed h hb 0).2.trans ?_⟩
    omega

end StreamBuf

/-- **After every series of calls on new streams, `Skip` and `Back` are clamped moves if and only if the
number of octets is not zero**, in a stream that has a block, and whose blocks lie in the memory of a 64-bit
machine. -/
theorem relative_seeks_iff {ι : Type} [DecidableEq ι] (mem : ι → MemSource) (size : ι → ℕ)
    (ops : List (StreamOp ι)) (answers : List StreamAnswer) (w : ι → StreamBuf)
    (hrun : StepSystem.run streamStep ops (newStreams mem size) = some (answers, w)) (i : ι)
    (hblocks : (w i).store.vecBlocks ≠ []) (haddr : StreamBuf.Addressable (w i)) (num : UInt64) :
    StreamBuf.RelativeSeeks (w i) num ↔ num ≠ 0 := by
  have hplaced := placed_run hrun i
  have hlen := StreamBuf.lenGet_lt hplaced hblocks haddr
  constructor
  · rintro hseeks rfl
    have hle : (w i).pos + (0 : UInt64).toNat ≤ (w i).lenGet := hplaced.pos_le_lenGet
    have hfound := hseeks.skip_found
    rw [(StreamBuf.skip_zero hplaced hblocks hlen).1, decide_eq_true hle] at hfound
    exact Bool.false_ne_true hfound
  · intro hnum
    obtain ⟨hskip, hskipPos⟩ := StreamBuf.skip_spec hplaced hblocks hlen hnum
    obtain ⟨hback, hbackPos⟩ := StreamBuf.back_spec hplaced hblocks hlen num
    exact ⟨hskip, hskipPos, StreamBase.sameContent_skip _ _, hback, hbackPos,
      StreamBase.sameContent_back _ _⟩

open BlockStore in
/-- What fits behind the cursor in its block is written there at once. -/
theorem StreamBase.arrayWrLoop_of_room {β : Type} [BlockStore β] {s : StreamBase β}
    {buf block : List UInt8} (hbuf : 0 < buf.length) (hptr : blockMemPtr s.store s.curBlock = some block)
    (hroom : s.curPos + buf.length ≤ blockSize s.store s.curBlock) :
    s.arrayWrLoop buf 0 buf.length = some (buf.length, s.wrBlock buf) := by
  have hmin : min (blockSize s.store s.curBlock - s.curPos) buf.length = buf.length := by omega
  rw [arrayWrLoop, if_neg (by omega), if_pos (by omega)]
  simp only [hptr, hmin, List.drop_zero, List.take_length, Nat.zero_add, Nat.sub_self]
  rw [arrayWrLoop, if_pos rfl, wrBlock]

/-- A stream of three octets that has gone back to the second. -/
def sampleStream : StreamBuf :=
  { (StreamBuf.construct sampleMem 0).wrBlock [1, 2, 3] with curPos := 1, lastPos := 3 }

theorem run_sampleStream :
    StepSystem.run streamStep [.arrayWr () [1, 2, 3], .seek () 1]
      (newStreams (fun _ => sampleMem) fun _ => 0) =
        some ([.written 3, .found true], fun _ => sampleStream) := by
  have hwr : (StreamBuf.construct sampleMem 0).arrayWr [1, 2, 3] =
      some (3, { (StreamBuf.construct sampleMem 0).wrBlock [1, 2, 3] with lastPos := 3 }) := by
    have hloop := @StreamBase.arrayWrLoop_of_room _ _ (StreamBuf.construct sampleMem 0) [1, 2, 3] _
      (by decide) rfl (by decide +kernel)
    have hchk : BlockStore.memoryChk (StreamBuf.construct sampleMem 0).store = true := rfl
    rw [StreamBase.arrayWr, if_neg (by decide), hchk, if_pos rfl, if_pos rfl]
    exact congrArg (fun r => r >>= fun r => pure (r.1, r.2.adjustLast)) hloop
  have hseek : StreamBase.seek { (StreamBuf.construct sampleMem 0).wrBlock [1, 2, 3] with lastPos := 3 } 1 =
      (true, sampleStream) := by
    rw [StreamBase.seek, StreamBase.seekLoop, if_pos (by decide +kernel), if_pos (by decide +kernel)]
    rfl
  simp only [StepSystem.run, streamStep, newStreams, hwr, Option.map_some, Option.bind_some,
    Function.update_self, hseek]
  congr 2

theorem blocks_sampleStream : sampleStream.store.vecBlocks ≠ [] :=
  List.ne_nil_of_length_pos (by decide +kernel)

/-- From the second octet of three, by one octet. -/
theorem relative_seeks_iff_one : sampleStream.pos = 1 ∧ sampleStream.lenGet = 3 ∧
    (StreamBuf.RelativeSeeks sampleStream 1 ↔ (1 : UInt64) ≠ 0) := by
  refine ⟨rfl, rfl, relative_seeks_iff _ _ _ _ _ run_sampleStream () blocks_sampleStream ?_ 1⟩
  rw [StreamBuf.Addressable]
  decide +kernel

/-- A stream of three octets, in the middle: `Skip` by no octets goes to its end and reports a failure. -/
theorem skip_zero_moves :
    ∃ (answers : List StreamAnswer) (w : Unit → StreamBuf),
      StepSystem.run streamStep [.arrayWr () [1, 2, 3], .seek () 1]
        (newStreams (fun _ => sampleMem) fun _ => 0) = some (answers, w) ∧
      (w ()).store.vecBlocks ≠ [] ∧ (w ()).pos = 1 ∧ (w ()).lenGet = 3 ∧
      ((w ()).skip 0).1 = false ∧ ((w ()).skip 0).2.pos = 3 ∧
      ¬ StreamBuf.RelativeSeeks (w ()) 0 := by
  have hpos : sampleStream.pos = 1 := rfl
  have hlen : sampleStream.lenGet = 3 := rfl
  obtain ⟨hfound, hmoved⟩ := StreamBuf.skip_zero (placed_run run_sampleStream ()) blocks_sampleStream
    (by rw [hlen]; decide)
  refine ⟨_, _, run_sampleStream, blocks_sampleStream, hpos, hlen, hfound, hmoved.trans hlen,
    fun hseeks => ?_⟩
  have hclaimed := hseeks.skip_found
  rw [hfound, hpos, hlen] at hclaimed
  exact absurd hclaimed (by decide)

end CodePort
