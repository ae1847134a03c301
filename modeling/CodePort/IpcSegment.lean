/-
The IPC segment class.

A segment is a buffer with a header at fixed offsets, all multi-octet fields big-endian, and the
payload behind it.  The link to the next segment of a chain is not a member here: a chain of
segments is a list.

Main definitions:

* `CodePort.IpcSegment` — the class, with the accessors and manipulators of the source;
* `CodePort.IpcSegment.head`, `body` — the header octets, and what lies behind them;
* `CodePort.IpcSegment.Full` — the buffer has room for a full segment.

Main results:

* `CodePort.IpcSegment.head_hdrWr`, `body_hdrWr` — a field setter changes the header only;
* `CodePort.IpcSegment.head_bodyWr`, `body_bodyWr` — a payload write changes the payload only;
* `CodePort.IpcSegment.full_construct` — a new segment is full size;
* `CodePort.IpcSegment.head_assign_construct` — **a new segment takes over the fields of another one**.
-/

import CodePort.Buffer
import CodePort.Octets

set_option relaxedAutoImplicit false
set_option autoImplicit false

namespace CodePort

open Octets BlockList

/-- Read an unsigned shortword big endian. -/
def readUint16B (l : List UInt8) : ℕ := ofBE (l.takeD 2 0)

/-- Read an unsigned longword big endian. -/
def readUint32B (l : List UInt8) : ℕ := ofBE (l.takeD 4 0)

/-- The IPC segment class. -/
structure IpcSegment where
  /-- The message segment buffer. -/
  buf : Buffer
  deriving DecidableEq

namespace IpcSegment

/-! ### Field layout -/

def segVersion : ℕ := 0x00
def segOptions : ℕ := 0x01
def segFragNum : ℕ := 0x02
def segSrcAddr : ℕ := 0x04
def segDstAddr : ℕ := 0x08
def segMsgId : ℕ := 0x0c
def segContext : ℕ := 0x10
def segMsgType : ℕ := 0x14
def segCtlCode : ℕ := 0x15
def segDataLen : ℕ := 0x16
/-- Start of payload. -/
def segData : ℕ := 0x18
/-- Maximum segment size including fields and payload. -/
def segMaxLen : ℕ := 0x400

def optMultipart : UInt8 := 0x20
def optInitial : UInt8 := 0x40

def ipcDefaultPriority : UInt8 := 2
def ipcMinimumPriority : UInt8 := 3

/-- The maximum payload capacity. -/
def capacity : ℕ := segMaxLen - segData

/-! ### Accessors -/

/-- The octet at an offset. -/
def octetAt (s : IpcSegment) (offset : ℕ) : UInt8 := s.buf.mem.getD offset 0

def options (s : IpcSegment) : UInt8 := s.octetAt segOptions &&& 0xfc
def priority (s : IpcSegment) : UInt8 := s.octetAt segOptions &&& 0x03
def fragNum (s : IpcSegment) : ℕ := readUint16B (s.buf.mem.drop segFragNum)
def srcAddr (s : IpcSegment) : ℕ := readUint32B (s.buf.mem.drop segSrcAddr)
def dstAddr (s : IpcSegment) : ℕ := readUint32B (s.buf.mem.drop segDstAddr)
def msgId (s : IpcSegment) : ℕ := readUint32B (s.buf.mem.drop segMsgId)
def context (s : IpcSegment) : ℕ := readUint32B (s.buf.mem.drop segContext)
def msgType (s : IpcSegment) : UInt8 := s.octetAt segMsgType
def ctlCode (s : IpcSegment) : UInt8 := s.octetAt segCtlCode
def dataLen (s : IpcSegment) : ℕ := readUint16B (s.buf.mem.drop segDataLen)

/-- Returns the segment length. -/
def segLen (s : IpcSegment) : ℕ := segData + s.dataLen

/-- Returns the globally unique ID: source address and message id. -/
def guid (s : IpcSegment) : ℕ := s.srcAddr * 2 ^ 32 + s.msgId

/-! ### Manipulators -/

/-- Write header octets. -/
def hdrWr (s : IpcSegment) (offset : ℕ) (d : List UInt8) : IpcSegment := ⟨s.buf.memWr offset d⟩

def setOptions (s : IpcSegment) (data : UInt8) : IpcSegment :=
  -- preserve the priority bits, apply the options bits
  s.hdrWr segOptions [s.octetAt segOptions &&& 0x03 ||| data &&& 0xfc]

def setPriority (s : IpcSegment) (data : UInt8) : IpcSegment :=
  -- preserve the option bits, apply the priority bits
  let data := if data > ipcMinimumPriority then ipcMinimumPriority else data
  s.hdrWr segOptions [s.octetAt segOptions &&& 0xfc ||| data &&& 0x03]

def setFragNum (s : IpcSegment) (val : ℕ) : IpcSegment := s.hdrWr segFragNum (toBE 2 val)
def setSrcAddr (s : IpcSegment) (addr : ℕ) : IpcSegment := s.hdrWr segSrcAddr (toBE 4 addr)
def setDstAddr (s : IpcSegment) (addr : ℕ) : IpcSegment := s.hdrWr segDstAddr (toBE 4 addr)
def setMsgId (s : IpcSegment) (val : ℕ) : IpcSegment := s.hdrWr segMsgId (toBE 4 val)
def setContext (s : IpcSegment) (val : ℕ) : IpcSegment := s.hdrWr segContext (toBE 4 val)
def setMsgType (s : IpcSegment) (val : UInt8) : IpcSegment := s.hdrWr segMsgType [val]
def setCtlCode (s : IpcSegment) (val : UInt8) : IpcSegment := s.hdrWr segCtlCode [val]

/-- Sets the payload data length, which the capacity bounds. -/
def setDataLen (s : IpcSegment) (len : ℕ) : IpcSegment :=
  s.hdrWr segDataLen (toBE 2 (if len < capacity then len else capacity))

/-- `Buf().LenSet()`. -/
def bufLenSet (s : IpcSegment) (len : ℕ) : IpcSegment := ⟨s.buf.lenSet len⟩

/-- Sets the segment contents to default values. -/
def clear (s : IpcSegment) : IpcSegment :=
  let s : IpcSegment := ⟨(s.buf.clear 0).lenSet segData⟩
  (s.hdrWr segVersion [0]).setPriority ipcDefaultPriority

/-- The constructor. -/
def construct (m : MemPools) : IpcSegment := (⟨Buffer.construct m segMaxLen⟩ : IpcSegment).clear

/-- The overridden assignment operator. -/
def assign (m : MemPools) (s rhs : IpcSegment) : IpcSegment :=
  -- resize the buffer storage
  let buf := (s.buf.resize m segMaxLen).2
  -- make sure there is a valid source buffer
  if rhs.buf.lenGet ≤ rhs.buf.size then
    let buf := buf.lenSet rhs.buf.lenGet
    ⟨buf.memWr 0 (rhs.buf.mem.take buf.lenGet)⟩
  else ⟨buf⟩

/-! ### Header and payload -/

/-- The header octets. -/
def head (s : IpcSegment) : List UInt8 := s.buf.mem.take segData

/-- The octets behind the header. -/
def body (s : IpcSegment) : List UInt8 := s.buf.mem.drop segData

/-- The buffer has room for a full segment. -/
def Full (s : IpcSegment) : Prop := segMaxLen ≤ s.buf.size

variable {s : IpcSegment}

theorem head_append_body (s : IpcSegment) : s.head ++ s.body = s.buf.mem :=
  List.take_append_drop _ _

theorem Full.size_pos (h : s.Full) : 0 < s.buf.size := lt_of_lt_of_le (by decide) h

theorem Full.length_head (h : s.Full) : s.head.length = segData := by
  rw [head, List.length_take]
  exact min_eq_left (le_trans (by decide) h)

theorem Full.length_body (h : s.Full) : capacity ≤ s.body.length := by
  rw [body, List.length_drop]
  exact Nat.sub_le_sub_right h _

theorem Full.hdrWr (h : s.Full) (offset : ℕ) (d : List UInt8) : (s.hdrWr offset d).Full :=
  h.trans (s.buf.size_memWr_le offset d)

theorem Full.bufLenSet (h : s.Full) (len : ℕ) : (s.bufLenSet len).Full := h

@[simp] theorem head_bufLenSet (s : IpcSegment) (len : ℕ) : (s.bufLenSet len).head = s.head := rfl
@[simp] theorem body_bufLenSet (s : IpcSegment) (len : ℕ) : (s.bufLenSet len).body = s.body := rfl

/-- **A header write changes the header** as it changes a list of octets. -/
theorem head_hdrWr (h : s.Full) {offset : ℕ} {d : List UInt8} (hd : offset + d.length ≤ segData) :
    (s.hdrWr offset d).head = overwrite s.head offset d := by
  have hle : offset + d.length ≤ s.head.length := by rw [h.length_head]; exact hd
  rw [head, hdrWr, Buffer.mem_memWr h.size_pos, ← s.head_append_body, overwrite_append_left hle,
    List.take_left' (by rw [length_overwrite_of_le hle, h.length_head])]

/-- **A header write leaves the payload.** -/
theorem body_hdrWr (h : s.Full) {offset : ℕ} {d : List UInt8} (hd : offset + d.length ≤ segData) :
    (s.hdrWr offset d).body = s.body := by
  have hle : offset + d.length ≤ s.head.length := by rw [h.length_head]; exact hd
  rw [body, hdrWr, Buffer.mem_memWr h.size_pos, ← s.head_append_body, overwrite_append_left hle,
    List.drop_left' (by rw [length_overwrite_of_le hle, h.length_head]), body]

/-- **A payload write leaves the header.** -/
theorem head_bodyWr (h : s.Full) (offset : ℕ) (d : List UInt8) :
    (⟨s.buf.memWr (segData + offset) d⟩ : IpcSegment).head = s.head := by
  rw [head, Buffer.mem_memWr h.size_pos, ← s.head_append_body]
  have hlen := h.length_head
  rw [← hlen, overwrite_append_right, List.take_left]

/-- **A payload write changes the payload.** -/
theorem body_bodyWr (h : s.Full) (offset : ℕ) (d : List UInt8) :
    (⟨s.buf.memWr (segData + offset) d⟩ : IpcSegment).body = overwrite s.body offset d := by
  rw [body, Buffer.mem_memWr h.size_pos, ← s.head_append_body]
  have hlen := h.length_head
  rw [← hlen, overwrite_append_right, List.drop_left]

/-- A header write leaves the octets before it. -/
theorem octetAt_hdrWr_of_lt (h : s.Full) {offset i : ℕ} (hi : i < offset)
    (ho : offset ≤ segData) (d : List UInt8) : (s.hdrWr offset d).octetAt i = s.octetAt i := by
  have hle : offset ≤ s.buf.mem.length := ho.trans (le_trans (by decide) h)
  rw [octetAt, hdrWr, Buffer.mem_memWr h.size_pos, octetAt, List.getD_eq_getElem?_getD,
    getElem?_overwrite hle, if_pos hi, List.getD_eq_getElem?_getD]

/-- A longword field holds what was written to it. -/
theorem readUint32B_hdrWr (h : s.Full) {offset val : ℕ} (ho : offset + 4 ≤ segData)
    (hval : val < 2 ^ 32) :
    readUint32B ((s.hdrWr offset (toBE 4 val)).buf.mem.drop offset) = val := by
  have hle : offset + 4 ≤ s.buf.mem.length := ho.trans (le_trans (by decide) h)
  have hdrop : (overwrite s.buf.mem offset (toBE 4 val)).drop offset =
      toBE 4 val ++ s.buf.mem.drop (offset + 4) := by
    rw [overwrite, length_toBE, List.append_assoc, List.drop_append_of_le_length
      (by rw [List.length_take]; omega), List.drop_of_length_le (by rw [List.length_take]; omega),
      List.nil_append]
  rw [readUint32B, hdrWr, Buffer.mem_memWr h.size_pos, hdrop, List.takeD_eq_take _ (by simp),
    List.take_left' (length_toBE 4 val), ofBE_toBE_of_lt (by simpa using hval)]

theorem priority_setMsgId (h : s.Full) (val : ℕ) : (s.setMsgId val).priority = s.priority := by
  rw [priority, setMsgId, octetAt_hdrWr_of_lt h (by decide) (by decide), priority]

theorem msgId_setMsgId (h : s.Full) {val : ℕ} (hval : val < 2 ^ 32) :
    (s.setMsgId val).msgId = val := readUint32B_hdrWr h (by decide) hval

/-! ### Construction and assignment -/

theorem le_size_construct {m : MemPools} (hm : m.blockSize segMaxLen ≠ none) :
    segMaxLen ≤ (Buffer.construct m segMaxLen).size := by
  obtain ⟨k, hk⟩ := Option.ne_none_iff_exists'.1 hm
  have hle := m.le_blockSize hk
  have hfresh : Buffer.freshBlock m segMaxLen = some (List.replicate k 0) := by
    rw [Buffer.freshBlock, if_pos (by decide), hk, Option.map_some]
  have hkeeps : Buffer.empty.keeps segMaxLen = false := rfl
  simp only [Buffer.construct, Buffer.resize, hkeeps, Bool.false_eq_true, if_false, Buffer.size,
    Buffer.mem, hfresh, Option.getD_some, List.length_replicate]
  exact hle

/-- The header of a new segment: zeros but for the default priority. -/
def freshHead : List UInt8 := 0 :: ipcDefaultPriority :: List.replicate 22 0

/-- The buffer of a new segment before its fields are set. -/
theorem mem_clear_lenSet (b : Buffer) (n : ℕ) :
    ((b.clear 0).lenSet n).mem = List.replicate b.size 0 := by
  rw [Buffer.mem_lenSet]
  cases hb : b.block <;> simp [Buffer.clear, Buffer.mem, Buffer.size, hb]

theorem size_clear_lenSet (b : Buffer) (n : ℕ) : ((b.clear 0).lenSet n).size = b.size := by
  rw [Buffer.size, mem_clear_lenSet, List.length_replicate]

/-- The fields of a new segment have room in its buffer. -/
theorem le_size_clear {m : MemPools} (hm : m.blockSize segMaxLen ≠ none) :
    segData ≤ ((Buffer.construct m segMaxLen).clear 0).size := by
  have hclear := size_clear_lenSet (Buffer.construct m segMaxLen) 0
  rw [Buffer.size_lenSet] at hclear
  rw [hclear]
  exact le_trans (by decide) (le_size_construct hm)

theorem full_clear (h : s.Full) : s.clear.Full := by
  have hbuf : (⟨(s.buf.clear 0).lenSet segData⟩ : IpcSegment).Full := by
    rw [Full, size_clear_lenSet]
    exact h
  exact (hbuf.hdrWr _ _).hdrWr _ _

/-- **A new segment is full size.** -/
theorem full_construct {m : MemPools} (hm : m.blockSize segMaxLen ≠ none) :
    (construct m).Full := full_clear (le_size_construct hm)

theorem octetAt_eq (s : IpcSegment) {offset : ℕ} (h : offset < segData) :
    s.octetAt offset = s.head.getD offset 0 := by
  rw [octetAt, head, List.getD_eq_getElem?_getD, List.getD_eq_getElem?_getD,
    List.getElem?_take_of_lt h]

theorem head_clear (h : s.Full) : s.clear.head = freshHead := by
  set t : IpcSegment := ⟨(s.buf.clear 0).lenSet segData⟩ with ht
  have hmem : t.buf.mem = List.replicate s.buf.size 0 := mem_clear_lenSet _ _
  have hfull : t.Full := by
    rw [Full, ht, size_clear_lenSet]
    exact h
  have hhead : t.head = List.replicate segData 0 := by
    rw [head, hmem, List.take_replicate]
    congr 1
    exact min_eq_left (le_trans (by decide) h)
  have hver : (t.hdrWr segVersion [0]).head = List.replicate segData 0 := by
    rw [head_hdrWr hfull (by decide), hhead]
    rfl
  have hopt : (t.hdrWr segVersion [0]).octetAt segOptions = 0 := by
    rw [octetAt_eq _ (by decide), hver]
    rfl
  change ((t.hdrWr segVersion [0]).setPriority ipcDefaultPriority).head = _
  rw [setPriority, hopt, head_hdrWr (hfull.hdrWr _ _) (by decide), hver]
  decide

/-- The buffer of a segment right before another segment is copied to it. -/
theorem resize_construct {m : MemPools} (hm : m.blockSize segMaxLen ≠ none) :
    segMaxLen ≤ ((construct m).buf.resize m segMaxLen).2.size ∧
      (∀ j, 2 ≤ j → j < segData → ((construct m).buf.resize m segMaxLen).2.mem[j]? = some 0) ∧
      ((construct m).buf.resize m segMaxLen).2.mem.getD segOptions 0 &&& 0xfc = 0 := by
  have hfull : (construct m).Full := full_construct hm
  rw [Buffer.resize]
  split
  · have hhead : (construct m).head = freshHead := head_clear (le_size_construct hm)
    refine ⟨hfull, ?_, ?_⟩
    swap
    · change (construct m).octetAt segOptions &&& 0xfc = 0
      rw [octetAt_eq _ (by decide), hhead]
      decide
    intro j h2 hj
    have hget : (construct m).buf.mem[j]? = freshHead[j]? := by
      rw [← hhead, head, List.getElem?_take_of_lt hj]
    rw [hget]
    obtain ⟨k, rfl⟩ := Nat.exists_eq_add_of_le h2
    have hk : k < 22 := by
      have : segData = 24 := rfl
      omega
    rw [freshHead, Nat.add_comm, List.getElem?_cons_succ, List.getElem?_cons_succ,
      List.getElem?_replicate_of_lt hk]
  · obtain ⟨k, hk⟩ := Option.ne_none_iff_exists'.1 hm
    have hle := m.le_blockSize hk
    have hfresh : Buffer.freshBlock m segMaxLen = some (List.replicate k 0) := by
      rw [Buffer.freshBlock, if_pos (by decide), hk, Option.map_some]
    simp only [Buffer.size, Buffer.mem, hfresh, Option.getD_some, List.length_replicate]
    have hzero : ∀ j, j < segData → (List.replicate k (0 : UInt8))[j]? = some 0 := fun j hj =>
      List.getElem?_replicate_of_lt (lt_of_lt_of_le hj (le_trans (by decide) hle))
    refine ⟨hle, fun j _ hj => hzero j hj, ?_⟩
    rw [List.getD_eq_getElem?_getD, hzero segOptions (by decide)]
    rfl

/-- What an assignment to a new segment does: it copies the other's data as far as they fit. -/
theorem assign_construct_eq {m : MemPools} (hm : m.blockSize segMaxLen ≠ none)
    (rhs : IpcSegment) :
    ∃ buf : Buffer, segMaxLen ≤ buf.size ∧
      (∀ j, 2 ≤ j → j < segData → buf.mem[j]? = some 0) ∧ buf.mem.getD segOptions 0 &&& 0xfc = 0 ∧
      buf.dataLen = min rhs.buf.dataLen buf.size ∧
      (construct m).assign m rhs =
        ⟨buf.memWr 0 (rhs.buf.mem.take (min rhs.buf.dataLen buf.size))⟩ := by
  obtain ⟨hsize, hzero, hoptions⟩ := resize_construct hm
  set buf := ((construct m).buf.resize m segMaxLen).2 with hbuf
  have hget : (buf.lenSet rhs.buf.lenGet).lenGet = min rhs.buf.dataLen buf.size := by
    change (if rhs.buf.dataLen < buf.size then rhs.buf.dataLen else buf.size) = _
    split <;> omega
  refine ⟨buf.lenSet rhs.buf.lenGet, hsize, hzero, hoptions, hget, ?_⟩
  rw [assign, if_pos (show rhs.buf.lenGet ≤ rhs.buf.size from rhs.buf.dataLen_le), ← hbuf]
  simp only [hget, Buffer.size_lenSet]

theorem full_assign_construct {m : MemPools} (hm : m.blockSize segMaxLen ≠ none)
    (rhs : IpcSegment) : ((construct m).assign m rhs).Full := by
  obtain ⟨buf, hsize, -, -, -, hassign⟩ := assign_construct_eq hm rhs
  rw [hassign]
  exact hsize.trans (Buffer.size_memWr_le _ _ _)

theorem dataLen_assign_construct {m : MemPools} (hm : m.blockSize segMaxLen ≠ none)
    (rhs : IpcSegment) : ∃ k, segMaxLen ≤ k ∧
      ((construct m).assign m rhs).buf.dataLen = min rhs.buf.dataLen k := by
  obtain ⟨buf, hsize, -, -, hlen, hassign⟩ := assign_construct_eq hm rhs
  rw [hassign]
  exact ⟨buf.size, hsize, hlen⟩

/-- **A new segment takes over the fields of another one.**  Fields behind the length of the
other's buffer are zero. -/
theorem head_assign_construct {m : MemPools} (hm : m.blockSize segMaxLen ≠ none)
    {rhs : IpcSegment} (hlen : 2 ≤ rhs.buf.dataLen) :
    ((construct m).assign m rhs).head = rhs.buf.data.takeD segData 0 := by
  obtain ⟨buf, hsize, hzero, -, -, hassign⟩ := assign_construct_eq hm rhs
  have hle : rhs.buf.dataLen ≤ rhs.buf.mem.length := rhs.buf.dataLen_le
  have h24 : segData ≤ buf.size := le_trans (by decide) hsize
  rw [hassign, head, Buffer.mem_memWr (lt_of_lt_of_le (by decide) hsize)]
  refine List.ext_getElem? fun i => ?_
  rw [List.getElem?_take, getElem?_overwrite (Nat.zero_le _), getElem?_takeD, Buffer.data,
    List.length_take, List.getElem?_take, List.getElem?_take, if_neg (Nat.not_lt_zero i),
    Nat.zero_add, Nat.sub_zero]
  by_cases hi : i < segData
  · rw [if_pos hi, if_pos hi]
    by_cases hid : i < rhs.buf.dataLen
    · rw [if_pos (by omega), if_pos (by omega), if_pos hid,
        List.getElem?_eq_getElem (by omega), Option.getD_some]
    · rw [if_neg (by omega), if_neg hid, hzero i (by omega) hi, Option.getD_none]
  · rw [if_neg hi, if_neg hi]

/-- A segment whose buffer does not reach the options leaves a new segment without flags. -/
theorem flags_assign_construct {m : MemPools} (hm : m.blockSize segMaxLen ≠ none)
    {rhs : IpcSegment} (hlen : rhs.buf.dataLen < 2) :
    ((construct m).assign m rhs).head.getD segOptions 0 &&& 0xfc = 0 := by
  obtain ⟨buf, hsize, -, hoptions, -, hassign⟩ := assign_construct_eq hm rhs
  have hshort : (rhs.buf.mem.take (min rhs.buf.dataLen buf.size)).length ≤ segOptions := by
    rw [List.length_take, show segOptions = 1 from rfl]
    omega
  rw [hassign, head, Buffer.mem_memWr (lt_of_lt_of_le (by decide) hsize), List.getD_eq_getElem?_getD,
    List.getElem?_take_of_lt (by decide), getElem?_overwrite (Nat.zero_le _),
    if_neg (Nat.not_lt_zero _), if_neg (by omega), ← List.getD_eq_getElem?_getD]
  exact hoptions

end IpcSegment

end CodePort
