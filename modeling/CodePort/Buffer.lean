/-
The memory buffer class.

A `Buffer` owns at most one block of the memory manager and the length of the part in use.  It
keeps its block while the requested size fits and is not much smaller, and otherwise trades it for
another one, which comes zeroed.

Main definitions:

* `CodePort.MemPools` — the sizes of the blocks that the memory manager hands out;
* `CodePort.Buffer` — the block and the length, which never exceeds it;
* `CodePort.Buffer.resize`, `lenSet`, `copyIn`, `assign`, `assignStr` — the member functions.

Main results:

* `CodePort.Buffer.le_size_resize` — a successful `Resize` makes enough room;
* `CodePort.Buffer.data_assign` — **an assigned buffer holds the same data**.
-/

import CodePort.BlockList
import CodePort.Util

set_option relaxedAutoImplicit false
set_option autoImplicit false

namespace CodePort

open BlockList

/-! ### The memory manager -/

/-- The size of the block that the memory manager finds for a requested size, if it finds one.  It
comes from the smallest pool that fits, so it depends on the request only. -/
structure MemPools where
  blockSize : ℕ → Option ℕ
  le_blockSize : ∀ {n m}, blockSize n = some m → n ≤ m

/-- Every request is met. -/
def MemPools.Plentiful (m : MemPools) : Prop := ∀ n, m.blockSize n ≠ none

/-- Pools with a block of every size. -/
def exactPools : MemPools where
  blockSize n := some n
  le_blockSize h := (Option.some.inj h).le

theorem plentiful_exactPools : exactPools.Plentiful := fun _ => Option.some_ne_none _

/-! ### Buffers -/

/-- The memory buffer class. -/
structure Buffer where
  /-- The managed memory block; `none` is the NULL pointer. -/
  block : Option (List UInt8)
  /-- The length of the part in use. -/
  dataLen : ℕ
  dataLen_le : dataLen ≤ (block.getD []).length
  deriving DecidableEq

namespace Buffer

/-- A buffer without a block. -/
def empty : Buffer := ⟨none, 0, Nat.zero_le _⟩

/-- The octets of the block. -/
def mem (b : Buffer) : List UInt8 := b.block.getD []

/-- Return the memory buffer size. -/
def size (b : Buffer) : ℕ := b.mem.length

/-- Return the data length. -/
def lenGet (b : Buffer) : ℕ := b.dataLen

/-- The octets in use. -/
def data (b : Buffer) : List UInt8 := b.mem.take b.dataLen

/-- Zero or fill the memory buffer. -/
def clear (b : Buffer) (val : UInt8) : Buffer :=
  ⟨b.block.map fun m => List.replicate m.length val, 0, Nat.zero_le _⟩

/-- Set the data length, which the block bounds. -/
def lenSet (b : Buffer) (len : ℕ) : Buffer :=
  { b with
    dataLen := if len < b.size then len else b.size
    dataLen_le := by
      split_ifs with h
      · exact h.le
      · exact le_rfl }

/-- `memcpy` to an offset in the block. -/
def memWr (b : Buffer) (offset : ℕ) (d : List UInt8) : Buffer where
  block := b.block.map fun m => overwrite m offset d
  dataLen := b.dataLen
  dataLen_le := by
    have hb := b.dataLen_le
    cases h : b.block with
    | none => rw [h] at hb; exact hb
    | some m =>
        rw [h] at hb
        exact hb.trans (le_length_overwrite m offset d)

/-- The block is of the requested size or only slightly larger. -/
def keeps (b : Buffer) (newSize : ℕ) : Bool :=
  match b.block with
  | none => false
  | some m => decide (newSize ≤ m.length ∧ 0 < newSize ∧ m.length / newSize < 2)

/-- Another memory block, zeroed; there is none for size zero. -/
def freshBlock (m : MemPools) (newSize : ℕ) : Option (List UInt8) :=
  if 0 < newSize then (m.blockSize newSize).map fun k => List.replicate k 0 else none

/-- Acquire a new memory block. -/
def resize (m : MemPools) (b : Buffer) (newSize : ℕ) : Bool × Buffer :=
  -- don't take any action if sizes are the same or only slightly larger
  if b.keeps newSize then (true, b)
  else
    ((freshBlock m newSize).isSome || newSize = 0, ⟨freshBlock m newSize, 0, Nat.zero_le _⟩)

/-- The constructor. -/
def construct (m : MemPools) (size : ℕ) : Buffer := (empty.resize m size).2

theorem le_length_freshBlock {m : MemPools} {n : ℕ} {x : List UInt8}
    (h : freshBlock m n = some x) : n ≤ x.length := by
  rw [freshBlock] at h
  split_ifs at h with hn
  obtain ⟨k, hk, rfl⟩ := Option.map_eq_some_iff.1 h
  rw [List.length_replicate]
  exact m.le_blockSize hk

/-- A successful `Resize` makes enough room. -/
theorem le_size_resize {m : MemPools} {b : Buffer} {n : ℕ} (h : (b.resize m n).1 = true) :
    n ≤ (b.resize m n).2.size := by
  rw [resize] at h ⊢
  split_ifs at h ⊢ with hk
  · rw [keeps] at hk
    rw [size, mem]
    cases hb : b.block with
    | none => simp [hb] at hk
    | some x =>
        rw [hb] at hk
        exact (of_decide_eq_true hk).1
  · simp only [size, mem]
    cases hx : freshBlock m n with
    | none =>
        have hn : n = 0 := by simpa [hx] using h
        omega
    | some x => exact le_length_freshBlock hx

/-- A `Resize` succeeds while the memory lasts. -/
theorem resize_fst {m : MemPools} (hm : m.Plentiful) (b : Buffer) (n : ℕ) :
    (b.resize m n).1 = true := by
  rw [resize]
  split_ifs with hk
  · rfl
  · rcases Nat.eq_zero_or_pos n with rfl | hn
    · rfl
    obtain ⟨k, hk⟩ := Option.ne_none_iff_exists'.1 (hm n)
    simp [freshBlock, hn, hk]

/-- A `Resize` to a size for which there is a block leaves the buffer with a block. -/
theorem resize_of_blockSize {m : MemPools} {n : ℕ} (hn : 0 < n) (hm : m.blockSize n ≠ none)
    (b : Buffer) : (b.resize m n).1 = true ∧ (b.resize m n).2.block.isSome = true := by
  obtain ⟨k, hk⟩ := Option.ne_none_iff_exists'.1 hm
  have hfresh : (freshBlock m n).isSome = true := by
    rw [freshBlock, if_pos hn, hk]
    rfl
  rw [resize]
  split_ifs with hkeeps
  · refine ⟨rfl, ?_⟩
    rw [keeps] at hkeeps
    cases hb : b.block with
    | none => simp [hb] at hkeeps
    | some x => rfl
  · exact ⟨by rw [hfresh, Bool.true_or], hfresh⟩

theorem size_of_block {b : Buffer} {x : List UInt8} (h : b.block = some x) : b.size = x.length := by
  rw [size, mem, h, Option.getD_some]

/-- A `Resize` to the size of a buffer that is not empty keeps the block. -/
theorem keeps_size {b : Buffer} (h : 0 < b.size) : b.keeps b.size = true := by
  rw [keeps]
  cases hb : b.block with
  | none => simp [size, mem, hb] at h
  | some x =>
      have hx := size_of_block hb
      rw [hx] at h ⊢
      have hdiv : x.length / x.length = 1 := Nat.div_self h
      exact decide_eq_true ⟨le_rfl, h, by omega⟩

/-- A `Resize` to half the size or less trades the block for another one. -/
theorem size_resize_of_le_half {m : MemPools} {b : Buffer} {n k : ℕ} (hn : 0 < n)
    (hhalf : 2 * n ≤ b.size) (hk : m.blockSize n = some k) : (b.resize m n).2.size = k := by
  have hkeeps : b.keeps n = false := by
    rw [keeps]
    cases hb : b.block with
    | none => rfl
    | some x =>
        have hx := size_of_block hb
        have hdiv : 2 ≤ x.length / n := (Nat.le_div_iff_mul_le hn).2 (by omega)
        simp only [decide_eq_false_iff_not]
        omega
  have hfresh : freshBlock m n = some (List.replicate k 0) := by
    rw [freshBlock, if_pos hn, hk, Option.map_some]
  simp only [resize, hkeeps, Bool.false_eq_true, if_false, size, mem, hfresh, Option.getD_some,
    List.length_replicate]

/-- `memcpy` of all the data of a block that has just been made large enough. -/
def fill (b : Buffer) (d : List UInt8) (h : d.length ≤ b.size) : Buffer where
  block := (b.memWr 0 d).block
  dataLen := d.length
  dataLen_le := by
    simp only [memWr]
    cases hb : b.block with
    | none => simpa [size, mem, hb] using h
    | some m => exact (h.trans (by simp [size, mem, hb])).trans (le_length_overwrite m 0 d)

@[simp] theorem data_fill (b : Buffer) (d : List UInt8) (h : d.length ≤ b.size) :
    (b.fill d h).data = d := by
  cases hb : b.block with
  | none =>
      have h0 : d.length ≤ 0 := by simpa [size, mem, hb] using h
      obtain rfl := List.length_eq_zero_iff.1 (Nat.le_zero.1 h0)
      simp [data, fill]
  | some m =>
      simp only [data, fill, mem, memWr, hb, Option.map_some, Option.getD_some, overwrite,
        List.take_zero, List.nil_append, List.take_left]

@[simp] theorem lenGet_fill (b : Buffer) (d : List UInt8) (h : d.length ≤ b.size) :
    (b.fill d h).lenGet = d.length := rfl

/-- Copy data into the buffer. -/
def copyIn (m : MemPools) (b : Buffer) (d : List UInt8) : Bool × Buffer :=
  if h : (b.resize m d.length).1 then (true, (b.resize m d.length).2.fill d (le_size_resize h))
  else (false, (b.resize m d.length).2)

theorem mem_memWr {b : Buffer} (h : 0 < b.size) (offset : ℕ) (d : List UInt8) :
    (b.memWr offset d).mem = overwrite b.mem offset d := by
  cases hb : b.block with
  | none => simp [size, mem, hb] at h
  | some m => simp [memWr, mem, hb]

/-- Two adjacent writes are one write. -/
theorem memWr_memWr {b : Buffer} {p : ℕ} (hp : p ≤ b.size) (d e : List UInt8) :
    (b.memWr p d).memWr (p + d.length) e = b.memWr p (d ++ e) := by
  obtain ⟨block, dataLen, hle⟩ := b
  cases block with
  | none => rfl
  | some m =>
      have hm : overwrite (overwrite m p d) (p + d.length) e = overwrite m p (d ++ e) :=
        overwrite_overwrite hp d e
      simp only [memWr, Option.map_some, hm]

theorem memWr_nil (b : Buffer) (p : ℕ) : b.memWr p [] = b := by
  obtain ⟨block, dataLen, hle⟩ := b
  cases block with
  | none => rfl
  | some m => simp only [memWr, Option.map_some, overwrite_nil]

@[simp] theorem mem_lenSet (b : Buffer) (n : ℕ) : (b.lenSet n).mem = b.mem := rfl

@[simp] theorem size_lenSet (b : Buffer) (n : ℕ) : (b.lenSet n).size = b.size := rfl

@[simp] theorem dataLen_memWr (b : Buffer) (offset : ℕ) (d : List UInt8) :
    (b.memWr offset d).dataLen = b.dataLen := rfl

theorem dataLen_lenSet {b : Buffer} {n : ℕ} (h : n ≤ b.size) : (b.lenSet n).dataLen = n := by
  have hdef : (b.lenSet n).dataLen = if n < b.size then n else b.size := rfl
  rw [hdef]
  split_ifs with hlt
  · rfl
  · exact le_antisymm (not_lt.1 hlt) h

theorem length_data (b : Buffer) : b.data.length = b.dataLen := by
  rw [data, List.length_take]
  exact min_eq_left b.dataLen_le

/-- Assignment operator, any binary content.  It resizes and copies as `CopyIn` does. -/
def assign (m : MemPools) (b rhs : Buffer) : Buffer := (b.copyIn m rhs.data).2

/-- Assignment conversion operator, terminated strings only; the terminator is copied too. -/
def assignStr (m : MemPools) (b : Buffer) (rhs : List UInt8) : Buffer :=
  (b.copyIn m (cStr rhs ++ [0])).2

theorem data_copyIn {m : MemPools} (hm : m.Plentiful) (b : Buffer) (d : List UInt8) :
    (b.copyIn m d).2.data = d := by
  have h := resize_fst hm b d.length
  rw [copyIn, dif_pos h]
  exact data_fill _ _ (le_size_resize h)

/-- **An assigned buffer holds the same data.** -/
@[simp] theorem data_assign {m : MemPools} (hm : m.Plentiful) (b rhs : Buffer) :
    (b.assign m rhs).data = rhs.data := data_copyIn hm b _

@[simp] theorem data_assignStr {m : MemPools} (hm : m.Plentiful) (b : Buffer) (s : List UInt8) :
    (b.assignStr m s).data = cStr s ++ [0] := data_copyIn hm b _

/-- The data are the start of the memory. -/
theorem data_append_drop (b : Buffer) : b.data ++ b.mem.drop b.dataLen = b.mem :=
  List.take_append_drop _ _

/-- Setting a length that fits. -/
theorem data_lenSet {b : Buffer} {n : ℕ} (h : n ≤ b.size) : (b.lenSet n).data = b.mem.take n := by
  have hdef : (b.lenSet n).data = b.mem.take (b.lenSet n).dataLen := rfl
  rw [hdef, dataLen_lenSet h]

theorem size_memWr_le (b : Buffer) (offset : ℕ) (d : List UInt8) :
    b.size ≤ (b.memWr offset d).size := by
  simp only [size, mem, memWr]
  cases b.block with
  | none => exact le_rfl
  | some m => exact le_length_overwrite m offset d

/-- Copying data to the start of a large enough block and setting the length. -/
theorem data_lenSet_memWr {b : Buffer} {d : List UInt8} (h : d.length ≤ b.size) :
    ((b.memWr 0 d).lenSet d.length).data = d := by
  rw [data_lenSet (h.trans (size_memWr_le b 0 d))]
  exact data_fill b d h

/-- Resizing to `d.length`, setting the length and copying `d` leaves exactly `d`. -/
theorem data_memWr_lenSet {m : MemPools} (hm : m.Plentiful) (b : Buffer) (d : List UInt8) :
    (((b.resize m d.length).2.lenSet d.length).memWr 0 d).data = d := by
  have hsize := le_size_resize (resize_fst hm b d.length)
  have hlen : ((b.resize m d.length).2.lenSet d.length).dataLen = d.length := by
    rw [lenSet]
    split_ifs with h
    · rfl
    · exact le_antisymm (not_lt.1 h) hsize
  have hmem : (((b.resize m d.length).2.lenSet d.length).memWr 0 d).mem =
      ((b.resize m d.length).2.fill d hsize).mem := rfl
  have hdef : (((b.resize m d.length).2.lenSet d.length).memWr 0 d).data =
      (((b.resize m d.length).2.lenSet d.length).memWr 0 d).mem.take
        ((b.resize m d.length).2.lenSet d.length).dataLen := rfl
  rw [hdef, hmem, hlen]
  exact data_fill (b.resize m d.length).2 d hsize

end Buffer

end CodePort
