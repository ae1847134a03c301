/-
Buffers and the blocks that they own.

A buffer object has a pointer to a block of the memory manager.  Its member functions trade the block for
another one, give it away, take one over or copy from one block to another.  Here the objects, the manager
and the octets in the blocks are modelled together, so that what the class promises can be said: every block
has one owner, and what an object holds is a `Buffer` in the sense of `CodePort/Buffer.lean`.

Main definitions:

* `CodePort.BlockMem` — the manager and the octets in its blocks;
* `CodePort.BufferObj` — the members of a buffer object, with `resize`, `copyIn`, `assign` and the others;
* `CodePort.BufferWorld`, `CodePort.bufferStep` — the objects of a program; one call;
* `CodePort.BufferObj.Shows` — what an object holds, as a `Buffer`;
* `CodePort.BufferWorld.Owned` — the invariant.

Main results:

* `CodePort.BufferObj.shows_resize`, `shows_copyIn`, `shows_assign` — **the objects refine the buffers**;
* `CodePort.BufferObj.Acts` — what a member function does to its own block, and to no other one;
* `CodePort.bufferStep_owned` — **every call keeps the invariant**;
* `CodePort.buffers_own_blocks` — **lengths, owners and copies**, after any calls.
-/

import CodePort.HeldBlocks

set_option relaxedAutoImplicit false
set_option autoImplicit false

namespace CodePort

open BlockList

/-! ### Blocks and their octets -/

/-- The manager, who holds what, and the octets in the buffers of the blocks. -/
structure BlockMem where
  world : MemWorld
  /-- The octet at an offset in the buffer of the block at an address. -/
  octet : ℕ → ℕ → UInt8

namespace BlockMem

/-- The size of the buffer of a block. -/
def sizeGet (m : BlockMem) (b : ℕ) : ℕ := (m.world.mem.block b).blockSize

/-- The octets in the buffer of a block. -/
def octets (m : BlockMem) (b : ℕ) : List UInt8 := (List.range (m.sizeGet b)).map (m.octet b)

/-- Zero or fill the buffer of a block. -/
def clear (m : BlockMem) (b : ℕ) (val : UInt8) : BlockMem :=
  { m with octet := Function.update m.octet b fun k => if k < m.sizeGet b then val else m.octet b k }

/-- `memcpy` to the buffer of a block.  Without a block there is nothing to copy. -/
def memcpy (m : BlockMem) (b : Option ℕ) (d : List UInt8) : BlockMem :=
  match b with
  | some b => { m with octet := Function.update m.octet b fun k => d[k]?.getD (m.octet b k) }
  | none => m

/-- Get a block of memory. -/
def get (heap : Heap) (m : BlockMem) (size : ℕ) : Option ℕ × BlockMem :=
  ((m.world.get heap size).1, { m with world := (m.world.get heap size).2 })

/-- Return a block. -/
def put (m : BlockMem) (b : ℕ) : Bool × BlockMem :=
  ((m.world.put b).1, { m with world := (m.world.put b).2 })

variable {m m' : BlockMem} {a b : ℕ}

@[simp] theorem length_octets (m : BlockMem) (b : ℕ) : (m.octets b).length = m.sizeGet b := by
  rw [octets, List.length_map, List.length_range]

/-- The octets of a block that keeps its header and its buffer. -/
theorem octets_congr (hblock : m'.world.mem.block b = m.world.mem.block b)
    (hoctet : m'.octet b = m.octet b) : m'.octets b = m.octets b := by
  rw [octets, octets, sizeGet, sizeGet, hblock, hoctet]

theorem octets_clear (m : BlockMem) (b : ℕ) (val : UInt8) :
    (m.clear b val).octets b = List.replicate (m.sizeGet b) val := by
  refine List.eq_replicate_iff.2 ⟨length_octets _ b, fun c hc => ?_⟩
  obtain ⟨k, hk, rfl⟩ := List.mem_map.1 hc
  have hlt : k < m.sizeGet b := List.mem_range.1 hk
  simp only [clear, Function.update_self, if_pos hlt]

theorem octets_clear_of_ne (h : a ≠ b) (val : UInt8) : (m.clear b val).octets a = m.octets a :=
  octets_congr rfl (Function.update_of_ne h _ _)

/-- What has been copied stands at the start of the buffer. -/
theorem octets_memcpy {d : List UInt8} (h : d.length ≤ m.sizeGet b) :
    (m.memcpy (some b) d).octets b = overwrite (m.octets b) 0 d := by
  refine List.ext_getElem? fun k => ?_
  rw [getElem?_overwrite (Nat.zero_le _)]
  simp only [octets, memcpy, sizeGet, Function.update_self, List.getElem?_map, Nat.not_lt_zero,
    if_false, Nat.zero_add, Nat.sub_zero]
  rw [sizeGet] at h
  split_ifs with hk
  · rw [List.getElem?_range (by omega), Option.map_some, List.getElem?_eq_getElem hk,
      Option.getD_some]
  · have hnone : d[k]? = none := List.getElem?_eq_none (not_lt.1 hk)
    rcases Nat.lt_or_ge k (m.world.mem.block b).blockSize with hlt | hge
    · simp only [List.getElem?_range hlt, Option.map_some, hnone, Option.getD_none]
    · rw [List.getElem?_eq_none (by rwa [List.length_range])]
      rfl

theorem octets_memcpy_of_ne {o : Option ℕ} (h : o ≠ some a) (d : List UInt8) :
    (m.memcpy o d).octets a = m.octets a := by
  cases o with
  | none => rfl
  | some b => exact octets_congr rfl (Function.update_of_ne (fun hab => h (congrArg some hab.symm)) _ _)

@[simp] theorem memcpy_nil (m : BlockMem) (o : Option ℕ) : m.memcpy o [] = m := by
  cases o with
  | none => rfl
  | some b =>
      have hoctet : Function.update m.octet b (fun k => m.octet b k) = m.octet :=
        Function.update_eq_self b m.octet
      simp only [memcpy, List.getElem?_nil, Option.getD_none, hoctet]

@[simp] theorem world_clear (m : BlockMem) (b : ℕ) (val : UInt8) : (m.clear b val).world = m.world := rfl

@[simp] theorem world_memcpy (m : BlockMem) (o : Option ℕ) (d : List UInt8) :
    (m.memcpy o d).world = m.world := by
  cases o <;> rfl

end BlockMem

/-! ### The member functions -/

/-- The members of a buffer object. -/
structure BufferObj where
  /-- Pointer to the managed memory block. -/
  ptrBlock : Option ℕ
  /-- Length of the buffer used. -/
  dataLen : ℕ
  deriving DecidableEq

namespace BufferObj

/-- An object without a block. -/
def empty : BufferObj := ⟨none, 0⟩

/-- Return the data length. -/
def lenGet (o : BufferObj) : ℕ := o.dataLen

/-- Return the memory buffer size. -/
def size (o : BufferObj) (m : BlockMem) : ℕ :=
  match o.ptrBlock with
  | some b => m.sizeGet b
  | none => 0

/-- Zero or fill the memory buffer. -/
def clear (o : BufferObj) (m : BlockMem) (val : UInt8) : BlockMem × BufferObj :=
  match o.ptrBlock with
  | some b => (m.clear b val, { o with dataLen := 0 })
  | none => (m, { o with dataLen := 0 })

/-- Set the data length. -/
def lenSet (o : BufferObj) (m : BlockMem) (len : ℕ) : BufferObj :=
  match o.ptrBlock with
  | some b => { o with dataLen := if len < m.sizeGet b then len else m.sizeGet b }
  | none => { o with dataLen := 0 }

/-- The sizes are the same, or the block is only slightly larger. -/
def keeps (o : BufferObj) (m : BlockMem) (newSize : ℕ) : Bool :=
  match o.ptrBlock with
  | some b => decide (newSize ≤ m.sizeGet b ∧ 0 < newSize ∧ m.sizeGet b / newSize < 2)
  | none => false

/-- Return any existing memory buffer. -/
def giveBack (o : BufferObj) (m : BlockMem) : BlockMem × BufferObj :=
  match o.ptrBlock with
  | some b => ((m.put b).2, { o with ptrBlock := none })
  | none => (m, o)

/-- Acquire another memory buffer. -/
def acquire (heap : Heap) (o : BufferObj) (m : BlockMem) (newSize : ℕ) : BlockMem × BufferObj :=
  if 0 < newSize then ((m.get heap newSize).2, { o with ptrBlock := (m.get heap newSize).1 })
  else (m, o)

/-- Acquire a new memory block. -/
def resize (heap : Heap) (o : BufferObj) (m : BlockMem) (newSize : ℕ) :
    Bool × BlockMem × BufferObj :=
  -- don't take any action if sizes are the same or only slightly larger
  if o.keeps m newSize then (true, m, o)
  else
    let (m, o) := o.giveBack m
    let (m, o) := o.acquire heap m newSize
    let (m, o) := o.clear m 0
    (o.ptrBlock.isSome || decide (newSize = 0), m, o)

/-- Copy data into the buffer; `none` is the NULL pointer.  For no octets the buffer has no block, and
nothing is copied. -/
def copyIn (heap : Heap) (o : BufferObj) (m : BlockMem) (buf : Option (List UInt8)) :
    Bool × BlockMem × BufferObj :=
  match buf with
  | none => (false, m, o)
  | some d =>
      let (rv, m, o) := o.resize heap m d.length
      if rv then (true, m.memcpy o.ptrBlock d, { o with dataLen := d.length }) else (false, m, o)

/-- Assignment operator, any binary content, from another object. -/
def assign (heap : Heap) (o : BufferObj) (m : BlockMem) (rhs : BufferObj) : BlockMem × BufferObj :=
  let size := rhs.dataLen
  -- acquire a buffer of sufficient size
  let (rv, m, o) := o.resize heap m size
  if rv then
    match rhs.ptrBlock with
    | some b =>
        -- copy the buffer data
        (if 0 < size ∧ size ≤ m.sizeGet b then m.memcpy o.ptrBlock ((m.octets b).take size) else m,
          { o with dataLen := size })
    | none => (m, { o with dataLen := size })
  else (m, o)

end BufferObj

/-! ### The calls -/

/-- The buffer objects of a program. -/
structure BufferWorld (ι : Type) where
  mem : BlockMem
  buffers : ι → BufferObj

/-- A call on one of the buffers, or what others do with the manager and the blocks. -/
inductive BufferOp (ι : Type)
  | resize (i : ι) (newSize : ℕ)
  | lenSet (i : ι) (len : ℕ)
  | clear (i : ι) (val : UInt8)
  | copyIn (i : ι) (buf : Option (List UInt8))
  | assign (i rhs : ι)
  | xferMemBlk (i dest : ι)
  | getMemBlk (i : ι)
  | setMemBlk (i : ι) (block : Option ℕ)
  /-- Somebody gets a block from the manager. -/
  | memBlockGet (size : ℕ)
  /-- Somebody returns a block that no buffer owns. -/
  | memBlockPut (b : ℕ)
  /-- Somebody writes to the buffer of a block; for one that is not held, this is the manager. -/
  | write (b : ℕ) (f : ℕ → UInt8)

/-- What a call returns. -/
inductive BufferAnswer
  | success (rv : Bool)
  | block (b : Option ℕ)
  | done
  deriving DecidableEq

namespace BufferWorld

variable {ι : Type} [DecidableEq ι]

/-- What a member function leaves of its object. -/
def set (w : BufferWorld ι) (i : ι) (r : BlockMem × BufferObj) : BufferWorld ι where
  mem := r.1
  buffers := Function.update w.buffers i r.2

/-- The octets in use. -/
def data (w : BufferWorld ι) (i : ι) : List UInt8 :=
  match (w.buffers i).ptrBlock with
  | some b => (w.mem.octets b).take (w.buffers i).dataLen
  | none => []

/-- Somebody holds the block, and no buffer owns it. -/
def Loose (w : BufferWorld ι) (b : ℕ) : Prop :=
  w.mem.world.Holds b ∧ ∀ i, (w.buffers i).ptrBlock ≠ some b

/-- Whoever inserts a block into a buffer, or returns one, has it, and no buffer owns it; and the size of the
memory that is requested does not wrap around. -/
def Allows (w : BufferWorld ι) : BufferOp ι → Prop
  | .resize _ newSize => MemManager.BlockFits newSize
  | .copyIn _ (some d) => MemManager.BlockFits d.length
  | .setMemBlk _ (some b) => w.Loose b
  | .memBlockGet size => MemManager.BlockFits size
  | .memBlockPut b => w.Loose b
  | _ => True

/-- The manager has been constructed, nobody holds a block, and the buffers have none. -/
def initial (heap : Heap) (mem : Memory) (octet : ℕ → ℕ → UInt8) : BufferWorld ι where
  mem := { world := MemWorld.initial heap mem, octet := octet }
  buffers _ := BufferObj.empty

end BufferWorld

/-- One call. -/
def bufferStep {ι : Type} [DecidableEq ι] (heap : Heap) (w : BufferWorld ι) :
    BufferOp ι → Option (BufferAnswer × BufferWorld ι)
  | .resize i newSize =>
      let r := (w.buffers i).resize heap w.mem newSize
      some (.success r.1, w.set i r.2)
  | .lenSet i len => some (.done, w.set i (w.mem, (w.buffers i).lenSet w.mem len))
  | .clear i val => some (.done, w.set i ((w.buffers i).clear w.mem val))
  | .copyIn i buf =>
      let r := (w.buffers i).copyIn heap w.mem buf
      some (.success r.1, w.set i r.2)
  | .assign i rhs =>
      -- avoid self-assignment
      if i = rhs then some (.done, w)
      else some (.done, w.set i ((w.buffers i).assign heap w.mem (w.buffers rhs)))
  | .xferMemBlk i dest =>
      let w := w.set dest ((w.buffers dest).resize heap w.mem 0).2
      let w := w.set dest (w.mem, w.buffers i)
      some (.done, w.set i (w.mem, BufferObj.empty))
  | .getMemBlk i => some (.block (w.buffers i).ptrBlock, w.set i (w.mem, BufferObj.empty))
  | .setMemBlk i block =>
      match block with
      | some b =>
          let w := w.set i ((w.buffers i).resize heap w.mem 0).2
          some (.done, w.set i (w.mem, { w.buffers i with ptrBlock := some b }))
      | none => some (.done, w)
  | .memBlockGet size =>
      some (.block (w.mem.get heap size).1, { w with mem := (w.mem.get heap size).2 })
  | .memBlockPut b => some (.success (w.mem.put b).1, { w with mem := (w.mem.put b).2 })
  | .write b f =>
      some (.done, { w with mem := { w.mem with octet := Function.update w.mem.octet b f } })

/-! ### What a member function does -/

namespace BufferObj

/-- The object holds what the buffer does. -/
structure Shows (o : BufferObj) (m : BlockMem) (b : Buffer) : Prop where
  block_eq : b.block = o.ptrBlock.map m.octets
  dataLen_eq : b.dataLen = o.dataLen

/-- The effect of a member function: it acts on the block of its object, and on no other one that is
held. -/
structure Acts (o : BufferObj) (m : BlockMem) (r : BlockMem × BufferObj) : Prop where
  kept : r.1.world.Kept
  sizes_eq : r.1.world.sizes = m.world.sizes
  others : ∀ a, m.world.Holds a → o.ptrBlock ≠ some a →
    r.1.world.Holds a ∧ r.1.octets a = m.octets a
  holds : ∀ b, r.2.ptrBlock = some b → r.1.world.Holds b
  own : ∀ b, r.2.ptrBlock = some b → o.ptrBlock = some b ∨ ¬ m.world.Holds b

/-- The manager is in order, and the block of the object has not been returned. -/
structure Sound (o : BufferObj) (m : BlockMem) : Prop where
  kept : m.world.Kept
  holds : ∀ b, o.ptrBlock = some b → m.world.Holds b

variable {o : BufferObj} {m : BlockMem} {b : Buffer} {r r' : BlockMem × BufferObj}

theorem Acts.sound (h : o.Acts m r) : r.2.Sound r.1 := ⟨h.kept, h.holds⟩

theorem Acts.trans (h : o.Acts m r) (h' : r.2.Acts r.1 r') : o.Acts m r' where
  kept := h'.kept
  sizes_eq := h'.sizes_eq.trans h.sizes_eq
  others a ha hne := by
    obtain ⟨hholds, hoctets⟩ := h.others a ha hne
    have hne' : r.2.ptrBlock ≠ some a := fun heq => (h.own a heq).elim hne fun hnot => hnot ha
    obtain ⟨hholds', hoctets'⟩ := h'.others a hholds hne'
    exact ⟨hholds', hoctets'.trans hoctets⟩
  holds := h'.holds
  own b hb := by
    rcases h'.own b hb with hb' | hnot
    · exact h.own b hb'
    · by_cases hown : o.ptrBlock = some b
      · exact .inl hown
      · exact .inr fun hholds => hnot (h.others b hholds hown).1

@[simp] theorem ptrBlock_lenSet (o : BufferObj) (m : BlockMem) (len : ℕ) :
    (o.lenSet m len).ptrBlock = o.ptrBlock := by
  rw [lenSet]
  cases o.ptrBlock <;> rfl

/-- A member function that writes only the octets of its block, or gives up the block. -/
theorem Sound.acts (h : o.Sound m) {m' : BlockMem} {o' : BufferObj} (hworld : m'.world = m.world)
    (hoctets : ∀ a, o.ptrBlock ≠ some a → m'.octets a = m.octets a)
    (hptr : ∀ b, o'.ptrBlock = some b → o.ptrBlock = some b) : o.Acts m (m', o') where
  kept := hworld ▸ h.kept
  sizes_eq := congrArg MemWorld.sizes hworld
  others a ha hne := ⟨hworld ▸ ha, hoctets a hne⟩
  holds b hb := hworld ▸ h.holds b (hptr b hb)
  own b hb := .inl (hptr b hb)

theorem acts_clear (h : o.Sound m) (val : UInt8) : o.Acts m (o.clear m val) := by
  rw [clear]
  cases hptr : o.ptrBlock with
  | none => exact h.acts rfl (fun _ _ => rfl) fun _ hb => hptr.trans hb
  | some b =>
      refine h.acts rfl (fun a ha => BlockMem.octets_clear_of_ne (fun hab => ha ?_) val)
        fun _ hb => hptr.trans hb
      rw [hptr, hab]

theorem acts_giveBack (h : o.Sound m) : o.Acts m (o.giveBack m) := by
  rw [giveBack]
  cases hptr : o.ptrBlock with
  | none => exact h.acts rfl (fun _ _ => rfl) fun _ hb => hb
  | some b =>
      obtain ⟨-, hloses⟩ := h.kept.put (h.holds b hptr)
      refine ⟨hloses.kept, hloses.sizes_eq, fun a ha hne => ?_, by simp, by simp⟩
      have hab : a ≠ b := fun hab => hne (by rw [hptr, hab])
      exact ⟨(hloses.holds_iff a).2 ⟨hab, ha⟩, BlockMem.octets_congr (hloses.block_eq a hab) rfl⟩

theorem acts_acquire (heap : Heap) (h : o.Sound m) {newSize : ℕ}
    (hfit : MemManager.BlockFits newSize) : o.Acts m (o.acquire heap m newSize) := by
  rw [acquire]
  split_ifs
  · obtain ⟨b, hget, hgains, -⟩ := h.kept.get heap hfit
    refine ⟨hgains.kept, hgains.sizes_eq, fun a ha _ => ?_, fun c hc => ?_, fun c hc => .inr ?_⟩
    · exact ⟨(hgains.holds_iff a).2 (.inr ha), BlockMem.octets_congr (hgains.block_eq a ha) rfl⟩
    · obtain rfl := Option.some.inj (hget.symm.trans hc)
      exact (hgains.holds_iff b).2 (.inl rfl)
    · obtain rfl := Option.some.inj (hget.symm.trans hc)
      exact hgains.not_holds
  · exact h.acts rfl (fun _ _ => rfl) fun _ hb => hb

theorem acts_resize (heap : Heap) (h : o.Sound m) {newSize : ℕ}
    (hfit : MemManager.BlockFits newSize) : o.Acts m (o.resize heap m newSize).2 := by
  rw [resize]
  split_ifs
  · exact h.acts rfl (fun _ _ => rfl) fun _ hb => hb
  · have hgive := acts_giveBack h
    have hacquire := acts_acquire heap hgive.sound hfit
    exact (hgive.trans hacquire).trans (acts_clear hacquire.sound 0)

/-- An object that is resized to nothing has no block, and nothing is in use. -/
theorem resize_zero (heap : Heap) (o : BufferObj) (m : BlockMem) :
    (o.resize heap m 0).2.2 = empty := by
  have hkeeps : o.keeps m 0 = false := by
    rw [keeps]
    cases o.ptrBlock with
    | none => rfl
    | some a => simp
  have hptr : (o.giveBack m).2.ptrBlock = none := by
    rw [giveBack]
    cases hptr : o.ptrBlock with
    | none => exact hptr
    | some a => rfl
  rw [resize, if_neg (by simp [hkeeps])]
  simp only [acquire, lt_irrefl, if_false]
  rw [clear, hptr]
  rfl

theorem acts_memcpy (h : o.Sound m) (d : List UInt8) (len : ℕ) :
    o.Acts m (m.memcpy o.ptrBlock d, { o with dataLen := len }) :=
  h.acts (BlockMem.world_memcpy _ _ _) (fun _ ha => BlockMem.octets_memcpy_of_ne ha d) fun _ hb => hb

/-! ### The objects refine the buffers -/

theorem Shows.size_eq (h : o.Shows m b) : b.size = o.size m := by
  rw [Buffer.size, Buffer.mem, h.block_eq, size]
  cases o.ptrBlock with
  | none => rfl
  | some a => exact BlockMem.length_octets m a

theorem Shows.dataLen_le (h : o.Shows m b) : o.lenGet ≤ o.size m := by
  rw [lenGet, ← h.dataLen_eq, ← h.size_eq]
  exact b.dataLen_le

/-- An object whose length fits holds a buffer. -/
theorem exists_shows (h : o.lenGet ≤ o.size m) : ∃ b, o.Shows m b := by
  have hle : o.dataLen ≤ ((o.ptrBlock.map m.octets).getD []).length := by
    rw [lenGet, size] at h
    cases hptr : o.ptrBlock with
    | none =>
        rw [hptr] at h
        exact h
    | some a =>
        rw [hptr] at h
        rw [Option.map_some, Option.getD_some, BlockMem.length_octets]
        exact h
  exact ⟨⟨o.ptrBlock.map m.octets, o.dataLen, hle⟩, rfl, rfl⟩

theorem Shows.keeps_eq (h : o.Shows m b) (newSize : ℕ) : b.keeps newSize = o.keeps m newSize := by
  rw [Buffer.keeps, keeps, h.block_eq]
  cases o.ptrBlock with
  | none => rfl
  | some a =>
      simp only [Option.map_some, BlockMem.length_octets]

/-- The blocks of other objects stay as they are, and so does what those hold. -/
theorem Shows.congr {m' : BlockMem} (h : o.Shows m b)
    (hoctets : ∀ a, o.ptrBlock = some a → m'.octets a = m.octets a) : o.Shows m' b where
  block_eq := by
    rw [h.block_eq]
    cases hptr : o.ptrBlock with
    | none => rfl
    | some a => rw [Option.map_some, Option.map_some, hoctets a hptr]
  dataLen_eq := h.dataLen_eq

theorem Shows.lenSet (h : o.Shows m b) (len : ℕ) : (o.lenSet m len).Shows m (b.lenSet len) := by
  have hsize := h.size_eq
  rw [size] at hsize
  rw [BufferObj.lenSet]
  cases hptr : o.ptrBlock with
  | none =>
      rw [hptr] at hsize
      refine ⟨h.block_eq.trans (by rw [hptr]), ?_⟩
      show (if len < b.size then len else b.size) = 0
      rw [hsize, if_neg (Nat.not_lt_zero len)]
  | some a =>
      rw [hptr] at hsize
      refine ⟨h.block_eq.trans (by rw [hptr]), ?_⟩
      show (if len < b.size then len else b.size) = _
      rw [hsize]

/-- A block that is cleared holds one value all over. -/
theorem shows_clear (o : BufferObj) (m : BlockMem) (val : UInt8) (block : Option (List UInt8))
    (h : block = o.ptrBlock.map fun a => List.replicate (m.sizeGet a) val) :
    (o.clear m val).2.Shows (o.clear m val).1 ⟨block, 0, Nat.zero_le _⟩ := by
  rw [BufferObj.clear]
  cases hptr : o.ptrBlock with
  | none => exact ⟨h.trans (by rw [hptr]; rfl), rfl⟩
  | some a =>
      refine ⟨h.trans ?_, rfl⟩
      rw [hptr]
      simp only [Option.map_some, BlockMem.octets_clear]

theorem Shows.clear (h : o.Shows m b) (val : UInt8) :
    (o.clear m val).2.Shows (o.clear m val).1 (b.clear val) := by
  refine shows_clear o m val _ ?_
  rw [h.block_eq, Option.map_map]
  refine congrArg (fun f => o.ptrBlock.map f) (funext fun a => ?_)
  rw [Function.comp_apply, BlockMem.length_octets]

/-- **`Resize` refines the function of the buffers.** -/
theorem shows_resize (heap : Heap) (h : o.Sound m) (hs : o.Shows m b) {newSize : ℕ}
    (hfit : MemManager.BlockFits newSize) :
    (o.resize heap m newSize).1 = (b.resize (fittingPools m.world.sizes) newSize).1 ∧
      (o.resize heap m newSize).2.2.Shows (o.resize heap m newSize).2.1
        (b.resize (fittingPools m.world.sizes) newSize).2 := by
  rw [resize, Buffer.resize, hs.keeps_eq]
  split_ifs with hkeeps
  · exact ⟨rfl, hs⟩
  have hgive := acts_giveBack h
  -- the block that comes from the manager is the one that the sizes foresee
  have hfresh : Buffer.freshBlock (fittingPools m.world.sizes) newSize =
      ((o.giveBack m).2.acquire heap (o.giveBack m).1 newSize).2.ptrBlock.map fun a =>
        List.replicate (((o.giveBack m).2.acquire heap (o.giveBack m).1 newSize).1.sizeGet a) 0 := by
    rw [Buffer.freshBlock, acquire]
    split_ifs with hpos
    · obtain ⟨a, hget, -, hsize⟩ := hgive.kept.get heap hfit
      rw [hgive.sizes_eq] at hsize
      have hptr : ((o.giveBack m).1.get heap newSize).1 = some a := hget
      rw [hsize, hptr]
      rfl
    · rw [giveBack]
      cases hptr : o.ptrBlock with
      | none => exact (congrArg (Option.map _) hptr).symm
      | some a => rfl
  have hshows := shows_clear _ _ 0 _ hfresh
  refine ⟨?_, hshows⟩
  have hsome := (congrArg Option.isSome hshows.block_eq).symm
  rw [Option.isSome_map] at hsome
  exact congrArg (· || decide (newSize = 0)) hsome

theorem resize_fst (heap : Heap) (h : o.Sound m) (hs : o.Shows m b) {newSize : ℕ}
    (hfit : MemManager.BlockFits newSize) : (o.resize heap m newSize).1 = true := by
  rw [(shows_resize heap h hs hfit).1, Buffer.resize_fst (plentiful_fittingPools _)]

/-- A resized object has room. -/
theorem le_size_resize (heap : Heap) (h : o.Sound m) (hs : o.Shows m b) {newSize : ℕ}
    (hfit : MemManager.BlockFits newSize) :
    newSize ≤ (o.resize heap m newSize).2.2.size (o.resize heap m newSize).2.1 := by
  rw [← (shows_resize heap h hs hfit).2.size_eq]
  exact Buffer.le_size_resize (Buffer.resize_fst (plentiful_fittingPools _) b newSize)

/-- `memcpy` of all the data to an object that has room, and its length. -/
theorem Shows.fill (h : o.Shows m b) (d : List UInt8) (hd : d.length ≤ b.size) :
    ({ o with dataLen := d.length } : BufferObj).Shows (m.memcpy o.ptrBlock d) (b.fill d hd) := by
  refine ⟨?_, rfl⟩
  show b.block.map (fun x => overwrite x 0 d) = _
  rw [h.size_eq, size] at hd
  rw [h.block_eq]
  cases hptr : o.ptrBlock with
  | none => rfl
  | some a =>
      rw [hptr] at hd
      rw [Option.map_some, Option.map_some, Option.map_some, BlockMem.octets_memcpy hd]

/-- **`CopyIn` refines the function of the buffers.** -/
theorem shows_copyIn (heap : Heap) (h : o.Sound m) (hs : o.Shows m b) {d : List UInt8}
    (hfit : MemManager.BlockFits d.length) :
    (o.copyIn heap m (some d)).1 = true ∧ o.Acts m (o.copyIn heap m (some d)).2 ∧
      (o.copyIn heap m (some d)).2.2.Shows (o.copyIn heap m (some d)).2.1
        (b.copyIn (fittingPools m.world.sizes) d).2 := by
  have hacts := acts_resize heap h hfit
  have hshows := (shows_resize heap h hs hfit).2
  have hroom := Buffer.resize_fst (plentiful_fittingPools m.world.sizes) b d.length
  rw [copyIn, Buffer.copyIn, dif_pos hroom]
  simp only [resize_fst heap h hs hfit, if_true]
  exact ⟨trivial, hacts.trans (acts_memcpy hacts.sound d d.length), hshows.fill d _⟩

/-- The octets in use of an object. -/
theorem Shows.data_eq {a : ℕ} (h : o.Shows m b) (hptr : o.ptrBlock = some a) :
    b.data = (m.octets a).take o.dataLen := by
  rw [Buffer.data, Buffer.mem, h.block_eq, hptr, h.dataLen_eq]
  rfl

theorem Shows.data_eq_nil (h : o.Shows m b) (hptr : o.ptrBlock = none) : b.data = [] := by
  rw [Buffer.data, Buffer.mem, h.block_eq, hptr]
  exact List.take_nil

/-- The octets in use lie in a block that is held, so they could be requested. -/
theorem Sound.blockFits (h : o.Sound m) (hs : o.Shows m b) : MemManager.BlockFits o.dataLen := by
  have hle := hs.dataLen_le
  rw [lenGet, size] at hle
  cases hptr : o.ptrBlock with
  | none =>
      rw [hptr] at hle
      rw [Nat.le_zero.1 hle]
      decide
  | some a =>
      have hle : o.dataLen ≤ (m.world.mem.block a).blockSize := by
        rw [hptr] at hle
        exact hle
      have hfit := h.kept.fits a (h.holds a hptr)
      rw [MemManager.BlockFits] at hfit ⊢
      omega

/-- **An assignment copies the data of the other object**, which has a block of its own. -/
theorem assign_eq_copyIn (heap : Heap) (h : o.Sound m) (hs : o.Shows m b) {rhs : BufferObj}
    {c : Buffer} (hrhs : rhs.Sound m) (hc : rhs.Shows m c)
    (hapart : ∀ a, rhs.ptrBlock = some a → o.ptrBlock ≠ some a) :
    o.assign heap m rhs = (o.copyIn heap m (some c.data)).2 := by
  have hlen : c.data.length = rhs.dataLen := c.length_data.trans hc.dataLen_eq
  have hfit := hrhs.blockFits hc
  have hacts := acts_resize heap h hfit
  rw [assign, copyIn]
  simp only [hlen, resize_fst heap h hs hfit, if_true]
  cases hptr : rhs.ptrBlock with
  | none => rw [hc.data_eq_nil hptr, BlockMem.memcpy_nil]
  | some a =>
      -- the block of the other object is where it was
      obtain ⟨-, hoctets⟩ := hacts.others a (hrhs.holds a hptr) (hapart a hptr)
      have hsize : rhs.dataLen ≤ (o.resize heap m rhs.dataLen).2.1.sizeGet a := by
        have hle := hc.dataLen_le
        rw [size, hptr] at hle
        rw [← BlockMem.length_octets, hoctets, BlockMem.length_octets]
        exact hle
      have hdata : ((o.resize heap m rhs.dataLen).2.1.octets a).take rhs.dataLen = c.data := by
        rw [hoctets, hc.data_eq hptr]
      rcases Nat.eq_zero_or_pos rhs.dataLen with hzero | hpos
      · have hnil : c.data = [] := List.eq_nil_of_length_eq_zero (hlen.trans hzero)
        simp only [hnil, BlockMem.memcpy_nil, hzero, lt_irrefl, false_and, if_false]
      · simp only [hdata, if_pos (And.intro hpos hsize)]

/-- **Assignment refines the function of the buffers.** -/
theorem shows_assign (heap : Heap) (h : o.Sound m) (hs : o.Shows m b) {rhs : BufferObj} {c : Buffer}
    (hrhs : rhs.Sound m) (hc : rhs.Shows m c)
    (hapart : ∀ a, rhs.ptrBlock = some a → o.ptrBlock ≠ some a) :
    o.Acts m (o.assign heap m rhs) ∧
      (o.assign heap m rhs).2.Shows (o.assign heap m rhs).1
        (b.assign (fittingPools m.world.sizes) c) := by
  have hlen : c.data.length = rhs.dataLen := c.length_data.trans hc.dataLen_eq
  rw [assign_eq_copyIn heap h hs hrhs hc hapart]
  exact (shows_copyIn heap h hs (hlen ▸ hrhs.blockFits hc)).2

end BufferObj

/-! ### The objects of a program -/

namespace BufferWorld

variable {ι : Type}

/-- The invariant: every object holds a buffer, and its block is its own. -/
structure Owned (w : BufferWorld ι) : Prop where
  kept : w.mem.world.Kept
  holds : ∀ i b, (w.buffers i).ptrBlock = some b → w.mem.world.Holds b
  apart : ∀ i j b, (w.buffers i).ptrBlock = some b → (w.buffers j).ptrBlock = some b → i = j
  shows : ∀ i, ∃ b, (w.buffers i).Shows w.mem b

variable {w : BufferWorld ι} {i j : ι} {r : BlockMem × BufferObj}

theorem Owned.sound (h : w.Owned) (i : ι) : (w.buffers i).Sound w.mem := ⟨h.kept, h.holds i⟩

theorem owned_initial (heap : Heap) (mem : Memory) (octet : ℕ → ℕ → UInt8) :
    (initial heap mem octet : BufferWorld ι).Owned where
  kept := MemWorld.kept_initial heap mem
  holds _ _ hb := absurd hb (by simp [initial, BufferObj.empty])
  apart _ _ _ hb _ := absurd hb (by simp [initial, BufferObj.empty])
  shows _ := ⟨Buffer.empty, rfl, rfl⟩

/-- The octets in use are those of the buffer that the object holds. -/
theorem data_eq {b : Buffer} (h : (w.buffers i).Shows w.mem b) : w.data i = b.data := by
  rw [data]
  cases hptr : (w.buffers i).ptrBlock with
  | none => exact (h.data_eq_nil hptr).symm
  | some a => exact (h.data_eq hptr).symm

/-- Somebody else acts, and the blocks of the objects keep their sizes. -/
theorem Owned.frame (h : w.Owned) {m : BlockMem} (hkept : m.world.Kept)
    (hblock : ∀ a, w.mem.world.Holds a → (∃ i, (w.buffers i).ptrBlock = some a) →
      m.world.Holds a ∧ m.sizeGet a = w.mem.sizeGet a) : Owned { w with mem := m } where
  kept := hkept
  holds i a ha := (hblock a (h.holds i a ha) ⟨i, ha⟩).1
  apart := h.apart
  shows i := by
    obtain ⟨b, hb⟩ := h.shows i
    refine BufferObj.exists_shows (hb.dataLen_le.trans (le_of_eq ?_))
    rw [BufferObj.size, BufferObj.size]
    cases hptr : (w.buffers i).ptrBlock with
    | none => rfl
    | some a => exact (hblock a (h.holds i a hptr) ⟨i, hptr⟩).2.symm

variable [DecidableEq ι]

@[simp] theorem mem_set (w : BufferWorld ι) (i : ι) (r : BlockMem × BufferObj) :
    (w.set i r).mem = r.1 := rfl

@[simp] theorem buffers_set_self (w : BufferWorld ι) (i : ι) (r : BlockMem × BufferObj) :
    (w.set i r).buffers i = r.2 := Function.update_self _ _ _

theorem buffers_set_of_ne (h : j ≠ i) (w : BufferWorld ι) (r : BlockMem × BufferObj) :
    (w.set i r).buffers j = w.buffers j := Function.update_of_ne h _ _

/-- **One object changes**, and the blocks of the others stay as they are. -/
theorem Owned.set (h : w.Owned) (hkept : r.1.world.Kept)
    (hothers : ∀ j ≠ i, ∀ a, (w.buffers j).ptrBlock = some a →
      r.1.world.Holds a ∧ r.1.octets a = w.mem.octets a)
    (hown : ∀ b, r.2.ptrBlock = some b →
      r.1.world.Holds b ∧ ∀ j ≠ i, (w.buffers j).ptrBlock ≠ some b)
    (hshows : ∃ b, r.2.Shows r.1 b) : (w.set i r).Owned where
  kept := hkept
  holds j b hb := by
    by_cases hj : j = i
    · subst hj
      rw [buffers_set_self] at hb
      exact (hown b hb).1
    · rw [buffers_set_of_ne hj] at hb
      exact (hothers j hj b hb).1
  apart j k b hj hk := by
    by_cases hji : j = i <;> by_cases hki : k = i
    · rw [hji, hki]
    · subst hji
      rw [buffers_set_self] at hj
      rw [buffers_set_of_ne hki] at hk
      exact absurd hk ((hown b hj).2 k hki)
    · subst hki
      rw [buffers_set_self] at hk
      rw [buffers_set_of_ne hji] at hj
      exact absurd hj ((hown b hk).2 j hji)
    · rw [buffers_set_of_ne hji] at hj
      rw [buffers_set_of_ne hki] at hk
      exact h.apart j k b hj hk
  shows j := by
    by_cases hj : j = i
    · subst hj
      rwa [buffers_set_self]
    · obtain ⟨b, hb⟩ := h.shows j
      rw [buffers_set_of_ne hj]
      exact ⟨b, hb.congr fun a ha => (hothers j hj a ha).2⟩

/-- **A member function keeps the invariant** when it acts on the block of its own object. -/
theorem Owned.act (h : w.Owned) (hacts : (w.buffers i).Acts w.mem r)
    (hshows : ∃ b, r.2.Shows r.1 b) : (w.set i r).Owned := by
  have hne : ∀ j ≠ i, ∀ a, (w.buffers j).ptrBlock = some a → (w.buffers i).ptrBlock ≠ some a :=
    fun j hj a ha hi => hj (h.apart j i a ha hi)
  refine h.set hacts.kept (fun j hj a ha => hacts.others a (h.holds j a ha) (hne j hj a ha)) ?_ hshows
  intro b hb
  refine ⟨hacts.holds b hb, fun j hj hjb => ?_⟩
  rcases hacts.own b hb with hi | hnot
  · exact hne j hj b hjb hi
  · exact hnot (h.holds j b hjb)

/-- An object gives up its block. -/
theorem Owned.release (h : w.Owned) (i : ι) : (w.set i (w.mem, BufferObj.empty)).Owned :=
  h.act ((h.sound i).acts rfl (fun _ _ => rfl) (by simp [BufferObj.empty]))
    ⟨Buffer.empty, rfl, rfl⟩

/-- An object takes over a block that no other object owns. -/
theorem Owned.take (h : w.Owned) {o : BufferObj}
    (hown : ∀ b, o.ptrBlock = some b → w.mem.world.Holds b ∧ ∀ j ≠ i, (w.buffers j).ptrBlock ≠ some b)
    (hshows : ∃ b, o.Shows w.mem b) : (w.set i (w.mem, o)).Owned :=
  h.set h.kept (fun j _ a ha => ⟨h.holds j a ha, rfl⟩) hown hshows

theorem Owned.resize (h : w.Owned) (heap : Heap) (i : ι) {newSize : ℕ}
    (hfit : MemManager.BlockFits newSize) :
    (w.set i ((w.buffers i).resize heap w.mem newSize).2).Owned := by
  obtain ⟨b, hb⟩ := h.shows i
  exact h.act (BufferObj.acts_resize heap (h.sound i) hfit)
    ⟨_, (BufferObj.shows_resize heap (h.sound i) hb hfit).2⟩

/-- **A block is transferred** to another object, which returns its own. -/
theorem Owned.xferMemBlk (h : w.Owned) (i dest : ι)
    (hdest : (w.buffers dest).ptrBlock = none) :
    ((w.set dest (w.mem, w.buffers i)).set i (w.mem, BufferObj.empty)).Owned := by
  have hrelease := h.release i
  by_cases hi : i = dest
  · subst hi
    have heq : (w.set i (w.mem, w.buffers i)).set i (w.mem, BufferObj.empty) =
        w.set i (w.mem, BufferObj.empty) := by
      simp only [BufferWorld.set, Function.update_idem]
    rw [heq]
    exact hrelease
  · have heq : (w.set dest (w.mem, w.buffers i)).set i (w.mem, BufferObj.empty) =
        (w.set i (w.mem, BufferObj.empty)).set dest (w.mem, w.buffers i) := by
      simp only [BufferWorld.set, Function.update_comm hi]
    rw [heq]
    refine hrelease.take (fun b hb => ⟨h.holds i b hb, fun j hj hjb => ?_⟩) (h.shows i)
    by_cases hji : j = i
    · subst hji
      rw [buffers_set_self] at hjb
      exact absurd hjb (by simp [BufferObj.empty])
    · rw [buffers_set_of_ne hji] at hjb
      exact hji (h.apart j i b hjb hb)

/-- A block that no object owns is still there when an object has been resized. -/
theorem Loose.resize (h : w.Owned) {b : ℕ} (hb : w.Loose b) (heap : Heap) (i : ι) {newSize : ℕ}
    (hfit : MemManager.BlockFits newSize) :
    (w.set i ((w.buffers i).resize heap w.mem newSize).2).Loose b := by
  have hacts := BufferObj.acts_resize heap (h.sound i) hfit
  refine ⟨(hacts.others b hb.1 (hb.2 i)).1, fun j hj => ?_⟩
  by_cases hji : j = i
  · subst hji
    rw [buffers_set_self] at hj
    exact (hacts.own b hj).elim (hb.2 j) fun hnot => hnot hb.1
  · rw [buffers_set_of_ne hji] at hj
    exact hb.2 j hj

end BufferWorld

open BufferWorld

variable {ι : Type} [DecidableEq ι]

theorem blockFits_zero : MemManager.BlockFits 0 := by decide

/-- **Every call keeps the invariant.** -/
theorem bufferStep_owned {heap : Heap} {w w' : BufferWorld ι} {op : BufferOp ι} {a : BufferAnswer}
    (h : w.Owned) (hallows : w.Allows op) (hstep : bufferStep heap w op = some (a, w')) :
    w'.Owned := by
  cases op with
  | resize i newSize =>
      obtain rfl := (Prod.mk.inj (Option.some.inj hstep)).2
      exact h.resize heap i hallows
  | lenSet i len =>
      obtain rfl := (Prod.mk.inj (Option.some.inj hstep)).2
      obtain ⟨b, hb⟩ := h.shows i
      refine h.act ((h.sound i).acts rfl (fun _ _ => rfl) fun c hc => ?_) ⟨_, hb.lenSet len⟩
      rwa [BufferObj.ptrBlock_lenSet] at hc
  | clear i val =>
      obtain rfl := (Prod.mk.inj (Option.some.inj hstep)).2
      obtain ⟨b, hb⟩ := h.shows i
      exact h.act (BufferObj.acts_clear (h.sound i) val) ⟨_, hb.clear val⟩
  | copyIn i buf =>
      obtain rfl := (Prod.mk.inj (Option.some.inj hstep)).2
      obtain ⟨b, hb⟩ := h.shows i
      cases buf with
      | none => exact h.act ((h.sound i).acts rfl (fun _ _ => rfl) fun _ hc => hc) ⟨b, hb⟩
      | some d =>
          obtain ⟨-, hacts, hshows⟩ := BufferObj.shows_copyIn heap (h.sound i) hb hallows
          exact h.act hacts ⟨_, hshows⟩
  | assign i rhs =>
      rw [bufferStep] at hstep
      split_ifs at hstep with hi
      · obtain rfl := (Prod.mk.inj (Option.some.inj hstep)).2
        exact h
      · obtain rfl := (Prod.mk.inj (Option.some.inj hstep)).2
        obtain ⟨b, hb⟩ := h.shows i
        obtain ⟨c, hc⟩ := h.shows rhs
        obtain ⟨hacts, hshows⟩ := BufferObj.shows_assign heap (h.sound i) hb (h.sound rhs) hc
          fun a ha ha' => hi (h.apart i rhs a ha' ha)
        exact h.act hacts ⟨_, hshows⟩
  | xferMemBlk i dest =>
      obtain rfl := (Prod.mk.inj (Option.some.inj hstep)).2
      refine (h.resize heap dest blockFits_zero).xferMemBlk i dest ?_
      rw [buffers_set_self, BufferObj.resize_zero]
      rfl
  | getMemBlk i =>
      obtain rfl := (Prod.mk.inj (Option.some.inj hstep)).2
      exact h.release i
  | setMemBlk i block =>
      cases block with
      | none =>
          obtain rfl := (Prod.mk.inj (Option.some.inj hstep)).2
          exact h
      | some b =>
          obtain rfl := (Prod.mk.inj (Option.some.inj hstep)).2
          have hloose := Loose.resize h hallows heap i blockFits_zero
          refine (h.resize heap i blockFits_zero).take (fun c hc => ?_) (BufferObj.exists_shows ?_)
          · obtain rfl := Option.some.inj hc
            exact ⟨hloose.1, fun j _ => hloose.2 j⟩
          · rw [buffers_set_self, BufferObj.resize_zero]
            exact Nat.zero_le _
  | memBlockGet size =>
      obtain rfl := (Prod.mk.inj (Option.some.inj hstep)).2
      obtain ⟨b, -, hgains, -⟩ := h.kept.get heap hallows
      exact h.frame hgains.kept fun a ha _ =>
        ⟨(hgains.holds_iff a).2 (.inr ha), congrArg MemBlock.blockSize (hgains.block_eq a ha)⟩
  | memBlockPut b =>
      obtain rfl := (Prod.mk.inj (Option.some.inj hstep)).2
      obtain ⟨-, hloses⟩ := h.kept.put hallows.1
      refine h.frame hloses.kept fun a ha howned => ?_
      have hab : a ≠ b := by
        rintro rfl
        obtain ⟨i, hi⟩ := howned
        exact hallows.2 i hi
      exact ⟨(hloses.holds_iff a).2 ⟨hab, ha⟩, congrArg MemBlock.blockSize (hloses.block_eq a hab)⟩
  | write b f =>
      obtain rfl := (Prod.mk.inj (Option.some.inj hstep)).2
      exact h.frame h.kept fun a ha _ => ⟨ha, rfl⟩

/-- **An assignment copies the octets in use**, and leaves those of the other object. -/
theorem bufferStep_assign {heap : Heap} {w w' : BufferWorld ι} (h : w.Owned) {i rhs : ι}
    (hi : i ≠ rhs) {a : BufferAnswer} (hstep : bufferStep heap w (.assign i rhs) = some (a, w')) :
    (w'.buffers i).lenGet = (w.buffers rhs).lenGet ∧ w'.data i = w.data rhs ∧
      w'.data rhs = w.data rhs := by
  rw [bufferStep, if_neg hi] at hstep
  obtain rfl := (Prod.mk.inj (Option.some.inj hstep)).2
  obtain ⟨b, hb⟩ := h.shows i
  obtain ⟨c, hc⟩ := h.shows rhs
  have hapart : ∀ a, (w.buffers rhs).ptrBlock = some a → (w.buffers i).ptrBlock ≠ some a :=
    fun a ha ha' => hi (h.apart i rhs a ha' ha)
  obtain ⟨hacts, hshows⟩ :=
    BufferObj.shows_assign heap (h.sound i) hb (h.sound rhs) hc hapart
  have hdata := Buffer.data_assign (plentiful_fittingPools w.mem.world.sizes) b c
  set w' := w.set i ((w.buffers i).assign heap w.mem (w.buffers rhs)) with hw'
  have hshows' : (w'.buffers i).Shows w'.mem (b.assign (fittingPools w.mem.world.sizes) c) := by
    rwa [hw', buffers_set_self]
  have hrhs : (w'.buffers rhs).Shows w'.mem c := by
    rw [hw', buffers_set_of_ne hi.symm]
    exact hc.congr fun a ha => (hacts.others a (h.holds rhs a ha) (hapart a ha)).2
  refine ⟨?_, by rw [data_eq hshows', hdata, data_eq hc], by rw [data_eq hrhs, data_eq hc]⟩
  rw [BufferObj.lenGet, ← hshows'.dataLen_eq, ← Buffer.length_data, hdata, Buffer.length_data,
    hc.dataLen_eq, BufferObj.lenGet]

/-- **`CopyIn` copies all the octets.** -/
theorem bufferStep_copyIn {heap : Heap} {w w' : BufferWorld ι} (h : w.Owned) {i : ι} {d : List UInt8}
    (hfit : MemManager.BlockFits d.length) {a : BufferAnswer}
    (hstep : bufferStep heap w (.copyIn i (some d)) = some (a, w')) :
    a = .success true ∧ (w'.buffers i).lenGet = d.length ∧ w'.data i = d := by
  obtain ⟨rfl, rfl⟩ := Prod.mk.inj (Option.some.inj hstep)
  obtain ⟨b, hb⟩ := h.shows i
  obtain ⟨htrue, -, hshows⟩ := BufferObj.shows_copyIn heap (h.sound i) hb hfit
  have hdata := Buffer.data_copyIn (plentiful_fittingPools w.mem.world.sizes) b d
  set w' := w.set i ((w.buffers i).copyIn heap w.mem (some d)).2 with hw'
  have hshows' : (w'.buffers i).Shows w'.mem (b.copyIn (fittingPools w.mem.world.sizes) d).2 := by
    rwa [hw', buffers_set_self]
  refine ⟨congrArg BufferAnswer.success htrue, ?_, by rw [data_eq hshows', hdata]⟩
  rw [BufferObj.lenGet, ← hshows'.dataLen_eq, ← Buffer.length_data, hdata]

/-- **Lengths, owners and copies**, after any calls: no length exceeds its block, no block has two owners,
a block that a buffer owns has not been returned, and an assignment or `CopyIn` copies the octets in use. -/
theorem buffers_own_blocks (heap : Heap) (mem₀ : Memory) (octet₀ : ℕ → ℕ → UInt8)
    {ops : List (BufferOp ι)} {answers : List BufferAnswer} {w : BufferWorld ι}
    (hrun : StepSystem.run (bufferStep heap) ops (initial heap mem₀ octet₀) = some (answers, w))
    (hallows : StepSystem.Meets (bufferStep heap) Allows ops (initial heap mem₀ octet₀)) :
    (∀ i, (w.buffers i).lenGet ≤ (w.buffers i).size w.mem) ∧
    (∀ i j b, (w.buffers i).ptrBlock = some b → (w.buffers j).ptrBlock = some b → i = j) ∧
    (∀ i b, (w.buffers i).ptrBlock = some b →
      w.mem.world.Holds b ∧ (w.mem.world.mem.block b).valid = true ∧ w.mem.world.mem.Inside b ∧
      ∀ p ∈ w.mem.world.mgr.pools, ∀ l, MemManager.Inventory w.mem.world.mem p l → b ∉ l) ∧
    (∀ i rhs, i ≠ rhs → ∀ a w', bufferStep heap w (.assign i rhs) = some (a, w') →
      (w'.buffers i).lenGet = (w.buffers rhs).lenGet ∧ w'.data i = w.data rhs ∧
      w'.data rhs = w.data rhs) ∧
    (∀ i d a w', MemManager.BlockFits d.length → bufferStep heap w (.copyIn i (some d)) = some (a, w') →
      a = .success true ∧ (w'.buffers i).lenGet = d.length ∧ w'.data i = d) := by
  have hok : w.Owned := StepSystem.run_invariant_of_meets
    (fun h hG hstep => bufferStep_owned h hG hstep) (owned_initial heap mem₀ octet₀) hrun hallows
  refine ⟨fun i => ?_, hok.apart, fun i b hb => ?_, fun i rhs hi a w' => bufferStep_assign hok hi,
    fun i d a w' hfit => bufferStep_copyIn hok hfit⟩
  · obtain ⟨b, hb⟩ := hok.shows i
    exact hb.dataLen_le
  · exact ⟨hok.holds i b hb, hok.kept.of_holds (hok.holds i b hb)⟩

/-- A buffer is filled and assigned to another one, which gives its block away. -/
theorem buffers_own_blocks_two :
    ∃ (answers : List BufferAnswer) (w : BufferWorld Bool),
      StepSystem.run (bufferStep bumpHeap)
        [.copyIn true (some [1, 2, 3]), .assign false true, .getMemBlk false]
        (initial bumpHeap unusedMemory fun _ _ => 0) = some (answers, w) ∧
      (∀ i, (w.buffers i).lenGet ≤ (w.buffers i).size w.mem) ∧
      ∀ i j b, (w.buffers i).ptrBlock = some b → (w.buffers j).ptrBlock = some b → i = j := by
  have hrun : ∃ (answers : List BufferAnswer) (w : BufferWorld Bool),
      StepSystem.run (bufferStep bumpHeap)
        [.copyIn true (some [1, 2, 3]), .assign false true, .getMemBlk false]
        (initial bumpHeap unusedMemory fun _ _ => 0) = some (answers, w) := ⟨_, _, rfl⟩
  obtain ⟨answers, w, hrun⟩ := hrun
  have hall := buffers_own_blocks bumpHeap unusedMemory (fun _ _ => 0) hrun
    ⟨(by decide : MemManager.BlockFits 3), fun _ _ _ =>
      ⟨trivial, fun _ _ _ => ⟨trivial, fun _ _ _ => trivial⟩⟩⟩
  exact ⟨answers, w, hrun, hall.1, hall.2.1⟩

end CodePort
