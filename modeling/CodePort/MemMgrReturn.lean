/-
Blocks that come back.

The manager does not record whether a block is from a pool or has been allocated for itself.  When
a block comes back, that is decided again, from the pools that there are by then: a block that was
greater than every pool is refused, or put into a pool that never counted it, when a pool has been
created since that fits it.  If no such pool is created, every block that is held can be returned,
and every pool counts the blocks in its inventory and those of its blocks that are held.  The heap may fail,
and pools need not have an increment; but then a request must not fail with a pointer that leads nowhere.

Main definitions:

* `CodePort.Memory.Within` — the address lies in memory that was allocated at another one;
* `CodePort.HolderOp`, `CodePort.holderStep` — one call, when a block of any origin may be returned;
* `CodePort.MemWorld.initialOr` — the manager that has been constructed;
* `CodePort.MemWorld.CustomOk`, `CodePort.PoolCounted` — what holds of a block that is from no pool,
  and of the counters of a pool;
* `CodePort.MemWorld.Foreseen` — the condition on a call.

Main results:

* `CodePort.MemWorld.holderStep_returnable` — **one call keeps the invariant**;
* `CodePort.memBlockPut_of_foreseen` — every block that is held can be returned;
* `CodePort.memBlockPut_unforeseen` — what becomes of a block that a later pool fits.
-/

import CodePort.MemMgrFail
import CodePort.MemMgrRun

set_option relaxedAutoImplicit false
set_option autoImplicit false

namespace CodePort

open LinkedQueue

/-! ### Memory that is deleted -/

namespace Memory

/-- The address `a` lies in memory that was allocated at `b`. -/
def Within (mem : Memory) (b a : ℕ) : Prop := ∃ r ∈ mem.used, r.1 = b ∧ r.1 ≤ a ∧ a < r.1 + r.2

variable {mem mem' : Memory} {a b : ℕ}

theorem Within.inside (h : mem.Within b a) : mem.Inside a := by
  obtain ⟨r, hr, -, hin⟩ := h
  exact ⟨r, hr, hin⟩

theorem Within.inside_left (h : mem.Within b a) : mem.Inside b := by
  obtain ⟨r, hr, rfl, hle, hlt⟩ := h
  exact ⟨r, hr, Nat.le_refl _, Nat.lt_of_le_of_lt hle hlt⟩

/-- What was allocated since is somewhere else. -/
theorem Within.of_newRanges (h : mem'.Within b a) (hranges : MemPool.NewRanges mem mem')
    (hb : mem.Inside b) : mem.Within b a := by
  obtain ⟨r, hr, rfl, hin⟩ := h
  rcases hranges r hr with hr | hout
  · exact ⟨r, hr, rfl, hin⟩
  · exact absurd hb hout

/-- **What does not lie in a block** is in use after the block has been deleted. -/
theorem inside_delete (h : mem.Inside a) (hb : ¬ mem.Within b a) : (mem.delete b).Inside a := by
  obtain ⟨r, hr, hin⟩ := h
  refine ⟨r, List.mem_filter.2 ⟨hr, decide_eq_true ?_⟩, hin⟩
  exact fun heq => hb ⟨r, hr, heq, hin⟩

theorem newRanges_delete (mem : Memory) (b : ℕ) : MemPool.NewRanges mem (mem.delete b) :=
  fun _ hr => .inl (List.mem_filter.1 hr).1

end Memory

/-- No pool and no block in an inventory lies in the memory that is deleted. -/
theorem PoolsOk.delete {pools : List MemPool} {mem : Memory} {free : ℕ → List ℕ} {b : ℕ}
    (h : PoolsOk pools mem free) (hthis : ∀ p ∈ pools, ¬ mem.Within b p.this)
    (hfree : ∀ p ∈ pools, ∀ a ∈ free p.this, ¬ mem.Within b a) :
    PoolsOk pools (mem.delete b) free where
  sorted := h.sorted
  nodup := h.nodup
  inside_this p hp := Memory.inside_delete (h.inside_this p hp) (hthis p hp)
  queue := h.queue
  free_block := h.free_block
  inside_free p hp a ha := Memory.inside_delete (h.inside_free p hp a ha) (hfree p hp a ha)

/-- No block that is held lies in the memory that is deleted. -/
theorem HeldOk.delete {mgr : MemManager} {mem : Memory} {held : List (ℕ × Option ℕ)} {b : ℕ}
    (h : HeldOk mgr mem held) (hheld : ∀ e ∈ held, ¬ mem.Within b e.1) :
    HeldOk mgr (mem.delete b) held where
  nodup := h.nodup
  valid := h.valid
  inside e he := Memory.inside_delete (h.inside e he) (hheld e he)
  pool := h.pool
  count := h.count
  size := h.size

/-! ### Calls by the holders of blocks -/

/-- A call, or what a holder does to a block.  The heap of a call may fail, and a request comes with the
pointer that the block is assigned to. -/
inductive HolderOp
  | createPool (heap : NothrowHeap) (blockSize : ℕ) (initial increment : UInt32)
  | memBlockGet (heap : NothrowHeap) (ptr : Option ℕ) (size : ℕ)
  | memBlockPut (b : ℕ)
  /-- A block is returned using its buffer pointer. -/
  | memBlockPutBuf (b : ℕ)
  /-- The holder of a block writes to the start of its buffer. -/
  | write (b : ℕ) (ptr : Option ℕ)

/-- One call.  Whoever holds a block may return it. -/
def holderStep (w : MemWorld) : HolderOp → Option (MemAnswer × MemWorld)
  | .createPool heap blockSize initial increment =>
      let r := w.mgr.createPoolOr heap w.mem blockSize initial increment
      some (.created r.1, { w with mgr := r.2.1, mem := r.2.2 })
  | .memBlockGet heap ptr size =>
      let r := w.mgr.memBlockGetOr (heap.new w.mem.used) w.mem ptr size
      let got := if r.rv then r.ptr else none
      let held := match got with
        | some b => (b, (w.mgr.poolGet size).map MemPool.this) :: w.held
        | none => w.held
      some (.got got, { mgr := r.mgr, mem := r.mem, held := held })
  | .memBlockPut b =>
      (w.held.lookup b).map fun o =>
        let r := w.mgr.memBlockPut w.mem (some b)
        let held := if r.1 then w.held.erase (b, o) else w.held
        (.put r.1, { mgr := r.2.2.1, mem := r.2.2.2, held := held })
  | .memBlockPutBuf b =>
      (w.held.lookup b).map fun o =>
        let r := w.mgr.memBlockPutBuf w.mem (some (b + MemBlock.sizeOf))
        let held := if r.1 then w.held.erase (b, o) else w.held
        (.put r.1, { mgr := r.2.2.1, mem := r.2.2.2, held := held })
  | .write b ptr =>
      match w.held.lookup b with
      | some _ => some (.written, { w with mem := w.mem.nextSet (some b) ptr })
      | none => none

/-- Create one pool after another, on a heap that may fail. -/
def MemManager.createPoolsOr (heap : NothrowHeap) (l : List (ℕ × UInt32 × UInt32)) (mgr : MemManager)
    (mem : Memory) : MemManager × Memory :=
  l.foldl (fun r p => (r.1.createPoolOr heap r.2 p.1 p.2.1 p.2.2).2) (mgr, mem)

/-- The world when the manager has been constructed on a heap that may fail. -/
def MemWorld.initialOr (heap : NothrowHeap) (mem : Memory) : MemWorld where
  mgr := (MemManager.createPoolsOr heap MemManager.standardPools MemManager.poolless mem).1
  mem := (MemManager.createPoolsOr heap MemManager.standardPools MemManager.poolless mem).2
  held := []

/-- A pool counts the blocks in its inventory `l`, and those that are held. -/
structure PoolCounted (held : List (ℕ × Option ℕ)) (p : MemPool) (l : List ℕ) : Prop where
  lt : l.length + (held.map Prod.snd).count (some p.this) < 2 ^ 32
  inventory_eq : p.inventory = UInt32.ofNat l.length
  totalBlocks_eq :
    p.totalBlocks = UInt32.ofNat (l.length + (held.map Prod.snd).count (some p.this))

/-- **The inventory never exceeds the total.** -/
theorem PoolCounted.inventory_le {held : List (ℕ × Option ℕ)} {p : MemPool} {l : List ℕ}
    (h : PoolCounted held p l) : p.inventory ≤ p.totalBlocks := by
  rw [UInt32.le_iff_toNat_le, h.inventory_eq, h.totalBlocks_eq, UInt32.toNat_ofNat_of_lt' h.lt,
    UInt32.toNat_ofNat_of_lt' (Nat.lt_of_le_of_lt (Nat.le_add_right _ _) h.lt)]
  exact Nat.le_add_right _ _

namespace MemWorld

/-- The call is foreseen.  A new pool is smaller than every block that is from no pool.  A request that
fails comes with a pointer to a block that is held, whose guard is written again.  A segment has room for
its blocks, and a custom size block for its buffer; and a pool that is extended can count its blocks. -/
def Foreseen (w : MemWorld) : HolderOp → Prop
  | .createPool heap blockSize initial _ =>
      ((∃ p ∈ w.mgr.pools, p.blockSize = MemManager.poolSize blockSize) ∨
        heap.new w.mem.used MemPool.sizeOf = none) ∨
      (heap.ServesSegment w.mem (MemManager.poolSize blockSize) initial →
        MemPool.SegmentFits (MemManager.poolSize blockSize) initial) ∧
      ∀ e ∈ w.held, e.2 = none → MemManager.poolSize blockSize < (w.mem.block e.1).blockSize
  | .memBlockGet heap ptr size =>
      if w.mgr.Exhausted (heap.new w.mem.used) size then ∃ b ∈ ptr, b ∈ w.held.map Prod.fst
      else
        (∀ p ∈ w.mgr.poolGet size, p.blkHead = none →
          MemPool.SegmentFits p.blockSize p.increment ∧
            p.totalBlocks.toNat + p.increment.toNat < 2 ^ 32) ∧
        (w.mgr.poolGet size = none → MemManager.BlockFits size)
  | _ => True

instance decidableForeseen (w : MemWorld) (op : HolderOp) : Decidable (w.Foreseen op) :=
  match op with
  | .createPool heap blockSize initial _ => inferInstanceAs (Decidable
      (((∃ p ∈ w.mgr.pools, p.blockSize = MemManager.poolSize blockSize) ∨
        heap.new w.mem.used MemPool.sizeOf = none) ∨
      (heap.ServesSegment w.mem (MemManager.poolSize blockSize) initial →
        MemPool.SegmentFits (MemManager.poolSize blockSize) initial) ∧
      ∀ e ∈ w.held, e.2 = none → MemManager.poolSize blockSize < (w.mem.block e.1).blockSize))
  | .memBlockGet heap ptr size => inferInstanceAs (Decidable
      (if w.mgr.Exhausted (heap.new w.mem.used) size then ∃ b ∈ ptr, b ∈ w.held.map Prod.fst
      else
        (∀ p ∈ w.mgr.poolGet size, p.blkHead = none →
          MemPool.SegmentFits p.blockSize p.increment ∧
            p.totalBlocks.toNat + p.increment.toNat < 2 ^ 32) ∧
        (w.mgr.poolGet size = none → MemManager.BlockFits size)))
  | .memBlockPut _ | .memBlockPutBuf _ | .write _ _ => .isTrue trivial

/-- The addresses of the pools, of the blocks in the inventories `free`, and of the blocks other than
`b` that are held. -/
def Live (w : MemWorld) (free : ℕ → List ℕ) (b a : ℕ) : Prop :=
  (∃ p ∈ w.mgr.pools, a = p.this ∨ a ∈ free p.this) ∨ a ∈ w.held.map Prod.fst ∧ a ≠ b

/-- What holds of a block that is from no pool: every pool is smaller, and the memory of the block is
its own. -/
structure CustomOk (w : MemWorld) (free : ℕ → List ℕ) (b : ℕ) : Prop where
  big : ∀ p ∈ w.mgr.pools, p.blockSize < (w.mem.block b).blockSize
  apart : ∀ a, w.Live free b a → ¬ w.mem.Within b a

/-- What holds of the pools and of the blocks that are held, whatever the pools count. -/
structure KeptWith (w : MemWorld) (free : ℕ → List ℕ) : Prop where
  pools : PoolsOk w.mgr.pools w.mem free
  held : HeldOk w.mgr w.mem w.held
  custom : ∀ b, (b, none) ∈ w.held → w.CustomOk free b

/-- The invariant, when `free` are the inventories. -/
structure ReturnableWith (w : MemWorld) (free : ℕ → List ℕ) : Prop where
  pools : PoolsOk w.mgr.pools w.mem free
  held : HeldOk w.mgr w.mem w.held
  custom : ∀ b, (b, none) ∈ w.held → w.CustomOk free b
  counted : ∀ p ∈ w.mgr.pools, PoolCounted w.held p (free p.this)

/-- **Every block that is held can be returned.** -/
def Returnable (w : MemWorld) : Prop := ∃ free, w.ReturnableWith free

variable {w w' : MemWorld} {heap : Heap} {free free' : ℕ → List ℕ} {b : ℕ}

theorem ReturnableWith.kept (h : w.ReturnableWith free) : w.KeptWith free :=
  ⟨h.pools, h.held, h.custom⟩

theorem KeptWith.returnable (h : w.KeptWith free)
    (hcounted : ∀ p ∈ w.mgr.pools, PoolCounted w.held p (free p.this)) : w.Returnable :=
  ⟨free, h.pools, h.held, h.custom, hcounted⟩

/-- A live address is in use. -/
theorem Live.inside (h : w.KeptWith free) {a : ℕ} (ha : w.Live free b a) :
    w.mem.Inside a := by
  rcases ha with ⟨p, hp, rfl | ha⟩ | ⟨ha, -⟩
  · exact h.pools.inside_this p hp
  · exact h.pools.inside_free p hp a ha
  · obtain ⟨e, he, rfl⟩ := List.mem_map.1 ha
    exact h.held.inside e he

/-- **A block from no pool stays one**, when no pool that fits it has been created. -/
theorem CustomOk.step (h : w.CustomOk free b) (hin : w.mem.Inside b)
    (hsize : (w'.mem.block b).blockSize = (w.mem.block b).blockSize)
    (hpools : ∀ p ∈ w'.mgr.pools, p.blockSize < (w.mem.block b).blockSize)
    (hlive : ∀ a, w'.Live free' b a → w.Live free b a ∨ ¬ w.mem.Inside a)
    (hranges : MemPool.NewRanges w.mem w'.mem) : w'.CustomOk free' b := by
  refine ⟨fun p hp => hsize ▸ hpools p hp, fun a ha hwithin => ?_⟩
  have hold := hwithin.of_newRanges hranges hin
  rcases hlive a ha with ha | hout
  · exact h.apart a ha hold
  · exact hout hold.inside

/-! ### One call -/

/-- What is live after a pool has been written. -/
theorem Live.of_set {p p' : MemPool} {l : List ℕ} (hp : p ∈ w.mgr.pools)
    (hpools : w'.mgr.pools = w.mgr.pools.map fun q => if q.this = p'.this then p' else q)
    (hfree : free' = Function.update free p.this l) (hthis : p'.this = p.this)
    (hl : ∀ a ∈ l, w.Live free b a ∨ ¬ w.mem.Inside a)
    (hheld : ∀ a ∈ w'.held.map Prod.fst, a ≠ b → w.Live free b a ∨ ¬ w.mem.Inside a) (a : ℕ)
    (ha : w'.Live free' b a) : w.Live free b a ∨ ¬ w.mem.Inside a := by
  rcases ha with ⟨q, hq, ha⟩ | ⟨ha, hne⟩
  · rw [hpools] at hq
    revert ha
    refine forall_mem_set (P := fun q => a = q.this ∨ a ∈ free' q.this →
      w.Live free b a ∨ ¬ w.mem.Inside a) ?_ ?_ q hq
    · rw [hthis, hfree, Function.update_self]
      rintro (rfl | ha)
      · exact .inl (.inl ⟨p, hp, .inl rfl⟩)
      · exact hl a ha
    · intro q hq hne ha
      rw [hfree, Function.update_of_ne (hthis ▸ hne)] at ha
      exact .inl (.inl ⟨q, hq, ha⟩)
  · exact hheld a ha hne

/-- The blocks are counted after a pool has been written. -/
theorem counted_set {pools : List MemPool} {held held' : List (ℕ × Option ℕ)} {p p' : MemPool}
    {l : List ℕ} (h : ∀ q ∈ pools, PoolCounted held q (free q.this)) (hthis : p'.this = p.this)
    (hp' : PoolCounted held' p' l)
    (hheld : ∀ id ≠ p.this, (held'.map Prod.snd).count (some id) =
      (held.map Prod.snd).count (some id)) :
    ∀ q ∈ pools.map (fun q => if q.this = p'.this then p' else q),
      PoolCounted held' q (Function.update free p.this l q.this) := by
  refine forall_mem_set ?_ fun q hq hne => ?_
  · rw [hthis, Function.update_self]
    exact hp'
  · have hne' : q.this ≠ p.this := hthis ▸ hne
    obtain ⟨hlt, hinv, htotal⟩ := h q hq
    rw [Function.update_of_ne hne']
    rw [← hheld _ hne'] at hlt htotal
    exact ⟨hlt, hinv, htotal⟩

/-- **A pool is created.** -/
theorem ReturnableWith.createPool (h : w.ReturnableWith free) (heap : Heap) (blockSize : ℕ)
    {initial : UInt32} (increment : UInt32)
    (hfit : MemPool.SegmentFits (MemManager.poolSize blockSize) initial)
    (hbig : ∀ e ∈ w.held, e.2 = none →
      MemManager.poolSize blockSize < (w.mem.block e.1).blockSize) :
    Returnable { w with
      mgr := (w.mgr.createPool heap w.mem blockSize initial increment).2.1
      mem := (w.mgr.createPool heap w.mem blockSize initial increment).2.2 } := by
  obtain ⟨rv, pools, mem', free', hrun, hok, hused, hframe, hranges, hcases⟩ :=
    MemManager.createPool_inserts heap h.pools blockSize initial increment (.inr hfit)
  rw [hrun]
  have hsub : w.mgr.pools ⊆ pools := by
    rcases hcases with ⟨-, -, rfl, -⟩ | ⟨-, p, new, hins⟩
    · exact List.Subset.refl _
    · exact fun q hq => (hins.mem_iff q).2 (.inr hq)
  have hheld : HeldOk { w.mgr with pools := pools } mem' w.held := h.held.frame
    (fun p hp => ⟨p, hsub hp, rfl, rfl⟩) hused (fun e he => (hframe e.1 (h.held.inside e he)).2)
    rfl rfl
  refine ⟨free', hok, hheld, fun b hb => ?_, ?_⟩
  · have hin := h.held.inside _ hb
    refine (h.custom b hb).step hin (congrArg MemBlock.blockSize (hframe b hin).2) ?_ ?_ hranges
    · rcases hcases with ⟨-, -, rfl, -⟩ | ⟨-, p, new, hins⟩
      · exact (h.custom b hb).big
      · intro q hq
        rcases (hins.mem_iff q).1 hq with rfl | hq
        · rw [hins.blockSize_eq]
          exact hbig _ hb rfl
        · exact (h.custom b hb).big q hq
    · rintro a (⟨q, hq, ha⟩ | ha)
      · rcases hcases with ⟨-, -, rfl, rfl⟩ | ⟨-, p, new, hins⟩
        · exact .inl (.inl ⟨q, hq, ha⟩)
        by_cases hqp : q.this = p.this
        · rw [hins.free_eq, hqp, Function.update_self] at ha
          rcases ha with rfl | ha
          · exact .inr hins.this_fresh
          · exact .inr (hins.new_fresh a ha)
        · rw [hins.free_eq, Function.update_of_ne hqp] at ha
          rcases (hins.mem_iff q).1 hq with rfl | hq
          · exact absurd rfl hqp
          · exact .inl (.inl ⟨q, hq, ha⟩)
      · exact .inl (.inr ha)
  · rcases hcases with ⟨-, -, rfl, rfl⟩ | ⟨-, p, new, hins⟩
    · exact h.counted
    intro q hq
    rw [hins.free_eq]
    rcases (hins.mem_iff q).1 hq with rfl | hq
    · -- nobody holds a block of the new pool
      have hcount : (w.held.map Prod.snd).count (some q.this) = 0 := by
        rw [List.count_eq_zero]
        intro hmem
        obtain ⟨⟨b, o⟩, he, rfl⟩ := List.mem_map.1 hmem
        obtain ⟨p, hp, hid, -⟩ := h.held.pool b q.this he
        exact hins.this_fresh (hid ▸ h.pools.inside_this p hp)
      rw [Function.update_self]
      refine ⟨?_, hins.inventory_eq, ?_⟩
      · rw [hcount, Nat.add_zero, hins.length_eq]
        exact initial.toNat_lt
      · rw [hcount, Nat.add_zero]
        exact hins.totalBlocks_eq
    · have hne : q.this ≠ p.this := fun heq => hins.this_fresh (heq ▸ h.pools.inside_this q hq)
      rw [Function.update_of_ne hne]
      exact h.counted q hq

/-- **A pool hands out a block**, which is held from then on. -/
theorem KeptWith.memBlockGet_pool (h : w.KeptWith free) (heap : Heap) {size : ℕ} {p : MemPool}
    (hget : w.mgr.poolGet size = some p) (hcan : p.blkHead = none → p.CanGrow) :
    ∃ b mgr' mem' free' p' l new, w.mgr.memBlockGet heap w.mem size = (some b, mgr', mem') ∧
      KeptWith { mgr := mgr', mem := mem', held := (b, some p.this) :: w.held } free' ∧
      MemManager.Deploys w.mgr w.mem b mgr' mem' ∧ (mem'.block b).blockSize = p.blockSize ∧
      MemManager.Takes w.mgr.pools w.mem free p b mgr'.pools free' p' l new := by
  have hp := (MemManager.smallest_of_poolGet h.pools hget).1
  obtain ⟨b, mgr', mem', free', p', l, new, hrun, hok, hdep, hsize, hranges, htakes⟩ :=
    MemManager.memBlockGet_takes heap h.pools hget hcan
  refine ⟨b, mgr', mem', free', p', l, new, hrun,
    ⟨hok, h.held.deploy hdep ?_, fun c hc => ?_⟩, hdep, hsize, htakes⟩
  · intro id hid
    obtain ⟨q, hq, hthis, hsize'⟩ := hdep.kept p hp
    exact ⟨q, hq, hthis.trans (Option.some.inj hid), hsize.trans hsize'.symm⟩
  · have hmem : (c, none) ∈ w.held := by
      rcases List.mem_cons.1 hc with heq | hc
      · cases (Prod.mk.inj heq).2
      · exact hc
    have hin := h.held.inside _ hmem
    have hne : c ≠ b := by
      rintro rfl
      exact h.held.notMem_of_deploys hdep (List.mem_map_of_mem hmem)
    -- what is in the inventory or handed out was in the inventory or is new
    have hlive : ∀ a ∈ b :: l, w.Live free c a ∨ ¬ w.mem.Inside a := by
      intro a ha
      rw [← htakes.append_eq] at ha
      rcases List.mem_append.1 ha with ha | ha
      · exact .inl (.inl ⟨p, hp, .inr ha⟩)
      · exact .inr (htakes.new_fresh a ha)
    obtain ⟨hb, hl⟩ := List.forall_mem_cons.1 hlive
    refine (h.custom c hmem).step hin (congrArg MemBlock.blockSize (hdep.block_eq c hne hin)) ?_
      (Live.of_set hp htakes.pools_eq htakes.free_eq htakes.this_eq hl ?_) hranges
    · intro q hq
      rw [htakes.pools_eq] at hq
      refine forall_mem_set (P := fun q => q.blockSize < _) ?_ ?_ q hq
      · rw [htakes.blockSize_eq]
        exact (h.custom c hmem).big p hp
      · exact fun q hq _ => (h.custom c hmem).big q hq
    · intro a ha hac
      rcases List.mem_cons.1 ha with rfl | ha
      · exact hb
      · exact .inl (.inr ⟨ha, hac⟩)

/-- **A pool hands out a block**, and counts it. -/
theorem ReturnableWith.memBlockGet_pool (h : w.ReturnableWith free) (heap : Heap) {size : ℕ}
    {p : MemPool} (hget : w.mgr.poolGet size = some p)
    (hcan : p.blkHead = none → p.CanGrow)
    (hcounts : p.blkHead = none → p.totalBlocks.toNat + p.increment.toNat < 2 ^ 32) :
    ∃ b mgr' mem', w.mgr.memBlockGet heap w.mem size = (some b, mgr', mem') ∧
      Returnable { mgr := mgr', mem := mem', held := (b, some p.this) :: w.held } := by
  have hp := (MemManager.smallest_of_poolGet h.pools hget).1
  obtain ⟨b, mgr', mem', free', p', l, new, hrun, hkept, -, -, htakes⟩ :=
    h.kept.memBlockGet_pool heap hget hcan
  refine ⟨b, mgr', mem', hrun, hkept.returnable ?_⟩
  rw [htakes.pools_eq, htakes.free_eq]
  obtain ⟨hlt, hinv, htotal⟩ := h.counted p hp
  have hlen : (free p.this).length + new.length = l.length + 1 := by
    rw [← List.length_append, htakes.append_eq, List.length_cons]
  have hcount : (((b, some p.this) :: w.held).map Prod.snd).count (some p.this) =
      (w.held.map Prod.snd).count (some p.this) + 1 := by
    rw [List.map_cons, List.count_cons_self]
  have hnew : (free p.this).length + (w.held.map Prod.snd).count (some p.this) + new.length <
      2 ^ 32 := by
    rw [htakes.length_eq]
    split_ifs with hhead
    · have h := hcounts hhead
      rwa [htotal, UInt32.toNat_ofNat_of_lt' hlt] at h
    · exact hlt
  refine counted_set h.counted htakes.this_eq ⟨?_, ?_, ?_⟩ ?_
  · rw [htakes.this_eq, hcount]
    omega
  · rw [htakes.inventory_eq, hinv, ← UInt32.ofNat_add, hlen, UInt32.ofNat_add]
    exact UInt32.add_sub_cancel _ _
  · rw [htakes.totalBlocks_eq, htotal, ← UInt32.ofNat_add, htakes.this_eq, hcount]
    congr 1
    omega
  · intro id hid
    rw [List.map_cons, List.count_cons_of_ne]
    exact fun heq => hid (Option.some.inj heq).symm

/-- **A block is allocated for itself.** -/
theorem KeptWith.memBlockGet_custom (h : w.KeptWith free) (heap : Heap) {size : ℕ}
    (hget : w.mgr.poolGet size = none) (hfit : MemManager.BlockFits size) :
    ∃ b mgr' mem', w.mgr.memBlockGet heap w.mem size = (some b, mgr', mem') ∧
      KeptWith { mgr := mgr', mem := mem', held := (b, none) :: w.held } free ∧
      MemManager.Deploys w.mgr w.mem b mgr' mem' ∧ mgr'.pools = w.mgr.pools ∧
      (mem'.block b).blockSize = size := by
  obtain ⟨b, mgr', mem', hrun, hok, hdep, hpools, hsize, hused, hfresh⟩ :=
    MemManager.memBlockGet_custom heap h.pools hget hfit
  have hheld := h.held.deploy (o := none) hdep (by simp)
  have hnot : ¬ w.mem.Inside b :=
    hfresh b (Nat.le_refl b) (Nat.lt_add_of_pos_right (Nat.add_pos_right size (by decide)))
  have hranges : MemPool.NewRanges w.mem mem' := by
    intro r hr
    rw [hused] at hr
    rcases List.mem_cons.1 hr with rfl | hr
    · exact .inr hnot
    · exact .inl hr
  have hlive : ∀ c a, Live { mgr := mgr', mem := mem', held := (b, none) :: w.held } free c a →
      w.Live free c a ∨ a = b ∧ a ≠ c := by
    rintro c a (⟨q, hq, ha⟩ | ⟨ha, hne⟩)
    · exact .inl (.inl ⟨q, hpools ▸ hq, ha⟩)
    · rcases List.mem_cons.1 ha with rfl | ha
      · exact .inr ⟨rfl, hne⟩
      · exact .inl (.inr ⟨ha, hne⟩)
  refine ⟨b, mgr', mem', hrun, ⟨hok, hheld, fun c hc => ?_⟩, hdep, hpools, hsize⟩
  rcases List.mem_cons.1 hc with heq | hc
  · obtain rfl := (Prod.mk.inj heq).1
    refine ⟨?_, ?_⟩
    · intro q hq
      rw [hsize]
      have hnone := List.find?_eq_none.1 hget q (hpools ▸ hq)
      exact Nat.lt_of_not_le fun hle => hnone (decide_eq_true hle)
    · rintro a ha ⟨r, hr, hrb, hle, hlt⟩
      have hin := Live.inside h ((hlive _ a ha).resolve_right fun hab => hab.2 hab.1)
      rw [hused] at hr
      rcases List.mem_cons.1 hr with rfl | hr
      · exact hfresh a hle hlt hin
      · exact hnot (Memory.Within.inside_left ⟨r, hr, hrb, hle, hlt⟩)
  · have hin := h.held.inside _ hc
    have hne : c ≠ b := fun heq => hnot (heq ▸ hin)
    refine (h.custom c hc).step hin (congrArg MemBlock.blockSize (hdep.block_eq c hne hin))
      (hpools ▸ (h.custom c hc).big) (fun a ha => ?_) hranges
    rcases hlive c a ha with ha | ⟨rfl, -⟩
    · exact .inl ha
    · exact .inr hnot

/-- A block that is allocated for itself is not counted by any pool. -/
theorem ReturnableWith.memBlockGet_custom (h : w.ReturnableWith free) (heap : Heap) {size : ℕ}
    (hget : w.mgr.poolGet size = none) (hfit : MemManager.BlockFits size) :
    ∃ b mgr' mem', w.mgr.memBlockGet heap w.mem size = (some b, mgr', mem') ∧
      Returnable { mgr := mgr', mem := mem', held := (b, none) :: w.held } ∧
      mgr'.pools = w.mgr.pools ∧ (mem'.block b).blockSize = size := by
  obtain ⟨b, mgr', mem', hrun, hkept, -, hpools, hsize⟩ := h.kept.memBlockGet_custom heap hget hfit
  refine ⟨b, mgr', mem', hrun, hkept.returnable ?_, hpools, hsize⟩
  rw [hpools]
  intro q hq
  have hcount : (((b, none) :: w.held).map Prod.snd).count (some q.this) =
      (w.held.map Prod.snd).count (some q.this) := by
    rw [List.map_cons, List.count_cons_of_ne (Option.some_ne_none _).symm]
  obtain ⟨hlt, hinv, htotal⟩ := h.counted q hq
  rw [← hcount] at hlt htotal
  exact ⟨hlt, hinv, htotal⟩

/-- The blocks that are held, when one of them has been returned. -/
theorem count_erase {held : List (ℕ × Option ℕ)} {o : Option ℕ} (he : (b, o) ∈ held)
    (o' : Option ℕ) : (held.map Prod.snd).count o' =
      ((held.erase (b, o)).map Prod.snd).count o' + if o = o' then 1 else 0 := by
  have hperm := ((List.perm_cons_erase he).map Prod.snd).count_eq o'
  rw [hperm, List.map_cons, List.count_cons]
  simp

/-- **A block goes back to its pool.** -/
theorem KeptWith.memBlockPut_pool (h : w.KeptWith free) {p : MemPool} (hp : p ∈ w.mgr.pools)
    (he : (b, some p.this) ∈ w.held) (hsize : (w.mem.block b).blockSize = p.blockSize) :
    ∃ mgr' mem' free' p', w.mgr.memBlockPut w.mem (some b) = (true, none, mgr', mem') ∧
      KeptWith { mgr := mgr', mem := mem', held := w.held.erase (b, some p.this) } free' ∧
      MemManager.Returns w.mgr w.mem b p.this mgr' mem' ∧
      MemManager.Puts w.mgr.pools free p b mgr'.pools free' p' := by
  obtain ⟨mgr', mem', free', p', hrun, hok, hret, hused, hputs⟩ :=
    MemManager.memBlockPut_puts h.pools hp hsize (h.held.valid _ he) (h.held.inside _ he)
  refine ⟨mgr', mem', free', p', hrun, ⟨hok, ?_, fun c hc => ?_⟩, hret, hputs⟩
  · exact h.held.giveBack he hret.kept hret.used_subset hret.block_eq hret.count_eq hret.size_eq
  · have hmem := List.mem_of_mem_erase hc
    have hne : c ≠ b := by
      rintro rfl
      cases (Prod.mk.inj (List.inj_on_of_nodup_map h.held.nodup hmem he rfl)).2
    have hlive : ∀ a ∈ free p.this ++ [b], w.Live free c a ∨ ¬ w.mem.Inside a := by
      intro a ha
      rcases List.mem_append.1 ha with ha | ha
      · exact .inl (.inl ⟨p, hp, .inr ha⟩)
      · rw [List.mem_singleton.1 ha]
        exact .inl (.inr ⟨List.mem_map_of_mem he, hne.symm⟩)
    refine (h.custom c hmem).step (h.held.inside _ hmem)
      (congrArg MemBlock.blockSize (hret.block_eq c hne)) ?_
      (Live.of_set hp hputs.pools_eq hputs.free_eq hputs.this_eq hlive ?_)
      (fun r hr => .inl (hused ▸ hr))
    · intro q hq
      rw [hputs.pools_eq] at hq
      refine forall_mem_set (P := fun q => q.blockSize < _) ?_ ?_ q hq
      · rw [hputs.blockSize_eq]
        exact (h.custom c hmem).big p hp
      · exact fun q hq _ => (h.custom c hmem).big q hq
    · intro a ha hac
      obtain ⟨e, hmem, rfl⟩ := List.mem_map.1 ha
      exact .inl (.inr ⟨List.mem_map_of_mem (List.mem_of_mem_erase hmem), hac⟩)

/-- A block that goes back to its pool is counted there. -/
theorem ReturnableWith.memBlockPut_pool (h : w.ReturnableWith free) {id : ℕ}
    (he : (b, some id) ∈ w.held) :
    ∃ mgr' mem', w.mgr.memBlockPut w.mem (some b) = (true, none, mgr', mem') ∧
      Returnable { mgr := mgr', mem := mem', held := w.held.erase (b, some id) } ∧
      mgr'.deployedSize = w.mgr.deployedSize - UInt32.ofNat (w.mem.block b).blockSize := by
  obtain ⟨p, hp, rfl, hsize⟩ := h.held.pool b id he
  obtain ⟨mgr', mem', free', p', hrun, hkept, hret, hputs⟩ := h.kept.memBlockPut_pool hp he hsize
  refine ⟨mgr', mem', hrun, hkept.returnable ?_, hret.size_eq⟩
  rw [hputs.pools_eq, hputs.free_eq]
  obtain ⟨hlt, hinv, htotal⟩ := h.counted p hp
  have hcount := count_erase he (some p.this)
  rw [if_pos rfl] at hcount
  have hsum : (free p.this ++ [b]).length +
      ((w.held.erase (b, some p.this)).map Prod.snd).count (some p.this) =
      (free p.this).length + (w.held.map Prod.snd).count (some p.this) := by
    rw [hcount, List.length_append, List.length_singleton]
    omega
  refine counted_set h.counted hputs.this_eq ⟨?_, ?_, ?_⟩ ?_
  · rw [hputs.this_eq]
    exact hsum ▸ hlt
  · rw [hputs.inventory_eq, hinv, List.length_append, UInt32.ofNat_add]
    rfl
  · rw [hputs.totalBlocks_eq, htotal, hputs.this_eq]
    exact congrArg UInt32.ofNat hsum.symm
  · intro id hid
    rw [count_erase he (some id), if_neg fun heq => hid (Option.some.inj heq).symm]
    rfl

/-- **A block that was allocated for itself is deleted.** -/
theorem KeptWith.memBlockPut_custom (h : w.KeptWith free) (he : (b, none) ∈ w.held) :
    ∃ mgr' mem', w.mgr.memBlockPut w.mem (some b) = (true, none, mgr', mem') ∧
      KeptWith { mgr := mgr', mem := mem', held := w.held.erase (b, none) } free ∧
      mgr'.pools = w.mgr.pools ∧ (∀ a ≠ b, mem'.block a = w.mem.block a) ∧
      mgr'.deployedSize = w.mgr.deployedSize - UInt32.ofNat (w.mem.block b).blockSize := by
  have hvalid := h.held.valid _ he
  have hcustom := h.custom b he
  have hget : w.mgr.poolGet (w.mem.block b).blockSize = none := by
    refine List.find?_eq_none.2 fun p hp hfit => ?_
    exact absurd (of_decide_eq_true hfit) (Nat.not_le.2 (hcustom.big p hp))
  have hout := h.pools.notMem_free_of_valid hvalid
  have hnodup := ((List.perm_cons_erase he).map Prod.fst).nodup_iff.1 h.held.nodup
  have hne : ∀ e ∈ w.held.erase (b, none), e.1 ≠ b := fun e hmem heb =>
    (List.nodup_cons.1 hnodup).1 (List.mem_map.2 ⟨e, hmem, heb⟩)
  have hheld : HeldOk { w.mgr with
      returnedCount := w.mgr.returnedCount + 1
      deployedSize := w.mgr.deployedSize - UInt32.ofNat (w.mem.block b).blockSize }
      (w.mem.blockSet b MemBlock.guardOff) (w.held.erase (b, none)) :=
    h.held.giveBack he (fun p hp => ⟨p, hp, rfl, rfl⟩) (List.Subset.refl _)
      (fun a hab => Memory.blockSet_of_ne hab _) (MemManager.count_returned _ _) rfl
  refine ⟨_, _, MemManager.memBlockPut_custom hget hvalid, ⟨?_, ?_, fun c hc => ?_⟩, rfl,
    fun a hab => Memory.blockSet_of_ne hab _, rfl⟩
  · refine (h.pools.blockSet hout MemBlock.guardOff).delete (fun p hp => ?_) fun p hp a ha => ?_
    · exact hcustom.apart _ (.inl ⟨p, hp, .inl rfl⟩)
    · exact hcustom.apart a (.inl ⟨p, hp, .inr ha⟩)
  · refine hheld.delete fun e hmem => hcustom.apart e.1 (.inr ⟨?_, hne e hmem⟩)
    exact List.mem_map_of_mem (List.mem_of_mem_erase hmem)
  · have hmem := List.mem_of_mem_erase hc
    refine (h.custom c hmem).step (h.held.inside _ hmem)
      (congrArg MemBlock.blockSize (Memory.blockSet_of_ne (hne _ hc) _)) (h.custom c hmem).big ?_
      (Memory.newRanges_delete _ b)
    rintro a (hlive | ⟨ha, hac⟩)
    · exact .inl (.inl hlive)
    · obtain ⟨e, hmem, rfl⟩ := List.mem_map.1 ha
      exact .inl (.inr ⟨List.mem_map_of_mem (List.mem_of_mem_erase hmem), hac⟩)

/-- A block that was allocated for itself was not counted by any pool. -/
theorem ReturnableWith.memBlockPut_custom (h : w.ReturnableWith free)
    (he : (b, none) ∈ w.held) :
    ∃ mgr' mem', w.mgr.memBlockPut w.mem (some b) = (true, none, mgr', mem') ∧
      Returnable { mgr := mgr', mem := mem', held := w.held.erase (b, none) } ∧
      mgr'.deployedSize = w.mgr.deployedSize - UInt32.ofNat (w.mem.block b).blockSize := by
  obtain ⟨mgr', mem', hrun, hkept, hpools, -, hsize⟩ := h.kept.memBlockPut_custom he
  refine ⟨mgr', mem', hrun, hkept.returnable ?_, hsize⟩
  rw [hpools]
  intro q hq
  have hcount := count_erase he (some q.this)
  rw [if_neg (Option.some_ne_none _).symm, Nat.add_zero] at hcount
  obtain ⟨hlt, hinv, htotal⟩ := h.counted q hq
  rw [hcount] at hlt htotal
  exact ⟨hlt, hinv, htotal⟩

/-- **A block that is returned is accepted**, wherever it is from. -/
theorem holderStep_memBlockPut (h : w.Returnable) {o : Option ℕ} (he : (b, o) ∈ w.held) :
    ∃ w', holderStep w (.memBlockPut b) = some (.put true, w') ∧ w'.Returnable ∧
      w'.mgr.deployedSize = w.mgr.deployedSize - UInt32.ofNat (w.mem.block b).blockSize ∧
      w'.held = w.held.erase (b, o) := by
  obtain ⟨free, h⟩ := h
  have hlook := lookup_of_mem h.held he
  have hput : ∃ mgr' mem', w.mgr.memBlockPut w.mem (some b) = (true, none, mgr', mem') ∧
      Returnable { mgr := mgr', mem := mem', held := w.held.erase (b, o) } ∧
      mgr'.deployedSize = w.mgr.deployedSize - UInt32.ofNat (w.mem.block b).blockSize := by
    cases o with
    | none => exact h.memBlockPut_custom he
    | some id => exact h.memBlockPut_pool he
  obtain ⟨mgr', mem', hrun, hok, hsize⟩ := hput
  exact ⟨_, by rw [holderStep, hlook, hrun]; rfl, hok, hsize, rfl⟩

/-- The buffer pointer of a block stands for the block. -/
theorem holderStep_memBlockPutBuf (w : MemWorld) (b : ℕ) :
    holderStep w (.memBlockPutBuf b) = holderStep w (.memBlockPut b) := by
  rw [holderStep, holderStep, MemManager.memBlockPutBuf_add]

/-- **A pool may be created**, or not, when it is foreseen. -/
theorem ReturnableWith.createPoolOr (h : w.ReturnableWith free) {heap : NothrowHeap} {blockSize : ℕ}
    {initial increment : UInt32}
    (hforeseen : w.Foreseen (.createPool heap blockSize initial increment)) :
    Returnable { w with
      mgr := (w.mgr.createPoolOr heap w.mem blockSize initial increment).2.1
      mem := (w.mgr.createPoolOr heap w.mem blockSize initial increment).2.2 } := by
  rcases hforeseen with hfails | ⟨hfit, hbig⟩
  · rw [MemManager.createPoolOr_of_fails initial increment hfails]
    exact ⟨free, h⟩
  by_cases hnew : heap.new w.mem.used MemPool.sizeOf = none
  · rw [MemManager.createPoolOr_of_fails initial increment (.inr hnew)]
    exact ⟨free, h⟩
  obtain ⟨n, hn, heq⟩ := MemManager.createPoolOr_eq blockSize initial increment hnew
  rw [heq]
  refine h.createPool heap.total blockSize increment ?_ hbig
  rcases hn with rfl | ⟨rfl, hserves⟩
  · exact MemPool.segmentFits_zero _
  · exact hfit hserves

/-- **A request that fails** changes nothing, if the pointer is to a block that is held. -/
theorem ReturnableWith.memBlockGetOr_of_exhausted (h : w.ReturnableWith free) {new : NothrowNew}
    {size : ℕ} (hexhausted : w.mgr.Exhausted new size) (hb : b ∈ w.held.map Prod.fst) :
    w.mgr.memBlockGetOr new w.mem (some b) size =
      { rv := false
        ptr := some b
        mgr := { w.mgr with failedGets := w.mgr.failedGets + 1 }
        mem := w.mem
        guarded := [some b] } := by
  obtain ⟨e, he, rfl⟩ := List.mem_map.1 hb
  have hguard : (w.mem.block e.1).guardOn = w.mem.block e.1 := by
    rw [MemBlock.guardOn, ← of_decide_eq_true (h.held.valid e he)]
  have hmem : w.mem.blockSet e.1 MemBlock.guardOn = w.mem := by
    rw [Memory.blockSet, hguard, Function.update_eq_self]
  rw [MemManager.memBlockGetOr_of_exhausted w.mem (some e.1) h.pools.nodup hexhausted]
  simp only [hmem]

/-- **A request** is answered, or fails, when it is foreseen. -/
theorem holderStep_memBlockGet (h : w.Returnable) {heap : NothrowHeap} {ptr : Option ℕ} {size : ℕ}
    {a : MemAnswer} (hforeseen : w.Foreseen (.memBlockGet heap ptr size))
    (hstep : holderStep w (.memBlockGet heap ptr size) = some (a, w')) : w'.Returnable := by
  obtain ⟨free, h⟩ := h
  rw [Foreseen] at hforeseen
  rw [holderStep] at hstep
  by_cases hexhausted : w.mgr.Exhausted (heap.new w.mem.used) size
  · rw [if_pos hexhausted] at hforeseen
    obtain ⟨b, rfl, hb⟩ := hforeseen
    rw [h.memBlockGetOr_of_exhausted hexhausted hb] at hstep
    cases hstep
    exact ⟨free, h.pools, h.held.frame (fun p hp => ⟨p, hp, rfl, rfl⟩) (List.Subset.refl _)
      (fun _ _ => rfl) rfl rfl, fun c hc => ⟨(h.custom c hc).big, (h.custom c hc).apart⟩, h.counted⟩
  · rw [if_neg hexhausted] at hforeseen
    cases hget : w.mgr.poolGet size with
    | some p =>
        obtain ⟨b, mgr', mem', hrun, hok⟩ := h.memBlockGet_pool heap.total hget
          (fun hhead => ⟨(MemManager.of_not_exhausted_pool hexhausted hget hhead).1,
            (hforeseen.1 p hget hhead).1⟩)
          fun hhead => (hforeseen.1 p hget hhead).2
        rw [MemManager.memBlockGetOr_of_not_exhausted hexhausted hrun ptr, hget] at hstep
        cases hstep
        exact hok
    | none =>
        obtain ⟨b, mgr', mem', hrun, hok, -⟩ :=
          h.memBlockGet_custom heap.total hget (hforeseen.2 hget)
        rw [MemManager.memBlockGetOr_of_not_exhausted hexhausted hrun ptr, hget] at hstep
        cases hstep
        exact hok

/-- **One call that is foreseen keeps the invariant.** -/
theorem holderStep_returnable {op : HolderOp} {a : MemAnswer} (h : w.Returnable)
    (hforeseen : w.Foreseen op) (hstep : holderStep w op = some (a, w')) : w'.Returnable := by
  have hput : ∀ b, holderStep w (.memBlockPut b) = some (a, w') → w'.Returnable := by
    intro b hstep
    cases hlook : w.held.lookup b with
    | none => simp [holderStep, hlook] at hstep
    | some o =>
        obtain ⟨w₁, hstep₁, hok, -⟩ := holderStep_memBlockPut h (mem_of_lookup hlook)
        rw [hstep] at hstep₁
        cases hstep₁
        exact hok
  cases op with
  | createPool heap blockSize initial increment =>
      obtain ⟨free, h⟩ := h
      cases hstep
      exact h.createPoolOr hforeseen
  | memBlockGet heap ptr size => exact holderStep_memBlockGet h hforeseen hstep
  | memBlockPut b => exact hput b hstep
  | memBlockPutBuf b => exact hput b (holderStep_memBlockPutBuf w b ▸ hstep)
  | write b ptr =>
      obtain ⟨free, h⟩ := h
      cases hlook : w.held.lookup b with
      | none => simp [holderStep, hlook] at hstep
      | some o =>
          rw [holderStep, hlook] at hstep
          cases hstep
          have hout := h.pools.notMem_free_of_valid (h.held.valid _ (mem_of_lookup hlook))
          refine ⟨free, h.pools.nextSet hout ptr, h.held.frame (fun p hp => ⟨p, hp, rfl, rfl⟩)
            (List.Subset.refl _) (fun _ _ => rfl) rfl rfl, fun c hc => ?_, h.counted⟩
          exact (h.custom c hc).step (h.held.inside _ hc) rfl (h.custom c hc).big
            (fun a ha => .inl ha) fun r hr => .inl hr

/-! ### The beginning -/

/-- A manager without pools has nothing to return. -/
theorem returnable_poolless (mem : Memory) :
    Returnable { mgr := MemManager.poolless, mem := mem, held := [] } := by
  refine ⟨fun _ => [], ⟨List.Pairwise.nil, List.nodup_nil, ?_, ?_, ?_, ?_⟩,
    ⟨List.nodup_nil, ?_, ?_, ?_, UInt32.sub_self _, rfl⟩, ?_, ?_⟩ <;> simp [MemManager.poolless]

/-- Pools are created one after another before any block is held. -/
theorem createPoolsOr_returnable (heap : NothrowHeap) {l : List (ℕ × UInt32 × UInt32)}
    (hl : ∀ p ∈ l, MemPool.SegmentFits (MemManager.poolSize p.1) p.2.1) {mgr : MemManager}
    {mem : Memory} (h : Returnable { mgr := mgr, mem := mem, held := [] }) :
    Returnable { mgr := (MemManager.createPoolsOr heap l mgr mem).1
                 mem := (MemManager.createPoolsOr heap l mgr mem).2
                 held := [] } := by
  induction l generalizing mgr mem with
  | nil => exact h
  | cons q l ih =>
      obtain ⟨hfit, hl⟩ := List.forall_mem_cons.1 hl
      obtain ⟨free, h⟩ := h
      exact ih hl (@ReturnableWith.createPoolOr _ _ h heap q.1 q.2.1 q.2.2 (.inr ⟨fun _ => hfit, by simp⟩))

/-- **The constructor establishes the invariant.** -/
theorem returnable_initialOr (heap : NothrowHeap) (mem : Memory) : (initialOr heap mem).Returnable :=
  createPoolsOr_returnable heap (fun p hp => (standardPools_fit p hp).1) (returnable_poolless mem)

end MemWorld

open MemWorld

/-- **Every block that is held can be returned**, and no inventory exceeds its total, after any calls
that were foreseen. -/
theorem memBlockPut_of_foreseen (heap₀ : NothrowHeap) (mem₀ : Memory) {ops : List HolderOp}
    {answers : List MemAnswer} {w : MemWorld}
    (h : StepSystem.run holderStep ops (initialOr heap₀ mem₀) = some (answers, w))
    (hforeseen : StepSystem.Meets holderStep Foreseen ops (initialOr heap₀ mem₀)) :
    (∀ b o, (b, o) ∈ w.held →
      ∃ w', holderStep w (.memBlockPut b) = some (.put true, w') ∧
        holderStep w (.memBlockPutBuf b) = some (.put true, w') ∧
        w'.mgr.deployedSize = w.mgr.deployedSize - UInt32.ofNat (w.mem.block b).blockSize ∧
        w'.held = w.held.erase (b, o)) ∧
    ∀ p ∈ w.mgr.pools, p.inventory ≤ p.totalBlocks := by
  have hok : w.Returnable :=
    StepSystem.run_invariant_of_meets (fun hok hG hstep => holderStep_returnable hok hG hstep)
      (returnable_initialOr heap₀ mem₀) h hforeseen
  refine ⟨fun b o he => ?_, ?_⟩
  · obtain ⟨w', hstep, -, hsize, hheld⟩ := holderStep_memBlockPut hok he
    exact ⟨w', hstep, (holderStep_memBlockPutBuf w b).trans hstep, hsize, hheld⟩
  · obtain ⟨free, hok⟩ := hok
    exact fun p hp => (hok.counted p hp).inventory_le

/-- A block is greater than every pool, a pool has no increment, and two requests fail. -/
def sampleHolderOps : List HolderOp :=
  [.memBlockGet bumpHeap.nothrow none 20000, .createPool bumpHeap.nothrow 8192 2 0,
    .memBlockGet bumpHeap.nothrow none 8000, .createPool fullHeap 30000 1 1,
    .memBlockGet bumpHeap.nothrow none 8000, .memBlockGet fullHeap (some 266496) 20000]

/-- The block that is from no pool can be returned at the end. -/
theorem memBlockPut_of_foreseen_sample :
    StepSystem.Meets holderStep Foreseen sampleHolderOps (initialOr bumpHeap.nothrow unusedMemory) ∧
      ∃ answers w w', StepSystem.run holderStep sampleHolderOps
          (initialOr bumpHeap.nothrow unusedMemory) = some (answers, w) ∧
        (266496, none) ∈ w.held ∧ w.mgr.deployedSize = 36384 ∧
        holderStep w (.memBlockPut 266496) = some (.put true, w') ∧ w'.mgr.deployedSize = 16384 ∧
        ∀ p ∈ w.mgr.pools, p.inventory ≤ p.totalBlocks := by
  have hforeseen : StepSystem.Meets holderStep Foreseen sampleHolderOps
      (initialOr bumpHeap.nothrow unusedMemory) := by
    decide +kernel
  have hend : ((StepSystem.run holderStep sampleHolderOps
      (initialOr bumpHeap.nothrow unusedMemory)).any fun r => decide ((266496, none) ∈ r.2.held ∧
        r.2.mgr.deployedSize = 36384 ∧ (r.2.mem.block 266496).blockSize = 20000)) = true := by
    decide +kernel
  obtain ⟨⟨answers, w⟩, hrun, hw⟩ := (Option.any_eq_true _ _).1 hend
  obtain ⟨hmem, hdeployed, hblock⟩ := of_decide_eq_true hw
  obtain ⟨hput, hinventory⟩ := memBlockPut_of_foreseen bumpHeap.nothrow unusedMemory hrun hforeseen
  obtain ⟨w', hstep, -, hsize, -⟩ := hput 266496 none hmem
  refine ⟨hforeseen, answers, w, w', hrun, hmem, hdeployed, hstep, ?_, hinventory⟩
  rw [hsize, hblock, show w.mgr.deployedSize = 36384 from hdeployed]
  rfl

/-- **A pool that is created later refuses the block**, which stays deployed for ever, or takes it though it
has not counted it. -/
theorem memBlockPut_unforeseen :
    (∃ w w', StepSystem.run holderStep [.memBlockGet bumpHeap.nothrow none 20000,
          .createPool bumpHeap.nothrow 32768 1 1] (initialOr bumpHeap.nothrow unusedMemory) =
        some ([.got (some 266496), .created true], w) ∧
      (266496, none) ∈ w.held ∧ (w.mem.block 266496).valid = true ∧
      holderStep w (.memBlockPut 266496) = some (.put false, w') ∧
      w'.mgr.deployedSize = w.mgr.deployedSize) ∧
    ∃ answers w, StepSystem.run holderStep [.memBlockGet bumpHeap.nothrow none 20000,
          .createPool bumpHeap.nothrow 20000 1 1, .memBlockPut 266496]
        (initialOr bumpHeap.nothrow unusedMemory) = some (answers, w) ∧
      ∃ p ∈ w.mgr.pools, ¬ p.inventory ≤ p.totalBlocks := by
  constructor
  · have hend : ((StepSystem.run holderStep [.memBlockGet bumpHeap.nothrow none 20000,
        .createPool bumpHeap.nothrow 32768 1 1] (initialOr bumpHeap.nothrow unusedMemory)).any
        fun r => decide (r.1 = [.got (some 266496), .created true] ∧ (266496, none) ∈ r.2.held ∧
          (r.2.mem.block 266496).valid = true) &&
          (holderStep r.2 (.memBlockPut 266496)).any fun r' =>
            decide (r'.1 = .put false ∧ r'.2.mgr.deployedSize = r.2.mgr.deployedSize)) = true := by
      decide +kernel
    obtain ⟨⟨answers, w⟩, hrun, hw⟩ := (Option.any_eq_true _ _).1 hend
    obtain ⟨hw, hw'⟩ := Bool.and_eq_true_iff.1 hw
    obtain ⟨⟨a, w'⟩, hstep, hw'⟩ := (Option.any_eq_true _ _).1 hw'
    obtain ⟨rfl, hmem, hvalid⟩ := of_decide_eq_true hw
    obtain ⟨rfl, hsize⟩ := of_decide_eq_true hw'
    exact ⟨w, w', hrun, hmem, hvalid, hstep, hsize⟩
  · have hend : ((StepSystem.run holderStep [.memBlockGet bumpHeap.nothrow none 20000,
        .createPool bumpHeap.nothrow 20000 1 1, .memBlockPut 266496]
        (initialOr bumpHeap.nothrow unusedMemory)).any
        fun r => decide (∃ p ∈ r.2.mgr.pools, ¬ p.inventory ≤ p.totalBlocks)) = true := by
      decide +kernel
    obtain ⟨⟨answers, w⟩, hrun, hw⟩ := (Option.any_eq_true _ _).1 hend
    exact ⟨answers, w, hrun, of_decide_eq_true hw⟩

end CodePort
