/-
Blocks as their holders see them.

Whoever holds a block need not know where it is from.  As long as no pool is created, the manager hands
out blocks that nobody holds, of a size that depends on the request only, and it takes back every block
that is held; the other blocks stay as they are.

Main definitions:

* `CodePort.fittingPools` — the sizes that some pools hand out;
* `CodePort.MemWorld.get`, `put` — a block is handed out, and returned;
* `CodePort.MemWorld.Kept` — the invariant.

Main results:

* `CodePort.MemWorld.Kept.get` — **a block is handed out** that nobody holds;
* `CodePort.MemWorld.Kept.put` — **a block is taken back**, wherever it is from.
-/

import CodePort.Buffer
import CodePort.MemMgrReturn

set_option relaxedAutoImplicit false
set_option autoImplicit false

namespace CodePort

/-! ### The sizes that pools hand out -/

/-- Pools of some block sizes: the first size that fits, or the size itself when none does. -/
def fittingPools (sizes : List ℕ) : MemPools where
  blockSize n := some ((sizes.find? fun k => n ≤ k).getD n)
  le_blockSize {n m} h := by
    obtain rfl := Option.some.inj h
    cases hfind : sizes.find? fun k => n ≤ k with
    | none => exact le_rfl
    | some k => simpa using List.find?_some hfind

theorem plentiful_fittingPools (sizes : List ℕ) : (fittingPools sizes).Plentiful :=
  fun _ => Option.some_ne_none _

/-- A pool that can grow has small blocks. -/
theorem MemPool.CanGrow.blockFits {p : MemPool} (h : p.CanGrow) : MemManager.BlockFits p.blockSize := by
  obtain ⟨hinc, hfit⟩ := h
  have hpos : 0 < p.increment.toNat := Nat.pos_of_ne_zero fun hzero => hinc (UInt32.toNat_inj.1 hzero)
  have hle := Nat.le_mul_of_pos_left (p.blockSize + MemBlock.sizeOf) hpos
  rw [MemPool.SegmentFits] at hfit
  rw [MemManager.BlockFits]
  omega

/-- Writing a pool keeps the sizes. -/
theorem PoolsOk.sizes_set {pools : List MemPool} {mem : Memory} {free : ℕ → List ℕ}
    {p p' : MemPool} (h : PoolsOk pools mem free) (hp : p ∈ pools) (hthis : p'.this = p.this)
    (hsize : p'.blockSize = p.blockSize) :
    (pools.map fun q => if q.this = p'.this then p' else q).map MemPool.blockSize =
      pools.map MemPool.blockSize := by
  rw [List.map_map]
  refine List.map_congr_left fun q hq => ?_
  rw [Function.comp_apply]
  split_ifs with heq
  · rw [hsize, h.eq_of_this_eq hq hp (heq.trans hthis)]
  · rfl

namespace MemWorld

/-- The block sizes of the pools. -/
def sizes (w : MemWorld) : List ℕ := w.mgr.pools.map MemPool.blockSize

/-- The sizes tell what a request is met with. -/
theorem blockSize_sizes (w : MemWorld) (n : ℕ) :
    (fittingPools w.sizes).blockSize n = some (((w.mgr.poolGet n).map MemPool.blockSize).getD n) := by
  simp only [fittingPools, sizes, List.find?_map]
  rfl

/-! ### Handing out and taking back -/

/-- Get a block of memory.  Whoever gets it holds it. -/
def get (heap : Heap) (w : MemWorld) (size : ℕ) : Option ℕ × MemWorld :=
  let r := w.mgr.memBlockGet heap w.mem size
  let held := match r.1 with
    | some b => (b, (w.mgr.poolGet size).map MemPool.this) :: w.held
    | none => w.held
  (r.1, { mgr := r.2.1, mem := r.2.2, held := held })

/-- Return a block.  It is held on if it is refused. -/
def put (w : MemWorld) (b : ℕ) : Bool × MemWorld :=
  let r := w.mgr.memBlockPut w.mem (some b)
  let held := if r.1 then w.held.erase (b, (w.held.lookup b).join) else w.held
  (r.1, { mgr := r.2.2.1, mem := r.2.2.2, held := held })

/-- The block is held. -/
def Holds (w : MemWorld) (b : ℕ) : Prop := b ∈ w.held.map Prod.fst

instance (w : MemWorld) (b : ℕ) : Decidable (w.Holds b) := inferInstanceAs (Decidable (b ∈ _))

/-- The pools and the blocks that are held are in order, every pool can grow, and no block is too great to be
requested again. -/
structure Kept (w : MemWorld) : Prop where
  keptWith : ∃ free, w.KeptWith free
  canGrow : ∀ p ∈ w.mgr.pools, p.CanGrow
  fits : ∀ b, w.Holds b → MemManager.BlockFits (w.mem.block b).blockSize

/-- One more block is held, which was not held before. -/
structure Gains (w : MemWorld) (b : ℕ) (w' : MemWorld) : Prop where
  kept : w'.Kept
  sizes_eq : w'.sizes = w.sizes
  not_holds : ¬ w.Holds b
  holds_iff : ∀ a, w'.Holds a ↔ a = b ∨ w.Holds a
  block_eq : ∀ a, w.Holds a → w'.mem.block a = w.mem.block a

/-- A block is not held any more. -/
structure Loses (w : MemWorld) (b : ℕ) (w' : MemWorld) : Prop where
  kept : w'.Kept
  sizes_eq : w'.sizes = w.sizes
  holds_iff : ∀ a, w'.Holds a ↔ a ≠ b ∧ w.Holds a
  block_eq : ∀ a ≠ b, w'.mem.block a = w.mem.block a

variable {w w' : MemWorld} {free : ℕ → List ℕ} {b : ℕ}

/-- What the manager does with the block that it hands out. -/
theorem gains_of_deploys (h : w.Kept) (hw : w.KeptWith free) {free' : ℕ → List ℕ}
    (hkept : w'.KeptWith free') (hcan : ∀ p ∈ w'.mgr.pools, p.CanGrow) (hsizes : w'.sizes = w.sizes)
    (hfits : MemManager.BlockFits (w'.mem.block b).blockSize)
    (hdep : MemManager.Deploys w.mgr w.mem b w'.mgr w'.mem) {o : Option ℕ}
    (hheld : w'.held = (b, o) :: w.held) : w.Gains b w' := by
  have hiff : ∀ a, w'.Holds a ↔ a = b ∨ w.Holds a := by
    intro a
    rw [Holds, hheld, List.map_cons, List.mem_cons, Holds]
  have hblock : ∀ a, w.Holds a → w'.mem.block a = w.mem.block a := by
    intro a ha
    obtain ⟨e, he, rfl⟩ := List.mem_map.1 ha
    refine hdep.block_eq e.1 (fun heq => ?_) (hw.held.inside e he)
    exact hw.held.notMem_of_deploys hdep (heq ▸ ha)
  refine ⟨⟨⟨free', hkept⟩, hcan, fun a ha => ?_⟩, hsizes, hw.held.notMem_of_deploys hdep, hiff, hblock⟩
  rcases (hiff a).1 ha with rfl | ha
  · exact hfits
  · rw [hblock a ha]
    exact h.fits a ha

/-- **A block is handed out** that nobody holds, of the size that the request is met with. -/
theorem Kept.get (h : w.Kept) (heap : Heap) {size : ℕ} (hfit : MemManager.BlockFits size) :
    ∃ b, (w.get heap size).1 = some b ∧ w.Gains b (w.get heap size).2 ∧
      (fittingPools w.sizes).blockSize size =
        some ((w.get heap size).2.mem.block b).blockSize := by
  obtain ⟨free, hw⟩ := h.keptWith
  rw [blockSize_sizes]
  cases hget : w.mgr.poolGet size with
  | some p =>
      have hp := (MemManager.smallest_of_poolGet hw.pools hget).1
      have hcan := h.canGrow p hp
      obtain ⟨b, mgr', mem', free', p', l, new, hrun, hkept, hdep, hsize, htakes⟩ :=
        hw.memBlockGet_pool heap hget fun _ => hcan
      refine ⟨b, by rw [MemWorld.get, hrun], ?_, ?_⟩
      · rw [MemWorld.get, hrun, hget]
        refine gains_of_deploys h hw hkept ?_ ?_ ?_ hdep rfl
        · rw [htakes.pools_eq]
          exact forall_mem_set (hcan.of_eq htakes.blockSize_eq htakes.increment_eq)
            fun q hq _ => h.canGrow q hq
        · rw [sizes, sizes, htakes.pools_eq]
          exact hw.pools.sizes_set hp htakes.this_eq htakes.blockSize_eq
        · rw [show (mem'.block b).blockSize = p.blockSize from hsize]
          exact hcan.blockFits
      · rw [MemWorld.get, hrun]
        exact congrArg some hsize.symm
  | none =>
      obtain ⟨b, mgr', mem', hrun, hkept, hdep, hpools, hsize⟩ := hw.memBlockGet_custom heap hget hfit
      refine ⟨b, by rw [MemWorld.get, hrun], ?_, ?_⟩
      · rw [MemWorld.get, hrun, hget]
        refine gains_of_deploys h hw hkept ?_ ?_ ?_ hdep rfl
        · rw [hpools]
          exact h.canGrow
        · rw [sizes, sizes, hpools]
        · rw [show (mem'.block b).blockSize = size from hsize]
          exact hfit
      · rw [MemWorld.get, hrun]
        exact congrArg some hsize.symm

/-- **A block is taken back**, wherever it is from. -/
theorem Kept.put (h : w.Kept) (hb : w.Holds b) : (w.put b).1 = true ∧ w.Loses b (w.put b).2 := by
  obtain ⟨free, hw⟩ := h.keptWith
  obtain ⟨⟨b, o⟩, he, rfl⟩ := List.mem_map.1 hb
  have hlook : (w.held.lookup b).join = o := by
    rw [lookup_of_mem hw.held he]
    rfl
  have hnodup := ((List.perm_cons_erase he).map Prod.fst).nodup_iff.1 hw.held.nodup
  have hiff : ∀ a, a ∈ (w.held.erase (b, o)).map Prod.fst ↔ a ≠ b ∧ w.Holds a := by
    intro a
    rw [Holds, ((List.perm_cons_erase he).map Prod.fst).mem_iff, List.map_cons, List.mem_cons]
    constructor
    · intro ha
      exact ⟨fun heq => (List.nodup_cons.1 hnodup).1 (heq ▸ ha), .inr ha⟩
    · rintro ⟨hne, ha⟩
      exact ha.resolve_left hne
  have hfits : ∀ {mem' : Memory}, (∀ a ≠ b, mem'.block a = w.mem.block a) →
      ∀ a, a ∈ (w.held.erase (b, o)).map Prod.fst → MemManager.BlockFits (mem'.block a).blockSize := by
    intro mem' hblock a ha
    obtain ⟨hne, ha⟩ := (hiff a).1 ha
    rw [hblock a hne]
    exact h.fits a ha
  cases o with
  | some id =>
      obtain ⟨p, hp, rfl, hsize⟩ := hw.held.pool b id he
      obtain ⟨mgr', mem', free', p', hrun, hkept, hret, hputs⟩ := hw.memBlockPut_pool hp he hsize
      refine ⟨by rw [MemWorld.put, hrun], ?_⟩
      rw [MemWorld.put, hrun, hlook]
      refine ⟨⟨⟨free', hkept⟩, ?_, hfits hret.block_eq⟩, ?_, hiff, hret.block_eq⟩
      · rw [hputs.pools_eq]
        exact forall_mem_set ((h.canGrow p hp).of_eq hputs.blockSize_eq hputs.increment_eq)
          fun q hq _ => h.canGrow q hq
      · rw [sizes, sizes, hputs.pools_eq]
        exact hw.pools.sizes_set hp hputs.this_eq hputs.blockSize_eq
  | none =>
      obtain ⟨mgr', mem', hrun, hkept, hpools, hblock, -⟩ := hw.memBlockPut_custom he
      refine ⟨by rw [MemWorld.put, hrun], ?_⟩
      rw [MemWorld.put, hrun, hlook]
      refine ⟨⟨⟨free, hkept⟩, ?_, hfits hblock⟩, ?_, hiff, hblock⟩
      · rw [hpools]
        exact h.canGrow
      · rw [sizes, sizes, hpools]

/-- **A block that is held has not been returned**: it is guarded, it lies in memory that is in use, and it
is in the inventory of no pool. -/
theorem Kept.of_holds (h : w.Kept) (hb : w.Holds b) :
    (w.mem.block b).valid = true ∧ w.mem.Inside b ∧
      ∀ p ∈ w.mgr.pools, ∀ l, MemManager.Inventory w.mem p l → b ∉ l := by
  obtain ⟨free, h⟩ := h.keptWith
  obtain ⟨e, he, rfl⟩ := List.mem_map.1 hb
  refine ⟨h.held.valid e he, h.held.inside e he, fun p hp l hl => ?_⟩
  obtain rfl := hl.visits.unique (h.pools.queue p hp).visits
  exact h.pools.notMem_free_of_valid (h.held.valid e he) p hp

/-- The constructor of the manager establishes the invariant. -/
theorem kept_initial (heap : Heap) (mem : Memory) : (initial heap mem).Kept := by
  obtain ⟨⟨free, hpools, hheld, -⟩, hcan⟩ := ok_initial heap mem
  have hempty : (initial heap mem).held = [] := rfl
  refine ⟨⟨free, hpools, hheld, fun b hb => ?_⟩, hcan, fun b hb => ?_⟩
  · rw [hempty] at hb
    cases hb
  · rw [Holds, hempty] at hb
    cases hb

end MemWorld

end CodePort
