/-
The memory manager over its runs.

Pools may be created between any two calls, so a block that is returned meets other pools than it
came from; still its size leads it back.  What carries this over the runs is that the sizes of the
pools are in strict order, that every pool knows its inventory and that the blocks in it are not
guarded, while those that somebody holds are.

Main definitions:

* `CodePort.PoolsOk` — the invariant of the pools and of their inventories;
* `CodePort.HeldOk` — the invariant of the blocks that somebody holds;
* `CodePort.MemWorld`, `CodePort.memStep` — the manager, the memory and who holds what; one call;
* `CodePort.MemWorld.SizesFit` — the condition on a call.

Main results:

* `CodePort.PoolsOk.set` — **the pools after one of them has changed its inventory**;
* `CodePort.PoolsOk.insert` — the pools after another one has been created;
* `CodePort.memManager_run` — **order, best fit, no double deployment, and the counters**, unless the size
  of an allocation wraps around;
* `CodePort.memBlockGet_twice` — what happens then.
-/

import CodePort.MemMgr
import CodePort.StepSystem
import Mathlib.Data.List.Pairwise

set_option relaxedAutoImplicit false
set_option autoImplicit false

namespace CodePort

open LinkedQueue

/-! ### The pools -/

/-- The invariant of the pools, when `free` are their inventories. -/
structure PoolsOk (pools : List MemPool) (mem : Memory) (free : ℕ → List ℕ) : Prop where
  sorted : pools.Pairwise fun p q => p.blockSize < q.blockSize
  nodup : (pools.map MemPool.this).Nodup
  inside_this : ∀ p ∈ pools, mem.Inside p.this
  queue : ∀ p ∈ pools, Queue mem.next p.blkHead p.blkTail (free p.this)
  free_block : ∀ p ∈ pools, ∀ b ∈ free p.this,
    (mem.block b).blockSize = p.blockSize ∧ (mem.block b).guard = 0
  inside_free : ∀ p ∈ pools, ∀ b ∈ free p.this, mem.Inside b

/-- What holds of the pools after one of them has been written. -/
theorem forall_mem_set {pools : List MemPool} {p' : MemPool} {P : MemPool → Prop} (hp' : P p')
    (hother : ∀ q ∈ pools, q.this ≠ p'.this → P q) :
    ∀ q ∈ pools.map (fun q => if q.this = p'.this then p' else q), P q := by
  intro q hq
  obtain ⟨q₀, hq₀, rfl⟩ := List.mem_map.1 hq
  split_ifs with heq
  · exact hp'
  · exact hother q₀ hq₀ heq

namespace PoolsOk

variable {pools : List MemPool} {mem mem' : Memory} {free : ℕ → List ℕ} {p p' q : MemPool}

theorem eq_of_this_eq (h : PoolsOk pools mem free) (hp : p ∈ pools) (hq : q ∈ pools)
    (heq : p.this = q.this) : p = q := List.inj_on_of_nodup_map h.nodup hp hq heq

theorem eq_of_blockSize_eq (h : PoolsOk pools mem free) (hp : p ∈ pools) (hq : q ∈ pools)
    (heq : p.blockSize = q.blockSize) : p = q := by
  have hnodup : (pools.map MemPool.blockSize).Nodup :=
    List.pairwise_map.2 (h.sorted.imp fun hlt => Nat.ne_of_lt hlt)
  exact List.inj_on_of_nodup_map hnodup hp hq heq

/-- No block is in two inventories. -/
theorem notMem_free (h : PoolsOk pools mem free) (hp : p ∈ pools) (hq : q ∈ pools)
    (hne : p.this ≠ q.this) {b : ℕ} (hb : b ∈ free p.this) : b ∉ free q.this := by
  intro hb'
  have hsize := (h.free_block p hp b hb).1.symm.trans (h.free_block q hq b hb').1
  exact hne (congrArg MemPool.this (h.eq_of_blockSize_eq hp hq hsize))

/-- **One pool changes its inventory**, and the blocks in the other ones stay as they are. -/
theorem set (h : PoolsOk pools mem free) (hp : p ∈ pools) (hthis : p'.this = p.this)
    (hsize : p'.blockSize = p.blockSize) {l : List ℕ}
    (hqueue : Queue mem'.next p'.blkHead p'.blkTail l)
    (hblock : ∀ b ∈ l, (mem'.block b).blockSize = p.blockSize ∧ (mem'.block b).guard = 0)
    (hin : ∀ b ∈ l, mem'.Inside b) (hused : mem.used ⊆ mem'.used)
    (hframe : ∀ q ∈ pools, q.this ≠ p.this → ∀ b ∈ free q.this,
      mem'.next b = mem.next b ∧ mem'.block b = mem.block b) :
    PoolsOk (pools.map fun q => if q.this = p'.this then p' else q) mem'
      (Function.update free p.this l) := by
  have hof : ∀ q ∈ pools, q.this = p'.this → q = p := fun q hq heq =>
    h.eq_of_this_eq hq hp (heq.trans hthis)
  -- every pool keeps its address and its size
  have hkeeps : ∀ q ∈ pools,
      (if q.this = p'.this then p' else q).this = q.this ∧
        (if q.this = p'.this then p' else q).blockSize = q.blockSize := by
    intro q hq
    split_ifs with heq
    · obtain rfl := hof q hq heq
      exact ⟨hthis, hsize⟩
    · exact ⟨rfl, rfl⟩
  have hmem : ∀ {P : MemPool → Prop}, P p' → (∀ q ∈ pools, q.this ≠ p.this → P q) →
      ∀ q ∈ pools.map (fun q => if q.this = p'.this then p' else q), P q := fun hp' hother =>
    forall_mem_set hp' fun q hq hne => hother q hq (hthis ▸ hne)
  refine ⟨?_, ?_, ?_, ?_, ?_, ?_⟩
  · refine List.pairwise_map.2 (h.sorted.imp_of_mem ?_)
    intro a b ha hb hlt
    rw [(hkeeps a ha).2, (hkeeps b hb).2]
    exact hlt
  · have hmap : pools.map (MemPool.this ∘ fun q => if q.this = p'.this then p' else q) =
        pools.map MemPool.this := List.map_congr_left fun q hq => (hkeeps q hq).1
    rw [List.map_map, hmap]
    exact h.nodup
  · have hsub : ∀ a, mem.Inside a → mem'.Inside a := fun a ⟨r, hr, hra⟩ => ⟨r, hused hr, hra⟩
    exact hmem (hsub _ (hthis ▸ h.inside_this p hp)) fun q hq _ => hsub _ (h.inside_this q hq)
  · refine hmem ?_ fun q hq hne => ?_
    · rw [hthis, Function.update_self]
      exact hqueue
    · rw [Function.update_of_ne hne]
      exact (h.queue q hq).congr fun b hb => (hframe q hq hne b hb).1
  · refine hmem ?_ fun q hq hne b hb => ?_
    · rw [hthis, hsize, Function.update_self]
      exact hblock
    · rw [Function.update_of_ne hne] at hb
      rw [(hframe q hq hne b hb).2]
      exact h.free_block q hq b hb
  · refine hmem ?_ fun q hq hne b hb => ?_
    · rw [hthis, Function.update_self]
      exact hin
    · rw [Function.update_of_ne hne] at hb
      obtain ⟨r, hr, hrb⟩ := h.inside_free q hq b hb
      exact ⟨r, hused hr, hrb⟩

/-- A pool has grown by blocks that no pool has. -/
theorem grow (h : PoolsOk pools mem free) (hp : p ∈ pools) {new : List ℕ}
    (hgrown : p.Grown mem (free p.this) new p' mem')
    (hnew : ∀ q ∈ pools, ∀ b ∈ free q.this, b ∉ new) :
    PoolsOk (pools.map fun q => if q.this = p'.this then p' else q) mem'
      (Function.update free p.this (free p.this ++ new)) := by
  refine h.set hp hgrown.this_eq hgrown.blockSize_eq hgrown.queue ?_ ?_ hgrown.used_subset ?_
  · intro b hb
    rcases List.mem_append.1 hb with hb | hb
    · rw [hgrown.block_eq b (hnew p hp b hb)]
      exact h.free_block p hp b hb
    · exact hgrown.block_new b hb
  · intro b hb
    rcases List.mem_append.1 hb with hb | hb
    · obtain ⟨r, hr, hrb⟩ := h.inside_free p hp b hb
      exact ⟨r, hgrown.used_subset hr, hrb⟩
    · exact hgrown.inside_new b hb
  · intro q hq hne b hb
    exact ⟨hgrown.next_eq b (h.notMem_free hq hp hne hb) (hnew q hq b hb),
      hgrown.block_eq b (hnew q hq b hb)⟩

/-- The first block of an inventory is taken; then it is in none. -/
theorem take (h : PoolsOk pools mem free) (hp : p ∈ pools) {b : ℕ} (hb : p.blkHead = some b) :
    ∃ l, free p.this = b :: l ∧ (∀ q ∈ pools, b ∉ Function.update free p.this l q.this) ∧
      PoolsOk (pools.map fun q => if q.this = (p.take mem b).1.this then (p.take mem b).1 else q)
        (p.take mem b).2 (Function.update free p.this l) := by
  obtain ⟨l, hl, hqueue⟩ := (hb ▸ h.queue p hp).pop
  have hnodup := (h.queue p hp).nodup
  rw [hl] at hnodup
  have hbl : ∀ a ∈ l, a ≠ b := fun a ha hab => (List.nodup_cons.1 hnodup).1 (hab ▸ ha)
  have hsub : ∀ a ∈ l, a ∈ free p.this := fun a ha => hl ▸ List.mem_cons_of_mem b ha
  refine ⟨l, hl, ?_, @set pools mem (p.take mem b).2 free p (p.take mem b).1 h hp rfl rfl l
    hqueue ?_ (fun a ha => h.inside_free p hp a (hsub a ha)) (List.Subset.refl _) ?_⟩
  · intro q hq hmem
    by_cases hqp : q.this = p.this
    · rw [hqp, Function.update_self] at hmem
      exact hbl b hmem rfl
    · rw [Function.update_of_ne hqp] at hmem
      exact h.notMem_free hq hp hqp hmem (hl ▸ List.mem_cons_self)
  · intro a ha
    rw [MemPool.take, Memory.blockSet_of_ne (hbl a ha)]
    exact h.free_block p hp a (hsub a ha)
  · intro q hq hne a ha
    have hab : a ≠ b := fun hab =>
      h.notMem_free hq hp hne ha (hl ▸ hab ▸ List.mem_cons_self)
    exact ⟨rfl, Memory.blockSet_of_ne hab _⟩

/-- Nothing that is in use changes. -/
theorem frame (h : PoolsOk pools mem free) (hused : mem.used ⊆ mem'.used)
    (hframe : ∀ b, mem.Inside b → mem'.next b = mem.next b ∧ mem'.block b = mem.block b) :
    PoolsOk pools mem' free := by
  have hsub : ∀ a, mem.Inside a → mem'.Inside a := fun a ⟨r, hr, hra⟩ => ⟨r, hused hr, hra⟩
  refine ⟨h.sorted, h.nodup, fun p hp => hsub _ (h.inside_this p hp), ?_, ?_,
    fun p hp b hb => hsub b (h.inside_free p hp b hb)⟩
  · intro p hp
    exact (h.queue p hp).congr fun b hb => (hframe b (h.inside_free p hp b hb)).1
  · intro p hp b hb
    rw [(hframe b (h.inside_free p hp b hb)).2]
    exact h.free_block p hp b hb

/-- The header of a block that is in no inventory changes. -/
theorem blockSet (h : PoolsOk pools mem free) {b : ℕ} (hb : ∀ q ∈ pools, b ∉ free q.this)
    (f : MemBlock → MemBlock) : PoolsOk pools (mem.blockSet b f) free := by
  refine ⟨h.sorted, h.nodup, h.inside_this, h.queue, ?_, h.inside_free⟩
  intro p hp a ha
  have hab : a ≠ b := fun hab => hb p hp (hab ▸ ha)
  rw [Memory.blockSet_of_ne hab]
  exact h.free_block p hp a ha

/-- The link of a block that is in no inventory changes. -/
theorem nextSet (h : PoolsOk pools mem free) {b : ℕ} (hb : ∀ q ∈ pools, b ∉ free q.this)
    (ptr : Option ℕ) : PoolsOk pools (mem.nextSet (some b) ptr) free := by
  refine ⟨h.sorted, h.nodup, h.inside_this, ?_, h.free_block, h.inside_free⟩
  intro p hp
  refine (h.queue p hp).congr fun a ha => ?_
  have hab : a ≠ b := fun hab => hb p hp (hab ▸ ha)
  exact Function.update_of_ne hab _ _

/-- A block with a guard is in no inventory. -/
theorem notMem_free_of_valid (h : PoolsOk pools mem free) {b : ℕ}
    (hvalid : (mem.block b).valid = true) : ∀ q ∈ pools, b ∉ free q.this := by
  intro q hq hmem
  have hguard := MemBlock.valid_eq_false_of_guard (h.free_block q hq b hmem).2
  exact absurd (hvalid.symm.trans hguard) (by decide)

/-- **Another pool is created**, between the smaller ones and the greater ones. -/
theorem insert {small large : List MemPool} (h : PoolsOk (small ++ large) mem free) {l : List ℕ}
    (hsmall : ∀ q ∈ small, q.blockSize < p.blockSize)
    (hlarge : ∀ q ∈ large, p.blockSize < q.blockSize)
    (hthis : ∀ q ∈ small ++ large, q.this ≠ p.this)
    (hin : mem.Inside p.this) (hqueue : Queue mem.next p.blkHead p.blkTail l)
    (hblock : ∀ b ∈ l, (mem.block b).blockSize = p.blockSize ∧ (mem.block b).guard = 0)
    (hfree : ∀ b ∈ l, mem.Inside b) :
    PoolsOk (small ++ p :: large) mem (Function.update free p.this l) := by
  have hmem : ∀ {P : MemPool → Prop}, P p → (∀ q ∈ small ++ large, q.this ≠ p.this → P q) →
      ∀ q ∈ small ++ p :: large, P q := by
    intro P hp hother q hq
    rcases List.mem_cons.1 (List.perm_middle.mem_iff.1 hq) with rfl | hq
    · exact hp
    · exact hother q hq (hthis q hq)
  refine ⟨?_, ?_, ?_, ?_, ?_, ?_⟩
  · obtain ⟨hs, hl, hsl⟩ := List.pairwise_append.1 h.sorted
    refine List.pairwise_append.2 ⟨hs, List.pairwise_cons.2 ⟨hlarge, hl⟩, ?_⟩
    intro a ha b hb
    rcases List.mem_cons.1 hb with rfl | hb
    · exact hsmall a ha
    · exact hsl a ha b hb
  · have hperm := (@List.perm_middle _ p small large).map MemPool.this
    refine hperm.nodup_iff.2 (List.nodup_cons.2 ⟨?_, h.nodup⟩)
    intro hp
    obtain ⟨q, hq, heq⟩ := List.mem_map.1 hp
    exact hthis q hq heq
  · exact hmem hin fun q hq _ => h.inside_this q hq
  · refine hmem ?_ fun q hq hne => ?_
    · rw [Function.update_self]
      exact hqueue
    · rw [Function.update_of_ne hne]
      exact h.queue q hq
  · refine hmem ?_ fun q hq hne => ?_
    · rw [Function.update_self]
      exact hblock
    · rw [Function.update_of_ne hne]
      exact h.free_block q hq
  · refine hmem ?_ fun q hq hne => ?_
    · rw [Function.update_self]
      exact hfree
    · rw [Function.update_of_ne hne]
      exact h.inside_free q hq

end PoolsOk

/-! ### Where a pool is inserted -/

namespace MemManager

/-- The loop finds the last smaller pool, unless there is a pool of this size. -/
theorem nearestSmaller_eq (blockSize : ℕ) {pools : List MemPool}
    (h : pools.Pairwise fun p q => p.blockSize < q.blockSize) (prev : Option ℕ) :
    nearestSmaller blockSize pools prev = none ∧ (∃ p ∈ pools, p.blockSize = blockSize) ∨
    ∃ small large, pools = small ++ large ∧ (∀ q ∈ small, q.blockSize < blockSize) ∧
      (∀ q ∈ large, blockSize < q.blockSize) ∧
      nearestSmaller blockSize pools prev = some ((small.getLast?.map MemPool.this).or prev) := by
  induction pools generalizing prev with
  | nil => exact Or.inr ⟨[], [], rfl, by simp, by simp, rfl⟩
  | cons p pools ih =>
      obtain ⟨hp, hpools⟩ := List.pairwise_cons.1 h
      rw [nearestSmaller]
      by_cases heq : p.blockSize = blockSize
      · exact Or.inl ⟨if_pos heq, p, List.mem_cons_self, heq⟩
      rw [if_neg heq]
      rcases ih hpools (if p.blockSize < blockSize then some p.this else prev) with
        ⟨hnone, q, hq, hsize⟩ | ⟨small, large, rfl, hsmall, hlarge, hloop⟩
      · exact Or.inl ⟨hnone, q, List.mem_cons_of_mem p hq, hsize⟩
      refine Or.inr ?_
      rw [hloop]
      split_ifs with hlt
      · refine ⟨p :: small, large, rfl, List.forall_mem_cons.2 ⟨hlt, hsmall⟩, hlarge, ?_⟩
        cases hlast : small.getLast? with
        | none =>
            rw [List.getLast?_eq_none_iff.1 hlast]
            rfl
        | some q => rw [List.getLast?_cons, hlast]; rfl
      · -- this pool is greater, and so are those behind it
        have hgt : blockSize < p.blockSize := by omega
        cases small with
        | nil => exact ⟨[], p :: large, rfl, by simp, List.forall_mem_cons.2 ⟨hgt, hlarge⟩, rfl⟩
        | cons q small =>
            have hq := hsmall q List.mem_cons_self
            have hpq := hp q (List.mem_append_left large List.mem_cons_self)
            omega

/-- A pool is inserted right behind the one with the given address. -/
theorem insertAfter_append {a pool : MemPool} {small large : List MemPool}
    (h : ∀ q ∈ small, q.this ≠ a.this) :
    insertAfter a.this pool (small ++ a :: large) = small ++ a :: pool :: large := by
  induction small with
  | nil => exact if_pos rfl
  | cons q small ih =>
      obtain ⟨hq, hsmall⟩ := List.forall_mem_cons.1 h
      rw [List.cons_append, insertAfter, if_neg hq, ih hsmall]
      rfl

/-- The list with a pool behind the last smaller one. -/
theorem inserted_eq {pool : MemPool} {small large : List MemPool}
    (h : ((small ++ large).map MemPool.this).Nodup) :
    (match (small.getLast?.map MemPool.this).or none with
      | none => pool :: (small ++ large)
      | some prev => insertAfter prev pool (small ++ large)) = small ++ pool :: large := by
  rcases List.eq_nil_or_concat small with rfl | ⟨s, a, rfl⟩
  · rfl
  · rw [List.concat_eq_append] at h ⊢
    rw [List.getLast?_concat, List.append_assoc, List.append_assoc]
    refine insertAfter_append fun q hq heq => ?_
    rw [List.append_assoc, List.map_append, List.nodup_append] at h
    exact h.2.2 _ (List.mem_map_of_mem hq) _ List.mem_cons_self heq

/-- What another pool brings: it is inserted between the smaller and the greater ones, its blocks are
new, and it counts them. -/
structure Inserts (pools : List MemPool) (mem : Memory) (free : ℕ → List ℕ) (size : ℕ)
    (initial increment : UInt32) (pools' : List MemPool) (free' : ℕ → List ℕ) (p : MemPool)
    (new : List ℕ) : Prop where
  mem_iff : ∀ q, q ∈ pools' ↔ q = p ∨ q ∈ pools
  free_eq : free' = Function.update free p.this new
  this_fresh : ¬ mem.Inside p.this
  new_fresh : ∀ a ∈ new, ¬ mem.Inside a
  blockSize_eq : p.blockSize = size
  increment_eq : p.increment = increment
  length_eq : new.length = initial.toNat
  inventory_eq : p.inventory = UInt32.ofNat new.length
  totalBlocks_eq : p.totalBlocks = UInt32.ofNat new.length

/-- **Creating a pool** keeps the invariant, and changes nothing that is in use. -/
theorem createPool_inserts (heap : Heap) {mgr : MemManager} {mem : Memory} {free : ℕ → List ℕ}
    (h : PoolsOk mgr.pools mem free) (blockSize : ℕ) (initial increment : UInt32)
    (hfit : (∃ q ∈ mgr.pools, q.blockSize = poolSize blockSize) ∨
      MemPool.SegmentFits (poolSize blockSize) initial) :
    ∃ rv pools mem' free',
      mgr.createPool heap mem blockSize initial increment = (rv, { mgr with pools := pools }, mem') ∧
      PoolsOk pools mem' free' ∧ mem.used ⊆ mem'.used ∧
      (∀ b, mem.Inside b → mem'.next b = mem.next b ∧ mem'.block b = mem.block b) ∧
      MemPool.NewRanges mem mem' ∧
      (rv = false ∧ (∃ q ∈ mgr.pools, q.blockSize = poolSize blockSize) ∧ pools = mgr.pools ∧
          free' = free ∨
        rv = true ∧
          ∃ p new, Inserts mgr.pools mem free (poolSize blockSize) initial increment pools free' p
            new) := by
  rw [createPool]
  generalize poolSize blockSize = size at hfit ⊢
  rcases nearestSmaller_eq size h.sorted none with
    ⟨hnone, hex⟩ | ⟨small, large, hpools, hsmall, hlarge, hloop⟩
  · rw [hnone]
    exact ⟨false, mgr.pools, mem, free, rfl, h, List.Subset.refl _, fun b _ => ⟨rfl, rfl⟩,
      fun r hr => .inl hr, .inl ⟨rfl, hex, rfl, rfl⟩⟩
  rw [hloop]
  have hfit : MemPool.SegmentFits size initial := by
    refine hfit.resolve_left ?_
    rintro ⟨q, hq, heq⟩
    rcases List.mem_append.1 (hpools ▸ hq) with hq | hq
    · exact Nat.ne_of_lt (hsmall q hq) heq
    · exact Nat.ne_of_gt (hlarge q hq) heq
  set raw := (mem.new heap MemPool.sizeOf).1 with hraw
  set mem₁ := (mem.new heap MemPool.sizeOf).2 with hmem₁
  set p := MemPool.blank raw size increment with hp
  obtain ⟨new, hgrown, hnew, -, hlen, hinv, htotal, hranges⟩ :=
    @MemPool.allocateSegment_carved p mem₁ [] heap Queue.empty (by simp) initial hfit
  set p' := (p.allocateSegment heap mem₁ initial).2.1 with hp'
  set mem' := (p.allocateSegment heap mem₁ initial).2.2 with hmem'
  have hsub : mem.used ⊆ mem₁.used := List.subset_cons_self _ _
  have hin₁ : ∀ b, mem.Inside b → mem₁.Inside b := fun b ⟨r, hr, hrb⟩ => ⟨r, hsub hr, hrb⟩
  have hframe : ∀ b, mem.Inside b → mem'.next b = mem.next b ∧ mem'.block b = mem.block b := by
    intro b hb
    have hbnew : b ∉ new := fun hmem => hnew b hmem (hin₁ b hb)
    exact ⟨hgrown.next_eq b (List.not_mem_nil) hbnew, hgrown.block_eq b hbnew⟩
  have hused : mem.used ⊆ mem'.used := List.Subset.trans hsub hgrown.used_subset
  have hlt : raw < raw + MemPool.sizeOf := Nat.lt_add_of_pos_right (by decide)
  have hfresh : ¬ mem.Inside raw := Memory.not_inside_new heap mem (Nat.le_refl raw) hlt
  have hold := hpools ▸ h.frame hused hframe
  have hsize : p'.blockSize = size := hgrown.blockSize_eq
  have hthis : p'.this = raw := hgrown.this_eq
  have hins : PoolsOk (small ++ p' :: large) mem' (Function.update free p'.this new) := by
    refine hold.insert ?_ ?_ ?_ ?_ hgrown.queue ?_ hgrown.inside_new
    · rw [hsize]
      exact hsmall
    · rw [hsize]
      exact hlarge
    · intro q hq heq
      refine hfresh (hthis ▸ heq ▸ h.inside_this q ?_)
      rw [hpools]
      exact hq
    · rw [hthis]
      exact ⟨(raw, MemPool.sizeOf), hgrown.used_subset List.mem_cons_self, Nat.le_refl raw, hlt⟩
    · intro b hb
      rw [hsize]
      exact hgrown.block_new b hb
  have hofNat : UInt32.ofNat new.length = initial := by rw [hlen, UInt32.ofNat_toNat]
  refine ⟨true, small ++ p' :: large, mem', _, ?_, hins, hused, hframe, ?_,
    .inr ⟨rfl, p', new, ?_, rfl, hthis ▸ hfresh, fun a ha hin => hnew a ha (hin₁ a hin), hsize,
      hgrown.increment_eq, hlen, ?_, ?_⟩⟩
  · have hlist := @inserted_eq p' _ _ (hpools ▸ h.nodup)
    rw [← hlist, ← hpools]
    rfl
  · intro r hr
    rcases hranges r hr with hr | hout
    · rcases List.mem_cons.1 hr with rfl | hr
      · exact .inr hfresh
      · exact .inl hr
    · exact .inr fun hin => hout (hin₁ _ hin)
  · intro q
    rw [hpools, List.perm_middle.mem_iff, List.mem_cons]
  · rw [hofNat, hinv]
    exact UInt32.zero_add _
  · rw [hofNat, htotal]
    exact UInt32.zero_add _

theorem createPool_spec (heap : Heap) {mgr : MemManager} {mem : Memory} {free : ℕ → List ℕ}
    (h : PoolsOk mgr.pools mem free) (blockSize : ℕ) (initial increment : UInt32)
    (hfit : (∃ q ∈ mgr.pools, q.blockSize = poolSize blockSize) ∨
      MemPool.SegmentFits (poolSize blockSize) initial) :
    ∃ rv pools mem' free',
      mgr.createPool heap mem blockSize initial increment = (rv, { mgr with pools := pools }, mem') ∧
      PoolsOk pools mem' free' ∧ mgr.pools ⊆ pools ∧
      (∀ q ∈ pools, q ∈ mgr.pools ∨ q.blockSize = poolSize blockSize ∧ q.increment = increment) ∧
      mem.used ⊆ mem'.used ∧
      ∀ b, mem.Inside b → mem'.next b = mem.next b ∧ mem'.block b = mem.block b := by
  obtain ⟨rv, pools, mem', free', hrun, hok, hused, hframe, -, hpools⟩ :=
    createPool_inserts heap h blockSize initial increment hfit
  refine ⟨rv, pools, mem', free', hrun, hok, ?_, ?_, hused, hframe⟩
  all_goals rcases hpools with ⟨-, -, rfl, -⟩ | ⟨-, p, new, hins⟩
  · exact List.Subset.refl _
  · exact fun q hq => (hins.mem_iff q).2 (.inr hq)
  · exact fun q hq => .inl hq
  · intro q hq
    rcases (hins.mem_iff q).1 hq with rfl | hq
    · exact .inr ⟨hins.blockSize_eq, hins.increment_eq⟩
    · exact .inl hq

/-! ### The pool that fits -/

/-- The pool of the smallest size that fits. -/
def Smallest (pools : List MemPool) (size : ℕ) (p : MemPool) : Prop :=
  p ∈ pools ∧ size ≤ p.blockSize ∧ ∀ q ∈ pools, size ≤ q.blockSize → p.blockSize ≤ q.blockSize

variable {mgr : MemManager} {mem mem' : Memory} {free : ℕ → List ℕ} {p : MemPool} {size : ℕ}

/-- **The first pool that fits is the smallest.** -/
theorem smallest_of_poolGet (h : PoolsOk mgr.pools mem free) (hget : mgr.poolGet size = some p) :
    Smallest mgr.pools size p := by
  obtain ⟨hfit, small, large, hpools, hsmall⟩ := List.find?_eq_some_iff_append.1 hget
  rw [Smallest, hpools]
  have hsorted := (List.pairwise_append.1 (hpools ▸ h.sorted)).2.1
  refine ⟨List.mem_append_right small List.mem_cons_self, of_decide_eq_true hfit, ?_⟩
  intro q hq hqfit
  rcases List.mem_append.1 hq with hq | hq
  · have hnot := hsmall q hq
    simp only [Bool.not_eq_true', decide_eq_false_iff_not] at hnot
    exact absurd hqfit hnot
  · rcases List.mem_cons.1 hq with rfl | hq
    · exact Nat.le_refl _
    · exact Nat.le_of_lt ((List.pairwise_cons.1 hsorted).1 q hq)

/-- There is a pool that fits. -/
theorem exists_poolGet (h : ∃ p ∈ mgr.pools, size ≤ p.blockSize) :
    ∃ p, mgr.poolGet size = some p := by
  obtain ⟨p, hp, hfit⟩ := h
  exact Option.isSome_iff_exists.1 (List.find?_isSome.2 ⟨p, hp, decide_eq_true hfit⟩)

/-- **A block finds its pool by its size.** -/
theorem poolGet_blockSize (h : PoolsOk mgr.pools mem free) (hp : p ∈ mgr.pools) :
    mgr.poolGet p.blockSize = some p := by
  obtain ⟨q, hq⟩ := exists_poolGet ⟨p, hp, Nat.le_refl _⟩
  obtain ⟨hmem, hfit, hmin⟩ := smallest_of_poolGet h hq
  have hle := hmin p hp (Nat.le_refl _)
  rw [hq, h.eq_of_blockSize_eq hmem hp (by omega)]

/-- Every pool is still there. -/
def PoolsKept (pools pools' : List MemPool) : Prop :=
  ∀ p ∈ pools, ∃ p' ∈ pools', p'.this = p.this ∧ p'.blockSize = p.blockSize

theorem poolsKept_set {pools : List MemPool} {p' : MemPool} (h : PoolsOk pools mem free)
    (hp : p ∈ pools) (hthis : p'.this = p.this) (hsize : p'.blockSize = p.blockSize) :
    PoolsKept pools (pools.map fun q => if q.this = p'.this then p' else q) := by
  intro q hq
  refine ⟨_, List.mem_map_of_mem hq, ?_⟩
  split_ifs with heq
  · obtain rfl := h.eq_of_this_eq hq hp (heq.trans hthis)
    exact ⟨hthis, hsize⟩
  · exact ⟨rfl, rfl⟩

/-! ### Getting a block -/

/-- The manager and the memory after the block `b` has been handed out. -/
structure Deploys (mgr : MemManager) (mem : Memory) (b : ℕ) (mgr' : MemManager) (mem' : Memory) :
    Prop where
  kept : PoolsKept mgr.pools mgr'.pools
  count_eq : mgr'.deployedCount - mgr'.returnedCount = mgr.deployedCount - mgr.returnedCount + 1
  size_eq : mgr'.deployedSize = mgr.deployedSize + UInt32.ofNat (mem'.block b).blockSize
  valid : (mem'.block b).valid = true
  inside : mem'.Inside b
  guard_eq : mem.Inside b → (mem.block b).guard = 0
  used_subset : mem.used ⊆ mem'.used
  block_eq : ∀ a ≠ b, mem.Inside a → mem'.block a = mem.block a

/-- Writing a pool moves none. -/
theorem exists_mem_set {pools : List MemPool} {p' q : MemPool} (hq : q ∈ pools) :
    ∃ q' ∈ pools.map (fun q => if q.this = p'.this then p' else q), q'.this = q.this := by
  refine ⟨_, List.mem_map_of_mem hq, ?_⟩
  split_ifs with heq
  · exact heq.symm
  · rfl

theorem exists_of_mem_set {pools : List MemPool} {p' q' : MemPool}
    (hq : q' ∈ pools.map (fun q => if q.this = p'.this then p' else q)) :
    ∃ q ∈ pools, q.this = q'.this := by
  obtain ⟨q, hmem, rfl⟩ := List.mem_map.1 hq
  refine ⟨q, hmem, ?_⟩
  split_ifs with heq
  · exact heq
  · rfl

theorem count_deployed (a b : UInt32) : a + 1 - b = a - b + 1 := by
  rw [UInt32.sub_eq_add_neg, UInt32.sub_eq_add_neg, UInt32.add_assoc, UInt32.add_comm 1,
    ← UInt32.add_assoc]

/-- A pool is written twice. -/
theorem map_set_set {pools : List MemPool} {p p' : MemPool} (h : p'.this = p.this) :
    ((pools.map fun q => if q.this = p.this then p else q).map
      fun q => if q.this = p'.this then p' else q) =
      pools.map fun q => if q.this = p'.this then p' else q := by
  rw [List.map_map]
  refine List.map_congr_left fun q _ => ?_
  simp only [Function.comp_apply, h]
  split_ifs with hq hp
  · rfl
  · exact absurd rfl hp
  · rfl

/-- What becomes of a pool that hands out a block: it grows by some new blocks if it is empty, loses
the first block, and counts both. -/
structure Takes (pools : List MemPool) (mem : Memory) (free : ℕ → List ℕ) (p : MemPool) (b : ℕ)
    (pools' : List MemPool) (free' : ℕ → List ℕ) (p' : MemPool) (l new : List ℕ) : Prop where
  pools_eq : pools' = pools.map fun q => if q.this = p'.this then p' else q
  free_eq : free' = Function.update free p.this l
  this_eq : p'.this = p.this
  blockSize_eq : p'.blockSize = p.blockSize
  increment_eq : p'.increment = p.increment
  append_eq : free p.this ++ new = b :: l
  new_fresh : ∀ a ∈ new, ¬ mem.Inside a
  length_eq : new.length = if p.blkHead = none then p.increment.toNat else 0
  inventory_eq : p'.inventory = p.inventory + UInt32.ofNat new.length - 1
  totalBlocks_eq : p'.totalBlocks = p.totalBlocks + UInt32.ofNat new.length

/-- **A block from a pool.** -/
theorem memBlockGet_takes (heap : Heap) (h : PoolsOk mgr.pools mem free)
    (hget : mgr.poolGet size = some p) (hcan : p.blkHead = none → p.CanGrow) :
    ∃ b mgr' mem' free' p' l new, mgr.memBlockGet heap mem size = (some b, mgr', mem') ∧
      PoolsOk mgr'.pools mem' free' ∧ Deploys mgr mem b mgr' mem' ∧
      (mem'.block b).blockSize = p.blockSize ∧ MemPool.NewRanges mem mem' ∧
      Takes mgr.pools mem free p b mgr'.pools free' p' l new := by
  have hp := (smallest_of_poolGet h hget).1
  obtain ⟨b, p₁, mem₁, new, hrun, hhead, hgrown, hnew, hlen, hinv, htotal, hranges⟩ :=
    MemPool.memBlockGet_counted heap (h.queue p hp) (h.inside_free p hp) hcan
  have hgrow := h.grow hp hgrown fun q hq b hb hbnew => hnew b hbnew (h.inside_free q hq b hb)
  have hp₁ : p₁ ∈ mgr.pools.map fun q => if q.this = p₁.this then p₁ else q :=
    List.mem_map.2 ⟨p, hp, if_pos hgrown.this_eq.symm⟩
  obtain ⟨l, hl, hout, htake⟩ := hgrow.take hp₁ hhead
  have hb : b ∈ free p.this ++ new := by
    rw [hgrown.this_eq, Function.update_self] at hl
    exact hl ▸ List.mem_cons_self
  have hbfree : b ∈ Function.update free p.this (free p.this ++ new) p₁.this := by
    rw [hgrown.this_eq, Function.update_self]
    exact hb
  have hsize : (mem₁.block b).blockSize = p.blockSize := by
    rw [← hgrown.blockSize_eq]
    exact (hgrow.free_block p₁ hp₁ b hbfree).1
  rw [@map_set_set _ p₁ (p₁.take mem₁ b).1 rfl] at htake
  have hfinal := htake.blockSet (b := b) ?_ MemBlock.guardOn
  · have hsize' : (((p₁.take mem₁ b).2.blockSet b MemBlock.guardOn).block b).blockSize =
        p.blockSize := by
      rw [Memory.blockSet_self, MemBlock.blockSize_guardOn, MemPool.take, Memory.blockSet_self]
      exact hsize
    refine ⟨b, { mgr.poolSet (p₁.take mem₁ b).1 with
      deployedCount := mgr.deployedCount + 1
      deployedSize := mgr.deployedSize + UInt32.ofNat p.blockSize }, _, _,
      (p₁.take mem₁ b).1, l, new, ?_, hfinal,
      ⟨poolsKept_set h hp hgrown.this_eq hgrown.blockSize_eq, count_deployed _ _, by rw [hsize'], ?_,
        ?_, ?_, hgrown.used_subset, ?_⟩, hsize', hranges,
      ⟨rfl, ?_, hgrown.this_eq, hgrown.blockSize_eq, hgrown.increment_eq, ?_, hnew, hlen, ?_,
        htotal⟩⟩
    · rw [memBlockGet, hget]
      simp only [hrun]
      rw [← hsize]
      simp only [MemPool.take, Memory.blockSet_self]
      rfl
    · rw [Memory.blockSet_self]
      rfl
    · exact hgrow.inside_free p₁ hp₁ b hbfree
    · intro hin
      rcases List.mem_append.1 hb with hb | hb
      · exact (h.free_block p hp b hb).2
      · exact absurd hin (hnew b hb)
    · intro a ha hin
      have hanew : a ∉ new := fun hmem => hnew a hmem hin
      rw [Memory.blockSet_of_ne ha, MemPool.take, Memory.blockSet_of_ne ha,
        hgrown.block_eq a hanew]
    · rw [hgrown.this_eq, Function.update_idem]
    · rw [← hl, hgrown.this_eq, Function.update_self]
    · rw [← hinv]
      rfl
  · intro q hq
    obtain ⟨q₀, hq₀, heq₀⟩ := exists_of_mem_set hq
    obtain ⟨q₁, hq₁, heq₁⟩ := @exists_mem_set _ p₁ _ hq₀
    rw [← heq₀, ← heq₁]
    exact hout q₁ hq₁

/-- **A block of a size that no pool has** comes from the heap, and is the only one there. -/
theorem memBlockGet_custom (heap : Heap) (h : PoolsOk mgr.pools mem free)
    (hget : mgr.poolGet size = none) (hfit : BlockFits size) :
    ∃ b mgr' mem', mgr.memBlockGet heap mem size = (some b, mgr', mem') ∧
      PoolsOk mgr'.pools mem' free ∧ Deploys mgr mem b mgr' mem' ∧ mgr'.pools = mgr.pools ∧
      (mem'.block b).blockSize = size ∧ mem'.used = (b, size + MemBlock.sizeOf) :: mem.used ∧
      ∀ a, b ≤ a → a < b + (size + MemBlock.sizeOf) → ¬ mem.Inside a := by
  have hn : customSize size = size + MemBlock.sizeOf := Nat.mod_eq_of_lt hfit
  set n := customSize size
  set raw := (mem.new heap n).1 with hraw
  set mem₁ := (mem.new heap n).2 with hmem₁
  have hlt : raw < raw + n := Nat.lt_add_of_pos_right (hn ▸ Nat.add_pos_right size (by decide))
  have hfresh : ¬ mem.Inside raw := Memory.not_inside_new heap mem (Nat.le_refl raw) hlt
  have hout : ∀ q ∈ mgr.pools, raw ∉ free q.this := fun q hq hmem =>
    hfresh (h.inside_free q hq raw hmem)
  have hsub : mem.used ⊆ mem₁.used := List.subset_cons_self _ _
  have hok := ((h.frame hsub fun b _ => ⟨rfl, rfl⟩).blockSet hout
    fun _ => MemBlock.construct size).blockSet hout MemBlock.guardOn
  refine ⟨raw, { mgr with
    deployedCount := mgr.deployedCount + 1
    deployedSize := mgr.deployedSize + UInt32.ofNat size }, _, ?_, hok,
    ⟨fun p hp => ⟨p, hp, rfl, rfl⟩, count_deployed _ _, ?_, ?_, ?_, fun hin => absurd hin hfresh,
      hsub, ?_⟩, rfl, ?_, by rw [← hn]; rfl, fun a hle hlt =>
        Memory.not_inside_new heap mem hle (by rwa [← hn] at hlt)⟩
  · rw [memBlockGet, hget]
    simp only [Memory.blockSet_self, MemBlock.construct]
    rfl
  · rw [Memory.blockSet_self, Memory.blockSet_self]
    rfl
  · rw [Memory.blockSet_self]
    rfl
  · exact ⟨(raw, n), List.mem_cons_self, Nat.le_refl raw, hlt⟩
  · intro a ha _
    rw [Memory.blockSet_of_ne ha, Memory.blockSet_of_ne ha]
    rfl
  · rw [Memory.blockSet_self, Memory.blockSet_self]
    rfl

/-! ### Returning a block -/

theorem count_returned (a b : UInt32) : a - (b + 1) = a - b - 1 := by
  rw [UInt32.sub_eq_add_neg, UInt32.neg_add, UInt32.sub_eq_add_neg, UInt32.sub_eq_add_neg,
    UInt32.sub_eq_add_neg, UInt32.add_assoc]

/-- The inventory of a pool. -/
def Inventory (mem : Memory) (p : MemPool) (l : List ℕ) : Prop :=
  Queue mem.next p.blkHead p.blkTail l

/-- The manager and the memory after the block `b` of the pool at `id` has been returned. -/
structure Returns (mgr : MemManager) (mem : Memory) (b id : ℕ) (mgr' : MemManager)
    (mem' : Memory) : Prop where
  kept : PoolsKept mgr.pools mgr'.pools
  count_eq : mgr'.deployedCount - mgr'.returnedCount = mgr.deployedCount - mgr.returnedCount - 1
  size_eq : mgr'.deployedSize = mgr.deployedSize - UInt32.ofNat (mem.block b).blockSize
  guard_eq : (mem'.block b).guard = 0
  inside : mem'.Inside b
  used_subset : mem.used ⊆ mem'.used
  block_eq : ∀ a ≠ b, mem'.block a = mem.block a
  /-- The block goes to the end of the inventory of its pool. -/
  own : ∃ p ∈ mgr.pools, p.this = id ∧ ∃ p' ∈ mgr'.pools, p'.this = id ∧
    ∀ l, Inventory mem p l → Inventory mem' p' (l ++ [b])
  /-- The other pools and their inventories stay as they are. -/
  others : ∀ q ∈ mgr.pools, q.this ≠ id →
    q ∈ mgr'.pools ∧ ∀ l, Inventory mem q l → Inventory mem' q l

/-- What becomes of a pool that gets a block back: the block is the last of its inventory, and it is
counted. -/
structure Puts (pools : List MemPool) (free : ℕ → List ℕ) (p : MemPool) (b : ℕ)
    (pools' : List MemPool) (free' : ℕ → List ℕ) (p' : MemPool) : Prop where
  pools_eq : pools' = pools.map fun q => if q.this = p'.this then p' else q
  free_eq : free' = Function.update free p.this (free p.this ++ [b])
  this_eq : p'.this = p.this
  blockSize_eq : p'.blockSize = p.blockSize
  increment_eq : p'.increment = p.increment
  inventory_eq : p'.inventory = p.inventory + 1
  totalBlocks_eq : p'.totalBlocks = p.totalBlocks

/-- **A block goes back to the pool of its size.** -/
theorem memBlockPut_puts (h : PoolsOk mgr.pools mem free) (hp : p ∈ mgr.pools) {b : ℕ}
    (hsize : (mem.block b).blockSize = p.blockSize) (hvalid : (mem.block b).valid = true)
    (hin : mem.Inside b) :
    ∃ mgr' mem' free' p', mgr.memBlockPut mem (some b) = (true, none, mgr', mem') ∧
      PoolsOk mgr'.pools mem' free' ∧ Returns mgr mem b p.this mgr' mem' ∧
      mem'.used = mem.used ∧ Puts mgr.pools free p b mgr'.pools free' p' := by
  have hout := h.notMem_free_of_valid hvalid
  obtain ⟨p', mem', hput, hgrown⟩ := MemPool.memBlockPut_grown (h.queue p hp) (hout p hp)
    (f := MemBlock.guardOff) hsize rfl hin
  have hok := h.grow hp hgrown fun q hq a ha hab => hout q hq (List.mem_singleton.1 hab ▸ ha)
  have hp' : p' ∈ mgr.pools.map fun q => if q.this = p'.this then p' else q :=
    List.mem_map.2 ⟨p, hp, if_pos hgrown.this_eq.symm⟩
  have hused := MemPool.used_memBlockPut p (mem.blockSet b MemBlock.guardOff) (some b)
  rw [hput] at hused
  obtain ⟨hinv, htotal⟩ := MemPool.counts_memBlockPut hput
  refine ⟨{ mgr.poolSet p' with
    returnedCount := mgr.returnedCount + 1
    deployedSize := mgr.deployedSize - UInt32.ofNat p.blockSize }, mem', _, p', ?_, hok,
    ⟨poolsKept_set h hp hgrown.this_eq hgrown.blockSize_eq, ?_, by rw [hsize],
      (hgrown.block_new b List.mem_cons_self).2, hgrown.inside_new b List.mem_cons_self,
      hgrown.used_subset, fun a ha => hgrown.block_eq a (mt List.mem_singleton.1 ha),
      ⟨p, hp, rfl, p', hp', hgrown.this_eq, ?_⟩, ?_⟩, hused,
    ⟨rfl, rfl, hgrown.this_eq, hgrown.blockSize_eq, hgrown.increment_eq, hinv, htotal⟩⟩
  · rw [memBlockPut, if_neg (by simp [hvalid])]
    simp only [hsize, poolGet_blockSize h hp, hput]
    rfl
  · exact count_returned _ _
  · intro l hl
    rw [hl.visits.unique (h.queue p hp).visits]
    exact hgrown.queue
  · intro q hq hne
    refine ⟨List.mem_map.2 ⟨q, hq, if_neg (hgrown.this_eq ▸ hne)⟩, fun l hl => ?_⟩
    obtain rfl := hl.visits.unique (h.queue q hq).visits
    refine hl.congr fun a ha => hgrown.next_eq a (h.notMem_free hq hp hne ha) ?_
    intro hab
    exact hout q hq (List.mem_singleton.1 hab ▸ ha)

/-- **A block of a size that no pool has** goes back to the heap. -/
theorem memBlockPut_custom {b : ℕ} (hget : mgr.poolGet (mem.block b).blockSize = none)
    (hvalid : (mem.block b).valid = true) :
    mgr.memBlockPut mem (some b) = (true, none,
      { mgr with
        returnedCount := mgr.returnedCount + 1
        deployedSize := mgr.deployedSize - UInt32.ofNat (mem.block b).blockSize },
      (mem.blockSet b MemBlock.guardOff).delete b) := by
  rw [memBlockPut, if_neg (by simp [hvalid]), hget]
  rfl

/-- A block is returned using its buffer pointer. -/
theorem memBlockPutBuf_add (mgr : MemManager) (mem : Memory) (b : ℕ) :
    mgr.memBlockPutBuf mem (some (b + MemBlock.sizeOf)) =
      ((mgr.memBlockPut mem (some b)).1,
        if (mgr.memBlockPut mem (some b)).1 then none else some (b + MemBlock.sizeOf),
        (mgr.memBlockPut mem (some b)).2.2) := by
  rw [memBlockPutBuf, if_neg (Nat.not_lt.2 (Nat.le_add_left _ _)), Nat.add_sub_cancel]

/-- A block without a guard is refused. -/
theorem memBlockPut_of_guard {b : ℕ} (h : (mem.block b).guard = 0) :
    mgr.memBlockPut mem (some b) = (false, some b, mgr, mem) := by
  rw [memBlockPut]
  exact if_pos (MemBlock.valid_eq_false_of_guard h)

end MemManager

/-! ### The blocks that are held -/

/-- The invariant of the blocks that somebody holds; each comes with the pool it is from, if it is
from a pool. -/
structure HeldOk (mgr : MemManager) (mem : Memory) (held : List (ℕ × Option ℕ)) : Prop where
  nodup : (held.map Prod.fst).Nodup
  valid : ∀ e ∈ held, (mem.block e.1).valid = true
  inside : ∀ e ∈ held, mem.Inside e.1
  pool : ∀ b id, (b, some id) ∈ held →
    ∃ p ∈ mgr.pools, p.this = id ∧ (mem.block b).blockSize = p.blockSize
  count : mgr.deployedCount - mgr.returnedCount = UInt32.ofNat held.length
  size : mgr.deployedSize = UInt32.ofNat (held.map fun e => (mem.block e.1).blockSize).sum

namespace HeldOk

variable {mgr mgr' : MemManager} {mem mem' : Memory} {held : List (ℕ × Option ℕ)}

/-- Nothing that is held changes. -/
theorem frame (h : HeldOk mgr mem held) (hpools : MemManager.PoolsKept mgr.pools mgr'.pools)
    (hused : mem.used ⊆ mem'.used) (hblock : ∀ e ∈ held, mem'.block e.1 = mem.block e.1)
    (hcount : mgr'.deployedCount - mgr'.returnedCount = mgr.deployedCount - mgr.returnedCount)
    (hsize : mgr'.deployedSize = mgr.deployedSize) : HeldOk mgr' mem' held := by
  refine ⟨h.nodup, ?_, ?_, ?_, hcount.trans h.count, ?_⟩
  · intro e he
    rw [hblock e he]
    exact h.valid e he
  · intro e he
    obtain ⟨r, hr, hre⟩ := h.inside e he
    exact ⟨r, hused hr, hre⟩
  · intro b id he
    obtain ⟨p, hp, hid, hsize⟩ := h.pool b id he
    obtain ⟨p', hp', hthis, hsize'⟩ := hpools p hp
    refine ⟨p', hp', hthis.trans hid, ?_⟩
    exact (congrArg MemBlock.blockSize (hblock _ he)).trans (hsize.trans hsize'.symm)
  · rw [hsize, h.size, List.map_congr_left fun e he => congrArg MemBlock.blockSize (hblock e he)]

/-- **A block that is handed out was not held.** -/
theorem notMem_of_deploys (h : HeldOk mgr mem held) {b : ℕ}
    (hdep : MemManager.Deploys mgr mem b mgr' mem') : b ∉ held.map Prod.fst := by
  intro hmem
  obtain ⟨e, he, rfl⟩ := List.mem_map.1 hmem
  have hguard := MemBlock.valid_eq_false_of_guard (hdep.guard_eq (h.inside e he))
  exact absurd ((h.valid e he).symm.trans hguard) (by decide)

/-- A block is handed out. -/
theorem deploy (h : HeldOk mgr mem held) {b : ℕ} (hdep : MemManager.Deploys mgr mem b mgr' mem')
    {o : Option ℕ} (ho : ∀ id, o = some id → ∃ p ∈ mgr'.pools, p.this = id ∧
      (mem'.block b).blockSize = p.blockSize) : HeldOk mgr' mem' ((b, o) :: held) := by
  have hb := h.notMem_of_deploys hdep
  have hblock : ∀ e ∈ held, mem'.block e.1 = mem.block e.1 := fun e he =>
    hdep.block_eq e.1 (fun heq => hb (heq ▸ List.mem_map_of_mem he)) (h.inside e he)
  -- the others stay as they are
  have hothers : HeldOk { mgr with pools := mgr'.pools } mem' held :=
    h.frame hdep.kept hdep.used_subset hblock rfl rfl
  refine ⟨List.nodup_cons.2 ⟨hb, h.nodup⟩, List.forall_mem_cons.2 ⟨hdep.valid, hothers.valid⟩,
    List.forall_mem_cons.2 ⟨hdep.inside, hothers.inside⟩, ?_, ?_, ?_⟩
  · intro b' id he
    rcases List.mem_cons.1 he with heq | he
    · obtain ⟨rfl, rfl⟩ := Prod.mk.inj heq
      exact ho id rfl
    · exact hothers.pool b' id he
  · rw [hdep.count_eq, h.count, List.length_cons, UInt32.ofNat_add]
    rfl
  · rw [hdep.size_eq, List.map_cons, List.sum_cons, Nat.add_comm, UInt32.ofNat_add]
    exact congrArg (· + _) hothers.size

/-- A block is returned. -/
theorem giveBack (h : HeldOk mgr mem held) {b : ℕ} {o : Option ℕ} (he : (b, o) ∈ held)
    (hpools : MemManager.PoolsKept mgr.pools mgr'.pools) (hused : mem.used ⊆ mem'.used)
    (hblock : ∀ a ≠ b, mem'.block a = mem.block a)
    (hcount : mgr'.deployedCount - mgr'.returnedCount =
      mgr.deployedCount - mgr.returnedCount - 1)
    (hsize : mgr'.deployedSize = mgr.deployedSize - UInt32.ofNat (mem.block b).blockSize) :
    HeldOk mgr' mem' (held.erase (b, o)) := by
  have hperm := List.perm_cons_erase he
  have hnodup := (hperm.map Prod.fst).nodup_iff.1 h.nodup
  obtain ⟨hb, hnodup'⟩ := List.nodup_cons.1 hnodup
  have hsub : ∀ e ∈ held.erase (b, o), e ∈ held ∧ mem'.block e.1 = mem.block e.1 := by
    intro e hmem
    have hne : e.1 ≠ b := fun heq => hb (List.mem_map.2 ⟨e, hmem, heq⟩)
    exact ⟨List.mem_of_mem_erase hmem, hblock e.1 hne⟩
  refine ⟨hnodup', ?_, ?_, ?_, ?_, ?_⟩
  · intro e hmem
    obtain ⟨hin, heq⟩ := hsub e hmem
    rw [heq]
    exact h.valid e hin
  · intro e hmem
    obtain ⟨r, hr, hre⟩ := h.inside e (hsub e hmem).1
    exact ⟨r, hused hr, hre⟩
  · intro b' id hmem
    obtain ⟨hin, heq⟩ := hsub _ hmem
    obtain ⟨p, hp, hid, hpsize⟩ := h.pool b' id hin
    obtain ⟨p', hp', hthis, hpsize'⟩ := hpools p hp
    exact ⟨p', hp', hthis.trans hid,
      (congrArg MemBlock.blockSize heq).trans (hpsize.trans hpsize'.symm)⟩
  · rw [hcount, h.count, hperm.length_eq, List.length_cons, UInt32.ofNat_add]
    exact UInt32.add_sub_cancel _ _
  · have hsum := (hperm.map fun e => (mem.block e.1).blockSize).sum_nat
    rw [hsize, h.size, hsum, List.map_cons, List.sum_cons, Nat.add_comm, UInt32.ofNat_add,
      List.map_congr_left fun e hmem => congrArg MemBlock.blockSize (hsub e hmem).2]
    exact UInt32.add_sub_cancel _ _

end HeldOk

/-! ### Calls one after another -/

/-- The manager, the memory, and who holds what: the blocks that have been handed out, with the
pools that they are from. -/
structure MemWorld where
  mgr : MemManager
  mem : Memory
  held : List (ℕ × Option ℕ)

/-- A call, or what a holder does to a block. -/
inductive MemOp
  | createPool (blockSize : ℕ) (initial increment : UInt32)
  | memBlockGet (size : ℕ)
  | memBlockPut (b : ℕ)
  /-- A block is returned using its buffer pointer. -/
  | memBlockPutBuf (b : ℕ)
  /-- The holder of a block writes to the start of its buffer. -/
  | write (b : ℕ) (ptr : Option ℕ)

/-- What a call answers. -/
inductive MemAnswer
  | created (rv : Bool)
  | got (b : Option ℕ)
  | put (rv : Bool)
  | written
  deriving DecidableEq

/-- One call.  A pool has an increment, and a block that is returned is held and is from a pool. -/
def memStep (heap : Heap) (w : MemWorld) : MemOp → Option (MemAnswer × MemWorld)
  | .createPool blockSize initial increment =>
      if increment = 0 then none
      else
        let r := w.mgr.createPool heap w.mem blockSize initial increment
        some (.created r.1, { w with mgr := r.2.1, mem := r.2.2 })
  | .memBlockGet size =>
      let r := w.mgr.memBlockGet heap w.mem size
      let held := match r.1 with
        | some b => (b, (w.mgr.poolGet size).map MemPool.this) :: w.held
        | none => w.held
      some (.got r.1, { mgr := r.2.1, mem := r.2.2, held := held })
  | .memBlockPut b =>
      match w.held.lookup b with
      | some (some id) =>
          let r := w.mgr.memBlockPut w.mem (some b)
          let held := if r.1 then w.held.erase (b, some id) else w.held
          some (.put r.1, { mgr := r.2.2.1, mem := r.2.2.2, held := held })
      | _ => none
  | .memBlockPutBuf b =>
      match w.held.lookup b with
      | some (some id) =>
          let r := w.mgr.memBlockPutBuf w.mem (some (b + MemBlock.sizeOf))
          let held := if r.1 then w.held.erase (b, some id) else w.held
          some (.put r.1, { mgr := r.2.2.1, mem := r.2.2.2, held := held })
      | _ => none
  | .write b ptr =>
      match w.held.lookup b with
      | some _ => some (.written, { w with mem := w.mem.nextSet (some b) ptr })
      | none => none

/-- The world when the manager has been constructed, and nobody holds a block. -/
def MemWorld.initial (heap : Heap) (mem : Memory) : MemWorld where
  mgr := (MemManager.construct heap mem).1
  mem := (MemManager.construct heap mem).2
  held := []

/-- The invariant. -/
def MemWorld.Ok (w : MemWorld) : Prop :=
  ∃ free, PoolsOk w.mgr.pools w.mem free ∧ HeldOk w.mgr w.mem w.held ∧
    ∀ p ∈ w.mgr.pools, p.increment ≠ 0

namespace MemWorld

variable {w w' : MemWorld} {heap : Heap}

theorem mem_of_lookup {b : ℕ} {o : Option ℕ} (h : w.held.lookup b = some o) : (b, o) ∈ w.held := by
  obtain ⟨l₁, l₂, heq, -⟩ := List.lookup_eq_some_iff.1 h
  rw [heq]
  exact List.mem_append_right l₁ List.mem_cons_self

/-- A held block is found with the pool that it is from. -/
theorem lookup_of_mem (hheld : HeldOk w.mgr w.mem w.held) {b : ℕ} {o : Option ℕ}
    (he : (b, o) ∈ w.held) : w.held.lookup b = some o := by
  cases hlook : w.held.lookup b with
  | none =>
      have hne := List.lookup_eq_none_iff.1 hlook (b, o) he
      simp at hne
  | some o' =>
      have heq := List.inj_on_of_nodup_map hheld.nodup (mem_of_lookup hlook) he rfl
      exact congrArg (fun e => some e.2) heq

/-- Pools are created one after another. -/
theorem createPools_spec (heap : Heap) {l : List (ℕ × UInt32 × UInt32)}
    (hl : ∀ p ∈ l, MemPool.SegmentFits (MemManager.poolSize p.1) p.2.1)
    (mgr : MemManager) {mem : Memory} {free : ℕ → List ℕ} (h : PoolsOk mgr.pools mem free) :
    ∃ pools mem' free', MemManager.createPools heap l mgr mem = ({ mgr with pools := pools }, mem') ∧
      PoolsOk pools mem' free' ∧ ∀ q ∈ pools, q ∈ mgr.pools ∨
        ∃ p ∈ l, q.blockSize = MemManager.poolSize p.1 ∧ q.increment = p.2.2 := by
  induction l generalizing mgr mem free with
  | nil => exact ⟨mgr.pools, mem, free, rfl, h, fun q hq => .inl hq⟩
  | cons p l ih =>
      obtain ⟨hfit, hl⟩ := List.forall_mem_cons.1 hl
      obtain ⟨rv, pools, mem₁, free₁, hrun, hok, -, hnew, -⟩ :=
        MemManager.createPool_spec heap h p.1 p.2.1 p.2.2 (.inr hfit)
      obtain ⟨pools', mem', free', hrest, hok', hnew'⟩ := ih hl { mgr with pools := pools } hok
      refine ⟨pools', mem', free', ?_, hok', fun q hq => ?_⟩
      · rw [MemManager.createPools, List.foldl_cons, hrun]
        exact hrest
      · rcases hnew' q hq with hq | ⟨p', hp', heq⟩
        · exact (hnew q hq).imp_right fun heq => ⟨p, List.mem_cons_self, heq⟩
        · exact .inr ⟨p', List.mem_cons_of_mem p hp', heq⟩

/-- The sizes of the standard pools are small. -/
theorem standardPools_fit : ∀ p ∈ MemManager.standardPools,
    MemPool.SegmentFits (MemManager.poolSize p.1) p.2.1 ∧ p.2.2 ≠ 0 ∧
      MemPool.SegmentFits (MemManager.poolSize p.1) p.2.2 := by
  decide

/-- **The constructor establishes the invariant**, and its pools can grow. -/
theorem ok_initial (heap : Heap) (mem : Memory) :
    (initial heap mem).Ok ∧ ∀ p ∈ (initial heap mem).mgr.pools, p.CanGrow := by
  have hnil : PoolsOk [] mem fun _ => [] :=
    ⟨List.Pairwise.nil, List.nodup_nil, by simp, by simp, by simp, by simp⟩
  obtain ⟨pools, mem', free, hrun, hok, hnew⟩ :=
    createPools_spec heap (fun p hp => (standardPools_fit p hp).1) MemManager.poolless hnil
  have hcan : ∀ q ∈ pools, q.CanGrow := by
    intro q hq
    rcases hnew q hq with hq | ⟨p, hp, hsize, hinc⟩
    · cases hq
    · rw [MemPool.CanGrow, hsize, hinc]
      exact (standardPools_fit p hp).2
  rw [initial, MemManager.construct, hrun]
  exact ⟨⟨free, hok, ⟨List.nodup_nil, by simp, by simp, by simp, UInt32.sub_self _, rfl⟩,
    fun q hq => (hcan q hq).1⟩, hcan⟩

/-- The sizes of the allocations of a call are what the code takes them for: a segment that may be allocated
has room for its blocks, and a custom size block for its buffer. -/
def SizesFit (w : MemWorld) : MemOp → Prop
  | .createPool blockSize initial _ =>
      (∃ p ∈ w.mgr.pools, p.blockSize = MemManager.poolSize blockSize) ∨
        MemPool.SegmentFits (MemManager.poolSize blockSize) initial
  | .memBlockGet size =>
      (∀ p ∈ w.mgr.poolGet size, p.blkHead = none → MemPool.SegmentFits p.blockSize p.increment) ∧
        (w.mgr.poolGet size = none → MemManager.BlockFits size)
  | _ => True

instance decidableSizesFit (w : MemWorld) (op : MemOp) : Decidable (w.SizesFit op) :=
  match op with
  | .createPool blockSize initial _ => inferInstanceAs (Decidable
      ((∃ p ∈ w.mgr.pools, p.blockSize = MemManager.poolSize blockSize) ∨
        MemPool.SegmentFits (MemManager.poolSize blockSize) initial))
  | .memBlockGet size => inferInstanceAs (Decidable
      ((∀ p ∈ w.mgr.poolGet size, p.blkHead = none → MemPool.SegmentFits p.blockSize p.increment) ∧
        (w.mgr.poolGet size = none → MemManager.BlockFits size)))
  | .memBlockPut _ | .memBlockPutBuf _ | .write _ _ => .isTrue trivial

/-- **A block that is handed out** is guarded, and nobody holds it. -/
theorem memStep_memBlockGet (heap : Heap) (h : w.Ok) {size : ℕ}
    (hfit : w.SizesFit (.memBlockGet size)) :
    ∃ b w', memStep heap w (.memBlockGet size) = some (.got (some b), w') ∧ w'.Ok ∧
      MemManager.Deploys w.mgr w.mem b w'.mgr w'.mem ∧ b ∉ w.held.map Prod.fst ∧
      w'.held = (b, (w.mgr.poolGet size).map MemPool.this) :: w.held ∧
      ∀ p, w.mgr.poolGet size = some p → (w'.mem.block b).blockSize = p.blockSize := by
  obtain ⟨free, hok, hheld, hinc⟩ := h
  cases hget : w.mgr.poolGet size with
  | some p =>
      have hp := (MemManager.smallest_of_poolGet hok hget).1
      obtain ⟨b, mgr', mem', free', p', l, new, hrun, hok', hdep, hsize, -, htakes⟩ :=
        MemManager.memBlockGet_takes heap hok hget fun hhead => ⟨hinc p hp, hfit.1 p hget hhead⟩
      have hinc' : ∀ q ∈ mgr'.pools, q.increment ≠ 0 := by
        rw [htakes.pools_eq]
        exact forall_mem_set (htakes.increment_eq ▸ hinc p hp) fun q hq _ => hinc q hq
      refine ⟨b, _, by rw [memStep, hrun, hget], ⟨free', hok', hheld.deploy hdep ?_, hinc'⟩, hdep,
        hheld.notMem_of_deploys hdep, rfl, ?_⟩
      · intro id hid
        obtain ⟨p', hp', hthis, hsize'⟩ := hdep.kept p hp
        exact ⟨p', hp', hthis.trans (Option.some.inj hid), hsize.trans hsize'.symm⟩
      · intro q hq
        obtain rfl := Option.some.inj hq
        exact hsize
  | none =>
      obtain ⟨b, mgr', mem', hrun, hok', hdep, hpools, -⟩ :=
        MemManager.memBlockGet_custom heap hok hget (hfit.2 hget)
      exact ⟨b, _, by rw [memStep, hrun, hget], ⟨free, hok', hheld.deploy (o := none) hdep
        (by simp), hpools ▸ hinc⟩, hdep, hheld.notMem_of_deploys hdep, rfl, by simp⟩

/-- **A block that is returned** goes back to the pool that it is from. -/
theorem memStep_memBlockPut (heap : Heap) (h : w.Ok) {b id : ℕ} (he : (b, some id) ∈ w.held) :
    ∃ w', memStep heap w (.memBlockPut b) = some (.put true, w') ∧ w'.Ok ∧
      MemManager.Returns w.mgr w.mem b id w'.mgr w'.mem ∧
      w'.held = w.held.erase (b, some id) := by
  obtain ⟨free, hok, hheld, hinc⟩ := h
  have hlook := lookup_of_mem hheld he
  obtain ⟨p, hp, rfl, hsize⟩ := hheld.pool b id he
  obtain ⟨mgr', mem', free', p', hrun, hok', hret, -, hputs⟩ :=
    MemManager.memBlockPut_puts hok hp hsize (hheld.valid _ he) (hheld.inside _ he)
  have hinc' : ∀ q ∈ mgr'.pools, q.increment ≠ 0 := by
    rw [hputs.pools_eq]
    exact forall_mem_set (hputs.increment_eq ▸ hinc p hp) fun q hq _ => hinc q hq
  refine ⟨_, by rw [memStep, hlook, hrun], ⟨free', hok', ?_, hinc'⟩, hret, rfl⟩
  exact hheld.giveBack he hret.kept hret.used_subset hret.block_eq hret.count_eq hret.size_eq

/-- **The buffer pointer of a block** stands for the block. -/
theorem memStep_memBlockPutBuf (heap : Heap) (w : MemWorld) (b : ℕ) :
    memStep heap w (.memBlockPutBuf b) = memStep heap w (.memBlockPut b) := by
  rw [memStep, memStep, MemManager.memBlockPutBuf_add]

/-- A block that has been returned lies in the memory of a pool, without a guard. -/
def Returned (w : MemWorld) (b : ℕ) : Prop := w.mem.Inside b ∧ (w.mem.block b).guard = 0

/-- **One call keeps the invariant**, and a block that has been returned stays so until it is handed
out. -/
theorem memStep_ok {op : MemOp} {a : MemAnswer} (h : w.Ok) (hfit : w.SizesFit op)
    (hstep : memStep heap w op = some (a, w')) :
    w'.Ok ∧ ∀ b, a ≠ .got (some b) → w.Returned b → w'.Returned b := by
  have hput : ∀ b, memStep heap w (.memBlockPut b) = some (a, w') →
      w'.Ok ∧ ∀ b, a ≠ .got (some b) → w.Returned b → w'.Returned b := by
    intro b hstep
    cases hlook : w.held.lookup b with
    | none => simp [memStep, hlook] at hstep
    | some o =>
        cases o with
        | none => simp [memStep, hlook] at hstep
        | some id =>
            obtain ⟨w₁, hstep₁, hok, hret, -⟩ := memStep_memBlockPut heap h (mem_of_lookup hlook)
            rw [hstep] at hstep₁
            cases hstep₁
            refine ⟨hok, fun c _ hc => ?_⟩
            by_cases hcb : c = b
            · rw [hcb]
              exact ⟨hret.inside, hret.guard_eq⟩
            · obtain ⟨⟨r, hr, hrc⟩, hguard⟩ := hc
              exact ⟨⟨r, hret.used_subset hr, hrc⟩, (hret.block_eq c hcb).symm ▸ hguard⟩
  cases op with
  | createPool blockSize initial increment =>
      obtain ⟨free, hpools, hheld, hincs⟩ := h
      by_cases hinc : increment = 0
      · simp [memStep, hinc] at hstep
      obtain ⟨rv, pools, mem', free', hrun, hpools', hsub, hnew, hused, hframe⟩ :=
        MemManager.createPool_spec heap hpools blockSize initial increment hfit
      rw [memStep, if_neg hinc, hrun] at hstep
      cases hstep
      refine ⟨⟨free', hpools', hheld.frame (fun p hp => ⟨p, hsub hp, rfl, rfl⟩) hused
        (fun e he => (hframe e.1 (hheld.inside e he)).2) rfl rfl, fun q hq => ?_⟩,
        fun c _ ⟨hin, hguard⟩ => ?_⟩
      · exact (hnew q hq).elim (hincs q) fun heq => heq.2 ▸ hinc
      · obtain ⟨r, hr, hrc⟩ := hin
        exact ⟨⟨r, hused hr, hrc⟩, (hframe c ⟨r, hr, hrc⟩).2.symm ▸ hguard⟩
  | memBlockGet size =>
      obtain ⟨b, w₁, hstep₁, hok, hdep, -⟩ := memStep_memBlockGet heap h hfit
      rw [hstep] at hstep₁
      cases hstep₁
      refine ⟨hok, fun c hc ⟨⟨r, hr, hrc⟩, hguard⟩ => ?_⟩
      have hcb : c ≠ b := fun hcb => hc (hcb ▸ rfl)
      exact ⟨⟨r, hdep.used_subset hr, hrc⟩, (hdep.block_eq c hcb ⟨r, hr, hrc⟩).symm ▸ hguard⟩
  | memBlockPut b => exact hput b hstep
  | memBlockPutBuf b => exact hput b (memStep_memBlockPutBuf heap w b ▸ hstep)
  | write b ptr =>
      obtain ⟨free, hpools, hheld, hinc⟩ := h
      cases hlook : w.held.lookup b with
      | none => simp [memStep, hlook] at hstep
      | some o =>
          rw [memStep, hlook] at hstep
          cases hstep
          have hout := hpools.notMem_free_of_valid (hheld.valid _ (mem_of_lookup hlook))
          exact ⟨⟨free, hpools.nextSet hout ptr, hheld.frame (fun p hp => ⟨p, hp, rfl, rfl⟩)
            (List.Subset.refl _) (fun _ _ => rfl) rfl rfl, hinc⟩, fun c _ hc => hc⟩

end MemWorld

open MemWorld

/-- **Order, best fit, no double deployment, and the counters**, after any calls whose sizes fit. -/
theorem memManager_run (heap : Heap) (mem₀ : Memory) {ops : List MemOp}
    {answers : List MemAnswer} {w : MemWorld}
    (h : StepSystem.run (memStep heap) ops (MemWorld.initial heap mem₀) = some (answers, w))
    (hfit : StepSystem.Meets (memStep heap) SizesFit ops (MemWorld.initial heap mem₀)) :
    (w.mgr.pools.Pairwise fun p q => p.blockSize < q.blockSize) ∧
    (∀ size, (∃ p ∈ w.mgr.pools, size ≤ p.blockSize) → w.SizesFit (.memBlockGet size) →
      ∃ p b w', MemManager.Smallest w.mgr.pools size p ∧
        memStep heap w (.memBlockGet size) = some (.got (some b), w') ∧
        (w'.mem.block b).valid = true ∧ (w'.mem.block b).blockSize = p.blockSize ∧
        b ∉ w.held.map Prod.fst ∧ w'.held = (b, some p.this) :: w.held) ∧
    (∀ b id, (b, some id) ∈ w.held →
      ∃ w', memStep heap w (.memBlockPut b) = some (.put true, w') ∧
        memStep heap w (.memBlockPutBuf b) = some (.put true, w') ∧
        w'.held = w.held.erase (b, some id) ∧
        MemManager.Returns w.mgr w.mem b id w'.mgr w'.mem ∧
        ∀ ops' answers' w'', StepSystem.run (memStep heap) ops' w' = some (answers', w'') →
          StepSystem.Meets (memStep heap) SizesFit ops' w' → .got (some b) ∉ answers' →
          w''.mgr.memBlockPut w''.mem (some b) = (false, some b, w''.mgr, w''.mem)) ∧
    w.mgr.deployedCount - w.mgr.returnedCount = UInt32.ofNat w.held.length ∧
    w.mgr.deployedSize = UInt32.ofNat (w.held.map fun e => (w.mem.block e.1).blockSize).sum := by
  have hok : w.Ok :=
    StepSystem.run_invariant_of_meets (fun hok hG hstep => (memStep_ok hok hG hstep).1)
      (ok_initial heap mem₀).1 h hfit
  obtain ⟨free, hpools, hheld, -⟩ := id hok
  refine ⟨hpools.sorted, ?_, ?_, hheld.count, hheld.size⟩
  · intro size hexists hsize
    obtain ⟨p, hget⟩ := MemManager.exists_poolGet hexists
    obtain ⟨b, w', hstep, -, hdep, hnew, hheld', hblock⟩ := memStep_memBlockGet heap hok hsize
    rw [hget] at hheld'
    exact ⟨p, b, w', MemManager.smallest_of_poolGet hpools hget, hstep, hdep.valid, hblock p hget,
      hnew, hheld'⟩
  · intro b id he
    obtain ⟨w', hstep, hok', hret, herase⟩ := memStep_memBlockPut heap hok he
    refine ⟨w', hstep, (memStep_memBlockPutBuf heap w b).trans hstep, herase, hret, ?_⟩
    intro ops' answers' w'' hrun hmeets hnot
    have hlast : w''.Ok ∧ (.got (some b) ∉ answers' → w''.Returned b) := by
      refine @StepSystem.run_history_of_meets MemWorld MemOp MemAnswer (memStep heap)
        (fun as v => v.Ok ∧ (.got (some b) ∉ as → v.Returned b)) SizesFit ?_ ops' w' w'' [] answers'
        ⟨hok', fun _ => ⟨hret.inside, hret.guard_eq⟩⟩ hrun hmeets
      intro as v op a v' hv hG hst
      obtain ⟨hok₁, hkeep⟩ := memStep_ok hv.1 hG hst
      refine ⟨hok₁, fun has => ?_⟩
      rw [List.mem_append, List.mem_singleton, not_or] at has
      exact hkeep b (Ne.symm has.2) (hv.2 has.1)
    exact MemManager.memBlockPut_of_guard (hlast.2 hnot).2

/-- A memory of which nothing is in use. -/
def unusedMemory : Memory where
  block _ := MemBlock.construct 0
  next _ := none
  used := []

/-- Pools are created, blocks handed out, written to and returned. -/
def sampleMemOps : List MemOp :=
  [.createPool 512 2 2, .memBlockGet 300, .memBlockGet 20000, .memBlockGet 300, .write 266560 (some 7),
    .memBlockGet 500, .createPool 400 1 1, .memBlockPut 266560, .memBlockGet 512, .memBlockGet 512,
    .memBlockPutBuf 267088]

/-- Four blocks are held at the end, one of which is returned and not accepted a second time. -/
theorem memManager_run_sample :
    StepSystem.Meets (memStep bumpHeap) SizesFit sampleMemOps (initial bumpHeap unusedMemory) ∧
      ∃ answers w, StepSystem.run (memStep bumpHeap) sampleMemOps (initial bumpHeap unusedMemory) =
          some (answers, w) ∧
        (w.mgr.pools.Pairwise fun p q => p.blockSize < q.blockSize) ∧
        w.mgr.deployedCount - w.mgr.returnedCount = 4 ∧ w.mgr.deployedSize = 21536 ∧
        ∃ w', memStep bumpHeap w (.memBlockPut 287640) = some (.put true, w') ∧
          w'.mgr.memBlockPut w'.mem (some 287640) = (false, some 287640, w'.mgr, w'.mem) := by
  have hfit : StepSystem.Meets (memStep bumpHeap) SizesFit sampleMemOps
      (initial bumpHeap unusedMemory) := by
    decide +kernel
  have hend : ((StepSystem.run (memStep bumpHeap) sampleMemOps (initial bumpHeap unusedMemory)).any
      fun r => decide ((287640, some 266496) ∈ r.2.held ∧ r.2.held.length = 4 ∧
        (r.2.held.map fun e => (r.2.mem.block e.1).blockSize).sum = 21536)) = true := by
    decide +kernel
  obtain ⟨⟨answers, w⟩, hrun, hw⟩ := (Option.any_eq_true _ _).1 hend
  obtain ⟨hmem, hlength, hsum⟩ := of_decide_eq_true hw
  obtain ⟨hsorted, -, hput, hcount, hsize⟩ := memManager_run bumpHeap unusedMemory hrun hfit
  obtain ⟨w', hstep, -, -, -, hagain⟩ := hput 287640 266496 hmem
  refine ⟨hfit, answers, w, hrun, hsorted, ?_, ?_, w', hstep, ?_⟩
  · rw [hcount, hlength]
    rfl
  · rw [hsize, hsum]
    rfl
  · exact hagain [] [] w' rfl trivial List.not_mem_nil

/-- A heap that puts 8 octets right before the memory that has been allocated for a block of 20000. -/
def wrapHeap : Heap :=
  bumpHeap.placing fun used n =>
    if n = 8 then ((used.find? fun r => r.2 = 20016).map fun r => r.1 - 8).getD 0
    else bumpHeap.new used n + 8

/-- **A block that is held is handed out again**: a segment for one block of 2^64 - 16 octets is allocated
with 8 octets, and its block is where the other one is. -/
theorem memBlockGet_twice :
    (StepSystem.run (memStep wrapHeap)
        [.memBlockGet 20000, .createPool (2 ^ 64 - 16) 1 1, .memBlockGet (2 ^ 64 - 16)]
        (initial wrapHeap unusedMemory)).map (fun r => (r.1, r.2.held.map Prod.fst)) =
      some ([.got (some 266600), .created true, .got (some 266600)], [266600, 266600]) := by
  decide +kernel

end CodePort
