/-
The cache of node addresses.

A lookup that misses the cache calls the resolver function and adds what that returns; flushing the
cache clears it and adds the resolver node again.  A lookup holds no lock while it calls the function,
so a flush may come between the call and the addition, and then an address that is older than the
flush gets into the cache after it.

Main definitions:

* `CodePort.IpcResolver` — the cache; `find`, `clear` and `addressAdd` are its critical sections;
* `CodePort.ResolverWorld`, `CodePort.resolverStep` — the cache and its callers; one section or call;
* `CodePort.ResolverWorld.Flushed` — no entry is older than a flush that has returned;
* `CodePort.ResolverWorld.Current` — the condition on a step.

Main results:

* `CodePort.ResolverWorld.UpToDate.step` — **one step keeps the invariant**;
* `CodePort.flushAddrCache_flushed` — when a flush removes all earlier addresses;
* `CodePort.ResolverWorld.UpToDate.not_flushed` — otherwise the next addition shows that it does not.

Addresses do not tell where they are from, so the moment of the resolver call is kept beside each of
them; no function looks at it.
-/

import CodePort.StepSystem
import Mathlib.Data.List.AList
import Mathlib.Data.Nat.Notation

set_option relaxedAutoImplicit false
set_option autoImplicit false

namespace CodePort

open StepSystem

/-! ### The cache -/

/-- The resolver: a map of resolved node addresses. -/
structure IpcResolver where
  addrMap : AList fun _ : List UInt8 => UInt32

namespace IpcResolver

/-- The first section of `NodeAddrLookup`: the address in the cache, or zero. -/
def find (r : IpcResolver) (nodeName : List UInt8) : UInt32 :=
  (r.addrMap.lookup nodeName).getD 0

/-- Flush the address cache. -/
def clear (_ : IpcResolver) : IpcResolver := ⟨∅⟩

/-- Add an address to the cache. -/
def addressAdd (r : IpcResolver) (nodeName : List UInt8) (address : UInt32) : IpcResolver :=
  ⟨r.addrMap.insert nodeName address⟩

end IpcResolver

/-- The resolver node of a node. -/
structure ResolverNode where
  resolverNodeName : List UInt8
  resolverNodeAddr : UInt32

/-! ### Callers -/

/-- Where a thread stands. -/
inductive ResolverPc
  | idle
  /-- `NodeAddrLookup` has missed the cache, and calls the resolver function. -/
  | calling (nodeName : List UInt8)
  /-- The function has returned an address at some moment. -/
  | adding (nodeName : List UInt8) (address : UInt32) (moment : ℕ)
  /-- `FlushAddrCache` has cleared the cache at some moment. -/
  | flushing (moment : ℕ)

/-- The cache and its callers; and, for the record, when the resolver calls were over that the entries
are from, and when the cache was cleared. -/
structure ResolverWorld where
  resolver : IpcResolver
  pc : ℕ → ResolverPc
  now : ℕ
  /-- The end of the resolver call that an entry is from. -/
  moment : List UInt8 → ℕ
  lastClear : ℕ
  /-- When the flushes that have returned cleared the cache. -/
  flushes : List ℕ

/-- A step of the thread `t`. -/
inductive ResolverOp
  /-- `NodeAddrLookup` is called, and looks into the cache. -/
  | nodeAddrLookup (t : ℕ) (nodeName : List UInt8)
  /-- The resolver function returns; it returns zero when there is none. -/
  | resolved (t : ℕ) (rv : UInt32)
  | addressAdd (t : ℕ)
  /-- `FlushAddrCache` is called, and clears the cache. -/
  | flushAddrCache (t : ℕ)
  /-- `FlushAddrCache` adds the resolver node. -/
  | resolverAdd (t : ℕ)

/-- What a step answers. -/
inductive ResolverAnswer
  /-- The call goes on. -/
  | pending
  /-- `NodeAddrLookup` returns. -/
  | found (nodeName : List UInt8) (rv : UInt32)
  /-- `FlushAddrCache` returns. -/
  | flushed
  deriving DecidableEq

namespace ResolverWorld

/-- The thread moves, and time goes on. -/
def goto (w : ResolverWorld) (t : ℕ) (pc : ResolverPc) : ResolverWorld :=
  { w with pc := Function.update w.pc t pc, now := w.now + 1 }

/-- Nobody has called. -/
def initial : ResolverWorld where
  resolver := ⟨∅⟩
  pc _ := .idle
  now := 0
  moment _ := 0
  lastClear := 0
  flushes := []

end ResolverWorld

open ResolverWorld

/-- One section, or the return of the resolver function. -/
def resolverStep (node : ResolverNode) (w : ResolverWorld) :
    ResolverOp → Option (ResolverAnswer × ResolverWorld)
  | .nodeAddrLookup t nodeName =>
      match w.pc t with
      | .idle =>
          let rv := w.resolver.find nodeName
          -- if not found in cache, request address from resolver
          if rv = 0 then some (.pending, w.goto t (.calling nodeName))
          else some (.found nodeName rv, w.goto t .idle)
      | _ => none
  | .resolved t rv =>
      match w.pc t with
      | .calling nodeName =>
          -- if resolved, add it to the cache
          if rv = 0 then some (.found nodeName 0, w.goto t .idle)
          else some (.pending, w.goto t (.adding nodeName rv w.now))
      | _ => none
  | .addressAdd t =>
      match w.pc t with
      | .adding nodeName address moment =>
          some (.found nodeName address,
            { w with
              resolver := w.resolver.addressAdd nodeName address
              moment := Function.update w.moment nodeName moment }.goto t .idle)
      | _ => none
  | .flushAddrCache t =>
      match w.pc t with
      | .idle =>
          some (.pending,
            { w with resolver := w.resolver.clear, lastClear := w.now }.goto t (.flushing w.now))
      | _ => none
  | .resolverAdd t =>
      match w.pc t with
      | .flushing moment =>
          some (.flushed,
            { w with
              resolver := w.resolver.addressAdd node.resolverNodeName node.resolverNodeAddr
              moment := Function.update w.moment node.resolverNodeName w.now
              flushes := moment :: w.flushes }.goto t .idle)
      | _ => none

namespace ResolverWorld

/-- **No entry is older than a flush that has returned**, apart from that of the resolver node: the
resolver call that it is from was not over when the flush cleared the cache. -/
def Flushed (node : ResolverNode) (w : ResolverWorld) : Prop :=
  ∀ nodeName a, nodeName ≠ node.resolverNodeName → w.resolver.addrMap.lookup nodeName = some a →
    ∀ c ∈ w.flushes, c ≤ w.moment nodeName

/-- The address that is being added is from a call that was over at a moment or later. -/
def After (k : ℕ) : ResolverPc → Prop
  | .adding _ _ moment => k ≤ moment
  | _ => True

instance After.decidable (k : ℕ) : (pc : ResolverPc) → Decidable (After k pc)
  | .adding _ _ moment => inferInstanceAs (Decidable (k ≤ moment))
  | .idle => isTrue trivial
  | .calling _ => isTrue trivial
  | .flushing _ => isTrue trivial

/-- **The condition on a step**: the cache has not been cleared since the resolver call whose address
is added. -/
def Current (w : ResolverWorld) : ResolverOp → Prop
  | .addressAdd t => After w.lastClear (w.pc t)
  | _ => True

instance Current.decidable (w : ResolverWorld) : (op : ResolverOp) → Decidable (w.Current op)
  | .addressAdd t => inferInstanceAs (Decidable (After w.lastClear (w.pc t)))
  | .nodeAddrLookup _ _ => isTrue trivial
  | .resolved _ _ => isTrue trivial
  | .flushAddrCache _ => isTrue trivial
  | .resolverAdd _ => isTrue trivial

/-- **The invariant**: no entry is older than the last time that the cache was cleared, which is not
before any flush. -/
structure UpToDate (node : ResolverNode) (w : ResolverWorld) : Prop where
  entry : ∀ nodeName a, nodeName ≠ node.resolverNodeName →
    w.resolver.addrMap.lookup nodeName = some a → w.lastClear ≤ w.moment nodeName
  flushing : ∀ t c, w.pc t = .flushing c → c ≤ w.lastClear
  flushes : ∀ c ∈ w.flushes, c ≤ w.lastClear
  lastClear : w.lastClear ≤ w.now
  /-- The flush that has cleared the cache last is still in progress, or has returned. -/
  cleared : w.lastClear = 0 ∨ (∃ t, w.pc t = .flushing w.lastClear) ∨ w.lastClear ∈ w.flushes

variable {node : ResolverNode} {w w' : ResolverWorld} {t : ℕ} {x : ResolverAnswer}

/-- A thread that flushes nothing moves. -/
theorem UpToDate.goto (h : UpToDate node w) {pc pc' : ResolverPc} (hpc : w.pc t = pc)
    (hold : ∀ c, pc ≠ .flushing c) (hnew : ∀ c, pc' ≠ .flushing c) :
    UpToDate node (w.goto t pc') := by
  refine ⟨h.entry, ?_, h.flushes, Nat.le_succ_of_le h.lastClear, ?_⟩
  · intro t' c hc
    rcases moved_cases hc with ⟨-, hpc'⟩ | ⟨-, hc⟩
    · exact absurd hpc'.symm (hnew c)
    · exact h.flushing t' c hc
  · refine h.cleared.imp_right (Or.imp_left ?_)
    rintro ⟨t', hc⟩
    have ht : t' ≠ t := by
      rintro rfl
      exact hold _ (hpc.symm.trans hc)
    exact ⟨t', (Function.update_of_ne ht _ _).trans hc⟩

/-- An address is added by a lookup, and is not older than the last time that the cache was cleared. -/
theorem UpToDate.addressAdd (h : UpToDate node w) {nodeName : List UInt8} {address : UInt32}
    {moment : ℕ} (hmoment : w.lastClear ≤ moment) :
    UpToDate node { w with
      resolver := w.resolver.addressAdd nodeName address
      moment := Function.update w.moment nodeName moment } := by
  refine ⟨fun n a hn hlook => ?_, h.flushing, h.flushes, h.lastClear, h.cleared⟩
  dsimp only
  by_cases hnn : n = nodeName
  · rw [hnn, Function.update_self]
    exact hmoment
  · rw [Function.update_of_ne hnn]
    exact h.entry n a hn ((AList.lookup_insert_ne hnn).symm.trans hlook)

/-- **One step keeps the invariant**, if it meets the condition. -/
theorem UpToDate.step {op : ResolverOp} (h : UpToDate node w) (hcurrent : w.Current op)
    (hstep : resolverStep node w op = some (x, w')) : UpToDate node w' := by
  cases op with
  | nodeAddrLookup t nodeName =>
      rw [resolverStep] at hstep
      cases hpc : w.pc t with
      | idle =>
          simp only [hpc] at hstep
          split_ifs at hstep
          all_goals
            cases hstep
            exact h.goto hpc (fun c hc => by cases hc) fun c hc => by cases hc
      | _ => simp [hpc] at hstep
  | resolved t rv =>
      rw [resolverStep] at hstep
      cases hpc : w.pc t with
      | calling nodeName =>
          simp only [hpc] at hstep
          split_ifs at hstep
          all_goals
            cases hstep
            exact h.goto hpc (fun c hc => by cases hc) fun c hc => by cases hc
      | _ => simp [hpc] at hstep
  | addressAdd t =>
      rw [resolverStep] at hstep
      rw [Current] at hcurrent
      cases hpc : w.pc t with
      | adding nodeName address moment =>
          simp only [hpc] at hstep
          rw [hpc] at hcurrent
          cases hstep
          exact (h.addressAdd hcurrent).goto hpc (fun c hc => by cases hc) fun c hc => by cases hc
      | _ => simp [hpc] at hstep
  | flushAddrCache t =>
      rw [resolverStep] at hstep
      cases hpc : w.pc t with
      | idle =>
          simp only [hpc] at hstep
          cases hstep
          refine ⟨fun n a _ hlook => ?_, ?_, ?_, Nat.le_succ _, ?_⟩
          · exact absurd ((AList.lookup_empty n).symm.trans hlook) (Option.some_ne_none a).symm
          · intro t' c hc
            rcases moved_cases hc with ⟨-, hc⟩ | ⟨-, hc⟩
            · cases hc
              exact Nat.le_refl _
            · exact Nat.le_trans (h.flushing t' c hc) h.lastClear
          · exact fun c hc => Nat.le_trans (h.flushes c hc) h.lastClear
          · exact .inr (.inl ⟨t, Function.update_self _ _ _⟩)
      | _ => simp [hpc] at hstep
  | resolverAdd t =>
      rw [resolverStep] at hstep
      cases hpc : w.pc t with
      | flushing moment =>
          simp only [hpc] at hstep
          cases hstep
          refine ⟨fun n a hn hlook => ?_, ?_, ?_, Nat.le_succ_of_le h.lastClear, ?_⟩
          · refine Nat.le_trans (h.entry n a hn ?_) (Nat.le_of_eq ?_)
            · exact (AList.lookup_insert_ne hn).symm.trans hlook
            · exact (Function.update_of_ne hn _ _).symm
          · intro t' c hc
            rcases moved_cases hc with ⟨-, hc⟩ | ⟨-, hc⟩
            · cases hc
            · exact h.flushing t' c hc
          · exact List.forall_mem_cons.2 ⟨h.flushing t moment hpc, h.flushes⟩
          · rcases h.cleared with hzero | ⟨t', hc⟩ | hmem
            · exact .inl hzero
            · by_cases ht : t' = t
              · rw [ht, hpc] at hc
                cases hc
                exact .inr (.inr List.mem_cons_self)
              · exact .inr (.inl ⟨t', (Function.update_of_ne ht _ _).trans hc⟩)
            · exact .inr (.inr (List.mem_cons_of_mem _ hmem))
      | _ => simp [hpc] at hstep

theorem UpToDate.flushed (h : UpToDate node w) : Flushed node w := fun n a hn hlook c hc =>
  Nat.le_trans (h.flushes c hc) (h.entry n a hn hlook)

/-- Nothing has been looked up. -/
theorem upToDate_initial (node : ResolverNode) : UpToDate node initial := by
  refine ⟨fun n a _ hlook => ?_, ?_, ?_, Nat.le_refl _, .inl rfl⟩
  · exact absurd ((AList.lookup_empty n).symm.trans hlook) (Option.some_ne_none a).symm
  · intro t c hc
    cases hc
  · simp [initial]

/-- **An addition that comes too late** is seen in the cache as soon as no flush is in progress. -/
theorem UpToDate.not_flushed (h : UpToDate node w) {nodeName : List UInt8} {address : UInt32}
    {moment : ℕ} (hpc : w.pc t = .adding nodeName address moment)
    (hne : nodeName ≠ node.resolverNodeName) (hlate : moment < w.lastClear)
    (hidle : ∀ t' c, w.pc t' ≠ .flushing c) :
    ∃ w', resolverStep node w (.addressAdd t) = some (.found nodeName address, w') ∧
      ¬ Flushed node w' := by
  refine ⟨_, by rw [resolverStep, hpc], fun hflushed => ?_⟩
  have hmem : w.lastClear ∈ w.flushes := by
    rcases h.cleared with hzero | ⟨t', hc⟩ | hmem
    · exact absurd (hzero ▸ hlate) (Nat.not_lt_zero _)
    · exact absurd hc (hidle t' _)
    · exact hmem
  have hle := hflushed nodeName address hne (AList.lookup_insert _) w.lastClear hmem
  have hmoment : Function.update w.moment nodeName moment nodeName = moment :=
    Function.update_self _ _ _
  exact absurd (Nat.le_trans hle (Nat.le_of_eq hmoment)) (Nat.not_le.2 hlate)

end ResolverWorld

/-- **Flushing the cache removes all earlier addresses**, if no lookup adds one that it had before. -/
theorem flushAddrCache_flushed (node : ResolverNode) {ops : List ResolverOp}
    {answers : List ResolverAnswer} {w : ResolverWorld}
    (h : run (resolverStep node) ops ResolverWorld.initial = some (answers, w))
    (hcurrent : Meets (resolverStep node) ResolverWorld.Current ops ResolverWorld.initial) :
    ResolverWorld.Flushed node w := by
  have hup : ResolverWorld.UpToDate node w :=
    run_invariant_of_meets (fun hup hG hstep => hup.step hG hstep)
      (ResolverWorld.upToDate_initial node) h hcurrent
  exact hup.flushed

/-- A node whose resolver node is number 16. -/
def resolverNode : ResolverNode where
  resolverNodeName := [82]
  resolverNodeAddr := 16

/-- The resolver function returns after the cache has been cleared. -/
theorem flushAddrCache_flushed_around :
    ∃ answers w, run (resolverStep resolverNode) [.nodeAddrLookup 0 [65], .flushAddrCache 1,
        .resolved 0 20, .resolverAdd 1, .addressAdd 0] ResolverWorld.initial = some (answers, w) ∧
      w.resolver.addrMap.lookup [65] = some 20 ∧ ResolverWorld.Flushed resolverNode w :=
  ⟨_, _, rfl, rfl, @flushAddrCache_flushed resolverNode [.nodeAddrLookup 0 [65],
    .flushAddrCache 1, .resolved 0 20, .resolverAdd 1, .addressAdd 0] _ _ rfl (by decide)⟩

/-- **An earlier address survives a flush**: the flush comes and goes while a lookup that knows the
address has not added it yet. -/
theorem flushAddrCache_not_flushed :
    ∃ answers w, run (resolverStep resolverNode) [.nodeAddrLookup 0 [65], .resolved 0 20,
        .flushAddrCache 1, .resolverAdd 1, .addressAdd 0] ResolverWorld.initial = some (answers, w) ∧
      w.resolver.addrMap.lookup [65] = some 20 ∧ w.flushes = [2] ∧ w.moment [65] = 1 ∧
      ¬ ResolverWorld.Flushed resolverNode w := by
  refine ⟨_, _, rfl, rfl, rfl, rfl, fun hflushed => ?_⟩
  exact absurd (hflushed [65] 20 (by decide) rfl 2 (by decide)) (by decide)

end CodePort
