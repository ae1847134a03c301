/-
The counting semaphore, as it is made of a mutex and a condition variable.

Any number of threads call the member functions.  A thread checks the semaphore without the mutex, locks
the mutex, reads and writes the count with it, waits for the condition variable where it finds the count at
0, and unlocks the mutex.  Between any two of these steps the other threads may take theirs; a thread that
is blocked may be unblocked by a signal, by a broadcast or for no reason, its time may run out, and it may
be cancelled.

What the semaphore is for is said by another system, in which every call has its effect in one step: there
the semaphore is the `SemLite` that the other classes use.

Main definitions:

* `CodePort.SemCalls` — the semaphore with the threads that call it;
* `CodePort.semStep` — one step of any of them;
* `CodePort.AtomicSem`, `atomicStep` — the semaphore whose calls have their effect in one step;
* `CodePort.replay` — a history of the one, replayed by the other.

Main results:

* `CodePort.SemLite.nanos_takeDeadline` — a wait ends after the time-out;
* `CodePort.replay_permits` — what has been taken is what was there and what has been given.
-/

import CodePort.Monitor
import CodePort.Queue
import Mathlib.Data.List.ReduceOption

set_option relaxedAutoImplicit false
set_option autoImplicit false

namespace CodePort

open Monitor StepSystem

/-! ### The end of a wait -/

/-- What the clock shows, when it shows so many nanoseconds. -/
def Timespec.ofClock (n : ℕ) : Timespec := ⟨n / 1000000000, n % 1000000000⟩

theorem Timespec.nanos_ofClock (n : ℕ) : (ofClock n).nanos = n := by
  rw [nanos, ofClock]
  exact Int.ediv_mul_add_emod _ _

/-- **A wait ends after the time-out.** -/
theorem SemLite.nanos_takeDeadline (clock : ℕ) (timeout : UInt32) :
    (takeDeadline (.ofClock clock) timeout).nanos = (clock + timeout.toNat * 1000000 : ℕ) := by
  have hnow : 0 ≤ (Timespec.ofClock clock).tvNsec := by
    rw [Timespec.ofClock]
    dsimp only
    omega
  obtain ⟨-, hnanos, -⟩ := takeDeadline_exact hnow timeout
  rw [hnanos, Timespec.nanos_ofClock]
  push_cast
  rfl

/-! ### The semaphore and its calls -/

/-- The calls of the member functions. -/
inductive SemCall
  | take (timeout : UInt32)
  | tryTake
  | give
  | giveAll
  /-- The destructor, as far as it releases the threads that are blocked. -/
  | destroy
  deriving DecidableEq

/-- Where a thread stands without the mutex. -/
inductive SemPos
  | outside
  /-- It has made a call, and will check the semaphore. -/
  | called (call : SemCall)
  | returning (rv : Bool)
  /-- It has been cancelled. -/
  | cancelled
  deriving DecidableEq

/-- Where a thread stands with the mutex. -/
inductive SemInside
  /-- It is at the head of the loop of `Take`. -/
  | testing (timeout : UInt32)
  /-- It has left the loop, and will take one off the count. -/
  | taking
  /-- It has been cancelled, and is in the cleanup handler. -/
  | cleaning
  /-- It will compare the count with the maximum. -/
  | comparing
  /-- It will add one to the count. -/
  | counting
  /-- It will signal the condition variable. -/
  | signalling
  /-- It will set the count to the maximum. -/
  | filling
  | broadcasting
  /-- It will unlock the mutex and return. -/
  | unlocking (rv : Bool)
  deriving DecidableEq

/-- Where a thread stands; a wait is given the time at which it ends. -/
abbrev SemPlace := Place SemPos SemInside (Option Timespec)

/-- The semaphore, with any number of threads. -/
structure SemCalls (ι : Type*) where
  /-- The mutex and the condition variable could be created. -/
  valid : Bool
  /-- The take operation is enabled. -/
  enabled : Bool
  count : UInt32
  /-- The maximum allowed semaphore count. -/
  maxCount : UInt32
  /-- The mutex and the condition variable, with the threads. -/
  monitor : Monitor ι SemPos SemInside (Option Timespec)
  /-- The clock, in nanoseconds. -/
  clock : ℕ

/-- The constructor; the flags say whether the mutex and the condition variable could be created. -/
def SemCalls.construct (ι : Type*) (initCount maxCount : UInt32) (lOk cOk : Bool) (clock : ℕ) :
    SemCalls ι :=
  ⟨lOk && cOk, lOk && cOk, if initCount > maxCount then maxCount else initCount, maxCount,
    ⟨none, fun _ => .free .outside⟩, clock⟩

/-- The steps. -/
inductive SemOp (ι : Type*)
  | call (i : ι) (call : SemCall)
  /-- A thread takes its next step. -/
  | run (i : ι)
  /-- A thread in `Give` signals the condition variable, which unblocks some threads. -/
  | signal (i : ι) (ws : Finset ι)
  /-- A thread is unblocked for no reason. -/
  | wake (i : ι)
  /-- The time of a thread that waits has run out. -/
  | expire (i : ι)
  /-- A thread is cancelled while it is blocked. -/
  | cancel (i : ι)
  /-- The clock advances. -/
  | tick (d : ℕ)

/-- What can be seen of a step. -/
inductive SemEvent (ι : Type*)
  | called (i : ι) (call : SemCall)
  /-- The semaphore is not valid, or `Take` not enabled. -/
  | refused (i : ι)
  /-- The destructor has disabled `Take`. -/
  | disabled (i : ι)
  /-- `Take` has found the count at 0. -/
  | found (i : ι)
  | took (i : ι)
  | gave (i : ι) (rv : Bool)
  | gaveAll (i : ι)
  | expired (i : ι)
  | aborted (i : ι)
  | returned (i : ι) (rv : Bool)
  | ticked (d : ℕ)
  deriving DecidableEq

variable {ι : Type*}

namespace SemCalls

variable [DecidableEq ι]

/-- A thread moves, and leaves the mutex as it is. -/
def moved (s : SemCalls ι) (i : ι) (p : SemPlace) : SemCalls ι :=
  { s with monitor := s.monitor.move i p }

/-- The time at which a wait ends that begins now. -/
def waitEnd (s : SemCalls ι) (timeout : UInt32) : Option Timespec :=
  if timeout = kInfiniteTimeout then none else some (SemLite.takeDeadline (.ofClock s.clock) timeout)

/-- What a call does before it locks the mutex. -/
def check (s : SemCalls ι) (i : ι) : SemCall → Option (SemEvent ι) × SemCalls ι
  | .take timeout =>
      if s.valid = true ∧ s.enabled = true then (none, s.moved i (.locking (.testing timeout)))
      else (some (.refused i), s.moved i (.free (.returning false)))
  | .tryTake =>
      if s.valid = true then (none, s.moved i (.free (.called (.take 0))))
      else (some (.refused i), s.moved i (.free (.returning false)))
  | .give =>
      if s.valid = true then (none, s.moved i (.locking .comparing))
      else (some (.refused i), s.moved i (.free (.returning false)))
  | .giveAll =>
      if s.valid = true then (none, s.moved i (.locking .filling))
      else (some (.refused i), s.moved i (.free (.returning false)))
  | .destroy => (some (.disabled i), { s.moved i (.free (.called .giveAll)) with enabled := false })

variable [Fintype ι]

/-- What a thread does that holds the mutex. -/
def inside (s : SemCalls ι) (i : ι) : SemInside → Option (Option (SemEvent ι) × SemCalls ι)
  | .testing timeout =>
      if s.count = 0 then
        some (some (.found i),
          { s with monitor := s.monitor.wait i (s.waitEnd timeout) (.testing timeout) })
      else some (none, s.moved i (.locked .taking))
  | .taking => some (some (.took i), { s.moved i (.locked (.unlocking true)) with count := s.count - 1 })
  | .cleaning => some (some (.aborted i), { s with monitor := s.monitor.unlock i .cancelled })
  | .comparing =>
      if s.count < s.maxCount then some (none, s.moved i (.locked .counting))
      else some (some (.gave i false), s.moved i (.locked (.unlocking false)))
  | .counting => some (some (.gave i true), { s.moved i (.locked .signalling) with count := s.count + 1 })
  -- it goes on with the operation that says whom the signal unblocks
  | .signalling => none
  | .filling => some (some (.gaveAll i), { s.moved i (.locked .broadcasting) with count := s.maxCount })
  | .broadcasting =>
      some (none, { s with monitor := s.monitor.broadcast.move i (.locked (.unlocking true)) })
  | .unlocking rv => some (none, { s with monitor := s.monitor.unlock i (.returning rv) })

/-- Lock the mutex. -/
def locks (s : SemCalls ι) (i : ι) (p : SemInside) : Option (Option (SemEvent ι) × SemCalls ι) :=
  (s.monitor.lock i p).map fun m => (none, { s with monitor := m })

/-- The next step of a thread. -/
def runThread (s : SemCalls ι) (i : ι) : Option (Option (SemEvent ι) × SemCalls ι) :=
  match s.monitor.place i with
  | .free (.called call) => some (s.check i call)
  | .free (.returning rv) => some (some (.returned i rv), s.moved i (.free .outside))
  | .free .outside => none
  | .free .cancelled => none
  | .locking p => s.locks i p
  | .locked p => s.inside i p
  | .waiting _ p true => s.locks i p
  | .waiting _ _ false => none

end SemCalls

/-- One step. -/
def semStep [DecidableEq ι] [Fintype ι] (s : SemCalls ι) :
    SemOp ι → Option (Option (SemEvent ι) × SemCalls ι)
  | .call i call =>
      if s.monitor.place i = .free .outside then
        some (some (.called i call), s.moved i (.free (.called call)))
      else none
  | .run i => s.runThread i
  | .signal i ws =>
      if s.monitor.place i = .locked .signalling ∧ s.monitor.IsSignal ws then
        some (none, { s with monitor := (s.monitor.wake ws).move i (.locked (.unlocking true)) })
      else none
  | .wake i =>
      if (s.monitor.place i).isBlocked = true then
        some (none, { s with monitor := s.monitor.wake {i} })
      else none
  | .expire i =>
      match s.monitor.place i with
      | .waiting (some t) _ _ =>
          if t.nanos ≤ s.clock then some (some (.expired i), s.moved i (.locking (.unlocking false)))
          else none
      | _ => none
  | .cancel i =>
      if (s.monitor.place i).isBlocked = true then some (none, s.moved i (.locking .cleaning)) else none
  | .tick d => some (some (.ticked d), { s with clock := s.clock + d })

/-! ### What the semaphore is for -/

/-- `TryTake` is `Take` without waiting. -/
def SemCall.plain : SemCall → SemCall
  | .tryTake => .take 0
  | call => call

/-- Where a thread stands with its call. -/
inductive AtomicPos
  | outside
  /-- The call has not had its effect; a `Take` that has found the count at 0 remembers when. -/
  | pending (call : SemCall) (seen : Option ℕ)
  /-- The call has had its effect. -/
  | done (rv : Bool)
  | cancelled
  deriving DecidableEq

/-- The semaphore whose calls have their effect in one step. -/
structure AtomicSem (ι : Type*) where
  sem : SemLite
  valid : Bool
  enabled : Bool
  pos : ι → AtomicPos
  clock : ℕ

/-- The semaphore before the first call. -/
def AtomicSem.construct (ι : Type*) (initCount maxCount : ℕ) (valid : Bool) (clock : ℕ) : AtomicSem ι :=
  ⟨SemLite.construct initCount maxCount, valid, valid, fun _ => .outside, clock⟩

/-- `GiveAll`. -/
def SemLite.giveAll (s : SemLite) : SemLite := ⟨s.maxCount, s.maxCount, le_rfl⟩

section Atomic

variable [DecidableEq ι]

/-- A thread goes on with its call. -/
def AtomicSem.moved (t : AtomicSem ι) (i : ι) (pos : AtomicPos) : AtomicSem ι :=
  { t with pos := Function.update t.pos i pos }

/-- A call is refused by a semaphore that is not valid, and `Take` by one that is disabled. -/
def AtomicSem.Refuses (t : AtomicSem ι) : SemCall → Prop
  | .take _ => t.valid = false ∨ t.enabled = false
  | .tryTake => t.valid = false
  | .give => t.valid = false
  | .giveAll => t.valid = false
  | .destroy => False

instance (t : AtomicSem ι) (call : SemCall) : Decidable (t.Refuses call) := by
  cases call <;> unfold AtomicSem.Refuses <;> infer_instance

/-- One event of the semaphore. -/
def atomicStep (t : AtomicSem ι) : SemEvent ι → Option (AtomicSem ι)
  | .called i call =>
      if t.pos i = .outside then some (t.moved i (.pending call.plain none)) else none
  | .refused i =>
      match t.pos i with
      | .pending call _ => if t.Refuses call then some (t.moved i (.done false)) else none
      | _ => none
  | .disabled i =>
      match t.pos i with
      | .pending .destroy _ => some { t.moved i (.pending .giveAll none) with enabled := false }
      | _ => none
  | .found i =>
      match t.pos i with
      | .pending (.take timeout) _ =>
          if t.sem.count = 0 then some (t.moved i (.pending (.take timeout) (some t.clock))) else none
      | _ => none
  | .took i =>
      match t.pos i with
      | .pending (.take _) _ => t.sem.take.map fun sem => { t.moved i (.done true) with sem := sem }
      | _ => none
  | .gave i rv =>
      match t.pos i with
      | .pending .give _ =>
          if t.sem.give.1 = rv then some { t.moved i (.done rv) with sem := t.sem.give.2 } else none
      | _ => none
  | .gaveAll i =>
      match t.pos i with
      | .pending .giveAll _ => some { t.moved i (.done true) with sem := t.sem.giveAll }
      | _ => none
  | .expired i =>
      match t.pos i with
      | .pending (.take timeout) (some seen) =>
          if timeout ≠ kInfiniteTimeout ∧ seen + timeout.toNat * 1000000 ≤ t.clock then
            some (t.moved i (.done false))
          else none
      | _ => none
  | .aborted i =>
      match t.pos i with
      | .pending (.take _) (some _) => some (t.moved i .cancelled)
      | _ => none
  | .returned i rv => if t.pos i = .done rv then some (t.moved i .outside) else none
  | .ticked d => some { t with clock := t.clock + d }

/-- Replay a history. -/
def replay (t : AtomicSem ι) : List (SemEvent ι) → Option (AtomicSem ι) :=
  List.foldlM atomicStep t

theorem replay_concat {t t' : AtomicSem ι} {es : List (SemEvent ι)} (h : replay t es = some t')
    (e : SemEvent ι) : replay t (es ++ [e]) = atomicStep t' e := by
  rw [replay, List.foldlM_append]
  change (replay t es).bind (fun t => (atomicStep t e).bind some) = _
  rw [h, Option.bind_some, Option.bind_fun_some]

/-! ### The permits -/

/-- One permit has been taken. -/
def SemEvent.isTook : SemEvent ι → Bool
  | .took _ => true
  | _ => false

/-- One permit has been given. -/
def SemEvent.isGave : SemEvent ι → Bool
  | .gave _ rv => rv
  | _ => false

/-- All permits have been given. -/
def SemEvent.isGaveAll : SemEvent ι → Bool
  | .gaveAll _ => true
  | _ => false

variable {t t' : AtomicSem ι} {e : SemEvent ι}

theorem SemLite.count_give {s : SemLite} : s.give.2.count = s.count + s.give.1.toNat := by
  rw [SemLite.give]
  split_ifs <;> rfl

@[simp] theorem AtomicSem.sem_moved (t : AtomicSem ι) (i : ι) (pos : AtomicPos) :
    (t.moved i pos).sem = t.sem := rfl

/-- The effect of one event on the permits. -/
theorem atomicStep_permits (h : atomicStep t e = some t') (he : e.isGaveAll = false) :
    t'.sem.count + e.isTook.toNat = t.sem.count + e.isGave.toNat := by
  cases e with
  | took i =>
      simp only [atomicStep] at h
      split at h
      · obtain ⟨sem, hsem, rfl⟩ := Option.map_eq_some_iff.1 h
        exact (SemLite.take_eq_some.1 hsem).1.symm
      · cases h
  | gave i rv =>
      simp only [atomicStep] at h
      split at h
      · split_ifs at h with hrv
        obtain rfl := Option.some.inj h
        exact hrv ▸ SemLite.count_give
      · cases h
  | gaveAll i => cases he
  | _ => grind [atomicStep, AtomicSem.sem_moved, SemEvent.isTook, SemEvent.isGave]

/-- **What has been taken is what was there and what has been given**, as long as `GiveAll` has not been
called. -/
theorem replay_permits {es : List (SemEvent ι)} (h : replay t es = some t')
    (hes : ∀ e ∈ es, e.isGaveAll = false) :
    t'.sem.count + es.countP SemEvent.isTook = t.sem.count + es.countP SemEvent.isGave := by
  induction es generalizing t with
  | nil =>
      obtain rfl := Option.some.inj h
      rfl
  | cons e es ih =>
      obtain ⟨t₁, he, hrest⟩ := Option.bind_eq_some_iff.1 (h : (atomicStep t e).bind _ = _)
      obtain ⟨hnot, hall⟩ := List.forall_mem_cons.1 hes
      have hstep := atomicStep_permits he hnot
      have hrun := ih hrest hall
      rw [List.countP_cons, List.countP_cons]
      cases htook : e.isTook <;> cases hgave : e.isGave <;>
        simp only [htook, hgave, Bool.toNat_true, Bool.toNat_false, if_true, if_false,
          Bool.false_eq_true] at hstep ⊢ <;> omega

end Atomic

end CodePort
