/-
The queue between threads.

Two counting semaphores guard a deque: one counts the free places, the other the elements.  `Put`
and `Get` first take their semaphore and then run a section that a mutex protects, so any number of
calls may be between the two; a call that does not get its semaphore in time returns without a
section.

Main definitions:

* `CodePort.ItcQueue` — the class, and what the sections of `Put` and `Get` do;
* `CodePort.itcStep` — one step of any of the calls in progress;
* `CodePort.Balanced` — the counts of the semaphores against the deque and the calls in progress.

Main results:

* `CodePort.Balanced.step` — every step keeps the balance;
* `CodePort.itcQueue_fifo` — **a bounded queue, first in, first out**;
* `CodePort.ItcQueue.Rests.putNow_eq_none_iff`, `getNow_eq_none_iff` — a call waits only when the queue is
  full, or empty.
-/

import CodePort.SemLite
import CodePort.StepSystem
import Mathlib.Tactic.Ring

set_option relaxedAutoImplicit false
set_option autoImplicit false

namespace CodePort

open StepSystem

variable {α : Type*}

/-- The inter-thread queue class. -/
structure ItcQueue (α : Type*) where
  /-- Semaphore to control put operations. -/
  semPut : SemLite
  /-- Semaphore to control get operations. -/
  semGet : SemLite
  queue : List α

namespace ItcQueue

/-- The constructor.  The semaphores take the depth of the queue as a number of 32 bits. -/
def construct (maxEntries : ℕ) : ItcQueue α :=
  ⟨SemLite.construct (maxEntries % 2 ^ 32) (maxEntries % 2 ^ 32),
    SemLite.construct 0 (maxEntries % 2 ^ 32), []⟩

/-- The section of `Put`: what its `Give` returns, and the queue. -/
def put (q : ItcQueue α) (element : α) : Bool × ItcQueue α :=
  (q.semGet.give.1, { q with queue := q.queue ++ [element], semGet := q.semGet.give.2 })

/-- The section of `Get`: the element, what its `Give` returns, and the queue.  An empty deque has
no front. -/
def get (q : ItcQueue α) : Option (α × Bool × ItcQueue α) :=
  match q.queue with
  | [] => none
  | element :: rest =>
      some (element, q.semPut.give.1, { q with queue := rest, semPut := q.semPut.give.2 })

end ItcQueue

/-! ### Calls in progress -/

/-- The queue, and the calls that have taken their semaphore and not entered the section yet. -/
structure ItcState (α : Type*) where
  queue : ItcQueue α
  /-- The elements of the calls of `Put`. -/
  putting : List α
  /-- The calls of `Get`. -/
  getting : ℕ

/-- A queue that nobody has used. -/
def ItcState.construct (maxEntries : ℕ) : ItcState α := ⟨ItcQueue.construct maxEntries, [], 0⟩

/-- The steps of the calls. -/
inductive ItcOp (α : Type*)
  /-- `Put` takes its semaphore. -/
  | putTake (element : α)
  /-- `Put` gives up waiting for its semaphore. -/
  | putTimeout (element : α)
  /-- One of the calls of `Put` runs its section. -/
  | put (call : ℕ)
  /-- `Get` takes its semaphore. -/
  | getTake
  /-- `Get` gives up waiting for its semaphore. -/
  | getTimeout
  /-- `Get` runs its section. -/
  | get

/-- What a step answers. -/
inductive ItcAnswer (α : Type*)
  /-- The call goes on to its section. -/
  | taken
  /-- The call returns `false`. -/
  | timedOut
  /-- The element is in the queue; what `Give` returned. -/
  | put (element : α) (given : Bool)
  /-- The element that is out of the queue; what `Give` returned. -/
  | got (element : α) (given : Bool)
  /-- `front` of an empty deque. -/
  | noFront

/-- One step of a call. -/
def itcStep (s : ItcState α) : ItcOp α → Option (ItcAnswer α × ItcState α)
  | .putTake element =>
      s.queue.semPut.take.map fun sem =>
        (.taken, { s with queue := { s.queue with semPut := sem }, putting := element :: s.putting })
  | .putTimeout _ => some (.timedOut, s)
  | .put call =>
      s.putting[call]?.map fun element =>
        (.put element (s.queue.put element).1,
          { s with queue := (s.queue.put element).2, putting := s.putting.eraseIdx call })
  | .getTake =>
      s.queue.semGet.take.map fun sem =>
        (.taken, { s with queue := { s.queue with semGet := sem }, getting := s.getting + 1 })
  | .getTimeout => some (.timedOut, s)
  | .get =>
      if 0 < s.getting then
        match s.queue.get with
        | none => some (.noFront, { s with getting := s.getting - 1 })
        | some (element, given, queue) =>
            some (.got element given, { s with queue := queue, getting := s.getting - 1 })
      else none

/-- The step gives up waiting. -/
def ItcOp.TimesOut : ItcOp α → Prop
  | .putTimeout _ => True
  | .getTimeout => True
  | _ => False

/-! ### What the queue is for -/

namespace ItcAnswer

/-- The step ran into no empty deque and into no semaphore at its maximum. -/
def Sound : ItcAnswer α → Prop
  | .put _ given => given = true
  | .got _ given => given = true
  | .noFront => False
  | _ => True

/-- What the step put into the queue. -/
def inserted : ItcAnswer α → List α
  | .put element _ => [element]
  | _ => []

/-- What the step took out of the queue. -/
def removed : ItcAnswer α → List α
  | .got element _ => [element]
  | _ => []

end ItcAnswer

/-- Everything that was put into the queue, in order. -/
def inserted (as : List (ItcAnswer α)) : List α := as.flatMap ItcAnswer.inserted

/-- Everything that was taken out of the queue, in order. -/
def removed (as : List (ItcAnswer α)) : List α := as.flatMap ItcAnswer.removed

/-! ### The balance of the semaphores -/

/-- **The balance**: a place is free, or a call of `Put` has taken it, or it holds an element; and
an element is announced, or a call of `Get` has taken it. -/
structure Balanced (depth : ℕ) (s : ItcState α) : Prop where
  maxPut : s.queue.semPut.maxCount = depth
  maxGet : s.queue.semGet.maxCount = depth
  places : s.queue.semPut.count + s.putting.length + s.queue.queue.length = depth
  elements : s.queue.semGet.count + s.getting = s.queue.queue.length

theorem balanced_construct (maxEntries : ℕ) :
    Balanced (maxEntries % 2 ^ 32) (ItcState.construct (α := α) maxEntries) where
  maxPut := rfl
  maxGet := rfl
  places := by simp [ItcState.construct, ItcQueue.construct, SemLite.construct]
  elements := by simp [ItcState.construct, ItcQueue.construct, SemLite.construct]

/-- **Every step keeps the balance**, and with it every step is sound. -/
theorem Balanced.step {depth : ℕ} {s s' : ItcState α} {o : ItcOp α} {a : ItcAnswer α}
    (h : Balanced depth s) (hstep : itcStep s o = some (a, s')) : a.Sound ∧ Balanced depth s' := by
  obtain ⟨hmaxPut, hmaxGet, hplaces, helements⟩ := h
  cases o with
  | putTake element =>
      obtain ⟨sem, hsem, heq⟩ := Option.map_eq_some_iff.1 hstep
      obtain ⟨rfl, rfl⟩ := Prod.mk.inj heq
      obtain ⟨hcount, hmax⟩ := SemLite.take_eq_some.1 hsem
      refine ⟨trivial, hmax ▸ hmaxPut, hmaxGet, ?_, helements⟩
      simp only [List.length_cons]
      omega
  | putTimeout element =>
      obtain ⟨rfl, rfl⟩ := Prod.mk.inj (Option.some.inj hstep)
      exact ⟨trivial, hmaxPut, hmaxGet, hplaces, helements⟩
  | put call =>
      obtain ⟨element, hcall, heq⟩ := Option.map_eq_some_iff.1 hstep
      obtain ⟨rfl, rfl⟩ := Prod.mk.inj heq
      obtain ⟨hlt, -⟩ := List.getElem?_eq_some_iff.1 hcall
      -- the place that the call has taken is a place the other semaphore has not counted yet
      have hroom : s.queue.semGet.count < s.queue.semGet.maxCount := by omega
      obtain ⟨hgive, hcount⟩ := SemLite.give_of_lt hroom
      have herase := List.length_eraseIdx_of_lt hlt
      refine ⟨hgive, hmaxPut, (SemLite.maxCount_give _).trans hmaxGet, ?_, ?_⟩
      · simp only [ItcQueue.put, List.length_append, List.length_singleton, herase]
        omega
      · simp only [ItcQueue.put, List.length_append, List.length_singleton, hcount]
        omega
  | getTake =>
      obtain ⟨sem, hsem, heq⟩ := Option.map_eq_some_iff.1 hstep
      obtain ⟨rfl, rfl⟩ := Prod.mk.inj heq
      obtain ⟨hcount, hmax⟩ := SemLite.take_eq_some.1 hsem
      refine ⟨trivial, hmaxPut, hmax ▸ hmaxGet, hplaces, ?_⟩
      simp only
      omega
  | getTimeout =>
      obtain ⟨rfl, rfl⟩ := Prod.mk.inj (Option.some.inj hstep)
      exact ⟨trivial, hmaxPut, hmaxGet, hplaces, helements⟩
  | get =>
      rw [itcStep] at hstep
      split_ifs at hstep with hpos
      -- the call has taken an element, so the deque is not empty
      obtain ⟨element, rest, hqueue⟩ : ∃ element rest, s.queue.queue = element :: rest :=
        List.exists_cons_of_length_pos (by omega)
      have hlength := congrArg List.length hqueue
      rw [List.length_cons] at hlength
      have hroom : s.queue.semPut.count < s.queue.semPut.maxCount := by omega
      obtain ⟨hgive, hcount⟩ := SemLite.give_of_lt hroom
      simp only [ItcQueue.get, hqueue] at hstep
      obtain ⟨rfl, rfl⟩ := Prod.mk.inj (Option.some.inj hstep)
      refine ⟨hgive, (SemLite.maxCount_give _).trans hmaxPut, hmaxGet, ?_, ?_⟩
      · simp only [hcount]
        omega
      · simp only
        omega

/-! ### Calls that do not wait -/

namespace ItcQueue

/-- `Put` that does not have to wait. -/
def putNow (q : ItcQueue α) (element : α) : Option (ItcQueue α) :=
  q.semPut.take.map fun sem => ({ q with semPut := sem }.put element).2

/-- `Get` that does not have to wait. -/
def getNow (q : ItcQueue α) : Option (α × ItcQueue α) :=
  q.semGet.take.bind fun sem =>
    (ItcQueue.get { q with semGet := sem }).map fun r => (r.1, r.2.2)

variable {depth : ℕ} {q q' : ItcQueue α} {element : α}

theorem queue_putNow (h : q.putNow element = some q') : q'.queue = q.queue ++ [element] := by
  obtain ⟨sem, -, rfl⟩ := Option.map_eq_some_iff.1 h
  rfl

theorem queue_getNow (h : q.getNow = some (element, q')) : q.queue = element :: q'.queue := by
  obtain ⟨sem, -, hget⟩ := Option.bind_eq_some_iff.1 h
  obtain ⟨r, hr, heq⟩ := Option.map_eq_some_iff.1 hget
  rw [get] at hr
  cases hq : q.queue with
  | nil => simp [hq] at hr
  | cons e rest =>
      simp only [hq, Option.some.injEq] at hr
      obtain ⟨rfl, rfl⟩ := Prod.mk.inj heq
      rw [← hr]

/-- The queue is in balance, and no call is in progress. -/
def Rests (depth : ℕ) (q : ItcQueue α) : Prop := Balanced depth ⟨q, [], 0⟩

theorem rests_construct (maxEntries : ℕ) :
    (construct maxEntries : ItcQueue α).Rests (maxEntries % 2 ^ 32) := balanced_construct maxEntries

namespace Rests

/-- `Put` that does not have to wait is two steps of one call. -/
theorem putNow (h : q.Rests depth) (hput : q.putNow element = some q') : q'.Rests depth := by
  obtain ⟨sem, hsem, rfl⟩ := Option.map_eq_some_iff.1 hput
  have htake : itcStep ⟨q, [], 0⟩ (.putTake element) =
      some (.taken, ⟨{ q with semPut := sem }, [element], 0⟩) := by
    rw [itcStep, hsem]
    rfl
  have hsection : itcStep ⟨{ q with semPut := sem }, [element], 0⟩ (.put 0) =
      some (.put element (ItcQueue.put { q with semPut := sem } element).1,
        ⟨(ItcQueue.put { q with semPut := sem } element).2, [], 0⟩) := rfl
  exact ((Balanced.step h htake).2.step hsection).2

/-- `Get` that does not have to wait is two steps of one call. -/
theorem getNow (h : q.Rests depth) (hget : q.getNow = some (element, q')) : q'.Rests depth := by
  obtain ⟨sem, hsem, hsome⟩ := Option.bind_eq_some_iff.1 hget
  obtain ⟨⟨e, given, q₁⟩, hq₁, heq⟩ := Option.map_eq_some_iff.1 hsome
  obtain ⟨rfl, rfl⟩ := Prod.mk.inj heq
  have htake : itcStep ⟨q, [], 0⟩ .getTake = some (.taken, ⟨{ q with semGet := sem }, [], 1⟩) := by
    rw [itcStep, hsem]
    rfl
  have hsection : itcStep ⟨{ q with semGet := sem }, [], 1⟩ .get = some (.got e given, ⟨q₁, [], 0⟩) := by
    rw [itcStep, if_pos Nat.one_pos]
    simp only [hq₁]
  exact ((Balanced.step h htake).2.step hsection).2

/-- **`Put` waits only when the queue is full.** -/
theorem putNow_eq_none_iff (h : q.Rests depth) : q.putNow element = none ↔ q.queue.length = depth := by
  have hplaces : q.semPut.count + 0 + q.queue.length = depth := h.places
  rw [ItcQueue.putNow, Option.map_eq_none_iff]
  constructor
  · intro hnone
    have hzero : ¬ 0 < q.semPut.count := fun hpos => SemLite.take_ne_none hpos hnone
    omega
  · intro hfull
    rw [SemLite.take, if_neg (by omega)]

/-- **`Get` waits only when the queue is empty.** -/
theorem getNow_eq_none_iff (h : q.Rests depth) : q.getNow = none ↔ q.queue = [] := by
  have helements : q.semGet.count + 0 = q.queue.length := h.elements
  constructor
  · intro hnone
    by_contra hne
    have hpos : 0 < q.semGet.count := by
      have hlength := List.length_pos_of_ne_nil hne
      omega
    obtain ⟨sem, hsem⟩ := Option.ne_none_iff_exists'.1 (SemLite.take_ne_none hpos)
    obtain ⟨e, rest, hqueue⟩ := List.exists_cons_of_ne_nil hne
    rw [ItcQueue.getNow, hsem, Option.bind_some, get, hqueue] at hnone
    exact Option.some_ne_none _ hnone
  · intro hempty
    have hzero : ¬ 0 < q.semGet.count := by
      rw [hempty, List.length_nil] at helements
      omega
    rw [ItcQueue.getNow, SemLite.take, if_neg hzero, Option.bind_none]

end Rests

end ItcQueue

/-! ### The order of the elements -/

/-- A step puts elements behind the others and takes them from the front. -/
theorem removed_append_queue_step {s s' : ItcState α} {o : ItcOp α} {a : ItcAnswer α}
    (hstep : itcStep s o = some (a, s')) :
    a.removed ++ s'.queue.queue = s.queue.queue ++ a.inserted := by
  cases o with
  | putTake element =>
      obtain ⟨sem, -, heq⟩ := Option.map_eq_some_iff.1 hstep
      obtain ⟨rfl, rfl⟩ := Prod.mk.inj heq
      exact (List.append_nil _).symm
  | putTimeout element =>
      obtain ⟨rfl, rfl⟩ := Prod.mk.inj (Option.some.inj hstep)
      exact (List.append_nil _).symm
  | put call =>
      obtain ⟨element, -, heq⟩ := Option.map_eq_some_iff.1 hstep
      obtain ⟨rfl, rfl⟩ := Prod.mk.inj heq
      rfl
  | getTake =>
      obtain ⟨sem, -, heq⟩ := Option.map_eq_some_iff.1 hstep
      obtain ⟨rfl, rfl⟩ := Prod.mk.inj heq
      exact (List.append_nil _).symm
  | getTimeout =>
      obtain ⟨rfl, rfl⟩ := Prod.mk.inj (Option.some.inj hstep)
      exact (List.append_nil _).symm
  | get =>
      rw [itcStep] at hstep
      split_ifs at hstep
      cases hqueue : s.queue.queue with
      | nil =>
          simp only [ItcQueue.get, hqueue] at hstep
          obtain ⟨rfl, rfl⟩ := Prod.mk.inj (Option.some.inj hstep)
          exact hqueue
      | cons element rest =>
          simp only [ItcQueue.get, hqueue] at hstep
          obtain ⟨rfl, rfl⟩ := Prod.mk.inj (Option.some.inj hstep)
          exact (List.append_nil _).symm

/-- What has come out of the queue and what is left in it is what was put into it. -/
theorem removed_append_queue {ops : List (ItcOp α)} {as : List (ItcAnswer α)} {s s' : ItcState α}
    (hrun : run itcStep ops s = some (as, s')) :
    removed as ++ s'.queue.queue = s.queue.queue ++ inserted as := by
  induction ops generalizing s as with
  | nil =>
      obtain ⟨rfl, rfl⟩ := Prod.mk.inj (Option.some.inj hrun)
      exact (List.append_nil _).symm
  | cons o ops ih =>
      obtain ⟨a, t, bs, hstep, hrest, rfl⟩ := run_cons_eq_some.1 hrun
      calc removed (a :: bs) ++ s'.queue.queue
          = a.removed ++ (removed bs ++ s'.queue.queue) := by simp [removed]
        _ = a.removed ++ t.queue.queue ++ inserted bs := by rw [ih hrest, List.append_assoc]
        _ = s.queue.queue ++ inserted (a :: bs) := by
            rw [removed_append_queue_step hstep]
            simp [inserted]

/-- **A bounded queue, first in, first out.**  In every interleaving of the steps of any number of
calls of `Put` and `Get` the queue holds no more elements than its depth, no step runs into an empty
deque or into a semaphore at its maximum, what has been removed is the first part of what has been
inserted, and a call that gives up waiting changes nothing. -/
theorem itcQueue_fifo {maxEntries : ℕ} {ops : List (ItcOp α)} {as : List (ItcAnswer α)}
    {s : ItcState α} (hrun : run itcStep ops (ItcState.construct maxEntries) = some (as, s)) :
    s.queue.queue.length ≤ maxEntries ∧ (∀ a ∈ as, a.Sound) ∧ removed as <+: inserted as ∧
      ∀ o : ItcOp α, o.TimesOut → itcStep s o = some (.timedOut, s) := by
  obtain ⟨hsound, hbalanced⟩ :=
    run_answers (fun h hstep => h.step hstep) (balanced_construct maxEntries) hrun
  refine ⟨?_, hsound, ⟨s.queue.queue, removed_append_queue hrun⟩, ?_⟩
  · calc s.queue.queue.length
        ≤ maxEntries % 2 ^ 32 := hbalanced.places ▸ Nat.le_add_left _ _
      _ ≤ maxEntries := Nat.mod_le _ _
  · intro o ho
    cases o with
    | putTimeout element => rfl
    | getTimeout => rfl
    | putTake => exact ho.elim
    | put => exact ho.elim
    | getTake => exact ho.elim
    | get => exact ho.elim

/-- Two calls of `Put` are between their steps when a queue of two places is full; a third gives
up. -/
def samplePuts : List (ItcOp ℕ) :=
  [.putTake 7, .putTake 8, .putTimeout 9, .put 1, .getTake, .put 0, .get]

theorem itcQueue_fifo_two : ∃ as s,
    run itcStep samplePuts (ItcState.construct 2) = some (as, s) ∧
      s.queue.queue.length ≤ 2 ∧ removed as <+: inserted as := by
  have hsome : (run itcStep samplePuts (ItcState.construct 2)).isSome := by decide +kernel
  obtain ⟨⟨as, s⟩, hrun⟩ := Option.isSome_iff_exists.1 hsome
  obtain ⟨hlength, -, hprefix, -⟩ := itcQueue_fifo hrun
  exact ⟨as, s, hrun, hlength, hprefix⟩

end CodePort
