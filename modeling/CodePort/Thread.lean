/-
Suspending and resuming a thread.

`Suspend`, `Resume` and `ExitReq` set the run state under the state mutex, and give or take the suspend
semaphore before they leave it.  The thread itself polls: it reads the run state without the mutex, and
takes the semaphore if it has read that it is suspended.  Between any two of these steps the other
callers and the thread may take theirs.

Main definitions:

* `CodePort.Thread` — the members of the class;
* `CodePort.ThreadCalls`, `suspendStep` — the calls in progress, and one step of any of them;
* `CodePort.Poised` — the balance between run state and semaphore, for each place where the holder of
  the mutex may stand;
* `CodePort.Parked` — a thread that has been suspended for good.

Main results:

* `CodePort.Poised.step` — **every step keeps the balance**;
* `CodePort.Parked.step` — a parked thread stays parked until it is resumed or asked to exit;
* `CodePort.thread_suspend_resume` — **no thread is stranded, and none leaks out of a suspension**.
-/

import CodePort.SemLite
import CodePort.StepSystem
import Mathlib.Logic.Function.Basic

set_option relaxedAutoImplicit false
set_option autoImplicit false

namespace CodePort

open StepSystem

/-! ### The thread and its calls -/

/-- The run states. -/
inductive RunState
  | error | running | suspended
  deriving DecidableEq

/-- The members of a thread that the calls read or write. -/
structure Thread where
  valid : Bool
  /-- Thread run state. -/
  runState : RunState
  /-- Thread exit control flag. -/
  exitFlag : Bool
  /-- Execution suspend semaphore. -/
  semSuspend : SemLite

/-- The constructor, for a thread that has been started; the flag is the option to start it
suspended. -/
def Thread.construct (optSuspended : Bool) : Thread :=
  ⟨true, if optSuspended then .suspended else .running, false, SemLite.construct 0 1⟩

/-- The calls that set the run state. -/
inductive StateCall
  | resume | suspend | exitReq
  deriving DecidableEq

/-- Where a caller stands. -/
inductive CallerPos
  | outside
  /-- It has locked the state mutex. -/
  | locked (call : StateCall)
  /-- It has signalled thread exit, and will resume the thread if it is suspended. -/
  | flagged
  /-- It has set the run state to running, and will give the semaphore. -/
  | giving (call : StateCall)
  /-- It has set the run state to suspended, and will try to take the semaphore. -/
  | taking
  /-- It will unlock the mutex; the flag says whether it has set the run state. -/
  | leaving (call : StateCall) (changed : Bool)
  deriving DecidableEq

/-- Where the thread stands in `ThreadPoll`. -/
inductive PollPos
  | idle
  /-- It has read that it is suspended, and will take the semaphore or waits for it. -/
  | waiting
  /-- It will read the exit flag and return. -/
  | returning
  deriving DecidableEq

/-- A thread, with any number of callers. -/
structure ThreadCalls (ι : Type*) where
  thread : Thread
  /-- The caller that holds the state mutex. -/
  mtxState : Option ι
  callers : ι → CallerPos
  poll : PollPos

/-- A thread that has just been started. -/
def ThreadCalls.construct (ι : Type*) (optSuspended : Bool) : ThreadCalls ι :=
  ⟨Thread.construct optSuspended, none, fun _ => .outside, .idle⟩

/-- The steps. -/
inductive ThreadOp (ι : Type*)
  /-- A caller makes a call and locks the mutex. -/
  | call (c : ι) (call : StateCall)
  /-- A caller inside a call takes its next step. -/
  | advance (c : ι)
  /-- The thread calls `ThreadPoll` and reads the run state. -/
  | pollStart
  /-- The thread takes the suspend semaphore. -/
  | pollTake
  /-- `ThreadPoll` returns. -/
  | pollReturn

/-- What can be seen of a step. -/
inductive ThreadEvent
  | called (call : StateCall)
  | returned (call : StateCall) (changed : Bool)
  | pollStarted
  | pollReturned (rv : Bool)
  | inside

variable {ι : Type*}

section Steps

variable [DecidableEq ι]

namespace ThreadCalls

/-- A caller moves. -/
def moved (s : ThreadCalls ι) (c : ι) (pos : CallerPos) : ThreadCalls ι :=
  { s with callers := Function.update s.callers c pos }

/-- Set the run state to running if it is suspended. -/
def testResume (s : ThreadCalls ι) (c : ι) (call : StateCall) : ThreadCalls ι :=
  if s.thread.runState = .suspended then
    { s.moved c (.giving call) with thread := { s.thread with runState := .running } }
  else s.moved c (.leaving call false)

/-- Set the run state to suspended if it is running. -/
def testSuspend (s : ThreadCalls ι) (c : ι) : ThreadCalls ι :=
  if s.thread.runState = .running then
    { s.moved c .taking with thread := { s.thread with runState := .suspended } }
  else s.moved c (.leaving .suspend false)

/-- The next step of a caller; the steps are those of `Resume`, `Suspend` and `ExitReq`. -/
def advance (s : ThreadCalls ι) (c : ι) : Option (ThreadEvent × ThreadCalls ι) :=
  match s.callers c with
  | .outside => none
  | .locked .resume => some (.inside, s.testResume c .resume)
  | .locked .suspend => some (.inside, s.testSuspend c)
  | .locked .exitReq =>
      some (.inside, { s.moved c .flagged with thread := { s.thread with exitFlag := true } })
  | .flagged => some (.inside, s.testResume c .exitReq)
  | .giving call =>
      some (.inside, { s.moved c (.leaving call true) with
        thread := { s.thread with semSuspend := s.thread.semSuspend.give.2 } })
  | .taking =>
      some (.inside, { s.moved c (.leaving .suspend true) with
        thread := { s.thread with semSuspend := s.thread.semSuspend.take.getD s.thread.semSuspend } })
  | .leaving call changed =>
      some (.returned call changed, { s.moved c .outside with mtxState := none })

end ThreadCalls

/-- One step of a caller or of the thread.  There is none for a caller that waits for the mutex, and
none for a thread that waits for the semaphore. -/
def suspendStep (s : ThreadCalls ι) : ThreadOp ι → Option (ThreadEvent × ThreadCalls ι)
  | .call c call =>
      if s.thread.valid then
        if s.mtxState = none ∧ s.callers c = .outside then
          some (.called call, { s.moved c (.locked call) with mtxState := some c })
        else none
      else some (.returned call false, s)
  | .advance c => s.advance c
  | .pollStart =>
      if s.poll = .idle then
        some (.pollStarted,
          { s with poll := if s.thread.runState = .suspended then .waiting else .returning })
      else none
  | .pollTake =>
      if s.poll = .waiting then
        s.thread.semSuspend.take.map fun sem =>
          (.inside, { s with thread := { s.thread with semSuspend := sem }, poll := .returning })
      else none
  | .pollReturn =>
      if s.poll = .returning then some (.pollReturned !s.thread.exitFlag, { s with poll := .idle })
      else none

end Steps

/-! ### The balance -/

/-- Run state and semaphore when nobody is between setting the one and the other: there is no unit for
a suspended thread, and one for a running thread that waits. -/
def SemMatches (s : ThreadCalls ι) : Prop :=
  (s.thread.runState = .suspended → s.thread.semSuspend.count = 0) ∧
    (s.thread.runState = .running → s.poll = .waiting → 0 < s.thread.semSuspend.count)

/-- Run state and semaphore while the holder of the mutex stands somewhere. -/
def PoisedAt (s : ThreadCalls ι) : CallerPos → Prop
  | .giving call =>
      call ≠ .suspend ∧ s.thread.runState = .running ∧ s.thread.semSuspend.count = 0
  | .taking => s.thread.runState = .suspended
  | .leaving .suspend true => s.thread.runState = .suspended ∧ SemMatches s
  | _ => SemMatches s

/-- **The balance between run state and semaphore.** -/
structure Poised (s : ThreadCalls ι) : Prop where
  maxCount : s.thread.semSuspend.maxCount = 1
  /-- Only the holder of the mutex is inside a call. -/
  inside : ∀ c, s.callers c ≠ .outside → s.mtxState = some c
  holder : ∀ c, s.mtxState = some c → PoisedAt s (s.callers c)
  free : s.mtxState = none → SemMatches s

theorem PoisedAt.leaving_false {s : ThreadCalls ι} {call : StateCall} (h : SemMatches s) :
    PoisedAt s (.leaving call false) := by
  cases call <;> exact h

theorem PoisedAt.semMatches {s : ThreadCalls ι} {call : StateCall} {changed : Bool}
    (h : PoisedAt s (.leaving call changed)) : SemMatches s := by
  cases call with
  | resume => exact h
  | exitReq => exact h
  | suspend =>
      cases changed with
      | true => exact h.2
      | false => exact h

/-- What the thread itself does takes no balance away: it gives nothing, and it begins to wait only
when it is suspended. -/
theorem PoisedAt.poll {s s' : ThreadCalls ι} {pos : CallerPos} (h : PoisedAt s pos)
    (hstate : s'.thread.runState = s.thread.runState)
    (hcount : s'.thread.semSuspend.count ≤ s.thread.semSuspend.count)
    (hpoll : s'.poll = .waiting → s'.thread.runState = .suspended) : PoisedAt s' pos := by
  have hmatches (hs : SemMatches s) : SemMatches s' := by
    refine ⟨fun hsusp => ?_, fun hrunning hwaiting => ?_⟩
    · exact Nat.le_zero.1 (hs.1 (hstate ▸ hsusp) ▸ hcount)
    · exact absurd ((hpoll hwaiting).symm.trans hrunning) (by decide)
  cases pos with
  | outside | locked | flagged => exact hmatches h
  | giving => exact ⟨h.1, hstate.trans h.2.1, Nat.le_zero.1 (h.2.2 ▸ hcount)⟩
  | taking => exact hstate.trans h
  | leaving call changed =>
      cases call with
      | resume => exact hmatches h
      | exitReq => exact hmatches h
      | suspend =>
          cases changed with
          | true => exact ⟨hstate.trans h.1, hmatches h.2⟩
          | false => exact hmatches h

/-- The thread itself keeps the balance. -/
theorem Poised.poll {s s' : ThreadCalls ι} (h : Poised s) (hmtx : s'.mtxState = s.mtxState)
    (hcallers : s'.callers = s.callers)
    (hstate : s'.thread.runState = s.thread.runState)
    (hmax : s'.thread.semSuspend.maxCount = s.thread.semSuspend.maxCount)
    (hcount : s'.thread.semSuspend.count ≤ s.thread.semSuspend.count)
    (hpoll : s'.poll = .waiting → s'.thread.runState = .suspended) : Poised s' where
  maxCount := hmax.trans h.maxCount
  inside c hc := hmtx.trans (h.inside c (hcallers ▸ hc))
  holder c hc := by
    rw [hcallers]
    exact (h.holder c (hmtx ▸ hc)).poll hstate hcount hpoll
  free hnone :=
    have hs : PoisedAt s .outside := h.free (hmtx ▸ hnone)
    hs.poll hstate hcount hpoll

variable [DecidableEq ι]

/-- Where the other callers stand does not change when one moves. -/
theorem moved_of_ne {s : ThreadCalls ι} {c c' : ι} (h : c' ≠ c) (pos : CallerPos) :
    (s.moved c pos).callers c' = s.callers c' :=
  Function.update_of_ne h ..

/-- The holder of the mutex moves to a place where the balance holds. -/
theorem Poised.moved {s : ThreadCalls ι} (h : Poised s) {c : ι} (hc : s.mtxState = some c)
    {pos : CallerPos} {thread : Thread} (hmax : thread.semSuspend.maxCount = 1)
    (hpos : PoisedAt { s with thread := thread } pos) :
    Poised { s.moved c pos with thread := thread } where
  maxCount := hmax
  inside c' hc' := by
    rcases Decidable.eq_or_ne c' c with rfl | hne
    · exact hc
    · exact h.inside c' (moved_of_ne hne pos ▸ hc')
  holder c' hc' := by
    obtain rfl : c = c' := Option.some.inj (hc.symm.trans hc')
    rw [show (s.moved c pos).callers c = pos from Function.update_self ..]
    exact hpos
  free hnone := absurd (hc.symm.trans hnone) (Option.some_ne_none c)

/-- Setting the run state to running. -/
theorem Poised.testResume {s : ThreadCalls ι} (h : Poised s) {c : ι} (hc : s.mtxState = some c)
    (hmatches : SemMatches s) {call : StateCall} (hcall : call ≠ .suspend) :
    Poised (s.testResume c call) := by
  rw [ThreadCalls.testResume]
  split_ifs with hsusp
  · exact h.moved hc h.maxCount ⟨hcall, rfl, hmatches.1 hsusp⟩
  · exact h.moved hc h.maxCount (.leaving_false hmatches)

/-- Setting the run state to suspended. -/
theorem Poised.testSuspend {s : ThreadCalls ι} (h : Poised s) {c : ι} (hc : s.mtxState = some c)
    (hmatches : SemMatches s) : Poised (s.testSuspend c) := by
  rw [ThreadCalls.testSuspend]
  split_ifs with hrunning
  · exact h.moved hc h.maxCount rfl
  · exact h.moved hc h.maxCount (.leaving_false hmatches)

/-- After an attempt to take the only unit there is none. -/
theorem count_getD_take {sem : SemLite} (h : sem.maxCount = 1) :
    (sem.take.getD sem).count = 0 ∧ (sem.take.getD sem).maxCount = 1 := by
  have hle := sem.count_le
  cases htake : sem.take with
  | none =>
      rw [Option.getD_none]
      exact ⟨Nat.eq_zero_of_not_pos fun hpos => SemLite.take_ne_none hpos htake, h⟩
  | some t =>
      obtain ⟨hcount, hmax⟩ := SemLite.take_eq_some.1 htake
      rw [Option.getD_some]
      omega

/-- Giving the unit for a thread that has been set running. -/
theorem Poised.give {s : ThreadCalls ι} (h : Poised s) {c : ι} {call : StateCall}
    (hc : s.mtxState = some c) (hat : PoisedAt s (.giving call)) :
    Poised { s.moved c (.leaving call true) with
      thread := { s.thread with semSuspend := s.thread.semSuspend.give.2 } } := by
  obtain ⟨hcall, hrunning, -⟩ := hat
  refine h.moved hc ((SemLite.maxCount_give _).trans h.maxCount) ?_
  have hmatches : SemMatches
      { s with thread := { s.thread with semSuspend := s.thread.semSuspend.give.2 } } := by
    refine ⟨fun hsusp => absurd (hrunning.symm.trans hsusp) (by decide), fun _ _ => ?_⟩
    exact SemLite.count_give_pos (h.maxCount ▸ Nat.one_pos)
  cases call with
  | resume => exact hmatches
  | exitReq => exact hmatches
  | suspend => exact absurd rfl hcall

/-- Trying to take the unit of a thread that has been set suspended. -/
theorem Poised.tryTake {s : ThreadCalls ι} (h : Poised s) {c : ι} (hc : s.mtxState = some c)
    (hat : PoisedAt s .taking) :
    Poised { s.moved c (.leaving .suspend true) with
      thread :=
        { s.thread with semSuspend := s.thread.semSuspend.take.getD s.thread.semSuspend } } := by
  have hsusp : s.thread.runState = .suspended := hat
  obtain ⟨hcount, hmax⟩ := count_getD_take h.maxCount
  refine h.moved hc hmax ⟨hsusp, fun _ => hcount, fun hrunning => ?_⟩
  exact absurd (hsusp.symm.trans hrunning) (by decide)

/-- Unlocking the mutex. -/
theorem Poised.unlock {s : ThreadCalls ι} (h : Poised s) {c : ι} (hc : s.mtxState = some c)
    (hmatches : SemMatches s) : Poised { s.moved c .outside with mtxState := none } where
  maxCount := h.maxCount
  inside c' hc' := by
    rcases Decidable.eq_or_ne c' c with rfl | hne
    · exact absurd (Function.update_self c' _ s.callers) hc'
    · have heq := hc.symm.trans (h.inside c' (moved_of_ne hne .outside ▸ hc'))
      exact absurd (Option.some.inj heq).symm hne
  holder c' hc' := absurd hc' (Option.some_ne_none c').symm
  free _ := hmatches

/-- A step of a caller keeps the balance. -/
theorem Poised.advance {s s' : ThreadCalls ι} {c : ι} {a : ThreadEvent} (h : Poised s)
    (hstep : s.advance c = some (a, s')) : Poised s' := by
  have hc (hne : s.callers c ≠ .outside) : s.mtxState = some c := h.inside c hne
  have hat (hne : s.callers c ≠ .outside) : PoisedAt s (s.callers c) := h.holder c (hc hne)
  rw [ThreadCalls.advance] at hstep
  cases hpos : s.callers c with
  | outside => simp [hpos] at hstep
  | locked call =>
      simp only [hpos, ne_eq, reduceCtorEq, not_false_eq_true, true_imp_iff] at hc hat hstep
      cases call <;> obtain ⟨-, rfl⟩ := Prod.mk.inj (Option.some.inj hstep)
      · exact h.testResume hc hat (by decide)
      · exact h.testSuspend hc hat
      · exact h.moved hc h.maxCount hat
  | flagged =>
      simp only [hpos, ne_eq, reduceCtorEq, not_false_eq_true, true_imp_iff] at hc hat hstep
      obtain ⟨-, rfl⟩ := Prod.mk.inj (Option.some.inj hstep)
      exact h.testResume hc hat (by decide)
  | giving call =>
      simp only [hpos, ne_eq, reduceCtorEq, not_false_eq_true, true_imp_iff] at hc hat hstep
      obtain ⟨-, rfl⟩ := Prod.mk.inj (Option.some.inj hstep)
      exact h.give hc hat
  | taking =>
      simp only [hpos, ne_eq, reduceCtorEq, not_false_eq_true, true_imp_iff] at hc hat hstep
      obtain ⟨-, rfl⟩ := Prod.mk.inj (Option.some.inj hstep)
      exact h.tryTake hc hat
  | leaving call changed =>
      simp only [hpos, ne_eq, reduceCtorEq, not_false_eq_true, true_imp_iff] at hc hat hstep
      obtain ⟨-, rfl⟩ := Prod.mk.inj (Option.some.inj hstep)
      exact h.unlock hc hat.semMatches

/-- **Every step keeps the balance.** -/
theorem Poised.step {s s' : ThreadCalls ι} {o : ThreadOp ι} {a : ThreadEvent} (h : Poised s)
    (hstep : suspendStep s o = some (a, s')) : Poised s' := by
  cases o with
  | call c call =>
      simp only [suspendStep] at hstep
      split_ifs at hstep with hvalid hfree
      · obtain ⟨-, rfl⟩ := Prod.mk.inj (Option.some.inj hstep)
        refine ⟨h.maxCount, fun c' hc' => ?_, fun c' hc' => ?_, fun hnone => ?_⟩
        · rcases Decidable.eq_or_ne c' c with rfl | hne
          · rfl
          · exact absurd ((h.inside c' (moved_of_ne hne _ ▸ hc')).symm.trans hfree.1) (by simp)
        · obtain rfl : c = c' := Option.some.inj hc'
          rw [show (s.moved c (.locked call)).callers c = .locked call from Function.update_self ..]
          exact h.free hfree.1
        · exact absurd hnone (Option.some_ne_none c)
      · obtain ⟨-, rfl⟩ := Prod.mk.inj (Option.some.inj hstep)
        exact h
  | advance c => exact h.advance hstep
  | pollStart =>
      simp only [suspendStep] at hstep
      split_ifs at hstep with hidle hsusp
      · obtain ⟨-, rfl⟩ := Prod.mk.inj (Option.some.inj hstep)
        exact h.poll rfl rfl rfl rfl le_rfl fun _ => hsusp
      · obtain ⟨-, rfl⟩ := Prod.mk.inj (Option.some.inj hstep)
        exact h.poll rfl rfl rfl rfl le_rfl fun hwait => absurd hwait (by simp)
  | pollTake =>
      simp only [suspendStep] at hstep
      split_ifs at hstep with hwait
      obtain ⟨sem, htake, heq⟩ := Option.map_eq_some_iff.1 hstep
      obtain ⟨-, rfl⟩ := Prod.mk.inj heq
      obtain ⟨hcount, hmax⟩ := SemLite.take_eq_some.1 htake
      refine h.poll rfl rfl rfl hmax.symm ?_ fun hwait => absurd hwait (by simp)
      rw [hcount]
      exact Nat.le_succ _
  | pollReturn =>
      simp only [suspendStep] at hstep
      split_ifs at hstep with hreturning
      obtain ⟨-, rfl⟩ := Prod.mk.inj (Option.some.inj hstep)
      exact h.poll rfl rfl rfl rfl le_rfl fun hwait => absurd hwait (by simp)

omit [DecidableEq ι] in
theorem poised_construct (optSuspended : Bool) : Poised (ThreadCalls.construct ι optSuspended) where
  maxCount := rfl
  inside _ h := absurd rfl h
  holder _ h := absurd h.symm (Option.some_ne_none _)
  free _ := ⟨fun _ => rfl, fun _ h => absurd h (by simp [ThreadCalls.construct])⟩

/-! ### A thread that is suspended for good -/

/-- An event that may wake a suspended thread. -/
def ThreadEvent.Wakes : ThreadEvent → Prop
  | .called .resume | .called .exitReq => True
  | _ => False

/-- Where a caller of `Suspend` may stand that finds the thread suspended. -/
def CallerPos.Idles : CallerPos → Prop
  | .outside | .locked .suspend | .leaving .suspend _ => True
  | _ => False

/-- A thread that is suspended, without a unit, and that nobody is about to resume. -/
structure Parked (s : ThreadCalls ι) : Prop where
  suspended : s.thread.runState = .suspended
  count : s.thread.semSuspend.count = 0
  idles : ∀ c, (s.callers c).Idles

theorem Parked.moved {s : ThreadCalls ι} (h : Parked s) (c : ι) {pos : CallerPos} (hpos : pos.Idles)
    (mtxState : Option ι) : Parked { s.moved c pos with mtxState := mtxState } where
  suspended := h.suspended
  count := h.count
  idles c' := by
    rcases Decidable.eq_or_ne c' c with rfl | hne
    · rw [show (s.moved c' pos).callers c' = pos from Function.update_self ..]
      exact hpos
    · exact (congrArg CallerPos.Idles (moved_of_ne hne pos)).mpr (h.idles c')

/-- A step of a caller of `Suspend` leaves a parked thread parked, and does not touch the poll. -/
theorem Parked.advance {s s' : ThreadCalls ι} {c : ι} {a : ThreadEvent} (h : Parked s)
    (hstep : s.advance c = some (a, s')) :
    Parked s' ∧ s'.poll = s.poll ∧ a ≠ .pollStarted ∧ ∀ rv, a ≠ .pollReturned rv := by
  have hidles := h.idles c
  rw [ThreadCalls.advance] at hstep
  cases hpos : s.callers c with
  | outside => simp [hpos] at hstep
  | locked call =>
      rw [hpos] at hidles
      simp only [hpos] at hstep
      cases call with
      | resume => exact hidles.elim
      | exitReq => exact hidles.elim
      | suspend =>
          obtain ⟨rfl, rfl⟩ := Prod.mk.inj (Option.some.inj hstep)
          have hne : s.thread.runState ≠ .running := by simp [h.suspended]
          rw [ThreadCalls.testSuspend, if_neg hne]
          have hleaving : CallerPos.Idles (.leaving .suspend false) := trivial
          exact ⟨h.moved c hleaving s.mtxState, rfl, by simp, by simp⟩
  | flagged => exact (hpos ▸ hidles : CallerPos.Idles .flagged).elim
  | giving call => exact (hpos ▸ hidles : CallerPos.Idles (.giving call)).elim
  | taking => exact (hpos ▸ hidles : CallerPos.Idles .taking).elim
  | leaving call changed =>
      simp only [hpos] at hstep
      obtain ⟨rfl, rfl⟩ := Prod.mk.inj (Option.some.inj hstep)
      have houtside : CallerPos.Idles .outside := trivial
      exact ⟨h.moved c houtside none, rfl, by simp, by simp⟩

/-- **A parked thread stays parked** until it is resumed or asked to exit: a poll that starts waits,
and one that waits goes on waiting. -/
theorem Parked.step {s s' : ThreadCalls ι} {o : ThreadOp ι} {a : ThreadEvent} (h : Parked s)
    (hwakes : ¬ a.Wakes) (hstep : suspendStep s o = some (a, s')) :
    Parked s' ∧ (a = .pollStarted → s'.poll = .waiting) ∧
      (s.poll = .waiting → s'.poll = .waiting ∧ ∀ rv, a ≠ .pollReturned rv) := by
  cases o with
  | call c call =>
      simp only [suspendStep] at hstep
      split_ifs at hstep with hvalid hfree
      · obtain ⟨rfl, rfl⟩ := Prod.mk.inj (Option.some.inj hstep)
        cases call with
        | resume => exact absurd trivial hwakes
        | exitReq => exact absurd trivial hwakes
        | suspend =>
            have hlocked : CallerPos.Idles (.locked .suspend) := trivial
            exact ⟨h.moved c hlocked (some c), by simp, fun hw => ⟨hw, by simp⟩⟩
      · obtain ⟨rfl, rfl⟩ := Prod.mk.inj (Option.some.inj hstep)
        exact ⟨h, by simp, fun hw => ⟨hw, by simp⟩⟩
  | advance c =>
      obtain ⟨hs', hpoll, hstarted, hreturned⟩ := h.advance hstep
      exact ⟨hs', fun ha => absurd ha hstarted, fun hw => ⟨hpoll.trans hw, hreturned⟩⟩
  | pollStart =>
      simp only [suspendStep, h.suspended, if_true] at hstep
      split_ifs at hstep with hidle
      obtain ⟨rfl, rfl⟩ := Prod.mk.inj (Option.some.inj hstep)
      exact ⟨⟨h.suspended, h.count, h.idles⟩, fun _ => rfl, fun _ => ⟨rfl, by simp⟩⟩
  | pollTake =>
      have htake : s.thread.semSuspend.take = none := if_neg (by simp [h.count])
      simp [suspendStep, htake] at hstep
  | pollReturn =>
      simp only [suspendStep] at hstep
      split_ifs at hstep with hreturning
      obtain ⟨rfl, rfl⟩ := Prod.mk.inj (Option.some.inj hstep)
      exact ⟨⟨h.suspended, h.count, h.idles⟩, by simp,
        fun hw => absurd (hw.symm.trans hreturning) (by decide)⟩

theorem Parked.goes_on_waiting {s s' : ThreadCalls ι} {o : ThreadOp ι} {a : ThreadEvent}
    (hwakes : ¬ a.Wakes) (h : Parked s ∧ s.poll = .waiting)
    (hstep : suspendStep s o = some (a, s')) : Parked s' ∧ s'.poll = .waiting :=
  have hs := h.1.step hwakes hstep
  ⟨hs.1, (hs.2.2 h.2).1⟩

/-- **A thread is parked when `Suspend` returns that found it running.** -/
theorem Poised.parked {s s' : ThreadCalls ι} {o : ThreadOp ι} (h : Poised s)
    (hstep : suspendStep s o = some (.returned .suspend true, s')) : Parked s' := by
  cases o with
  | call c call =>
      simp only [suspendStep] at hstep
      split_ifs at hstep <;> simp at hstep
  | advance c =>
      simp only [suspendStep, ThreadCalls.advance] at hstep
      cases hpos : s.callers c with
      | outside | flagged | giving | taking => simp [hpos] at hstep
      | locked call => cases call <;> simp [hpos] at hstep
      | leaving call changed =>
          simp only [hpos, Option.some.injEq, Prod.mk.injEq, ThreadEvent.returned.injEq] at hstep
          obtain ⟨⟨rfl, rfl⟩, rfl⟩ := hstep
          have hc : s.mtxState = some c := h.inside c (by simp [hpos])
          obtain ⟨hsusp, hmatches⟩ : PoisedAt s (.leaving .suspend true) := hpos ▸ h.holder c hc
          refine ⟨hsusp, hmatches.1 hsusp, fun c' => ?_⟩
          -- the caller that unlocks the mutex was the only one inside a call
          have hout : (s.moved c .outside).callers c' = .outside := by
            rcases Decidable.eq_or_ne c' c with rfl | hne
            · exact Function.update_self ..
            · rw [moved_of_ne hne]
              by_contra hin
              exact hne (Option.some.inj (hc.symm.trans (h.inside c' hin))).symm
          exact (congrArg CallerPos.Idles hout).mpr trivial
  | pollStart => simp [suspendStep] at hstep
  | pollTake => simp [suspendStep] at hstep
  | pollReturn => simp [suspendStep] at hstep

/-! ### The result -/

/-- A thread that waits while it is running will not wait forever: there is a unit for it, unless
a caller inside the mutex is about to give one. -/
def NotStranded (s : ThreadCalls ι) : Prop :=
  s.mtxState = none → s.poll = .waiting → s.thread.runState = .running →
    0 < s.thread.semSuspend.count

/-- After a `Suspend` that found the thread running has returned, and until it is resumed or asked to
exit, no poll that starts returns. -/
def NeverLeaks (events : List ThreadEvent) : Prop :=
  ∀ pre mid post, events = pre ++ .returned .suspend true :: (mid ++ .pollStarted :: post) →
    (∀ a ∈ mid ++ .pollStarted :: post, ¬ a.Wakes) → ∀ rv, .pollReturned rv ∉ post

/-- **Suspend and resume never strand a thread and never leak one**, for any number of callers and any
order of the steps. -/
theorem thread_suspend_resume (optSuspended : Bool) (ops : List (ThreadOp ι))
    (events : List ThreadEvent) (s : ThreadCalls ι)
    (hrun : run suspendStep ops (ThreadCalls.construct ι optSuspended) = some (events, s)) :
    NotStranded s ∧ NeverLeaks events := by
  have hpoised : Poised s := run_invariant Poised.step (poised_construct optSuspended) hrun
  refine ⟨fun hfree hwait hrunning => (hpoised.free hfree).2 hrunning hwait, ?_⟩
  rintro pre mid post rfl hquiet rv hreturned
  obtain ⟨hmid, hrest⟩ := List.forall_mem_append.1 hquiet
  obtain ⟨hstarted, hpost⟩ := List.forall_mem_cons.1 hrest
  -- the step with which `Suspend` returns parks the thread
  obtain ⟨ops₁, ops₂, s₁, -, h₁, h₂⟩ := run_split hrun
  obtain ⟨o, ops₃, s₂, -, hsuspend, h₃⟩ := exists_step_of_run h₂
  have hparked : Parked s₂ :=
    (run_invariant Poised.step (poised_construct optSuspended) h₁).parked hsuspend
  -- it is still parked when the poll starts, which therefore waits
  obtain ⟨ops₄, ops₅, s₃, -, h₄, h₅⟩ := run_split h₃
  obtain ⟨o', ops₆, s₄, -, hstart, h₆⟩ := exists_step_of_run h₅
  have hparked' : Parked s₃ :=
    run_invariant_of_answers (fun ha hs hst => (hs.step ha hst).1) hparked h₄ hmid
  obtain ⟨hparked₄, hwaits, -⟩ := hparked'.step hstarted hstart
  -- and it goes on waiting, so it does not return
  obtain ⟨l, r, rfl⟩ := List.append_of_mem hreturned
  obtain ⟨hl, hr⟩ := List.forall_mem_append.1 hpost
  obtain ⟨ops₇, ops₈, s₅, -, h₇, h₈⟩ := run_split h₆
  obtain ⟨o'', ops₉, s₆, -, hreturn, -⟩ := exists_step_of_run h₈
  obtain ⟨hparked₅, hwaiting⟩ := run_invariant_of_answers (I := fun s => Parked s ∧ s.poll = .waiting)
    Parked.goes_on_waiting ⟨hparked₄, hwaits rfl⟩ h₇ hl
  obtain ⟨-, -, hkept⟩ := hparked₅.step (List.forall_mem_cons.1 hr).1 hreturn
  exact (hkept hwaiting).2 rv rfl

/-- Two callers, and a thread that is suspended, polls, and is resumed. -/
def suspendedOps : List (ThreadOp Bool) :=
  [.call true .suspend, .advance true, .pollStart, .advance true, .advance true,
    .call false .resume, .advance false, .advance false, .pollTake, .advance false, .pollReturn]

theorem thread_suspend_resume_sample :
    ∃ events s, run suspendStep suspendedOps (ThreadCalls.construct Bool false) = some (events, s) ∧
      NotStranded s ∧ NeverLeaks events :=
  ⟨_, _, rfl, thread_suspend_resume false suspendedOps _ _ rfl⟩

end CodePort
