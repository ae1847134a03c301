/-
The deletion of dispatch threads.

`NumThreadsSet` holds the stack mutex while it deletes threads, and the destructor of a thread waits
until the thread has exited.  A thread that has taken a new event needs the same mutex to copy the
handlers before it comes back to look at its exit flag; and so does a handler that it runs, if that adds
a handler or deletes one.

Main definitions:

* `CodePort.HandlerCall`, `CodePort.CallingState` — the dispatcher, with handlers that call back;
* `CodePort.callingStep` — one step of anybody, calls of the handlers included;
* `CodePort.DispatchState.Doomed` — a thread that is to be deleted;
* `CodePort.CallingState.Deadlocked` — the caller and the last thread wait for each other;
* `CodePort.CallingState.Unburdened` — a step that leaves no thread that is to be deleted with an
  event whose handlers it has not copied, or in a handler that calls back.

Main results:

* `CodePort.DispatchState.Clear.step`, `CodePort.CallingState.Clear.step` — no such thread comes to be;
* `CodePort.dispatch_no_deadlock` — **when there is no deadlock**.
-/

import CodePort.Dispatch

set_option relaxedAutoImplicit false
set_option autoImplicit false

namespace CodePort

open StepSystem

variable {H : Type}

/-! ### Handlers that call back -/

/-- What a handler, or somebody else, asks of the dispatcher; a call without a function returns at once. -/
inductive HandlerCall (H : Type)
  | eventHandlerAdd (pHandler : H)
  | eventHandlerDel (pHandler : H)
  deriving DecidableEq

/-- The handlers after the call. -/
def HandlerCall.apply [DecidableEq H] (handlers : List H) : HandlerCall H → List H
  | eventHandlerAdd pHandler => if pHandler ∈ handlers then handlers else handlers ++ [pHandler]
  | eventHandlerDel pHandler => handlers.erase pHandler

/-- The dispatcher, and the calls that its threads make from the handlers they run. -/
structure CallingState (H : Type) where
  dispatch : DispatchState H
  /-- The call of a thread, and whether it has locked the stack mutex. -/
  calling : ℕ → Option (HandlerCall H × Bool)

/-- A dispatcher whose threads make no calls. -/
def CallingState.start (s : DispatchState H) : CallingState H := ⟨s, fun _ => none⟩

/-- Thread `t` is about to run a handler, or in it. -/
def DispatchState.inHandler (s : DispatchState H) (t : DispatchThread H) : Bool :=
  match t.pc with
  | .preDispatch _ => s.preDispatch.isSome
  | .handlers _ (_ :: _) => true
  | .handlers _ [] => s.postDispatch.isSome
  | _ => false

/-- Who takes a step. -/
inductive CallingOp (H : Type)
  | dispatch (op : DispatchOp)
  /-- The handler that a thread runs calls back. -/
  | call (i : ℕ) (c : HandlerCall H)
  /-- Somebody else calls, who neither deletes threads nor runs handlers. -/
  | client (c : HandlerCall H)
  deriving DecidableEq

/-- One step of anybody.  A thread goes on with its own steps when the call has returned. -/
def callingStep [DecidableEq H] (s : CallingState H) :
    CallingOp H → Option (Option Bool × CallingState H)
  | .dispatch (.thread i) =>
      match s.calling i with
      | none => (dispatchStep s.dispatch (.thread i)).map fun r => (r.1, { s with dispatch := r.2 })
      | some (c, false) =>
          if s.dispatch.stackMutex = none then
            some (none, ⟨{ s.dispatch with stackMutex := some (.thread i) },
              Function.update s.calling i (some (c, true))⟩)
          else none
      | some (c, true) =>
          some (none, ⟨{ s.dispatch with stackMutex := none, handlers := c.apply s.dispatch.handlers },
            Function.update s.calling i none⟩)
  | .dispatch op => (dispatchStep s.dispatch op).map fun r => (r.1, { s with dispatch := r.2 })
  | .call i c =>
      match s.dispatch.threads[i]? with
      | some t =>
          if s.dispatch.inHandler t ∧ s.calling i = none then
            some (none, { s with calling := Function.update s.calling i (some (c, false)) })
          else none
      | none => none
  | .client c =>
      -- nobody waits for somebody who locks the mutex and unlocks it again
      if s.dispatch.stackMutex = none then
        some (none, { s with dispatch := { s.dispatch with handlers := c.apply s.dispatch.handlers } })
      else none

/-! ### Threads that are to be deleted -/

/-- The thread has taken a new event and has not locked the stack mutex for it yet. -/
def ThreadPc.pending : ThreadPc H → Bool
  | .preDispatch _ => true
  | .lock _ => true
  | _ => false

/-- How many threads the caller is going to delete, while it deletes. -/
def CallerPc.deleting : CallerPc → Option ℕ
  | .delete left => some left
  | .take left => some (left + 1)
  | _ => none

/-- How many threads the caller is about to leave, when it has locked the stack mutex. -/
def CallerPc.setting : CallerPc → Option ℕ
  | .locked numThreads => some numThreads
  | _ => none

namespace DispatchState

/-- Thread `i` is to be deleted. -/
def Doomed (s : DispatchState H) (i : ℕ) : Prop :=
  i < s.threads.length ∧ ∃ left ∈ s.caller.deleting, s.threads.length ≤ i + left

instance decidableDoomed (s : DispatchState H) (i : ℕ) : Decidable (s.Doomed i) :=
  inferInstanceAs (Decidable (_ ∧ _))

/-- The caller is about to find that it has to delete thread `i`. -/
def Dooms (s : DispatchState H) (i : ℕ) : Prop :=
  i < s.threads.length ∧ ∃ numThreads ∈ s.caller.setting, numThreads ≤ i

instance decidableDooms (s : DispatchState H) (i : ℕ) : Decidable (s.Dooms i) :=
  inferInstanceAs (Decidable (_ ∧ _))

/-- The step does not start to delete a thread that has an event pending, and no thread that is to
be deleted takes a new event. -/
def Unburdened (s : DispatchState H) : DispatchOp → Prop
  | .caller => ∀ i < s.threads.length, s.Dooms i → ∀ t ∈ s.threads[i]?, t.pc.pending = false
  | .thread i => s.Doomed i → ∀ t ∈ s.threads[i]?, t.pc = .get →
      ∀ r ∈ s.eventQueue.getNow, r.1.opCode ≠ .newEvent
  | _ => True

instance decidableUnburdened [DecidableEq H] (s : DispatchState H) (op : DispatchOp) :
    Decidable (s.Unburdened op) :=
  match op with
  | .caller => inferInstanceAs (Decidable (∀ i < s.threads.length, s.Dooms i →
      ∀ t ∈ s.threads[i]?, t.pc.pending = false))
  | .thread i => inferInstanceAs (Decidable (s.Doomed i → ∀ t ∈ s.threads[i]?, t.pc = .get →
      ∀ r ∈ s.eventQueue.getNow, r.1.opCode ≠ .newEvent))
  | .submitEvent | .submitTimeout | .getTimeout _ | .shutdownTimeout | .numThreadsSet _ | .destroy =>
      .isTrue trivial

/-- No thread that is to be deleted has an event pending. -/
def Clear (s : DispatchState H) : Prop :=
  ∀ i t, s.Doomed i → s.threads[i]? = some t → t.pc.pending = false

variable {s s' : DispatchState H}

theorem doomed_threadSet {i j : ℕ} {t : DispatchThread H} :
    (s.threadSet i t).Doomed j ↔ s.Doomed j := by
  simp only [Doomed, threadSet, List.length_set]

/-- A step of a thread dooms no thread. -/
theorem ThreadMoves.doomed_iff {i : ℕ} {t : DispatchThread H} (h : s.ThreadMoves i t s') (j : ℕ) :
    s'.Doomed j ↔ s.Doomed j := by
  cases h <;> exact doomed_threadSet

/-- **A step of the caller dooms a thread** when it starts to delete. -/
theorem CallerMoves.of_doomed (h : s.CallerMoves s') {i : ℕ} (hi : s'.Doomed i) :
    s.Doomed i ∨ s.Dooms i := by
  obtain ⟨hlt, left, hleft, hle⟩ := hi
  cases h with
  | lock hfree hnext =>
      rcases hnext with ⟨-, rfl⟩ | ⟨n, -, rfl⟩ <;> cases hleft
  | count hc => cases hleft
  | shutdown hc hput => cases hleft
  | shutdownDone hc => cases hleft
  | create hc hlt hnew => cases hleft
  | startDelete hc hn =>
      obtain rfl := Option.some.inj hleft
      dsimp only at hlt hle
      exact .inr ⟨hlt, _, by rw [hc]; rfl, by omega⟩
  | exitReq hc hthreads =>
      obtain rfl := Option.some.inj hleft
      have hlength := congrArg List.length hthreads
      simp only [List.length_append, List.length_singleton] at hlength hlt hle
      exact .inl ⟨by omega, _, by rw [hc]; rfl, by omega⟩
  | deleteDone hc => cases hleft
  | take hc hthreads hsem =>
      obtain rfl := Option.some.inj hleft
      have hlength := congrArg List.length hthreads
      simp only [List.length_append, List.length_singleton] at hlength hlt hle
      exact .inl ⟨by omega, _, by rw [hc]; rfl, by omega⟩
  | unlock hc =>
      cases hb : s.boundary <;> simp [hb, CallerPc.deleting] at hleft

/-- **A step dooms a thread** only if it is one of the caller that starts to delete. -/
theorem Moves.of_doomed {op : DispatchOp} (h : s.Moves op s') {i : ℕ} (hi : s'.Doomed i) :
    s.Doomed i ∨ op = .caller ∧ s.Dooms i := by
  have hidle : ∀ (c : CallerPc) (b : Option ℕ), c.deleting = none →
      ¬ ({ s with caller := c, boundary := b } : DispatchState H).Doomed i := by
    rintro c b hc ⟨-, left, hleft, -⟩
    rw [hc] at hleft
    cases hleft
  cases h with
  | submitEvent hput => exact .inl hi
  | submitTimeout => exact .inl hi
  | thread ht hmove => exact .inl ((hmove.doomed_iff i).1 hi)
  | getTimeout ht hpc => exact .inl (doomed_threadSet.1 hi)
  | caller hmove => exact (hmove.of_doomed hi).imp_right fun hd => ⟨rfl, hd⟩
  | shutdownTimeout hc => exact absurd hi (hidle _ _ rfl)
  | numThreadsSet hc => exact absurd hi (hidle _ _ rfl)
  | destroy hc => exact absurd hi (hidle _ _ rfl)

/-- A thread is written whose event, if it has one pending, is no reason to worry. -/
theorem Clear.threadSet (h : s.Clear) (i : ℕ) (t : DispatchThread H)
    (ht : s.Doomed i → t.pc.pending = false) : (s.threadSet i t).Clear := by
  intro j u hj hu
  rw [doomed_threadSet] at hj
  rw [DispatchState.threadSet] at hu
  by_cases hij : i = j
  · subst hij
    rw [List.getElem?_set_self hj.1] at hu
    obtain rfl := Option.some.inj hu
    exact ht hj
  · rw [List.getElem?_set_ne hij] at hu
    exact h j u hj hu

/-- A step of a thread keeps the threads that are to be deleted clear. -/
theorem Clear.threadMoves (h : s.Clear) {i : ℕ} {t : DispatchThread H}
    (ht : s.threads[i]? = some t) (hop : s.Unburdened (.thread i)) (hmove : s.ThreadMoves i t s') :
    s'.Clear := by
  cases hmove with
  | enter hpc hflag => exact h.threadSet i _ fun _ => rfl
  | look hpc hflag => exact h.threadSet i _ fun _ => rfl
  | leave hpc hflag => exact h.threadSet i _ fun _ => rfl
  | newEvent hpc hget =>
      exact Clear.threadSet (s := { s with eventQueue := _ }) h i _ fun hi =>
        absurd rfl (hop hi t ht hpc _ hget)
  | shutdown hpc hget => exact Clear.threadSet (s := { s with eventQueue := _ }) h i _ fun _ => rfl
  | noOp hpc hget => exact Clear.threadSet (s := { s with eventQueue := _ }) h i _ fun _ => rfl
  | preDispatch hpc =>
      refine Clear.threadSet (s := s.call _ _) h i _ fun hi => ?_
      have hpending := h i t hi ht
      rw [hpc] at hpending
      cases hpending
  | lock hpc hfree => exact Clear.threadSet (s := { s with stackMutex := _ }) h i _ fun _ => rfl
  | copy hpc => exact Clear.threadSet (s := { s with stackMutex := _ }) h i _ fun _ => rfl
  | handler hpc => exact Clear.threadSet (s := s.call _ _) h i _ fun _ => rfl
  | postDispatch hpc => exact Clear.threadSet (s := s.call _ _) h i _ fun _ => rfl
  | give hpc => exact h.threadSet i _ fun _ => rfl
  | giveAgain hpc => exact h.threadSet i _ fun _ => rfl

/-- What the caller leaves of a thread is where it was. -/
theorem CallerMoves.pc_eq (h : s.CallerMoves s') {i : ℕ} (hi : i < s.threads.length)
    {u : DispatchThread H} (hu : s'.threads[i]? = some u) : ∃ t, s.threads[i]? = some t ∧ u.pc = t.pc := by
  cases h with
  | create hc hlt hnew =>
      rw [List.getElem?_append_left hi] at hu
      exact ⟨u, hu, rfl⟩
  | @exitReq left t ts hc hthreads =>
      rcases getElem?_concat_eq_some.1 hu with hu | ⟨rfl, rfl⟩
      · exact ⟨u, hthreads ▸ getElem?_concat_eq_some.2 (.inl hu), rfl⟩
      · exact ⟨t, hthreads ▸ getElem?_concat_eq_some.2 (.inr ⟨rfl, rfl⟩), rfl⟩
  | take hc hthreads hsem => exact ⟨u, hthreads ▸ getElem?_concat_eq_some.2 (.inl hu), rfl⟩
  | _ => exact ⟨u, hu, rfl⟩

/-- A step of the caller keeps the threads that are to be deleted clear. -/
theorem Clear.callerMoves (h : s.Clear) (hop : s.Unburdened .caller) (hmove : s.CallerMoves s') :
    s'.Clear := by
  intro i u hi hu
  have hold := hmove.of_doomed hi
  obtain ⟨t, ht, hpc⟩ := hmove.pc_eq (hold.elim (fun hd => hd.1) fun hd => hd.1) hu
  rw [hpc]
  exact hold.elim (fun hd => h i t hd ht) fun hd => hop i hd.1 hd t ht

/-- **A step keeps the threads that are to be deleted clear.** -/
theorem Clear.step {op : DispatchOp} (h : s.Clear) (hop : s.Unburdened op) (hmove : s.Moves op s') :
    s'.Clear := by
  cases hmove with
  | submitEvent hput => exact h
  | submitTimeout => exact h
  | thread ht hmove => exact h.threadMoves ht hop hmove
  | getTimeout ht hpc => exact h.threadSet _ _ fun _ => rfl
  | caller hmove => exact h.callerMoves hop hmove
  | shutdownTimeout hc => exact fun i t hi => absurd hi (by rintro ⟨-, left, hleft, -⟩; cases hleft)
  | numThreadsSet hc => exact fun i t hi => absurd hi (by rintro ⟨-, left, hleft, -⟩; cases hleft)
  | destroy hc => exact fun i t hi => absurd hi (by rintro ⟨-, left, hleft, -⟩; cases hleft)

end DispatchState

open DispatchState

namespace CallingState

/-- The caller holds the stack mutex and waits for the last thread to exit, which waits for the
stack mutex: to copy the handlers, or in a handler that it runs. -/
def Deadlocked (s : CallingState H) : Prop :=
  ∃ left t, s.dispatch.caller = .take left ∧ s.dispatch.stackMutex = some .caller ∧
    s.dispatch.threads.getLast? = some t ∧ t.semExit.count = 0 ∧
      ((∃ e, t.pc = .lock e) ∨ ∃ c, s.calling (s.dispatch.threads.length - 1) = some (c, false))

/-- The step does not start to delete a thread that has an event pending or is in a call of a handler, and
no thread that is to be deleted takes a new event, or runs a handler that calls back. -/
def Unburdened (s : CallingState H) : CallingOp H → Prop
  | .dispatch op => s.dispatch.Unburdened op ∧
      (op = .caller → ∀ i < s.dispatch.threads.length, s.dispatch.Dooms i → s.calling i = none)
  | .call i _ => ¬ s.dispatch.Doomed i
  | .client _ => True

instance decidableUnburdened [DecidableEq H] (s : CallingState H) (op : CallingOp H) :
    Decidable (s.Unburdened op) :=
  match op with
  | .dispatch op => inferInstanceAs (Decidable (s.dispatch.Unburdened op ∧ (op = .caller →
      ∀ i < s.dispatch.threads.length, s.dispatch.Dooms i → s.calling i = none)))
  | .call i _ => inferInstanceAs (Decidable (¬ s.dispatch.Doomed i))
  | .client _ => .isTrue trivial

/-- No thread that is to be deleted has an event pending or is in a call. -/
def Clear (s : CallingState H) : Prop :=
  s.dispatch.Clear ∧ ∀ i, s.dispatch.Doomed i → s.calling i = none

variable {s s' : CallingState H}

theorem clear_start (numThreads depth : ℕ) (preDispatch postDispatch : Option H) (handlers : List H) :
    (start (construct numThreads depth preDispatch postDispatch handlers)).Clear :=
  ⟨fun i t hi => absurd hi (by rintro ⟨-, left, hleft, -⟩; cases hleft), fun _ _ => rfl⟩

/-- A step of the dispatcher itself. -/
theorem Clear.dispatch (h : s.Clear) {op : DispatchOp} (hop : s.Unburdened (.dispatch op))
    {a : Option Bool} {d : DispatchState H} (hstep : dispatchStep s.dispatch op = some (a, d)) :
    Clear { s with dispatch := d } := by
  have hmove := dispatchStep_moves hstep
  refine ⟨h.1.step hop.1 hmove, fun i hi => ?_⟩
  rcases hmove.of_doomed hi with hd | ⟨hcaller, hd⟩
  · exact h.2 i hd
  · exact hop.2 hcaller i hd.1 hd

/-- A call is written of a thread that is not to be deleted, or ends. -/
theorem Clear.update (h : s.Clear) (i : ℕ) (c : Option (HandlerCall H × Bool))
    (hc : s.dispatch.Doomed i → c = none) : Clear { s with calling := Function.update s.calling i c } := by
  refine ⟨h.1, fun j hj => ?_⟩
  dsimp only
  by_cases hij : j = i
  · subst hij
    rw [Function.update_self]
    exact hc hj
  · rw [Function.update_of_ne hij]
    exact h.2 j hj

/-- **A step keeps the threads that are to be deleted clear.** -/
theorem Clear.step [DecidableEq H] {op : CallingOp H} {a : Option Bool} (h : s.Clear)
    (hop : s.Unburdened op) (hstep : callingStep s op = some (a, s')) : s'.Clear := by
  have hbase : ∀ {op : DispatchOp}, s.Unburdened (.dispatch op) →
      ((dispatchStep s.dispatch op).map fun r => (r.1, { s with dispatch := r.2 })) = some (a, s') →
      s'.Clear := by
    intro op hop hstep
    obtain ⟨⟨b, d⟩, hd, heq⟩ := Option.map_eq_some_iff.1 hstep
    obtain ⟨rfl, rfl⟩ := Prod.mk.inj heq
    exact h.dispatch hop hd
  cases op with
  | dispatch op =>
      cases op with
      | thread i =>
          rw [callingStep] at hstep
          cases hcall : s.calling i with
          | none =>
              rw [hcall] at hstep
              exact hbase hop hstep
          | some cl =>
              -- a thread that is in a call is not to be deleted
              have hfree : ¬ s.dispatch.Doomed i := fun hd => by
                rw [h.2 i hd] at hcall
                cases hcall
              obtain ⟨c, _ | _⟩ := cl
              · rw [hcall] at hstep
                obtain ⟨-, heq⟩ := Option.ite_none_right_eq_some.1 hstep
                obtain ⟨-, rfl⟩ := Prod.mk.inj (Option.some.inj heq)
                exact Clear.update (s := ⟨{ s.dispatch with stackMutex := _ }, s.calling⟩) h i _
                  fun hd => absurd hd hfree
              · rw [hcall] at hstep
                obtain ⟨-, rfl⟩ := Prod.mk.inj (Option.some.inj hstep)
                exact Clear.update (s := ⟨{ s.dispatch with stackMutex := _, handlers := _ }, s.calling⟩)
                  h i _ fun _ => rfl
      | _ => exact hbase hop hstep
  | call i c =>
      rw [callingStep] at hstep
      split at hstep
      · obtain ⟨-, heq⟩ := Option.ite_none_right_eq_some.1 hstep
        obtain ⟨-, rfl⟩ := Prod.mk.inj (Option.some.inj heq)
        exact h.update i _ fun hd => absurd hd hop
      · cases hstep
  | client c =>
      obtain ⟨-, heq⟩ := Option.ite_none_right_eq_some.1 hstep
      obtain ⟨-, rfl⟩ := Prod.mk.inj (Option.some.inj heq)
      exact h

theorem Clear.not_deadlocked (h : s.Clear) : ¬ s.Deadlocked := by
  rintro ⟨left, t, hcaller, -, hlast, -, hwaits⟩
  have hget : s.dispatch.threads[s.dispatch.threads.length - 1]? = some t := by
    rw [← List.getLast?_eq_getElem?]
    exact hlast
  have hlt := (List.getElem?_eq_some_iff.1 hget).1
  have hdoomed : s.dispatch.Doomed (s.dispatch.threads.length - 1) :=
    ⟨hlt, left + 1, by rw [hcaller]; rfl, by omega⟩
  rcases hwaits with ⟨e, hpc⟩ | ⟨c, hcalls⟩
  · have hpending := h.1 _ t hdoomed hget
    rw [hpc] at hpending
    cases hpending
  · rw [h.2 _ hdoomed] at hcalls
    cases hcalls

end CallingState

open CallingState

/-- **When there is no deadlock.** -/
theorem dispatch_no_deadlock [DecidableEq H] (numThreads depth : ℕ) (preDispatch postDispatch : Option H)
    (handlers : List H) {ops : List (CallingOp H)} {answers : List (Option Bool)} {s : CallingState H}
    (hrun : run callingStep ops
      (start (construct numThreads depth preDispatch postDispatch handlers)) = some (answers, s))
    (hops : Meets callingStep Unburdened ops
      (start (construct numThreads depth preDispatch postDispatch handlers))) : ¬ s.Deadlocked :=
  (run_invariant_of_meets (fun h hop hst => h.step hop hst)
    (clear_start numThreads depth preDispatch postDispatch handlers) hrun hops).not_deadlocked

/-- Two threads; one of them runs an event, whose handlers add a handler and delete it again, while the other
one is deleted, and then the destructor deletes the first. -/
def sampleCallingOps : List (CallingOp Bool) :=
  let thread := fun i n => List.replicate n (CallingOp.dispatch (.thread i))
  let caller := fun n => List.replicate n (CallingOp.dispatch .caller)
  .dispatch .submitEvent :: thread 0 3 ++ .call 0 (.eventHandlerAdd true) :: thread 0 5 ++ thread 1 2 ++
    .dispatch (.numThreadsSet 1) :: caller 3 ++ .call 0 (.eventHandlerDel true) ::
    .dispatch (.getTimeout 1) :: thread 1 3 ++ caller 3 ++ thread 0 6 ++ .dispatch .destroy :: caller 3 ++
    thread 0 4 ++ caller 7

/-- The destructor returns, and does not wait for what waits for it. -/
theorem dispatch_no_deadlock_sample :
    Meets callingStep Unburdened sampleCallingOps (start (construct 2 64 (some false) none [false])) ∧
      ∃ answers s, run callingStep sampleCallingOps
          (start (construct 2 64 (some false) none [false])) = some (answers, s) ∧
        s.dispatch.caller = .returned ∧ s.dispatch.threads = [] ∧ ¬ s.Deadlocked := by
  have hmeets : Meets callingStep Unburdened sampleCallingOps
      (start (construct 2 64 (some false) none [false])) := by decide +kernel
  have hend : ((run callingStep sampleCallingOps
      (start (construct 2 64 (some false) none [false]))).any fun r =>
        decide (r.2.dispatch.caller = .returned ∧ r.2.dispatch.threads = [])) = true := by
    decide +kernel
  obtain ⟨⟨answers, s⟩, hrun, hs⟩ := (Option.any_eq_true _ _).1 hend
  obtain ⟨hcaller, hthreads⟩ := of_decide_eq_true hs
  exact ⟨hmeets, answers, s, hrun, hcaller, hthreads,
    dispatch_no_deadlock 2 64 (some false) none [false] hrun hmeets⟩

/-- A thread has taken an event when the destructor is called, and the destructor is the first to
lock the stack mutex. -/
def pendingDestroy : List (CallingOp Unit) :=
  .dispatch .submitEvent :: List.replicate 4 (.dispatch (.thread 0)) ++
    .dispatch .destroy :: List.replicate 7 (.dispatch .caller)

/-- A handler adds a handler when the destructor has locked the stack mutex. -/
def callingDestroy : List (CallingOp Unit) :=
  .dispatch .submitEvent :: List.replicate 6 (.dispatch (.thread 0)) ++
    .call 0 (.eventHandlerAdd ()) :: .dispatch .destroy :: List.replicate 7 (.dispatch .caller)

/-- **The destructor can deadlock**, with a thread that has taken an event and with one whose handler calls
back. -/
theorem dispatch_deadlock :
    (∃ answers s, run callingStep pendingDestroy (start (construct 1 64 none none [()])) =
      some (answers, s) ∧ s.Deadlocked) ∧
    ∃ answers s, run callingStep callingDestroy (start (construct 1 64 none none [()])) =
      some (answers, s) ∧ s.Deadlocked :=
  ⟨⟨_, _, rfl, 0, _, rfl, rfl, rfl, rfl, .inl ⟨0, rfl⟩⟩,
    ⟨_, _, rfl, 0, _, rfl, rfl, rfl, rfl, .inr ⟨.eventHandlerAdd (), rfl⟩⟩⟩

end CodePort
