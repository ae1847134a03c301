/-
The event dispatcher.

Events are submitted to a queue, and the dispatch threads take them from there; each runs the
handlers for the event it has taken.  A thread ends when it finds its exit flag set, which a
shutdown event does and so does the destructor of a thread.  One caller changes the number of
threads, or destroys the dispatcher.

Main definitions:

* `CodePort.ThreadPc`, `CodePort.DispatchThread` — where a dispatch thread stands;
* `CodePort.CallerPc` — where the call of `NumThreadsSet` or of the destructor stands;
* `CodePort.DispatchState` — the dispatcher, its threads and the caller;
* `CodePort.DispatchState.threadStep`, `callerStep` — what one of them does next;
* `CodePort.dispatchStep` — one step of anybody.

Main results:

* `CodePort.DispatchState.threadStep_moves`, `callerStep_moves`, `dispatchStep_moves` — **what a step
  can do**.

A dispatch thread is never suspended, so its poll is a look at its exit flag.  The calls of the event
queue are one step each: the queue is first in, first out in every interleaving of their parts.  The
events are numbered in the order in which they are accepted.  A handler is a label here: it is taken for
granted that it returns and calls nothing of the dispatcher.
-/

import CodePort.ItcQueue

set_option relaxedAutoImplicit false
set_option autoImplicit false

namespace CodePort

/-! ### Events and threads -/

/-- The operation codes. -/
inductive OpCode
  | noOp | newEvent | shutdown
  deriving DecidableEq, Repr

/-- An event in the queue; those that are not new events have no number of their own. -/
structure DispatchEvent where
  opCode : OpCode
  pEvent : ℕ
  deriving DecidableEq, Repr

/-- Where a dispatch thread stands. -/
inductive ThreadPc (H : Type)
  /-- `InvokeUserFunc`, before its poll. -/
  | start
  /-- `ThreadFunction`, before the poll of its loop. -/
  | poll
  /-- In `Get`. -/
  | get
  /-- A new event has been taken; next is the pre-dispatch handler. -/
  | preDispatch (e : ℕ)
  /-- Before the stack mutex is locked. -/
  | lock (e : ℕ)
  /-- The stack mutex is locked. -/
  | copy (e : ℕ)
  /-- The rest of the copy of the handlers has to be run, and the post-dispatch handler. -/
  | handlers (e : ℕ) (rest : List H)
  /-- Before the exit semaphore is given the first time. -/
  | exit
  /-- Before the exit semaphore is given the second time. -/
  | exited
  | done
  deriving DecidableEq

/-- A dispatch thread. -/
structure DispatchThread (H : Type) where
  pc : ThreadPc H
  /-- Thread exit control flag. -/
  exitFlag : Bool
  /-- Maintains environment until thread exits. -/
  semExit : SemLite
  deriving DecidableEq

/-- A thread that has been started. -/
def DispatchThread.construct (H : Type) : DispatchThread H where
  pc := .start
  exitFlag := false
  semExit := SemLite.construct 0 2

/-- Where the caller stands. -/
inductive CallerPc
  | idle
  /-- The destructor, before it locks the stack mutex. -/
  | destroy
  /-- The destructor has locked the stack mutex. -/
  | count
  /-- The destructor has this many shutdown signals to send. -/
  | shutdown (left : ℕ)
  /-- `NumThreadsSet`, before it locks the stack mutex. -/
  | numThreadsSet (numThreads : ℕ)
  /-- `NumThreadsSet` has locked the stack mutex. -/
  | locked (numThreads : ℕ)
  /-- This many threads are to be deleted; next is `ExitReq` of the last one. -/
  | delete (left : ℕ)
  /-- The destructor of the last thread waits for it to exit; then this many are left. -/
  | take (left : ℕ)
  /-- Before the stack mutex is unlocked. -/
  | unlock
  /-- The destructor has returned. -/
  | returned
  deriving DecidableEq

/-- Who may hold the stack mutex. -/
inductive StackOwner
  | caller
  | thread (i : ℕ)
  deriving DecidableEq

/-- The dispatcher, its threads and the caller. -/
structure DispatchState (H : Type) where
  /-- Who holds the mutex that protects the stacks. -/
  stackMutex : Option StackOwner
  eventQueue : ItcQueue DispatchEvent
  /-- Threads may be created. -/
  flag1 : Bool
  preDispatch : Option H
  postDispatch : Option H
  handlers : List H
  threads : List (DispatchThread H)
  caller : CallerPc
  /-- How many events have been accepted so far. -/
  accepted : ℕ
  /-- How many events had been accepted when the destructor started. -/
  boundary : Option ℕ
  /-- The handlers that have been run, and for which events. -/
  calls : List (ℕ × H)

variable {H : Type}

namespace DispatchState

/-- The constructor, with the handlers that are registered before the first event. -/
def construct (numThreads depth : ℕ) (preDispatch postDispatch : Option H) (handlers : List H) :
    DispatchState H where
  stackMutex := none
  eventQueue := ItcQueue.construct depth
  flag1 := true
  preDispatch := preDispatch
  postDispatch := postDispatch
  handlers := handlers
  threads := List.replicate numThreads (DispatchThread.construct H)
  caller := .idle
  accepted := 0
  boundary := none
  calls := []

/-- Run a handler, if any. -/
def call (s : DispatchState H) (e : ℕ) (h : Option H) : DispatchState H :=
  { s with calls := s.calls ++ h.toList.map fun h => (e, h) }

/-- Write a thread. -/
def threadSet (s : DispatchState H) (i : ℕ) (t : DispatchThread H) : DispatchState H :=
  { s with threads := s.threads.set i t }

/-! ### A step of a thread -/

/-- What thread `i`, which is `t`, does next; it may have to wait. -/
def threadStep (s : DispatchState H) (i : ℕ) (t : DispatchThread H) : Option (DispatchState H) :=
  match t.pc with
  | .start => some (s.threadSet i { t with pc := if t.exitFlag then .exit else .poll })
  | .poll => some (s.threadSet i { t with pc := if t.exitFlag then .exit else .get })
  | .get =>
      s.eventQueue.getNow.map fun r =>
        { s with eventQueue := r.2 }.threadSet i
          (match r.1.opCode with
          | .newEvent => { t with pc := .preDispatch r.1.pEvent }
          | .shutdown => { t with pc := .poll, exitFlag := true }
          | .noOp => { t with pc := .poll })
  | .preDispatch e => some ((s.call e s.preDispatch).threadSet i { t with pc := .lock e })
  | .lock e =>
      if s.stackMutex = none then
        some ({ s with stackMutex := some (.thread i) }.threadSet i { t with pc := .copy e })
      else none
  | .copy e =>
      some ({ s with stackMutex := none }.threadSet i { t with pc := .handlers e s.handlers })
  | .handlers e (h :: rest) =>
      some ((s.call e (some h)).threadSet i { t with pc := .handlers e rest })
  | .handlers e [] => some ((s.call e s.postDispatch).threadSet i { t with pc := .poll })
  | .exit => some (s.threadSet i { t with pc := .exited, semExit := t.semExit.give.2 })
  | .exited => some (s.threadSet i { t with pc := .done, semExit := t.semExit.give.2 })
  | .done => none

/-! ### A step of the caller -/

/-- Lock the stack mutex and go on; somebody else may hold it. -/
def lockStack (s : DispatchState H) (next : CallerPc) : Option (DispatchState H) :=
  if s.stackMutex = none then some { s with stackMutex := some .caller, caller := next } else none

/-- What the caller does next; it may have to wait. -/
def callerStep (s : DispatchState H) : Option (DispatchState H) :=
  match s.caller with
  | .idle => none
  | .destroy => s.lockStack .count
  -- disable thread create operations
  | .count =>
      some { s with flag1 := false, stackMutex := none, caller := .shutdown s.threads.length }
  -- send as many shutdown signals as there are dispatch threads
  | .shutdown (left + 1) =>
      (s.eventQueue.putNow ⟨.shutdown, 0⟩).map fun q =>
        { s with eventQueue := q, caller := .shutdown left }
  | .shutdown 0 => some { s with caller := .numThreadsSet 0 }
  | .numThreadsSet numThreads => s.lockStack (.locked numThreads)
  | .locked numThreads =>
      if s.threads.length < numThreads then
        if s.flag1 then
          some { s with
            caller := .unlock
            threads := s.threads ++
              List.replicate (numThreads - s.threads.length) (DispatchThread.construct H) }
        else some { s with caller := .unlock }
      else if numThreads < s.threads.length then
        some { s with caller := .delete (s.threads.length - numThreads) }
      else some { s with caller := .unlock }
  -- inform the thread to exit
  | .delete (left + 1) =>
      s.threads.getLast?.map fun t =>
        { s with
          caller := .take left
          threads := s.threads.dropLast ++ [{ t with exitFlag := true }] }
  | .delete 0 => some { s with caller := .unlock }
  -- wait for thread to exit
  | .take left =>
      s.threads.getLast?.bind fun t => t.semExit.take.map fun _ =>
        { s with caller := .delete left, threads := s.threads.dropLast }
  | .unlock =>
      some { s with
        stackMutex := none
        caller := if s.boundary.isSome then .returned else .idle }
  | .returned => none

end DispatchState

/-! ### A step of anybody -/

/-- Who takes a step. -/
inductive DispatchOp
  /-- `SubmitEvent` of some thread. -/
  | submitEvent
  /-- `SubmitEvent` gives up. -/
  | submitTimeout
  | thread (i : ℕ)
  /-- `Get` of a dispatch thread gives up. -/
  | getTimeout (i : ℕ)
  | caller
  /-- `Put` of the caller gives up. -/
  | shutdownTimeout
  /-- `NumThreadsSet` is called. -/
  | numThreadsSet (numThreads : ℕ)
  /-- The destructor is called. -/
  | destroy
  deriving DecidableEq

/-- One step of anybody.  The answer is what `SubmitEvent` returns. -/
def dispatchStep (s : DispatchState H) : DispatchOp → Option (Option Bool × DispatchState H)
  | .submitEvent =>
      (s.eventQueue.putNow ⟨.newEvent, s.accepted⟩).map fun q =>
        (some true, { s with eventQueue := q, accepted := s.accepted + 1 })
  | .submitTimeout => some (some false, s)
  | .thread i => s.threads[i]?.bind fun t => (s.threadStep i t).map fun s' => (none, s')
  | .getTimeout i =>
      s.threads[i]?.bind fun t =>
        match t.pc with
        | .get => some (none, s.threadSet i { t with pc := .poll })
        | _ => none
  | .caller => s.callerStep.map fun s' => (none, s')
  | .shutdownTimeout =>
      match s.caller with
      | .shutdown (left + 1) => some (none, { s with caller := .shutdown left })
      | _ => none
  | .numThreadsSet numThreads =>
      if s.caller = .idle then some (none, { s with caller := .numThreadsSet numThreads }) else none
  | .destroy =>
      if s.caller = .idle then
        some (none, { s with caller := .destroy, boundary := some s.accepted })
      else none

/-! ### What a step can do -/

namespace DispatchState

/-- **What a step of thread `i`, which is `t`, can do.** -/
inductive ThreadMoves (s : DispatchState H) (i : ℕ) (t : DispatchThread H) :
    DispatchState H → Prop
  | enter (hpc : t.pc = .start) (hflag : t.exitFlag = false) :
      ThreadMoves s i t (s.threadSet i { t with pc := .poll })
  | look (hpc : t.pc = .poll) (hflag : t.exitFlag = false) :
      ThreadMoves s i t (s.threadSet i { t with pc := .get })
  | leave (hpc : t.pc = .start ∨ t.pc = .poll) (hflag : t.exitFlag = true) :
      ThreadMoves s i t (s.threadSet i { t with pc := .exit })
  | newEvent (hpc : t.pc = .get) {e : ℕ} {q : ItcQueue DispatchEvent}
      (hget : s.eventQueue.getNow = some (⟨.newEvent, e⟩, q)) :
      ThreadMoves s i t ({ s with eventQueue := q }.threadSet i { t with pc := .preDispatch e })
  | shutdown (hpc : t.pc = .get) {e : ℕ} {q : ItcQueue DispatchEvent}
      (hget : s.eventQueue.getNow = some (⟨.shutdown, e⟩, q)) :
      ThreadMoves s i t
        ({ s with eventQueue := q }.threadSet i { t with pc := .poll, exitFlag := true })
  | noOp (hpc : t.pc = .get) {e : ℕ} {q : ItcQueue DispatchEvent}
      (hget : s.eventQueue.getNow = some (⟨.noOp, e⟩, q)) :
      ThreadMoves s i t ({ s with eventQueue := q }.threadSet i { t with pc := .poll })
  | preDispatch {e : ℕ} (hpc : t.pc = .preDispatch e) :
      ThreadMoves s i t ((s.call e s.preDispatch).threadSet i { t with pc := .lock e })
  | lock {e : ℕ} (hpc : t.pc = .lock e) (hfree : s.stackMutex = none) :
      ThreadMoves s i t
        ({ s with stackMutex := some (.thread i) }.threadSet i { t with pc := .copy e })
  | copy {e : ℕ} (hpc : t.pc = .copy e) :
      ThreadMoves s i t
        ({ s with stackMutex := none }.threadSet i { t with pc := .handlers e s.handlers })
  | handler {e : ℕ} {hd : H} {rest : List H} (hpc : t.pc = .handlers e (hd :: rest)) :
      ThreadMoves s i t ((s.call e (some hd)).threadSet i { t with pc := .handlers e rest })
  | postDispatch {e : ℕ} (hpc : t.pc = .handlers e []) :
      ThreadMoves s i t ((s.call e s.postDispatch).threadSet i { t with pc := .poll })
  | give (hpc : t.pc = .exit) :
      ThreadMoves s i t (s.threadSet i { t with pc := .exited, semExit := t.semExit.give.2 })
  | giveAgain (hpc : t.pc = .exited) :
      ThreadMoves s i t (s.threadSet i { t with pc := .done, semExit := t.semExit.give.2 })

variable {s s' : DispatchState H} {i : ℕ} {t : DispatchThread H}

theorem threadStep_moves (h : s.threadStep i t = some s') : s.ThreadMoves i t s' := by
  obtain ⟨pc, exitFlag, semExit⟩ := t
  cases pc with
  | start =>
      cases exitFlag with
      | false => cases h; exact .enter rfl rfl
      | true => cases h; exact .leave (Or.inl rfl) rfl
  | poll =>
      cases exitFlag with
      | false => cases h; exact .look rfl rfl
      | true => cases h; exact .leave (Or.inr rfl) rfl
  | get =>
      obtain ⟨⟨⟨opCode, e⟩, q⟩, hget, rfl⟩ := Option.map_eq_some_iff.1 h
      cases opCode with
      | noOp => exact .noOp rfl hget
      | newEvent => exact .newEvent rfl hget
      | shutdown => exact .shutdown rfl hget
  | preDispatch e => cases h; exact .preDispatch rfl
  | lock e =>
      obtain ⟨hfree, h⟩ := Option.ite_none_right_eq_some.1 h
      cases h
      exact .lock rfl hfree
  | copy e => cases h; exact .copy rfl
  | handlers e rest =>
      cases rest with
      | nil => cases h; exact .postDispatch rfl
      | cons hd rest => cases h; exact .handler rfl
  | exit => cases h; exact .give rfl
  | exited => cases h; exact .giveAgain rfl
  | done => cases h

theorem getElem?_concat_eq_some {α : Type} {l : List α} {a b : α} {i : ℕ} :
    (l ++ [a])[i]? = some b ↔ l[i]? = some b ∨ i = l.length ∧ b = a := by
  rcases Nat.lt_trichotomy i l.length with hlt | rfl | hgt
  · rw [List.getElem?_append_left hlt]
    simp [Nat.ne_of_lt hlt]
  · simp [eq_comm]
  · rw [List.getElem?_eq_none (by rw [List.length_append, List.length_singleton]; omega),
      List.getElem?_eq_none (by omega)]
    simp [Nat.ne_of_gt hgt]

/-- **What a step of the caller can do.** -/
inductive CallerMoves (s : DispatchState H) : DispatchState H → Prop
  | lock {next : CallerPc} (hfree : s.stackMutex = none)
      (hnext : s.caller = .destroy ∧ next = .count ∨
        ∃ n, s.caller = .numThreadsSet n ∧ next = .locked n) :
      CallerMoves s { s with stackMutex := some .caller, caller := next }
  | count (hc : s.caller = .count) :
      CallerMoves s
        { s with flag1 := false, stackMutex := none, caller := .shutdown s.threads.length }
  | shutdown {left : ℕ} {q : ItcQueue DispatchEvent} (hc : s.caller = .shutdown (left + 1))
      (hput : s.eventQueue.putNow ⟨.shutdown, 0⟩ = some q) :
      CallerMoves s { s with eventQueue := q, caller := .shutdown left }
  | shutdownDone (hc : s.caller = .shutdown 0) : CallerMoves s { s with caller := .numThreadsSet 0 }
  | create {n : ℕ} {new : List (DispatchThread H)} (hc : s.caller = .locked n)
      (hlt : s.threads.length ≤ n) (hnew : new = [] ∨ s.flag1 = true ∧
        new = List.replicate (n - s.threads.length) (DispatchThread.construct H)) :
      CallerMoves s { s with caller := .unlock, threads := s.threads ++ new }
  | startDelete {n : ℕ} (hc : s.caller = .locked n) (hlt : n < s.threads.length) :
      CallerMoves s { s with caller := .delete (s.threads.length - n) }
  | exitReq {left : ℕ} {t : DispatchThread H} {ts : List (DispatchThread H)}
      (hc : s.caller = .delete (left + 1)) (hthreads : s.threads = ts ++ [t]) :
      CallerMoves s
        { s with caller := .take left, threads := ts ++ [{ t with exitFlag := true }] }
  | deleteDone (hc : s.caller = .delete 0) : CallerMoves s { s with caller := .unlock }
  | take {left : ℕ} {t : DispatchThread H} {ts : List (DispatchThread H)}
      (hc : s.caller = .take left) (hthreads : s.threads = ts ++ [t])
      (hsem : 0 < t.semExit.count) :
      CallerMoves s { s with caller := .delete left, threads := ts }
  | unlock (hc : s.caller = .unlock) :
      CallerMoves s
        { s with
          stackMutex := none
          caller := if s.boundary.isSome then .returned else .idle }

theorem eq_append_of_getLast? {ts : List (DispatchThread H)} (h : ts.getLast? = some t) :
    ts = ts.dropLast ++ [t] := by
  obtain ⟨ys, rfl⟩ := List.getLast?_eq_some_iff.1 h
  rw [List.dropLast_concat]

theorem callerStep_moves (h : s.callerStep = some s') : s.CallerMoves s' := by
  rw [callerStep] at h
  cases hc : s.caller with
  | idle => simp [hc] at h
  | destroy =>
      simp only [hc] at h
      obtain ⟨hfree, h⟩ := Option.ite_none_right_eq_some.1 h
      obtain rfl := Option.some.inj h
      exact .lock hfree (Or.inl ⟨hc, rfl⟩)
  | count =>
      simp only [hc] at h
      obtain rfl := Option.some.inj h
      exact .count hc
  | shutdown left =>
      cases left with
      | zero =>
          simp only [hc] at h
          obtain rfl := Option.some.inj h
          exact .shutdownDone hc
      | succ left =>
          simp only [hc] at h
          obtain ⟨q, hput, rfl⟩ := Option.map_eq_some_iff.1 h
          exact .shutdown hc hput
  | numThreadsSet n =>
      simp only [hc] at h
      obtain ⟨hfree, h⟩ := Option.ite_none_right_eq_some.1 h
      obtain rfl := Option.some.inj h
      exact .lock hfree (Or.inr ⟨n, hc, rfl⟩)
  | locked n =>
      simp only [hc] at h
      have hnone : s.threads.length ≤ n → s.CallerMoves { s with caller := .unlock } := by
        intro hle
        have hcreate := CallerMoves.create hc hle (Or.inl rfl)
        rwa [List.append_nil] at hcreate
      split_ifs at h with hlt hflag hgt
      · obtain rfl := Option.some.inj h
        exact .create hc (by omega) (Or.inr ⟨hflag, rfl⟩)
      · obtain rfl := Option.some.inj h
        exact hnone (by omega)
      · obtain rfl := Option.some.inj h
        exact .startDelete hc hgt
      · obtain rfl := Option.some.inj h
        exact hnone (by omega)
  | delete left =>
      cases left with
      | zero =>
          simp only [hc] at h
          obtain rfl := Option.some.inj h
          exact .deleteDone hc
      | succ left =>
          simp only [hc] at h
          obtain ⟨t, hlast, rfl⟩ := Option.map_eq_some_iff.1 h
          exact .exitReq hc (eq_append_of_getLast? hlast)
  | take left =>
      simp only [hc] at h
      obtain ⟨t, hlast, h⟩ := Option.bind_eq_some_iff.1 h
      obtain ⟨sem, htake, rfl⟩ := Option.map_eq_some_iff.1 h
      have hcount := (SemLite.take_eq_some.1 htake).1
      exact .take hc (eq_append_of_getLast? hlast) (by omega)
  | unlock =>
      simp only [hc] at h
      obtain rfl := Option.some.inj h
      exact .unlock hc
  | returned => simp [hc] at h

/-- **What a step of anybody can do.** -/
inductive Moves (s : DispatchState H) : DispatchOp → DispatchState H → Prop
  | submitEvent {q : ItcQueue DispatchEvent}
      (hput : s.eventQueue.putNow ⟨.newEvent, s.accepted⟩ = some q) :
      Moves s .submitEvent { s with eventQueue := q, accepted := s.accepted + 1 }
  | submitTimeout : Moves s .submitTimeout s
  | thread {i : ℕ} {t : DispatchThread H} {s' : DispatchState H} (ht : s.threads[i]? = some t)
      (hmove : s.ThreadMoves i t s') : Moves s (.thread i) s'
  | getTimeout {i : ℕ} {t : DispatchThread H} (ht : s.threads[i]? = some t) (hpc : t.pc = .get) :
      Moves s (.getTimeout i) (s.threadSet i { t with pc := .poll })
  | caller {s' : DispatchState H} (hmove : s.CallerMoves s') : Moves s .caller s'
  | shutdownTimeout {left : ℕ} (hc : s.caller = .shutdown (left + 1)) :
      Moves s .shutdownTimeout { s with caller := .shutdown left }
  | numThreadsSet {n : ℕ} (hc : s.caller = .idle) :
      Moves s (.numThreadsSet n) { s with caller := .numThreadsSet n }
  | destroy (hc : s.caller = .idle) :
      Moves s .destroy { s with caller := .destroy, boundary := some s.accepted }

theorem dispatchStep_moves {op : DispatchOp} {a : Option Bool}
    (h : dispatchStep s op = some (a, s')) : s.Moves op s' := by
  cases op with
  | submitEvent =>
      obtain ⟨q, hput, heq⟩ := Option.map_eq_some_iff.1 h
      obtain ⟨-, rfl⟩ := Prod.mk.inj heq
      exact .submitEvent hput
  | submitTimeout =>
      obtain ⟨-, rfl⟩ := Prod.mk.inj (Option.some.inj h)
      exact .submitTimeout
  | thread i =>
      obtain ⟨t, ht, h⟩ := Option.bind_eq_some_iff.1 h
      obtain ⟨s₁, hstep, heq⟩ := Option.map_eq_some_iff.1 h
      obtain ⟨-, rfl⟩ := Prod.mk.inj heq
      exact .thread ht (threadStep_moves hstep)
  | getTimeout i =>
      obtain ⟨t, ht, h⟩ := Option.bind_eq_some_iff.1 h
      split at h
      · obtain ⟨-, rfl⟩ := Prod.mk.inj (Option.some.inj h)
        exact .getTimeout ht ‹_›
      · cases h
  | caller =>
      obtain ⟨s₁, hstep, heq⟩ := Option.map_eq_some_iff.1 h
      obtain ⟨-, rfl⟩ := Prod.mk.inj heq
      exact .caller (callerStep_moves hstep)
  | shutdownTimeout =>
      rw [dispatchStep] at h
      split at h
      · obtain ⟨-, rfl⟩ := Prod.mk.inj (Option.some.inj h)
        exact .shutdownTimeout ‹_›
      · cases h
  | numThreadsSet n =>
      obtain ⟨hc, h⟩ := Option.ite_none_right_eq_some.1 h
      obtain ⟨-, rfl⟩ := Prod.mk.inj (Option.some.inj h)
      exact .numThreadsSet hc
  | destroy =>
      obtain ⟨hc, h⟩ := Option.ite_none_right_eq_some.1 h
      obtain ⟨-, rfl⟩ := Prod.mk.inj (Option.some.inj h)
      exact .destroy hc

end DispatchState

end CodePort
