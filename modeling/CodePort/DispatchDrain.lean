/-
The events at shutdown.

A thread that has taken an event runs all handlers for it before it looks at its exit flag again, so
an event can only get lost in the queue.  The shutdown signals lie behind the events there, but the
destructor of a thread sets the exit flag, and a thread looks at that before it looks into the
queue.

Main definitions:

* `CodePort.DispatchState.handled` — the handlers that have been run for an event;
* `CodePort.DispatchState.Tracked` — every accepted event is in the queue, with one thread, or done;
* `CodePort.DispatchState.Served` — somebody is left to take the events that the destructor found;
* `CodePort.DispatchState.Drains` — a step in which not the last thread leaves such an event behind.

Main results:

* `CodePort.DispatchState.Tracked.step` — **no event is lost on its way, or handled twice**;
* `CodePort.dispatch_drains` — **when every accepted event is handled.**
-/

import CodePort.Dispatch

set_option relaxedAutoImplicit false
set_option autoImplicit false

namespace CodePort

open StepSystem

variable {H : Type}

/-- The event that a thread works on. -/
def ThreadPc.current : ThreadPc H → Option ℕ
  | .preDispatch e => some e
  | .lock e => some e
  | .copy e => some e
  | .handlers e _ => some e
  | _ => none

/-- The thread has not left its loop. -/
def ThreadPc.Inside : ThreadPc H → Prop
  | .exit => False
  | .exited => False
  | .done => False
  | _ => True

/-- The number of a new event. -/
def DispatchEvent.number (ev : DispatchEvent) : Option ℕ :=
  if ev.opCode = .newEvent then some ev.pEvent else none

namespace DispatchState

/-- The new events in the queue. -/
def queued (s : DispatchState H) : List ℕ := s.eventQueue.queue.filterMap DispatchEvent.number

/-- The handlers that have been run for an event, in order. -/
def handled (s : DispatchState H) (e : ℕ) : List H :=
  s.calls.filterMap fun c => if c.1 = e then some c.2 else none

/-- The handlers that are to be run for an event, in order. -/
def expected (s : DispatchState H) : List H :=
  s.preDispatch.toList ++ (s.handlers ++ s.postDispatch.toList)

/-- The handlers that a thread is still going to run for its event. -/
def rest (s : DispatchState H) : ThreadPc H → List H
  | .preDispatch _ => s.expected
  | .lock _ => s.handlers ++ s.postDispatch.toList
  | .copy _ => s.handlers ++ s.postDispatch.toList
  | .handlers _ rest => rest ++ s.postDispatch.toList
  | _ => []

/-- Thread `i` works on the event. -/
def Works (s : DispatchState H) (i e : ℕ) : Prop :=
  ∃ t, s.threads[i]? = some t ∧ t.pc.current = some e

/-- **Every accepted event is in the queue, with one thread, or done.** -/
structure Tracked (s : DispatchState H) : Prop where
  queued_lt : ∀ e ∈ s.queued, e < s.accepted
  queued_nodup : s.queued.Nodup
  queued_handled : ∀ e ∈ s.queued, s.handled e = []
  works_lt : ∀ i e, s.Works i e → e < s.accepted
  works_notMem : ∀ i e, s.Works i e → e ∉ s.queued
  works_inj : ∀ i j e, s.Works i e → s.Works j e → i = j
  works_handled : ∀ (i : ℕ) (t : DispatchThread H) (e : ℕ), s.threads[i]? = some t →
    t.pc.current = some e → s.handled e ++ s.rest t.pc = s.expected
  done : ∀ e < s.accepted, e ∉ s.queued → (∀ i, ¬ s.Works i e) → s.handled e = s.expected
  future : ∀ e, s.accepted ≤ e → s.handled e = []

variable {s s' : DispatchState H} {i : ℕ} {t t' : DispatchThread H}

theorem handled_call (s : DispatchState H) (e : ℕ) (h : Option H) (e' : ℕ) :
    (s.call e h).handled e' = s.handled e' ++ if e = e' then h.toList else [] := by
  rw [handled, call, List.filterMap_append, handled]
  cases h with
  | none => simp
  | some hd =>
      split_ifs with heq <;> simp [heq]

theorem call_none (s : DispatchState H) (e : ℕ) : s.call e none = s := by
  rw [call, Option.toList_none, List.map_nil, List.append_nil]

/-- The threads after one of them has been written. -/
theorem getElem?_threadSet {j : ℕ} {u : DispatchThread H}
    (h : (s.threadSet i t).threads[j]? = some u) :
    j = i ∧ u = t ∨ j ≠ i ∧ s.threads[j]? = some u := by
  rw [threadSet] at h
  by_cases hij : i = j
  · subst hij
    have hlt : i < s.threads.length := by
      rw [← List.length_set]
      exact (List.getElem?_eq_some_iff.1 h).1
    rw [List.getElem?_set_self hlt] at h
    exact Or.inl ⟨rfl, (Option.some.inj h).symm⟩
  · rw [List.getElem?_set_ne hij] at h
    exact Or.inr ⟨Ne.symm hij, h⟩

theorem works_threadSet_of_ne {j e : ℕ} (hij : j ≠ i) :
    (s.threadSet i t).Works j e ↔ s.Works j e := by
  rw [Works, Works, threadSet, List.getElem?_set_ne (Ne.symm hij)]

theorem works_threadSet_self {e : ℕ} (ht : s.threads[i]? = some t) :
    (s.threadSet i t').Works i e ↔ t'.pc.current = some e := by
  have hlt := (List.getElem?_eq_some_iff.1 ht).1
  rw [Works, threadSet, List.getElem?_set_self hlt]
  simp

/-- What the events have to do with the state. -/
structure SameEvents (s s' : DispatchState H) : Prop where
  queued_eq : s'.queued = s.queued
  accepted_eq : s'.accepted = s.accepted
  calls_eq : s'.calls = s.calls
  preDispatch_eq : s'.preDispatch = s.preDispatch
  postDispatch_eq : s'.postDispatch = s.postDispatch
  handlers_eq : s'.handlers = s.handlers

theorem SameEvents.rest_eq (h : s.SameEvents s') (pc : ThreadPc H) : s'.rest pc = s.rest pc := by
  cases pc <;> simp only [rest, expected, h.preDispatch_eq, h.postDispatch_eq, h.handlers_eq]

theorem SameEvents.expected_eq (h : s.SameEvents s') : s'.expected = s.expected := by
  rw [expected, h.preDispatch_eq, h.postDispatch_eq, h.handlers_eq, expected]

theorem SameEvents.handled_eq (h : s.SameEvents s') (e : ℕ) : s'.handled e = s.handled e := by
  rw [handled, h.calls_eq, handled]

/-- Nothing happens to the events when the threads that work keep to their work. -/
theorem Tracked.of_works (h : s.Tracked) (hsame : s.SameEvents s')
    (hback : ∀ (j : ℕ) (u : DispatchThread H) (e : ℕ), s'.threads[j]? = some u →
      u.pc.current = some e → ∃ v, s.threads[j]? = some v ∧ v.pc = u.pc)
    (hforth : ∀ j e, s.Works j e → s'.Works j e) : s'.Tracked := by
  have hworks : ∀ j e, s'.Works j e → s.Works j e := by
    rintro j e ⟨u, hu, he⟩
    obtain ⟨v, hv, hpc⟩ := hback j u e hu he
    exact ⟨v, hv, hpc ▸ he⟩
  constructor
  · rw [hsame.queued_eq, hsame.accepted_eq]
    exact h.queued_lt
  · rw [hsame.queued_eq]
    exact h.queued_nodup
  · intro e he
    rw [hsame.handled_eq]
    exact h.queued_handled e (hsame.queued_eq ▸ he)
  · intro j e he
    rw [hsame.accepted_eq]
    exact h.works_lt j e (hworks j e he)
  · intro j e he
    rw [hsame.queued_eq]
    exact h.works_notMem j e (hworks j e he)
  · intro j k e hj hk
    exact h.works_inj j k e (hworks j e hj) (hworks k e hk)
  · intro j u e hu he
    obtain ⟨v, hv, hpc⟩ := hback j u e hu he
    rw [hsame.handled_eq, hsame.rest_eq, hsame.expected_eq, ← hpc]
    exact h.works_handled j v e hv (hpc ▸ he)
  · intro e he hmem hnot
    rw [hsame.accepted_eq] at he
    rw [hsame.queued_eq] at hmem
    rw [hsame.handled_eq, hsame.expected_eq]
    exact h.done e he hmem fun j hj => hnot j (hforth j e hj)
  · intro e he
    rw [hsame.accepted_eq] at he
    rw [hsame.handled_eq]
    exact h.future e he

/-- A thread without an event goes on without one. -/
theorem Tracked.threadSet_idle (h : s.Tracked) (ht : s.threads[i]? = some t)
    (hold : t.pc.current = none) (hnew : t'.pc.current = none) : (s.threadSet i t').Tracked := by
  refine h.of_works ⟨rfl, rfl, rfl, rfl, rfl, rfl⟩ ?_ ?_
  · intro j u e hu he
    rcases getElem?_threadSet hu with ⟨-, rfl⟩ | ⟨-, hu⟩
    · rw [hnew] at he
      cases he
    · exact ⟨u, hu, rfl⟩
  · rintro j e hj
    have hji : j ≠ i := by
      rintro rfl
      obtain ⟨v, hv, he⟩ := hj
      rw [ht] at hv
      cases hv
      rw [hold] at he
      cases he
    exact (works_threadSet_of_ne hji).2 hj

/-- **A thread runs a handler**, or none, for its event and goes on with the rest. -/
theorem Tracked.run (h : s.Tracked) {e : ℕ} {hd : Option H} (ht : s.threads[i]? = some t)
    (hold : t.pc.current = some e) (hnew : t'.pc.current = some e ∨ t'.pc.current = none)
    (hrest : s.rest t.pc = hd.toList ++ s.rest t'.pc)
    (hlast : t'.pc.current = none → s.rest t'.pc = []) :
    ((s.call e hd).threadSet i t').Tracked := by
  have hi : s.Works i e := ⟨t, ht, hold⟩
  have hhandled : ∀ e', ((s.call e hd).threadSet i t').handled e' =
      s.handled e' ++ if e = e' then hd.toList else [] := handled_call s e hd
  have hother : ∀ e', e ≠ e' → ((s.call e hd).threadSet i t').handled e' = s.handled e' := by
    intro e' hne
    rw [hhandled, if_neg hne, List.append_nil]
  have hself : ∀ e', ((s.call e hd).threadSet i t').Works i e' ↔ t'.pc.current = some e' :=
    fun e' => works_threadSet_self (s := s.call e hd) ht
  have hworks : ∀ j e', ((s.call e hd).threadSet i t').Works j e' → s.Works j e' := by
    intro j e' hj
    by_cases hji : j = i
    · subst hji
      rw [hself] at hj
      rcases hnew with hnew | hnew
      · obtain rfl := Option.some.inj (hnew.symm.trans hj)
        exact hi
      · cases hnew.symm.trans hj
    · exact (works_threadSet_of_ne (s := s.call e hd) hji).1 hj
  constructor
  · exact h.queued_lt
  · exact h.queued_nodup
  · intro e' he'
    have hne : e ≠ e' := fun heq => h.works_notMem i e hi (heq ▸ he')
    rw [hother e' hne]
    exact h.queued_handled e' he'
  · exact fun j e' hj => h.works_lt j e' (hworks j e' hj)
  · exact fun j e' hj => h.works_notMem j e' (hworks j e' hj)
  · exact fun j k e' hj hk => h.works_inj j k e' (hworks j e' hj) (hworks k e' hk)
  · intro j u e' hu he'
    rcases getElem?_threadSet hu with ⟨-, rfl⟩ | ⟨hji, hu⟩
    · obtain rfl : e = e' := by
        rcases hnew with hnew | hnew
        · exact Option.some.inj (hnew.symm.trans he')
        · cases hnew.symm.trans he'
      rw [hhandled, if_pos rfl, List.append_assoc]
      have hsame : hd.toList ++ ((s.call e hd).threadSet i u).rest u.pc = s.rest t.pc := hrest.symm
      rw [hsame]
      exact h.works_handled i t e ht hold
    · have hne : e ≠ e' := fun heq => hji (h.works_inj j i e ⟨u, hu, heq ▸ he'⟩ hi)
      rw [hother e' hne]
      exact h.works_handled j u e' hu he'
  · intro e' he' hmem hnot
    by_cases hee : e = e'
    · subst hee
      have hnone : t'.pc.current = none := by
        rcases hnew with hnew | hnew
        · exact absurd ((hself e).2 hnew) (hnot i)
        · exact hnew
      rw [hhandled, if_pos rfl]
      have hall := h.works_handled i t e ht hold
      rw [hrest, hlast hnone, List.append_nil] at hall
      exact hall
    · rw [hother e' hee]
      refine h.done e' he' hmem fun j hj => hnot j ?_
      have hji : j ≠ i := by
        rintro rfl
        obtain ⟨v, hv, hcur⟩ := hj
        rw [ht] at hv
        cases hv
        exact hee (Option.some.inj (hold.symm.trans hcur))
      exact (works_threadSet_of_ne (s := s.call e hd) hji).2 hj
  · intro e' he'
    have hne : e ≠ e' := by
      rintro rfl
      exact absurd (h.works_lt i e hi) (Nat.not_lt.2 he')
    rw [hother e' hne]
    exact h.future e' he'

/-- **A thread takes an event** from the queue. -/
theorem Tracked.newEvent (h : s.Tracked) {e : ℕ} {q : ItcQueue DispatchEvent}
    (ht : s.threads[i]? = some t) (hold : t.pc.current = none)
    (hget : s.eventQueue.getNow = some (⟨.newEvent, e⟩, q)) :
    ({ s with eventQueue := q }.threadSet i { t with pc := .preDispatch e }).Tracked := by
  set s₁ := { s with eventQueue := q }.threadSet i { t with pc := .preDispatch e } with hs₁
  have hqueued : s.queued = e :: s₁.queued := by
    rw [queued, ItcQueue.queue_getNow hget]
    rfl
  have hmem : e ∈ s.queued := hqueued ▸ List.mem_cons_self
  have hsub : ∀ e' ∈ s₁.queued, e' ∈ s.queued := fun e' he' => hqueued ▸ List.mem_cons_of_mem e he'
  obtain ⟨hnotMem, hnodup⟩ := List.nodup_cons.1 (hqueued ▸ h.queued_nodup)
  have hself : ∀ e', s₁.Works i e' ↔ e = e' := by
    intro e'
    rw [hs₁, works_threadSet_self (s := { s with eventQueue := q }) ht]
    exact Option.some_inj
  have hne : ∀ j e', j ≠ i → (s₁.Works j e' ↔ s.Works j e') := fun j e' hji =>
    works_threadSet_of_ne (s := { s with eventQueue := q }) hji
  -- nobody has worked on the event before
  have hnobody : ∀ j, ¬ s.Works j e := fun j hj => h.works_notMem j e hj hmem
  constructor
  · exact fun e' he' => h.queued_lt e' (hsub e' he')
  · exact hnodup
  · exact fun e' he' => h.queued_handled e' (hsub e' he')
  · intro j e' hj
    by_cases hji : j = i
    · rw [hji, hself] at hj
      exact hj ▸ h.queued_lt e hmem
    · exact h.works_lt j e' ((hne j e' hji).1 hj)
  · intro j e' hj
    by_cases hji : j = i
    · rw [hji, hself] at hj
      exact hj ▸ hnotMem
    · exact fun he' => h.works_notMem j e' ((hne j e' hji).1 hj) (hsub e' he')
  · intro j k e' hj hk
    by_cases hji : j = i
    · by_cases hki : k = i
      · rw [hji, hki]
      · rw [hji, hself] at hj
        exact absurd (hj ▸ (hne k e' hki).1 hk) (hnobody k)
    · by_cases hki : k = i
      · rw [hki, hself] at hk
        exact absurd (hk ▸ (hne j e' hji).1 hj) (hnobody j)
      · exact h.works_inj j k e' ((hne j e' hji).1 hj) ((hne k e' hki).1 hk)
  · intro j u e' hu he'
    rcases getElem?_threadSet hu with ⟨-, rfl⟩ | ⟨hji, hu⟩
    · obtain rfl := Option.some.inj he'
      have hnone : s₁.handled e = [] := h.queued_handled e hmem
      rw [hnone]
      rfl
    · exact h.works_handled j u e' hu he'
  · intro e' he' hmem' hnot
    have hee : e ≠ e' := fun heq => hnot i ((hself e').2 heq)
    refine h.done e' he' ?_ fun j hj => hnot j ?_
    · rw [hqueued]
      exact fun hcons => (List.mem_cons.1 hcons).elim (fun heq => hee heq.symm) hmem'
    · have hji : j ≠ i := by
        rintro rfl
        obtain ⟨v, hv, hcur⟩ := hj
        rw [ht] at hv
        cases hv
        cases hold.symm.trans hcur
      exact (hne j e' hji).2 hj
  · exact h.future

/-- **An event is accepted.** -/
theorem Tracked.submitEvent (h : s.Tracked) {q : ItcQueue DispatchEvent}
    (hput : s.eventQueue.putNow ⟨.newEvent, s.accepted⟩ = some q) :
    ({ s with eventQueue := q, accepted := s.accepted + 1 } : DispatchState H).Tracked := by
  set s₁ : DispatchState H := { s with eventQueue := q, accepted := s.accepted + 1 } with hs₁
  have hqueued : s₁.queued = s.queued ++ [s.accepted] := by
    rw [queued, hs₁, ItcQueue.queue_putNow hput, List.filterMap_append]
    rfl
  have hmem : ∀ e, e ∈ s₁.queued ↔ e ∈ s.queued ∨ e = s.accepted := by
    intro e
    rw [hqueued, List.mem_append, List.mem_singleton]
  constructor
  · intro e he
    rcases (hmem e).1 he with he | rfl
    · exact Nat.lt_succ_of_lt (h.queued_lt e he)
    · exact Nat.lt_succ_self _
  · rw [hqueued]
    refine List.nodup_append.2 ⟨h.queued_nodup, List.pairwise_singleton _ _, ?_⟩
    rintro e he _ hmem' rfl
    exact absurd (h.queued_lt e he) (List.mem_singleton.1 hmem' ▸ Nat.lt_irrefl _)
  · intro e he
    rcases (hmem e).1 he with he | rfl
    · exact h.queued_handled e he
    · exact h.future _ (Nat.le_refl _)
  · exact fun j e hj => Nat.lt_succ_of_lt (h.works_lt j e hj)
  · intro j e hj he
    rcases (hmem e).1 he with he | rfl
    · exact h.works_notMem j e hj he
    · exact absurd (h.works_lt j _ hj) (Nat.lt_irrefl _)
  · exact h.works_inj
  · exact h.works_handled
  · intro e he hnotMem hnot
    have hne : e ≠ s.accepted := fun heq => hnotMem ((hmem e).2 (Or.inr heq))
    exact h.done e (by have : e < s.accepted + 1 := he; omega)
      (fun hin => hnotMem ((hmem e).2 (Or.inl hin))) hnot
  · intro e he
    exact h.future e (Nat.le_of_succ_le he)

/-- The exit semaphore of a thread is given when the thread has left its loop. -/
def Awaited (s : DispatchState H) : Prop :=
  ∀ t ∈ s.threads, 0 < t.semExit.count → ¬ t.pc.Inside

theorem inside_of_current {pc : ThreadPc H} {e : ℕ} (h : pc.current = some e) : pc.Inside := by
  cases pc <;> trivial

theorem Awaited.threadSet (h : s.Awaited)
    (ht' : 0 < t'.semExit.count → ¬ t'.pc.Inside) : (s.threadSet i t').Awaited := by
  intro u hu
  rcases List.mem_or_eq_of_mem_set hu with hu | rfl
  · exact h u hu
  · exact ht'

theorem Awaited.step {op : DispatchOp} (h : s.Awaited) (hmove : s.Moves op s') : s'.Awaited := by
  cases hmove with
  | submitEvent hput => exact h
  | submitTimeout => exact h
  | @thread i t _ ht hmove =>
      have hold : ∀ {pc : ThreadPc H}, t.pc = pc → pc.Inside → ¬ 0 < t.semExit.count :=
        fun hpc hin hsem => h t (List.mem_of_getElem? ht) hsem (hpc ▸ hin)
      cases hmove with
      | enter hpc hflag => exact h.threadSet fun hsem => absurd hsem (hold hpc trivial)
      | look hpc hflag => exact h.threadSet fun hsem => absurd hsem (hold hpc trivial)
      | leave hpc hflag => exact h.threadSet fun _ => id
      | newEvent hpc hget =>
          exact Awaited.threadSet (s := { s with eventQueue := _ }) h
            fun hsem => absurd hsem (hold hpc trivial)
      | shutdown hpc hget =>
          exact Awaited.threadSet (s := { s with eventQueue := _ }) h
            fun hsem => absurd hsem (hold hpc trivial)
      | noOp hpc hget =>
          exact Awaited.threadSet (s := { s with eventQueue := _ }) h
            fun hsem => absurd hsem (hold hpc trivial)
      | preDispatch hpc =>
          exact Awaited.threadSet (s := s.call _ _) h fun hsem => absurd hsem (hold hpc trivial)
      | lock hpc hfree =>
          exact Awaited.threadSet (s := { s with stackMutex := _ }) h
            fun hsem => absurd hsem (hold hpc trivial)
      | copy hpc =>
          exact Awaited.threadSet (s := { s with stackMutex := _ }) h
            fun hsem => absurd hsem (hold hpc trivial)
      | handler hpc =>
          exact Awaited.threadSet (s := s.call _ _) h fun hsem => absurd hsem (hold hpc trivial)
      | postDispatch hpc =>
          exact Awaited.threadSet (s := s.call _ _) h fun hsem => absurd hsem (hold hpc trivial)
      | give hpc => exact h.threadSet fun _ => id
      | giveAgain hpc => exact h.threadSet fun _ => id
  | @getTimeout i t ht hpc =>
      exact h.threadSet fun hsem => absurd (hpc ▸ trivial) (h t (List.mem_of_getElem? ht) hsem)
  | caller hmove =>
      cases hmove with
      | lock hfree hnext => exact h
      | count hc => exact h
      | shutdown hc hput => exact h
      | shutdownDone hc => exact h
      | create hc hlt hnew =>
          intro u hu
          rcases List.mem_append.1 hu with hu | hu
          · exact h u hu
          · rcases hnew with rfl | ⟨-, rfl⟩
            · cases hu
            · rw [(List.mem_replicate.1 hu).2]
              exact fun hsem => absurd hsem (Nat.lt_irrefl 0)
      | startDelete hc hlt => exact h
      | @exitReq left t ts hc hthreads =>
          intro u hu
          have hold : ∀ v ∈ ts ++ [t], 0 < v.semExit.count → ¬ v.pc.Inside := hthreads ▸ h
          rcases List.mem_append.1 hu with hu | hu
          · exact hold u (List.mem_append_left _ hu)
          · obtain rfl := List.mem_singleton.1 hu
            exact hold t (List.mem_append_right ts List.mem_cons_self)
      | deleteDone hc => exact h
      | @take left t ts hc hthreads hsem =>
          intro u hu
          exact h u (hthreads ▸ List.mem_append_left [t] hu)
      | unlock hc => exact h
  | shutdownTimeout hc => exact h
  | numThreadsSet hc => exact h
  | destroy hc => exact h

/-- A step of a thread keeps track of the events. -/
theorem Tracked.threadMoves (h : s.Tracked) (ht : s.threads[i]? = some t)
    (hmove : s.ThreadMoves i t s') : s'.Tracked := by
  have hother : ∀ {ev : DispatchEvent} {q : ItcQueue DispatchEvent},
      s.eventQueue.getNow = some (ev, q) → ev.number = none →
      ({ s with eventQueue := q } : DispatchState H).Tracked := by
    intro ev q hget hnone
    refine h.of_works ⟨?_, rfl, rfl, rfl, rfl, rfl⟩ (fun j u e hu _ => ⟨u, hu, rfl⟩) fun _ _ => id
    rw [queued, queued, ItcQueue.queue_getNow hget, List.filterMap_cons_none hnone]
  cases hmove with
  | enter hpc hflag => exact h.threadSet_idle ht (by rw [hpc]; rfl) rfl
  | look hpc hflag => exact h.threadSet_idle ht (by rw [hpc]; rfl) rfl
  | leave hpc hflag =>
      rcases hpc with hpc | hpc
      · exact h.threadSet_idle ht (by rw [hpc]; rfl) rfl
      · exact h.threadSet_idle ht (by rw [hpc]; rfl) rfl
  | newEvent hpc hget => exact h.newEvent ht (by rw [hpc]; rfl) hget
  | shutdown hpc hget => exact (hother hget rfl).threadSet_idle ht (by rw [hpc]; rfl) rfl
  | noOp hpc hget => exact (hother hget rfl).threadSet_idle ht (by rw [hpc]; rfl) rfl
  | preDispatch hpc =>
      exact h.run ht (by rw [hpc]; rfl) (Or.inl rfl) (by rw [hpc]; rfl) fun hnone => nomatch hnone
  | @lock e hpc hfree =>
      have hrun : ((s.call e none).threadSet i { t with pc := .copy e }).Tracked :=
        h.run ht (by rw [hpc]; rfl) (Or.inl rfl) (by rw [hpc]; rfl) fun hnone => nomatch hnone
      rw [call_none] at hrun
      exact hrun.of_works ⟨rfl, rfl, rfl, rfl, rfl, rfl⟩ (fun j u e hu _ => ⟨u, hu, rfl⟩) fun _ _ => id
  | @copy e hpc =>
      have hrun : ((s.call e none).threadSet i { t with pc := .handlers e s.handlers }).Tracked :=
        h.run ht (by rw [hpc]; rfl) (Or.inl rfl) (by rw [hpc]; rfl) fun hnone => nomatch hnone
      rw [call_none] at hrun
      exact hrun.of_works ⟨rfl, rfl, rfl, rfl, rfl, rfl⟩ (fun j u e hu _ => ⟨u, hu, rfl⟩) fun _ _ => id
  | @handler e hd rest hpc =>
      exact h.run ht (by rw [hpc]; rfl) (Or.inl rfl) (by rw [hpc]; rfl) fun hnone => nomatch hnone
  | postDispatch hpc =>
      exact h.run ht (by rw [hpc]; rfl) (Or.inr rfl) (by rw [hpc]; simp [rest]) fun _ => rfl
  | give hpc => exact h.threadSet_idle ht (by rw [hpc]; rfl) rfl
  | giveAgain hpc => exact h.threadSet_idle ht (by rw [hpc]; rfl) rfl

/-- A step of the caller keeps track of the events. -/
theorem Tracked.callerMoves (h : s.Tracked) (hsem : s.Awaited) (hmove : s.CallerMoves s') :
    s'.Tracked := by
  -- the caller mostly sees to itself
  have hsame : ∀ {v : DispatchState H}, s.SameEvents v → v.threads = s.threads → v.Tracked :=
    fun hv hthreads => h.of_works hv (fun j u e hu _ => ⟨u, hthreads ▸ hu, rfl⟩)
      fun j e ⟨u, hu, he⟩ => ⟨u, hthreads ▸ hu, he⟩
  cases hmove with
  | lock hfree hnext => exact hsame ⟨rfl, rfl, rfl, rfl, rfl, rfl⟩ rfl
  | count hc => exact hsame ⟨rfl, rfl, rfl, rfl, rfl, rfl⟩ rfl
  | shutdown hc hput =>
      refine hsame ⟨?_, rfl, rfl, rfl, rfl, rfl⟩ rfl
      rw [queued, queued, ItcQueue.queue_putNow hput, List.filterMap_append]
      exact List.append_nil _
  | shutdownDone hc => exact hsame ⟨rfl, rfl, rfl, rfl, rfl, rfl⟩ rfl
  | create hc hlt hnew =>
      refine h.of_works ⟨rfl, rfl, rfl, rfl, rfl, rfl⟩ ?_ ?_
      · -- a new thread works on nothing
        intro j u e hu he
        rw [List.getElem?_append] at hu
        split_ifs at hu with hlt
        · exact ⟨u, hu, rfl⟩
        · have hmem := List.mem_of_getElem? hu
          rcases hnew with rfl | ⟨-, rfl⟩
          · cases hmem
          · rw [(List.mem_replicate.1 hmem).2] at he
            cases he
      · rintro j e ⟨u, hu, he⟩
        refine ⟨u, ?_, he⟩
        rw [List.getElem?_append_left (List.getElem?_eq_some_iff.1 hu).1]
        exact hu
  | startDelete hc hlt => exact hsame ⟨rfl, rfl, rfl, rfl, rfl, rfl⟩ rfl
  | @exitReq left t ts hc hthreads =>
      refine h.of_works ⟨rfl, rfl, rfl, rfl, rfl, rfl⟩ ?_ ?_
      · intro j u e hu he
        rcases getElem?_concat_eq_some.1 hu with hu | ⟨hj, rfl⟩
        · exact ⟨u, hthreads ▸ getElem?_concat_eq_some.2 (Or.inl hu), rfl⟩
        · exact ⟨t, hthreads ▸ getElem?_concat_eq_some.2 (Or.inr ⟨hj, rfl⟩), rfl⟩
      · rintro j e ⟨u, hu, he⟩
        rw [hthreads] at hu
        rcases getElem?_concat_eq_some.1 hu with hu | ⟨hj, rfl⟩
        · exact ⟨u, getElem?_concat_eq_some.2 (Or.inl hu), he⟩
        · exact ⟨_, getElem?_concat_eq_some.2 (Or.inr ⟨hj, rfl⟩), he⟩
  | deleteDone hc => exact hsame ⟨rfl, rfl, rfl, rfl, rfl, rfl⟩ rfl
  | @take left t ts hc hthreads hcount =>
      refine h.of_works ⟨rfl, rfl, rfl, rfl, rfl, rfl⟩ ?_ ?_
      · intro j u e hu he
        exact ⟨u, hthreads ▸ getElem?_concat_eq_some.2 (Or.inl hu), rfl⟩
      · -- the thread that goes away has left its loop
        rintro j e ⟨u, hu, he⟩
        rw [hthreads] at hu
        rcases getElem?_concat_eq_some.1 hu with hu | ⟨-, rfl⟩
        · exact ⟨u, hu, he⟩
        · have hmem : u ∈ s.threads := hthreads ▸ List.mem_append_right ts List.mem_cons_self
          exact absurd (inside_of_current he) (hsem u hmem hcount)
  | unlock hc => exact hsame ⟨rfl, rfl, rfl, rfl, rfl, rfl⟩ rfl

/-- **No event is lost on its way, or handled twice.** -/
theorem Tracked.step {op : DispatchOp} (h : s.Tracked) (hsem : s.Awaited) (hmove : s.Moves op s') :
    s'.Tracked := by
  have hsame : ∀ {v : DispatchState H}, s.SameEvents v → v.threads = s.threads → v.Tracked :=
    fun hv hthreads => h.of_works hv (fun j u e hu _ => ⟨u, hthreads ▸ hu, rfl⟩)
      fun j e ⟨u, hu, he⟩ => ⟨u, hthreads ▸ hu, he⟩
  cases hmove with
  | submitEvent hput => exact h.submitEvent hput
  | submitTimeout => exact h
  | thread ht hmove => exact h.threadMoves ht hmove
  | getTimeout ht hpc => exact h.threadSet_idle ht (by rw [hpc]; rfl) rfl
  | caller hmove => exact h.callerMoves hsem hmove
  | shutdownTimeout hc => exact hsame ⟨rfl, rfl, rfl, rfl, rfl, rfl⟩ rfl
  | numThreadsSet hc => exact hsame ⟨rfl, rfl, rfl, rfl, rfl, rfl⟩ rfl
  | destroy hc => exact hsame ⟨rfl, rfl, rfl, rfl, rfl, rfl⟩ rfl

/-! ### Who is left -/

/-- How far the destructor is when there are `n` threads. -/
def Closing (n : ℕ) : CallerPc → Prop
  | .idle => False
  | .numThreadsSet numThreads => numThreads = 0
  | .locked numThreads => numThreads = 0
  | .delete left => left = n
  | .take left => left + 1 = n
  | .unlock => n = 0
  | .returned => n = 0
  | _ => True

/-- **Somebody is left to take the events** that the destructor found. -/
structure Served (s : DispatchState H) : Prop where
  boundary_le : ∀ b, s.boundary = some b → b ≤ s.accepted
  idle : s.boundary = none → s.caller = .idle ∧ s.threads ≠ [] ∧
    (∀ t ∈ s.threads, t.exitFlag = false ∧ t.pc.Inside) ∧
    ∀ ev ∈ s.eventQueue.queue, ev.opCode ≠ .shutdown
  closing : s.boundary ≠ none → Closing s.threads.length s.caller
  served : ∀ b, s.boundary = some b →
    (∃ (i : ℕ) (t : DispatchThread H), s.threads[i]? = some t ∧ t.pc.Inside) ∨
      ∀ e ∈ s.queued, b ≤ e

/-- The step does not leave an event of the destructor in the queue without a thread that is still
in its loop. -/
def Drains (s : DispatchState H) (op : DispatchOp) : Prop :=
  ∀ (i : ℕ) (t : DispatchThread H) (b : ℕ), op = .thread i → s.threads[i]? = some t →
    t.pc = .start ∨ t.pc = .poll → t.exitFlag = true → s.boundary = some b →
      (∃ (j : ℕ) (u : DispatchThread H), j ≠ i ∧ s.threads[j]? = some u ∧ u.pc.Inside) ∨
        ∀ e ∈ s.queued, b ≤ e

/-- What becomes of a thread: it stays in its loop, and if its exit flag changes it has taken a
shutdown event; or it leaves the loop; or it had left it before. -/
theorem ThreadMoves.outcome (hmove : s.ThreadMoves i t s') :
    s'.caller = s.caller ∧ s'.boundary = s.boundary ∧ s'.accepted = s.accepted ∧
      s'.eventQueue.queue ⊆ s.eventQueue.queue ∧ ∃ t', s'.threads = s.threads.set i t' ∧
        (t'.pc.Inside ∧
            (t'.exitFlag = t.exitFlag ∨ ∃ ev ∈ s.eventQueue.queue, ev.opCode = .shutdown) ∨
          (t.pc = .start ∨ t.pc = .poll) ∧ t.exitFlag = true ∨ ¬ t.pc.Inside) := by
  have hpop : ∀ {ev : DispatchEvent} {q : ItcQueue DispatchEvent},
      s.eventQueue.getNow = some (ev, q) → q.queue ⊆ s.eventQueue.queue := fun hget =>
    ItcQueue.queue_getNow hget ▸ List.subset_cons_self _ _
  cases hmove with
  | enter hpc hflag =>
      exact ⟨rfl, rfl, rfl, List.Subset.refl _, _, rfl, Or.inl ⟨trivial, Or.inl rfl⟩⟩
  | look hpc hflag =>
      exact ⟨rfl, rfl, rfl, List.Subset.refl _, _, rfl, Or.inl ⟨trivial, Or.inl rfl⟩⟩
  | leave hpc hflag =>
      exact ⟨rfl, rfl, rfl, List.Subset.refl _, _, rfl, Or.inr (Or.inl ⟨hpc, hflag⟩)⟩
  | newEvent hpc hget =>
      exact ⟨rfl, rfl, rfl, hpop hget, _, rfl, Or.inl ⟨trivial, Or.inl rfl⟩⟩
  | @shutdown hpc e q hget =>
      refine ⟨rfl, rfl, rfl, hpop hget, _, rfl, Or.inl ⟨trivial, Or.inr ⟨⟨.shutdown, e⟩, ?_, rfl⟩⟩⟩
      exact ItcQueue.queue_getNow hget ▸ List.mem_cons_self
  | noOp hpc hget =>
      exact ⟨rfl, rfl, rfl, hpop hget, _, rfl, Or.inl ⟨trivial, Or.inl rfl⟩⟩
  | preDispatch hpc =>
      exact ⟨rfl, rfl, rfl, List.Subset.refl _, _, rfl, Or.inl ⟨trivial, Or.inl rfl⟩⟩
  | lock hpc hfree =>
      exact ⟨rfl, rfl, rfl, List.Subset.refl _, _, rfl, Or.inl ⟨trivial, Or.inl rfl⟩⟩
  | copy hpc =>
      exact ⟨rfl, rfl, rfl, List.Subset.refl _, _, rfl, Or.inl ⟨trivial, Or.inl rfl⟩⟩
  | handler hpc =>
      exact ⟨rfl, rfl, rfl, List.Subset.refl _, _, rfl, Or.inl ⟨trivial, Or.inl rfl⟩⟩
  | postDispatch hpc =>
      exact ⟨rfl, rfl, rfl, List.Subset.refl _, _, rfl, Or.inl ⟨trivial, Or.inl rfl⟩⟩
  | give hpc => exact ⟨rfl, rfl, rfl, List.Subset.refl _, _, rfl, Or.inr (Or.inr (hpc ▸ id))⟩
  | giveAgain hpc => exact ⟨rfl, rfl, rfl, List.Subset.refl _, _, rfl, Or.inr (Or.inr (hpc ▸ id))⟩

/-- A step of a thread leaves somebody to take the events. -/
theorem Served.threadMoves (h : s.Served) (ht : s.threads[i]? = some t)
    (hop : s.Drains (.thread i)) (hmove : s.ThreadMoves i t s') : s'.Served := by
  obtain ⟨hcaller, hboundary, haccepted, hqueue, t', hthreads, hout⟩ := hmove.outcome
  have hlt := (List.getElem?_eq_some_iff.1 ht).1
  have hqueued : ∀ e ∈ s'.queued, e ∈ s.queued := fun e he => by
    obtain ⟨ev, hev, hnumber⟩ := List.mem_filterMap.1 he
    exact List.mem_filterMap.2 ⟨ev, hqueue hev, hnumber⟩
  have hself : s'.threads[i]? = some t' := by
    rw [hthreads]
    exact List.getElem?_set_self hlt
  have hother : ∀ {j : ℕ}, j ≠ i → s'.threads[j]? = s.threads[j]? := fun hj => by
    rw [hthreads]
    exact List.getElem?_set_ne (Ne.symm hj)
  constructor
  · intro b hb
    rw [haccepted]
    exact h.boundary_le b (hboundary ▸ hb)
  · -- before the destructor starts, all threads go on
    intro hnone
    obtain ⟨hidle, hne, hall, hqs⟩ := h.idle (hboundary ▸ hnone)
    obtain ⟨hflag, hin⟩ := hall t (List.mem_of_getElem? ht)
    have ht' : t'.exitFlag = false ∧ t'.pc.Inside := by
      rcases hout with ⟨hin', heq | ⟨ev, hev, hcode⟩⟩ | ⟨-, htrue⟩ | hnot
      · exact ⟨heq.trans hflag, hin'⟩
      · exact absurd hcode (hqs ev hev)
      · cases hflag.symm.trans htrue
      · exact absurd hin hnot
    refine ⟨hcaller.trans hidle, ?_, ?_, fun ev hev => hqs ev (hqueue hev)⟩
    · rw [hthreads]
      exact fun hnil => hne ((List.set_eq_nil_iff _ _).1 hnil)
    · intro u hu
      rw [hthreads] at hu
      rcases List.mem_or_eq_of_mem_set hu with hu | rfl
      · exact hall u hu
      · exact ht'
  · intro hb
    rw [hthreads, List.length_set, hcaller]
    exact h.closing (hboundary ▸ hb)
  · intro b hb
    rw [hboundary] at hb
    rcases h.served b hb with ⟨j, u, hu, hin⟩ | hdone
    · by_cases hji : j = i
      · subst hji
        rw [ht] at hu
        cases hu
        rcases hout with ⟨hin', -⟩ | ⟨hpc, hflag⟩ | hnot
        · exact Or.inl ⟨j, t', hself, hin'⟩
        · -- the thread leaves its loop
          rcases hop j t b rfl ht hpc hflag hb with ⟨k, v, hk, hv, hin'⟩ | hdone
          · exact Or.inl ⟨k, v, (hother hk).trans hv, hin'⟩
          · exact Or.inr fun e he => hdone e (hqueued e he)
        · exact absurd hin hnot
      · exact Or.inl ⟨j, u, (hother hji).trans hu, hin⟩
    · exact Or.inr fun e he => hdone e (hqueued e he)

theorem CallerMoves.ne_idle (hmove : s.CallerMoves s') : s.caller ≠ .idle := by
  intro hidle
  cases hmove with
  | lock hfree hnext =>
      rcases hnext with ⟨hc, -⟩ | ⟨n, hc, -⟩ <;> cases hidle.symm.trans hc
  | count hc => cases hidle.symm.trans hc
  | shutdown hc hput => cases hidle.symm.trans hc
  | shutdownDone hc => cases hidle.symm.trans hc
  | create hc hlt hnew => cases hidle.symm.trans hc
  | startDelete hc hlt => cases hidle.symm.trans hc
  | exitReq hc hthreads => cases hidle.symm.trans hc
  | deleteDone hc => cases hidle.symm.trans hc
  | take hc hthreads hsem => cases hidle.symm.trans hc
  | unlock hc => cases hidle.symm.trans hc

/-- The destructor goes on, and no thread leaves its loop by that. -/
theorem Served.caller (h : s.Served) (hb : s.boundary ≠ none) (hboundary : s'.boundary = s.boundary)
    (haccepted : s'.accepted = s.accepted) (hqueued : s'.queued = s.queued)
    (hclosing : Closing s'.threads.length s'.caller)
    (hinside : ∀ (j : ℕ) (u : DispatchThread H), s.threads[j]? = some u → u.pc.Inside →
      ∃ v, s'.threads[j]? = some v ∧ v.pc.Inside) : s'.Served := by
  constructor
  · rw [hboundary, haccepted]
    exact h.boundary_le
  · exact fun hnone => absurd (hboundary ▸ hnone) hb
  · exact fun _ => hclosing
  · intro b hb'
    rw [hqueued]
    rcases h.served b (hboundary ▸ hb') with ⟨j, u, hu, hin⟩ | hdone
    · obtain ⟨v, hv, hin'⟩ := hinside j u hu hin
      exact Or.inl ⟨j, v, hv, hin'⟩
    · exact Or.inr hdone

/-- A step of the caller leaves somebody to take the events. -/
theorem Served.callerMoves (h : s.Served) (hsem : s.Awaited) (hmove : s.CallerMoves s') :
    s'.Served := by
  have hb : s.boundary ≠ none := fun hnone => hmove.ne_idle (h.idle hnone).1
  have hclosing := h.closing hb
  cases hmove with
  | lock hfree hnext =>
      refine h.caller hb rfl rfl rfl ?_ fun j u hu hin => ⟨u, hu, hin⟩
      rcases hnext with ⟨-, rfl⟩ | ⟨n, hc, rfl⟩
      · trivial
      · rw [hc] at hclosing
        exact hclosing
  | count hc => exact h.caller hb rfl rfl rfl trivial fun j u hu hin => ⟨u, hu, hin⟩
  | shutdown hc hput =>
      refine h.caller hb rfl rfl ?_ trivial fun j u hu hin => ⟨u, hu, hin⟩
      rw [queued, queued, ItcQueue.queue_putNow hput, List.filterMap_append]
      exact List.append_nil _
  | shutdownDone hc => exact h.caller hb rfl rfl rfl rfl fun j u hu hin => ⟨u, hu, hin⟩
  | @create n new hc hlt hnew =>
      -- there are no threads any more, and none are created
      rw [hc] at hclosing
      obtain rfl : n = 0 := hclosing
      refine h.caller hb rfl rfl rfl ?_ fun j u hu hin => ⟨u, ?_, hin⟩
      · have hnil : new = [] := by
          rcases hnew with rfl | ⟨-, rfl⟩
          · rfl
          · rw [Nat.zero_sub]
            rfl
        rw [hnil, List.append_nil]
        exact Nat.le_zero.1 hlt
      · rw [List.getElem?_append_left (List.getElem?_eq_some_iff.1 hu).1]
        exact hu
  | @startDelete n hc hlt =>
      rw [hc] at hclosing
      obtain rfl : n = 0 := hclosing
      exact h.caller hb rfl rfl rfl (Nat.sub_zero _) fun j u hu hin => ⟨u, hu, hin⟩
  | @exitReq left t ts hc hthreads =>
      rw [hc, hthreads] at hclosing
      refine h.caller hb rfl rfl rfl ?_ fun j u hu hin => ?_
      · rw [List.length_append] at hclosing ⊢
        exact hclosing
      · rw [hthreads] at hu
        rcases getElem?_concat_eq_some.1 hu with hu | ⟨hj, rfl⟩
        · exact ⟨u, getElem?_concat_eq_some.2 (Or.inl hu), hin⟩
        · exact ⟨_, getElem?_concat_eq_some.2 (Or.inr ⟨hj, rfl⟩), hin⟩
  | deleteDone hc =>
      rw [hc] at hclosing
      exact h.caller hb rfl rfl rfl hclosing.symm fun j u hu hin => ⟨u, hu, hin⟩
  | @take left t ts hc hthreads hcount =>
      rw [hc, hthreads, List.length_append] at hclosing
      refine h.caller hb rfl rfl rfl (Nat.succ.inj hclosing) fun j u hu hin => ⟨u, ?_, hin⟩
      -- the thread that goes away has left its loop
      rw [hthreads] at hu
      rcases getElem?_concat_eq_some.1 hu with hu | ⟨-, rfl⟩
      · exact hu
      · have hmem : u ∈ s.threads := hthreads ▸ List.mem_append_right ts List.mem_cons_self
        exact absurd hin (hsem u hmem hcount)
  | unlock hc =>
      rw [hc] at hclosing
      refine h.caller hb rfl rfl rfl ?_ fun j u hu hin => ⟨u, hu, hin⟩
      rw [if_pos (Option.isSome_iff_ne_none.2 hb)]
      exact hclosing

/-- **A step that drains leaves somebody to take the events.** -/
theorem Served.step {op : DispatchOp} (h : s.Served) (hsem : s.Awaited) (hop : s.Drains op)
    (hset : ∀ n, op ≠ .numThreadsSet n) (hmove : s.Moves op s') : s'.Served := by
  cases hmove with
  | @submitEvent q hput =>
      have hqueue := ItcQueue.queue_putNow hput
      constructor
      · exact fun b hb => Nat.le_succ_of_le (h.boundary_le b hb)
      · intro hnone
        obtain ⟨hidle, hne, hall, hqs⟩ := h.idle hnone
        refine ⟨hidle, hne, hall, fun ev hev => ?_⟩
        rcases List.mem_append.1 (hqueue ▸ hev) with hev | hev
        · exact hqs ev hev
        · rw [List.mem_singleton.1 hev]
          exact fun heq => nomatch heq
      · exact h.closing
      · intro b hb
        rcases h.served b hb with hin | hdone
        · exact Or.inl hin
        · refine Or.inr fun e he => ?_
          obtain ⟨ev, hev, hnumber⟩ := List.mem_filterMap.1 he
          rcases List.mem_append.1 (hqueue ▸ hev) with hev | hev
          · exact hdone e (List.mem_filterMap.2 ⟨ev, hev, hnumber⟩)
          · rw [List.mem_singleton.1 hev] at hnumber
            obtain rfl := Option.some.inj hnumber
            exact h.boundary_le b hb
  | submitTimeout => exact h
  | thread ht hmove => exact h.threadMoves ht hop hmove
  | @getTimeout i t ht hpc =>
      -- the thread goes back to its poll
      have hin : t.pc.Inside := by
        rw [hpc]
        trivial
      have hlt := (List.getElem?_eq_some_iff.1 ht).1
      constructor
      · exact h.boundary_le
      · intro hnone
        obtain ⟨hidle, hne, hall, hqs⟩ := h.idle hnone
        refine ⟨hidle, fun hnil => hne ((List.set_eq_nil_iff _ _).1 hnil), fun u hu => ?_, hqs⟩
        rcases List.mem_or_eq_of_mem_set hu with hu | rfl
        · exact hall u hu
        · exact ⟨(hall t (List.mem_of_getElem? ht)).1, trivial⟩
      · intro hb
        rw [threadSet, List.length_set]
        exact h.closing hb
      · intro b hb
        rcases h.served b hb with ⟨j, u, hu, hin'⟩ | hdone
        · refine Or.inl ?_
          by_cases hji : j = i
          · exact ⟨i, _, List.getElem?_set_self hlt, trivial⟩
          · exact ⟨j, u, (List.getElem?_set_ne (Ne.symm hji)).trans hu, hin'⟩
        · exact Or.inr hdone
  | caller hmove => exact h.callerMoves hsem hmove
  | shutdownTimeout hc =>
      have hb : s.boundary ≠ none := fun hnone => by cases (h.idle hnone).1.symm.trans hc
      exact h.caller hb rfl rfl rfl trivial fun j u hu hin => ⟨u, hu, hin⟩
  | numThreadsSet hc => exact absurd rfl (hset _)
  | destroy hc =>
      have hnone : s.boundary = none := by
        by_contra hb
        have hclosing := h.closing hb
        rw [hc] at hclosing
        exact hclosing
      obtain ⟨-, hne, hall, -⟩ := h.idle hnone
      constructor
      · exact fun b hb => (Option.some.inj hb).ge
      · exact fun hnone => nomatch hnone
      · exact fun _ => trivial
      · obtain ⟨t, ts, hthreads⟩ := List.exists_cons_of_ne_nil hne
        intro b hb
        refine Or.inl ⟨0, t, ?_, (hall t (hthreads ▸ List.mem_cons_self)).2⟩
        exact (congrArg (·[0]?) hthreads).trans rfl

theorem Moves.expected_eq {op : DispatchOp} (hmove : s.Moves op s') : s'.expected = s.expected := by
  cases hmove with
  | submitEvent hput => rfl
  | submitTimeout => rfl
  | thread ht hmove => cases hmove <;> rfl
  | getTimeout ht hpc => rfl
  | caller hmove => cases hmove <;> rfl
  | shutdownTimeout hc => rfl
  | numThreadsSet hc => rfl
  | destroy hc => rfl

/-! ### From the constructor on -/

variable (numThreads depth : ℕ) (preDispatch postDispatch : Option H) (handlers : List H)

theorem tracked_construct :
    (construct numThreads depth preDispatch postDispatch handlers).Tracked := by
  set s := construct numThreads depth preDispatch postDispatch handlers with hs
  have hcurrent : ∀ (i : ℕ) (t : DispatchThread H), s.threads[i]? = some t → t.pc.current = none := by
    intro i t ht
    rw [(List.mem_replicate.1 (List.mem_of_getElem? ht)).2]
    rfl
  have hworks : ∀ i e, ¬ s.Works i e := by
    rintro i e ⟨t, ht, he⟩
    cases (hcurrent i t ht).symm.trans he
  constructor
  · exact fun e he => nomatch he
  · exact List.nodup_nil
  · exact fun e he => nomatch he
  · exact fun i e hi => absurd hi (hworks i e)
  · exact fun i e hi => absurd hi (hworks i e)
  · exact fun i j e hi _ => absurd hi (hworks i e)
  · exact fun i t e ht he => absurd ⟨t, ht, he⟩ (hworks i e)
  · exact fun e he => absurd he (Nat.not_lt_zero e)
  · exact fun e _ => rfl

theorem awaited_construct :
    (construct numThreads depth preDispatch postDispatch handlers).Awaited := by
  intro t ht
  rw [(List.mem_replicate.1 ht).2]
  exact fun hsem => absurd hsem (Nat.lt_irrefl 0)

theorem served_construct (hpos : 1 ≤ numThreads) :
    (construct numThreads depth preDispatch postDispatch handlers).Served where
  boundary_le := fun _ hb => nomatch hb
  idle := by
    refine fun _ => ⟨rfl, fun hnil => ?_, fun t ht => ?_, fun ev hev => nomatch hev⟩
    · have hzero : numThreads = 0 := List.replicate_eq_nil_iff _ |>.1 hnil
      omega
    · rw [(List.mem_replicate.1 ht).2]
      exact ⟨rfl, trivial⟩
  closing := fun hb => absurd rfl hb
  served := fun _ hb => nomatch hb

end DispatchState

open DispatchState

/-- **When every accepted event is handled.** -/
theorem dispatch_drains {numThreads depth : ℕ} {preDispatch postDispatch : Option H}
    {handlers : List H} (hpos : 1 ≤ numThreads) {ops : List DispatchOp}
    {answers : List (Option Bool)} {s : DispatchState H} (hset : ∀ n, .numThreadsSet n ∉ ops)
    (hrun : run dispatchStep ops (construct numThreads depth preDispatch postDispatch handlers) =
      some (answers, s))
    (hops : Meets dispatchStep Drains ops
      (construct numThreads depth preDispatch postDispatch handlers))
    (hreturned : s.caller = .returned) :
    ∃ b, s.boundary = some b ∧
      ∀ e < b, s.handled e = preDispatch.toList ++ (handlers ++ postDispatch.toList) := by
  set s₀ := construct numThreads depth preDispatch postDispatch handlers with hs₀
  obtain ⟨htracked, -, hserved, hexpected⟩ : s.Tracked ∧ s.Awaited ∧ s.Served ∧
      s.expected = s₀.expected := by
    have hops' := hops.and_forall (P := fun op => ∀ n, op ≠ .numThreadsSet n)
      fun op hop n heq => hset n (heq ▸ hop)
    refine run_invariant_of_meets (I := fun s => s.Tracked ∧ s.Awaited ∧ s.Served ∧
      s.expected = s₀.expected) ?_ ?_ hrun hops'
    · rintro s op a s' ⟨htracked, hsem, hserved, hexpected⟩ ⟨hop, hne⟩ hstep
      have hmove := dispatchStep_moves hstep
      exact ⟨htracked.step hsem hmove, hsem.step hmove, hserved.step hsem hop hne hmove,
        hmove.expected_eq.trans hexpected⟩
    · exact ⟨tracked_construct numThreads depth preDispatch postDispatch handlers,
        awaited_construct numThreads depth preDispatch postDispatch handlers,
        served_construct numThreads depth preDispatch postDispatch handlers hpos, rfl⟩
  obtain ⟨b, hb⟩ : ∃ b, s.boundary = some b := by
    refine Option.ne_none_iff_exists'.1 fun hnone => ?_
    cases (hserved.idle hnone).1.symm.trans hreturned
  -- no thread is left
  have hnil : s.threads = [] := by
    have hclosing := hserved.closing (hb ▸ Option.some_ne_none b)
    rw [hreturned] at hclosing
    exact List.length_eq_zero_iff.1 hclosing
  refine ⟨b, hb, fun e he => ?_⟩
  have hdone : ∀ e ∈ s.queued, b ≤ e := by
    rcases hserved.served b hb with ⟨i, t, ht, -⟩ | hdone
    · rw [hnil] at ht
      cases ht
    · exact hdone
  have hall : s.handled e = s.expected := by
    refine htracked.done e (Nat.lt_of_lt_of_le he (hserved.boundary_le b hb)) ?_ ?_
    · exact fun hmem => absurd (hdone e hmem) (Nat.not_le.2 he)
    · rintro i ⟨t, ht, -⟩
      rw [hnil] at ht
      cases ht
  exact hall.trans hexpected

/-- A thread handles an event, and the destructor is called when it is done. -/
def drainedDestroy : List DispatchOp :=
  .submitEvent :: List.replicate 8 (.thread 0) ++ .destroy :: List.replicate 7 .caller ++
    List.replicate 2 (.thread 0) ++ List.replicate 3 .caller

theorem dispatch_drains_handled :
    ∃ answers s b, run dispatchStep drainedDestroy (construct 1 64 (some 1) (some 3) [2]) =
      some (answers, s) ∧ s.boundary = some b ∧ ∀ e < b, s.handled e = [1, 2, 3] := by
  have hset : ∀ n, .numThreadsSet n ∉ drainedDestroy := by
    intro n hn
    simp [drainedDestroy] at hn
  have hempty : Meets dispatchStep (fun s _ => s.boundary = none ∨ s.queued = []) drainedDestroy
      (construct 1 64 (some 1) (some 3) [2]) := by
    decide +kernel
  have hops : Meets dispatchStep Drains drainedDestroy (construct 1 64 (some 1) (some 3) [2]) := by
    refine hempty.mono fun s op h i t b _ _ _ _ hb => ?_
    rcases h with hnone | hnil
    · cases hnone.symm.trans hb
    · exact Or.inr fun e he => nomatch hnil ▸ he
  obtain ⟨b, hb, hhandled⟩ := dispatch_drains (Nat.le_refl 1) hset rfl hops rfl
  exact ⟨_, _, b, rfl, hb, hhandled⟩

/-- The destructor is called before the thread has started. -/
def droppedDestroy : List DispatchOp :=
  .submitEvent :: .destroy :: List.replicate 7 .caller ++ List.replicate 2 (.thread 0) ++
    List.replicate 3 .caller

/-- **An accepted event can be dropped.** -/
theorem dispatch_drops :
    ∃ answers s, run dispatchStep droppedDestroy (construct 1 64 (some 1) (some 3) [2]) =
      some (answers, s) ∧ s.caller = .returned ∧ s.boundary = some 1 ∧ s.handled 0 ≠ [1, 2, 3] :=
  ⟨_, _, rfl, rfl, rfl, by decide⟩

end CodePort
