/-
The incoming segment queue of a node.

`RecvThread` hands every segment that it has received to `SubmitSegment`, which puts it into the queue of
the accumulator thread.  The queue is bounded, so `Put` may have to wait for a place; when there is none in
time, `SubmitSegment` deletes the segment.

Main definitions:

* `CodePort.IpcAccumQueue` — the queue, and the call of `SubmitSegment` in progress;
* `CodePort.IpcAccumQueue.submit`, `get` — what `RecvThread` and `AccumThread` do to it;
* `CodePort.IpcAccumQueue.segments` — the segments that have not come to `AccumThread`.

Main results:

* `CodePort.IpcAccumQueue.submit_spec`, `get_spec` — the segments stay in order, and there is less to do;
* `CodePort.IpcAccumQueue.exists_turn` — **as long as there are segments, one of the threads can go on**.
-/

import CodePort.IpcAccumMap
import CodePort.ItcQueue

set_option relaxedAutoImplicit false
set_option autoImplicit false

namespace CodePort

/-- `k_IpcAccumQueueDepth`. -/
def ipcAccumQueueDepth : ℕ := 64

/-- The incoming segment queue, which is in balance between the calls of its two threads. -/
structure IpcAccumQueue where
  queue : ItcQueue SegPtr
  /-- The segment that `SubmitSegment` is about to put into the queue. -/
  submitting : Option SegPtr
  rests : queue.Rests ipcAccumQueueDepth

namespace IpcAccumQueue

/-- An empty queue. -/
def construct : IpcAccumQueue :=
  ⟨ItcQueue.construct ipcAccumQueueDepth, none, ItcQueue.rests_construct ipcAccumQueueDepth⟩

/-- `SubmitSegment` is called with the segment that has been received, if any. -/
def receive (q : IpcAccumQueue) (pSeg : Option SegPtr) : IpcAccumQueue := { q with submitting := pSeg }

/-- `SubmitSegment` returns: `Put` has got a place, or it gives up because the queue is full, and then the
segment is deleted. -/
def submit (q : IpcAccumQueue) (putOk : Bool) : Option IpcAccumQueue :=
  match q.submitting with
  | none => none
  | some p =>
      match h : q.queue.putNow p with
      | none => if putOk then none else some { q with submitting := none }
      | some queue => if putOk then some ⟨queue, none, q.rests.putNow h⟩ else none

/-- `AccumThread` gets the first segment. -/
def get (q : IpcAccumQueue) : Option (SegPtr × IpcAccumQueue) :=
  match h : q.queue.getNow with
  | none => none
  | some (p, queue) => some (p, ⟨queue, q.submitting, q.rests.getNow h⟩)

/-- The segments that have been received and have not come to `AccumThread`. -/
def segments (q : IpcAccumQueue) : List SegPtr := q.queue.queue ++ q.submitting.toList

/-- What the two threads have left to do with them. -/
def work (q : IpcAccumQueue) : ℕ := 2 * q.queue.queue.length + 3 * q.submitting.toList.length

variable {q q' : IpcAccumQueue} {p : SegPtr}

@[simp] theorem segments_construct : construct.segments = [] := rfl

@[simp] theorem work_construct : construct.work = 0 := rfl

theorem segments_receive (h : q.submitting = none) (pSeg : Option SegPtr) :
    (q.receive pSeg).segments = q.segments ++ pSeg.toList := by
  rw [segments, segments, h, Option.toList_none, List.append_nil]
  rfl

theorem work_receive (h : q.submitting = none) (pSeg : Option SegPtr) :
    (q.receive pSeg).work = q.work + 3 * pSeg.toList.length := by
  rw [work, work, h]
  rfl

/-- **A segment that gets a place** stays behind the others. -/
theorem submit_spec (h : q.submit true = some q') :
    q'.segments = q.segments ∧ q'.work + 1 = q.work := by
  rw [submit] at h
  split at h
  · exact absurd h (Option.some_ne_none q').symm
  · next p hp =>
    split at h
    · exact absurd h (by simp)
    · next queue hput =>
      obtain rfl := Option.some.inj h
      have hqueue := ItcQueue.queue_putNow hput
      refine ⟨by simp [segments, hqueue, hp], ?_⟩
      simp only [work, hqueue, hp, List.length_append, List.length_singleton, Option.toList_none,
        Option.toList_some, List.length_nil]
      omega

/-- **`AccumThread` gets the first of the segments.** -/
theorem get_spec (h : q.get = some (p, q')) : q.segments = p :: q'.segments ∧ q'.work + 2 = q.work := by
  rw [get] at h
  split at h
  · exact absurd h (Option.some_ne_none _).symm
  · next p' queue hget =>
    obtain ⟨rfl, rfl⟩ := Prod.mk.inj (Option.some.inj h)
    have hqueue := ItcQueue.queue_getNow hget
    refine ⟨by simp [segments, hqueue], ?_⟩
    simp only [work, hqueue, List.length_cons]
    omega

theorem submitting_eq_none (h : q.segments = []) : q.submitting = none := by
  have hnil := (List.append_eq_nil_iff.1 h).2
  cases hp : q.submitting with
  | none => rfl
  | some p =>
      rw [hp] at hnil
      exact absurd hnil (List.cons_ne_nil p [])

/-- **As long as there are segments, one of the threads can go on**: there is something to get, or there is
a place for the segment that is submitted. -/
theorem exists_turn (h : q.segments ≠ []) :
    (∃ p q', q.get = some (p, q')) ∨ ∃ q', q.submit true = some q' := by
  by_cases hempty : q.queue.queue = []
  · refine .inr ?_
    rw [segments, hempty, List.nil_append] at h
    obtain ⟨p, hp⟩ : ∃ p, q.submitting = some p := by
      cases hp : q.submitting with
      | none =>
          rw [hp] at h
          exact absurd rfl h
      | some p => exact ⟨p, rfl⟩
    have hroom : q.queue.putNow p ≠ none := by
      rw [ne_eq, q.rests.putNow_eq_none_iff, hempty]
      decide
    rw [submit, hp]
    dsimp only
    split
    · exact absurd ‹_› hroom
    · exact ⟨_, rfl⟩
  · refine .inl ?_
    have hsome : q.queue.getNow ≠ none := mt q.rests.getNow_eq_none_iff.1 hempty
    rw [get]
    split
    · exact absurd ‹_› hsome
    · exact ⟨_, _, rfl⟩

/-- A segment is given up only when the queue is full. -/
theorem length_of_submit_false (h : q.submit false = some q') :
    q.queue.queue.length = ipcAccumQueueDepth := by
  rw [submit] at h
  split at h
  · exact absurd h (Option.some_ne_none q').symm
  · split at h
    · exact q.rests.putNow_eq_none_iff.1 ‹_›
    · exact absurd h (by simp)

end IpcAccumQueue

end CodePort
