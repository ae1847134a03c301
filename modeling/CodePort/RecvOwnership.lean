/-
Who deletes a received segment.

The receive thread creates segments and hands them to the queue of the accumulator thread, which
hands them to accumulators, contexts and dispatch objects.  Every hand-over can fail, and the two
sides must agree on who deletes the segment then.

A segment is identified here by the number of its creation, so an address that is used again after
a deletion does not make two segments one.

Main definitions:

* `CodePort.RecvNode` — the receive side of a node, and all the segments it holds;
* `CodePort.recvStep` — one step of a thread; its answer is the segments that are deleted;
* `CodePort.RecvNode.shutdown` — what is deleted when the node goes down;
* `CodePort.IpcContext.Releases` — a dispatch object runs all its events before it is deleted;
* `CodePort.RecvNode.Careful` — every hand-over of the step succeeds.

Main results:

* `CodePort.recvStep_perm` — one step only moves segments, as long as its hand-overs succeed;
* `CodePort.recvThread_deletes_once` — **every segment is deleted exactly once** in such runs;
* `CodePort.recvThread_deletes_twice` — a segment that does not fit in the queue is deleted twice.
-/

import CodePort.IpcAccumMap
import CodePort.IpcNode
import CodePort.MapContents
import Mathlib.Data.List.ReduceOption

set_option relaxedAutoImplicit false
set_option autoImplicit false

namespace CodePort

open MapContents StableInsert StepSystem

/-! ### The receive side of a node -/

/-- The receive side of a node. -/
structure RecvNode where
  /-- How many segments the receive thread has created. -/
  created : ℕ
  /-- The variable of the receive thread. -/
  pSeg : Option SegPtr
  /-- The incoming segment queue; `none` is the NULL pointer. -/
  accumQueue : List (Option SegPtr)
  maps : IpcAccumMap

/-- The steps of the threads. -/
inductive RecvOp
  /-- A turn of `RecvThread`: the contents of a segment that `new` returns, what `Recv` answers, and
  whether there is room in the queue. -/
  | recv (fresh : Option IpcSegment) (answer : IpcSegment → RecvAnswer Unit) (putOk : Bool)
  /-- `ReleaseThread` of the accumulator map. -/
  | release (putOk : Bool)
  /-- A turn of `AccumThread` that gets a pointer from the queue. -/
  | accum (exitFlag : Bool) (now : ℕ) (submitOk : Bool) (drained : ℕ)
  | registerHandler (msgId : ℕ) (pHandler created : Bool)
  /-- A dispatch thread of a context runs the next event. -/
  | dispatch (msgId : ℕ)
  | removeContext (msgId : ℕ) (drained : ℕ)

/-- `SubmitSegment`: the answer, the segments it deletes, and the queue. -/
def submitSegment (q : List (Option SegPtr)) (p : SegPtr) (putOk : Bool) :
    Bool × List SegPtr × List (Option SegPtr) :=
  if putOk then (true, [], q ++ [some p])
  -- delete segment if it fails to fit in the queue
  else (false, [p], q)

namespace RecvNode

/-- A node that has received nothing. -/
def construct : RecvNode := ⟨0, none, [], IpcAccumMap.construct⟩

/-- The second half of a turn of `RecvThread`: pass a segment to the accumulator thread. -/
def submit (s : RecvNode) (p : SegPtr) (putOk : Bool) : List SegPtr × RecvNode :=
  let r := submitSegment s.accumQueue p putOk
  -- delete segment if it can't be delivered to accumulator
  (r.2.1 ++ (if r.1 = false then [p] else []), { s with accumQueue := r.2.2 })

/-- A turn of `RecvThread`. -/
def recv (s : RecvNode) (fresh : Option IpcSegment) (answer : IpcSegment → RecvAnswer Unit)
    (putOk : Bool) : List SegPtr × RecvNode :=
  let t := recvTurn s.pSeg (fresh.map fun seg => ⟨s.created, seg⟩) (fun seg _ => answer seg) ()
  let s : RecvNode :=
    { s with
      created := if s.pSeg.isNone && fresh.isSome then s.created + 1 else s.created
      pSeg := t.pSeg }
  match t.received with
  | none => ([], s)
  | some p => s.submit p putOk

/-- Remove a message context, except context 0. -/
def removeContext (s : RecvNode) (msgId drained : ℕ) : List SegPtr × RecvNode :=
  if msgId = 0 then ([], s)
  else
    match s.maps.contextMap.lookup msgId with
    | none => ([], s)
    | some c =>
        ((c.destroy drained).1,
          { s with maps := { s.maps with contextMap := s.maps.contextMap.erase msgId } })

/-- Set a context. -/
def setContext (s : RecvNode) (msgId : ℕ) (c : IpcContext) : RecvNode :=
  { s with maps := { s.maps with contextMap := s.maps.contextMap.insert msgId c } }

/-- What is deleted when the node goes down: the segment that the receive thread is left with, the
elements of the queue, and with the maps their contexts and accumulators.  `drained` says how many
accepted events the threads of a dispatch object still run. -/
def shutdown (s : RecvNode) (drained : ℕ → ℕ) : List SegPtr :=
  s.pSeg.toList ++ s.accumQueue.reduceOption ++
    (s.maps.contextMap.entries.flatMap fun e => (e.2.destroy (drained e.1)).1) ++
    s.maps.accumMap.entries.flatMap fun e => e.2.list

end RecvNode

/-- One step, and the segments that are deleted in it. -/
def recvStep (s : RecvNode) : RecvOp → Option (List SegPtr × RecvNode)
  | .recv fresh answer putOk => some (s.recv fresh answer putOk)
  | .release putOk =>
      some ([], { s with accumQueue := if putOk then s.accumQueue ++ [none] else s.accumQueue })
  | .accum exitFlag now submitOk drained =>
      match s.accumQueue with
      | [] => none
      | segment :: q =>
          (s.maps.accumStep ⟨segment, exitFlag, now, submitOk, drained⟩).map fun r =>
            (r.1.deleted, { s with accumQueue := q, maps := r.2 })
  | .registerHandler msgId pHandler created =>
      let c := (s.maps.contextMap.lookup msgId).getD IpcContext.construct
      some ([], s.setContext msgId (c.registerHandler pHandler created).2)
  | .dispatch msgId =>
      match s.maps.contextMap.lookup msgId with
      | some ⟨head, sem, some (event :: events), handled⟩ =>
          some (IpcContext.runEvent ⟨head, sem, some events, handled⟩ event,
            s.setContext msgId ⟨head, sem, some events, handled⟩)
      | _ => none
  | .removeContext msgId drained => some (s.removeContext msgId drained)

/-! ### What every part holds -/

namespace IpcContext

/-- The segments that a context owns. -/
def owned (c : IpcContext) : List SegPtr := c.ptrHead ++ (c.dispatcher.getD []).flatten

/-- How many accepted events the dispatch object has not run yet. -/
def pending (c : IpcContext) : ℕ := (c.dispatcher.getD []).length

theorem owned_construct : construct.owned = [] := rfl

/-- **A message that is put into a context** is owned by it or deleted, like the one it replaces. -/
theorem messagePut_perm {msg : List SegPtr} (hmsg : msg ≠ []) (c : IpcContext) (submitOk : Bool) :
    ((c.messagePut msg submitOk).deleted ++ (c.messagePut msg submitOk).context.owned).Perm
      (msg ++ c.owned) := by
  have hne : msg.isEmpty = false := List.isEmpty_eq_false_iff.2 hmsg
  rw [messagePut, hne, if_neg Bool.false_ne_true]
  refine List.perm_iff_count.2 fun a => ?_
  obtain ⟨head, sem, _ | events, handled⟩ := c
  · simp only [owned, Option.getD_none, List.flatten_nil, List.append_nil, List.count_append]
    omega
  · cases submitOk
    · rfl
    · simp only [owned, if_true, List.nil_append, Option.getD_some, List.flatten_append,
        List.flatten_cons, List.flatten_nil, List.append_nil, List.count_append]
      omega

/-- The dispatch object runs all events it has accepted, and `more` others, before it is deleted, and with
them the segments are deleted. -/
def Releases (c : IpcContext) (more drained : ℕ) : Prop :=
  c.pending + more ≤ drained ∧ (0 < c.pending + more → c.handled = true)

instance decidableReleases (c : IpcContext) (more drained : ℕ) : Decidable (c.Releases more drained) :=
  inferInstanceAs (Decidable (_ ∧ _))

/-- The events of a context that a message has been put into. -/
theorem Releases.messagePut {c : IpcContext} {submitOk : Bool} {drained : ℕ}
    (h : c.Releases (if submitOk then 1 else 0) drained) {msg : List SegPtr} (hmsg : msg ≠ [])
    (hd : c.dispatcher.isSome = true) : (c.messagePut msg submitOk).context.Releases 0 drained := by
  have hne : msg.isEmpty = false := List.isEmpty_eq_false_iff.2 hmsg
  obtain ⟨head, sem, _ | events, handled⟩ := c
  · cases hd
  · rw [IpcContext.messagePut, hne, if_neg Bool.false_ne_true]
    cases submitOk with
    | true => simpa [Releases, pending] using h
    | false => exact h

/-- A context deletes what it owns, when the dispatch threads run all accepted events. -/
theorem destroy_eq {c : IpcContext} {drained : ℕ} (h : c.Releases 0 drained) :
    (c.destroy drained).1 = c.owned := by
  obtain ⟨head, sem, _ | events, handled⟩ := c
  · simp [destroy, owned]
  · obtain ⟨hle, hhandled⟩ := h
    have htake : events.take drained = events := List.take_of_length_le hle
    simp only [destroy, owned, Option.getD_some, htake]
    cases events with
    | nil => rfl
    | cons event events =>
        obtain rfl : handled = true := hhandled (Nat.succ_pos _)
        rw [← List.flatMap_id]
        rfl

theorem owned_registerHandler (c : IpcContext) (pHandler created : Bool) :
    (c.registerHandler pHandler created).2.owned = c.owned := by
  obtain ⟨head, sem, _ | events, handled⟩ := c <;> cases pHandler <;> cases created <;>
    simp [registerHandler, owned]

end IpcContext

namespace IpcAccumMap

/-- **A segment that is accumulated** is in the message that it completes, or in an accumulator. -/
theorem accumulate_perm (m : AList fun _ : ℕ => IpcAccum) (now : ℕ) (p : SegPtr) :
    ((accumulate m now p).1 ++ contents IpcAccum.list (accumulate m now p).2).Perm
      (p :: contents IpcAccum.list m) := by
  rw [accumulate]
  by_cases hp : p.multipart = true
  · rw [if_pos hp]
    set a := (m.lookup p.guid).getD (IpcAccum.construct now) with ha
    have hsplit : (contents IpcAccum.list m).Perm
        (a.list ++ contents IpcAccum.list (m.erase p.guid)) :=
      contents_of_getD IpcAccum.list m p.guid rfl
    have hins : (a.submitSegment p).list.Perm (p :: a.list) :=
      perm_insertByKey SegPtr.fragNum p a.list
    have hgoal : ((a.submitSegment p).list ++ contents IpcAccum.list (m.erase p.guid)).Perm
        (p :: contents IpcAccum.list m) :=
      (hins.append_right _).trans (hsplit.symm.cons p)
    simp only
    split_ifs
    · exact hgoal
    · rw [contents_insert]
      exact hgoal
  · rw [if_neg hp]
    exact List.Perm.refl _

/-- A context that has handed a message to its dispatch object, and is removed for that, deletes all its
events. -/
def Removes (m : AList fun _ : ℕ => IpcContext) (head : SegPtr) (submitOk : Bool) (drained : ℕ) : Prop :=
  head.seg.context ≠ 0 → ∀ c ∈ m.lookup head.seg.context, c.dispatcher.isSome = true →
    c.Releases (if submitOk then 1 else 0) drained

instance decidableRemoves (m : AList fun _ : ℕ => IpcContext) (head : SegPtr) (submitOk : Bool)
    (drained : ℕ) : Decidable (Removes m head submitOk drained) :=
  inferInstanceAs (Decidable (head.seg.context ≠ 0 → ∀ c ∈ m.lookup head.seg.context,
    c.dispatcher.isSome = true → c.Releases (if submitOk then 1 else 0) drained))

/-- **A message that is delivered** is owned by a context or deleted. -/
theorem deliver_perm {m : AList fun _ : ℕ => IpcContext} {msg : List SegPtr} (hmsg : msg ≠ [])
    {head : SegPtr} {submitOk : Bool} {drained : ℕ} (hremoves : Removes m head submitOk drained) :
    ((deliver m msg head submitOk drained).1.deleted ++
      contents IpcContext.owned (deliver m msg head submitOk drained).2).Perm
      (msg ++ contents IpcContext.owned m) := by
  set k := head.seg.context with hk
  set c := (m.lookup k).getD IpcContext.construct with hc
  set r := c.messagePut msg submitOk with hr
  have hsplit : (contents IpcContext.owned m).Perm
      (c.owned ++ contents IpcContext.owned (m.erase k)) :=
    contents_of_getD IpcContext.owned m k IpcContext.owned_construct
  have hput : (r.deleted ++ r.context.owned).Perm (msg ++ c.owned) :=
    IpcContext.messagePut_perm hmsg c submitOk
  have hgoal : (r.deleted ++ r.context.owned ++ contents IpcContext.owned (m.erase k)).Perm
      (msg ++ contents IpcContext.owned m) := by
    refine (hput.append_right _).trans ?_
    rw [List.append_assoc]
    exact hsplit.symm.append_left msg
  simp only [deliver, ← hk]
  split_ifs with hstored
  · rw [Bool.and_eq_true, Bool.not_eq_true', bne_iff_ne] at hstored
    -- what is not stored has been handed to the dispatch object of a context that was there
    have hd : c.dispatcher.isSome = true := by
      rw [← Option.not_isNone, Bool.not_eq_true', Option.isNone_eq_false_iff]
      by_contra hnone
      rw [Option.not_isSome_iff_eq_none] at hnone
      have hput' := hstored.1
      rw [IpcContext.messagePut, hnone] at hput'
      split_ifs at hput'
    have hlookup : m.lookup k = some c := by
      rw [hc]
      cases hl : m.lookup k with
      | some c' => rfl
      | none =>
          rw [hc, hl, Option.getD_none] at hd
          cases hd
    rw [IpcContext.destroy_eq ((hremoves hstored.2 c hlookup hd).messagePut hmsg hd)]
    exact hgoal
  · rw [contents_insert, ← List.append_assoc]
    exact hgoal

/-- What the maps hold. -/
def held (s : IpcAccumMap) : List SegPtr :=
  contents IpcAccum.list s.accumMap ++ contents IpcContext.owned s.contextMap

/-- Where a segment completes a message, the context that the message names deletes all its events if it is
removed. -/
def Completes (s : IpcAccumMap) (i : AccumIn) (p : SegPtr) : Prop :=
  ∀ head ∈ (accumulate s.accumMap i.now p).1.head?, Removes s.contextMap head i.submitOk i.drained

instance decidableCompletes (s : IpcAccumMap) (i : AccumIn) (p : SegPtr) : Decidable (s.Completes i p) :=
  inferInstanceAs (Decidable (∀ head ∈ (accumulate s.accumMap i.now p).1.head?,
    Removes s.contextMap head i.submitOk i.drained))

theorem receive_perm {s : IpcAccumMap} {i : AccumIn} {p : SegPtr} (hcompletes : s.Completes i p) :
    ((receive s i p).1.deleted ++ (receive s i p).2.held).Perm (p :: s.held) := by
  have hacc := accumulate_perm s.accumMap i.now p
  rw [receive]
  cases hr : (accumulate s.accumMap i.now p).1 with
  | nil =>
      rw [hr, List.nil_append] at hacc
      exact hacc.append_right _
  | cons head tail =>
      have hdel := deliver_perm (List.cons_ne_nil head tail) (hcompletes head (by rw [hr]; rfl))
      rw [hr] at hacc
      refine List.perm_iff_count.2 fun a => ?_
      have h₁ := hacc.count_eq a
      have h₂ := hdel.count_eq a
      simp only [held, List.count_append, List.count_cons] at h₁ h₂ ⊢
      omega

/-- A housekeeping that does not lose its iterator deletes nothing. -/
theorem houseKeep_valid {i : AccumIn} {m : AList fun _ : ℕ => IpcAccum}
    {es : List (Sigma fun _ : ℕ => IpcAccum)} (h : (houseKeep i m es).valid = true) :
    (houseKeep i m es).deleted = [] ∧ (houseKeep i m es).accumMap = m := by
  induction es with
  | nil => exact ⟨rfl, rfl⟩
  | cons e es ih =>
      rw [houseKeep] at h ⊢
      by_cases hs : stale i e.2 = true
      · rw [if_pos hs] at h
        exact absurd h Bool.false_ne_true
      · rw [if_neg hs] at h ⊢
        exact ih h

theorem accumStep_perm {s s' : IpcAccumMap} {i : AccumIn} {o : AccumOut}
    (hcompletes : ∀ p, i.segment = some p → i.exitFlag = false → s.Completes i p)
    (h : accumStep s i = some (o, s')) :
    (o.deleted ++ s'.held).Perm (i.segment.toList ++ s.held) := by
  obtain ⟨segment, exitFlag, now, submitOk, drained⟩ := i
  have hkeep : ∀ {segment : Option SegPtr} {i : AccumIn},
      (if (houseKeep i s.accumMap s.accumMap.entries).valid then
        some ((⟨none, (houseKeep i s.accumMap s.accumMap.entries).deleted ++ segment.toList, []⟩ :
          AccumOut), { s with accumMap := (houseKeep i s.accumMap s.accumMap.entries).accumMap })
      else none) = some (o, s') → (o.deleted ++ s'.held).Perm (segment.toList ++ s.held) := by
    intro segment i hi
    split_ifs at hi with hvalid
    obtain ⟨rfl, rfl⟩ := Prod.mk.inj (Option.some.inj hi)
    obtain ⟨hdel, hmap⟩ := houseKeep_valid hvalid
    rw [hdel, hmap]
    exact List.Perm.refl _
  cases segment with
  | none => exact hkeep h
  | some p =>
      cases exitFlag with
      | true => exact hkeep h
      | false =>
          obtain ⟨rfl, rfl⟩ := Prod.mk.inj (Option.some.inj h)
          exact receive_perm (hcompletes p rfl rfl)

end IpcAccumMap

/-! ### Steps and runs -/

namespace RecvNode

/-- The segments that the receive side holds. -/
def held (s : RecvNode) : List SegPtr :=
  s.pSeg.toList ++ s.accumQueue.reduceOption ++ s.maps.held

/-- **Every hand-over of a step succeeds**: a segment that is received fits in the queue, a dispatch object
runs an event with the functions that delete it, and one that is deleted has run all events it has
accepted. -/
def Careful (s : RecvNode) : RecvOp → Prop
  | .recv fresh answer putOk => putOk = true ∨
      (recvTurn s.pSeg (fresh.map fun seg => ⟨s.created, seg⟩) (fun seg _ => answer seg) ()).received = none
  | .accum exitFlag now submitOk drained => exitFlag = false → ∀ p ∈ s.accumQueue.head?.join,
      s.maps.Completes ⟨some p, exitFlag, now, submitOk, drained⟩ p
  | .dispatch msgId => ∀ c ∈ s.maps.contextMap.lookup msgId, c.handled = true
  | .removeContext msgId drained => msgId ≠ 0 →
      ∀ c ∈ s.maps.contextMap.lookup msgId, c.Releases 0 drained
  | _ => True

instance decidableCareful (s : RecvNode) (o : RecvOp) : Decidable (s.Careful o) :=
  match o with
  | .recv fresh answer putOk => inferInstanceAs (Decidable (putOk = true ∨
      (recvTurn s.pSeg (fresh.map fun seg => ⟨s.created, seg⟩) (fun seg _ => answer seg) ()).received =
        none))
  | .accum exitFlag now submitOk drained => inferInstanceAs (Decidable (exitFlag = false →
      ∀ p ∈ s.accumQueue.head?.join, s.maps.Completes ⟨some p, exitFlag, now, submitOk, drained⟩ p))
  | .dispatch msgId =>
      inferInstanceAs (Decidable (∀ c ∈ s.maps.contextMap.lookup msgId, c.handled = true))
  | .removeContext msgId drained => inferInstanceAs (Decidable (msgId ≠ 0 →
      ∀ c ∈ s.maps.contextMap.lookup msgId, c.Releases 0 drained))
  | .release _ => .isTrue trivial
  | .registerHandler _ _ _ => .isTrue trivial

theorem maps_held_setContext (s : RecvNode) (k : ℕ) (c : IpcContext) :
    (s.setContext k c).maps.held = contents IpcAccum.list s.maps.accumMap ++
      (c.owned ++ contents IpcContext.owned (s.maps.contextMap.erase k)) := by
  simp only [setContext, IpcAccumMap.held, contents_insert]

theorem removeContext_perm {s : RecvNode} {msgId drained : ℕ}
    (h : msgId ≠ 0 → ∀ c ∈ s.maps.contextMap.lookup msgId, c.Releases 0 drained) :
    (s.removeContext msgId drained).2.created = s.created ∧
      ((s.removeContext msgId drained).1 ++ (s.removeContext msgId drained).2.held).Perm s.held := by
  rw [removeContext]
  split_ifs with hzero
  · exact ⟨rfl, List.Perm.refl _⟩
  · cases hlookup : s.maps.contextMap.lookup msgId with
    | none => exact ⟨rfl, List.Perm.refl _⟩
    | some c =>
        refine ⟨rfl, List.perm_iff_count.2 fun a => ?_⟩
        have hcount := (contents_of_lookup IpcContext.owned hlookup).count_eq a
        rw [IpcContext.destroy_eq (h hzero c hlookup)]
        simp only [held, IpcAccumMap.held, List.count_append] at hcount ⊢
        omega

theorem submit_perm (s : RecvNode) (p : SegPtr) :
    ((s.submit p true).1 ++ (s.submit p true).2.held).Perm (p :: s.held) := by
  refine List.perm_iff_count.2 fun a => ?_
  simp only [submit, submitSegment, if_true, held, List.reduceOption_append,
    List.reduceOption_singleton, Option.toList_some, List.count_append, List.count_cons,
    List.count_nil, Bool.true_eq_false, if_false]
  omega

/-- **A turn of the receive thread** adds the segment that it creates, if any. -/
theorem recv_perm {s : RecvNode} {fresh : Option IpcSegment}
    {answer : IpcSegment → RecvAnswer Unit} {putOk : Bool}
    (h : s.Careful (.recv fresh answer putOk)) :
    s.created ≤ (s.recv fresh answer putOk).2.created ∧
      (((s.recv fresh answer putOk).1 ++ (s.recv fresh answer putOk).2.held).map SegPtr.addr).Perm
        (s.held.map SegPtr.addr ++
          List.range' s.created ((s.recv fresh answer putOk).2.created - s.created)) := by
  set new : Option SegPtr := fresh.map fun seg => ⟨s.created, seg⟩ with hnew
  set t := recvTurn s.pSeg new (fun seg _ => answer seg) () with ht
  set created := if s.pSeg.isNone && fresh.isSome then s.created + 1 else s.created with hc
  -- whatever becomes of the segment, it is deleted or held
  have hmoved : (s.recv fresh answer putOk).2.created = created ∧
      ((s.recv fresh answer putOk).1 ++ (s.recv fresh answer putOk).2.held).Perm
        (t.received.toList ++ t.pSeg.toList ++ (s.accumQueue.reduceOption ++ s.maps.held)) := by
    rw [recv, ← hnew, ← ht, ← hc]
    cases hr : t.received with
    | none =>
        refine ⟨rfl, ?_⟩
        rw [held, List.append_assoc]
        exact List.Perm.refl _
    | some p =>
        have hput : putOk = true := h.resolve_right fun hc =>
          Option.some_ne_none p (hr.symm.trans hc)
        rw [hput]
        refine ⟨rfl, (submit_perm _ p).trans ?_⟩
        rw [held, List.append_assoc]
        exact List.Perm.refl _
  obtain ⟨hcreated, hperm⟩ := hmoved
  have haddr := recvTurn_addr s.pSeg new (fun seg _ => answer seg) ()
  rw [← ht] at haddr
  rw [hcreated]
  refine ⟨by rw [hc]; split_ifs <;> omega, (hperm.map SegPtr.addr).trans ?_⟩
  rw [List.map_append, haddr, held, List.append_assoc, List.map_append, List.map_append,
    List.map_append]
  cases hp : s.pSeg with
  | some p => simp [hc, hp]
  | none =>
      cases fresh with
      | none => simp [hc, hp, hnew]
      | some seg =>
          simp only [hc, hp, hnew, Option.isNone_none, Option.isSome_some, Bool.and_self, if_true,
            Option.map_some, Option.none_or, Option.toList_some, List.map_cons, List.map_nil,
            Nat.add_sub_cancel_left, List.range'_one, Option.toList_none, List.nil_append]
          exact List.perm_append_comm

end RecvNode

open RecvNode in
/-- **One step** only moves segments: what was held before, with the segment that it creates, is
deleted or held afterwards. -/
theorem recvStep_perm {s s' : RecvNode} {o : RecvOp} {d : List SegPtr} (hcareful : s.Careful o)
    (h : recvStep s o = some (d, s')) : s.created ≤ s'.created ∧
      ((d ++ s'.held).map SegPtr.addr).Perm
        (s.held.map SegPtr.addr ++ List.range' s.created (s'.created - s.created)) := by
  -- the steps of the other threads create nothing
  have hsame : s'.created = s.created → (d ++ s'.held).Perm s.held → s.created ≤ s'.created ∧
      ((d ++ s'.held).map SegPtr.addr).Perm
        (s.held.map SegPtr.addr ++ List.range' s.created (s'.created - s.created)) := by
    intro hcreated hperm
    rw [hcreated, Nat.sub_self, List.range'_zero, List.append_nil]
    exact ⟨le_rfl, hperm.map _⟩
  cases o with
  | recv fresh answer putOk =>
      obtain ⟨rfl, rfl⟩ := Prod.mk.inj (Option.some.inj h)
      exact recv_perm hcareful
  | release putOk =>
      obtain ⟨rfl, rfl⟩ := Prod.mk.inj (Option.some.inj h)
      refine hsame rfl ?_
      cases putOk <;> simp [held, List.reduceOption_append]
  | accum exitFlag now submitOk drained =>
      rw [recvStep] at h
      cases hq : s.accumQueue with
      | nil => simp [hq] at h
      | cons segment q =>
          simp only [hq] at h
          obtain ⟨⟨out, maps⟩, hstep, heq⟩ := Option.map_eq_some_iff.1 h
          obtain ⟨rfl, rfl⟩ := Prod.mk.inj heq
          refine hsame rfl (List.perm_iff_count.2 fun a => ?_)
          have hcount := (IpcAccumMap.accumStep_perm (s := s.maps)
            (i := ⟨segment, exitFlag, now, submitOk, drained⟩)
            (fun p hp hexit => hcareful hexit p (by rw [hq, List.head?_cons, Option.join_some]; exact hp))
            hstep).count_eq a
          have hqueue : (segment :: q).reduceOption = segment.toList ++ q.reduceOption := by
            cases segment <;> simp
          simp only [held, hq, hqueue, List.count_append] at hcount ⊢
          omega
  | registerHandler msgId pHandler created =>
      obtain ⟨rfl, rfl⟩ := Prod.mk.inj (Option.some.inj h)
      refine hsame rfl ?_
      rw [List.nil_append, held, held, maps_held_setContext, IpcContext.owned_registerHandler,
        IpcAccumMap.held]
      refine List.Perm.append_left _ (List.Perm.append_left _ ?_)
      exact (contents_of_getD IpcContext.owned _ msgId IpcContext.owned_construct).symm
  | dispatch msgId =>
      rw [recvStep] at h
      split at h
      · next head sem event events handled hlookup =>
          obtain ⟨rfl, rfl⟩ := Prod.mk.inj (Option.some.inj h)
          obtain rfl : handled = true := hcareful _ hlookup
          refine hsame rfl (List.perm_iff_count.2 fun a => ?_)
          have hcount := (contents_of_lookup IpcContext.owned hlookup).count_eq a
          rw [held, maps_held_setContext, held, IpcAccumMap.held]
          simp only [setContext, IpcContext.owned, IpcContext.runEvent, if_true, Option.getD_some,
            List.flatten_cons, List.count_append] at hcount ⊢
          omega
      · exact absurd h (by simp)
  | removeContext msgId drained =>
      obtain ⟨rfl, rfl⟩ := Prod.mk.inj (Option.some.inj h)
      obtain ⟨hcreated, hperm⟩ := removeContext_perm hcareful
      exact hsame hcreated hperm

/-- **A run** in which all hand-overs succeed only moves segments. -/
theorem recv_ledger {ops : List RecvOp} {outs : List (List SegPtr)} {s : RecvNode}
    (h : run recvStep ops RecvNode.construct = some (outs, s))
    (hcareful : Meets recvStep RecvNode.Careful ops RecvNode.construct) :
    ((outs.flatten ++ s.held).map SegPtr.addr).Perm (List.range s.created) := by
  refine @run_history_of_meets _ _ _ _
    (fun outs s => ((outs.flatten ++ s.held).map SegPtr.addr).Perm (List.range s.created)) _ ?_ ops
    RecvNode.construct s [] outs (.refl _) h hcareful
  intro outs s o d s' hI hG hstep
  obtain ⟨hle, hperm⟩ := recvStep_perm hG hstep
  have hrange : List.range s'.created =
      List.range s.created ++ List.range' s.created (s'.created - s.created) := by
    have happend := List.range'_append_1 (s := 0) (m := s.created) (n := s'.created - s.created)
    rw [Nat.zero_add, Nat.add_sub_cancel' hle] at happend
    rw [List.range_eq_range', List.range_eq_range', happend]
  refine List.perm_iff_count.2 fun a => ?_
  have h₁ := hI.count_eq a
  have h₂ := hperm.count_eq a
  simp only [hrange, List.flatten_append, List.flatten_cons, List.flatten_nil, List.append_nil,
    List.map_append, List.count_append] at h₁ h₂ ⊢
  omega

/-- A shutdown deletes everything that is held, when all accepted events are run. -/
theorem shutdown_perm {s : RecvNode} {drained : ℕ → ℕ}
    (h : ∀ k c, s.maps.contextMap.lookup k = some c → c.Releases 0 (drained k)) :
    (s.shutdown drained).Perm s.held := by
  have hcontexts : (s.maps.contextMap.entries.flatMap fun e => (e.2.destroy (drained e.1)).1) =
      contents IpcContext.owned s.maps.contextMap :=
    List.flatMap_congr fun e he =>
      IpcContext.destroy_eq (h e.1 e.2 (AList.mem_lookup_iff.2 (by simpa using he)))
  rw [RecvNode.shutdown, RecvNode.held, hcontexts, IpcAccumMap.held, List.append_assoc]
  exact List.Perm.append_left _ List.perm_append_comm

/-- **Segment ownership on the receive side.**  In every run whose steps all succeed in handing
segments over, no segment is deleted twice; and after the shutdown every segment that the receive
thread has created has been deleted exactly once. -/
theorem recvThread_deletes_once {ops : List RecvOp} {outs : List (List SegPtr)} {s : RecvNode}
    (h : run recvStep ops RecvNode.construct = some (outs, s))
    (hcareful : Meets recvStep RecvNode.Careful ops RecvNode.construct) :
    (outs.flatten.map SegPtr.addr).Nodup ∧
      ∀ drained : ℕ → ℕ,
        (∀ k c, s.maps.contextMap.lookup k = some c → c.Releases 0 (drained k)) →
        ((outs.flatten ++ s.shutdown drained).map SegPtr.addr).Perm (List.range s.created) := by
  have hledger := recv_ledger h hcareful
  constructor
  · have hnodup := hledger.nodup_iff.2 List.nodup_range
    rw [List.map_append] at hnodup
    exact hnodup.of_append_left
  · intro drained hdrained
    exact (((shutdown_perm hdrained).append_left _).map _).trans hledger

/-- Two fragments of a message for context 0, whose events are run; a message that is handed to the dispatch
object of context 7, which is removed then; a message that is stored in context 9; a failed `Recv`; and a
fragment whose message is never complete. -/
def sampleRecvOps : List RecvOp :=
  let receives := fun options fragNum msgId context =>
    RecvOp.recv (some (sampleSeg 0 options fragNum 1 msgId context).seg) (fun seg => ⟨true, seg, ()⟩) true
  [.registerHandler 0 true true, .registerHandler 7 true true,
    receives 0x20 1 5 0, receives 0x60 2 5 0, receives 0 1 6 7, receives 0 1 7 9,
    .recv (some (sampleSeg 0 0 1 1 8 9).seg) (fun seg => ⟨false, seg, ()⟩) false, receives 0x20 1 9 0,
    .accum false 10 true 0, .accum false 10 true 0, .accum false 10 true 1, .accum false 10 true 0,
    .accum false 10 true 0, .dispatch 0]

/-- Every one of these segments is deleted once. -/
theorem recvThread_deletes_once_sample :
    Meets recvStep RecvNode.Careful sampleRecvOps RecvNode.construct ∧
      ∃ outs s, run recvStep sampleRecvOps RecvNode.construct = some (outs, s) ∧
        ((outs.flatten ++ s.shutdown fun _ => 0).map SegPtr.addr).Perm [0, 1, 2, 3, 4] := by
  have hcareful : Meets recvStep RecvNode.Careful sampleRecvOps RecvNode.construct := by decide +kernel
  have hend : ((run recvStep sampleRecvOps RecvNode.construct).any fun r =>
      decide (r.2.created = 5 ∧ ∀ e ∈ r.2.maps.contextMap.entries, e.2.Releases 0 0)) = true := by
    decide +kernel
  obtain ⟨⟨outs, s⟩, hrun, hs⟩ := (Option.any_eq_true _ _).1 hend
  obtain ⟨hcreated, hreleases⟩ := of_decide_eq_true hs
  obtain ⟨-, hperm⟩ := recvThread_deletes_once hrun hcareful
  have hall := hperm (fun _ => 0) fun k c hc => hreleases ⟨k, c⟩ (AList.mem_lookup_iff.1 hc)
  rw [show s.created = 5 from hcreated] at hall
  exact ⟨hcareful, outs, s, hrun, hall⟩

/-- A segment that does not fit in the queue is deleted twice, a segment whose event no dispatch
thread has run when its context is removed is never deleted, and so is one that is handed to a context
whose handler is NULL. -/
theorem recvThread_deletes_twice :
    (∃ outs s, run recvStep
        [.recv (some (sampleSeg 0 0 1 1 6 0).seg) (fun seg => ⟨true, seg, ()⟩) false]
        RecvNode.construct = some (outs, s) ∧
      outs.flatten.map SegPtr.addr = [0, 0] ∧ s.created = 1) ∧
    (∃ outs s, run recvStep
        [.registerHandler 7 true true,
          .recv (some (sampleSeg 0 0 1 1 6 7).seg) (fun seg => ⟨true, seg, ()⟩) true,
          .accum false 10 true 0] RecvNode.construct = some (outs, s) ∧
      outs.flatten = [] ∧ s.created = 1 ∧ s.held = []) ∧
    ∃ outs s, run recvStep
        [.registerHandler 7 false true,
          .recv (some (sampleSeg 0 0 1 1 6 7).seg) (fun seg => ⟨true, seg, ()⟩) true,
          .accum false 10 true 1] RecvNode.construct = some (outs, s) ∧
      outs.flatten = [] ∧ s.created = 1 ∧ s.held = [] := by
  refine ⟨⟨_, _, rfl, ?_, ?_⟩, ⟨_, _, rfl, ?_, ?_, ?_⟩, ⟨_, _, rfl, ?_, ?_, ?_⟩⟩ <;> decide +kernel

end CodePort
