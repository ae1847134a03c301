/-
The transmit queue.

Messages are chains of segments.  The queue holds them in the order of their priorities, and the
transmit thread takes one segment at a time: the rest of a message goes back to the front, where
a message of a higher priority may still be put before it.

A call is not one step.  `TransmitMessage` signals the semaphore after it has left the section that
the mutex protects, and `SegmentGet` enters the section after it has taken the semaphore, so the
steps of any number of calls interleave.

Main definitions:

* `CodePort.IpcTransmitQueue` — the class, and what its two sections do;
* `CodePort.transmitStep` — one step of any of the calls in progress;
* `CodePort.Message`, `Message.Step` — what the queue is for: a table of the messages, and how much
  of each of them has been handed out.

Main results:

* `CodePort.Queues.step` — one step of the queue is a step of the table;
* `CodePort.Awake` — a queue that is not empty has a signalled semaphore, or a call that will
  signal it;
* `CodePort.transmitQueue_delivers` — **no loss, no duplication, priority order**;
* `CodePort.transmitQueue_awake` — **no lost wake-up**.
-/

import CodePort.IpcAccum
import CodePort.SemLite
import CodePort.StepSystem

set_option relaxedAutoImplicit false
set_option autoImplicit false

namespace CodePort

open IpcSegment StableInsert StepSystem

/-- Set the message ID of the segment at an address. -/
def SegPtr.setMsgId (p : SegPtr) (val : ℕ) : SegPtr := { p with seg := p.seg.setMsgId val }

/-- The IPC transmit queue class. -/
structure IpcTransmitQueue where
  /-- Message ID counter for this node. -/
  msgId : ℕ
  /-- Semaphore to signal the transmit thread. -/
  semTransmit : SemLite
  /-- Message transmit priority queue; the empty chain is the NULL pointer. -/
  priorityQueue : List (List SegPtr)

namespace IpcTransmitQueue

/-- The constructor. -/
def construct : IpcTransmitQueue := ⟨0, SemLite.construct 0 SemLite.unlimited, []⟩

/-- The search for the place of a message.  There is no result if it meets a NULL pointer, whose
priority cannot be asked for. -/
def insertPriority (priority : UInt8) (chain : List SegPtr) :
    List (List SegPtr) → Option (List (List SegPtr))
  -- it wasn't inserted by priority, put it at the end of the transmit queue
  | [] => some [chain]
  | [] :: _ => none
  | (p :: tail) :: q =>
      -- insert it before an item with lower priority (numerically higher value)
      if priority < p.seg.priority then some (chain :: (p :: tail) :: q)
      else (insertPriority priority chain q).map ((p :: tail) :: ·)

/-- Increment the message ID and skip over 0 at wrap-around. -/
def nextMsgId (n : ℕ) : ℕ :=
  if (n + 1) % 2 ^ 32 = 0 then 1 else (n + 1) % 2 ^ 32

/-- `TransmitMessage` up to the end of the section: the message ID it returns, and the queue. -/
def transmitMessage (q : IpcTransmitQueue) : List SegPtr → Option (ℕ × IpcTransmitQueue)
  | [] => some (0, q)
  | head :: tail =>
      let id := nextMsgId q.msgId
      -- the rest of the segments get the message ID as the transmit thread takes them
      (insertPriority head.seg.priority (head.setMsgId id :: tail) q.priorityQueue).map fun l =>
        (id, { q with msgId := id, priorityQueue := l })

/-- What `SegmentGet` returns: the result, and the chain that the out parameter points to if the
call sets it. -/
structure GetAnswer where
  rv : Bool
  segment : Option (List SegPtr)

/-- Get the next segment in the transmit queue. -/
def popFront : List (List SegPtr) → GetAnswer × List (List SegPtr)
  -- the semaphore was signalled but there were no entries
  | [] => (⟨false, none⟩, [])
  | [] :: rest => (⟨false, some []⟩, rest)
  | [p] :: rest => (⟨true, some [p]⟩, rest)
  -- the attached segment gets the message ID and goes back into the queue
  | (p :: next :: tail) :: rest => (⟨true, some [p]⟩, (next.setMsgId p.seg.msgId :: tail) :: rest)

/-- The section of `SegmentGet`. -/
def segmentGet (q : IpcTransmitQueue) : GetAnswer × IpcTransmitQueue :=
  let r := popFront q.priorityQueue
  -- if the queue still has entries keep the semaphore in the signalled state
  let sem := if r.2.length > 0 ∧ q.semTransmit.count = 0 then q.semTransmit.give.2
    else q.semTransmit
  (r.1, { q with semTransmit := sem, priorityQueue := r.2 })

end IpcTransmitQueue

/-! ### Calls in progress -/

/-- The queue and the calls that are between their two steps. -/
structure TransmitState where
  queue : IpcTransmitQueue
  /-- The calls that have left their section and not signalled the semaphore yet. -/
  giving : ℕ
  /-- The calls of `SegmentGet` that have taken the semaphore and not entered the section yet. -/
  getting : ℕ

/-- A queue that nobody has used. -/
def TransmitState.construct : TransmitState := ⟨IpcTransmitQueue.construct, 0, 0⟩

/-- The steps of the calls. -/
inductive TransmitOp
  /-- `TransmitMessage` runs its section. -/
  | transmit (chain : List SegPtr)
  /-- `ReleaseThread` puts a NULL pointer into the queue. -/
  | release
  /-- `TransmitMessage` or `ReleaseThread` signals the transmit thread. -/
  | give
  /-- `SegmentGet` takes the semaphore. -/
  | take
  /-- `SegmentGet` gives up waiting for the semaphore. -/
  | timeout
  /-- `SegmentGet` runs its section. -/
  | get

/-- What a step answers. -/
inductive TransmitAnswer
  /-- The message ID that the call will return. -/
  | sent (id : ℕ)
  | got (a : IpcTransmitQueue.GetAnswer)
  | done

/-- One step of a call. -/
def transmitStep (s : TransmitState) : TransmitOp → Option (TransmitAnswer × TransmitState)
  | .transmit chain =>
      (s.queue.transmitMessage chain).map fun r =>
        (.sent r.1, { s with
          queue := r.2
          giving := if chain.isEmpty then s.giving else s.giving + 1 })
  | .release =>
      some (.done, { s with
        queue := { s.queue with priorityQueue := s.queue.priorityQueue ++ [[]] }
        giving := s.giving + 1 })
  | .give =>
      if 0 < s.giving then
        some (.done, { s with
          queue := { s.queue with semTransmit := s.queue.semTransmit.give.2 }
          giving := s.giving - 1 })
      else none
  | .take =>
      s.queue.semTransmit.take.map fun sem =>
        (.done, { s with queue := { s.queue with semTransmit := sem }, getting := s.getting + 1 })
  | .timeout => some (.got ⟨false, none⟩, s)
  | .get =>
      if 0 < s.getting then
        some (.got s.queue.segmentGet.1,
          { s with queue := s.queue.segmentGet.2, getting := s.getting - 1 })
      else none

/-! ### What the queue is for -/

/-- A message, and how many of its segments have been handed out. -/
structure Message where
  /-- The message ID that `TransmitMessage` returned. -/
  id : ℕ
  chain : List SegPtr
  out : ℕ

namespace Message

/-- The priority that the segments share. -/
def priority (m : Message) : ℕ := (m.chain.head?.map fun p => p.seg.priority.toNat).getD 0

/-- Segments of the message have not been handed out yet. -/
def waiting (m : Message) : Bool := m.out < m.chain.length

/-- The segments with the message ID, as they come out of the queue. -/
def segments (m : Message) : List SegPtr := m.chain.map fun p => p.setMsgId m.id

/-- The segments that have been handed out. -/
def handedOut (m : Message) : List SegPtr := m.segments.take m.out

/-- What is left of the message, as the queue holds it: the first segment has got the ID. -/
def rest (m : Message) : List SegPtr :=
  match m.chain.drop m.out with
  | [] => []
  | p :: tail => p.setMsgId m.id :: tail

/-- One more segment is handed out. -/
def next (m : Message) : Message := { m with out := m.out + 1 }

/-- **The table of the messages**, in the order of `TransmitMessage`, and what a step does to it.
The segment that is handed out belongs to the first message of the highest priority. -/
inductive Step : List Message → TransmitOp → TransmitAnswer → List Message → Prop
  | sent {t chain id} (hpos : 0 < id) (hlt : id < 2 ^ 32) :
      Step t (.transmit chain) (.sent id) (t ++ [⟨id, chain, 0⟩])
  | got {t₁ m t₂ p} (hp : m.chain[m.out]? = some p) (hid : (p.setMsgId m.id).seg.msgId = m.id)
      (hlt : ∀ b ∈ t₁, b.waiting → m.priority < b.priority)
      (hle : ∀ b ∈ t₂, b.waiting → m.priority ≤ b.priority) :
      Step (t₁ ++ m :: t₂) .get (.got ⟨true, some [p.setMsgId m.id]⟩) (t₁ ++ m.next :: t₂)
  | empty {t} (h : ∀ b ∈ t, b.waiting = false) : Step t .get (.got ⟨false, none⟩) t
  | give {t} : Step t .give .done t
  | take {t} : Step t .take .done t
  | timeout {t} : Step t .timeout (.got ⟨false, none⟩) t

end Message

/-- The messages that a run of steps puts into the queue, with the answers. -/
def sent : List TransmitOp → List TransmitAnswer → List (ℕ × List SegPtr)
  | .transmit chain :: os, .sent id :: as => (id, chain) :: sent os as
  | _ :: os, _ :: as => sent os as
  | _, _ => []

/-- The segments that one step hands out. -/
def TransmitAnswer.received : TransmitAnswer → List SegPtr
  | .got ⟨true, some l⟩ => l
  | _ => []

/-- The segments that a run of steps hands out. -/
def received (as : List TransmitAnswer) : List SegPtr := as.flatMap TransmitAnswer.received

/-- A chain of segments as `IpcStreamSeg` builds it: the segments have full size buffers and share
one priority. -/
structure IsChain (chain : List SegPtr) : Prop where
  ne_nil : chain ≠ []
  full : ∀ p ∈ chain, p.seg.Full
  priority_eq : ∀ p ∈ chain, ∀ q ∈ chain, p.seg.priority = q.seg.priority

/-- A step other than those of `ReleaseThread`, and with a chain of segments if it puts one into
the queue. -/
def TransmitOp.Sends : TransmitOp → Prop
  | .transmit chain => IsChain chain
  | .release => False
  | _ => True

/-! ### The queue refines the table -/

namespace Message

variable {m : Message}

/-- What the messages of the table satisfy. -/
structure Ok (m : Message) : Prop where
  chain : IsChain m.chain
  id_lt : m.id < 2 ^ 32

theorem Ok.next (h : m.Ok) : m.next.Ok := ⟨h.chain, h.id_lt⟩

@[simp] theorem priority_next (m : Message) : m.next.priority = m.priority := rfl

theorem waiting_iff : m.waiting = true ↔ m.out < m.chain.length := decide_eq_true_iff

/-- The rest of a message that waits: a segment with the ID, and what is linked behind it. -/
theorem exists_rest (h : m.waiting = true) : ∃ p tail, m.chain.drop m.out = p :: tail ∧
    m.chain[m.out]? = some p ∧ m.rest = p.setMsgId m.id :: tail := by
  have hlt := waiting_iff.1 h
  have hdrop := List.drop_eq_getElem_cons hlt
  refine ⟨m.chain[m.out], m.chain.drop (m.out + 1), hdrop, List.getElem?_eq_getElem hlt, ?_⟩
  rw [rest, hdrop]

theorem msgId_setMsgId (h : m.Ok) {p : SegPtr} (hp : p ∈ m.chain) :
    (p.setMsgId m.id).seg.msgId = m.id :=
  IpcSegment.msgId_setMsgId (h.chain.full p hp) h.id_lt

theorem priority_eq (h : m.Ok) {p : SegPtr} (hp : p ∈ m.chain) :
    p.seg.priority.toNat = m.priority := by
  obtain ⟨q, tail, hq⟩ := List.exists_cons_of_ne_nil h.chain.ne_nil
  rw [priority, hq, List.head?_cons, Option.map_some, Option.getD_some,
    h.chain.priority_eq p hp q (hq ▸ List.mem_cons_self)]

end Message

open Message

/-- **The search for the place of a message** inserts by priority, behind the messages of the same
priority. -/
theorem insertPriority_map {m : Message} {priority : UInt8} (hm : priority.toNat = m.priority)
    {l : List Message} (hok : ∀ b ∈ l, b.Ok) (hwait : ∀ b ∈ l, b.waiting = true) :
    IpcTransmitQueue.insertPriority priority m.rest (l.map rest) =
      some ((insertByKey Message.priority m l).map rest) := by
  induction l with
  | nil => rfl
  | cons b l ih =>
      obtain ⟨p, tail, -, hp, hrest⟩ := exists_rest (hwait b List.mem_cons_self)
      have hb := hok b List.mem_cons_self
      have hmem : p ∈ b.chain := List.mem_of_getElem? hp
      have hprio : priority < (p.setMsgId b.id).seg.priority ↔ m.priority < b.priority := by
        rw [SegPtr.setMsgId, priority_setMsgId (hb.chain.full p hmem), UInt8.lt_iff_toNat_lt, hm,
          Message.priority_eq hb hmem]
      rw [List.map_cons, hrest, IpcTransmitQueue.insertPriority, insertByKey]
      by_cases h : m.priority < b.priority
      · rw [if_pos (hprio.2 h), if_pos h, List.map_cons, List.map_cons, hrest]
      · rw [if_neg (fun hc => h (hprio.1 hc)), if_neg h,
          ih (fun c hc => hok c (List.mem_cons_of_mem _ hc))
            fun c hc => hwait c (List.mem_cons_of_mem _ hc), Option.map_some, List.map_cons, hrest]

/-- The queue of a table: what is left of the messages, by priority and then in their order. -/
def queueOf (t : List Message) : List (List SegPtr) :=
  (insertAll Message.priority (t.filter Message.waiting)).map rest

/-- The queue holds what the table says. -/
structure Queues (s : TransmitState) (t : List Message) : Prop where
  queue_eq : s.queue.priorityQueue = queueOf t
  ok : ∀ m ∈ t, m.Ok

theorem queues_construct : Queues TransmitState.construct [] := ⟨rfl, by simp⟩

theorem nextMsgId_pos (n : ℕ) : 0 < IpcTransmitQueue.nextMsgId n := by
  rw [IpcTransmitQueue.nextMsgId]
  split_ifs with h
  · exact Nat.one_pos
  · exact Nat.pos_of_ne_zero h

theorem nextMsgId_lt (n : ℕ) : IpcTransmitQueue.nextMsgId n < 2 ^ 32 := by
  rw [IpcTransmitQueue.nextMsgId]
  split_ifs
  · decide
  · exact Nat.mod_lt _ (by decide)

/-- A message that is put into the queue. -/
theorem queueOf_concat {t : List Message} {head : SegPtr} {tail : List SegPtr} {id : ℕ}
    (hok : ∀ m ∈ t, m.Ok) :
    IpcTransmitQueue.insertPriority head.seg.priority (head.setMsgId id :: tail) (queueOf t) =
      some (queueOf (t ++ [⟨id, head :: tail, 0⟩])) := by
  have hfilter : (t ++ [Message.mk id (head :: tail) 0]).filter Message.waiting =
      t.filter Message.waiting ++ [Message.mk id (head :: tail) 0] := by
    rw [List.filter_append]
    rfl
  have hperm := perm_insertAll Message.priority (t.filter Message.waiting)
  rw [queueOf, queueOf, hfilter, insertAll_concat]
  refine insertPriority_map (m := ⟨id, head :: tail, 0⟩) rfl ?_ ?_
  · intro b hb
    exact hok b (List.mem_filter.1 (hperm.subset hb)).1
  · intro b hb
    exact (List.mem_filter.1 (hperm.subset hb)).2

/-- **The front of the queue** is the first message of the highest priority.  When its first
segment is taken, the rest of it takes its place. -/
theorem popFront_queueOf {t₁ t₂ : List Message} {m : Message} (hok : m.Ok)
    (hwait : m.waiting = true) (hlt : ∀ b ∈ t₁, b.waiting → m.priority < b.priority)
    (hle : ∀ b ∈ t₂, b.waiting → m.priority ≤ b.priority) :
    ∃ p, m.chain[m.out]? = some p ∧ IpcTransmitQueue.popFront (queueOf (t₁ ++ m :: t₂)) =
      (⟨true, some [p.setMsgId m.id]⟩, queueOf (t₁ ++ m.next :: t₂)) := by
  have hlt' : ∀ b ∈ t₁.filter Message.waiting, m.priority < b.priority := by
    intro b hb
    obtain ⟨hb, hbw⟩ := List.mem_filter.1 hb
    exact hlt b hb hbw
  have hle' : ∀ b ∈ t₂.filter Message.waiting, m.priority ≤ b.priority := by
    intro b hb
    obtain ⟨hb, hbw⟩ := List.mem_filter.1 hb
    exact hle b hb hbw
  obtain ⟨p, tail, hdrop, hp, hrest⟩ := exists_rest hwait
  refine ⟨p, hp, ?_⟩
  rw [queueOf, List.filter_append, List.filter_cons_of_pos hwait,
    insertAll_of_first_min _ hlt' hle', List.map_cons, hrest]
  have htail : m.next.chain.drop m.next.out = tail := by
    change m.chain.drop (m.out + 1) = tail
    rw [← List.drop_drop, hdrop, List.drop_one, List.tail_cons]
  have hlen : m.next.chain.length = m.next.out + tail.length := by
    have h₁ := waiting_iff.1 hwait
    have h₂ := congrArg List.length htail
    rw [List.length_drop] at h₂
    change m.chain.length - (m.out + 1) = tail.length at h₂
    change m.chain.length = m.out + 1 + tail.length
    omega
  cases tail with
  | nil =>
      -- the message is over
      have hover : ¬ m.next.waiting = true := by
        rw [waiting_iff, hlen, List.length_nil]
        omega
      rw [queueOf, List.filter_append, List.filter_cons_of_neg hover]
      rfl
  | cons q tail =>
      have hgoes : m.next.waiting = true := by
        rw [waiting_iff, hlen, List.length_cons]
        omega
      have hnext : m.next.rest = q.setMsgId m.id :: tail := by
        rw [rest, htail]
        rfl
      rw [queueOf, List.filter_append, List.filter_cons_of_pos hgoes,
        insertAll_of_first_min _ (by simpa using hlt') (by simpa using hle'), List.map_cons, hnext,
        IpcTransmitQueue.popFront, msgId_setMsgId hok (List.mem_of_getElem? hp)]

/-- **The queue refines the table**: one step of any call is a step of the table. -/
theorem Queues.step {s s' : TransmitState} {t : List Message} {o : TransmitOp}
    {a : TransmitAnswer} (hsends : o.Sends) (h : Queues s t)
    (hstep : transmitStep s o = some (a, s')) : ∃ t', Message.Step t o a t' ∧ Queues s' t' := by
  cases o with
  | transmit chain =>
      obtain ⟨r, hr, heq⟩ := Option.map_eq_some_iff.1 hstep
      obtain ⟨rfl, rfl⟩ := Prod.mk.inj heq
      have hne := hsends.ne_nil
      cases chain with
      | nil => exact absurd rfl hne
      | cons head tail =>
          obtain ⟨l, hl, rfl⟩ := Option.map_eq_some_iff.1 hr
          rw [h.queue_eq, queueOf_concat h.ok, Option.some.injEq] at hl
          refine ⟨_, .sent (nextMsgId_pos _) (nextMsgId_lt _), hl.symm, ?_⟩
          intro m hm
          rcases List.mem_append.1 hm with hm | hm
          · exact h.ok m hm
          · rw [List.mem_singleton.1 hm]
            exact ⟨hsends, nextMsgId_lt _⟩
  | release => exact hsends.elim
  | give =>
      rw [transmitStep] at hstep
      split_ifs at hstep
      obtain ⟨rfl, rfl⟩ := Prod.mk.inj (Option.some.inj hstep)
      exact ⟨t, .give, h.queue_eq, h.ok⟩
  | take =>
      obtain ⟨sem, -, heq⟩ := Option.map_eq_some_iff.1 hstep
      obtain ⟨rfl, rfl⟩ := Prod.mk.inj heq
      exact ⟨t, .take, h.queue_eq, h.ok⟩
  | timeout =>
      obtain ⟨rfl, rfl⟩ := Prod.mk.inj (Option.some.inj hstep)
      exact ⟨t, .timeout, h⟩
  | get =>
      rw [transmitStep] at hstep
      split_ifs at hstep
      obtain ⟨rfl, rfl⟩ := Prod.mk.inj (Option.some.inj hstep)
      rw [IpcTransmitQueue.segmentGet, h.queue_eq]
      rcases eq_or_ne (t.filter Message.waiting) [] with hnil | hne
      · -- the semaphore was signalled but there are no entries
        have hempty : queueOf t = [] := by
          rw [queueOf, hnil]
          rfl
        rw [hempty]
        refine ⟨t, .empty ?_, hempty.symm, h.ok⟩
        intro b hb
        simpa using List.filter_eq_nil_iff.1 hnil b hb
      · obtain ⟨l₁, m, l₂, hl, hlt, hle⟩ := exists_first_min Message.priority hne
        obtain ⟨t₁, t', rfl, rfl, ht'⟩ := List.filter_eq_append_iff.1 hl
        obtain ⟨u, t₂, rfl, hu, hwait, rfl⟩ := List.filter_eq_cons_iff.1 ht'
        have hlt' : ∀ b ∈ t₁ ++ u, b.waiting → m.priority < b.priority := by
          intro b hb hbw
          rcases List.mem_append.1 hb with hb | hb
          · exact hlt b (List.mem_filter.2 ⟨hb, hbw⟩)
          · exact absurd hbw (hu b hb)
        have hle' : ∀ b ∈ t₂, b.waiting → m.priority ≤ b.priority := fun b hb hbw =>
          hle b (List.mem_filter.2 ⟨hb, hbw⟩)
        have hm : m.Ok := h.ok m (by simp)
        obtain ⟨p, hp, hpop⟩ := popFront_queueOf hm hwait hlt' hle'
        rw [← List.append_assoc, hpop]
        refine ⟨_, .got hp (msgId_setMsgId hm (List.mem_of_getElem? hp)) hlt' hle', rfl, ?_⟩
        intro b hb
        rcases List.mem_append.1 hb with hb | hb
        · exact h.ok b (by simp only [List.mem_append] at hb ⊢; tauto)
        · rcases List.mem_cons.1 hb with rfl | hb
          · exact hm.next
          · exact h.ok b (by simp [hb])

/-! ### The semaphore -/

/-- **A transmit thread is not left asleep over a queue with entries**: the semaphore is in the
signalled state, or a call in progress will signal it. -/
structure Awake (s : TransmitState) : Prop where
  maxCount_pos : 0 < s.queue.semTransmit.maxCount
  signalled : s.queue.priorityQueue ≠ [] →
    0 < s.queue.semTransmit.count ∨ 0 < s.giving ∨ 0 < s.getting

theorem awake_construct : Awake TransmitState.construct := ⟨by decide, fun h => absurd rfl h⟩

theorem Awake.step {s s' : TransmitState} {o : TransmitOp} {a : TransmitAnswer} (h : Awake s)
    (hstep : transmitStep s o = some (a, s')) : Awake s' := by
  cases o with
  | transmit chain =>
      obtain ⟨r, hr, heq⟩ := Option.map_eq_some_iff.1 hstep
      obtain ⟨-, rfl⟩ := Prod.mk.inj heq
      cases chain with
      | nil =>
          obtain rfl := Option.some.inj hr
          exact h
      | cons head tail =>
          obtain ⟨l, -, rfl⟩ := Option.map_eq_some_iff.1 hr
          exact ⟨h.maxCount_pos, fun _ => Or.inr (Or.inl (Nat.succ_pos _))⟩
  | release =>
      obtain ⟨-, rfl⟩ := Prod.mk.inj (Option.some.inj hstep)
      exact ⟨h.maxCount_pos, fun _ => Or.inr (Or.inl (Nat.succ_pos _))⟩
  | give =>
      rw [transmitStep] at hstep
      split_ifs at hstep
      obtain ⟨-, rfl⟩ := Prod.mk.inj (Option.some.inj hstep)
      exact ⟨(SemLite.maxCount_give _).symm ▸ h.maxCount_pos,
        fun _ => Or.inl (SemLite.count_give_pos h.maxCount_pos)⟩
  | take =>
      obtain ⟨sem, hsem, heq⟩ := Option.map_eq_some_iff.1 hstep
      obtain ⟨-, rfl⟩ := Prod.mk.inj heq
      have hmax := (SemLite.take_eq_some.1 hsem).2
      exact ⟨hmax ▸ h.maxCount_pos, fun _ => Or.inr (Or.inr (Nat.succ_pos _))⟩
  | timeout =>
      obtain ⟨-, rfl⟩ := Prod.mk.inj (Option.some.inj hstep)
      exact h
  | get =>
      rw [transmitStep] at hstep
      split_ifs at hstep
      obtain ⟨-, rfl⟩ := Prod.mk.inj (Option.some.inj hstep)
      have hgive := SemLite.count_give_pos h.maxCount_pos
      refine ⟨?_, fun hne => Or.inl ?_⟩
      · simp only [IpcTransmitQueue.segmentGet]
        split_ifs
        · rw [SemLite.maxCount_give]
          exact h.maxCount_pos
        · exact h.maxCount_pos
      · -- the section itself keeps the semaphore in the signalled state
        have hlen : (IpcTransmitQueue.popFront s.queue.priorityQueue).2.length > 0 :=
          List.length_pos_iff.2 hne
        simp only [IpcTransmitQueue.segmentGet]
        split_ifs with hzero
        · exact hgive
        · exact Nat.pos_of_ne_zero fun hc => hzero ⟨hlen, hc⟩

/-! ### Whole runs -/

namespace Message

/-- The message ID and the chain that were put into the queue. -/
def origin (m : Message) : ℕ × List SegPtr := (m.id, m.chain)

theorem handedOut_next {m : Message} {p : SegPtr} (hp : m.chain[m.out]? = some p) :
    m.next.handedOut = m.handedOut ++ [p.setMsgId m.id] := by
  have hget : m.segments[m.out]? = some (p.setMsgId m.id) := by
    rw [segments, List.getElem?_map, hp, Option.map_some]
  change m.segments.take (m.out + 1) = m.segments.take m.out ++ _
  rw [List.take_add_one, hget]
  rfl

/-- A message of which nothing waits has been handed out as a whole. -/
theorem handedOut_of_not_waiting {m : Message} (h : m.waiting = false) :
    m.handedOut = m.segments := by
  refine List.take_of_length_le ?_
  rw [segments, List.length_map]
  exact not_lt.1 fun hc => Bool.false_ne_true (h.symm.trans (waiting_iff.2 hc))

end Message

/-- The table holds the messages that were put into the queue, in their order. -/
theorem trace_sent {ops : List TransmitOp} {as : List TransmitAnswer} {t t' : List Message}
    (h : Trace Message.Step ops as t t') :
    t'.map Message.origin = t.map Message.origin ++ sent ops as := by
  induction h with
  | nil t => simp [sent]
  | cons hstep _ ih =>
      rw [ih]
      cases hstep with
      | sent => rw [List.map_append, List.append_assoc, sent]; rfl
      | got => rw [List.map_append, List.map_append]; rfl
      | empty => rfl
      | give => rfl
      | take => rfl
      | timeout => rfl

/-- **Every segment is handed out at most once**: what comes out of the queue is what the table says
that has been handed out. -/
theorem trace_received {ops : List TransmitOp} {as : List TransmitAnswer} {t t' : List Message}
    (h : Trace Message.Step ops as t t') :
    (t.flatMap Message.handedOut ++ received as).Perm (t'.flatMap Message.handedOut) := by
  induction h with
  | nil t => rw [received, List.flatMap_nil, List.append_nil]
  | cons hstep _ ih =>
      refine List.Perm.trans ?_ ih
      rw [received, List.flatMap_cons, ← List.append_assoc]
      refine List.Perm.append_right _ ?_
      cases hstep with
      | sent =>
          simp [handedOut, TransmitAnswer.received]
      | got hp =>
          simp only [List.flatMap_append, List.flatMap_cons, handedOut_next hp,
            TransmitAnswer.received, List.append_assoc]
          refine List.Perm.append_left _ (List.Perm.append_left _ ?_)
          exact List.perm_append_comm
      | empty => simp [TransmitAnswer.received]
      | give => simp [TransmitAnswer.received]
      | take => simp [TransmitAnswer.received]
      | timeout => simp [TransmitAnswer.received]

/-- How many segments wait. -/
def waitingCount (t : List Message) : ℕ := (t.map fun m => m.chain.length - m.out).sum

theorem waitingCount_eq_zero {t : List Message} (h : waitingCount t = 0) :
    ∀ m ∈ t, m.waiting = false := by
  intro m hm
  have := List.sum_eq_zero_iff_forall_eq_nat.1 h _ (List.mem_map_of_mem hm)
  exact decide_eq_false (by omega)

theorem waitingCount_next {t₁ t₂ : List Message} {m : Message} {p : SegPtr}
    (hp : m.chain[m.out]? = some p) :
    waitingCount (t₁ ++ m :: t₂) = waitingCount (t₁ ++ m.next :: t₂) + 1 := by
  obtain ⟨hlt, -⟩ := List.getElem?_eq_some_iff.1 hp
  simp only [waitingCount, List.map_append, List.map_cons, List.sum_append, List.sum_cons, next]
  omega

/-- Calls of `SegmentGet`, one after another. -/
def segmentGets : ℕ → List TransmitOp
  | 0 => []
  | n + 1 => .take :: .get :: segmentGets n

/-- **Calls of `SegmentGet` empty the queue**: when no other call is in progress, each of them finds
the semaphore in the signalled state and returns a segment. -/
theorem drain {s : TransmitState} {t : List Message} (h : Queues s t) (hawake : Awake s)
    (hgive : s.giving = 0) (hget : s.getting = 0) :
    ∃ as s' t', run transmitStep (segmentGets (waitingCount t)) s = some (as, s') ∧
      Trace Message.Step (segmentGets (waitingCount t)) as t t' ∧ ∀ m ∈ t', m.waiting = false := by
  induction hn : waitingCount t generalizing s t with
  | zero => exact ⟨[], s, t, rfl, .nil t, waitingCount_eq_zero hn⟩
  | succ n ih =>
      have hne : s.queue.priorityQueue ≠ [] := by
        intro hc
        rw [h.queue_eq, queueOf, List.map_eq_nil_iff] at hc
        have hperm := perm_insertAll Message.priority (t.filter Message.waiting)
        rw [hc, List.nil_perm] at hperm
        have hall : ∀ x ∈ t.map fun m => m.chain.length - m.out, x = 0 := by
          intro x hx
          obtain ⟨m, hm, rfl⟩ := List.mem_map.1 hx
          have := List.filter_eq_nil_iff.1 hperm m hm
          rw [waiting_iff] at this
          omega
        have hzero : waitingCount t = 0 := List.sum_eq_zero_iff_forall_eq_nat.2 hall
        omega
      have hcount : 0 < s.queue.semTransmit.count := by
        rcases hawake.signalled hne with hc | hc | hc
        · exact hc
        · omega
        · omega
      obtain ⟨sem, hsem⟩ := Option.ne_none_iff_exists'.1 (SemLite.take_ne_none hcount)
      set s₁ : TransmitState :=
        { s with queue := { s.queue with semTransmit := sem }, getting := s.getting + 1 } with hs₁
      have htake : transmitStep s .take = some (.done, s₁) := by
        rw [transmitStep, hsem, Option.map_some]
      have h₁ : Queues s₁ t := ⟨h.queue_eq, h.ok⟩
      have hawake₁ := hawake.step htake
      have hpos : 0 < s₁.getting := Nat.succ_pos _
      obtain ⟨a, s₂, hstep₂, hgive₂, hget₂⟩ : ∃ a s₂, transmitStep s₁ .get = some (a, s₂) ∧
          s₂.giving = 0 ∧ s₂.getting = 0 := by
        rw [transmitStep, if_pos hpos]
        exact ⟨_, _, rfl, hgive, by simp [hs₁, hget]⟩
      obtain ⟨t₂, htable, h₂⟩ := h₁.step (o := .get) trivial hstep₂
      have hless : waitingCount t₂ = n := by
        cases htable with
        | got hp =>
            rw [waitingCount_next hp] at hn
            omega
        | empty hnone =>
            refine absurd (h.queue_eq.trans ?_) hne
            rw [queueOf, List.filter_eq_nil_iff.2 fun m hm => by simp [hnone m hm]]
            rfl
      obtain ⟨as, s', t', hrun, htrace, hdone⟩ :=
        ih h₂ (hawake₁.step hstep₂) hgive₂ hget₂ hless
      exact ⟨.done :: a :: as, s', t',
        run_cons_eq_some.2 ⟨_, s₁, _, htake, run_cons_eq_some.2 ⟨_, _, _, hstep₂, hrun, rfl⟩, rfl⟩,
        .cons .take (.cons htable htrace), hdone⟩

/-- **No loss, no duplication, priority order.**  In every interleaving of the steps of
`TransmitMessage` and `SegmentGet`, the queue behaves like the table of the messages: a segment
that comes out is detached, carries the message ID that `TransmitMessage` returned, is the next one
of its message, and no message with a higher priority, or with the same priority and put into the
queue earlier, waits.  What has come out is never more than once there, and when no call is in
progress, further calls of `SegmentGet` return everything that is still missing. -/
theorem transmitQueue_delivers {ops : List TransmitOp} {as : List TransmitAnswer}
    {s : TransmitState} (hops : ∀ o ∈ ops, o.Sends)
    (hrun : run transmitStep ops TransmitState.construct = some (as, s)) :
    ∃ t, Trace Message.Step ops as [] t ∧ t.map Message.origin = sent ops as ∧
      (received as).Perm (t.flatMap Message.handedOut) ∧
      (s.giving = 0 → s.getting = 0 → ∃ n as' s' t',
        run transmitStep (segmentGets n) s = some (as', s') ∧
        Trace Message.Step (segmentGets n) as' t t' ∧ t'.map Message.origin = sent ops as ∧
        (received (as ++ as')).Perm (t'.flatMap Message.segments)) := by
  obtain ⟨t, htrace, hqueues⟩ :=
    exists_trace (fun hsends h hstep => h.step hsends hstep) hops queues_construct hrun
  have hawake : Awake s := run_invariant (fun h hstep => h.step hstep) awake_construct hrun
  have horigin : t.map Message.origin = sent ops as := trace_sent htrace
  refine ⟨t, htrace, horigin, trace_received htrace, ?_⟩
  intro hgive hget
  obtain ⟨as', s', t', hrun', htrace', hdone⟩ := drain hqueues hawake hgive hget
  have hsent : ∀ n bs, sent (segmentGets n) bs = [] := by
    intro n
    induction n with
    | zero => intro bs; cases bs <;> rfl
    | succ n ih =>
        rintro (_ | ⟨a, _ | ⟨b, bs⟩⟩)
        · rfl
        · cases a <;> rfl
        · rw [segmentGets, sent, sent, ih]
          all_goals simp
  refine ⟨_, as', s', t', hrun', htrace', ?_, ?_⟩
  · rw [trace_sent htrace', hsent, List.append_nil, horigin]
  · have hall : t'.flatMap Message.handedOut = t'.flatMap Message.segments :=
      List.flatMap_congr fun m hm => handedOut_of_not_waiting (hdone m hm)
    exact hall ▸ trace_received (htrace.append htrace')

/-- A new segment with a priority, at an address. -/
def newSegment (addr : ℕ) (priority : UInt8) : SegPtr :=
  ⟨addr, (IpcSegment.construct exactPools).setPriority priority⟩

theorem full_newSegment (addr : ℕ) (priority : UInt8) : (newSegment addr priority).seg.Full :=
  (full_construct (Option.some_ne_none _)).hdrWr _ _

/-- A message of two segments, half of which is sent when a message of a higher priority comes. -/
def sampleTransmits : List TransmitOp :=
  [.transmit [newSegment 0 2, newSegment 1 2], .give, .take, .get, .transmit [newSegment 2 1],
    .take, .give, .get]

theorem transmitQueue_delivers_two : ∃ as s t,
    run transmitStep sampleTransmits TransmitState.construct = some (as, s) ∧
      Trace Message.Step sampleTransmits as [] t ∧
      (received as).Perm (t.flatMap Message.handedOut) := by
  have hone : ∀ addr priority, IsChain [newSegment addr priority] := fun addr priority =>
    ⟨List.cons_ne_nil _ _, by simpa using full_newSegment addr priority, by simp⟩
  have htwo : IsChain [newSegment 0 2, newSegment 1 2] :=
    ⟨List.cons_ne_nil _ _, by simp [full_newSegment], by simp [newSegment]⟩
  have hops : ∀ o ∈ sampleTransmits, o.Sends := by
    simp [sampleTransmits, TransmitOp.Sends, hone, htwo]
  have hsome : (run transmitStep sampleTransmits TransmitState.construct).isSome := by
    decide +kernel
  obtain ⟨⟨as, s⟩, hrun⟩ := Option.isSome_iff_exists.1 hsome
  obtain ⟨t, htrace, -, hperm, -⟩ := transmitQueue_delivers hops hrun
  exact ⟨as, s, t, hrun, htrace, hperm⟩

/-- **No lost wake-up.**  In every interleaving of the steps of any number of calls, a queue that is
not empty has a signalled semaphore, or a call that will signal it, or a call that has taken the
signal and will look into the queue; so a thread that waits when no call is in progress can take
the semaphore. -/
theorem transmitQueue_awake {ops : List TransmitOp} {as : List TransmitAnswer} {s : TransmitState}
    (hrun : run transmitStep ops TransmitState.construct = some (as, s))
    (hne : s.queue.priorityQueue ≠ []) :
    (0 < s.queue.semTransmit.count ∨ 0 < s.giving ∨ 0 < s.getting) ∧
      (s.giving = 0 → s.getting = 0 → s.queue.semTransmit.take ≠ none) := by
  have hawake : Awake s := run_invariant (fun h hstep => h.step hstep) awake_construct hrun
  refine ⟨hawake.signalled hne, fun hgive hget => SemLite.take_ne_none ?_⟩
  rcases hawake.signalled hne with hcount | hcount | hcount
  · exact hcount
  · omega
  · omega

/-- A segment is left when two calls have taken the signals of the two messages. -/
theorem transmitQueue_awake_two : ∃ as s,
    run transmitStep sampleTransmits TransmitState.construct = some (as, s) ∧
      s.queue.priorityQueue ≠ [] ∧
      (0 < s.queue.semTransmit.count ∨ 0 < s.giving ∨ 0 < s.getting) := by
  have hsome : (run transmitStep sampleTransmits TransmitState.construct).any
      fun r => decide (r.2.queue.priorityQueue ≠ []) := by
    decide +kernel
  obtain ⟨⟨as, s⟩, hrun, hne⟩ := (Option.any_eq_true _ _).1 hsome
  have hne : s.queue.priorityQueue ≠ [] := of_decide_eq_true hne
  exact ⟨as, s, hrun, hne, (transmitQueue_awake hrun hne).1⟩

end CodePort
