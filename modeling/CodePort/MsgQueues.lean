/-
The message queues of the operating system.

A `Queue` opens a message queue by its name.  A message of at most the size of the queue is put behind
the others if there is room, and whoever receives gets the first one as a whole.  When the queue is full,
or empty, the call returns after its timeout.  Several objects with one name are one queue, and that is
how the nodes and the router are connected.

A call that need not wait has no use for its deadline, and a host need not look at it then.  Some hosts do,
and refuse the call when the nanoseconds are out of range.  The deadlines of `RecvThread`, of `XmitThread`
and of the receiving half of the router always are, so on such a host no datagram is ever received.

Main definitions:

* `CodePort.MsgQueue` — a queue, which never holds more than it may;
* `CodePort.MsgQueues` — the queues by their names, with `put` and `pop`;
* `CodePort.MqHost` — the clock of a host, and whether it looks at every deadline;
* `CodePort.queueDev` — a queue as a device of a transport.

Main results:

* `CodePort.send_queueDev`, `recv_queueDev` — **the device does what the loops of the base class do**
  with the calls of the operating system;
* `CodePort.queueDev_recv_of_checksAlways` — **a host that looks at every deadline delivers nothing**;
* `CodePort.sendBuf_queueDev`, `recvBuf_queueDev` — what a transfer of a buffer does to the queue;
* `CodePort.recvLoop_datagram` — a turn of the receive thread takes a datagram.
-/

import CodePort.IpcStrmRecv
import CodePort.MessageView
import CodePort.Queue
import CodePort.SegmentFull

set_option relaxedAutoImplicit false
set_option autoImplicit false

namespace CodePort

open IpcSegment WhileLoop

/-! ### Queues -/

/-- A message queue. -/
structure MsgQueue where
  /-- The maximal length of a message. -/
  msgSize : ℕ
  maxMsgs : ℕ
  msgs : List (List UInt8)
  length_le : ∀ m ∈ msgs, m.length ≤ msgSize
  room : msgs.length ≤ maxMsgs

namespace MsgQueue

/-- A new queue. -/
def construct (msgSize maxMsgs : ℕ) : MsgQueue where
  msgSize := msgSize
  maxMsgs := maxMsgs
  msgs := []
  length_le _ hm := absurd hm List.not_mem_nil
  room := Nat.zero_le _

/-- A message fits, and there is room for it. -/
def Accepts (q : MsgQueue) (l : List UInt8) : Prop := l.length ≤ q.msgSize ∧ q.msgs.length < q.maxMsgs

instance (q : MsgQueue) (l : List UInt8) : Decidable (q.Accepts l) := inferInstanceAs (Decidable (_ ∧ _))

/-- A message is put behind the others. -/
def push (q : MsgQueue) (l : List UInt8) (h : q.Accepts l) : MsgQueue where
  msgSize := q.msgSize
  maxMsgs := q.maxMsgs
  msgs := q.msgs ++ [l]
  length_le m hm := by
    rcases List.mem_append.1 hm with hm | hm
    · exact q.length_le m hm
    · rw [List.mem_singleton.1 hm]
      exact h.1
  room := by
    rw [List.length_append, List.length_singleton]
    exact h.2

/-- The first message is taken. -/
def pop (q : MsgQueue) : MsgQueue where
  msgSize := q.msgSize
  maxMsgs := q.maxMsgs
  msgs := q.msgs.tail
  length_le m hm := q.length_le m (List.mem_of_mem_tail hm)
  room := by
    rw [List.length_tail]
    exact (Nat.sub_le _ _).trans q.room

end MsgQueue

/-- The message queues by their names. -/
abbrev MsgQueues : Type := List UInt8 → MsgQueue

namespace MsgQueues

/-- A message is put into a queue, if that accepts it. -/
def put (d : MsgQueues) (name l : List UInt8) : MsgQueues :=
  if h : (d name).Accepts l then Function.update d name ((d name).push l h) else d

/-- The first message of a queue is taken. -/
def pop (d : MsgQueues) (name : List UInt8) : MsgQueues := Function.update d name (d name).pop

variable {d : MsgQueues} {name l : List UInt8}

theorem msgs_put (h : (d name).Accepts l) : (d.put name l name).msgs = (d name).msgs ++ [l] := by
  rw [put, dif_pos h, Function.update_self]
  rfl

theorem put_of_not (h : ¬ (d name).Accepts l) : d.put name l = d := dif_neg h

theorem put_of_ne {name' : List UInt8} (hne : name' ≠ name) : d.put name l name' = d name' := by
  rw [put]
  split_ifs
  · exact Function.update_of_ne hne _ _
  · rfl

theorem length_put_le (d : MsgQueues) (name l name' : List UInt8) :
    (d.put name l name').msgs.length ≤ (d name').msgs.length + 1 := by
  by_cases hacc : (d name).Accepts l
  · by_cases hname : name' = name
    · rw [hname, msgs_put hacc, List.length_append, List.length_singleton]
    · rw [put_of_ne hname]
      exact Nat.le_succ _
  · rw [put_of_not hacc]
    exact Nat.le_succ _

theorem msgs_pop : (d.pop name name).msgs = (d name).msgs.tail := by
  rw [pop, Function.update_self]
  rfl

theorem pop_of_ne {name' : List UInt8} (hne : name' ≠ name) : d.pop name name' = d name' :=
  Function.update_of_ne hne _ _

/-- Nothing is taken from a queue that is empty. -/
theorem ite_pop (d : MsgQueues) (name : List UInt8) :
    (if (d name).msgs = [] then d else d.pop name) = d.pop name := by
  split_ifs with hmsgs
  · have hsame : (d name).pop = d name := by
      rcases hq : d name with ⟨msgSize, maxMsgs, msgs, hlen, hroom⟩
      rw [hq] at hmsgs
      subst hmsgs
      rfl
    rw [pop, hsame, Function.update_eq_self]
  · rfl

/-- The dimensions of the queues never change. -/
theorem shape_put (d : MsgQueues) (name l name' : List UInt8) :
    (d.put name l name').msgSize = (d name').msgSize ∧ (d.put name l name').maxMsgs = (d name').maxMsgs := by
  rw [put]
  split_ifs
  · by_cases hname : name' = name
    · subst hname
      rw [Function.update_self]
      exact ⟨rfl, rfl⟩
    · rw [Function.update_of_ne hname]
      exact ⟨rfl, rfl⟩
  · exact ⟨rfl, rfl⟩

theorem shape_pop (d : MsgQueues) (name name' : List UInt8) :
    (d.pop name name').msgSize = (d name').msgSize ∧ (d.pop name name').maxMsgs = (d name').maxMsgs := by
  rw [pop]
  by_cases hname : name' = name
  · subst hname
    rw [Function.update_self]
    exact ⟨rfl, rfl⟩
  · rw [Function.update_of_ne hname]
    exact ⟨rfl, rfl⟩

end MsgQueues

/-! ### The calls of the operating system -/

/-- `k_TransmitTimeout`. -/
def kTransmitTimeout : UInt32 := 100

/-- `k_ReceiveTimeout`. -/
def kReceiveTimeout : UInt32 := 3000

/-- What the message queues of a host do with deadlines. -/
structure MqHost where
  /-- What `clock_gettime` answers. -/
  clock : MsgQueues → Timespec
  /-- A deadline is looked at even where the call need not wait. -/
  checksAlways : Bool

namespace MqHost

/-- A call is refused before the queue is looked at. -/
def refuses (host : MqHost) (time : Timespec) : Bool :=
  host.checksAlways && !decide (0 ≤ time.tvNsec ∧ time.tvNsec < 10 ^ 9)

/-- The deadline of a transfer. -/
def deadline (host : MqHost) (timeout : UInt32) (d : MsgQueues) : Timespec :=
  Queue.adjust (Queue.addTimeout (host.clock d) timeout)

end MqHost

/-- `mq_timedsend`.  A queue that stays full until the deadline is an error, as is a deadline out of range
when the queue is full, and as is a message that is too long. -/
def mqTimedsend (host : MqHost) (name l : List UInt8) (time : Timespec) (d : MsgQueues) : ℤ × MsgQueues :=
  if host.refuses time then (-1, d) else (if (d name).Accepts l then 0 else -1, d.put name l)

/-- `mq_timedreceive`.  A queue that stays empty until the deadline is an error, as is a deadline out of
range when the queue is empty, and as is a buffer that is smaller than a message may be. -/
def mqTimedreceive (host : MqHost) (name : List UInt8) (len : ℕ) (time : Timespec) (d : MsgQueues) :
    Option (List UInt8) × MsgQueues :=
  if host.refuses time ∨ len < (d name).msgSize then (none, d)
  else
    match (d name).msgs with
    | [] => (none, d)
    | l :: _ => (some l, d.pop name)

theorem mqTimedreceive_le {host : MqHost} {name : List UInt8} {len : ℕ} {time : Timespec} {d : MsgQueues}
    {l : List UInt8} (h : (mqTimedreceive host name len time d).1 = some l) : l.length ≤ len := by
  rw [mqTimedreceive] at h
  split_ifs at h with hlen
  cases hmsgs : (d name).msgs with
  | nil =>
      rw [hmsgs] at h
      exact absurd h (Option.some_ne_none l).symm
  | cons m q =>
      rw [hmsgs] at h
      rw [← Option.some.inj h]
      exact ((d name).length_le m (hmsgs ▸ List.mem_cons_self)).trans (not_lt.1 (not_or.1 hlen).2)

/-- A message that is not sent leaves the queues alone. -/
theorem mqTimedsend_failed {host : MqHost} {name l : List UInt8} {time : Timespec} {d : MsgQueues}
    (h : (mqTimedsend host name l time d).1 ≠ 0) : (mqTimedsend host name l time d).2 = d := by
  rw [mqTimedsend] at h ⊢
  split_ifs at h ⊢
  · rfl
  · exact absurd rfl h
  · exact MsgQueues.put_of_not ‹_›

/-- The calls for the queue of a name. -/
def mqCalls (host : MqHost) (name : List UInt8) : MqCalls MsgQueues where
  clockGettime d := (host.clock d, d)
  mqTimedsend l time d := mqTimedsend host name l time d
  mqTimedreceive len time d := mqTimedreceive host name len time d
  receive_le h := mqTimedreceive_le h

/-- A queue as a device, whose user passes this timeout: one message is sent, or one is received.  The full
read flag is never set on a queue. -/
def queueDev (host : MqHost) (timeout : UInt32) (name : List UInt8) : IoDev MsgQueues where
  send d l :=
    if l = [] then (none, d)
    else
      let r := mqTimedsend host name l (host.deadline timeout d) d
      (some (if r.1 = 0 then l.length else 0), r.2)
  recv d n :=
    if n = 0 then (some [], d)
    else
      let r := mqTimedreceive host name n (host.deadline timeout d) d
      (some (r.1.getD []), r.2)
  fullRead _ d := d
  send_le {d l n} h := by
    split_ifs at h
    rw [← Option.some.inj h]
    split_ifs
    · exact le_rfl
    · exact Nat.zero_le _
  recv_le {d n l} h := by
    split_ifs at h
    · rw [← Option.some.inj h]
      exact Nat.zero_le _
    · rw [← Option.some.inj h]
      cases hmsg : (mqTimedreceive host name n (host.deadline timeout d) d).1 with
      | none => exact Nat.zero_le _
      | some m => exact mqTimedreceive_le hmsg

section

variable {host : MqHost} {timeout : UInt32} {name : List UInt8} {d : MsgQueues}

/-- **A queue of a host that looks at a deadline only when the call has to wait** sends if the message is
accepted. -/
theorem queueDev_send (hwaits : host.checksAlways = false) (l : List UInt8) :
    (queueDev host timeout name).send d l = if l = [] then (none, d)
      else (some (if (d name).Accepts l then l.length else 0), d.put name l) := by
  have hsend : mqTimedsend host name l (host.deadline timeout d) d =
      (if (d name).Accepts l then 0 else -1, d.put name l) := by
    rw [mqTimedsend, MqHost.refuses, hwaits, Bool.false_and, if_neg Bool.false_ne_true]
  simp only [queueDev, hsend]
  split_ifs <;> simp_all

/-- **A queue of such a host** receives the first message if there is one. -/
theorem queueDev_recv (hwaits : host.checksAlways = false) {n : ℕ} (hpos : 0 < n)
    (hsize : (d name).msgSize ≤ n) : (queueDev host timeout name).recv d n =
      (some ((d name).msgs.headD []), if (d name).msgs = [] then d else d.pop name) := by
  have hrefuses : ¬ ((host.refuses (host.deadline timeout d) : Bool) = true ∨ n < (d name).msgSize) := by
    rw [MqHost.refuses, hwaits, Bool.false_and]
    exact not_or.2 ⟨Bool.false_ne_true, not_lt.2 hsize⟩
  simp only [queueDev, mqTimedreceive, if_neg hpos.ne', if_neg hrefuses]
  cases (d name).msgs with
  | nil => rfl
  | cons l q => rfl

/-- A deadline three seconds away is out of range. -/
theorem not_inRange_deadline (hclock : 0 ≤ (host.clock d).tvNsec) :
    ¬ (0 ≤ (host.deadline kReceiveTimeout d).tvNsec ∧
      (host.deadline kReceiveTimeout d).tvNsec < 10 ^ 9) := by
  have hprod : (kReceiveTimeout * 1000000).toNat = 3000000000 := by decide
  simp only [MqHost.deadline, Queue.adjust, Queue.addTimeout, hprod]
  split_ifs <;> simp only <;> omega

/-- **A host that looks at every deadline delivers nothing**: a queue from which its user receives with
`k_ReceiveTimeout` answers no message, whatever is in it. -/
theorem queueDev_recv_of_checksAlways (hchecks : host.checksAlways = true)
    (hclock : 0 ≤ (host.clock d).tvNsec) (n : ℕ) :
    (queueDev host kReceiveTimeout name).recv d n = (some [], d) := by
  have hrefuses : host.refuses (host.deadline kReceiveTimeout d) = true := by
    rw [MqHost.refuses, hchecks, Bool.true_and, decide_eq_false (not_inRange_deadline hclock), Bool.not_false]
  simp only [queueDev, mqTimedreceive, hrefuses, true_or, if_true, Option.getD_none, ite_self]

end

/-! ### The loops of the base class -/

section

variable {host : MqHost} {name : List UInt8} {d : MsgQueues} {timeout : UInt32}

/-- The base class of a valid queue. -/
def queueBase (host : MqHost) (name : List UInt8) : IoDevBase MsgQueues :=
  ⟨true, false, 0, Queue.hooks (mqCalls host name)⟩

theorem kError_le_zero : kError ≤ 0 := by decide

theorem toInt_zero : toInt 0 = 0 := toInt_of_lt (by decide)

/-- A queue that is asked says that it is ready. -/
theorem askReady_true (timeout : UInt32) (d : MsgQueues) :
    askReady (fun _ d => (true, d)) timeout d = (true, d) := by
  rw [askReady]
  split_ifs <;> rfl

theorem sendPass_queue {l : List UInt8} (hlt : l.length < 0x80000000) (hne : l ≠ []) :
    (queueBase host name).sendPass l l.length timeout ⟨0, false, 0, none, d⟩ =
      if (mqTimedsend host name l (host.deadline timeout d) d).1 = 0 then
        ⟨l.length, false, 0, some l.length, (mqTimedsend host name l (host.deadline timeout d) d).2⟩
      else ⟨0, true, 0, some 0, d⟩ := by
  have hpos : 0 < l.length := List.length_pos_of_ne_nil hne
  have hint := toInt_of_lt hlt
  have htime : Queue.adjust (Queue.addTimeout (host.clock d) timeout) = host.deadline timeout d := rfl
  simp only [IoDevBase.sendPass, queueBase, Queue.hooks, askReady_true, if_true, Queue.sendData, mqCalls,
    List.take_length, List.drop_zero, Nat.sub_zero, htime]
  by_cases hsent : (mqTimedsend host name l (host.deadline timeout d) d).1 = 0
  · rw [if_pos hsent, if_pos hsent, IoDevBase.sendTook, if_neg (by rw [hint]; omega),
      IoDevBase.sendAnswered, hint]
    simp
  · rw [if_neg hsent, if_neg hsent, IoDevBase.sendTook, if_pos kError_le_zero, if_pos rfl,
      IoDevBase.sendAnswered, mqTimedsend_failed hsent]

/-- **The device sends as the loop of the base class does** with the calls of the operating system. -/
theorem send_queueDev (host : MqHost) (name : List UInt8) (timeout : UInt32) (d : MsgQueues)
    {l : List UInt8} (hlt : l.length < 0x80000000) :
    (queueBase host name).send (some l) l.length timeout d =
      ((((queueDev host timeout name).send d l).1.map toInt).getD kError,
        ((queueDev host timeout name).send d l).2) := by
  have hvalid : (queueBase host name).valid = true := rfl
  have hretries : (queueBase host name).retries.toNat = 0 := rfl
  rw [IoDevBase.send, if_pos hvalid, IoDevBase.sendLoop, hretries]
  by_cases hnil : l = []
  · subst hnil
    rw [whileDo_of_false rfl]
    rfl
  · have hpos : 0 < l.length := List.length_pos_of_ne_nil hnil
    have hmore : IoDevBase.sendMore l.length (⟨0, false, 0, none, d⟩ : SendLocals MsgQueues) = true := by
      simp [IoDevBase.sendMore, hpos]
    rw [whileDo_of_true hmore, sendPass_queue hlt hnil]
    simp only [queueDev, if_neg hnil]
    by_cases hsent : (mqTimedsend host name l (host.deadline timeout d) d).1 = 0
    · rw [if_pos hsent, whileDo_of_false (by simp [IoDevBase.sendMore]), if_pos hsent, Option.map_some,
        Option.getD_some]
    · rw [if_neg hsent, whileDo_of_false (by simp [IoDevBase.sendMore]), if_neg hsent,
        mqTimedsend_failed hsent, Option.map_some, Option.getD_some]

theorem recvPass_queue {pBuf : List UInt8} {n : ℕ} (hlt : n < 0x80000000) :
    let r := mqTimedreceive host name n (host.deadline timeout d) d
    (queueBase host name).recvPass n timeout ⟨0, false, 0, pBuf, d⟩ =
      ⟨(r.1.getD []).length, true, 0, BlockList.overwrite pBuf 0 (r.1.getD []), r.2⟩ := by
  have htime : Queue.adjust (Queue.addTimeout (host.clock d) timeout) = host.deadline timeout d := rfl
  simp only [IoDevBase.recvPass, queueBase, Queue.hooks, askReady_true, if_true, Queue.recvData, mqCalls,
    Nat.sub_zero, IoDevBase.recvTook, htime]
  cases hmsg : (mqTimedreceive host name n (host.deadline timeout d) d).1 with
  | none =>
      rw [Queue.received, if_pos kError_le_zero]
      rfl
  | some m =>
      have hle := mqTimedreceive_le hmsg
      have hint : toInt m.length = m.length := toInt_of_lt (by omega)
      rw [Queue.received, hint, Option.getD_some]
      by_cases hm : (m.length : ℤ) ≤ 0
      · have hzero : m.length = 0 := by omega
        rw [if_pos hm, hzero]
      · rw [if_neg hm]
        simp

/-- **The device receives as the loop of the base class does**: the octets it answers are at the front of
the memory. -/
theorem recv_queueDev (host : MqHost) (name : List UInt8) (timeout : UInt32) (d : MsgQueues)
    {pBuf : List UInt8} {n : ℕ} (hlt : n < 0x80000000) :
    ∃ k, ((queueDev host timeout name).recv d n).1 = some k ∧
      (queueBase host name).recv (some pBuf) n timeout d =
        ⟨k.length, BlockList.overwrite pBuf 0 k, ((queueDev host timeout name).recv d n).2⟩ := by
  have hvalid : (queueBase host name).valid = true := rfl
  have hretries : (queueBase host name).retries.toNat = 0 := rfl
  have hnone : BlockList.overwrite pBuf 0 [] = pBuf := by simp [BlockList.overwrite]
  rw [IoDevBase.recv, if_pos hvalid, IoDevBase.recvLoop, hretries]
  by_cases hn : n = 0
  · subst hn
    rw [whileDo_of_false rfl]
    simp only [toInt_zero]
    exact ⟨[], rfl, by rw [hnone]; rfl⟩
  · have hmore : IoDevBase.recvMore n (⟨0, false, 0, pBuf, d⟩ : RecvLocals MsgQueues) = true := by
      simp [IoDevBase.recvMore, Nat.pos_of_ne_zero hn]
    have hlen : ((mqTimedreceive host name n (host.deadline timeout d) d).1.getD []).length <
        0x80000000 := by
      cases hmsg : (mqTimedreceive host name n (host.deadline timeout d) d).1 with
      | none => exact (by decide : 0 < 0x80000000)
      | some m => exact lt_of_le_of_lt (mqTimedreceive_le hmsg) hlt
    rw [whileDo_of_true hmore, recvPass_queue hlt, whileDo_of_false (by simp [IoDevBase.recvMore])]
    simp only [queueDev, if_neg hn, toInt_of_lt hlen]
    exact ⟨_, rfl, rfl⟩

end

/-! ### Buffers -/

section

variable {host : MqHost} {timeout : UInt32} {name : List UInt8} {d : MsgQueues}

/-- A buffer that is sent as a whole. -/
theorem IoDev.sendBuf_eq {δ : Type*} (dev : IoDev δ) {buf : Buffer} (hpos : 0 < buf.dataLen) (d : δ) :
    dev.sendBuf buf buf.size d =
      (((dev.send d buf.data).1.map toInt).getD kError, (dev.send d buf.data).2) := by
  have hle : ¬ buf.lenGet > buf.size := not_lt.2 buf.dataLen_le
  obtain ⟨mem, hmem⟩ : ∃ mem, buf.block = some mem :=
    Option.ne_none_iff_exists'.1 (@IpcSegment.block_ne_none ⟨buf⟩ hpos)
  have hdata : buf.data = mem.take buf.lenGet := by
    rw [Buffer.data, Buffer.mem, hmem, Option.getD_some, Buffer.lenGet]
  rw [IoDev.sendBuf, if_neg hle, hmem, hdata]

/-- **A buffer that is sent to a queue** is a message of it, if the queue accepts it. -/
theorem sendBuf_queueDev (hwaits : host.checksAlways = false) {buf : Buffer} (hpos : 0 < buf.dataLen)
    (hlt : buf.dataLen < 0x80000000) : (queueDev host timeout name).sendBuf buf buf.size d =
      (if (d name).Accepts buf.data then (buf.dataLen : ℤ) else 0, d.put name buf.data) := by
  have hlen : buf.data.length = buf.dataLen := Buffer.length_data buf
  have hne : buf.data ≠ [] := by
    rw [← List.length_pos_iff, hlen]
    exact hpos
  rw [IoDev.sendBuf_eq _ hpos, queueDev_send hwaits, if_neg hne, Option.map_some, Option.getD_some, hlen]
  by_cases hacc : (d name).Accepts buf.data
  · rw [if_pos hacc, if_pos hacc, toInt_of_lt hlt]
  · rw [if_neg hacc, if_neg hacc, toInt_zero]

/-- **A segment that is sent to a queue** is a message of it, if the queue accepts it. -/
theorem IpcTransport.send_queueDev (hwaits : host.checksAlways = false) {t : IpcTransport MsgQueues}
    {p : SegPtr} (hdev : t.sendDeviceGet p.seg.dstAddr = some (queueDev host timeout name))
    (hlen : segData ≤ p.wire.length) (hmax : p.wire.length ≤ segMaxLen)
    (hseg : p.wire.length = segData + wireGet p.wire .dataLen) :
    (t.send (some p) d).rv = decide ((d name).Accepts p.wire) ∧
      (t.send (some p) d).env = d.put name p.wire := by
  have hdl : p.wire.length = p.seg.buf.dataLen := Buffer.length_data _
  have hsegLen : p.seg.segLen = p.wire.length := (SegPtr.segLen_eq hlen).trans hseg.symm
  have h24 : segData = 24 := rfl
  have h1024 : segMaxLen = 1024 := rfl
  have hsent := @sendBuf_queueDev host timeout name d hwaits p.seg.buf (by omega) (by omega)
  simp only [send, hdev, hsent, hsegLen]
  refine ⟨decide_eq_decide.2 ?_, rfl⟩
  rw [← hdl]
  change (_ ≥ (0 : ℤ) ∧ _) ↔ (d name).Accepts p.seg.buf.data
  split_ifs with hacc
  · exact iff_of_true ⟨Int.natCast_nonneg _, rfl⟩ hacc
  · exact iff_of_false (fun h => by omega) hacc

/-- A transfer from a queue into a buffer that is large enough. -/
theorem recvBuf_queueDev (hwaits : host.checksAlways = false) {s : IpcSegment} (h : s.Full) (m : MemPools)
    (hsize : (d name).msgSize ≤ s.buf.size) (hmax : (d name).msgSize < 0x80000000) :
    let a := (queueDev host timeout name).recvBuf m s.buf s.buf.size d
    a.rcvd = ((d name).msgs.headD []).length ∧ a.buf.data = (d name).msgs.headD [] ∧
      (⟨a.buf⟩ : IpcSegment).Full ∧ a.env = if (d name).msgs = [] then d else d.pop name := by
  have hkeeps : s.buf.keeps s.buf.size = true := Buffer.keeps_size h.size_pos
  have hresize : s.buf.resize m s.buf.size = (true, s.buf) := by rw [Buffer.resize, if_pos hkeeps]
  have hblock : s.buf.block.isSome = true := by
    rw [Option.isSome_iff_ne_none]
    intro hnone
    rw [Buffer.keeps, hnone] at hkeeps
    exact Bool.false_ne_true hkeeps
  have hrecv := @queueDev_recv host timeout name d hwaits _ h.size_pos hsize
  have hlen : ((d name).msgs.headD []).length < 0x80000000 := by
    cases hmsgs : (d name).msgs with
    | nil => exact (by decide : 0 < 0x80000000)
    | cons l q => exact lt_of_le_of_lt ((d name).length_le l (hmsgs ▸ List.mem_cons_self)) hmax
  obtain ⟨hrcvd, hdata, hroom, henv⟩ := @IoDev.recvBuf_of_room _ (queueDev host timeout name) m s.buf
    s.buf.size d ((d name).msgs.headD []) (by rw [hresize]) (by rw [hresize]; exact hblock)
    (by rw [hrecv]) hlen
  refine ⟨hrcvd, hdata, ?_, henv.trans (by rw [hrecv])⟩
  rw [hresize] at hroom
  exact le_trans h hroom

/-- A segment that is received from a queue. -/
theorem recvSegment_queueDev (hwaits : host.checksAlways = false) {s : IpcSegment} (h : s.Full)
    (m : MemPools) (hsize : (d name).msgSize = segMaxLen) (hlen : ∀ w ∈ (d name).msgs, segData ≤ w.length) :
    let a := IpcTransport.recvSegment (queueDev host timeout name) m s s.buf.size d
    a.rv = !(d name).msgs.isEmpty ∧ a.seg.buf.data = (d name).msgs.headD [] ∧ a.seg.Full ∧
      a.env = if (d name).msgs = [] then d else d.pop name := by
  have hle : (d name).msgSize ≤ s.buf.size := hsize.trans_le h
  obtain ⟨hrcvd, hdata, hfull, henv⟩ := @recvBuf_queueDev host timeout name d hwaits _ h m hle
    (hsize ▸ by decide)
  have h24 : segData = 24 := rfl
  simp only [IpcTransport.recvSegment, hrcvd]
  cases hmsgs : (d name).msgs with
  | nil =>
      rw [hmsgs] at hdata henv
      rw [List.headD_nil, List.length_nil, if_neg (by decide)]
      exact ⟨rfl, hdata, hfull, henv⟩
  | cons w q =>
      have hmem : w ∈ (d name).msgs := hmsgs ▸ List.mem_cons_self
      have hmin := hlen w hmem
      have hmax := (d name).length_le w hmem
      rw [hmsgs] at hdata henv
      rw [List.headD_cons, if_pos (by omega), if_pos (by omega)]
      exact ⟨rfl, hdata, hfull, henv⟩

end

/-! ### The receive thread -/

/-- **A turn of the receive thread takes a datagram from the queue**, if there is one. -/
theorem recvLoop_datagram {host : MqHost} (hwaits : host.checksAlways = false) {timeout : UInt32}
    {name : List UInt8} {m : MemPools} {t : IpcTransport MsgQueues} (hm : m.blockSize segMaxLen ≠ none)
    (hdev : t.ptrRecvDevice = some (queueDev host timeout name))
    {s : RecvLoop MsgQueues} (hsize : (s.env name).msgSize = segMaxLen)
    (hlen : ∀ w ∈ (s.env name).msgs, segData ≤ w.length) (hp : ∀ p ∈ s.pSeg, p.seg.Full) :
    ∃ out s', recvLoop m (.standard t) s () = some (out, s') ∧
      out.toList.map SegPtr.wire = (s.env name).msgs.take 1 ∧ (∀ p ∈ s'.pSeg, p.seg.Full) ∧
      s'.env = s.env.pop name := by
  obtain ⟨p, hor, hfull⟩ := RecvLoop.exists_seg hm hp
  obtain ⟨hrv, hdata, hseg, henv⟩ := @recvSegment_queueDev host timeout name s.env hwaits _ hfull m hsize hlen
  rw [MsgQueues.ite_pop] at henv
  refine ⟨_, _, rfl, ?_⟩
  simp only [recvTurn, hor, NodeTransport.recv, IpcTransport.recv, hdev]
  cases hmsgs : (s.env name).msgs with
  | nil =>
      rw [hmsgs] at hrv
      simp only [hrv, List.isEmpty_nil, Bool.not_true, Bool.false_eq_true, if_false]
      refine ⟨rfl, fun q hq => ?_, henv⟩
      rw [← Option.some.inj hq]
      exact hseg
  | cons w q =>
      rw [hmsgs] at hrv hdata
      simp only [hrv, List.isEmpty_cons, Bool.not_false, if_true]
      exact ⟨congrArg (fun l => [l]) hdata, fun q hq => absurd hq (Option.not_mem_none _), henv⟩

end CodePort
