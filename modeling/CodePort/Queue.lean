/-
The message queue of the posix platform, and the deadlines of its transfers.

`Queue::SendData` and `Queue::RecvData` turn a timeout in milliseconds into an absolute time.  The
milliseconds are multiplied in 32 bits, and at most one second is carried over, so a timeout of two
seconds already gives a time that the operating system refuses.  `SemLite::Take` does the same with
whole seconds apart and a loop that carries.

Main definitions:

* `CodePort.MqCalls` — the calls of the operating system;
* `CodePort.Queue.sendData`, `recvData`, `hooks` — the queue as a device;
* `CodePort.SemLite.takeDeadline` — the deadline of the semaphore;
* `CodePort.DeadlineExact` — what a deadline owes.

Main results:

* `CodePort.takeDeadline_exact` — the deadline of the semaphore is always right;
* `CodePort.queue_deadlines_exact_iff` — **the deadlines of the queue are right if and only if the
  timeout carries over at most one second**.
-/

import CodePort.IoDevLoop
import CodePort.SemLite
import CodePort.Timer

set_option relaxedAutoImplicit false
set_option autoImplicit false

namespace CodePort

open WhileLoop

/-! ### The queue -/

/-- The calls of the operating system, with a state `δ` behind them. -/
structure MqCalls (δ : Type*) where
  clockGettime : δ → Timespec × δ
  /-- `mq_timedsend` of a message until an absolute time: zero if it was sent. -/
  mqTimedsend : List UInt8 → Timespec → δ → ℤ × δ
  /-- `mq_timedreceive` of at most so many octets until an absolute time; `none` is an error. -/
  mqTimedreceive : ℕ → Timespec → δ → Option (List UInt8) × δ
  receive_le : ∀ {len time d l}, (mqTimedreceive len time d).1 = some l → l.length ≤ len

namespace Queue

variable {δ : Type*}

/-- Get the current time and add the timeout.  The product is a `uint32_t`. -/
def addTimeout (now : Timespec) (timeout : UInt32) : Timespec :=
  ⟨now.tvSec, now.tvNsec + (timeout * 1000000).toNat⟩

/-- Adjust for nanosecond overflow. -/
def adjust (absTimeout : Timespec) : Timespec :=
  if absTimeout.tvNsec > 999999999 then ⟨absTimeout.tvSec + 1, absTimeout.tvNsec - 1000000000⟩
  else absTimeout

/-- `SendData`. -/
def sendData (mq : MqCalls δ) (pBuf : List UInt8) (sndLen bytesWritten : ℕ) (timeout : UInt32)
    (d : δ) : ℤ × δ :=
  let now := mq.clockGettime d
  let absTimeout := adjust (addTimeout now.1 timeout)
  let r := mq.mqTimedsend ((pBuf.take sndLen).drop bytesWritten) absTimeout now.2
  (if r.1 = 0 then toInt (sndLen - bytesWritten) else kError, r.2)

/-- The answer of `mq_timedreceive` as `RecvData` returns it, with the octets of the message. -/
def received : Option (List UInt8) → ℤ × List UInt8
  | none => (kError, [])
  | some l => (toInt l.length, l)

/-- `RecvData`. -/
def recvData (mq : MqCalls δ) (rcvLen bytesRead : ℕ) (timeout : UInt32) (d : δ) :
    (ℤ × List UInt8) × δ :=
  let now := mq.clockGettime d
  let absTimeout := adjust (addTimeout now.1 timeout)
  let r := mq.mqTimedreceive (rcvLen - bytesRead) absTimeout now.2
  (received r.1, r.2)

theorem received_le (msg : Option (List UInt8)) : (received msg).1 ≤ (received msg).2.length := by
  cases msg with
  | none => exact (Int.negSucc_lt_zero 0).le
  | some l =>
      simp only [received]
      exact IoDevBase.toInt_le l.length

/-- The queue as a device: it is always ready. -/
def hooks (mq : MqCalls δ) : IoHooks δ where
  sendReady _ d := (true, d)
  recvReady _ d := (true, d)
  sendData := sendData mq
  recvData := recvData mq
  sendData_le {_ sndLen bytesWritten _ _} := by
    simp only [sendData]
    split_ifs
    · exact IoDevBase.toInt_le (sndLen - bytesWritten)
    · exact (Int.negSucc_lt_zero 0).le.trans (Int.natCast_nonneg _)
  recvData_le := received_le _
  stored_le {rcvLen bytesRead timeout d} := by
    rw [recvData]
    cases hmsg : (mq.mqTimedreceive (rcvLen - bytesRead)
      (adjust (addTimeout (mq.clockGettime d).1 timeout)) (mq.clockGettime d).2).1 with
    | none => exact Nat.zero_le _
    | some l => exact mq.receive_le hmsg

end Queue

/-! ### The deadline of the semaphore -/

/-- Carry one second over. -/
def Timespec.carry (time : Timespec) : Timespec := ⟨time.tvSec + 1, time.tvNsec - 1000000000⟩

/-- Normalize the nanoseconds field. -/
def Timespec.normalize (time : Timespec) : Timespec :=
  whileDo (fun t => decide (t.tvNsec ≥ 1000000000)) Timespec.carry (fun t => t.tvNsec.toNat)
    (fun t h => by
      have hge := of_decide_eq_true h
      simp only [Timespec.carry]
      omega)
    time

/-- The deadline of `Take`: translate milliseconds into seconds and nanoseconds. -/
def SemLite.takeDeadline (now : Timespec) (timeout : UInt32) : Timespec :=
  Timespec.normalize
    ⟨now.tvSec + (timeout / 1000).toNat, now.tvNsec + (timeout % 1000 * 1000000).toNat⟩

/-! ### What a deadline owes -/

/-- A time in nanoseconds. -/
def Timespec.nanos (time : Timespec) : ℤ := time.tvSec * 10 ^ 9 + time.tvNsec

/-- What a deadline owes: it is in range, it is the timeout in milliseconds away, and it is the deadline
that the semaphore has. -/
def DeadlineExact (now : Timespec) (timeout : UInt32) (time : Timespec) : Prop :=
  (0 ≤ time.tvNsec ∧ time.tvNsec < 10 ^ 9) ∧ time.nanos = now.nanos + timeout.toNat * 10 ^ 6 ∧
    time = SemLite.takeDeadline now timeout

/-- A time in range is determined by its nanoseconds. -/
theorem timespec_ext {t u : Timespec} (ht : 0 ≤ t.tvNsec ∧ t.tvNsec < 10 ^ 9)
    (hu : 0 ≤ u.tvNsec ∧ u.tvNsec < 10 ^ 9) (h : t.nanos = u.nanos) : t = u := by
  obtain ⟨tsec, tnsec⟩ := t
  obtain ⟨usec, unsec⟩ := u
  simp only [Timespec.nanos, Timespec.mk.injEq] at ht hu h ⊢
  omega

/-- Normalizing keeps the time and brings it in range. -/
theorem normalize_spec {time : Timespec} (h : 0 ≤ time.tvNsec) :
    (0 ≤ time.normalize.tvNsec ∧ time.normalize.tvNsec < 10 ^ 9) ∧
      time.normalize.nanos = time.nanos := by
  have hkept (t : Timespec) (hmore : decide (t.tvNsec ≥ 1000000000) = true)
      (ht : 0 ≤ t.tvNsec ∧ t.nanos = time.nanos) :
      0 ≤ t.carry.tvNsec ∧ t.carry.nanos = time.nanos := by
    have hge := of_decide_eq_true hmore
    simp only [Timespec.nanos, Timespec.carry] at ht ⊢
    omega
  obtain ⟨⟨hnonneg, hnanos⟩, hdone⟩ := whileDo_spec
    (I := fun t : Timespec => 0 ≤ t.tvNsec ∧ t.nanos = time.nanos) hkept ⟨h, rfl⟩
  exact ⟨⟨hnonneg, not_le.1 (of_decide_eq_false hdone)⟩, hnanos⟩

/-- **The deadline of the semaphore is always right.** -/
theorem takeDeadline_exact {now : Timespec} (hnow : 0 ≤ now.tvNsec) (timeout : UInt32) :
    DeadlineExact now timeout (SemLite.takeDeadline now timeout) := by
  have hprod : (timeout % 1000 * 1000000).toNat = timeout.toNat % 1000 * 1000000 := by
    rw [UInt32.toNat_mul, UInt32.toNat_mod]
    exact Nat.mod_eq_of_lt (by simp only [UInt32.reduceToNat]; omega)
  have hquot : (timeout / 1000).toNat = timeout.toNat / 1000 := by
    rw [UInt32.toNat_div]
    rfl
  obtain ⟨hrange, hnanos⟩ := @normalize_spec
    ⟨now.tvSec + (timeout / 1000).toNat, now.tvNsec + (timeout % 1000 * 1000000).toNat⟩
    (by simp only; omega)
  refine ⟨hrange, hnanos.trans ?_, rfl⟩
  simp only [Timespec.nanos, hprod, hquot]
  omega

/-- The deadline of the queue is right if and only if the timeout carries over at most one second. -/
theorem adjust_addTimeout_exact_iff {now : Timespec} (hnow : 0 ≤ now.tvNsec)
    (hlt : now.tvNsec < 10 ^ 9) (timeout : UInt32) :
    DeadlineExact now timeout (Queue.adjust (Queue.addTimeout now timeout)) ↔
      now.tvNsec + timeout.toNat * 10 ^ 6 < 2 * 10 ^ 9 := by
  have hprod : (timeout * 1000000).toNat = timeout.toNat * 1000000 % 2 ^ 32 :=
    UInt32.toNat_mul timeout 1000000
  obtain ⟨hrange, hnanos, -⟩ := takeDeadline_exact hnow timeout
  constructor
  · rintro ⟨hin, heq, -⟩
    simp only [Queue.adjust, Queue.addTimeout, hprod] at hin heq
    split_ifs at hin heq <;> simp only [Timespec.nanos] at hin heq <;> omega
  · intro hsmall
    have hin : 0 ≤ (Queue.adjust (Queue.addTimeout now timeout)).tvNsec ∧
        (Queue.adjust (Queue.addTimeout now timeout)).tvNsec < 10 ^ 9 := by
      simp only [Queue.adjust, Queue.addTimeout, hprod]
      split_ifs <;> simp only <;> omega
    have heq : (Queue.adjust (Queue.addTimeout now timeout)).nanos =
        now.nanos + timeout.toNat * 10 ^ 6 := by
      simp only [Queue.adjust, Queue.addTimeout, hprod]
      split_ifs <;> simp only [Timespec.nanos] <;> omega
    exact ⟨hin, heq, timespec_ext hin hrange (heq.trans hnanos.symm)⟩

/-! ### The times that are passed -/

/-- The calls of the operating system, with the absolute times that are passed written down. -/
def MqCalls.logged {δ : Type*} (mq : MqCalls δ) : MqCalls (δ × List Timespec) where
  clockGettime e := let r := mq.clockGettime e.1; (r.1, r.2, e.2)
  mqTimedsend msg time e := let r := mq.mqTimedsend msg time e.1; (r.1, r.2, e.2 ++ [time])
  mqTimedreceive len time e := let r := mq.mqTimedreceive len time e.1; (r.1, r.2, e.2 ++ [time])
  receive_le := mq.receive_le

/-- The absolute times that `SendData` passes to `mq_timedsend`. -/
def Queue.sentTimes {δ : Type*} (mq : MqCalls δ) (pBuf : List UInt8) (sndLen bytesWritten : ℕ)
    (timeout : UInt32) (d : δ) : List Timespec :=
  (Queue.sendData mq.logged pBuf sndLen bytesWritten timeout (d, [])).2.2

/-- The absolute times that `RecvData` passes to `mq_timedreceive`. -/
def Queue.recvTimes {δ : Type*} (mq : MqCalls δ) (rcvLen bytesRead : ℕ) (timeout : UInt32) (d : δ) :
    List Timespec :=
  (Queue.recvData mq.logged rcvLen bytesRead timeout (d, [])).2.2

/-- **The deadlines of the queue**: the time that `SendData` passes and the one that `RecvData` passes
are in range, are the timeout away and are the deadline of the semaphore if and only if the timeout
carries over at most one second. -/
theorem queue_deadlines_exact_iff {δ : Type*} (mq : MqCalls δ) (d : δ) (now : Timespec)
    (hclock : (mq.clockGettime d).1 = now) (hnow : 0 ≤ now.tvNsec ∧ now.tvNsec < 10 ^ 9)
    (timeout : UInt32) (pBuf : List UInt8) (len done : ℕ) :
    ((∃ t, Queue.sentTimes mq pBuf len done timeout d = [t] ∧ DeadlineExact now timeout t) ∧
        ∃ t, Queue.recvTimes mq len done timeout d = [t] ∧ DeadlineExact now timeout t) ↔
      now.tvNsec + timeout.toNat * 10 ^ 6 < 2 * 10 ^ 9 := by
  have hsent : Queue.sentTimes mq pBuf len done timeout d =
      [Queue.adjust (Queue.addTimeout now timeout)] := by
    rw [← hclock]
    rfl
  have hrecv : Queue.recvTimes mq len done timeout d =
      [Queue.adjust (Queue.addTimeout now timeout)] := by
    rw [← hclock]
    rfl
  simp only [hsent, hrecv, List.singleton_inj, exists_eq_left', and_self,
    adjust_addTimeout_exact_iff hnow.1 hnow.2]

/-- A queue whose clock stands still and to which nothing is sent. -/
def quietMq (now : Timespec) : MqCalls Unit where
  clockGettime d := (now, d)
  mqTimedsend _ _ d := (-1, d)
  mqTimedreceive _ _ d := (none, d)
  receive_le h := absurd h (by simp)

/-- A second and a half, at half past a second. -/
theorem queue_deadlines_exact_iff_quiet :
    ((∃ t, Queue.sentTimes (quietMq ⟨7, 500000000⟩) [1] 1 0 1499 () = [t] ∧
          DeadlineExact ⟨7, 500000000⟩ 1499 t) ∧
        ∃ t, Queue.recvTimes (quietMq ⟨7, 500000000⟩) 1 0 1499 () = [t] ∧
          DeadlineExact ⟨7, 500000000⟩ 1499 t) ↔
      (500000000 : ℤ) + (1499 : UInt32).toNat * 10 ^ 6 < 2 * 10 ^ 9 :=
  queue_deadlines_exact_iff (quietMq ⟨7, 500000000⟩) () ⟨7, 500000000⟩ rfl
    ⟨by decide, by decide⟩ 1499 [1] 1 0

/-- Two seconds at a full second: the nanoseconds are out of range. -/
theorem queue_deadline_two_seconds :
    ∃ t, Queue.sentTimes (quietMq ⟨0, 0⟩) [1] 1 0 2000 () = [t] ∧ t = ⟨1, 1000000000⟩ ∧
      ¬ DeadlineExact ⟨0, 0⟩ 2000 t :=
  ⟨⟨1, 1000000000⟩, by decide, rfl, fun h => absurd h.1.2 (by decide)⟩

end CodePort
