/-
The transfer loops of the device base class.

`IoDev::Send` and `IoDev::Recv` call the virtual functions of a device until everything is transferred,
the device is not ready, or too many attempts have failed.  A device may take or deliver any part of
what is left, fail, or answer nothing, in any order.

Main definitions:

* `CodePort.IoHooks` — the virtual functions, with what they may answer;
* `CodePort.IoDevBase.send`, `recv` — the two functions with their loops;
* `CodePort.IoDevBase.logged` — the device that writes down the calls of its virtual functions;
* `CodePort.IoDevBase.SendExact`, `RecvExact` — what a transfer owes;
* `CodePort.IoDevBase.toIoDev` — the device as the transports see it.

Main results:

* `CodePort.IoDevBase.sendBooked_pass`, `recvBooked_pass` — what one pass of a loop keeps;
* `CodePort.ioDev_transfers_exact` — **transfers are exact under partial results**.
-/

import CodePort.BlockList
import CodePort.IpcTransport
import CodePort.WhileLoop

set_option relaxedAutoImplicit false
set_option autoImplicit false

namespace CodePort

open WhileLoop

/-- The timeout that never runs out. -/
def kInfiniteTimeout : UInt32 := 0xffffffff

/-! ### The device -/

/-- The virtual functions of a device with a state `δ` behind it. -/
structure IoHooks (δ : Type*) where
  sendReady : UInt32 → δ → Bool × δ
  recvReady : UInt32 → δ → Bool × δ
  /-- `SendData` of a buffer, a length, the octets written before and a timeout. -/
  sendData : List UInt8 → ℕ → ℕ → UInt32 → δ → ℤ × δ
  /-- `RecvData` of a length, the octets read before and a timeout: its answer, and the octets that it
  has stored behind those read before. -/
  recvData : ℕ → ℕ → UInt32 → δ → (ℤ × List UInt8) × δ
  /-- A device never takes more than is left. -/
  sendData_le : ∀ {pBuf sndLen bytesWritten timeout d},
    (sendData pBuf sndLen bytesWritten timeout d).1 ≤ (sndLen - bytesWritten : ℕ)
  /-- It has stored what it answers. -/
  recvData_le : ∀ {rcvLen bytesRead timeout d},
    (recvData rcvLen bytesRead timeout d).1.1 ≤ (recvData rcvLen bytesRead timeout d).1.2.length
  /-- It never stores more than there is room for. -/
  stored_le : ∀ {rcvLen bytesRead timeout d},
    (recvData rcvLen bytesRead timeout d).1.2.length ≤ rcvLen - bytesRead

/-- The device base class. -/
structure IoDevBase (δ : Type*) where
  valid : Bool
  /-- Don't return with less than requested bytes when true. -/
  fullRead : Bool
  /-- Number of I/O retry attempts. -/
  retries : UInt8
  hooks : IoHooks δ

/-- Ask whether the device is ready, unless the call may block. -/
def askReady {δ : Type*} (ready : UInt32 → δ → Bool × δ) (timeout : UInt32) (d : δ) : Bool × δ :=
  if timeout ≠ kInfiniteTimeout then ready timeout d else (true, d)

/-- The variables of the loop of `Send`. -/
structure SendLocals (δ : Type*) where
  bytesWritten : ℕ
  exitFlag : Bool
  retries : ℕ
  /-- What `Send` answers, before the conversion to `int`; `none` is the error value. -/
  rv : Option ℕ
  env : δ

/-- The variables of the loop of `Recv`, and the buffer. -/
structure RecvLocals (δ : Type*) where
  bytesRead : ℕ
  exitFlag : Bool
  retries : ℕ
  buf : List UInt8
  env : δ

/-- What `Recv` answers, and the buffer afterwards. -/
structure RecvBufAnswer (δ : Type*) where
  rv : ℤ
  buf : List UInt8
  env : δ

namespace IoDevBase

variable {δ : Type*}

/-! ### `Send` -/

/-- What becomes of an attempt to write. -/
def sendTook (s : SendLocals δ) (r : ℤ × δ) : SendLocals δ :=
  -- closed descriptor or error case, force exit from while loop
  if r.1 ≤ 0 then
    if s.retries = 0 then { s with exitFlag := true, env := r.2 }
    else { s with retries := s.retries - 1, env := r.2 }
  else { s with bytesWritten := s.bytesWritten + r.1.toNat, env := r.2 }

/-- The end of a pass of the loop of `Send`. -/
def sendAnswered (s : SendLocals δ) : SendLocals δ := { s with rv := some s.bytesWritten }

/-- One pass of the loop of `Send`. -/
def sendPass (dev : IoDevBase δ) (pBuf : List UInt8) (sndLen : ℕ) (timeout : UInt32)
    (s : SendLocals δ) : SendLocals δ :=
  let writeReady := askReady dev.hooks.sendReady timeout s.env
  sendAnswered <|
    if writeReady.1 then
      sendTook s (dev.hooks.sendData pBuf sndLen s.bytesWritten timeout writeReady.2)
    else { s with exitFlag := true, env := writeReady.2 }

/-- The condition of the loop of `Send`. -/
def sendMore (sndLen : ℕ) (s : SendLocals δ) : Bool := decide (s.bytesWritten < sndLen) && !s.exitFlag

/-- What becomes smaller in the loop of `Send`. -/
def sendLeft (sndLen : ℕ) (s : SendLocals δ) : ℕ :=
  (sndLen - s.bytesWritten) + s.retries + (!s.exitFlag).toNat

theorem sendLeft_sendAnswered (sndLen : ℕ) (s : SendLocals δ) :
    sendLeft sndLen (sendAnswered s) = sendLeft sndLen s := rfl

theorem sendLeft_sendTook {sndLen : ℕ} {s : SendLocals δ} (h : sendMore sndLen s = true)
    (r : ℤ × δ) : sendLeft sndLen (sendTook s r) < sendLeft sndLen s := by
  simp only [sendMore, Bool.and_eq_true, decide_eq_true_eq, Bool.not_eq_true'] at h
  rw [sendTook]
  split_ifs <;> simp only [sendLeft, h.2, Bool.not_false, Bool.not_true, Bool.toNat_true,
    Bool.toNat_false] <;> omega

theorem sendLeft_sendPass (dev : IoDevBase δ) (pBuf : List UInt8) (sndLen : ℕ) (timeout : UInt32)
    (s : SendLocals δ) (h : sendMore sndLen s = true) :
    sendLeft sndLen (dev.sendPass pBuf sndLen timeout s) < sendLeft sndLen s := by
  simp only [sendPass, sendLeft_sendAnswered]
  split_ifs with hready
  · exact sendLeft_sendTook h _
  · simp only [sendMore, Bool.and_eq_true, Bool.not_eq_true'] at h
    simp only [sendLeft, h.2, Bool.not_false, Bool.not_true, Bool.toNat_true, Bool.toNat_false]
    omega

/-- The loop of `Send`. -/
def sendLoop (dev : IoDevBase δ) (pBuf : List UInt8) (sndLen : ℕ) (timeout : UInt32) (d : δ) :
    SendLocals δ :=
  whileDo (sendMore sndLen) (dev.sendPass pBuf sndLen timeout) (sendLeft sndLen)
    (dev.sendLeft_sendPass pBuf sndLen timeout) ⟨0, false, dev.retries.toNat, none, d⟩

/-- `Send`; `none` is the NULL pointer. -/
def send (dev : IoDevBase δ) (pBuf : Option (List UInt8)) (sndLen : ℕ) (timeout : UInt32) (d : δ) :
    ℤ × δ :=
  match pBuf with
  | none => (kError, d)
  | some p =>
      if dev.valid then
        let s := dev.sendLoop p sndLen timeout d
        ((s.rv.map toInt).getD kError, s.env)
      else (kError, d)

/-! ### `Recv` -/

/-- What becomes of an attempt to read. -/
def recvTook (fullRead : Bool) (s : RecvLocals δ) (r : (ℤ × List UInt8) × δ) : RecvLocals δ :=
  let buf := BlockList.overwrite s.buf s.bytesRead r.1.2
  -- closed descriptor or error case, force exit from while loop
  if r.1.1 ≤ 0 then
    if s.retries = 0 then { s with exitFlag := true, buf := buf, env := r.2 }
    else { s with retries := s.retries - 1, buf := buf, env := r.2 }
  else
    -- if the full read flag is set, don't exit with less than requested number of bytes
    { s with
      exitFlag := s.exitFlag || !fullRead
      bytesRead := s.bytesRead + r.1.1.toNat
      buf := buf
      env := r.2 }

/-- One pass of the loop of `Recv`. -/
def recvPass (dev : IoDevBase δ) (rcvLen : ℕ) (timeout : UInt32) (s : RecvLocals δ) : RecvLocals δ :=
  let readReady := askReady dev.hooks.recvReady timeout s.env
  if readReady.1 then
    recvTook dev.fullRead s (dev.hooks.recvData rcvLen s.bytesRead timeout readReady.2)
  else { s with exitFlag := true, env := readReady.2 }

/-- The condition of the loop of `Recv`. -/
def recvMore (rcvLen : ℕ) (s : RecvLocals δ) : Bool := decide (s.bytesRead < rcvLen) && !s.exitFlag

/-- What becomes smaller in the loop of `Recv`. -/
def recvLeft (rcvLen : ℕ) (s : RecvLocals δ) : ℕ :=
  (rcvLen - s.bytesRead) + s.retries + (!s.exitFlag).toNat

theorem recvLeft_recvPass (dev : IoDevBase δ) (rcvLen : ℕ) (timeout : UInt32) (s : RecvLocals δ)
    (h : recvMore rcvLen s = true) :
    recvLeft rcvLen (dev.recvPass rcvLen timeout s) < recvLeft rcvLen s := by
  simp only [recvMore, Bool.and_eq_true, decide_eq_true_eq, Bool.not_eq_true'] at h
  have hflag := Bool.toNat_le (!(s.exitFlag || !dev.fullRead))
  simp only [recvPass, recvTook, recvLeft]
  split_ifs <;> simp only [h.2, Bool.not_false, Bool.not_true, Bool.toNat_true, Bool.toNat_false,
    Bool.false_or] at hflag ⊢ <;> omega

/-- The loop of `Recv`. -/
def recvLoop (dev : IoDevBase δ) (pBuf : List UInt8) (rcvLen : ℕ) (timeout : UInt32) (d : δ) :
    RecvLocals δ :=
  whileDo (recvMore rcvLen) (dev.recvPass rcvLen timeout) (recvLeft rcvLen)
    (dev.recvLeft_recvPass rcvLen timeout) ⟨0, false, dev.retries.toNat, pBuf, d⟩

/-- `Recv`; `none` is the NULL pointer. -/
def recv (dev : IoDevBase δ) (pBuf : Option (List UInt8)) (rcvLen : ℕ) (timeout : UInt32) (d : δ) :
    RecvBufAnswer δ :=
  match pBuf with
  | none => ⟨kError, [], d⟩
  | some p =>
      if dev.valid then
        let s := dev.recvLoop p rcvLen timeout d
        ⟨toInt s.bytesRead, s.buf, s.env⟩
      else ⟨kError, p, d⟩

end IoDevBase

/-! ### The calls of a device -/

/-- A call of one of the virtual functions. -/
inductive HookCall
  /-- The device was asked whether it is ready. -/
  | ready (answer : Bool)
  /-- The device was given octets or asked for some: its answer, and the octets that it has taken or
  delivered. -/
  | data (answer : ℤ) (moved : List UInt8)

/-- The octets that have been taken or delivered, in order. -/
def movedOctets (log : List HookCall) : List UInt8 :=
  log.flatMap fun
    | .ready _ => []
    | .data _ moved => moved

/-- The number of failed attempts. -/
def failedAttempts (log : List HookCall) : ℕ :=
  log.countP fun
    | .ready _ => false
    | .data answer _ => decide (answer ≤ 0)

/-- The reasons to give up: the device was not ready, or one more attempt has failed than there are
retries. -/
def GaveUp (retries : ℕ) (log : List HookCall) : Prop :=
  log.getLast? = some (.ready false) ∨ failedAttempts log = retries + 1

@[simp] theorem movedOctets_append (log log' : List HookCall) :
    movedOctets (log ++ log') = movedOctets log ++ movedOctets log' :=
  List.flatMap_append

@[simp] theorem failedAttempts_append (log log' : List HookCall) :
    failedAttempts (log ++ log') = failedAttempts log + failedAttempts log' :=
  List.countP_append

@[simp] theorem movedOctets_data (answer : ℤ) (moved : List UInt8) :
    movedOctets [.data answer moved] = moved := by
  simp [movedOctets]

theorem failedAttempts_data (answer : ℤ) (moved : List UInt8) :
    failedAttempts [.data answer moved] = if answer ≤ 0 then 1 else 0 := by
  simp [failedAttempts, List.countP_cons]

/-- A readiness function that writes down what it answers. -/
def logReady {δ : Type*} (ready : UInt32 → δ → Bool × δ) (timeout : UInt32)
    (e : δ × List HookCall) : Bool × δ × List HookCall :=
  let r := ready timeout e.1
  (r.1, r.2, e.2 ++ [.ready r.1])

/-- The virtual functions, each of which writes down its calls. -/
def IoHooks.logged {δ : Type*} (hooks : IoHooks δ) : IoHooks (δ × List HookCall) where
  sendReady := logReady hooks.sendReady
  recvReady := logReady hooks.recvReady
  sendData pBuf sndLen bytesWritten timeout e :=
    let r := hooks.sendData pBuf sndLen bytesWritten timeout e.1
    (r.1, r.2, e.2 ++ [.data r.1 ((pBuf.drop bytesWritten).take r.1.toNat)])
  recvData rcvLen bytesRead timeout e :=
    let r := hooks.recvData rcvLen bytesRead timeout e.1
    (r.1, r.2, e.2 ++ [.data r.1.1 (r.1.2.take r.1.1.toNat)])
  sendData_le := hooks.sendData_le
  recvData_le := hooks.recvData_le
  stored_le := hooks.stored_le

/-- Asking a device that writes down its calls: it answers what the device answers, and what is
written down moves no octet and is no failed attempt. -/
theorem askReady_logReady {δ : Type*} (ready : UInt32 → δ → Bool × δ) (timeout : UInt32)
    (e : δ × List HookCall) :
    ∃ asked, askReady (logReady ready) timeout e =
        ((askReady ready timeout e.1).1, (askReady ready timeout e.1).2, e.2 ++ asked) ∧
      movedOctets asked = [] ∧ failedAttempts asked = 0 ∧
      ((askReady ready timeout e.1).1 = false → asked = [.ready false]) := by
  rw [askReady, askReady]
  split_ifs with h
  · exact ⟨[.ready (ready timeout e.1).1], rfl, rfl, rfl, fun hr => by rw [hr]⟩
  · exact ⟨[], by rw [List.append_nil], rfl, rfl, fun hr => absurd hr (by simp)⟩

namespace IoDevBase

variable {δ : Type*}

/-- The device that writes down the calls of its virtual functions. -/
def logged (dev : IoDevBase δ) : IoDevBase (δ × List HookCall) where
  valid := dev.valid
  fullRead := dev.fullRead
  retries := dev.retries
  hooks := dev.hooks.logged

/-! ### What a pass keeps -/

/-- The books of a loop: the attempts that have failed and the retries that are left, and why the exit
flag is set. -/
structure Booked (retries : ℕ) (log : List HookCall) (left : ℕ) (exitFlag : Bool) (enough : Prop) :
    Prop where
  left_of_more : exitFlag = false → failedAttempts log + left = retries
  reason : exitFlag = true → GaveUp retries log ∨ enough

/-- A device that is not ready. -/
theorem booked_blocked (retries left : ℕ) (log : List HookCall) (enough : Prop) :
    Booked retries (log ++ [.ready false]) left true enough :=
  ⟨fun h => absurd h (by simp), fun _ => .inl (.inl List.getLast?_concat)⟩

/-- The last attempt that may fail. -/
theorem booked_last {retries : ℕ} {log : List HookCall} {a : ℤ} {l : List UInt8} {enough : Prop}
    (h : failedAttempts log + 0 = retries) (ha : a ≤ 0) (left : ℕ) :
    Booked retries (log ++ [.data a l]) left true enough := by
  refine ⟨fun h => absurd h (by simp), fun _ => .inl (.inr ?_)⟩
  rw [failedAttempts_append, failedAttempts_data, if_pos ha]
  omega

/-- A failed attempt with retries left. -/
theorem booked_retry {retries left : ℕ} {log : List HookCall} {a : ℤ} {l : List UInt8}
    {enough : Prop} (h : failedAttempts log + left = retries) (hleft : left ≠ 0) (ha : a ≤ 0) :
    Booked retries (log ++ [.data a l]) (left - 1) false enough := by
  refine ⟨fun _ => ?_, fun h => absurd h (by simp)⟩
  rw [failedAttempts_append, failedAttempts_data, if_pos ha]
  omega

/-- An attempt that has moved something. -/
theorem booked_moved {retries left : ℕ} {log : List HookCall} {a : ℤ} {l : List UInt8}
    {exitFlag : Bool} {enough : Prop} (h : failedAttempts log + left = retries) (ha : ¬ a ≤ 0)
    (henough : exitFlag = true → enough) :
    Booked retries (log ++ [.data a l]) left exitFlag enough := by
  refine ⟨fun _ => ?_, fun hexit => .inr (henough hexit)⟩
  rw [failedAttempts_append, failedAttempts_data, if_neg ha]
  omega

/-- What the loop of `Send` keeps: the octets handed over are the first ones of the buffer, and the
books are right. -/
structure SendBooked (dev : IoDevBase δ) (pBuf : List UInt8) (sndLen : ℕ)
    (s : SendLocals (δ × List HookCall)) : Prop where
  written_le : s.bytesWritten ≤ sndLen
  handed : movedOctets s.env.2 = pBuf.take s.bytesWritten
  booked : Booked dev.retries.toNat s.env.2 s.retries s.exitFlag False

/-- **What one pass of the loop of `Send` keeps.** -/
theorem sendBooked_pass {dev : IoDevBase δ} {pBuf : List UInt8} {sndLen : ℕ} (timeout : UInt32)
    {s : SendLocals (δ × List HookCall)} (hmore : sendMore sndLen s = true)
    (h : SendBooked dev pBuf sndLen s) :
    SendBooked dev pBuf sndLen (dev.logged.sendPass pBuf sndLen timeout s) := by
  obtain ⟨written, exitFlag, left, rv, d, log⟩ := s
  simp only [sendMore, Bool.and_eq_true, decide_eq_true_eq, Bool.not_eq_true'] at hmore
  obtain ⟨hlt, rfl⟩ := hmore
  obtain ⟨asked, hask, hoctets, hfailed, hblocked⟩ :=
    askReady_logReady dev.hooks.sendReady timeout (d, log)
  have hleft : failedAttempts (log ++ asked) + left = dev.retries.toNat := by
    rw [failedAttempts_append, hfailed]
    exact h.booked.left_of_more rfl
  have hhanded : movedOctets (log ++ asked) = pBuf.take written := by
    rw [movedOctets_append, hoctets, List.append_nil]
    exact h.handed
  set e := (askReady dev.hooks.sendReady timeout d).2
  have hle := @dev.hooks.sendData_le pBuf sndLen written timeout e
  set r := dev.hooks.sendData pBuf sndLen written timeout e with hr
  have hmoved : movedOctets (log ++ asked ++ [.data r.1 ((pBuf.drop written).take r.1.toNat)]) =
      pBuf.take (written + r.1.toNat) := by
    rw [movedOctets_append, hhanded, movedOctets_data, List.take_add]
  simp only [sendPass, sendTook, sendAnswered, logged, IoHooks.logged, hask, ← hr]
  split_ifs with hready hrv hretries
  · rw [Int.toNat_of_nonpos hrv] at hmoved ⊢
    exact ⟨hlt.le, hmoved, booked_last (hretries ▸ hleft) hrv _⟩
  · rw [Int.toNat_of_nonpos hrv] at hmoved ⊢
    exact ⟨hlt.le, hmoved, booked_retry hleft hretries hrv⟩
  · refine ⟨?_, hmoved, booked_moved hleft hrv fun hexit => absurd hexit (by simp)⟩
    change written + r.1.toNat ≤ sndLen
    omega
  · rw [hblocked (by simpa using hready)] at hhanded ⊢
    exact ⟨hlt.le, hhanded, booked_blocked _ _ _ _⟩

/-- The beginning of a buffer into which octets have been stored behind the first `p`. -/
theorem take_overwrite_add {buf l : List UInt8} {p n : ℕ} (hp : p ≤ buf.length)
    (hn : n ≤ l.length) :
    (BlockList.overwrite buf p l).take (p + n) = buf.take p ++ l.take n := by
  have hlen : (buf.take p).length = p := by simp [hp]
  rw [BlockList.overwrite, List.append_assoc, List.take_append, hlen, Nat.add_sub_cancel_left,
    List.take_of_length_le (by omega), List.take_append_of_le_length hn]

/-- What the loop of `Recv` keeps: the buffer starts with the octets that the device has delivered, and
the books are right. -/
structure RecvBooked (dev : IoDevBase δ) (rcvLen room : ℕ) (s : RecvLocals (δ × List HookCall)) :
    Prop where
  read_le : s.bytesRead ≤ rcvLen
  length_buf : s.buf.length = room
  delivered : movedOctets s.env.2 = s.buf.take s.bytesRead
  booked : Booked dev.retries.toNat s.env.2 s.retries s.exitFlag
    (dev.fullRead = false ∧ 0 < s.bytesRead)

/-- **What one pass of the loop of `Recv` keeps.** -/
theorem recvBooked_pass {dev : IoDevBase δ} {rcvLen room : ℕ} (hroom : rcvLen ≤ room)
    (timeout : UInt32) {s : RecvLocals (δ × List HookCall)} (hmore : recvMore rcvLen s = true)
    (h : RecvBooked dev rcvLen room s) :
    RecvBooked dev rcvLen room (dev.logged.recvPass rcvLen timeout s) := by
  obtain ⟨done, exitFlag, left, buf, d, log⟩ := s
  simp only [recvMore, Bool.and_eq_true, decide_eq_true_eq, Bool.not_eq_true'] at hmore
  obtain ⟨hlt, rfl⟩ := hmore
  obtain ⟨asked, hask, hoctets, hfailed, hblocked⟩ :=
    askReady_logReady dev.hooks.recvReady timeout (d, log)
  have hleft : failedAttempts (log ++ asked) + left = dev.retries.toNat := by
    rw [failedAttempts_append, hfailed]
    exact h.booked.left_of_more rfl
  have hdelivered : movedOctets (log ++ asked) = buf.take done := by
    rw [movedOctets_append, hoctets, List.append_nil]
    exact h.delivered
  have hlen : buf.length = room := h.length_buf
  set e := (askReady dev.hooks.recvReady timeout d).2
  have hle := @dev.hooks.recvData_le rcvLen done timeout e
  have hstored := @dev.hooks.stored_le rcvLen done timeout e
  set r := dev.hooks.recvData rcvLen done timeout e with hr
  have hbuf : (BlockList.overwrite buf done r.1.2).length = room := by
    rw [BlockList.length_overwrite_of_le (by omega), hlen]
  have hmoved : movedOctets (log ++ asked ++ [.data r.1.1 (r.1.2.take r.1.1.toNat)]) =
      (BlockList.overwrite buf done r.1.2).take (done + r.1.1.toNat) := by
    rw [movedOctets_append, hdelivered, movedOctets_data,
      take_overwrite_add (by omega) (by omega)]
  simp only [recvPass, recvTook, logged, IoHooks.logged, hask, ← hr]
  split_ifs with hready hrv hretries
  · rw [Int.toNat_of_nonpos hrv] at hmoved ⊢
    exact ⟨hlt.le, hbuf, hmoved, booked_last (hretries ▸ hleft) hrv _⟩
  · rw [Int.toNat_of_nonpos hrv] at hmoved ⊢
    exact ⟨hlt.le, hbuf, hmoved, booked_retry hleft hretries hrv⟩
  · refine ⟨?_, hbuf, hmoved, booked_moved hleft hrv fun hexit => ⟨by simpa using hexit, ?_⟩⟩
    · change done + r.1.1.toNat ≤ rcvLen
      omega
    · change 0 < done + r.1.1.toNat
      omega
  · rw [hblocked (by simpa using hready)] at hdelivered ⊢
    exact ⟨hlt.le, hlen, hdelivered, booked_blocked _ _ _ _⟩

/-! ### The device and what it writes down -/

/-- The variables of the loop of `Send` without the calls that are written down. -/
def unloggedSend (s : SendLocals (δ × List HookCall)) : SendLocals δ :=
  ⟨s.bytesWritten, s.exitFlag, s.retries, s.rv, s.env.1⟩

/-- The variables of the loop of `Recv` without the calls that are written down. -/
def unloggedRecv (s : RecvLocals (δ × List HookCall)) : RecvLocals δ :=
  ⟨s.bytesRead, s.exitFlag, s.retries, s.buf, s.env.1⟩

theorem unloggedSend_sendAnswered (s : SendLocals (δ × List HookCall)) :
    unloggedSend (sendAnswered s) = sendAnswered (unloggedSend s) := rfl

theorem unloggedSend_sendTook (s : SendLocals (δ × List HookCall)) (a : ℤ)
    (e : δ × List HookCall) :
    unloggedSend (sendTook s (a, e)) = sendTook (unloggedSend s) (a, e.1) := by
  unfold sendTook
  by_cases ha : a ≤ 0
  · rw [if_pos ha, if_pos ha]
    exact apply_ite unloggedSend _ _ _
  · rw [if_neg ha, if_neg ha]
    rfl

theorem unloggedRecv_recvTook (fullRead : Bool) (s : RecvLocals (δ × List HookCall))
    (a : ℤ × List UInt8) (e : δ × List HookCall) :
    unloggedRecv (recvTook fullRead s (a, e)) = recvTook fullRead (unloggedRecv s) (a, e.1) := by
  unfold recvTook
  by_cases ha : a.1 ≤ 0
  · rw [if_pos ha, if_pos ha]
    exact apply_ite unloggedRecv _ _ _
  · rw [if_neg ha, if_neg ha]
    rfl

theorem unloggedSend_sendPass (dev : IoDevBase δ) (pBuf : List UInt8) (sndLen : ℕ)
    (timeout : UInt32) (s : SendLocals (δ × List HookCall)) :
    unloggedSend (dev.logged.sendPass pBuf sndLen timeout s) =
      dev.sendPass pBuf sndLen timeout (unloggedSend s) := by
  obtain ⟨asked, hask, -⟩ := askReady_logReady dev.hooks.sendReady timeout s.env
  simp only [sendPass, logged, IoHooks.logged, hask, unloggedSend_sendAnswered]
  cases hready : (askReady dev.hooks.sendReady timeout s.env.1).1 with
  | true =>
      have hready' : (askReady dev.hooks.sendReady timeout (unloggedSend s).env).1 = true := hready
      rw [if_pos rfl, if_pos hready']
      exact congrArg sendAnswered (unloggedSend_sendTook s _ _)
  | false =>
      have hready' : ¬ (askReady dev.hooks.sendReady timeout (unloggedSend s).env).1 = true :=
        Bool.not_eq_true _ ▸ hready
      rw [if_neg Bool.false_ne_true, if_neg hready']
      exact congrArg sendAnswered rfl

theorem unloggedRecv_recvPass (dev : IoDevBase δ) (rcvLen : ℕ) (timeout : UInt32)
    (s : RecvLocals (δ × List HookCall)) :
    unloggedRecv (dev.logged.recvPass rcvLen timeout s) =
      dev.recvPass rcvLen timeout (unloggedRecv s) := by
  obtain ⟨asked, hask, -⟩ := askReady_logReady dev.hooks.recvReady timeout s.env
  simp only [recvPass, logged, IoHooks.logged, hask]
  cases hready : (askReady dev.hooks.recvReady timeout s.env.1).1 with
  | true =>
      have hready' : (askReady dev.hooks.recvReady timeout (unloggedRecv s).env).1 = true := hready
      rw [if_pos rfl, if_pos hready']
      exact unloggedRecv_recvTook dev.fullRead s _ _
  | false =>
      have hready' : ¬ (askReady dev.hooks.recvReady timeout (unloggedRecv s).env).1 = true :=
        Bool.not_eq_true _ ▸ hready
      rw [if_neg Bool.false_ne_true, if_neg hready']
      rfl

theorem unloggedSend_sendLoop (dev : IoDevBase δ) (pBuf : List UInt8) (sndLen : ℕ)
    (timeout : UInt32) (e : δ × List HookCall) :
    unloggedSend (dev.logged.sendLoop pBuf sndLen timeout e) =
      dev.sendLoop pBuf sndLen timeout e.1 := by
  refine whileDo_simulates (R := fun s t => unloggedSend s = t) ?_ ?_ rfl
  · rintro s t rfl
    rfl
  · rintro s t - rfl
    exact unloggedSend_sendPass dev pBuf sndLen timeout s

theorem unloggedRecv_recvLoop (dev : IoDevBase δ) (pBuf : List UInt8) (rcvLen : ℕ)
    (timeout : UInt32) (e : δ × List HookCall) :
    unloggedRecv (dev.logged.recvLoop pBuf rcvLen timeout e) =
      dev.recvLoop pBuf rcvLen timeout e.1 := by
  refine whileDo_simulates (R := fun s t => unloggedRecv s = t) ?_ ?_ rfl
  · rintro s t rfl
    rfl
  · rintro s t - rfl
    exact unloggedRecv_recvPass dev rcvLen timeout s

/-! ### Exact transfers -/

/-- A loop that is done before everything is transferred has its exit flag set. -/
theorem exitFlag_of_short {k n : ℕ} {exitFlag : Bool} (hshort : k < n)
    (hdone : (decide (k < n) && !exitFlag) = false) : exitFlag = true := by
  simpa [hshort] using hdone

/-- **What the loop of `Send` leaves behind.** -/
theorem sendBooked_loop (dev : IoDevBase δ) (pBuf : List UInt8) (sndLen : ℕ) (timeout : UInt32)
    (d : δ) :
    let s := dev.logged.sendLoop pBuf sndLen timeout (d, [])
    SendBooked dev pBuf sndLen s ∧ (s.bytesWritten < sndLen → s.exitFlag = true) := by
  have hstart : SendBooked dev pBuf sndLen ⟨0, false, dev.retries.toNat, none, d, []⟩ :=
    ⟨Nat.zero_le _, rfl, fun _ => Nat.zero_add _, fun h => absurd h (by simp)⟩
  obtain ⟨hbooked, hdone⟩ := @whileDo_spec _ (sendMore sndLen)
    (dev.logged.sendPass pBuf sndLen timeout) (sendLeft sndLen)
    (dev.logged.sendLeft_sendPass pBuf sndLen timeout) (SendBooked dev pBuf sndLen)
    (fun s hmore hs => sendBooked_pass timeout hmore hs) _ hstart
  exact ⟨hbooked, fun hshort => exitFlag_of_short hshort hdone⟩

/-- The answer is set at the end of every pass, and there is a first pass unless nothing is to be
sent. -/
theorem rv_sendLoop (dev : IoDevBase δ) (pBuf : List UInt8) (sndLen : ℕ) (timeout : UInt32) (d : δ) :
    (dev.sendLoop pBuf sndLen timeout d).rv =
      if 0 < sndLen then some (dev.sendLoop pBuf sndLen timeout d).bytesWritten else none := by
  rw [sendLoop]
  cases hfirst : sendMore sndLen ⟨0, false, dev.retries.toNat, none, d⟩ with
  | true =>
      have hpos : 0 < sndLen := by simpa [sendMore] using hfirst
      rw [if_pos hpos, whileDo_of_true hfirst]
      exact (whileDo_spec (I := fun s : SendLocals δ => s.rv = some s.bytesWritten) (fun _ _ _ => rfl) rfl).1
  | false =>
      have hpos : ¬ 0 < sndLen := by simpa [sendMore] using hfirst
      rw [if_neg hpos, whileDo_of_false hfirst]

/-- **What the loop of `Recv` leaves behind.** -/
theorem recvBooked_loop (dev : IoDevBase δ) {pBuf : List UInt8} {rcvLen : ℕ}
    (hroom : rcvLen ≤ pBuf.length) (timeout : UInt32) (d : δ) :
    let s := dev.logged.recvLoop pBuf rcvLen timeout (d, [])
    RecvBooked dev rcvLen pBuf.length s ∧ (s.bytesRead < rcvLen → s.exitFlag = true) := by
  have hstart : RecvBooked dev rcvLen pBuf.length ⟨0, false, dev.retries.toNat, pBuf, d, []⟩ :=
    ⟨Nat.zero_le _, rfl, rfl, fun _ => Nat.zero_add _, fun h => absurd h (by simp)⟩
  obtain ⟨hbooked, hdone⟩ := @whileDo_spec _ (recvMore rcvLen)
    (dev.logged.recvPass rcvLen timeout) (recvLeft rcvLen)
    (dev.logged.recvLeft_recvPass rcvLen timeout) (RecvBooked dev rcvLen pBuf.length)
    (fun s hmore hs => recvBooked_pass hroom timeout hmore hs) _ hstart
  exact ⟨hbooked, fun hshort => exitFlag_of_short hshort hdone⟩

/-- What `Send` owes: it answers how many octets the device has taken, they are the first ones of the
buffer, and there is a reason when they are fewer than asked. -/
def SendExact (dev : IoDevBase δ) (pBuf : List UInt8) (sndLen : ℕ) (timeout : UInt32) (d : δ) :
    Prop :=
  ∃ (k : ℕ) (d' : δ) (log : List HookCall),
    dev.logged.send (some pBuf) sndLen timeout (d, []) = ((k : ℤ), d', log) ∧
      dev.send (some pBuf) sndLen timeout d = ((k : ℤ), d') ∧
      k ≤ sndLen ∧ movedOctets log = pBuf.take k ∧
      (k < sndLen → GaveUp dev.retries.toNat log)

/-- What `Recv` owes: it answers how many octets the device has delivered, the buffer starts with
them, and there is a reason when they are fewer than asked. -/
def RecvExact (dev : IoDevBase δ) (pBuf : List UInt8) (rcvLen : ℕ) (timeout : UInt32) (d : δ) :
    Prop :=
  ∃ (k : ℕ) (buf : List UInt8) (d' : δ) (log : List HookCall),
    dev.logged.recv (some pBuf) rcvLen timeout (d, []) = ⟨(k : ℤ), buf, d', log⟩ ∧
      dev.recv (some pBuf) rcvLen timeout d = ⟨(k : ℤ), buf, d'⟩ ∧
      k ≤ rcvLen ∧ buf.length = pBuf.length ∧ movedOctets log = buf.take k ∧
      (k < rcvLen → GaveUp dev.retries.toNat log ∨ dev.fullRead = false ∧ 0 < k)

/-- The loop of `Send` is exact. -/
theorem sendExact_of_valid {dev : IoDevBase δ} (hvalid : dev.valid = true) (pBuf : List UInt8)
    {sndLen : ℕ} (hpos : 0 < sndLen) (hlt : sndLen < 2 ^ 31) (timeout : UInt32) (d : δ) :
    dev.SendExact pBuf sndLen timeout d := by
  obtain ⟨⟨hle, hhanded, hbooked⟩, hexit⟩ := dev.sendBooked_loop pBuf sndLen timeout d
  have hrv := dev.logged.rv_sendLoop pBuf sndLen timeout (d, [])
  have hplain := dev.unloggedSend_sendLoop pBuf sndLen timeout (d, [])
  have hlogged : dev.logged.valid = true := hvalid
  set s := dev.logged.sendLoop pBuf sndLen timeout (d, []) with hs
  rw [if_pos hpos] at hrv
  have hint : toInt s.bytesWritten = s.bytesWritten := toInt_of_lt (by omega)
  refine ⟨s.bytesWritten, s.env.1, s.env.2, ?_, ?_, hle, hhanded, fun hshort => ?_⟩
  · simp only [send, hlogged, if_true, ← hs, hrv, Option.map_some, Option.getD_some, hint]
  · simp only [send, hvalid, if_true, ← hplain, unloggedSend, hrv, Option.map_some,
      Option.getD_some, hint]
  · exact (hbooked.reason (hexit hshort)).resolve_right id

/-- The loop of `Recv` is exact. -/
theorem recvExact_of_valid {dev : IoDevBase δ} (hvalid : dev.valid = true) {pBuf : List UInt8}
    {rcvLen : ℕ} (hlt : rcvLen < 2 ^ 31) (hroom : rcvLen ≤ pBuf.length) (timeout : UInt32) (d : δ) :
    dev.RecvExact pBuf rcvLen timeout d := by
  obtain ⟨⟨hle, hlength, hdelivered, hbooked⟩, hexit⟩ := dev.recvBooked_loop hroom timeout d
  have hplain := dev.unloggedRecv_recvLoop pBuf rcvLen timeout (d, [])
  have hlogged : dev.logged.valid = true := hvalid
  set s := dev.logged.recvLoop pBuf rcvLen timeout (d, []) with hs
  have hint : toInt s.bytesRead = s.bytesRead := toInt_of_lt (by omega)
  refine ⟨s.bytesRead, s.buf, s.env.1, s.env.2, ?_, ?_, hle, hlength, hdelivered, fun hshort => ?_⟩
  · simp only [recv, hlogged, if_true, ← hs, hint]
  · simp only [recv, hvalid, if_true, ← hplain, unloggedRecv, hint]
  · exact hbooked.reason (hexit hshort)

/-! ### The device as the transports see it -/

theorem toNat_bmod_le (n m : ℕ) : (Int.bmod n m).toNat ≤ n := by
  have hle := Nat.mod_le n m
  rw [Int.bmod_def, ← Int.natCast_emod]
  split_ifs <;> omega

/-- A length never grows when it is converted to `int`. -/
theorem toNat_toInt_le (n : ℕ) : (toInt n).toNat ≤ n := by
  have heq : toInt n = Int.bmod n 0x100000000 := rfl
  exact (congrArg Int.toNat heq).trans_le (toNat_bmod_le n _)

theorem toInt_le (n : ℕ) : toInt n ≤ n := Int.toNat_le.1 (toNat_toInt_le n)

/-- An answer that is converted is never more than what was converted. -/
theorem toNat_getD_map_le {f : ℕ → ℤ} (hf : ∀ n, (f n).toNat ≤ n) {error : ℤ}
    (herror : error.toNat = 0) {answer : Option ℕ} {n : ℕ} (h : ∀ k ∈ answer, k ≤ n) :
    ((answer.map f).getD error).toNat ≤ n := by
  cases answer with
  | none => exact herror.trans_le (Nat.zero_le _)
  | some k => exact (hf k).trans (h k rfl)

/-- The answer of `Send` is never more than asked. -/
theorem toNat_send_le (dev : IoDevBase δ) (pBuf : List UInt8) (sndLen : ℕ) (timeout : UInt32)
    (d : δ) : (dev.send (some pBuf) sndLen timeout d).1.toNat ≤ sndLen := by
  have hle : (dev.sendLoop pBuf sndLen timeout d).bytesWritten ≤ sndLen := by
    rw [← dev.unloggedSend_sendLoop pBuf sndLen timeout (d, [])]
    exact (dev.sendBooked_loop pBuf sndLen timeout d).1.written_le
  have hrv : ∀ k ∈ (dev.sendLoop pBuf sndLen timeout d).rv, k ≤ sndLen := by
    intro k hk
    obtain ⟨-, heq⟩ := Option.ite_none_right_eq_some.1
      ((dev.rv_sendLoop pBuf sndLen timeout d).symm.trans hk)
    exact Option.some.inj heq ▸ hle
  cases hvalid : dev.valid with
  | true =>
      simp only [send, hvalid, if_true]
      exact toNat_getD_map_le toNat_toInt_le rfl hrv
  | false => simp [send, hvalid, kError]

/-- The answer of `Recv` is never more than asked. -/
theorem toNat_recv_le (dev : IoDevBase δ) {pBuf : List UInt8} {rcvLen : ℕ}
    (hroom : rcvLen ≤ pBuf.length) (timeout : UInt32) (d : δ) :
    (dev.recv (some pBuf) rcvLen timeout d).rv.toNat ≤ rcvLen := by
  have hle : (dev.recvLoop pBuf rcvLen timeout d).bytesRead ≤ rcvLen := by
    rw [← dev.unloggedRecv_recvLoop pBuf rcvLen timeout (d, [])]
    exact (dev.recvBooked_loop hroom timeout d).1.read_le
  cases hvalid : dev.valid with
  | true =>
      simp only [recv, hvalid, if_true]
      exact le_trans (toNat_toInt_le _) hle
  | false => simp [recv, hvalid, kError]

/-- A device with another full read flag. -/
def withFullRead (dev : IoDevBase δ) (val : Bool) : IoDevBase δ := { dev with fullRead := val }

/-- The device as the transports see it; the full read flag is part of what is behind it. -/
def toIoDev (dev : IoDevBase δ) (timeout : UInt32) : IoDev (Bool × δ) where
  send e l :=
    let r := dev.send (some l) l.length timeout e.2
    (if r.1 < 0 then none else some r.1.toNat, e.1, r.2)
  recv e n :=
    let r := (dev.withFullRead e.1).recv (some (List.replicate n 0)) n timeout e.2
    (if r.rv < 0 then none else some (r.buf.take r.rv.toNat), e.1, r.env)
  fullRead val e := (val, e.2)
  send_le h := by
    obtain ⟨-, heq⟩ := Option.ite_none_left_eq_some.1 h
    exact (Option.some.inj heq) ▸ toNat_send_le _ _ _ _ _
  recv_le h := by
    obtain ⟨-, heq⟩ := Option.ite_none_left_eq_some.1 h
    rw [← Option.some.inj heq]
    exact (List.length_take_le _ _).trans
      (toNat_recv_le _ (by rw [List.length_replicate]) _ _)

end IoDevBase

/-- **Transfers are exact under partial results**: whatever a valid device answers, `Send` and `Recv`
end, answer how many octets the device has taken or delivered, leave no gap and repeat nothing, and
give up early only for a reason. -/
theorem ioDev_transfers_exact {δ : Type*} (dev : IoDevBase δ) (hvalid : dev.valid = true)
    (pBuf : List UInt8) (len : ℕ) (hpos : 1 ≤ len) (hlt : len ≤ 2 ^ 31 - 1)
    (hroom : len ≤ pBuf.length) (timeout : UInt32) (d : δ) :
    dev.SendExact pBuf len timeout d ∧ dev.RecvExact pBuf len timeout d :=
  ⟨IoDevBase.sendExact_of_valid hvalid pBuf (by omega) (by omega) timeout d,
    IoDevBase.recvExact_of_valid hvalid (by omega) hroom timeout d⟩

/-- A device that takes and delivers octets by a list of lengths, and fails when the list has run
out. -/
def scriptedHooks : IoHooks (List ℕ) where
  sendReady _ d := (true, d)
  recvReady _ d := (true, d)
  sendData _ sndLen bytesWritten _ d := ((min (d.headD 0) (sndLen - bytesWritten) : ℕ), d.tail)
  recvData rcvLen bytesRead _ d :=
    let n := min (d.headD 0) (rcvLen - bytesRead)
    (((n : ℕ), List.replicate n 0x2a), d.tail)
  sendData_le := Int.ofNat_le.2 (Nat.min_le_right _ _)
  recvData_le := by simp
  stored_le := by simp

/-- Four octets, transferred in two parts with a failed attempt between them. -/
theorem ioDev_transfers_exact_scripted :
    (⟨true, true, 1, scriptedHooks⟩ : IoDevBase (List ℕ)).SendExact [1, 2, 3, 4] 4 100 [1, 0, 3] ∧
      (⟨true, true, 1, scriptedHooks⟩ : IoDevBase (List ℕ)).RecvExact [1, 2, 3, 4] 4 100 [1, 0, 3] :=
  ioDev_transfers_exact ⟨true, true, 1, scriptedHooks⟩ rfl [1, 2, 3, 4] 4 (by decide) (by decide)
    (by decide) 100 [1, 0, 3]

end CodePort
