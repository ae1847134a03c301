/-
The semaphore made of a mutex and a condition variable is the atomic one.

Every step of a thread is an event of the atomic semaphore, or no event of it.  What carries this is that
the count is changed by the owner of the mutex only, so that what a thread has read of it is still true
when it writes.

Main definitions:

* `CodePort.SemInside.Holds` — what a thread knows of the count where it stands with the mutex;
* `CodePort.Agrees` — where a thread stands in the one semaphore, and where in the other;
* `CodePort.Refines` — the two semaphores are in corresponding states.

Main results:

* `CodePort.Refines.step` — one step of any thread;
* `CodePort.semaphore_refines` — **the history of any run is one of the atomic semaphore**.
-/

import CodePort.SemCalls

set_option relaxedAutoImplicit false
set_option autoImplicit false

namespace CodePort

open Monitor StepSystem

variable {ι : Type*}

/-! ### Corresponding places -/

/-- What a thread knows of the count. -/
def SemInside.Holds (count maxCount : UInt32) : SemInside → Prop
  | .taking => count ≠ 0
  | .counting => count < maxCount
  | _ => True

/-- Where a thread may stand when it has just locked the mutex. -/
def SemInside.Enters : SemInside → Prop
  | .testing _ => True
  | .cleaning => True
  | .comparing => True
  | .filling => True
  | .unlocking _ => True
  | _ => False

/-- The end of a wait is the time-out after the count has been found at 0. -/
def IsEnd (timeout : UInt32) (seen : ℕ) (d : Option Timespec) : Prop :=
  ∀ t, d = some t → timeout ≠ kInfiniteTimeout ∧ t.nanos = (seen + timeout.toNat * 1000000 : ℕ)

/-- Where a thread stands with the mutex, and how far its call is. -/
inductive SemInside.Agrees : SemInside → AtomicPos → Prop
  | testing {timeout seen} : SemInside.Agrees (.testing timeout) (.pending (.take timeout) seen)
  | taking {timeout seen} : SemInside.Agrees .taking (.pending (.take timeout) seen)
  | cleaning {timeout seen} : SemInside.Agrees .cleaning (.pending (.take timeout) (some seen))
  | comparing {seen} : SemInside.Agrees .comparing (.pending .give seen)
  | counting {seen} : SemInside.Agrees .counting (.pending .give seen)
  | signalling : SemInside.Agrees .signalling (.done true)
  | filling {seen} : SemInside.Agrees .filling (.pending .giveAll seen)
  | broadcasting : SemInside.Agrees .broadcasting (.done true)
  | unlocking {rv} : SemInside.Agrees (.unlocking rv) (.done rv)

/-- Where a thread stands, and how far its call is. -/
inductive Agrees : SemPlace → AtomicPos → Prop
  | outside : Agrees (.free .outside) .outside
  | called {call} : Agrees (.free (.called call)) (.pending call.plain none)
  | returning {rv} : Agrees (.free (.returning rv)) (.done rv)
  | cancelled : Agrees (.free .cancelled) .cancelled
  | locking {p pos} : p.Enters → p.Agrees pos → Agrees (.locking p) pos
  | locked {p pos} : p.Agrees pos → Agrees (.locked p) pos
  | waiting {d timeout seen woken} : IsEnd timeout seen d →
      Agrees (.waiting d (.testing timeout) woken) (.pending (.take timeout) (some seen))

/-- A thread that is unblocked stands where it stood. -/
theorem Agrees.wake {p : SemPlace} {pos : AtomicPos} (h : Agrees p pos) : Agrees p.wake pos := by
  cases h with
  | outside => exact .outside
  | called => exact .called
  | returning => exact .returning
  | cancelled => exact .cancelled
  | locking hp h => exact .locking hp h
  | locked h => exact .locked h
  | waiting hd => exact .waiting hd

theorem SemInside.Enters.holds {p : SemInside} (h : p.Enters) (count maxCount : UInt32) :
    p.Holds count maxCount := by
  cases p with
  | taking => exact h.elim
  | counting => exact h.elim
  | _ => trivial

/-- The two semaphores are in corresponding states. -/
structure Refines (s : SemCalls ι) (t : AtomicSem ι) : Prop where
  valid : t.valid = s.valid
  enabled : t.enabled = s.enabled
  count : t.sem.count = s.count.toNat
  maxCount : t.sem.maxCount = s.maxCount.toNat
  clock : t.clock = s.clock
  agrees : ∀ i, Agrees (s.monitor.place i) (t.pos i)
  exclusive : s.monitor.Exclusive
  holds : ∀ {i p}, s.monitor.place i = .locked p → p.Holds s.count s.maxCount

/-- Before the first call. -/
theorem Refines.construct (ι : Type*) (initCount maxCount : UInt32) (lOk cOk : Bool) (clock : ℕ) :
    Refines (SemCalls.construct ι initCount maxCount lOk cOk clock)
      (AtomicSem.construct ι initCount.toNat maxCount.toNat (lOk && cOk) clock) where
  valid := rfl
  enabled := rfl
  count := by
    simp only [AtomicSem.construct, SemLite.construct, SemCalls.construct, GT.gt, UInt32.lt_iff_toNat_lt]
    split_ifs <;> rfl
  maxCount := rfl
  clock := rfl
  agrees _ := .outside
  exclusive _ := by simp [SemCalls.construct, Place.isLocked]
  holds hp := by cases hp

/-! ### Where the call of a thread is -/

namespace Refines

variable {s : SemCalls ι} {t : AtomicSem ι} {i : ι} {b : SemInside}

theorem pos_called (h : Refines s t) {call : SemCall} (hi : s.monitor.place i = .free (.called call)) :
    t.pos i = .pending call.plain none := by
  have hagrees := hi ▸ h.agrees i
  generalize t.pos i = q at hagrees
  cases hagrees with
  | called => rfl

theorem pos_returning (h : Refines s t) {rv : Bool} (hi : s.monitor.place i = .free (.returning rv)) :
    t.pos i = .done rv := by
  have hagrees := hi ▸ h.agrees i
  generalize t.pos i = q at hagrees
  cases hagrees with
  | returning => rfl

theorem pos_outside (h : Refines s t) (hi : s.monitor.place i = .free .outside) :
    t.pos i = .outside := by
  have hagrees := hi ▸ h.agrees i
  generalize t.pos i = q at hagrees
  cases hagrees with
  | outside => rfl

theorem pos_locking (h : Refines s t) (hi : s.monitor.place i = .locking b) :
    b.Enters ∧ b.Agrees (t.pos i) := by
  have hagrees := hi ▸ h.agrees i
  generalize t.pos i = q at hagrees ⊢
  cases hagrees with
  | locking hb h => exact ⟨hb, h⟩

theorem pos_locked (h : Refines s t) (hi : s.monitor.place i = .locked b) : b.Agrees (t.pos i) := by
  have hagrees := hi ▸ h.agrees i
  generalize t.pos i = q at hagrees ⊢
  cases hagrees with
  | locked h => exact h

theorem pos_waiting (h : Refines s t) {d : Option Timespec} {woken : Bool}
    (hi : s.monitor.place i = .waiting d b woken) :
    ∃ timeout seen, b = .testing timeout ∧ t.pos i = .pending (.take timeout) (some seen) ∧
      IsEnd timeout seen d := by
  have hagrees := hi ▸ h.agrees i
  generalize t.pos i = q at hagrees
  cases hagrees with
  | waiting hd => exact ⟨_, _, rfl, rfl, hd⟩

end Refines

/-! ### Steps of the semaphore and events -/

/-- The atomic semaphore after what can be seen of a step. -/
def follow [DecidableEq ι] (t : AtomicSem ι) : Option (SemEvent ι) → Option (AtomicSem ι)
  | none => some t
  | some e => atomicStep t e

namespace Refines

variable [DecidableEq ι] {s s' : SemCalls ι} {t : AtomicSem ι} {i : ι} {p : SemPlace} {b b' : SemInside}
  {pos : AtomicPos}

/-- One thread moves in both semaphores. -/
theorem agrees_update (h : Refines s t) (hp : Agrees p pos) (j : ι) :
    Agrees (Function.update s.monitor.place i p j) (Function.update t.pos i pos j) := by
  by_cases hj : j = i
  · subst hj
    simpa using hp
  · simpa [Function.update_of_ne hj] using h.agrees j

/-- What the owner knows after a step that changes the place of one thread. -/
theorem holds_update {m : Monitor ι SemPos SemInside (Option Timespec)} {count maxCount : UInt32}
    (hm : m.place = Function.update s.monitor.place i p)
    (hp : ∀ b, p = .locked b → b.Holds count maxCount)
    (hother : ∀ j b, j ≠ i → s.monitor.place j = .locked b → b.Holds count maxCount) {j : ι}
    (hj : m.place j = .locked b) : b.Holds count maxCount := by
  rw [hm] at hj
  rcases moved_cases hj with ⟨-, heq⟩ | ⟨hne, heq⟩
  · exact hp b heq.symm
  · exact hother j b hne heq

/-- A thread moves without changing the mutex or the count. -/
theorem moved (h : Refines s t) (hp : Agrees p pos) (hl : p.isLocked = (s.monitor.place i).isLocked)
    (hb : ∀ b, p = .locked b → b.Holds s.count s.maxCount) : Refines (s.moved i p) (t.moved i pos) :=
  { h with
    agrees := h.agrees_update hp
    exclusive := h.exclusive.move hl
    holds := holds_update rfl hb fun _ _ _ => h.holds }

/-- A thread moves, and its call is where it was. -/
theorem stays (h : Refines s t) (hp : Agrees p (t.pos i))
    (hl : p.isLocked = (s.monitor.place i).isLocked)
    (hb : ∀ b, p = .locked b → b.Holds s.count s.maxCount) : Refines (s.moved i p) t := by
  have hmoved := h.moved hp hl hb
  rwa [AtomicSem.moved, Function.update_eq_self] at hmoved

/-- **The owner changes the count**: nobody else knows anything of it. -/
theorem counted (h : Refines s t) (hi : s.monitor.place i = .locked b) (hp : b'.Agrees pos)
    {count : UInt32} {sem : SemLite} (hb : b'.Holds count s.maxCount) (hcount : sem.count = count.toNat)
    (hmax : sem.maxCount = t.sem.maxCount) :
    Refines { s.moved i (.locked b') with count := count } { t.moved i pos with sem := sem } :=
  { h with
    count := hcount
    maxCount := hmax.trans h.maxCount
    agrees := h.agrees_update (.locked hp)
    exclusive := h.exclusive.move (by rw [hi]; rfl)
    holds := holds_update rfl (fun c hc => Place.locked.inj hc ▸ hb)
      fun _ _ hne hj => absurd (h.exclusive.eq hi hj) hne }

/-- The owner gives the mutex up. -/
theorem released (h : Refines s t) (hi : s.monitor.place i = .locked b) (hp : Agrees p pos)
    (hl : p.isLocked = false) :
    Refines { s with monitor := s.monitor.release i p } (t.moved i pos) :=
  { h with
    agrees := h.agrees_update hp
    exclusive := h.exclusive.release hi hl
    holds := holds_update rfl (fun c hc => by rw [hc] at hl; cases hl) fun _ _ _ => h.holds }

/-- A thread locks the mutex. -/
theorem locks (h : Refines s t) (hp : b.Agrees (t.pos i)) (hb : b.Enters) {a : Option (SemEvent ι)}
    (hstep : s.locks i b = some (a, s')) : a = none ∧ Refines s' t := by
  obtain ⟨m, hm, heq⟩ := Option.map_eq_some_iff.1 hstep
  obtain ⟨rfl, rfl⟩ := Prod.mk.inj heq
  have hplace := place_lock hm
  have hagrees := h.agrees_update (i := i) (.locked hp)
  rw [Function.update_eq_self] at hagrees
  refine ⟨rfl, { h with
    agrees := fun j => ?_
    exclusive := h.exclusive.lock hm
    holds := holds_update hplace (fun c hc => Place.locked.inj hc ▸ hb.holds _ _) fun _ _ _ => h.holds }⟩
  rw [hplace]
  exact hagrees j

/-- Threads are unblocked. -/
theorem woken (h : Refines s t) (ws : Finset ι) : Refines { s with monitor := s.monitor.wake ws } t :=
  { h with
    agrees := fun j => by
      simp only [Monitor.wake]
      split_ifs
      · exact (h.agrees j).wake
      · exact h.agrees j
    exclusive := h.exclusive.wake ws
    holds := fun {j p} hp => by
      refine h.holds (i := j) ?_
      simp only [Monitor.wake] at hp
      split_ifs at hp
      · cases hq : s.monitor.place j <;> rw [hq] at hp <;> cases hp
        rfl
      · exact hp }

/-! ### One step of any thread -/

/-- A call is refused. -/
theorem refused (h : Refines s t) {call : SemCall} (hi : s.monitor.place i = .free (.called call))
    (hr : t.Refuses call.plain) :
    ∃ t', follow t (some (.refused i)) = some t' ∧ Refines (s.moved i (.free (.returning false))) t' := by
  refine ⟨t.moved i (.done false), ?_, h.moved .returning (by rw [hi]; rfl) fun _ hb => by cases hb⟩
  simp only [follow, atomicStep, h.pos_called hi, if_pos hr]

/-- **The checks before the mutex is locked.** -/
theorem check (h : Refines s t) {call : SemCall} (hi : s.monitor.place i = .free (.called call)) :
    ∃ t', follow t (s.check i call).1 = some t' ∧ Refines (s.check i call).2 t' := by
  have hpos := h.pos_called hi
  have hfree : ∀ {p : SemPlace}, p.isLocked = false → p.isLocked = (s.monitor.place i).isLocked :=
    fun hp => by rw [hi]; exact hp
  cases call with
  | take timeout =>
      simp only [SemCalls.check]
      split_ifs with hok
      · exact ⟨t, rfl, h.stays (hpos ▸ .locking trivial .testing) (hfree rfl) fun _ hb => by cases hb⟩
      · refine h.refused hi ?_
        rw [not_and_or, Bool.not_eq_true, Bool.not_eq_true] at hok
        simpa only [SemCall.plain, AtomicSem.Refuses, h.valid, h.enabled] using hok
  | tryTake =>
      simp only [SemCalls.check]
      split_ifs with hok
      · refine ⟨t, rfl, h.stays ?_ (hfree rfl) fun _ hb => by cases hb⟩
        rw [hpos]
        exact .called
      · refine h.refused hi ?_
        simp only [SemCall.plain, AtomicSem.Refuses, h.valid]
        exact .inl (Bool.not_eq_true _ ▸ hok)
  | give =>
      simp only [SemCalls.check]
      split_ifs with hok
      · exact ⟨t, rfl, h.stays (hpos ▸ .locking trivial .comparing) (hfree rfl) fun _ hb => by cases hb⟩
      · refine h.refused hi ?_
        simp only [SemCall.plain, AtomicSem.Refuses, h.valid]
        exact Bool.not_eq_true _ ▸ hok
  | giveAll =>
      simp only [SemCalls.check]
      split_ifs with hok
      · exact ⟨t, rfl, h.stays (hpos ▸ .locking trivial .filling) (hfree rfl) fun _ hb => by cases hb⟩
      · refine h.refused hi ?_
        simp only [SemCall.plain, AtomicSem.Refuses, h.valid]
        exact Bool.not_eq_true _ ▸ hok
  | destroy =>
      refine ⟨{ t.moved i (.pending .giveAll none) with enabled := false }, ?_, ?_⟩
      · simp only [SemCalls.check, follow, atomicStep, hpos, SemCall.plain]
      · have hmoved := h.moved (p := .free (.called .giveAll)) (i := i)
          .called (hfree rfl) fun _ hb => by cases hb
        exact { hmoved with enabled := rfl, holds := hmoved.holds }

omit [DecidableEq ι] in
/-- A wait that begins now ends after the time-out. -/
theorem isEnd_waitEnd (h : Refines s t) (timeout : UInt32) :
    IsEnd timeout t.clock (s.waitEnd timeout) := by
  intro d hd
  rw [SemCalls.waitEnd] at hd
  split_ifs at hd with hinf
  obtain rfl := Option.some.inj hd
  refine ⟨hinf, ?_⟩
  rw [SemLite.nanos_takeDeadline, h.clock]

variable [Fintype ι]

/-- **A step of the owner of the mutex.** -/
theorem inside (h : Refines s t) (hi : s.monitor.place i = .locked b) {a : Option (SemEvent ι)}
    (hstep : s.inside i b = some (a, s')) : ∃ t', follow t a = some t' ∧ Refines s' t' := by
  have hagrees := h.pos_locked hi
  have hlocked : ∀ {c : SemInside},
      (Place.locked c : SemPlace).isLocked = (s.monitor.place i).isLocked := by
    intro c
    rw [hi]
    rfl
  generalize hpos : t.pos i = pos at hagrees
  cases hagrees with
  | @testing timeout seen =>
      simp only [SemCalls.inside] at hstep
      split_ifs at hstep with hcount
      · obtain ⟨rfl, rfl⟩ := Prod.mk.inj (Option.some.inj hstep)
        refine ⟨t.moved i (.pending (.take timeout) (some t.clock)), ?_,
          h.released hi (.waiting (h.isEnd_waitEnd timeout)) rfl⟩
        have hzero : t.sem.count = 0 := by rw [h.count, hcount]; rfl
        simp only [follow, atomicStep, hpos, if_pos hzero]
      · obtain ⟨rfl, rfl⟩ := Prod.mk.inj (Option.some.inj hstep)
        exact ⟨t, rfl, h.stays (hpos ▸ .locked .taking) hlocked fun _ hb => Place.locked.inj hb ▸ hcount⟩
  | taking =>
      obtain ⟨rfl, rfl⟩ := Prod.mk.inj (Option.some.inj hstep)
      have hne : s.count ≠ 0 := h.holds hi
      have hpos' : 0 < s.count.toNat := Nat.pos_of_ne_zero fun h0 => hne (UInt32.toNat_inj.1 h0)
      obtain ⟨sem, hsem⟩ := Option.ne_none_iff_exists'.1 (SemLite.take_ne_none (h.count ▸ hpos'))
      obtain ⟨hcount, hmax⟩ := SemLite.take_eq_some.1 hsem
      refine ⟨{ t.moved i (.done true) with sem := sem }, ?_,
        h.counted hi .unlocking trivial ?_ hmax.symm⟩
      · simp only [follow, atomicStep, hpos, hsem, Option.map_some]
      · have hle : (1 : UInt32) ≤ s.count := UInt32.le_iff_toNat_le.2 hpos'
        rw [UInt32.toNat_sub_of_le _ _ hle, ← h.count, hcount]
        rfl
  | cleaning =>
      obtain ⟨rfl, rfl⟩ := Prod.mk.inj (Option.some.inj hstep)
      refine ⟨t.moved i .cancelled, ?_, h.released hi .cancelled rfl⟩
      simp only [follow, atomicStep, hpos]
  | comparing =>
      simp only [SemCalls.inside] at hstep
      split_ifs at hstep with hlt
      · obtain ⟨rfl, rfl⟩ := Prod.mk.inj (Option.some.inj hstep)
        exact ⟨t, rfl, h.stays (hpos ▸ .locked .counting) hlocked fun _ hb => Place.locked.inj hb ▸ hlt⟩
      · obtain ⟨rfl, rfl⟩ := Prod.mk.inj (Option.some.inj hstep)
        have hgive : t.sem.give = (false, t.sem) := by
          rw [SemLite.give, dif_neg]
          rw [h.count, h.maxCount]
          exact fun hlt' => hlt (UInt32.lt_iff_toNat_lt.2 hlt')
        refine ⟨{ t.moved i (.done false) with sem := t.sem }, ?_,
          h.counted hi .unlocking trivial h.count rfl⟩
        simp only [follow, atomicStep, hpos, hgive, if_true]
  | counting =>
      obtain ⟨rfl, rfl⟩ := Prod.mk.inj (Option.some.inj hstep)
      have hlt : s.count.toNat < s.maxCount.toNat := UInt32.lt_iff_toNat_lt.1 (h.holds hi)
      obtain ⟨hgive, hcount⟩ := SemLite.give_of_lt (s := t.sem) (by rwa [h.count, h.maxCount])
      refine ⟨{ t.moved i (.done true) with sem := t.sem.give.2 }, ?_,
        h.counted hi .signalling trivial ?_ (SemLite.maxCount_give _)⟩
      · simp only [follow, atomicStep, hpos, hgive, if_true]
      · -- the count is below the maximum, so it does not wrap
        have hwrap : s.count.toNat + 1 < 2 ^ 32 := lt_of_le_of_lt hlt s.maxCount.toNat_lt
        rw [hcount, h.count, UInt32.toNat_add]
        exact (Nat.mod_eq_of_lt hwrap).symm
  | signalling => cases hstep
  | filling =>
      obtain ⟨rfl, rfl⟩ := Prod.mk.inj (Option.some.inj hstep)
      refine ⟨{ t.moved i (.done true) with sem := t.sem.giveAll }, ?_,
        h.counted hi .broadcasting trivial h.maxCount rfl⟩
      simp only [follow, atomicStep, hpos]
  | broadcasting =>
      obtain ⟨rfl, rfl⟩ := Prod.mk.inj (Option.some.inj hstep)
      exact ⟨t, rfl, (h.woken s.monitor.blocked).stays (hpos ▸ .locked .unlocking)
        (by rw [Monitor.isLocked_wake, hi]; rfl) fun _ hb => Place.locked.inj hb ▸ trivial⟩
  | unlocking =>
      obtain ⟨rfl, rfl⟩ := Prod.mk.inj (Option.some.inj hstep)
      exact ⟨t.moved i _, by rw [AtomicSem.moved, ← hpos, Function.update_eq_self]; rfl,
        h.released hi .returning rfl⟩

/-- The next step of a thread. -/
theorem runThread (h : Refines s t) {a : Option (SemEvent ι)} (hstep : s.runThread i = some (a, s')) :
    ∃ t', follow t a = some t' ∧ Refines s' t' := by
  rw [SemCalls.runThread] at hstep
  split at hstep
  next call hi =>
    obtain ⟨rfl, rfl⟩ := Prod.mk.inj (Option.some.inj hstep)
    exact h.check hi
  next rv hi =>
    obtain ⟨rfl, rfl⟩ := Prod.mk.inj (Option.some.inj hstep)
    refine ⟨t.moved i .outside, ?_, h.moved .outside (by rw [hi]; rfl) fun _ hb => by cases hb⟩
    simp only [follow, atomicStep, if_pos (h.pos_returning hi)]
  next => cases hstep
  next => cases hstep
  next b hi =>
    obtain ⟨hb, hp⟩ := h.pos_locking hi
    obtain ⟨rfl, hs'⟩ := h.locks hp hb hstep
    exact ⟨t, rfl, hs'⟩
  next b hi => exact h.inside hi hstep
  next d b hi =>
    obtain ⟨timeout, seen, rfl, hpos, -⟩ := h.pos_waiting hi
    have henters : (SemInside.testing timeout).Enters := trivial
    obtain ⟨rfl, hs'⟩ := h.locks (hpos ▸ .testing) henters hstep
    exact ⟨t, rfl, hs'⟩
  next => cases hstep

/-- **One step of any thread** is an event of the atomic semaphore, or none. -/
theorem step (h : Refines s t) {o : SemOp ι} {a : Option (SemEvent ι)}
    (hstep : semStep s o = some (a, s')) : ∃ t', follow t a = some t' ∧ Refines s' t' := by
  cases o with
  | call i call =>
      simp only [semStep, Option.ite_none_right_eq_some] at hstep
      obtain ⟨hi, heq⟩ := hstep
      obtain ⟨rfl, rfl⟩ := Prod.mk.inj (Option.some.inj heq)
      refine ⟨t.moved i (.pending call.plain none), ?_,
        h.moved .called (by rw [hi]; rfl) fun _ hb => by cases hb⟩
      simp only [follow, atomicStep, if_pos (h.pos_outside hi)]
  | run i => exact h.runThread hstep
  | signal i ws =>
      simp only [semStep, Option.ite_none_right_eq_some] at hstep
      obtain ⟨⟨hi, -⟩, heq⟩ := hstep
      obtain ⟨rfl, rfl⟩ := Prod.mk.inj (Option.some.inj heq)
      have hagrees := h.pos_locked hi
      generalize hpos : t.pos i = pos at hagrees
      cases hagrees with
      | signalling =>
          exact ⟨t, rfl, (h.woken ws).stays (hpos ▸ .locked .unlocking)
            (by rw [Monitor.isLocked_wake, hi]; rfl) fun _ hb => Place.locked.inj hb ▸ trivial⟩
  | wake i =>
      simp only [semStep, Option.ite_none_right_eq_some] at hstep
      obtain ⟨rfl, rfl⟩ := Prod.mk.inj (Option.some.inj hstep.2)
      exact ⟨t, rfl, h.woken {i}⟩
  | expire i =>
      simp only [semStep] at hstep
      split at hstep
      next d b woken hi =>
        simp only [Option.ite_none_right_eq_some] at hstep
        obtain ⟨hle, heq⟩ := hstep
        obtain ⟨rfl, rfl⟩ := Prod.mk.inj (Option.some.inj heq)
        obtain ⟨timeout, seen, rfl, hpos, hend⟩ := h.pos_waiting hi
        obtain ⟨hinf, hnanos⟩ := hend d rfl
        refine ⟨t.moved i (.done false), ?_,
          h.moved (.locking trivial .unlocking) (by rw [hi]; rfl) fun _ hb => by cases hb⟩
        have hdue : timeout ≠ kInfiniteTimeout ∧ seen + timeout.toNat * 1000000 ≤ t.clock :=
          ⟨hinf, by rw [h.clock]; exact Int.ofNat_le.1 (hnanos ▸ hle)⟩
        simp only [follow, atomicStep, hpos, if_pos hdue]
      next => cases hstep
  | cancel i =>
      simp only [semStep, Option.ite_none_right_eq_some] at hstep
      obtain ⟨hb, heq⟩ := hstep
      obtain ⟨rfl, rfl⟩ := Prod.mk.inj (Option.some.inj heq)
      obtain ⟨d, b, hi⟩ := Place.isBlocked_iff.1 hb
      obtain ⟨timeout, seen, rfl, hpos, -⟩ := h.pos_waiting hi
      exact ⟨t, rfl,
        h.stays (hpos ▸ .locking trivial .cleaning) (by rw [hi]; rfl) fun _ hb => by cases hb⟩
  | tick d =>
      obtain ⟨rfl, rfl⟩ := Prod.mk.inj (Option.some.inj hstep)
      exact ⟨{ t with clock := t.clock + d }, rfl, { h with clock := congrArg (· + d) h.clock }⟩

/-- The history so far is one of the atomic semaphore. -/
def Explains (t₀ : AtomicSem ι) (as : List (Option (SemEvent ι))) (s : SemCalls ι) : Prop :=
  ∃ t, replay t₀ as.reduceOption = some t ∧ Refines s t

/-- A run goes on explaining itself. -/
theorem explains_run {t₀ : AtomicSem ι} (h : Refines s t₀) {ops : List (SemOp ι)}
    {as : List (Option (SemEvent ι))} (hrun : run semStep ops s = some (as, s')) : Explains t₀ as s' := by
  refine @run_history_of_meets _ _ _ _ (Explains t₀) (fun _ _ => True) ?_ ops s s' [] as ⟨t₀, rfl, h⟩ hrun
    (.of_forall fun _ _ => trivial)
  rintro as s o a s' ⟨t, hreplay, ht⟩ - hstep
  obtain ⟨t', hfollow, ht'⟩ := ht.step hstep
  refine ⟨t', ?_, ht'⟩
  cases a with
  | none =>
      obtain rfl := Option.some.inj hfollow
      rwa [List.reduceOption_append, List.reduceOption_cons_of_none, List.reduceOption_nil,
        List.append_nil]
  | some e =>
      rw [List.reduceOption_append, List.reduceOption_cons_of_some, List.reduceOption_nil,
        replay_concat hreplay]
      exact hfollow

end Refines

/-- **The history of any run of the semaphore is one of the atomic semaphore**, which ends in the
corresponding state; and no two threads hold the mutex. -/
theorem semaphore_refines [DecidableEq ι] [Fintype ι] (initCount maxCount : UInt32) (lOk cOk : Bool)
    (clock : ℕ) {ops : List (SemOp ι)} {as : List (Option (SemEvent ι))} {s : SemCalls ι}
    (h : run semStep ops (SemCalls.construct ι initCount maxCount lOk cOk clock) = some (as, s)) :
    (∃ t, replay (AtomicSem.construct ι initCount.toNat maxCount.toNat (lOk && cOk) clock)
        as.reduceOption = some t ∧ Refines s t) ∧
      ∀ i j b b', s.monitor.place i = .locked b → s.monitor.place j = .locked b' → i = j := by
  obtain ⟨t, hreplay, ht⟩ := (Refines.construct ι initCount maxCount lOk cOk clock).explains_run h
  refine ⟨⟨t, hreplay, ht⟩, fun i j b b' hi hj => ?_⟩
  exact ht.exclusive.eq hj hi

/-- A thread waits at the count of 0, is unblocked by another one that gives, and takes. -/
def sampleSemOps : List (SemOp (Fin 2)) :=
  [.call 0 (.take kInfiniteTimeout), .run 0, .run 0, .run 0, .call 1 .give, .run 1, .run 1, .run 1,
    .run 1, .signal 1 {0}, .run 1, .run 0, .run 0, .run 0, .run 0, .run 0]

/-- What can be seen of the steps. -/
theorem run_sampleSemOps :
    (run semStep sampleSemOps (SemCalls.construct (Fin 2) 0 1 true true 0)).map Prod.fst =
      some [some (.called 0 (.take kInfiniteTimeout)), none, none, some (.found 0),
        some (.called 1 .give), none, none, none, some (.gave 1 true), none, none, none, none,
        some (.took 0), none,
        some (.returned 0 true)] := by
  decide +kernel

/-- Each call of the sample has its effect while it is made. -/
theorem semaphore_refines_sample : ∃ as s,
    run semStep sampleSemOps (SemCalls.construct (Fin 2) 0 1 true true 0) = some (as, s) ∧
      as.reduceOption = [.called 0 (.take kInfiniteTimeout), .found 0, .called 1 .give, .gave 1 true,
        .took 0, .returned 0 true] ∧
      ∃ t, replay (AtomicSem.construct (Fin 2) 0 1 true 0) as.reduceOption = some t ∧ Refines s t := by
  obtain ⟨⟨as, s⟩, h, rfl⟩ := Option.map_eq_some_iff.1 run_sampleSemOps
  exact ⟨_, s, h, rfl, (semaphore_refines 0 1 true true 0 h).1⟩

end CodePort
