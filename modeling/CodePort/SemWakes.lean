/-
No thread sleeps through a permit.

A thread that has been unblocked has not taken anything yet: another one may be faster, and then it is
blocked again.  What makes sure that nobody is forgotten is a balance: as long as some thread is blocked,
the count is at most the number of threads that are awake, which will look at the count or signal another
one.  So a thread that stays blocked when nobody can go on has found everything taken.

A time-out may use up a signal that is on its way to the same thread; then the balance is lost, and the
results here are about runs in which this does not happen.

Main definitions:

* `CodePort.SemOp.Consumes` — a time-out that uses up a signal;
* `CodePort.Attentive` — the balance;
* `CodePort.AtRest` — nobody can go on;
* `CodePort.stepsLeft` — how many steps a thread can still take.

Main results:

* `CodePort.Attentive.step` — every step keeps the balance;
* `CodePort.Refines.progress`, `stepsLeft_lt` — as long as somebody can go on, somebody does, and not for
  ever;
* `CodePort.semaphore_wakes` — **a thread stays blocked only if every permit has been taken**.
-/

import CodePort.SemRefines
import Mathlib.Algebra.Order.BigOperators.Group.Finset

set_option relaxedAutoImplicit false
set_option autoImplicit false

namespace CodePort

open Monitor StepSystem

variable {ι : Type*}

/-! ### The places of the threads -/

/-- A thread that will look at the count, or signal one that will. -/
def awake : SemPlace → ℕ
  | .locking (.testing _) => 1
  | .locked (.testing _) => 1
  | .locked .taking => 1
  | .locked .signalling => 1
  | .waiting _ _ true => 1
  | _ => 0

/-- A time-out that uses up a signal. -/
def SemOp.Consumes (s : SemCalls ι) : SemOp ι → Prop
  | .expire i => (s.monitor.place i).isWoken = true
  | _ => False

instance (s : SemCalls ι) (o : SemOp ι) : Decidable (o.Consumes s) := by
  cases o <;> unfold SemOp.Consumes <;> infer_instance

/-- How many steps a thread can still take with the mutex and after it; a thread that unblocks others
answers for their steps. -/
def stepsInside (n : ℕ) : SemInside → ℕ
  | .testing _ => 4
  | .taking => 3
  | .cleaning => 1
  | .comparing => 5 * n + 5
  | .counting => 5 * n + 4
  | .signalling => 5 * n + 3
  | .filling => 5 * n + 4
  | .broadcasting => 5 * n + 3
  | .unlocking _ => 2

/-- How many steps a thread can still take. -/
def stepsLeft (n : ℕ) : SemPlace → ℕ
  | .free .outside => 0
  | .free .cancelled => 0
  | .free (.returning _) => 1
  | .free (.called (.take _)) => 6
  | .free (.called .tryTake) => 7
  | .free (.called .give) => 5 * n + 8
  | .free (.called .giveAll) => 5 * n + 8
  | .free (.called .destroy) => 5 * n + 9
  | .locking b => stepsInside n b + 1
  | .locked b => stepsInside n b
  | .waiting _ _ true => 5
  | .waiting _ _ false => 0

theorem awake_wake {p : SemPlace} (h : p.isBlocked = true) : awake p.wake = awake p + 1 := by
  obtain ⟨d, b, rfl⟩ := Place.isBlocked_iff.1 h
  rfl

theorem awake_locking_le (b : SemInside) : awake (.locking b) ≤ awake (.locked b) := by
  cases b with
  | testing => exact le_rfl
  | _ => exact Nat.zero_le _

theorem stepsLeft_wake (n : ℕ) {p : SemPlace} (h : p.isBlocked = true) :
    stepsLeft n p.wake = stepsLeft n p + 5 := by
  obtain ⟨d, b, rfl⟩ := Place.isBlocked_iff.1 h
  rfl

theorem stepsLeft_le (n : ℕ) (p : SemPlace) : stepsLeft n p ≤ 5 * n + 9 := by
  have hinside : ∀ b, stepsInside n b + 1 ≤ 5 * n + 9 := by
    intro b
    cases b <;> simp only [stepsInside] <;> omega
  cases p with
  | free pos =>
      cases pos with
      | called call => cases call <;> simp only [stepsLeft] <;> omega
      | _ => simp only [stepsLeft]; omega
  | locking b => exact hinside b
  | locked b => exact (Nat.le_succ _).trans (hinside b)
  | waiting d b woken => cases woken <;> simp only [stepsLeft] <;> omega

/-- What a call does before it locks the mutex: it changes its place. -/
theorem check_place [DecidableEq ι] (s : SemCalls ι) (i : ι) (call : SemCall) :
    ∃ p, p.isBlocked = false ∧ (∀ n, stepsLeft n p < stepsLeft n (.free (.called call))) ∧
      (s.check i call).2.monitor.place = Function.update s.monitor.place i p ∧
      (s.check i call).2.count = s.count := by
  cases call with
  | destroy => exact ⟨.free (.called .giveAll), rfl, fun n => Nat.lt_succ_self _, rfl, rfl⟩
  | take timeout =>
      simp only [SemCalls.check]
      split_ifs
      · exact ⟨.locking (.testing timeout), rfl, fun n => Nat.lt_succ_self 5, rfl, rfl⟩
      · exact ⟨.free (.returning false), rfl, fun n => by simp [stepsLeft], rfl, rfl⟩
  | tryTake =>
      simp only [SemCalls.check]
      split_ifs
      · exact ⟨.free (.called (.take 0)), rfl, fun n => Nat.lt_succ_self 6, rfl, rfl⟩
      · exact ⟨.free (.returning false), rfl, fun n => by simp [stepsLeft], rfl, rfl⟩
  | give =>
      simp only [SemCalls.check]
      split_ifs
      · exact ⟨.locking .comparing, rfl, fun n => by simp [stepsLeft, stepsInside], rfl, rfl⟩
      · exact ⟨.free (.returning false), rfl, fun n => by simp [stepsLeft], rfl, rfl⟩
  | giveAll =>
      simp only [SemCalls.check]
      split_ifs
      · exact ⟨.locking .filling, rfl, fun n => by simp [stepsLeft, stepsInside], rfl, rfl⟩
      · exact ⟨.free (.returning false), rfl, fun n => by simp [stepsLeft], rfl, rfl⟩

/-! ### The balance -/

section Balance

variable [Fintype ι]

/-- **The balance**: as long as some thread is blocked, the count is at most the number of those that are
awake, unless all are about to be unblocked. -/
def Attentive (s : SemCalls ι) : Prop :=
  s.monitor.blocked.Nonempty →
    s.count.toNat ≤ s.monitor.total awake ∨ ∃ i, s.monitor.place i = .locked .broadcasting

/-- Before the first call nobody is blocked. -/
theorem Attentive.construct (initCount maxCount : UInt32) (lOk cOk : Bool) (clock : ℕ) :
    Attentive (SemCalls.construct ι initCount maxCount lOk cOk clock) := by
  rintro ⟨i, hi⟩
  cases mem_blocked.1 hi

variable [DecidableEq ι] {s s' : SemCalls ι} {t : AtomicSem ι} {i : ι} {p : SemPlace} {b : SemInside}

namespace Attentive

/-- One thread moves, and the count grows by what it is less awake at most. -/
theorem of_place (h : Attentive s) (hm : s'.monitor.place = Function.update s.monitor.place i p)
    (hp : p.isBlocked = false) (hi : s.monitor.place i ≠ .locked .broadcasting)
    (hcount : s'.count.toNat + awake (s.monitor.place i) ≤ s.count.toNat + awake p) : Attentive s' := by
  intro hblocked
  rcases h (hblocked.mono (blocked_subset hm hp)) with hle | ⟨j, hj⟩
  · have htotal := total_of_place (w := awake) hm
    exact .inl (by omega)
  · have hji : j ≠ i := by
      rintro rfl
      exact hi hj
    refine .inr ⟨j, ?_⟩
    rw [hm, Function.update_of_ne hji]
    exact hj

/-- A thread that is not awake moves. -/
theorem of_asleep (h : Attentive s) (hm : s'.monitor.place = Function.update s.monitor.place i p)
    (hp : p.isBlocked = false) (hi : s.monitor.place i ≠ .locked .broadcasting)
    (hawake : awake (s.monitor.place i) = 0) (hcount : s'.count = s.count) : Attentive s' :=
  h.of_place hm hp hi (by rw [hawake, hcount]; exact Nat.le_add_right _ _)

/-- Threads are unblocked. -/
theorem of_wake (h : Attentive s) {ws : Finset ι} (hws : ws ⊆ s.monitor.blocked)
    (hs : s'.monitor = s.monitor.wake ws) (hcount : s'.count = s.count) : Attentive s' := by
  intro hblocked
  rw [hs, blocked_wake] at hblocked
  rcases h (hblocked.mono Finset.sdiff_subset) with hle | ⟨j, hj⟩
  · have htotal := total_wake (w := awake) (c := 1) (fun _ => awake_wake) hws
    rw [hs, hcount, htotal]
    exact .inl (hle.trans (Nat.le_add_right _ _))
  · refine .inr ⟨j, ?_⟩
    rw [hs, place_wake_of_locked hj ws]

/-- A thread locks the mutex. -/
theorem locks (h : Attentive s) {a : Option (SemEvent ι)} (hstep : s.locks i b = some (a, s'))
    (hawake : awake (s.monitor.place i) ≤ awake (.locked b))
    (hi : s.monitor.place i ≠ .locked .broadcasting) : Attentive s' := by
  obtain ⟨m, hm, heq⟩ := Option.map_eq_some_iff.1 hstep
  obtain ⟨rfl, rfl⟩ := Prod.mk.inj heq
  exact h.of_place (place_lock hm) rfl hi (Nat.add_le_add_left hawake _)

/-- **A step of the owner of the mutex** keeps the balance. -/
theorem inside (h : Attentive s) (hr : Refines s t) (hi : s.monitor.place i = .locked b)
    {a : Option (SemEvent ι)} (hstep : s.inside i b = some (a, s')) : Attentive s' := by
  have hawake : awake (s.monitor.place i) = awake (.locked b) := by rw [hi]
  cases b with
  | testing timeout =>
      simp only [SemCalls.inside] at hstep
      split_ifs at hstep with hcount
      · obtain ⟨rfl, rfl⟩ := Prod.mk.inj (Option.some.inj hstep)
        -- it is blocked, and the count is 0
        refine fun _ => .inl ?_
        change s.count.toNat ≤ _
        rw [hcount]
        exact Nat.zero_le _
      · obtain ⟨rfl, rfl⟩ := Prod.mk.inj (Option.some.inj hstep)
        exact h.of_place rfl rfl (by rw [hi]; simp) (by rw [hawake]; rfl)
  | taking =>
      obtain ⟨rfl, rfl⟩ := Prod.mk.inj (Option.some.inj hstep)
      have hne : s.count ≠ 0 := hr.holds hi
      have hpos : 0 < s.count.toNat := Nat.pos_of_ne_zero fun h0 => hne (UInt32.toNat_inj.1 h0)
      refine h.of_place rfl rfl (by rw [hi]; simp) ?_
      have hle : (1 : UInt32) ≤ s.count := UInt32.le_iff_toNat_le.2 hpos
      change (s.count - 1).toNat + _ ≤ _
      rw [hawake, UInt32.toNat_sub_of_le _ _ hle]
      exact (Nat.sub_add_cancel hpos).le
  | cleaning =>
      obtain ⟨rfl, rfl⟩ := Prod.mk.inj (Option.some.inj hstep)
      exact h.of_asleep rfl rfl (by rw [hi]; simp) hawake rfl
  | comparing =>
      simp only [SemCalls.inside] at hstep
      split_ifs at hstep
      · obtain ⟨rfl, rfl⟩ := Prod.mk.inj (Option.some.inj hstep)
        exact h.of_asleep rfl rfl (by rw [hi]; simp) hawake rfl
      · obtain ⟨rfl, rfl⟩ := Prod.mk.inj (Option.some.inj hstep)
        exact h.of_asleep rfl rfl (by rw [hi]; simp) hawake rfl
  | counting =>
      obtain ⟨rfl, rfl⟩ := Prod.mk.inj (Option.some.inj hstep)
      refine h.of_place rfl rfl (by rw [hi]; simp) ?_
      change (s.count + 1).toNat + _ ≤ s.count.toNat + 1
      have hzero : awake (.locked .counting) = 0 := rfl
      rw [hawake, hzero, Nat.add_zero, UInt32.toNat_add]
      exact Nat.mod_le _ _
  | signalling => cases hstep
  | filling =>
      obtain ⟨rfl, rfl⟩ := Prod.mk.inj (Option.some.inj hstep)
      exact fun _ => .inr ⟨i, Function.update_self _ _ _⟩
  | broadcasting =>
      obtain ⟨rfl, rfl⟩ := Prod.mk.inj (Option.some.inj hstep)
      rintro ⟨j, hj⟩
      have hmem := blocked_subset (m := s.monitor.broadcast) rfl rfl hj
      rw [blocked_broadcast] at hmem
      exact absurd hmem (Finset.notMem_empty j)
  | unlocking rv =>
      obtain ⟨rfl, rfl⟩ := Prod.mk.inj (Option.some.inj hstep)
      exact h.of_asleep rfl rfl (by rw [hi]; simp) hawake rfl

/-- The next step of a thread keeps the balance. -/
theorem runThread (h : Attentive s) (hr : Refines s t) {a : Option (SemEvent ι)}
    (hstep : s.runThread i = some (a, s')) : Attentive s' := by
  rw [SemCalls.runThread] at hstep
  split at hstep
  next call hi =>
    obtain ⟨rfl, rfl⟩ := Prod.mk.inj (Option.some.inj hstep)
    obtain ⟨p, hp, -, hm, hcount⟩ := check_place s i call
    exact h.of_asleep hm hp (by rw [hi]; simp) (by rw [hi]; rfl) hcount
  next rv hi =>
    obtain ⟨rfl, rfl⟩ := Prod.mk.inj (Option.some.inj hstep)
    exact h.of_asleep rfl rfl (by rw [hi]; simp) (by rw [hi]; rfl) rfl
  next => cases hstep
  next => cases hstep
  next b hi => exact h.locks hstep (by rw [hi]; exact awake_locking_le b) (by rw [hi]; simp)
  next b hi => exact h.inside hr hi hstep
  next d b hi =>
    obtain ⟨timeout, seen, rfl, -, -⟩ := hr.pos_waiting hi
    exact h.locks hstep (by rw [hi]; exact le_rfl) (by rw [hi]; simp)
  next => cases hstep

/-- **Every step keeps the balance**, unless a time-out uses up a signal. -/
theorem step (h : Attentive s) (hr : Refines s t) {o : SemOp ι} {a : Option (SemEvent ι)}
    (ho : ¬ o.Consumes s) (hstep : semStep s o = some (a, s')) : Attentive s' := by
  cases o with
  | call i call =>
      simp only [semStep, Option.ite_none_right_eq_some] at hstep
      obtain ⟨hi, heq⟩ := hstep
      obtain ⟨rfl, rfl⟩ := Prod.mk.inj (Option.some.inj heq)
      exact h.of_asleep rfl rfl (by rw [hi]; simp) (by rw [hi]; rfl) rfl
  | run i => exact h.runThread hr hstep
  | signal i ws =>
      simp only [semStep, Option.ite_none_right_eq_some] at hstep
      obtain ⟨⟨hi, hsub, hsome⟩, heq⟩ := hstep
      obtain ⟨rfl, rfl⟩ := Prod.mk.inj (Option.some.inj heq)
      intro hblocked
      -- somebody is blocked, so the signal has unblocked somebody, who is awake in place of the thread
      have hrest := hblocked.mono (blocked_subset (m := s.monitor.wake ws) rfl rfl)
      rw [blocked_wake] at hrest
      have hnonempty := hrest.mono Finset.sdiff_subset
      have hcard := (hsome hnonempty).card_pos
      have hwake := total_wake (w := awake) (c := 1) (fun _ => awake_wake) hsub
      have hmove := total_move (w := awake) (s.monitor.wake ws) i (.locked (.unlocking true))
      rw [place_wake_of_locked hi ws] at hmove
      rcases h hnonempty with hle | ⟨j, hj⟩
      · refine .inl ?_
        have hsig : awake (.locked .signalling) = 1 := rfl
        have hunl : awake (.locked (.unlocking true)) = 0 := rfl
        change s.count.toNat ≤ ((s.monitor.wake ws).move i _).total awake
        omega
      · obtain rfl := hr.exclusive.eq hi hj
        exact absurd (hi.symm.trans hj) (by simp)
  | wake i =>
      simp only [semStep, Option.ite_none_right_eq_some] at hstep
      obtain ⟨rfl, rfl⟩ := Prod.mk.inj (Option.some.inj hstep.2)
      exact h.of_wake (Finset.singleton_subset_iff.2 (mem_blocked.2 hstep.1)) rfl rfl
  | expire i =>
      simp only [semStep] at hstep
      split at hstep
      next d b woken hi =>
        simp only [Option.ite_none_right_eq_some] at hstep
        obtain ⟨rfl, rfl⟩ := Prod.mk.inj (Option.some.inj hstep.2)
        have hwoken : woken = false := by
          rw [SemOp.Consumes, hi] at ho
          exact Bool.not_eq_true _ ▸ ho
        subst hwoken
        exact h.of_asleep rfl rfl (by rw [hi]; simp) (by rw [hi]; rfl) rfl
      next => cases hstep
  | cancel i =>
      simp only [semStep, Option.ite_none_right_eq_some] at hstep
      obtain ⟨hb, heq⟩ := hstep
      obtain ⟨rfl, rfl⟩ := Prod.mk.inj (Option.some.inj heq)
      obtain ⟨d, b, hi⟩ := Place.isBlocked_iff.1 hb
      exact h.of_asleep rfl rfl (by rw [hi]; simp) (by rw [hi]; rfl) rfl
  | tick d =>
      obtain ⟨rfl, rfl⟩ := Prod.mk.inj (Option.some.inj hstep)
      exact h

end Attentive

end Balance

/-! ### Going on -/

/-- A step that a thread takes by itself. -/
def SemOp.IsOwn : SemOp ι → Prop
  | .run _ => True
  | .signal _ _ => True
  | _ => False

/-- Nobody can go on: every thread is outside, cancelled or blocked. -/
def AtRest (s : SemCalls ι) : Prop :=
  ∀ i, s.monitor.place i = .free .outside ∨ s.monitor.place i = .free .cancelled ∨
    (s.monitor.place i).isBlocked = true

instance [Fintype ι] (s : SemCalls ι) : Decidable (AtRest s) :=
  inferInstanceAs (Decidable (∀ _, _ ∨ _ ∨ _))

/-- A thread does not use up a signal by itself. -/
theorem SemOp.IsOwn.not_consumes {o : SemOp ι} (h : o.IsOwn) (s : SemCalls ι) : ¬ o.Consumes s := by
  cases o with
  | expire i => exact h.elim
  | _ => exact id

section Progress

variable [DecidableEq ι] [Fintype ι] {s s' : SemCalls ι} {t : AtomicSem ι} {i : ι} {b : SemInside}

/-- At rest no thread takes a step by itself. -/
theorem AtRest.not_step (h : AtRest s) {o : SemOp ι} (ho : o.IsOwn)
    (r : Option (SemEvent ι) × SemCalls ι) : semStep s o ≠ some r := by
  cases o with
  | run i =>
      simp only [semStep, SemCalls.runThread]
      rcases h i with hi | hi | hi
      · rw [hi]
        exact (Option.some_ne_none r).symm
      · rw [hi]
        exact (Option.some_ne_none r).symm
      · obtain ⟨d, p, hi⟩ := Place.isBlocked_iff.1 hi
        rw [hi]
        exact (Option.some_ne_none r).symm
  | signal i ws =>
      have hplace : s.monitor.place i ≠ .locked .signalling := by
        intro hi
        have hrest := h i
        rw [hi] at hrest
        simp [Place.isBlocked] at hrest
      rw [semStep, if_neg fun hsig => hplace hsig.1]
      exact (Option.some_ne_none r).symm
  | _ => exact ho.elim

/-- The owner of the mutex can go on. -/
theorem exists_inside (hb : b ≠ .signalling) : ∃ r, s.inside i b = some r := by
  cases b with
  | signalling => exact absurd rfl hb
  | testing timeout =>
      simp only [SemCalls.inside]
      split_ifs <;> exact ⟨_, rfl⟩
  | comparing =>
      simp only [SemCalls.inside]
      split_ifs <;> exact ⟨_, rfl⟩
  | _ => exact ⟨_, rfl⟩

omit [Fintype ι] in
theorem exists_locks (h : s.monitor.owner = none) : ∃ r, s.locks i b = some r := by
  rw [SemCalls.locks, Monitor.lock, if_pos h]
  exact ⟨_, rfl⟩

/-- **As long as not everybody is outside or blocked, some thread can go on.** -/
theorem Refines.progress (h : Refines s t) (hs : ¬ AtRest s) :
    ∃ o a s', SemOp.IsOwn o ∧ semStep s o = some (a, s') := by
  cases hown : s.monitor.owner with
  | some i =>
      -- the owner of the mutex goes on
      obtain ⟨b, hi⟩ := Place.isLocked_iff.1 ((h.exclusive i).2 hown)
      by_cases hb : b = .signalling
      · subst hb
        exact ⟨.signal i s.monitor.blocked, _, _, trivial, if_pos ⟨hi, isSignal_blocked _⟩⟩
      · obtain ⟨⟨a, s'⟩, hr⟩ := exists_inside (s := s) (i := i) hb
        refine ⟨.run i, a, s', trivial, ?_⟩
        simp only [semStep, SemCalls.runThread, hi]
        exact hr
  | none =>
      rw [AtRest, not_forall] at hs
      obtain ⟨i, hi⟩ := hs
      obtain ⟨hout, hi⟩ := not_or.1 hi
      obtain ⟨hcancelled, hblocked⟩ := not_or.1 hi
      suffices hrun : ∃ r, s.runThread i = some r by
        obtain ⟨⟨a, s'⟩, hr⟩ := hrun
        exact ⟨.run i, a, s', trivial, hr⟩
      simp only [SemCalls.runThread]
      cases hp : s.monitor.place i with
      | free pos =>
          cases pos with
          | outside => exact absurd hp hout
          | cancelled => exact absurd hp hcancelled
          | called call => exact ⟨_, rfl⟩
          | returning rv => exact ⟨_, rfl⟩
      | locking b => exact exists_locks hown
      | locked b =>
          have hfalse := h.exclusive.isLocked_eq_false hown i
          rw [hp] at hfalse
          cases hfalse
      | waiting d b woken =>
          cases woken with
          | true => exact exists_locks hown
          | false => exact absurd (by rw [hp]; rfl) hblocked

/-- A thread that unblocks others has answered for their steps. -/
theorem wake_stepsLeft_lt {ws : Finset ι} (hws : ws ⊆ s.monitor.blocked)
    (hi : s.monitor.place i = .locked b)
    (hb : stepsInside (Fintype.card ι) b = 5 * Fintype.card ι + 3) :
    ((s.monitor.wake ws).move i (.locked (.unlocking true))).total (stepsLeft (Fintype.card ι)) <
      s.monitor.total (stepsLeft (Fintype.card ι)) := by
  have hwake := total_wake (c := 5) (fun _ => stepsLeft_wake (Fintype.card ι)) hws
  have hmove := total_move (w := stepsLeft (Fintype.card ι)) (s.monitor.wake ws) i
    (.locked (.unlocking true))
  rw [place_wake_of_locked hi ws] at hmove
  have hcard := Finset.card_le_univ ws
  have hlocked : stepsLeft (Fintype.card ι) (.locked b) = 5 * Fintype.card ι + 3 := hb
  have hunlocking : stepsLeft (Fintype.card ι) (.locked (.unlocking true)) = 2 := rfl
  omega

/-- A step of the owner of the mutex is one step less to take. -/
theorem inside_stepsLeft_lt (hi : s.monitor.place i = .locked b) {a : Option (SemEvent ι)}
    (hstep : s.inside i b = some (a, s')) :
    s'.monitor.total (stepsLeft (Fintype.card ι)) < s.monitor.total (stepsLeft (Fintype.card ι)) := by
  cases b with
  | testing timeout =>
      simp only [SemCalls.inside] at hstep
      split_ifs at hstep
      · obtain ⟨rfl, rfl⟩ := Prod.mk.inj (Option.some.inj hstep)
        exact total_lt rfl (by rw [hi]; exact Nat.succ_pos 3)
      · obtain ⟨rfl, rfl⟩ := Prod.mk.inj (Option.some.inj hstep)
        exact total_lt rfl (by rw [hi]; exact Nat.lt_succ_self 3)
  | comparing =>
      simp only [SemCalls.inside] at hstep
      split_ifs at hstep
      · obtain ⟨rfl, rfl⟩ := Prod.mk.inj (Option.some.inj hstep)
        exact total_lt rfl (by rw [hi]; exact Nat.lt_succ_self _)
      · obtain ⟨rfl, rfl⟩ := Prod.mk.inj (Option.some.inj hstep)
        exact total_lt rfl (by rw [hi]; simp [stepsLeft, stepsInside])
  | signalling => cases hstep
  | broadcasting =>
      obtain ⟨rfl, rfl⟩ := Prod.mk.inj (Option.some.inj hstep)
      exact wake_stepsLeft_lt subset_rfl hi rfl
  | _ =>
      obtain ⟨rfl, rfl⟩ := Prod.mk.inj (Option.some.inj hstep)
      exact total_lt rfl (by rw [hi]; exact Nat.lt_succ_self _)

/-- **A step that a thread takes by itself is one step less to take.** -/
theorem Refines.stepsLeft_lt (h : Refines s t) {o : SemOp ι} (ho : o.IsOwn) {a : Option (SemEvent ι)}
    (hstep : semStep s o = some (a, s')) :
    s'.monitor.total (stepsLeft (Fintype.card ι)) < s.monitor.total (stepsLeft (Fintype.card ι)) := by
  cases o with
  | run i =>
      simp only [semStep, SemCalls.runThread] at hstep
      split at hstep
      next call hi =>
        obtain ⟨rfl, rfl⟩ := Prod.mk.inj (Option.some.inj hstep)
        obtain ⟨p, -, hlt, hm, -⟩ := check_place s i call
        exact total_lt hm (by rw [hi]; exact hlt _)
      next rv hi =>
        obtain ⟨rfl, rfl⟩ := Prod.mk.inj (Option.some.inj hstep)
        exact total_lt rfl (by rw [hi]; exact Nat.one_pos)
      next => cases hstep
      next => cases hstep
      next b hi =>
        obtain ⟨m, hm, heq⟩ := Option.map_eq_some_iff.1 hstep
        obtain ⟨rfl, rfl⟩ := Prod.mk.inj heq
        exact total_lt (place_lock hm) (by rw [hi]; exact Nat.lt_succ_self _)
      next b hi => exact inside_stepsLeft_lt hi hstep
      next d b hi =>
        obtain ⟨timeout, seen, rfl, -, -⟩ := h.pos_waiting hi
        obtain ⟨m, hm, heq⟩ := Option.map_eq_some_iff.1 hstep
        obtain ⟨rfl, rfl⟩ := Prod.mk.inj heq
        exact total_lt (place_lock hm) (by rw [hi]; exact Nat.lt_succ_self 4)
      next => cases hstep
  | signal i ws =>
      simp only [semStep, Option.ite_none_right_eq_some] at hstep
      obtain ⟨⟨hi, hsub, -⟩, heq⟩ := hstep
      obtain ⟨rfl, rfl⟩ := Prod.mk.inj (Option.some.inj heq)
      exact wake_stepsLeft_lt hsub hi rfl
  | _ => exact ho.elim

omit [DecidableEq ι] in
/-- There is a bound for what is left to do. -/
theorem total_stepsLeft_le (m : Monitor ι SemPos SemInside (Option Timespec)) :
    m.total (stepsLeft (Fintype.card ι)) ≤ Fintype.card ι * (5 * Fintype.card ι + 9) :=
  Finset.sum_le_card_nsmul _ _ _ fun i _ => stepsLeft_le _ (m.place i)

omit [DecidableEq ι] in
/-- Who is outside or blocked is not awake. -/
theorem AtRest.count_eq_zero (hs : AtRest s) (h : Attentive s) (hblocked : s.monitor.blocked.Nonempty) :
    s.count = 0 := by
  rcases h hblocked with hle | ⟨i, hi⟩
  · have htotal : s.monitor.total awake = 0 := Finset.sum_eq_zero fun i _ => by
      rcases hs i with hi | hi | hi
      · rw [hi]
        rfl
      · rw [hi]
        rfl
      · obtain ⟨d, b, hi⟩ := Place.isBlocked_iff.1 hi
        rw [hi]
        rfl
    exact UInt32.toNat_inj.1 (Nat.le_zero.1 (htotal ▸ hle))
  · rcases hs i with hi' | hi' | hi' <;> rw [hi] at hi' <;> cases hi'

end Progress

/-! ### The result -/

/-- **A thread stays blocked only if every permit has been taken.**  After any run in which no time-out
uses up a signal, the threads that are not blocked can only take so many steps; and when none of them can
go on, every thread is outside, cancelled or blocked, and if one is blocked, the count is 0, so that as
many permits have been taken as there were and have been given. -/
theorem semaphore_wakes [DecidableEq ι] [Fintype ι] (initCount maxCount : UInt32) (lOk cOk : Bool)
    (clock : ℕ) {ops ops' : List (SemOp ι)} {as as' : List (Option (SemEvent ι))} {s s' : SemCalls ι}
    (h : run semStep ops (SemCalls.construct ι initCount maxCount lOk cOk clock) = some (as, s))
    (hsignals : Meets semStep (fun s o => ¬ o.Consumes s) ops
      (SemCalls.construct ι initCount maxCount lOk cOk clock))
    (hown : ∀ o ∈ ops', SemOp.IsOwn o) (h' : run semStep ops' s = some (as', s')) :
    ops'.length ≤ Fintype.card ι * (5 * Fintype.card ι + 9) ∧
      ((∀ o a s'', SemOp.IsOwn o → semStep s' o ≠ some (a, s'')) →
        AtRest s' ∧ (s'.monitor.blocked.Nonempty → s'.count = 0 ∧
          ((∀ e ∈ (as ++ as').reduceOption, e.isGaveAll = false) →
            (as ++ as').reduceOption.countP SemEvent.isTook =
              (SemLite.construct initCount.toNat maxCount.toNat).count +
                (as ++ as').reduceOption.countP SemEvent.isGave))) := by
  have hstart := Refines.construct ι initCount maxCount lOk cOk clock
  obtain ⟨hs, t, hr⟩ : Attentive s ∧ ∃ t, Refines s t :=
    run_invariant_of_meets (I := fun s => Attentive s ∧ ∃ t, Refines s t)
      (fun ⟨hatt, t, hr⟩ ho hstep => ⟨hatt.step hr ho hstep, (hr.step hstep).imp fun _ => And.right⟩)
      ⟨.construct _ _ _ _ _, _, hstart⟩ h hsignals
  obtain ⟨⟨hs', t', hr'⟩, hlength⟩ := run_length_le (I := fun s => Attentive s ∧ ∃ t, Refines s t)
    (fun ho ⟨hatt, t, hr⟩ hstep => ⟨⟨hatt.step hr (ho.not_consumes _) hstep,
      (hr.step hstep).imp fun _ => And.right⟩, hr.stepsLeft_lt ho hstep⟩) hown ⟨hs, t, hr⟩ h'
  refine ⟨(Nat.le_of_add_right_le hlength).trans (total_stepsLeft_le _), fun hstuck => ?_⟩
  have hrest : AtRest s' := by
    by_contra hne
    obtain ⟨o, a, s'', ho, hstep⟩ := hr'.progress hne
    exact hstuck o a s'' ho hstep
  refine ⟨hrest, fun hblocked => ?_⟩
  have hzero := hrest.count_eq_zero hs' hblocked
  refine ⟨hzero, fun hnot => ?_⟩
  obtain ⟨u, hreplay, hu⟩ := hstart.explains_run (run_append h h')
  have hpermits := replay_permits hreplay hnot
  rw [hu.count, hzero] at hpermits
  exact (Nat.zero_add _).symm.trans hpermits

/-- Two threads wait at the count of 0, and a third one gives once: its signal unblocks both. -/
def sampleGiveOps : List (SemOp (Fin 3)) :=
  [.call 0 (.take kInfiniteTimeout), .run 0, .run 0, .run 0, .call 1 (.take kInfiniteTimeout), .run 1,
    .run 1, .run 1, .call 2 .give]

/-- The threads go on until none of them can. -/
def sampleOwnOps : List (SemOp (Fin 3)) :=
  [.run 2, .run 2, .run 2, .run 2, .signal 2 {0, 1}, .run 2, .run 2, .run 0, .run 0, .run 0, .run 0,
    .run 0, .run 1, .run 1]

theorem own_sampleOwnOps : ∀ o ∈ sampleOwnOps, SemOp.IsOwn o := by
  simp [sampleOwnOps, SemOp.IsOwn]

/-- What can be seen of the two parts of the run, and that the second thread ends blocked. -/
theorem run_sampleGiveOps :
    ((run semStep sampleGiveOps (SemCalls.construct (Fin 3) 0 2 true true 0)).bind fun r =>
      (run semStep sampleOwnOps r.2).map fun r' =>
        ((r.1 ++ r'.1).reduceOption, r'.2.monitor.blocked, decide (AtRest r'.2))) =
      some ([.called 0 (.take kInfiniteTimeout), .found 0, .called 1 (.take kInfiniteTimeout), .found 1,
        .called 2 .give, .gave 2 true, .returned 2 true, .took 0, .returned 0 true, .found 1], {1},
        true) := by
  decide +kernel

/-- In the end nobody can go on: the thread that stays blocked has found the one permit taken. -/
theorem semaphore_wakes_sample : ∃ as s as' s',
    run semStep sampleGiveOps (SemCalls.construct (Fin 3) 0 2 true true 0) = some (as, s) ∧
      run semStep sampleOwnOps s = some (as', s') ∧ s'.monitor.blocked = {1} ∧
      sampleOwnOps.length ≤ 3 * (5 * 3 + 9) ∧ AtRest s' ∧ s'.count = 0 ∧
      (as ++ as').reduceOption.countP SemEvent.isTook =
        0 + (as ++ as').reduceOption.countP SemEvent.isGave := by
  obtain ⟨⟨as, s⟩, h, hrest⟩ := Option.bind_eq_some_iff.1 run_sampleGiveOps
  obtain ⟨⟨as', s'⟩, h', heq⟩ := Option.map_eq_some_iff.1 hrest
  obtain ⟨hseen, heq⟩ := Prod.mk.inj heq
  obtain ⟨hblocked, hatRest⟩ := Prod.mk.inj heq
  have hrest : AtRest s' := of_decide_eq_true hatRest
  obtain ⟨hlength, hstuck⟩ := semaphore_wakes 0 2 true true 0 h (by decide +kernel) own_sampleOwnOps h'
  obtain ⟨-, hstays⟩ := hstuck fun o a s'' ho => hrest.not_step ho (a, s'')
  obtain ⟨hzero, hpermits⟩ := hstays (hblocked ▸ Finset.singleton_nonempty 1)
  refine ⟨as, s, as', s', h, h', hblocked, hlength, hrest, hzero, hpermits ?_⟩
  rw [hseen]
  decide

end CodePort
