/-
What the destructor of the semaphore releases.

The destructor disables `Take` and calls `GiveAll`, to release anyone blocked on the semaphore before it
destroys the mutex and the condition variable.  `GiveAll` unblocks every thread, but it gives no more
permits than the maximum: the threads that were inside `Take` share them, and who finds none is blocked
again, with nobody left to signal.

Main definitions:

* `CodePort.contends` — a thread inside `Take` that has been let in and has not given up;
* `CodePort.Releasing` — what holds from the moment at which the destructor fills the count.

Main results:

* `CodePort.Releasing.step` — every step keeps it, as long as nobody else gives;
* `CodePort.destroy_releases` — **the threads that stay blocked are those that exceed the maximum**.
-/

import CodePort.SemWakes
import Mathlib.Tactic.FinCases

set_option relaxedAutoImplicit false
set_option autoImplicit false

namespace CodePort

open Monitor StepSystem

variable {ι : Type*}

/-! ### The threads inside `Take` -/

/-- A thread inside `Take` that has been let in and has not given up. -/
def contends : SemPlace → ℕ
  | .locking (.testing _) => 1
  | .locked (.testing _) => 1
  | .locked .taking => 1
  | .waiting _ _ _ => 1
  | _ => 0

/-- The points of `Take`. -/
def SemInside.IsTake : SemInside → Prop
  | .testing _ => True
  | .taking => True
  | .cleaning => True
  | .unlocking _ => True
  | _ => False

/-- A thread that is in no call, in a call of `Take`, or about to return. -/
def IsTaker : SemPlace → Prop
  | .free (.called (.take _)) => True
  | .free (.called .tryTake) => True
  | .free (.called _) => False
  | .free _ => True
  | .locking b => b.IsTake
  | .locked b => b.IsTake
  | .waiting _ b _ => b.IsTake

/-- Nobody calls anything but `Take`. -/
def SemOp.IsPassive : SemOp ι → Prop
  | .call _ (.take _) => True
  | .call _ .tryTake => True
  | .call _ _ => False
  | _ => True

/-- A thread gives up waiting. -/
def SemOp.GivesUp : SemOp ι → Prop
  | .expire _ => True
  | .cancel _ => True
  | _ => False

theorem IsTaker.wake {p : SemPlace} (h : IsTaker p) : IsTaker p.wake := by
  cases p <;> exact h

theorem contends_wake {p : SemPlace} (h : p.isBlocked = true) : contends p.wake = contends p + 0 := by
  obtain ⟨d, b, rfl⟩ := Place.isBlocked_iff.1 h
  rfl

theorem IsTaker.update [DecidableEq ι] {f : ι → SemPlace} {i j : ι} {p : SemPlace} (h : IsTaker (f j))
    (hp : IsTaker p) : IsTaker (Function.update f i p j) := by
  by_cases hji : j = i
  · subst hji
    rw [Function.update_self]
    exact hp
  · rw [Function.update_of_ne hji]
    exact h

/-- A number that is not more than another one, and is that one as long as nobody gives up. -/
def Owes (quiet : Prop) (n k : ℕ) : Prop := n ≤ k ∧ (quiet → n = k)

namespace Owes

variable {quiet : Prop} {n k n' k' : ℕ}

/-- Numbers that differ by as much are in the same relation. -/
theorem of_add (h : Owes quiet n k) (heq : n' + k = n + k') : Owes quiet n' k' := by
  obtain ⟨hle, hquiet⟩ := h
  exact ⟨by omega, fun hq => by have := hquiet hq; omega⟩

theorem trans (h : Owes quiet n k) (h' : Owes quiet k k') : Owes quiet n k' :=
  ⟨h.1.trans h'.1, fun hq => (h.2 hq).trans (h'.2 hq)⟩

theorem add_right (h : Owes quiet n k) (c : ℕ) : Owes quiet (n + c) (k + c) :=
  h.of_add (by omega)

end Owes

section Releasing

variable [Fintype ι]

/-- What holds from the moment at which the destructor fills the count: `Take` is disabled, nobody but the
thread `d` of the destructor gives, and after the broadcast those who contend and the permits that have
been taken make up the `k` threads that were inside, so a thread that is blocked has found none left. -/
structure Releasing (quiet : Prop) (d : ι) (k : ℕ) (s : SemCalls ι) : Prop where
  disabled : s.enabled = false
  takers : ∀ i, i ≠ d → IsTaker (s.monitor.place i)
  phase : (s.monitor.place d = .locked .filling ∧ Owes quiet (s.monitor.total contends) k) ∨
    ((s.monitor.place d = .locked .broadcasting ∧ s.count = s.maxCount ∨
        IsTaker (s.monitor.place d) ∧ (s.monitor.blocked.Nonempty → s.count = 0)) ∧
      Owes quiet (s.monitor.total contends + s.maxCount.toNat) (k + s.count.toNat))

namespace Releasing

variable [DecidableEq ι] {quiet : Prop} {d i : ι} {k : ℕ} {s s' : SemCalls ι} {t : AtomicSem ι}
  {p : SemPlace} {b : SemInside}

/-- A step of a thread in `Take` that leaves the count as it is. -/
theorem of_place (h : Releasing quiet d k s) (hi : IsTaker (s.monitor.place i)) (hp : IsTaker p)
    (hm : s'.monitor.place = Function.update s.monitor.place i p) (henabled : s'.enabled = s.enabled)
    (hmax : s'.maxCount = s.maxCount) (hcount : s'.count = s.count)
    (hw : Owes quiet (contends p) (contends (s.monitor.place i)))
    (hblocked : p.isBlocked = true → s.count = 0) : Releasing quiet d k s' := by
  have htotal : Owes quiet (s'.monitor.total contends) (s.monitor.total contends) :=
    hw.of_add ((total_of_place hm).trans (Nat.add_comm _ _))
  -- the thread that moves is not the one that owns the mutex in `GiveAll`
  have hstays : ∀ {b : SemInside}, s.monitor.place d = .locked b → ¬ b.IsTake →
      s'.monitor.place d = .locked b := by
    intro b hd hb
    have hne : d ≠ i := by
      rintro rfl
      rw [hd] at hi
      exact hb hi
    rw [hm, Function.update_of_ne hne, hd]
  refine ⟨henabled.trans h.disabled, fun j hj => ?_, ?_⟩
  · rw [hm]
    exact (h.takers j hj).update hp
  · rw [hcount, hmax]
    rcases h.phase with ⟨hd, hk⟩ | ⟨⟨hd, hfull⟩ | ⟨hd, hnone⟩, hk⟩
    · exact .inl ⟨hstays hd id, htotal.trans hk⟩
    · exact .inr ⟨.inl ⟨hstays hd id, hfull⟩, (htotal.add_right _).trans hk⟩
    · refine .inr ⟨.inr ⟨?_, fun hsome => ?_⟩, (htotal.add_right _).trans hk⟩
      · rw [hm]
        exact hd.update hp
      · cases hb : p.isBlocked with
        | true => exact hblocked hb
        | false => exact hnone (hsome.mono (blocked_subset hm hb))

/-- A thread takes a permit. -/
theorem taken (h : Releasing quiet d k s) (hr : Refines s t) (hi : s.monitor.place i = .locked .taking) :
    Releasing quiet d k { s.moved i (.locked (.unlocking true)) with count := s.count - 1 } := by
  have hne : s.count ≠ 0 := hr.holds hi
  have hpos : 0 < s.count.toNat := Nat.pos_of_ne_zero fun h0 => hne (UInt32.toNat_inj.1 h0)
  have hsub : (s.count - 1).toNat = s.count.toNat - 1 :=
    UInt32.toNat_sub_of_le _ _ (UInt32.le_iff_toNat_le.2 hpos)
  have htotal := total_move (w := contends) s.monitor i (.locked (.unlocking true))
  have hold : contends (s.monitor.place i) = 1 := by rw [hi]; rfl
  have hnew : contends (.locked (.unlocking true)) = 0 := rfl
  refine ⟨h.disabled, fun j hj => (h.takers j hj).update trivial, ?_⟩
  · -- the thread that takes owns the mutex, so the destructor has done with it
    rcases h.phase with ⟨hd, -⟩ | ⟨⟨hd, -⟩ | ⟨hd, hnone⟩, hk⟩
    · obtain rfl := hr.exclusive.eq hi hd
      exact absurd (hi.symm.trans hd) (by simp)
    · obtain rfl := hr.exclusive.eq hi hd
      exact absurd (hi.symm.trans hd) (by simp)
    · refine .inr ⟨.inr ⟨hd.update trivial, fun hsome => ?_⟩, ?_⟩
      · exact absurd (hnone (hsome.mono (blocked_subset (m := s.monitor) rfl rfl))) hne
      · change Owes quiet ((s.monitor.move i _).total contends + s.maxCount.toNat)
          (k + (s.count - 1).toNat)
        rw [hsub]
        exact hk.of_add (by omega)

/-- Threads are unblocked. -/
theorem woken (h : Releasing quiet d k s) {ws : Finset ι} (hws : ws ⊆ s.monitor.blocked) :
    Releasing quiet d k { s with monitor := s.monitor.wake ws } := by
  have htotal : (s.monitor.wake ws).total contends = s.monitor.total contends := by
    rw [total_wake (c := 0) (fun _ => contends_wake) hws, Nat.mul_zero, Nat.add_zero]
  have htaker : ∀ j, IsTaker (s.monitor.place j) → IsTaker ((s.monitor.wake ws).place j) := by
    intro j hj
    simp only [Monitor.wake]
    split_ifs
    · exact hj.wake
    · exact hj
  refine ⟨h.disabled, fun j hj => htaker j (h.takers j hj), ?_⟩
  simp only [htotal]
  rcases h.phase with ⟨hd, hk⟩ | ⟨⟨hd, hfull⟩ | ⟨hd, hnone⟩, hk⟩
  · exact .inl ⟨place_wake_of_locked hd ws, hk⟩
  · exact .inr ⟨.inl ⟨place_wake_of_locked hd ws, hfull⟩, hk⟩
  · refine .inr ⟨.inr ⟨htaker d hd, fun hsome => ?_⟩, hk⟩
    rw [blocked_wake] at hsome
    exact hnone (hsome.mono Finset.sdiff_subset)

/-- A thread in `Take` moves, and contends as before. -/
theorem moves (h : Releasing quiet d k s) (hi : IsTaker (s.monitor.place i)) (hp : IsTaker p)
    (hm : s'.monitor.place = Function.update s.monitor.place i p) (henabled : s'.enabled = s.enabled)
    (hmax : s'.maxCount = s.maxCount) (hcount : s'.count = s.count)
    (hw : contends p = contends (s.monitor.place i)) (hblocked : p.isBlocked = true → s.count = 0) :
    Releasing quiet d k s' :=
  h.of_place hi hp hm henabled hmax hcount ⟨hw.le, fun _ => hw⟩ hblocked

/-- What a call does before it locks the mutex: `Take` is refused. -/
theorem check (h : Releasing quiet d k s) {call : SemCall}
    (hi : s.monitor.place i = .free (.called call)) : Releasing quiet d k (s.check i call).2 := by
  by_cases htaker : IsTaker (s.monitor.place i)
  · have hzero : contends (s.monitor.place i) = 0 := by rw [hi]; rfl
    cases call with
    | take timeout =>
        have hno : ¬ (s.valid = true ∧ s.enabled = true) := by simp [h.disabled]
        simp only [SemCalls.check, if_neg hno]
        exact h.moves (p := .free (.returning false)) htaker trivial rfl rfl rfl rfl hzero.symm
          (by simp [Place.isBlocked])
    | tryTake =>
        simp only [SemCalls.check]
        split_ifs
        · exact h.moves (p := .free (.called (.take 0))) htaker trivial rfl rfl rfl rfl hzero.symm
            (by simp [Place.isBlocked])
        · exact h.moves (p := .free (.returning false)) htaker trivial rfl rfl rfl rfl hzero.symm
            (by simp [Place.isBlocked])
    | give => rw [hi] at htaker; exact htaker.elim
    | giveAll => rw [hi] at htaker; exact htaker.elim
    | destroy => rw [hi] at htaker; exact htaker.elim
  · -- only the destructor is in another call, and it holds the mutex
    by_cases hid : i = d
    · subst hid
      rcases h.phase with ⟨hd, -⟩ | ⟨⟨hd, -⟩ | ⟨hd, -⟩, -⟩
      · exact absurd (hi.symm.trans hd) (by simp)
      · exact absurd (hi.symm.trans hd) (by simp)
      · exact absurd hd htaker
    · exact absurd (h.takers i hid) htaker

/-- A thread in `Take` locks the mutex. -/
theorem locks (h : Releasing quiet d k s) {a : Option (SemEvent ι)}
    (hstep : s.locks i b = some (a, s')) (hi : IsTaker (s.monitor.place i)) (hb : b.IsTake)
    (hw : contends (.locked b) = contends (s.monitor.place i)) : Releasing quiet d k s' := by
  obtain ⟨m, hm, heq⟩ := Option.map_eq_some_iff.1 hstep
  obtain ⟨rfl, rfl⟩ := Prod.mk.inj heq
  exact h.moves (p := .locked b) hi hb (place_lock hm) rfl rfl rfl hw (by simp [Place.isBlocked])

/-- The destructor is the one thread that is not in `Take`. -/
theorem cases_taker (h : Releasing quiet d k s) (i : ι) :
    IsTaker (s.monitor.place i) ∨
      i = d ∧ (s.monitor.place i = .locked .filling ∨ s.monitor.place i = .locked .broadcasting) := by
  by_cases hid : i = d
  · subst hid
    rcases h.phase with ⟨hd, -⟩ | ⟨⟨hd, -⟩ | ⟨hd, -⟩, -⟩
    · exact .inr ⟨rfl, .inl hd⟩
    · exact .inr ⟨rfl, .inr hd⟩
    · exact .inl hd
  · exact .inl (h.takers i hid)

/-- The destructor fills the count. -/
theorem filled (h : Releasing quiet d k s) (hd : s.monitor.place d = .locked .filling) :
    Releasing quiet d k { s.moved d (.locked .broadcasting) with count := s.maxCount } := by
  have htotal := total_move (w := contends) s.monitor d (.locked .broadcasting)
  have hold : contends (s.monitor.place d) = 0 := by rw [hd]; rfl
  have hnew : contends (.locked .broadcasting) = 0 := rfl
  refine ⟨h.disabled, fun j hj => ?_, .inr ⟨.inl ⟨Function.update_self _ _ _, rfl⟩, ?_⟩⟩
  · change IsTaker (Function.update s.monitor.place d _ j)
    rw [Function.update_of_ne hj]
    exact h.takers j hj
  · rcases h.phase with ⟨-, hk⟩ | ⟨⟨hd', -⟩ | ⟨hd', -⟩, -⟩
    · change Owes quiet ((s.monitor.move d _).total contends + s.maxCount.toNat) (k + s.maxCount.toNat)
      exact hk.of_add (by omega)
    · exact absurd (hd.symm.trans hd') (by simp)
    · rw [hd] at hd'
      exact hd'.elim

/-- The destructor unblocks everybody. -/
theorem broadcast (h : Releasing quiet d k s) (hd : s.monitor.place d = .locked .broadcasting) :
    Releasing quiet d k
      { s with monitor := s.monitor.broadcast.move d (.locked (.unlocking true)) } := by
  have hwoken : Releasing quiet d k { s with monitor := s.monitor.broadcast } := h.woken subset_rfl
  have hplace : s.monitor.broadcast.place d = .locked .broadcasting := place_wake_of_locked hd _
  have htotal := total_move (w := contends) s.monitor.broadcast d (.locked (.unlocking true))
  have hold : contends (s.monitor.broadcast.place d) = 0 := by rw [hplace]; rfl
  have hnew : contends (.locked (.unlocking true)) = 0 := rfl
  refine ⟨h.disabled, fun j hj => (hwoken.takers j hj).update trivial,
    .inr ⟨.inr ⟨?_, fun hsome => ?_⟩, ?_⟩⟩
  · change IsTaker (Function.update s.monitor.broadcast.place d _ d)
    rw [Function.update_self]
    trivial
  · have hnone := hsome.mono (blocked_subset (m := s.monitor.broadcast) rfl rfl)
    rw [blocked_broadcast] at hnone
    exact absurd hnone Finset.not_nonempty_empty
  · rcases hwoken.phase with ⟨hd', -⟩ | ⟨-, hk⟩
    · exact absurd (hplace.symm.trans hd') (by simp)
    · change Owes quiet ((s.monitor.broadcast.move d _).total contends + s.maxCount.toNat)
        (k + s.count.toNat)
      have hk' : Owes quiet (s.monitor.broadcast.total contends + s.maxCount.toNat)
          (k + s.count.toNat) := hk
      exact hk'.of_add (by omega)

/-- **A step of the owner of the mutex.** -/
theorem inside (h : Releasing quiet d k s) (hr : Refines s t) (hi : s.monitor.place i = .locked b)
    {a : Option (SemEvent ι)} (hstep : s.inside i b = some (a, s')) : Releasing quiet d k s' := by
  have hw : contends (s.monitor.place i) = contends (.locked b) := by rw [hi]
  rcases h.cases_taker i with htaker | ⟨rfl, hd | hd⟩
  · have hb : b.IsTake := by rwa [hi] at htaker
    cases b with
    | testing timeout =>
        simp only [SemCalls.inside] at hstep
        split_ifs at hstep with hcount
        · obtain ⟨rfl, rfl⟩ := Prod.mk.inj (Option.some.inj hstep)
          exact h.moves (p := .waiting (s.waitEnd timeout) (.testing timeout) false) htaker trivial rfl
            rfl rfl rfl hw.symm fun _ => hcount
        · obtain ⟨rfl, rfl⟩ := Prod.mk.inj (Option.some.inj hstep)
          exact h.moves (p := .locked .taking) htaker trivial rfl rfl rfl rfl hw.symm
            (by simp [Place.isBlocked])
    | taking =>
        obtain ⟨rfl, rfl⟩ := Prod.mk.inj (Option.some.inj hstep)
        exact h.taken hr hi
    | cleaning =>
        obtain ⟨rfl, rfl⟩ := Prod.mk.inj (Option.some.inj hstep)
        exact h.moves (p := .free .cancelled) htaker trivial rfl rfl rfl rfl hw.symm
          (by simp [Place.isBlocked])
    | unlocking rv =>
        obtain ⟨rfl, rfl⟩ := Prod.mk.inj (Option.some.inj hstep)
        exact h.moves (p := .free (.returning rv)) htaker trivial rfl rfl rfl rfl hw.symm
          (by simp [Place.isBlocked])
    | _ => exact hb.elim
  · obtain rfl := Place.locked.inj (hi.symm.trans hd)
    obtain ⟨rfl, rfl⟩ := Prod.mk.inj (Option.some.inj hstep)
    exact h.filled hd
  · obtain rfl := Place.locked.inj (hi.symm.trans hd)
    obtain ⟨rfl, rfl⟩ := Prod.mk.inj (Option.some.inj hstep)
    exact h.broadcast hd

/-- The next step of a thread. -/
theorem runThread (h : Releasing quiet d k s) (hr : Refines s t) {a : Option (SemEvent ι)}
    (hstep : s.runThread i = some (a, s')) : Releasing quiet d k s' := by
  have htaker : ∀ {p}, s.monitor.place i = p → p.isLocked = false → IsTaker p := by
    rintro p hp hfree
    rcases h.cases_taker i with htaker | ⟨-, hd | hd⟩
    · rwa [hp] at htaker
    · rw [← hp, hd] at hfree
      cases hfree
    · rw [← hp, hd] at hfree
      cases hfree
  rw [SemCalls.runThread] at hstep
  split at hstep
  next call hi =>
    obtain ⟨rfl, rfl⟩ := Prod.mk.inj (Option.some.inj hstep)
    exact h.check hi
  next rv hi =>
    obtain ⟨rfl, rfl⟩ := Prod.mk.inj (Option.some.inj hstep)
    exact h.moves (p := .free .outside) (hi ▸ htaker hi rfl) trivial rfl rfl rfl rfl (by rw [hi]; rfl)
      (by simp [Place.isBlocked])
  next => cases hstep
  next => cases hstep
  next b hi =>
    have hb := htaker hi rfl
    have henters := (hr.pos_locking hi).1
    refine h.locks hstep (hi ▸ hb) hb ?_
    rw [hi]
    cases b with
    | taking => exact henters.elim
    | _ => rfl
  next b hi => exact h.inside hr hi hstep
  next w b hi =>
    obtain ⟨timeout, seen, rfl, -, -⟩ := hr.pos_waiting hi
    exact h.locks hstep (hi ▸ htaker hi rfl) trivial (by rw [hi]; rfl)
  next => cases hstep

/-- **Every step keeps it**, as long as nobody else gives. -/
theorem step (h : Releasing quiet d k s) (hr : Refines s t) {o : SemOp ι} {a : Option (SemEvent ι)}
    (ho : o.IsPassive) (hquiet : quiet → ¬ o.GivesUp) (hstep : semStep s o = some (a, s')) :
    Releasing quiet d k s' := by
  have hlost : o.GivesUp → ¬ quiet := fun hgives hq => hquiet hq hgives
  cases o with
  | call i call =>
      simp only [semStep, Option.ite_none_right_eq_some] at hstep
      obtain ⟨hi, heq⟩ := hstep
      obtain ⟨rfl, rfl⟩ := Prod.mk.inj (Option.some.inj heq)
      have hcall : IsTaker (.free (.called call)) := by
        cases call with
        | take timeout => trivial
        | tryTake => trivial
        | _ => exact ho.elim
      exact h.moves (by rw [hi]; trivial) hcall rfl rfl rfl rfl (by rw [hi]; rfl)
        (by simp [Place.isBlocked])
  | run i => exact h.runThread hr hstep
  | signal i ws =>
      simp only [semStep, Option.ite_none_right_eq_some] at hstep
      have hi := hstep.1.1
      rcases h.cases_taker i with htaker | ⟨-, hd | hd⟩
      · rw [hi] at htaker
        exact htaker.elim
      · exact absurd (hi.symm.trans hd) (by simp)
      · exact absurd (hi.symm.trans hd) (by simp)
  | wake i =>
      simp only [semStep, Option.ite_none_right_eq_some] at hstep
      obtain ⟨rfl, rfl⟩ := Prod.mk.inj (Option.some.inj hstep.2)
      exact h.woken (Finset.singleton_subset_iff.2 (mem_blocked.2 hstep.1))
  | expire i =>
      simp only [semStep] at hstep
      split at hstep
      next w b woken hi =>
        simp only [Option.ite_none_right_eq_some] at hstep
        obtain ⟨rfl, rfl⟩ := Prod.mk.inj (Option.some.inj hstep.2)
        obtain ⟨timeout, seen, rfl, -, -⟩ := hr.pos_waiting hi
        exact h.of_place (p := .locking (.unlocking false)) (by rw [hi]; trivial) trivial rfl rfl rfl rfl
          ⟨Nat.zero_le _, fun hq => absurd hq (hlost trivial)⟩ (by simp [Place.isBlocked])
      next => cases hstep
  | cancel i =>
      simp only [semStep, Option.ite_none_right_eq_some] at hstep
      obtain ⟨hb, heq⟩ := hstep
      obtain ⟨rfl, rfl⟩ := Prod.mk.inj (Option.some.inj heq)
      obtain ⟨w, b, hi⟩ := Place.isBlocked_iff.1 hb
      obtain ⟨timeout, seen, rfl, -, -⟩ := hr.pos_waiting hi
      exact h.of_place (p := .locking .cleaning) (by rw [hi]; trivial) trivial rfl rfl rfl rfl
        ⟨Nat.zero_le _, fun hq => absurd hq (hlost trivial)⟩ (by simp [Place.isBlocked])
  | tick n =>
      obtain ⟨rfl, rfl⟩ := Prod.mk.inj (Option.some.inj hstep)
      exact { h with }

end Releasing

/-- Where nobody can go on, those who contend are those who are blocked. -/
theorem AtRest.total_contends {s : SemCalls ι} (hs : AtRest s) :
    s.monitor.total contends = s.monitor.blocked.card := by
  rw [blocked, Finset.card_filter]
  refine Finset.sum_congr rfl fun i _ => ?_
  rcases hs i with hi | hi | hi
  · rw [hi]
    rfl
  · rw [hi]
    rfl
  · obtain ⟨w, b, hi⟩ := Place.isBlocked_iff.1 hi
    rw [hi]
    rfl

end Releasing

/-! ### The result -/

/-- **The destructor releases as many threads as the maximum allows, and the others stay blocked.**  It has
disabled `Take` and is about to fill the count, and all other threads are in `Take` or outside.  Whatever
happens then, as long as nobody else gives: where nobody can go on, no more threads are blocked than
exceed the maximum; and just as many, unless a thread gives up waiting. -/
theorem destroy_releases [DecidableEq ι] [Fintype ι] (initCount maxCount : UInt32) (lOk cOk : Bool)
    (clock : ℕ) {ops ops' : List (SemOp ι)} {as as' : List (Option (SemEvent ι))} {s s' : SemCalls ι}
    {d : ι} (h : run semStep ops (SemCalls.construct ι initCount maxCount lOk cOk clock) = some (as, s))
    (hdisabled : s.enabled = false) (hd : s.monitor.place d = .locked .filling)
    (hothers : ∀ i, i ≠ d → IsTaker (s.monitor.place i)) (hpassive : ∀ o ∈ ops', SemOp.IsPassive o)
    (h' : run semStep ops' s = some (as', s')) (hrest : AtRest s') :
    s'.monitor.blocked.card ≤ s.monitor.total contends - s'.maxCount.toNat ∧
      ((∀ o ∈ ops', ¬ SemOp.GivesUp o) →
        s'.monitor.blocked.card = s.monitor.total contends - s'.maxCount.toNat) := by
  obtain ⟨t, -, hr⟩ := (Refines.construct ι initCount maxCount lOk cOk clock).explains_run h
  have hstart : Releasing (∀ o ∈ ops', ¬ SemOp.GivesUp o) d (s.monitor.total contends) s :=
    ⟨hdisabled, hothers, .inl ⟨hd, le_rfl, fun _ => rfl⟩⟩
  have hmeets : Meets semStep
      (fun _ o => o.IsPassive ∧ ((∀ o ∈ ops', ¬ SemOp.GivesUp o) → ¬ o.GivesUp)) ops' s :=
    ((Meets.of_forall (G := fun _ _ => True) fun _ _ => trivial).and_forall
      fun o ho => And.intro (hpassive o ho) fun hq => hq o ho).mono fun _ _ ho => ho.2
  obtain ⟨hs', -⟩ := run_invariant_of_meets
    (I := fun s' => Releasing (∀ o ∈ ops', ¬ SemOp.GivesUp o) d (s.monitor.total contends) s' ∧
      ∃ t, Refines s' t)
    (fun ⟨hrel, t, hr⟩ ho hstep => ⟨hrel.step hr ho.1 ho.2 hstep, (hr.step hstep).imp fun _ => And.right⟩)
    ⟨hstart, t, hr⟩ h' hmeets
  -- the destructor has left the mutex
  have hnotLocked : ∀ b, s'.monitor.place d ≠ .locked b := by
    intro b hb
    rcases hrest d with hi | hi | hi <;> rw [hb] at hi <;> cases hi
  rcases hs'.phase with ⟨hd', -⟩ | ⟨⟨hd', -⟩ | ⟨-, hnone⟩, hle, hquiet⟩
  · exact absurd hd' (hnotLocked _)
  · exact absurd hd' (hnotLocked _)
  · rw [hrest.total_contends] at hle hquiet
    rcases s'.monitor.blocked.eq_empty_or_nonempty with hempty | hsome
    · rw [hempty, Finset.card_empty] at hle hquiet ⊢
      exact ⟨Nat.zero_le _, fun hq => by have := hquiet hq; omega⟩
    · have hzero : s'.count.toNat = 0 := by rw [hnone hsome]; rfl
      exact ⟨by omega, fun hq => by have := hquiet hq; omega⟩

/-- The threads `i` and `j` wait at the count of 0, and a third one, `d`, destroys the semaphore, whose
maximum is 1. -/
def sampleDestroyOps (i j d : ι) : List (SemOp ι) :=
  [.call i (.take kInfiniteTimeout), .run i, .run i, .run i, .call j (.take kInfiniteTimeout), .run j,
    .run j, .run j, .call d .destroy, .run d, .run d, .run d]

/-- The threads go on until none of them can. -/
def sampleReleaseOps (i j d : ι) : List (SemOp ι) :=
  [d, d, d, d, j, j, j, j, j, i, i].map .run

/-- Where the threads stand before and after, and how many of them contend. -/
theorem run_sampleDestroyOps :
    ((run semStep (sampleDestroyOps 0 1 2) (SemCalls.construct (Fin 3) 0 1 true true 0)).bind fun r =>
      (run semStep (sampleReleaseOps 0 1 2) r.2).map fun r' =>
        (r.2.enabled, [r.2.monitor.total contends, r'.2.maxCount.toNat],
          [0, 1, 2].map r.2.monitor.place ++ [0, 1, 2].map r'.2.monitor.place)) =
      some (false, [2, 1], [.waiting none (.testing kInfiniteTimeout) false,
          .waiting none (.testing kInfiniteTimeout) false, .locked .filling,
          .waiting none (.testing kInfiniteTimeout) false, .free .outside, .free .outside]) := by
  decide +kernel

/-- One of the two threads stays blocked. -/
theorem destroy_releases_sample : ∃ as s as' s',
    run semStep (sampleDestroyOps 0 1 2) (SemCalls.construct (Fin 3) 0 1 true true 0) = some (as, s) ∧
      run semStep (sampleReleaseOps 0 1 2) s = some (as', s') ∧ s.monitor.total contends = 2 ∧
      s'.monitor.blocked.card = 2 - 1 := by
  obtain ⟨⟨as, s⟩, h, hrest⟩ := Option.bind_eq_some_iff.1 run_sampleDestroyOps
  obtain ⟨⟨as', s'⟩, h', heq⟩ := Option.map_eq_some_iff.1 hrest
  simp only [List.map_cons, List.map_nil, List.cons_append, List.nil_append, Prod.mk.injEq,
    List.cons.injEq, and_true] at heq
  obtain ⟨hdisabled, ⟨htotal, hmax⟩, h0, h1, h2, h0', h1', h2'⟩ := heq
  have hothers : ∀ i, i ≠ 2 → IsTaker (s.monitor.place i) := by
    intro i hi
    fin_cases i
    · exact h0 ▸ trivial
    · exact h1 ▸ trivial
    · exact absurd rfl hi
  have hrest' : AtRest s' := by
    intro i
    fin_cases i
    · exact .inr (.inr (congrArg Place.isBlocked h0'))
    · exact .inl h1'
    · exact .inl h2'
  have hruns : ∀ o ∈ sampleReleaseOps (0 : Fin 3) 1 2, SemOp.IsPassive o ∧ ¬ SemOp.GivesUp o := by
    intro o ho
    obtain ⟨i, -, rfl⟩ := List.mem_map.1 ho
    exact ⟨trivial, id⟩
  have hexact := (destroy_releases 0 1 true true 0 h hdisabled h2 hothers (fun o ho => (hruns o ho).1) h'
    hrest').2 fun o ho => (hruns o ho).2
  rw [htotal, hmax] at hexact
  exact ⟨as, s, as', s', h, h', htotal, hexact⟩

end CodePort
