/-
Threads that share a mutex and a condition variable.

A thread runs without the mutex, is in the call that locks it, holds it, or waits for the condition
variable.  Waiting gives the mutex up; a thread that has been unblocked goes on as soon as it has the
mutex again.  A signal unblocks at least one of the threads that are blocked, if there are any, and a
broadcast unblocks them all.

This file names nothing of any program: the points where a thread may stand without the mutex, the points
where it may stand with it, and what a wait is given along are parameters.

Main definitions:

* `Monitor` — the owner of the mutex, and where every thread stands;
* `Monitor.lock`, `unlock`, `wait`, `wake`, `broadcast` — what the threads do;
* `Monitor.IsSignal` — the threads that a signal may unblock;
* `Monitor.Exclusive` — the owner is the one thread that stands where the mutex is needed;
* `Monitor.total` — the places of all threads, weighed and added up.

Main results:

* `Monitor.Exclusive.eq` — **mutual exclusion**: two threads that hold the mutex are one;
* `Monitor.Exclusive.lock`, `release`, `move`, `wake` — every step keeps the owner right;
* `Monitor.total_of_place`, `total_lt`, `total_wake` — how a step changes a weight.
-/

import CodePort.StepSystem
import Mathlib.Algebra.BigOperators.Group.Finset.Piecewise
import Mathlib.Data.Fintype.Basic

set_option relaxedAutoImplicit false
set_option autoImplicit false

open scoped BigOperators

/-- Where a thread stands.  The points `α` are those without the mutex, the points `β` those with it, and
`δ` is what a wait is given along. -/
inductive Monitor.Place (α β δ : Type*)
  | free (a : α)
  /-- It is in the call that locks the mutex, and goes on at the point. -/
  | locking (b : β)
  | locked (b : β)
  /-- It waits for the condition variable, and goes on at the point; the flag says whether it has been
  unblocked. -/
  | waiting (d : δ) (b : β) (woken : Bool)
  deriving DecidableEq

/-- Any number of threads with a mutex and a condition variable. -/
structure Monitor (ι α β δ : Type*) where
  /-- The thread that has locked the mutex. -/
  owner : Option ι
  place : ι → Monitor.Place α β δ

namespace Monitor

variable {ι α β δ : Type*}

namespace Place

/-- The thread holds the mutex. -/
def isLocked : Place α β δ → Bool
  | .locked _ => true
  | _ => false

/-- The thread waits for the condition variable and has not been unblocked. -/
def isBlocked : Place α β δ → Bool
  | .waiting _ _ woken => !woken
  | _ => false

/-- The thread waits for the condition variable and has been unblocked. -/
def isWoken : Place α β δ → Bool
  | .waiting _ _ woken => woken
  | _ => false

/-- A thread is unblocked if it is blocked. -/
def wake : Place α β δ → Place α β δ
  | .waiting d b _ => .waiting d b true
  | p => p

@[simp] theorem isLocked_wake (p : Place α β δ) : p.wake.isLocked = p.isLocked := by
  cases p <;> rfl

@[simp] theorem isBlocked_wake (p : Place α β δ) : p.wake.isBlocked = false := by
  cases p <;> rfl

theorem isLocked_iff {p : Place α β δ} : p.isLocked = true ↔ ∃ b, p = .locked b := by
  cases p <;> simp [isLocked]

theorem isBlocked_iff {p : Place α β δ} : p.isBlocked = true ↔ ∃ d b, p = .waiting d b false := by
  cases p <;> simp [isBlocked]

end Place

variable {m m' : Monitor ι α β δ} {i j : ι} {b b' : β}

/-! ### The steps -/

section Steps

variable [DecidableEq ι]

/-- A thread moves, and leaves the mutex as it is. -/
def move (m : Monitor ι α β δ) (i : ι) (p : Place α β δ) : Monitor ι α β δ :=
  { m with place := Function.update m.place i p }

/-- A thread moves, and gives the mutex up. -/
def release (m : Monitor ι α β δ) (i : ι) (p : Place α β δ) : Monitor ι α β δ :=
  ⟨none, Function.update m.place i p⟩

/-- The mutex is locked, if it is free. -/
def lock (m : Monitor ι α β δ) (i : ι) (b : β) : Option (Monitor ι α β δ) :=
  if m.owner = none then some ⟨some i, Function.update m.place i (.locked b)⟩ else none

/-- The mutex is unlocked. -/
def unlock (m : Monitor ι α β δ) (i : ι) (a : α) : Monitor ι α β δ := m.release i (.free a)

/-- The mutex is unlocked and the thread blocked, in one step. -/
def wait (m : Monitor ι α β δ) (i : ι) (d : δ) (b : β) : Monitor ι α β δ :=
  m.release i (.waiting d b false)

/-- Some threads are unblocked. -/
def wake (m : Monitor ι α β δ) (ws : Finset ι) : Monitor ι α β δ :=
  { m with place := fun i => if i ∈ ws then (m.place i).wake else m.place i }

end Steps

section Blocked

variable [Fintype ι]

/-- The threads that are blocked. -/
def blocked (m : Monitor ι α β δ) : Finset ι := Finset.univ.filter fun i => (m.place i).isBlocked = true

/-- All threads are unblocked. -/
def broadcast [DecidableEq ι] (m : Monitor ι α β δ) : Monitor ι α β δ := m.wake m.blocked

/-- A signal unblocks at least one of the threads that are blocked, if there are any. -/
def IsSignal (m : Monitor ι α β δ) (ws : Finset ι) : Prop :=
  ws ⊆ m.blocked ∧ (m.blocked.Nonempty → ws.Nonempty)

instance [DecidableEq ι] (m : Monitor ι α β δ) (ws : Finset ι) : Decidable (m.IsSignal ws) :=
  inferInstanceAs (Decidable (_ ∧ _))

@[simp] theorem mem_blocked : i ∈ m.blocked ↔ (m.place i).isBlocked = true := by
  simp [blocked]

theorem isSignal_blocked (m : Monitor ι α β δ) : m.IsSignal m.blocked := ⟨subset_rfl, id⟩

end Blocked

theorem lock_eq_some [DecidableEq ι] :
    m.lock i b = some m' ↔
      m.owner = none ∧ m' = ⟨some i, Function.update m.place i (.locked b)⟩ := by
  rw [lock]
  split_ifs with h
  · simp only [Option.some.injEq, h, true_and, eq_comm]
  · simp [h]

theorem place_lock [DecidableEq ι] (h : m.lock i b = some m') :
    m'.place = Function.update m.place i (.locked b) := by
  obtain ⟨-, rfl⟩ := lock_eq_some.1 h
  rfl

@[simp] theorem isLocked_wake [DecidableEq ι] (m : Monitor ι α β δ) (ws : Finset ι) (i : ι) :
    ((m.wake ws).place i).isLocked = (m.place i).isLocked := by
  simp only [wake]
  split_ifs
  · exact Place.isLocked_wake _
  · rfl

/-- Unblocking threads leaves those alone that hold the mutex. -/
theorem place_wake_of_locked [DecidableEq ι] (h : m.place i = .locked b) (ws : Finset ι) :
    (m.wake ws).place i = .locked b := by
  simp only [wake, h]
  split_ifs <;> rfl

/-! ### The owner -/

/-- The owner is the one thread that stands where the mutex is needed. -/
def Exclusive (m : Monitor ι α β δ) : Prop := ∀ i, (m.place i).isLocked = true ↔ m.owner = some i

namespace Exclusive

/-- A thread that holds the mutex is its owner. -/
theorem owner_eq (h : m.Exclusive) (hi : m.place i = .locked b) : m.owner = some i :=
  (h i).1 (by rw [hi]; rfl)

/-- **Mutual exclusion**: two threads that hold the mutex are one. -/
theorem eq (h : m.Exclusive) (hi : m.place i = .locked b) (hj : m.place j = .locked b') : j = i :=
  Option.some.inj ((h.owner_eq hj).symm.trans (h.owner_eq hi))

/-- While nobody owns the mutex, nobody stands where it is needed. -/
theorem isLocked_eq_false (h : m.Exclusive) (hm : m.owner = none) (i : ι) :
    (m.place i).isLocked = false := by
  rw [← Bool.not_eq_true, h i, hm]
  exact fun hnone => Option.some_ne_none _ hnone.symm

section

variable [DecidableEq ι]

theorem lock (h : m.Exclusive) (hl : m.lock i b = some m') : m'.Exclusive := by
  obtain ⟨hm, rfl⟩ := lock_eq_some.1 hl
  intro j
  by_cases hj : j = i
  · subst hj
    simp [Place.isLocked]
  · simp [Function.update_of_ne hj, h.isLocked_eq_false hm j, Ne.symm hj]

theorem release {p : Place α β δ} (h : m.Exclusive) (hi : m.place i = .locked b)
    (hp : p.isLocked = false) : (m.release i p).Exclusive := by
  intro j
  by_cases hj : j = i
  · subst hj
    simp [Monitor.release, hp]
  · have hown : m.owner ≠ some j := by
      rw [h.owner_eq hi]
      exact fun heq => hj (Option.some.inj heq).symm
    simp [Monitor.release, Function.update_of_ne hj, h j, hown]

theorem move {p : Place α β δ} (h : m.Exclusive) (hp : p.isLocked = (m.place i).isLocked) :
    (m.move i p).Exclusive := by
  intro j
  by_cases hj : j = i
  · subst hj
    simpa [Monitor.move, hp] using h j
  · simpa [Monitor.move, Function.update_of_ne hj] using h j

theorem wake (h : m.Exclusive) (ws : Finset ι) : (m.wake ws).Exclusive := by
  intro j
  rw [isLocked_wake]
  exact h j

end

end Exclusive

/-! ### Weights -/

section Weights

variable [DecidableEq ι] [Fintype ι]

/-- The places of all threads, weighed and added up. -/
def total (w : Place α β δ → ℕ) (m : Monitor ι α β δ) : ℕ := ∑ i, w (m.place i)

variable {w : Place α β δ → ℕ}

/-- One thread moves. -/
theorem total_of_place {p : Place α β δ} (hm : m'.place = Function.update m.place i p) :
    m'.total w + w (m.place i) = m.total w + w p := by
  have h := StepSystem.sum_add_eq_sum_add (f := fun k => w (m.place k)) (g := fun k => w (m'.place k))
    (t := i) fun k hk => by rw [hm, Function.update_of_ne hk]
  rw [hm, Function.update_self] at h
  rw [total, total, hm]
  exact h

/-- A thread that moves to a place of less weight. -/
theorem total_lt {p : Place α β δ} (hm : m'.place = Function.update m.place i p)
    (hp : w p < w (m.place i)) : m'.total w < m.total w := by
  have htotal := total_of_place (w := w) hm
  omega

theorem total_move (m : Monitor ι α β δ) (i : ι) (p : Place α β δ) :
    (m.move i p).total w + w (m.place i) = m.total w + w p := total_of_place rfl

/-- **Threads that are unblocked** gain the weight that being unblocked is worth. -/
theorem total_wake {c : ℕ} (hw : ∀ p : Place α β δ, p.isBlocked = true → w p.wake = w p + c)
    {ws : Finset ι} (hws : ws ⊆ m.blocked) : (m.wake ws).total w = m.total w + ws.card * c := by
  have hsum : ∀ i, w ((m.wake ws).place i) = w (m.place i) + if i ∈ ws then c else 0 := by
    intro i
    by_cases hi : i ∈ ws
    · simp only [wake, if_pos hi]
      exact hw _ (mem_blocked.1 (hws hi))
    · simp only [wake, if_neg hi, add_zero]
  rw [total, Finset.sum_congr rfl fun i _ => hsum i, Finset.sum_add_distrib, Finset.sum_ite_mem,
    Finset.univ_inter, Finset.sum_const_nat fun _ _ => rfl, total]

end Weights

/-! ### Who is blocked -/

section Blocked

variable [DecidableEq ι] [Fintype ι]

@[simp] theorem blocked_wake (m : Monitor ι α β δ) (ws : Finset ι) :
    (m.wake ws).blocked = m.blocked \ ws := by
  ext i
  by_cases hi : i ∈ ws <;> simp [wake, hi]

@[simp] theorem blocked_broadcast (m : Monitor ι α β δ) : m.broadcast.blocked = ∅ := by
  rw [broadcast, blocked_wake, Finset.sdiff_self]

/-- A thread that moves without being blocked afterwards. -/
theorem blocked_subset {p : Place α β δ} (hm : m'.place = Function.update m.place i p)
    (hp : p.isBlocked = false) : m'.blocked ⊆ m.blocked := by
  intro j hj
  rw [mem_blocked, hm] at hj
  by_cases hji : j = i
  · rw [hji, Function.update_self, hp] at hj
    exact absurd hj Bool.false_ne_true
  · rw [Function.update_of_ne hji] at hj
    exact mem_blocked.2 hj

end Blocked

end Monitor
