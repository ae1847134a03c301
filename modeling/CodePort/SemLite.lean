/-
The counting semaphore.

Main definitions:

* `CodePort.SemLite` — the class: a count, and the most it may reach;
* `CodePort.SemLite.take`, `give` — the member functions.
-/

import Mathlib.Order.Basic
import Mathlib.Order.Nat
import Mathlib.Tactic.Ring

set_option relaxedAutoImplicit false
set_option autoImplicit false

namespace CodePort

/-- The counting semaphore class. -/
structure SemLite where
  count : ℕ
  /-- The maximum allowed semaphore count. -/
  maxCount : ℕ
  count_le : count ≤ maxCount
  deriving DecidableEq

namespace SemLite

/-- The default of the maximum count. -/
def unlimited : ℕ := 2 ^ 32 - 1

/-- The constructor. -/
def construct (initCount maxCount : ℕ) : SemLite :=
  ⟨if initCount > maxCount then maxCount else initCount, maxCount, by split_ifs <;> omega⟩

/-- `Take` that finds the semaphore in the signalled state; `none` is a thread that waits. -/
def take (s : SemLite) : Option SemLite :=
  if 0 < s.count then
    some { s with count := s.count - 1, count_le := (Nat.sub_le _ _).trans s.count_le }
  else none

/-- `Give`, which is refused at the maximum count. -/
def give (s : SemLite) : Bool × SemLite :=
  if h : s.count < s.maxCount then (true, { s with count := s.count + 1, count_le := h })
  else (false, s)

variable {s t : SemLite}

theorem take_eq_some : s.take = some t ↔ s.count = t.count + 1 ∧ s.maxCount = t.maxCount := by
  obtain ⟨n, m, hn⟩ := s
  obtain ⟨n', m', hn'⟩ := t
  rw [take]
  split_ifs with h
  · simp only [Option.some.injEq, SemLite.mk.injEq] at h ⊢
    omega
  · simp only [false_iff] at h ⊢
    omega

/-- A semaphore in the signalled state can be taken. -/
theorem take_ne_none (h : 0 < s.count) : s.take ≠ none := by
  rw [take, if_pos h]
  exact Option.some_ne_none _

@[simp] theorem maxCount_give (s : SemLite) : s.give.2.maxCount = s.maxCount := by
  rw [give]
  split_ifs <;> rfl

/-- Below the maximum `Give` is accepted. -/
theorem give_of_lt (h : s.count < s.maxCount) : s.give.1 = true ∧ s.give.2.count = s.count + 1 := by
  rw [give, dif_pos h]
  exact ⟨rfl, rfl⟩

/-- **`Give` leaves the semaphore in the signalled state**, whether it is refused or not. -/
theorem count_give_pos (h : 0 < s.maxCount) : 0 < s.give.2.count := by
  rw [give]
  split_ifs with hlt
  · exact Nat.succ_pos _
  · exact lt_of_lt_of_le h (not_lt.1 hlt)

end SemLite

end CodePort
