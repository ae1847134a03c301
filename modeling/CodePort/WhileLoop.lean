/-
Loops that end.

A `while` loop over a state, with a measure that every pass makes smaller.  What every pass keeps
holds when the loop is done, and two loops whose passes correspond end in corresponding states.

Main definitions:

* `WhileLoop.whileDo` — the loop.

Main results:

* `WhileLoop.whileDo_spec` — **the invariant rule of a loop**;
* `WhileLoop.whileDo_simulates` — the simulation rule of two loops.
-/

import Mathlib.Order.Basic

set_option relaxedAutoImplicit false
set_option autoImplicit false

namespace WhileLoop

variable {σ τ : Type*}

/-- `while (cond) body`, for a body that makes the measure smaller. -/
def whileDo (cond : σ → Bool) (body : σ → σ) (measure : σ → ℕ)
    (hmeasure : ∀ s, cond s = true → measure (body s) < measure s) (s : σ) : σ :=
  if _ : cond s = true then whileDo cond body measure hmeasure (body s) else s
termination_by measure s
decreasing_by exact hmeasure s ‹_›

variable {cond : σ → Bool} {body : σ → σ} {measure : σ → ℕ}
  {hmeasure : ∀ s, cond s = true → measure (body s) < measure s}

theorem whileDo_of_true {s : σ} (h : cond s = true) :
    whileDo cond body measure hmeasure s = whileDo cond body measure hmeasure (body s) := by
  rw [whileDo, dif_pos h]

theorem whileDo_of_false {s : σ} (h : cond s = false) :
    whileDo cond body measure hmeasure s = s := by
  rw [whileDo, dif_neg (by simp [h])]

/-- **The invariant rule of a loop**: what every pass keeps holds at the end, where the condition is
false. -/
theorem whileDo_spec {I : σ → Prop} (hbody : ∀ s, cond s = true → I s → I (body s)) {s : σ}
    (hs : I s) :
    I (whileDo cond body measure hmeasure s) ∧
      cond (whileDo cond body measure hmeasure s) = false := by
  induction hn : measure s using Nat.strongRecOn generalizing s with
  | ind n ih =>
      cases hc : cond s with
      | true =>
          rw [whileDo_of_true hc]
          exact ih _ (hn ▸ hmeasure s hc) (hbody s hc hs) rfl
      | false =>
          rw [whileDo_of_false hc]
          exact ⟨hs, hc⟩

/-- **The simulation rule of two loops**: when related states agree on the condition and stay
related, the loops end in related states. -/
theorem whileDo_simulates {condT : τ → Bool} {bodyT : τ → τ} {measureT : τ → ℕ}
    {hmeasureT : ∀ t, condT t = true → measureT (bodyT t) < measureT t} {R : σ → τ → Prop}
    (hcond : ∀ s t, R s t → cond s = condT t)
    (hbody : ∀ s t, cond s = true → R s t → R (body s) (bodyT t)) {s : σ} {t : τ} (h : R s t) :
    R (whileDo cond body measure hmeasure s) (whileDo condT bodyT measureT hmeasureT t) := by
  induction hn : measure s using Nat.strongRecOn generalizing s t with
  | ind n ih =>
      have hct := hcond s t h
      cases hc : cond s with
      | true =>
          rw [whileDo_of_true hc, whileDo_of_true (hct.symm.trans hc)]
          exact ih _ (hn ▸ hmeasure s hc) (hbody s t hc h) rfl
      | false =>
          rw [whileDo_of_false hc, whileDo_of_false (hct.symm.trans hc)]
          exact h

end WhileLoop
