/-
Systems that take one step after another.

A system is a step function that may refuse an operation, and otherwise answers it and moves to
a new state.  A run feeds it a list of operations.  This file holds the two induction rules that
every development over such a system needs: an invariant of one step is an invariant of a run, and
a simulation of one step is a simulation of a run.

Main definitions:

* `StepSystem.run` — the answers of a list of operations, and the state it leads to;
* `StepSystem.Meets` — a run whose steps all meet a condition;
* `StepSystem.Trace` — a run of a system that is given by a relation.

Main results:

* `StepSystem.run_invariant` — **the invariant rule**;
* `StepSystem.run_answers`, `StepSystem.run_invariant_of_answers` — the invariant rule, for what the
  steps answer, and for runs with some answers only;
* `StepSystem.run_invariant_of_meets` — the invariant rule, for runs that meet a condition;
* `StepSystem.run_history_of_meets` — the same, when the invariant is about the answers so far, too;
* `StepSystem.run_length_le` — **the measure rule**: a run that makes a measure smaller ends;
* `StepSystem.forall_prefix_iff_meets` — **the exact condition of a run**;
* `StepSystem.run_simulates` — **the simulation rule**;
* `StepSystem.exists_trace` — **the refinement rule**: a run of the function is a run of the relation;
* `StepSystem.forall_prefix_iff` — the exact condition under which an invariant is never lost;
* `StepSystem.moved_cases`, `StepSystem.sum_add_eq_sum_add` — the threads after one has moved;
* `StepSystem.run_append`, `StepSystem.run_split` — a run in two parts;
* `StepSystem.exists_run_part` — **the projection rule**: a run of one part of a system.
-/

import Mathlib.Algebra.BigOperators.Group.Finset.Basic
import Mathlib.Data.List.Basic
import Mathlib.Data.Option.Basic

set_option relaxedAutoImplicit false
set_option autoImplicit false

namespace StepSystem

variable {σ τ ω α : Type*}

/-- Run a list of operations.  The run is refused as soon as one of them is. -/
def run (step : σ → ω → Option (α × σ)) : List ω → σ → Option (List α × σ)
  | [], s => some ([], s)
  | o :: os, s =>
      (step s o).bind fun r => (run step os r.2).map fun q => (r.1 :: q.1, q.2)

variable {step : σ → ω → Option (α × σ)}

@[simp] theorem run_nil (s : σ) : run step [] s = some ([], s) := rfl

/-- A run that is not empty is a step and a run. -/
theorem run_cons_eq_some {o : ω} {os : List ω} {s s' : σ} {as : List α} :
    run step (o :: os) s = some (as, s') ↔
      ∃ a t bs, step s o = some (a, t) ∧ run step os t = some (bs, s') ∧ as = a :: bs := by
  rw [run, Option.bind_eq_some_iff]
  constructor
  · rintro ⟨⟨a, t⟩, hstep, hrun⟩
    obtain ⟨⟨bs, s''⟩, hbs, heq⟩ := Option.map_eq_some_iff.1 hrun
    obtain ⟨rfl, rfl⟩ := Prod.mk.inj heq
    exact ⟨a, t, bs, hstep, hbs, rfl⟩
  · rintro ⟨a, t, bs, hstep, hrun, rfl⟩
    exact ⟨(a, t), hstep, by simp [hrun]⟩

/-- A run in two parts. -/
theorem run_append {os os' : List ω} {s s' s'' : σ} {as as' : List α}
    (h : run step os s = some (as, s')) (h' : run step os' s' = some (as', s'')) :
    run step (os ++ os') s = some (as ++ as', s'') := by
  induction os generalizing s as with
  | nil =>
      obtain ⟨rfl, rfl⟩ := Prod.mk.inj (Option.some.inj h)
      exact h'
  | cons o os ih =>
      obtain ⟨a, t, bs, hstep, hrun, rfl⟩ := run_cons_eq_some.1 h
      exact run_cons_eq_some.2 ⟨a, t, bs ++ as', hstep, ih hrun, rfl⟩

/-- A run that has answered is a step and a run. -/
theorem exists_step_of_run {os : List ω} {s s' : σ} {a : α} {as : List α}
    (h : run step os s = some (a :: as, s')) :
    ∃ o os' t, os = o :: os' ∧ step s o = some (a, t) ∧ run step os' t = some (as, s') := by
  cases os with
  | nil => exact absurd (congrArg Prod.fst (Option.some.inj h)) (by simp)
  | cons o os =>
      obtain ⟨b, t, bs, hstep, hrun, heq⟩ := run_cons_eq_some.1 h
      obtain ⟨rfl, rfl⟩ := List.cons.inj heq
      exact ⟨o, os, t, rfl, hstep, hrun⟩

/-- A run whose answers are cut in two is cut in two itself. -/
theorem run_split {os : List ω} {s s'' : σ} {as as' : List α}
    (h : run step os s = some (as ++ as', s'')) :
    ∃ os₁ os₂ s', os = os₁ ++ os₂ ∧ run step os₁ s = some (as, s') ∧
      run step os₂ s' = some (as', s'') := by
  induction as generalizing os s with
  | nil => exact ⟨[], os, s, rfl, run_nil s, h⟩
  | cons a as ih =>
      obtain ⟨o, os, t, rfl, hstep, hrun⟩ := exists_step_of_run h
      obtain ⟨os₁, os₂, s', rfl, h₁, h₂⟩ := ih hrun
      exact ⟨o :: os₁, os₂, s', rfl, run_cons_eq_some.2 ⟨a, t, as, hstep, h₁, rfl⟩, h₂⟩

/-- **The projection rule**: when every step of a system is a step of one of its parts, or leaves that part
alone and answers nothing for it, a run of the system is a run of the part. -/
theorem exists_run_part {υ β : Type*} {part : τ → υ → Option (β × τ)} {f : σ → τ} {g : α → Option β}
    {P : ω → Prop} {Q : υ → Prop}
    (hstep : ∀ {s o a s'}, P o → step s o = some (a, s') →
      (g a = none ∧ f s' = f s) ∨ ∃ o' b, Q o' ∧ g a = some b ∧ part (f s) o' = some (b, f s'))
    {os : List ω} {s s' : σ} {as : List α} (hos : ∀ o ∈ os, P o) (h : run step os s = some (as, s')) :
    ∃ os', (∀ o ∈ os', Q o) ∧ run part os' (f s) = some (as.filterMap g, f s') := by
  induction os generalizing s as with
  | nil =>
      obtain ⟨rfl, rfl⟩ := Prod.mk.inj (Option.some.inj h)
      exact ⟨[], fun o ho => absurd ho List.not_mem_nil, rfl⟩
  | cons o os ih =>
      obtain ⟨a, t, bs, hst, hrun, rfl⟩ := run_cons_eq_some.1 h
      obtain ⟨ho, hrest⟩ := List.forall_mem_cons.1 hos
      obtain ⟨os', hos', hrun'⟩ := ih hrest hrun
      rcases hstep ho hst with ⟨hnone, hsame⟩ | ⟨o', b, hQ, hsome, hpart⟩
      · refine ⟨os', hos', ?_⟩
        rw [List.filterMap_cons_none hnone, ← hsame]
        exact hrun'
      · refine ⟨o' :: os', List.forall_mem_cons.2 ⟨hQ, hos'⟩, ?_⟩
        rw [List.filterMap_cons_some hsome]
        exact run_cons_eq_some.2 ⟨b, f t, _, hpart, hrun', rfl⟩

/-- Every step of a run starts where a condition allows it. -/
def Meets (step : σ → ω → Option (α × σ)) (G : σ → ω → Prop) : List ω → σ → Prop
  | [], _ => True
  | o :: os, s => G s o ∧ ∀ a s', step s o = some (a, s') → Meets step G os s'

instance Meets.decidable {G : σ → ω → Prop} [∀ s o, Decidable (G s o)] :
    (os : List ω) → (s : σ) → Decidable (Meets step G os s)
  | [], _ => isTrue trivial
  | o :: os, s =>
      match hstep : step s o with
      | none => decidable_of_iff (G s o)
          ⟨fun h => And.intro h fun _ _ hsome => (nomatch hstep.symm.trans hsome), fun h => h.1⟩
      | some (a, s') =>
          have : Decidable (Meets step G os s') := Meets.decidable os s'
          decidable_of_iff (G s o ∧ Meets step G os s')
            ⟨fun h => And.intro h.1 fun _ _ hsome => by
                cases hstep.symm.trans hsome
                exact h.2,
              fun h => ⟨h.1, h.2 a s' hstep⟩⟩

theorem Meets.of_forall {G : σ → ω → Prop} (h : ∀ s o, G s o) {os : List ω} {s : σ} :
    Meets step G os s := by
  induction os generalizing s with
  | nil => trivial
  | cons o os ih => exact And.intro (h s o) fun _ _ _ => ih

theorem Meets.mono {G G' : σ → ω → Prop} {os : List ω} {s : σ} (h : Meets step G os s)
    (hG : ∀ s o, G s o → G' s o) : Meets step G' os s := by
  induction os generalizing s with
  | nil => trivial
  | cons o os ih => exact And.intro (hG s o h.1) fun a s' hstep => ih (h.2 a s' hstep)

/-- A run that meets a condition and whose operations all meet another meets both. -/
theorem Meets.and_forall {G : σ → ω → Prop} {P : ω → Prop} {os : List ω} {s : σ}
    (h : Meets step G os s) (hP : ∀ o ∈ os, P o) : Meets step (fun s o => G s o ∧ P o) os s := by
  induction os generalizing s with
  | nil => trivial
  | cons o os ih =>
      obtain ⟨ho, hos⟩ := List.forall_mem_cons.1 hP
      exact And.intro ⟨h.1, ho⟩ fun a s' hstep => ih (h.2 a s' hstep) hos

/-- A history after one more answer, cut in two. -/
theorem concat_eq_append_cons {as pre post : List α} {x y : α}
    (h : as ++ [x] = pre ++ y :: post) :
    (post = [] ∧ pre = as ∧ y = x) ∨ ∃ post', post = post' ++ [x] ∧ as = pre ++ y :: post' := by
  rcases List.eq_nil_or_concat post with rfl | ⟨post', z, rfl⟩
  · obtain ⟨rfl, hxy⟩ := List.append_inj' h rfl
    exact .inl ⟨rfl, rfl, (List.singleton_inj.1 hxy).symm⟩
  · rw [List.concat_eq_append, ← List.cons_append, ← List.append_assoc] at h
    obtain ⟨rfl, hxz⟩ := List.append_inj' h rfl
    obtain rfl := List.singleton_inj.1 hxz
    exact .inr ⟨post', List.concat_eq_append, rfl⟩

/-- **The invariant rule with a history**: what holds of the answers so far and of the state, and what
every step that meets the condition preserves, holds after every run whose steps all meet it. -/
theorem run_history_of_meets {I : List α → σ → Prop} {G : σ → ω → Prop}
    (hstep : ∀ {as s o a s'}, I as s → G s o → step s o = some (a, s') → I (as ++ [a]) s')
    {os : List ω} {s s' : σ} {as bs : List α} (hs : I as s) (h : run step os s = some (bs, s'))
    (hG : Meets step G os s) : I (as ++ bs) s' := by
  induction os generalizing s as bs with
  | nil =>
      obtain ⟨rfl, rfl⟩ := Prod.mk.inj (Option.some.inj h)
      rw [List.append_nil]
      exact hs
  | cons o os ih =>
      obtain ⟨a, t, cs, hst, hrun, rfl⟩ := run_cons_eq_some.1 h
      rw [List.append_cons]
      exact ih (hstep hs hG.1 hst) hrun (hG.2 a t hst)

/-- **The invariant rule under a condition**: what every step that meets the condition preserves,
every run whose steps all meet it preserves. -/
theorem run_invariant_of_meets {I : σ → Prop} {G : σ → ω → Prop}
    (hstep : ∀ {s o a s'}, I s → G s o → step s o = some (a, s') → I s')
    {os : List ω} {s s' : σ} {as : List α} (hs : I s) (h : run step os s = some (as, s'))
    (hG : Meets step G os s) : I s' :=
  @run_history_of_meets σ ω α step (fun _ s => I s) G hstep os s s' [] as hs h hG

/-- **The invariant rule**: what every step preserves, every run preserves. -/
theorem run_invariant {I : σ → Prop}
    (hstep : ∀ {s o a s'}, I s → step s o = some (a, s') → I s')
    {os : List ω} {s s' : σ} {as : List α} (hs : I s) (h : run step os s = some (as, s')) :
    I s' :=
  run_invariant_of_meets (G := fun _ _ => True) (fun hs _ hst => hstep hs hst) hs h
    (.of_forall fun _ _ => trivial)

/-- **The invariant rule for some runs**: what every step with such an answer preserves, every run
with such answers preserves. -/
theorem run_invariant_of_answers {I : σ → Prop} {P : α → Prop}
    (hstep : ∀ {s o a s'}, P a → I s → step s o = some (a, s') → I s')
    {os : List ω} {s s' : σ} {as : List α} (hs : I s) (h : run step os s = some (as, s'))
    (has : ∀ a ∈ as, P a) : I s' := by
  refine @run_history_of_meets σ ω α step (fun as s => (∀ a ∈ as, P a) → I s) (fun _ _ => True) ?_ os s s'
    [] as (fun _ => hs) h (.of_forall fun _ _ => trivial) has
  intro as s o a s' hI _ hst hall
  obtain ⟨has, ha⟩ := List.forall_mem_append.1 hall
  exact hstep (ha a List.mem_cons_self) (hI has) hst

/-- **The invariant rule with answers**: what every step answers in a state with the invariant,
every run answers. -/
theorem run_answers {I : σ → Prop} {P : α → Prop}
    (hstep : ∀ {s o a s'}, I s → step s o = some (a, s') → P a ∧ I s')
    {os : List ω} {s s' : σ} {as : List α} (hs : I s) (h : run step os s = some (as, s')) :
    (∀ a ∈ as, P a) ∧ I s' := by
  refine @run_history_of_meets σ ω α step (fun as s => (∀ a ∈ as, P a) ∧ I s) (fun _ _ => True) ?_ os s s'
    [] as ⟨fun a ha => absurd ha List.not_mem_nil, hs⟩ h (.of_forall fun _ _ => trivial)
  intro as s o a s' hI _ hst
  obtain ⟨ha, hs'⟩ := hstep hI.2 hst
  exact ⟨List.forall_mem_append.2 ⟨hI.1, List.forall_mem_singleton.2 ha⟩, hs'⟩

/-- **The measure rule**: when every step keeps an invariant and makes a measure smaller, a run is no longer
than what the measure has lost. -/
theorem run_length_le {I : σ → Prop} {P : ω → Prop} {μ : σ → ℕ}
    (hstep : ∀ {s o a s'}, P o → I s → step s o = some (a, s') → I s' ∧ μ s' < μ s)
    {os : List ω} {s s' : σ} {as : List α} (hos : ∀ o ∈ os, P o) (hs : I s)
    (h : run step os s = some (as, s')) : I s' ∧ os.length + μ s' ≤ μ s := by
  induction os generalizing s as with
  | nil =>
      obtain ⟨-, rfl⟩ := Prod.mk.inj (Option.some.inj h)
      exact ⟨hs, (Nat.zero_add _).le⟩
  | cons o os ih =>
      obtain ⟨a, t, bs, hst, hrun, rfl⟩ := run_cons_eq_some.1 h
      obtain ⟨ho, hrest⟩ := List.forall_mem_cons.1 hos
      obtain ⟨ht, hlt⟩ := hstep ho hs hst
      obtain ⟨hs', hle⟩ := ih hrest ht hrun
      refine ⟨hs', ?_⟩
      rw [List.length_cons]
      omega

/-- **The exact condition of a run**: when a step that meets the condition keeps an invariant with a
property, and one that does not meet it loses the property, a run has the property at every moment if
and only if all its steps meet the condition. -/
theorem forall_prefix_iff_meets {I P : List α → σ → Prop} {G : σ → ω → Prop}
    (hstep : ∀ {as s o a s'}, I as s → G s o → step s o = some (a, s') → I (as ++ [a]) s')
    (hgood : ∀ {as s}, I as s → P as s)
    (hbad : ∀ {as s o}, I as s → ¬ G s o → ∃ a s', step s o = some (a, s') ∧ ¬ P (as ++ [a]) s')
    {as : List α} {s : σ} (hs : I as s) (os : List ω) :
    (∀ pre bs s', pre <+: os → run step pre s = some (bs, s') → P (as ++ bs) s') ↔
      Meets step G os s := by
  induction os generalizing s as with
  | nil =>
      refine ⟨fun _ => trivial, fun _ pre bs s' hpre h => ?_⟩
      obtain rfl := List.prefix_nil.1 hpre
      exact hgood (run_history_of_meets hstep hs h trivial)
  | cons o os ih =>
      constructor
      · intro h
        have ho : G s o := by
          by_contra hno
          obtain ⟨a, s', hst, hP⟩ := hbad hs hno
          refine hP (h [o] [a] s' ⟨os, rfl⟩ ?_)
          exact run_cons_eq_some.2 ⟨a, s', [], hst, run_nil s', rfl⟩
        refine And.intro ho fun a s' hst => (ih (hstep hs ho hst)).1 fun pre bs t hpre hrun => ?_
        rw [← List.append_cons]
        refine h (o :: pre) (a :: bs) t ((List.prefix_cons_inj o).2 hpre) ?_
        exact run_cons_eq_some.2 ⟨a, s', bs, hst, hrun, rfl⟩
      · intro hG pre bs s' hpre h
        cases pre with
        | nil =>
            obtain ⟨rfl, rfl⟩ := Prod.mk.inj (Option.some.inj h)
            rw [List.append_nil]
            exact hgood hs
        | cons o' pre =>
            obtain ⟨rfl, hrest⟩ := List.cons_prefix_cons.1 hpre
            obtain ⟨a, t, cs, hst, hrun, rfl⟩ := run_cons_eq_some.1 h
            rw [List.append_cons]
            exact (ih (hstep hs hG.1 hst)).2 (hG.2 a t hst) pre cs s' hrest hrun

/-- **The simulation rule**: when related states answer every operation alike and stay related,
a run of the one system is answered like the run of the other. -/
theorem run_simulates {astep : τ → ω → α × τ} {R : σ → τ → Prop}
    (hstep : ∀ {s t} (o : ω), R s t →
      ∃ s', step s o = some ((astep t o).1, s') ∧ R s' (astep t o).2)
    (os : List ω) {s : σ} {t : τ} (h : R s t) :
    ∃ as s' t', run step os s = some (as, s') ∧
      run (fun t o => some (astep t o)) os t = some (as, t') ∧ R s' t' := by
  induction os generalizing s t with
  | nil => exact ⟨[], s, t, rfl, rfl, h⟩
  | cons o os ih =>
      obtain ⟨s₁, hs₁, hR⟩ := hstep o h
      obtain ⟨as, s', t', hrun, harun, hR'⟩ := ih hR
      exact ⟨_, s', t', run_cons_eq_some.2 ⟨_, _, _, hs₁, hrun, rfl⟩,
        run_cons_eq_some.2 ⟨_, _, _, rfl, harun, rfl⟩, hR'⟩

/-- **Where a thread stands after one has moved**: it is the one that has moved, or stands where it
stood. -/
theorem moved_cases {ι β : Type*} [DecidableEq ι] {f : ι → β} {t t' : ι} {b b' : β}
    (h : Function.update f t b t' = b') : t' = t ∧ b' = b ∨ t' ≠ t ∧ f t' = b' := by
  by_cases ht : t' = t
  · rw [ht, Function.update_self] at h
    exact .inl ⟨ht, h.symm⟩
  · rw [Function.update_of_ne ht] at h
    exact .inr ⟨ht, h⟩

/-- Two sums over the threads that differ in what one of them adds. -/
theorem sum_add_eq_sum_add {ι M : Type*} [DecidableEq ι] [Fintype ι] [AddCommMonoid M] {f g : ι → M}
    {t : ι} (h : ∀ k, k ≠ t → g k = f k) : ∑ k, g k + f t = ∑ k, f k + g t := by
  rw [← Finset.add_sum_erase _ _ (Finset.mem_univ t), ← Finset.add_sum_erase _ f (Finset.mem_univ t),
    Finset.sum_congr rfl fun k hk => h k (Finset.ne_of_mem_erase hk)]
  rw [add_comm (g t), add_right_comm, add_comm _ (f t)]

/-! ### Systems that refuse nothing -/

/-- **The exact condition of an invariant**: when a step from a state with the invariant keeps it if
and only if it does no harm, a run never loses it if and only if none of its steps does harm. -/
theorem forall_prefix_iff {f : σ → ω → σ} {P : σ → Prop} {H : σ → ω → Prop}
    (hstep : ∀ s o, P s → (P (f s o) ↔ ¬ H s o)) {s : σ} (hs : P s) (ops : List ω) :
    (∀ pre, pre <+: ops → P (pre.foldl f s)) ↔
      ∀ pre o post, ops = pre ++ o :: post → ¬ H (pre.foldl f s) o := by
  constructor
  · intro h pre o post heq hH
    have hpre : pre <+: ops := ⟨o :: post, heq.symm⟩
    have hpost : pre ++ [o] <+: ops := ⟨post, by simp [heq]⟩
    have hkept := h _ hpost
    rw [List.foldl_append, List.foldl_cons, List.foldl_nil] at hkept
    exact (hstep _ o (h pre hpre)).1 hkept hH
  · rintro h pre ⟨post, rfl⟩
    induction pre generalizing s with
    | nil => exact hs
    | cons o pre ih =>
        refine ih ((hstep s o hs).2 (h [] o (pre ++ post) rfl)) fun pre' o' post' heq => ?_
        exact h (o :: pre') o' post' (congrArg (o :: ·) heq)

/-! ### Systems given by a relation -/

/-- A run of a system whose steps are given by a relation: the operations, their answers, the first
and the last state. -/
inductive Trace (R : τ → ω → α → τ → Prop) : List ω → List α → τ → τ → Prop
  | nil (t : τ) : Trace R [] [] t t
  | cons {o os a as t t' t''} : R t o a t' → Trace R os as t' t'' →
      Trace R (o :: os) (a :: as) t t''

theorem Trace.append {R : τ → ω → α → τ → Prop} {os os' : List ω} {as as' : List α}
    {t t' t'' : τ} (h : Trace R os as t t') (h' : Trace R os' as' t' t'') :
    Trace R (os ++ os') (as ++ as') t t'' := by
  induction h with
  | nil => exact h'
  | cons hstep _ ih => exact .cons hstep (ih h')

/-- **The refinement rule**: when every step of the function from a related state is a step of the
relation, so is every run. -/
theorem exists_trace {astep : τ → ω → α → τ → Prop} {R : σ → τ → Prop} {P : ω → Prop}
    (hstep : ∀ {s t o a s'}, P o → R s t → step s o = some (a, s') →
      ∃ t', astep t o a t' ∧ R s' t')
    {os : List ω} {s s' : σ} {as : List α} {t : τ} (hP : ∀ o ∈ os, P o) (hR : R s t)
    (h : run step os s = some (as, s')) : ∃ t', Trace astep os as t t' ∧ R s' t' := by
  induction os generalizing s t as with
  | nil =>
      obtain ⟨rfl, rfl⟩ := Prod.mk.inj (Option.some.inj h)
      exact ⟨t, .nil t, hR⟩
  | cons o os ih =>
      obtain ⟨a, s₁, bs, hst, hrun, rfl⟩ := run_cons_eq_some.1 h
      obtain ⟨t₁, hat, hR₁⟩ := hstep (hP o List.mem_cons_self) hR hst
      obtain ⟨t', htrace, hR'⟩ := ih (fun o ho => hP o (List.mem_cons_of_mem _ ho)) hR₁ hrun
      exact ⟨t', .cons hat htrace, hR'⟩

end StepSystem
