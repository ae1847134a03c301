/-
Parsers that look at a prefix only.

A parser takes elements off the front of a list.  If what it does depends on the elements that it takes
only, then it does the same whatever follows them; so a parser that has taken a whole list has not
succeeded on any shorter part of it.

Main definitions:

* `PrefixParser.Parser` — parsers, with `ret`, `fail`, `andThen`, `next`, `take`;
* `PrefixParser.Local` — a parser looks at what it takes only;
* `PrefixParser.elements` — what a parser finds until it says that it is done, or fails.

Main results:

* `PrefixParser.Local.andThen` — parsers of this kind compose;
* `PrefixParser.Local.elements_append` — what is found does not depend on what follows;
* `PrefixParser.Local.truncated` — **a strict prefix of a list that is taken as a whole fails**.
-/

import Mathlib.Data.List.Basic

set_option relaxedAutoImplicit false
set_option autoImplicit false

namespace PrefixParser

/-- A parser takes elements off the front of a list, or fails. -/
abbrev Parser (τ α : Type) := List τ → Option (α × List τ)

variable {τ α δ ε : Type}

/-- Take nothing. -/
def ret (a : α) : Parser τ α := fun r => some (a, r)

def fail : Parser τ α := fun _ => none

/-- One parser after another. -/
def andThen (p : Parser τ α) (f : α → Parser τ δ) : Parser τ δ := fun r =>
  (p r).bind fun q => f q.1 q.2

/-- Take an element. -/
def next : Parser τ τ
  | [] => none
  | a :: r => some (a, r)

/-- Take `n` elements. -/
def take (n : ℕ) : Parser τ (List τ) := fun r =>
  if n ≤ r.length then some (r.take n, r.drop n) else none

/-- The parser looks at what it takes only. -/
def Local (p : Parser τ α) : Prop :=
  ∀ ⦃r a r'⦄, p r = some (a, r') → ∃ d, r = d ++ r' ∧ ∀ q, p (d ++ q) = some (a, q)

/-- The parser takes at least one element. -/
def Takes (p : Parser τ α) : Prop := ∀ ⦃r a r'⦄, p r = some (a, r') → r'.length < r.length

/-! ### Composition -/

theorem andThen_eq_some {p : Parser τ α} {f : α → Parser τ δ} {r r' : List τ} {b : δ} :
    andThen p f r = some (b, r') ↔ ∃ a t, p r = some (a, t) ∧ f a t = some (b, r') := by
  rw [andThen, Option.bind_eq_some_iff]
  constructor
  · rintro ⟨⟨a, t⟩, hp, hf⟩
    exact ⟨a, t, hp, hf⟩
  · rintro ⟨a, t, hp, hf⟩
    exact ⟨(a, t), hp, hf⟩

theorem local_ret (a : α) : Local (ret a : Parser τ α) := by
  intro r b r' h
  obtain ⟨rfl, rfl⟩ := Prod.mk.inj (Option.some.inj h)
  exact ⟨[], rfl, fun _ => rfl⟩

theorem local_fail : Local (fail : Parser τ α) := by
  intro r a r' h
  cases h

theorem local_next : Local (next : Parser τ τ) := by
  intro r a r' h
  cases r with
  | nil => cases h
  | cons x r =>
      obtain ⟨rfl, rfl⟩ := Prod.mk.inj (Option.some.inj h)
      exact ⟨[x], rfl, fun _ => rfl⟩

theorem take_append (d r : List τ) : take d.length (d ++ r) = some (d, r) := by
  rw [take, if_pos (by rw [List.length_append]; exact Nat.le_add_right _ _), List.take_left,
    List.drop_left]

theorem local_take (n : ℕ) : Local (take n : Parser τ (List τ)) := by
  intro r a r' h
  rw [take] at h
  by_cases hn : n ≤ r.length
  · rw [if_pos hn] at h
    obtain ⟨rfl, rfl⟩ := Prod.mk.inj (Option.some.inj h)
    refine ⟨r.take n, (List.take_append_drop n r).symm, fun q => ?_⟩
    have htake := take_append (r.take n) q
    rwa [List.length_take_of_le hn] at htake
  · rw [if_neg hn] at h
    cases h

/-- **Parsers that look at a prefix only compose.** -/
theorem Local.andThen {p : Parser τ α} {f : α → Parser τ δ} (hp : Local p)
    (hf : ∀ a, Local (f a)) : Local (andThen p f) := by
  intro r b r' h
  obtain ⟨a, t, hpr, hfr⟩ := andThen_eq_some.1 h
  obtain ⟨d, rfl, hd⟩ := hp hpr
  obtain ⟨e, rfl, he⟩ := hf a hfr
  refine ⟨d ++ e, (List.append_assoc d e r').symm, fun q => andThen_eq_some.2 ⟨a, e ++ q, ?_, he q⟩⟩
  rw [List.append_assoc]
  exact hd (e ++ q)

theorem takes_next : Takes (next : Parser τ τ) := by
  intro r a r' h
  cases r with
  | nil => cases h
  | cons x r =>
      obtain ⟨rfl, rfl⟩ := Prod.mk.inj (Option.some.inj h)
      exact Nat.lt_succ_self _

theorem Local.length_le {p : Parser τ α} (hp : Local p) {r r' : List τ} {a : α}
    (h : p r = some (a, r')) : r'.length ≤ r.length := by
  obtain ⟨d, rfl, -⟩ := hp h
  rw [List.length_append]
  exact Nat.le_add_left _ _

theorem Takes.andThen {p : Parser τ α} {f : α → Parser τ δ} (hp : Takes p)
    (hf : ∀ a, Local (f a)) : Takes (andThen p f) := by
  intro r b r' h
  obtain ⟨a, t, hpr, hfr⟩ := andThen_eq_some.1 h
  exact Nat.lt_of_le_of_lt ((hf a).length_le hfr) (hp hpr)

/-- What follows stays where it is. -/
theorem Local.append {p : Parser τ α} (hp : Local p) {r r' : List τ} {a : α}
    (h : p r = some (a, r')) (q : List τ) : p (r ++ q) = some (a, r' ++ q) := by
  obtain ⟨d, rfl, hd⟩ := hp h
  rw [List.append_assoc]
  exact hd (r' ++ q)

/-! ### Sequences -/

/-- Run a parser of optional elements, up to `n` times, until it says that it is done: the elements,
and what is left behind the end, if there is one. -/
def scan (p : Parser τ (Option ε)) : ℕ → List τ → List ε × Option (List τ)
  | 0, _ => ([], none)
  | n + 1, r =>
      match p r with
      | none => ([], none)
      | some (none, r') => ([], some r')
      | some (some e, r') => (e :: (scan p n r').1, (scan p n r').2)

/-- Run a parser of optional elements until it says that it is done, or fails. -/
def elements (p : Parser τ (Option ε)) (r : List τ) : List ε × Option (List τ) :=
  scan p (r.length + 1) r

/-- As the parser takes something every time, enough times are as good as any more. -/
theorem Takes.scan_eq {p : Parser τ (Option ε)} (hp : Takes p) {n : ℕ} {r : List τ}
    (hn : r.length < n) : scan p n r = elements p r := by
  induction n using Nat.strongRecOn generalizing r with
  | ind n ih =>
      obtain ⟨k, rfl⟩ := Nat.exists_eq_succ_of_ne_zero (Nat.ne_of_gt (Nat.zero_lt_of_lt hn))
      rw [elements, scan, scan]
      rcases hpr : p r with _ | ⟨_ | e, r'⟩
      · rfl
      · rfl
      · have hlt := hp hpr
        have hk : scan p k r' = elements p r' := ih k (Nat.lt_succ_self k) (by omega)
        have hr : scan p r.length r' = elements p r' := ih r.length hn (by omega)
        simp only [hk, hr]

/-- One element, then the others. -/
theorem Takes.elements_eq {p : Parser τ (Option ε)} (hp : Takes p) (r : List τ) :
    elements p r = match p r with
      | none => ([], none)
      | some (none, r') => ([], some r')
      | some (some e, r') => (e :: (elements p r').1, (elements p r').2) := by
  rw [elements, scan]
  rcases hpr : p r with _ | ⟨_ | e, r'⟩
  · rfl
  · rfl
  · have hscan : scan p r.length r' = elements p r' := hp.scan_eq (hp hpr)
    simp only [hscan]

/-- **What is found does not depend on what follows.** -/
theorem Local.elements_append {p : Parser τ (Option ε)} (hp : Local p) (htakes : Takes p)
    {r rest : List τ} (h : (elements p r).2 = some rest) (q : List τ) :
    elements p (r ++ q) = ((elements p r).1, some (rest ++ q)) := by
  induction hn : r.length using Nat.strongRecOn generalizing r with
  | ind n ih =>
      rw [htakes.elements_eq r] at h ⊢
      rw [htakes.elements_eq (r ++ q)]
      rcases hpr : p r with _ | ⟨_ | e, r'⟩
      · rw [hpr] at h
        cases h
      · rw [hpr] at h
        obtain rfl := Option.some.inj h
        rw [hp.append hpr q]
      · rw [hpr] at h
        have hlt := htakes hpr
        rw [hp.append hpr q]
        simp only [ih r'.length (by omega) h rfl]

/-- **A strict prefix of a list that is taken as a whole fails.** -/
theorem Local.truncated {p : Parser τ (Option ε)} (hp : Local p) (htakes : Takes p) {r q : List τ}
    (h : (elements p (r ++ q)).2 = some []) (hq : q ≠ []) : (elements p r).2 = none := by
  rcases hr : (elements p r).2 with _ | rest
  · rfl
  · rw [hp.elements_append htakes hr q] at h
    exact absurd (List.append_eq_nil_iff.1 (Option.some.inj h)).2 hq

end PrefixParser
