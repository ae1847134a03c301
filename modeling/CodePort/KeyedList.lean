/-
Lists with keys.

A list of keys and values is an ordered map when no key occurs twice.  Putting a value under a key
replaces the value in place, or appends it when the key is new; one key is no name, and what is put
under it is always appended.

Main definitions:

* `KeyedList.lookup`, `put`, `remove` — the operations;
* `KeyedList.Distinct` — only the key that is no name occurs more than once;
* `KeyedList.Op`, `KeyedList.run`, `KeyedList.lastPut` — series of operations, and what was last put
  under a key.

Main results:

* `KeyedList.distinct_run` — **the names stay distinct**;
* `KeyedList.lookup_run` — **what is found under a name is what was last put there**;
* `KeyedList.forall₂_modify`, `forall₂_eraseIdx`, `forall₂_lookup` — **the operations on a list of things
  that have a key each**.
-/

import Mathlib.Data.List.Forall2

set_option relaxedAutoImplicit false
set_option autoImplicit false

namespace KeyedList

variable {κ α : Type} [DecidableEq κ]

/-! ### Operations -/

/-- The first value with the key. -/
def lookup : List (κ × α) → κ → Option α
  | [], _ => none
  | e :: l, k => if e.1 = k then some e.2 else lookup l k

/-- Put a value under a key. -/
def put (anon : κ) : List (κ × α) → κ → α → List (κ × α)
  | [], k, v => [(k, v)]
  | e :: l, k, v => if e.1 = k ∧ k ≠ anon then (k, v) :: l else e :: put anon l k v

/-- Remove the first value with the key. -/
def remove : List (κ × α) → κ → List (κ × α)
  | [], _ => []
  | e :: l, k => if e.1 = k then l else e :: remove l k

/-- Only the key that is no name occurs more than once. -/
def Distinct (anon : κ) (l : List (κ × α)) : Prop :=
  l.Pairwise fun a b => a.1 = b.1 → a.1 = anon

variable {anon k k' : κ} {v : α} {l : List (κ × α)}

theorem mem_put {e : κ × α} (h : e ∈ put anon l k v) : e ∈ l ∨ e = (k, v) := by
  induction l with
  | nil => exact .inr (List.mem_singleton.1 h)
  | cons a l ih =>
      rw [put] at h
      split_ifs at h
      · rcases List.mem_cons.1 h with rfl | h
        · exact .inr rfl
        · exact .inl (List.mem_cons_of_mem a h)
      · rcases List.mem_cons.1 h with rfl | h
        · exact .inl List.mem_cons_self
        · exact (ih h).imp_left (List.mem_cons_of_mem a)

theorem remove_sublist (l : List (κ × α)) (k : κ) : (remove l k).Sublist l := by
  induction l with
  | nil => exact List.Sublist.slnil
  | cons a l ih =>
      rw [remove]
      split_ifs
      · exact List.sublist_cons_self a l
      · exact ih.cons_cons a

theorem Distinct.put (h : Distinct anon l) (k : κ) (v : α) : Distinct anon (put anon l k v) := by
  induction l with
  | nil => exact List.pairwise_singleton _ _
  | cons a l ih =>
      obtain ⟨ha, hl⟩ := List.pairwise_cons.1 h
      rw [KeyedList.put]
      split_ifs with hk
      · -- the key stays
        exact List.pairwise_cons.2 ⟨fun b hb => hk.1 ▸ ha b hb, hl⟩
      · refine List.pairwise_cons.2 ⟨fun b hb heq => ?_, ih hl⟩
        rcases mem_put hb with hb | rfl
        · exact ha b hb heq
        · by_contra hanon
          exact hk ⟨heq, fun hk' => hanon (heq.trans hk')⟩

theorem Distinct.remove (h : Distinct anon l) (k : κ) : Distinct anon (remove l k) :=
  h.sublist (remove_sublist l k)

theorem lookup_eq_none_iff : lookup l k = none ↔ ∀ e ∈ l, e.1 ≠ k := by
  induction l with
  | nil => simp [lookup]
  | cons a l ih =>
      rw [lookup, List.forall_mem_cons, ← ih]
      by_cases ha : a.1 = k <;> simp [ha]

/-- **What has been put is found**, under a name. -/
theorem lookup_put_self (hk : k ≠ anon) : lookup (put anon l k v) k = some v := by
  induction l with
  | nil => simp [put, lookup]
  | cons a l ih =>
      rw [put]
      split_ifs with ha
      · simp [lookup]
      · rw [lookup, if_neg fun heq => ha ⟨heq, hk⟩, ih]

theorem lookup_put_of_ne (h : k' ≠ k) : lookup (put anon l k v) k' = lookup l k' := by
  induction l with
  | nil => simp [put, lookup, h.symm]
  | cons a l ih =>
      rw [put]
      split_ifs with ha
      · rw [lookup, lookup, if_neg h.symm, if_neg (ha.1 ▸ h.symm)]
      · rw [lookup, lookup, ih]

/-- **What has been removed is not found**, when it was there once. -/
theorem lookup_remove_self (h : Distinct anon l) (hk : k ≠ anon) : lookup (remove l k) k = none := by
  induction l with
  | nil => rfl
  | cons a l ih =>
      obtain ⟨ha, hl⟩ := List.pairwise_cons.1 h
      rw [remove]
      split_ifs with heq
      · refine lookup_eq_none_iff.2 fun b hb hbk => hk ?_
        rw [← heq]
        exact ha b hb (heq.trans hbk.symm)
      · rw [lookup, if_neg heq, ih hl]

theorem lookup_remove_of_ne (h : k' ≠ k) : lookup (remove l k) k' = lookup l k' := by
  induction l with
  | nil => rfl
  | cons a l ih =>
      rw [remove]
      split_ifs with heq
      · rw [lookup, if_neg (heq ▸ h.symm)]
      · rw [lookup, lookup, ih]

/-! ### Series of operations -/

/-- An operation on a list with keys. -/
inductive Op (κ α : Type)
  | put (k : κ) (v : α)
  | remove (k : κ)
  | clear
  | skip

/-- What an operation does. -/
def step (anon : κ) (l : List (κ × α)) : Op κ α → List (κ × α)
  | .put k v => put anon l k v
  | .remove k => remove l k
  | .clear => []
  | .skip => l

/-- What a series of operations makes of an empty list. -/
def run (anon : κ) (ops : List (Op κ α)) : List (κ × α) := ops.foldl (step anon) []

/-- What an operation leaves under a key. -/
def Op.leaves (k : κ) (last : Option α) : Op κ α → Option α
  | .put k' v => if k' = k then some v else last
  | .remove k' => if k' = k then none else last
  | .clear => none
  | .skip => last

/-- What was last put under a key, if it has not been removed since. -/
def lastPut (ops : List (Op κ α)) (k : κ) : Option α := ops.foldl (Op.leaves k) none

theorem distinct_step (h : Distinct anon l) (o : Op κ α) : Distinct anon (step anon l o) := by
  cases o with
  | put k v => exact h.put k v
  | remove k => exact h.remove k
  | clear => exact List.Pairwise.nil
  | skip => exact h

/-- **The names stay distinct.** -/
theorem distinct_run (anon : κ) (ops : List (Op κ α)) : Distinct anon (run anon ops) :=
  List.foldlRecOn ops (step anon) List.Pairwise.nil fun _ h o _ => distinct_step h o

theorem lookup_step (h : Distinct anon l) (hk : k ≠ anon) (o : Op κ α) :
    lookup (step anon l o) k = o.leaves k (lookup l k) := by
  cases o with
  | put k' v =>
      rw [step, Op.leaves]
      split_ifs with heq
      · subst heq
        exact lookup_put_self hk
      · exact lookup_put_of_ne (Ne.symm heq)
  | remove k' =>
      rw [step, Op.leaves]
      split_ifs with heq
      · subst heq
        exact lookup_remove_self h hk
      · exact lookup_remove_of_ne (Ne.symm heq)
  | clear => rfl
  | skip => rfl

/-- **What is found under a name is what was last put there.** -/
theorem lookup_run (hk : k ≠ anon) (ops : List (Op κ α)) :
    lookup (run anon ops) k = lastPut ops k := by
  have hstep : ∀ (ops : List (Op κ α)) (l : List (κ × α)), Distinct anon l →
      lookup (ops.foldl (step anon) l) k = ops.foldl (Op.leaves k) (lookup l k) := by
    intro ops
    induction ops with
    | nil =>
        intro l _
        rfl
    | cons o ops ih =>
        intro l h
        rw [List.foldl_cons, List.foldl_cons, ih _ (distinct_step h o), lookup_step h hk o]
  exact hstep ops [] List.Pairwise.nil

/-! ### Things with a key -/

variable {β : Type} {key : β → κ} {R : β → κ × α → Prop} {xs : List β} {es : List (κ × α)}

theorem findIdx?_eq_none_iff (hkey : ∀ x e, R x e → key x = e.1) (h : List.Forall₂ R xs es) :
    (xs.findIdx? fun x => key x = k) = none ↔ ∀ e ∈ es, e.1 ≠ k := by
  induction h with
  | nil => simp
  | @cons x e xs es hx _ ih =>
      rw [List.findIdx?_cons, List.forall_mem_cons, ← ih, ← hkey x e hx]
      by_cases hk : key x = k <;> simp [hk]

theorem put_of_absent (h : (∀ e ∈ es, e.1 ≠ k) ∨ k = anon) : put anon es k v = es ++ [(k, v)] := by
  induction es with
  | nil => rfl
  | cons e es ih =>
      have hne : ¬ (e.1 = k ∧ k ≠ anon) := by
        rintro ⟨heq, hanon⟩
        exact h.elim (fun h => h e List.mem_cons_self heq) hanon
      rw [put, if_neg hne, List.cons_append, ih (h.imp_left fun h x hx => h x (List.mem_cons_of_mem e hx))]

theorem remove_of_absent (h : ∀ e ∈ es, e.1 ≠ k) : remove es k = es := by
  induction es with
  | nil => rfl
  | cons e es ih =>
      obtain ⟨he, hes⟩ := List.forall_mem_cons.1 h
      rw [remove, if_neg he, ih hes]

omit [DecidableEq κ] in
/-- Related things have the same keys. -/
theorem map_key_eq (hkey : ∀ x e, R x e → key x = e.1) (h : List.Forall₂ R xs es) :
    xs.map key = es.map Prod.fst := by
  induction h with
  | nil => rfl
  | cons hx _ ih => rw [List.map_cons, List.map_cons, hkey _ _ hx, ih]

omit [DecidableEq κ] in
theorem forall₂_distinct (hkey : ∀ x e, R x e → key x = e.1) (h : List.Forall₂ R xs es)
    (hes : Distinct anon es) : xs.Pairwise fun x y => key x = key y → key x = anon := by
  have hkeys : (es.map Prod.fst).Pairwise fun a b => a = b → a = anon := List.pairwise_map.2 hes
  rw [← map_key_eq hkey h] at hkeys
  exact List.pairwise_map.1 hkeys

omit [DecidableEq κ] in
theorem exists_of_mem (h : List.Forall₂ R xs es) {x : β} (hx : x ∈ xs) : ∃ e ∈ es, R x e := by
  induction h with
  | nil => exact absurd hx List.not_mem_nil
  | @cons y e xs es hy _ ih =>
      rcases List.mem_cons.1 hx with rfl | hx
      · exact ⟨e, List.mem_cons_self, hy⟩
      · obtain ⟨e', he', hR⟩ := ih hx
        exact ⟨e', List.mem_cons_of_mem e he', hR⟩

/-- Appending a thing puts it under its key, when the key is new or no name. -/
theorem forall₂_append {c : β} (hc : R c (k, v)) (hput : (∀ e ∈ es, e.1 ≠ k) ∨ k = anon)
    (h : List.Forall₂ R xs es) : List.Forall₂ R (xs ++ [c]) (put anon es k v) := by
  rw [put_of_absent hput]
  exact List.rel_append h (.cons hc .nil)

/-- **Changing the first thing with the key** puts the new one in its place. -/
theorem forall₂_modify (hkey : ∀ x e, R x e → key x = e.1) {f : β → β}
    (hf : ∀ x ∈ xs, ∀ w, R x (k, w) → R (f x) (k, v)) (hk : k ≠ anon) (h : List.Forall₂ R xs es) :
    ∀ {i : ℕ}, (xs.findIdx? fun x => key x = k) = some i →
      List.Forall₂ R (xs.modify i f) (put anon es k v) := by
  induction h with
  | nil => simp
  | @cons x e xs es hx hxs ih =>
      intro i hi
      rw [List.findIdx?_cons] at hi
      rw [put]
      by_cases hxk : key x = k
      · have hek : e.1 = k := (hkey x e hx).symm.trans hxk
        rw [decide_eq_true hxk, if_pos rfl, Option.some_inj] at hi
        rw [← hi, if_pos ⟨hek, hk⟩]
        refine .cons (hf x List.mem_cons_self e.2 ?_) hxs
        rw [← hek]
        exact hx
      · have hek : e.1 ≠ k := fun hek => hxk ((hkey x e hx).trans hek)
        rw [decide_eq_false hxk, if_neg Bool.false_ne_true, Option.map_eq_some_iff] at hi
        obtain ⟨j, hj, rfl⟩ := hi
        rw [if_neg fun hc => hek hc.1]
        exact .cons hx (ih (fun y hy => hf y (List.mem_cons_of_mem x hy)) hj)

/-- **Erasing the first thing with the key** removes it. -/
theorem forall₂_eraseIdx (hkey : ∀ x e, R x e → key x = e.1) (h : List.Forall₂ R xs es) :
    ∀ {i : ℕ}, (xs.findIdx? fun x => key x = k) = some i →
      List.Forall₂ R (xs.eraseIdx i) (remove es k) := by
  induction h with
  | nil => simp
  | @cons x e xs es hx hxs ih =>
      intro i hi
      rw [List.findIdx?_cons] at hi
      rw [remove]
      by_cases hxk : key x = k
      · rw [decide_eq_true hxk, if_pos rfl, Option.some_inj] at hi
        rw [← hi, if_pos ((hkey x e hx).symm.trans hxk)]
        exact hxs
      · rw [decide_eq_false hxk, if_neg Bool.false_ne_true, Option.map_eq_some_iff] at hi
        obtain ⟨j, hj, rfl⟩ := hi
        rw [if_neg fun hek => hxk ((hkey x e hx).trans hek)]
        exact .cons hx (ih hj)

/-- **The first thing with the key** is the one whose value is found. -/
theorem forall₂_lookup (hkey : ∀ x e, R x e → key x = e.1) (h : List.Forall₂ R xs es)
    (hv : lookup es k = some v) :
    ∃ i x, (xs.findIdx? fun x => key x = k) = some i ∧ xs[i]? = some x ∧ R x (k, v) := by
  induction h with
  | nil => exact absurd hv (by simp [lookup])
  | @cons x e xs es hx _ ih =>
      rw [lookup] at hv
      rw [List.findIdx?_cons]
      by_cases hek : e.1 = k
      · rw [if_pos hek] at hv
        obtain rfl := Option.some.inj hv
        refine ⟨0, x, ?_, rfl, hek ▸ hx⟩
        rw [decide_eq_true ((hkey x e hx).trans hek)]
        rfl
      · rw [if_neg hek] at hv
        obtain ⟨i, y, hi, hy, hR⟩ := ih hv
        refine ⟨i + 1, y, ?_, hy, hR⟩
        rw [decide_eq_false fun hxk => hek ((hkey x e hx).symm.trans hxk), hi]
        rfl

end KeyedList
