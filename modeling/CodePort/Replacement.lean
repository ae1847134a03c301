/-
Replacing one word by another.

A word `old` is replaced by a word `new` that does not contain it, over and over, each time at the first
place where it occurs.  The text around a replacement can make a new occurrence together with the end or
the beginning of `new`, so this need not end.  It ends as soon as only finitely many replacements make
one, and there are conditions on the two words under which it always ends, wherever one replaces.

Main definitions:

* `Replacement.find` — the first occurrence of a word;
* `Replacement.replaceFirst`, `afterSteps` — one replacement, and a number of them;
* `Replacement.Replaces` — a replacement anywhere;
* `Replacement.Straddles` — a replacement that makes an occurrence at the edge of the new word;
* `Replacement.Harmless` — the conditions on the two words.

Main results:

* `Replacement.stops_iff` — **the replacements end if and only if only finitely many straddle**;
* `Replacement.acc_of_harmless` — **harmless words are replaced finitely often**.
-/

import Mathlib.Data.List.Basic
import Mathlib.Data.List.Infix
import Mathlib.Order.WellFounded
import Mathlib.Tactic.Ring

set_option relaxedAutoImplicit false
set_option autoImplicit false

namespace Replacement

variable {α : Type} [DecidableEq α]

/-! ### The first occurrence -/

/-- The position of the first occurrence of a word. -/
def find (l word : List α) : Option ℕ := (l.dropInfix? word).map fun r => r.1.length

theorem find_eq_some_iff {l word : List α} {n : ℕ} :
    find l word = some n ↔ (∃ x y, l = x ++ word ++ y ∧ x.length = n) ∧
      ∀ x y, l = x ++ word ++ y → n ≤ x.length := by
  simp only [find, Option.map_eq_some_iff, Prod.exists, List.dropInfix?_eq_some_iff, beq_iff_eq]
  constructor
  · rintro ⟨x, y, ⟨⟨_, hl, rfl⟩, hfirst⟩, rfl⟩
    exact ⟨⟨x, y, hl, rfl⟩, fun x' y' hl' => hfirst x' _ y' hl' rfl⟩
  · rintro ⟨⟨x, y, hl, rfl⟩, hfirst⟩
    exact ⟨x, y, ⟨⟨word, hl, rfl⟩, fun x' w y' hl' hw => hfirst x' y' (hw ▸ hl')⟩, rfl⟩

/-- A word that occurs is found. -/
theorem find_eq_none_iff {l word : List α} : find l word = none ↔ ¬ word <:+: l := by
  constructor
  · rintro hnone ⟨x, y, hl⟩
    -- the occurrence with the fewest letters in front of it
    let P := fun n => ∃ x y, l = x ++ word ++ y ∧ x.length = n
    have hP : ∃ n, P n := ⟨x.length, x, y, hl.symm, rfl⟩
    classical
    have hsome : find l word = some (Nat.find hP) :=
      find_eq_some_iff.2 ⟨Nat.find_spec hP, fun x' y' hl' => Nat.find_min' hP ⟨x', y', hl', rfl⟩⟩
    rw [hnone] at hsome
    exact absurd hsome (by simp)
  · intro hno
    by_contra hne
    obtain ⟨n, hn⟩ := Option.ne_none_iff_exists'.1 hne
    obtain ⟨x, y, hl, -⟩ := (find_eq_some_iff.1 hn).1
    exact hno ⟨x, y, hl.symm⟩

/-- The text around the first occurrence. -/
theorem find_split {l word : List α} {n : ℕ} (h : find l word = some n) :
    l = l.take n ++ word ++ l.drop (n + word.length) := by
  obtain ⟨x, y, hl, hn⟩ := (find_eq_some_iff.1 h).1
  have htake : l.take n = x := by
    rw [hl, ← hn, List.append_assoc, List.take_left]
  have hdrop : l.drop (n + word.length) = y := by
    rw [hl, ← hn, ← List.length_append, List.drop_left]
  rw [htake, hdrop]
  exact hl

theorem find_lt {l word : List α} {n : ℕ} (h : find l word = some n) :
    n + word.length ≤ l.length := by
  obtain ⟨x, y, hl, hn⟩ := (find_eq_some_iff.1 h).1
  rw [hl, List.length_append, List.length_append]
  omega

/-- The word does not occur in the text in front of its first occurrence. -/
theorem not_infix_take {l word : List α} {n : ℕ} (hword : word ≠ []) (h : find l word = some n) :
    ¬ word <:+: l.take n := by
  rintro ⟨x, y, hx⟩
  have hle := find_lt h
  have hfirst := (find_eq_some_iff.1 h).2 x (y ++ l.drop n) (by
    rw [← List.append_assoc, hx, List.take_append_drop])
  have hlen := congrArg List.length hx
  have hpos := List.length_pos_iff.2 hword
  rw [List.length_append, List.length_append, List.length_take] at hlen
  omega

/-! ### Replacements -/

variable (old new : List α)

/-- Replace the first occurrence. -/
def replaceFirst (l : List α) : Option (List α) :=
  (find l old).map fun n => l.take n ++ new ++ l.drop (n + old.length)

/-- The text after a number of replacements; there is none behind the last one. -/
def afterSteps (l : List α) : ℕ → Option (List α)
  | 0 => some l
  | k + 1 => (afterSteps l k).bind (replaceFirst old new)

/-- A replacement at some place. -/
inductive Replaces : List α → List α → Prop
  | at (x y : List α) : Replaces (x ++ old ++ y) (x ++ new ++ y)

/-- A replacement that makes an occurrence at the edge of the new word. -/
def Straddles (l : List α) : Prop :=
  ∃ n x y, find l old = some n ∧ l.take n ++ new ++ l.drop (n + old.length) = x ++ old ++ y ∧
    x.length < n + new.length ∧ n < x.length + old.length

/-- The conditions on two words under which the replacements end, wherever one replaces: some letter gets
rarer, or the length stays the same, or the words do not overlap at one of their ends. -/
def Harmless : Prop :=
  (∃ c, new.count c < old.count c) ∨ new.length = old.length ∨
    (∀ w, w ≠ [] → w <:+ new → ¬ w <+: old) ∨ ∀ w, w ≠ [] → w <+: new → ¬ w <:+ old

variable {old new}

theorem replaces_of_replaceFirst {l l' : List α} (h : replaceFirst old new l = some l') :
    Replaces old new l l' := by
  obtain ⟨n, hn, rfl⟩ := Option.map_eq_some_iff.1 h
  conv_lhs => rw [find_split hn]
  exact .at _ _

/-- The first occurrence is replaced. -/
theorem replaceFirst_of_find {x y : List α} (h : find (x ++ old ++ y) old = some x.length) :
    replaceFirst old new (x ++ old ++ y) = some (x ++ new ++ y) := by
  rw [replaceFirst, h, Option.map_some, ← List.length_append, List.drop_left, List.append_assoc x old,
    List.take_left]

theorem replaceFirst_eq_none_iff {l : List α} : replaceFirst old new l = none ↔ ¬ old <:+: l := by
  rw [replaceFirst, Option.map_eq_none_iff, find_eq_none_iff]

omit [DecidableEq α] in
/-- A word that is not contained in another is not empty. -/
theorem ne_nil_of_not_contained (h : ¬ old <:+: new) : old ≠ [] := by
  rintro rfl
  exact h (List.nil_infix)

/-! ### Replacements that do not straddle -/

/-- **A replacement that does not straddle leaves less text behind the next occurrence.** -/
theorem length_drop_lt {l l' : List α} {n n' : ℕ} (hold : old ≠ []) (hn : find l old = some n)
    (hl' : l' = l.take n ++ new ++ l.drop (n + old.length)) (hn' : find l' old = some n')
    (hclean : ¬ Straddles old new l) :
    (l'.drop (n' + old.length)).length < (l.drop (n + old.length)).length := by
  have hle := find_lt hn
  have hpos := List.length_pos_iff.2 hold
  have htake : (l.take n).length = n := by
    rw [List.length_take]
    omega
  obtain ⟨x, y, hxy, hx⟩ := (find_eq_some_iff.1 hn').1
  -- the next occurrence does not lie across the new word
  have hside : n + new.length ≤ x.length ∨ x.length + old.length ≤ n := by
    by_contra hno
    exact hclean ⟨n, x, y, hn, hl' ▸ hxy, by omega, by omega⟩
  rcases hside with hright | hleft
  · have hlen := congrArg List.length hl'
    have hle' := find_lt hn'
    simp only [List.length_append, htake] at hlen
    rw [List.length_drop]
    omega
  · -- nor in front of it
    refine absurd ?_ (not_infix_take hold hn)
    have hpre : x ++ old = (l.take n).take (x ++ old).length := by
      have hcut := congrArg (List.take (x ++ old).length) (hxy.symm.trans hl')
      rw [List.take_left, List.append_assoc, List.take_append_of_le_length (by
        rw [List.length_append, htake]
        exact hleft)] at hcut
      exact hcut
    exact ⟨x, (l.take n).drop (x ++ old).length, by
      conv_rhs => rw [← List.take_append_drop (x ++ old).length (l.take n)]
      rw [← hpre]⟩

/-- A text in which the word occurs is followed by another. -/
theorem afterSteps_succ {l m : List α} {k : ℕ} (h : afterSteps old new l k = some m) :
    afterSteps old new l (k + 1) = replaceFirst old new m := by
  rw [afterSteps, h, Option.bind_some]

theorem afterSteps_eq_none_of_le {l : List α} {k k' : ℕ} (hk : k ≤ k')
    (h : afterSteps old new l k = none) : afterSteps old new l k' = none := by
  induction k', hk using Nat.le_induction with
  | base => exact h
  | succ k' _ ih => rw [afterSteps, ih, Option.bind_none]

/-- When no replacement straddles any more, the replacements end. -/
theorem stops_of_clean {l : List α} {N : ℕ} (hold : old ≠ [])
    (hclean : ∀ k, N ≤ k → ∀ m, afterSteps old new l k = some m → ¬ Straddles old new m) :
    ∀ (bound k : ℕ) (m : List α) (n : ℕ), N ≤ k → afterSteps old new l k = some m →
      find m old = some n → (m.drop (n + old.length)).length < bound →
      ∃ k, afterSteps old new l k = none := by
  intro bound
  induction bound with
  | zero => intro k m n _ _ _ hlt; exact absurd hlt (Nat.not_lt_zero _)
  | succ bound ih =>
      intro k m n hk hm hn hlt
      have hnext : afterSteps old new l (k + 1) =
          some (m.take n ++ new ++ m.drop (n + old.length)) := by
        rw [afterSteps_succ hm, replaceFirst, hn, Option.map_some]
      cases hn' : find (m.take n ++ new ++ m.drop (n + old.length)) old with
      | none => exact ⟨k + 2, by rw [afterSteps_succ hnext, replaceFirst, hn', Option.map_none]⟩
      | some n' =>
          have hshort := length_drop_lt hold hn rfl hn' (hclean k hk m hm)
          exact ih (k + 1) _ n' (by omega) hnext hn' (by omega)

/-- **The replacements end if and only if only finitely many straddle.** -/
theorem stops_iff {l : List α} (h : ¬ old <:+: new) :
    (∃ k, afterSteps old new l k = none) ↔
      ∃ N, ∀ k, N ≤ k → ∀ m, afterSteps old new l k = some m → ¬ Straddles old new m := by
  constructor
  · rintro ⟨N, hN⟩
    refine ⟨N, fun k hk m hm => ?_⟩
    rw [afterSteps_eq_none_of_le hk hN] at hm
    exact absurd hm (by simp)
  · rintro ⟨N, hclean⟩
    cases hm : afterSteps old new l N with
    | none => exact ⟨N, hm⟩
    | some m =>
        cases hn : find m old with
        | none => exact ⟨N + 1, by rw [afterSteps_succ hm, replaceFirst, hn, Option.map_none]⟩
        | some n =>
            exact stops_of_clean (ne_nil_of_not_contained h) hclean _ N m n le_rfl hm hn (Nat.lt_succ_self _)

/-! ### Harmless words -/

omit [DecidableEq α] in
/-- Replacements that lower a number end. -/
theorem acc_of_lowers (f : List α → ℕ) (h : ∀ l l', Replaces old new l l' → f l' < f l) (l : List α) :
    Acc (fun b a => Replaces old new a b) l :=
  (Subrelation.wf (fun hrep => h _ _ hrep) (measure f).wf).apply l

/-- A letter gets rarer. -/
theorem acc_of_count {c : α} (hc : new.count c < old.count c) (l : List α) :
    Acc (fun b a => Replaces old new a b) l := by
  refine acc_of_lowers (List.count c) ?_ l
  rintro _ _ ⟨x, y⟩
  simp only [List.count_append]
  omega

/-- The places of a letter, as the ones of a binary number. -/
def places (c : α) : List α → ℕ
  | [] => 0
  | a :: l => (if a = c then 2 ^ l.length else 0) + places c l

theorem places_lt (c : α) (l : List α) : places c l < 2 ^ l.length := by
  induction l with
  | nil => exact Nat.one_pos
  | cons a l ih =>
      rw [places, List.length_cons, Nat.pow_succ]
      split_ifs <;> omega

theorem places_append (c : α) (l m : List α) :
    places c (l ++ m) = places c l * 2 ^ m.length + places c m := by
  induction l with
  | nil => rw [List.nil_append, places, Nat.zero_mul, Nat.zero_add]
  | cons a l ih =>
      rw [List.cons_append, places, places, ih, List.length_append, Nat.pow_add]
      split_ifs <;> ring

omit [DecidableEq α] in
/-- Where two words of one length differ first. -/
theorem exists_first_difference : ∀ {l m : List α}, m.length = l.length → m ≠ l →
    ∃ x c d y z, l = x ++ c :: y ∧ m = x ++ d :: z ∧ d ≠ c ∧ z.length = y.length := by
  intro l
  induction l with
  | nil =>
      intro m hlen hne
      exact absurd (List.length_eq_zero_iff.1 hlen) hne
  | cons a l ih =>
      intro m hlen hne
      obtain ⟨b, m, rfl⟩ := List.exists_cons_of_length_eq_add_one hlen
      have hlen' : m.length = l.length := Nat.succ.inj hlen
      by_cases hab : b = a
      · subst hab
        obtain ⟨x, c, d, y, z, rfl, rfl, hdc, hyz⟩ := ih hlen' fun heq => hne (by rw [heq])
        exact ⟨b :: x, c, d, y, z, rfl, rfl, hdc, hyz⟩
      · exact ⟨[], a, b, l, m, rfl, rfl, hab, hlen'⟩

/-- The length stays the same: where the words differ first, a letter moves behind. -/
theorem acc_of_length_eq (hlen : new.length = old.length) (hne : new ≠ old) (l : List α) :
    Acc (fun b a => Replaces old new a b) l := by
  obtain ⟨x, c, d, y, z, hold, hnew, hdc, hyz⟩ := exists_first_difference hlen hne
  refine acc_of_lowers (places c) ?_ l
  rintro _ _ ⟨p, q⟩
  have hlt := places_lt c z
  have hone : places c (c :: y) = 2 ^ y.length + places c y := by rw [places, if_pos rfl]
  have hzero : places c (d :: z) = places c z := by rw [places, if_neg hdc, Nat.zero_add]
  have hword : places c new < places c old := by
    rw [hold, hnew, places_append, places_append, hone, hzero, List.length_cons, List.length_cons, hyz]
    rw [hyz] at hlt
    omega
  rw [places_append, places_append, places_append c (p ++ old), places_append c p, hlen]
  have := Nat.mul_lt_mul_of_pos_right (Nat.add_lt_add_left hword (places c p * 2 ^ old.length))
    (Nat.two_pow_pos q.length)
  omega

/-! ### Words without an overlap -/

/-- A text of `k` old letters, with ends of a word between them. -/
inductive Pieces (new : List α) : ℕ → List α → Prop
  | nil : Pieces new 0 []
  | letter {k : ℕ} {l : List α} (a : α) (rest : Pieces new k l) : Pieces new (k + 1) (a :: l)
  | piece {k : ℕ} {l t : List α} (suffix : t <:+ new) (rest : Pieces new k l) : Pieces new k (t ++ l)

omit [DecidableEq α] in
theorem pieces_self (new : List α) : ∀ l : List α, Pieces new l.length l
  | [] => .nil
  | a :: l => .letter a (pieces_self new l)

omit [DecidableEq α] in
/-- What is left when the front of a text is taken off. -/
theorem Pieces.drop {k : ℕ} {l : List α} (h : Pieces new k l) :
    ∀ {x y : List α}, l = x ++ y → ∃ k', k' ≤ k ∧ Pieces new k' y := by
  induction h with
  | nil =>
      intro x y hl
      obtain ⟨-, rfl⟩ := List.append_eq_nil_iff.1 hl.symm
      exact ⟨0, le_rfl, .nil⟩
  | @letter k l a rest ih =>
      intro x y hl
      cases x with
      | nil =>
          rw [List.nil_append] at hl
          exact ⟨k + 1, le_rfl, hl ▸ .letter a rest⟩
      | cons b x =>
          obtain ⟨k', hk', hy⟩ := ih (List.cons.inj hl).2
          exact ⟨k', Nat.le_succ_of_le hk', hy⟩
  | @piece k l t suffix rest ih =>
      intro x y hl
      rcases List.append_eq_append_iff.1 hl with ⟨u, rfl, hu⟩ | ⟨u, hu, rfl⟩
      · exact ih hu
      · exact ⟨k, le_rfl, .piece ((hu ▸ List.suffix_append x u).trans suffix) rest⟩

omit [DecidableEq α] in
/-- **An occurrence begins with an old letter** when no end of the new word is a beginning of the old
one, so a replacement leaves fewer of them. -/
theorem Pieces.replace (hnew : ¬ old <:+: new) (hover : ∀ w, w ≠ [] → w <:+ new → ¬ w <+: old)
    {k : ℕ} {l : List α} (h : Pieces new k l) :
    ∀ {x y : List α}, l = x ++ (old ++ y) → ∃ k', k' < k ∧ Pieces new k' (x ++ (new ++ y)) := by
  induction h with
  | nil =>
      intro x y hl
      have hold := (List.append_eq_nil_iff.1 (List.append_eq_nil_iff.1 hl.symm).2).1
      exact absurd hold (ne_nil_of_not_contained hnew)
  | @letter k l a rest ih =>
      intro x y hl
      cases x with
      | nil =>
          obtain ⟨b, old', rfl⟩ := List.exists_cons_of_ne_nil (ne_nil_of_not_contained hnew)
          obtain ⟨k', hk', hy⟩ := rest.drop (List.cons.inj hl).2
          refine ⟨k', Nat.lt_succ_of_le hk', ?_⟩
          rw [List.nil_append]
          exact .piece (List.suffix_refl new) hy
      | cons b x =>
          obtain ⟨rfl, hl'⟩ := List.cons.inj hl
          obtain ⟨k', hk', hrest⟩ := ih hl'
          exact ⟨k' + 1, Nat.succ_lt_succ hk', .letter a hrest⟩
  | @piece k l t suffix rest ih =>
      intro x y hl
      rcases List.append_eq_append_iff.1 hl with ⟨u, rfl, hu⟩ | ⟨u, hu, hrest⟩
      · obtain ⟨k', hk', hpieces⟩ := ih hu
        exact ⟨k', hk', by rw [List.append_assoc]; exact .piece suffix hpieces⟩
      · rcases eq_or_ne u [] with rfl | hne
        · -- the occurrence begins right behind the piece
          rw [List.append_nil] at hu
          obtain ⟨k', hk', hpieces⟩ := ih (x := []) hrest.symm
          exact ⟨k', hk', hu ▸ .piece suffix hpieces⟩
        · -- it begins inside the piece, and an end of the piece is a beginning of the word
          exfalso
          have hsuffix : u <:+ new := (hu ▸ List.suffix_append x u).trans suffix
          rcases List.append_eq_append_iff.1 hrest with ⟨v, hv, -⟩ | ⟨v, hv, -⟩
          · exact hnew ((hv ▸ List.prefix_append old v).isInfix.trans hsuffix.isInfix)
          · exact hover u hne hsuffix (hv ▸ List.prefix_append u v)

omit [DecidableEq α] in
theorem acc_of_pieces (hnew : ¬ old <:+: new) (hover : ∀ w, w ≠ [] → w <:+ new → ¬ w <+: old) :
    ∀ {k : ℕ} {l : List α}, Pieces new k l → Acc (fun b a => Replaces old new a b) l := by
  intro k
  induction k using Nat.strong_induction_on with
  | _ k ih =>
      intro l h
      refine Acc.intro l fun l' hrep => ?_
      obtain ⟨x, y⟩ := hrep
      rw [List.append_assoc] at h
      obtain ⟨k', hk', h'⟩ := h.replace hnew hover rfl
      exact ih k' hk' (by rw [List.append_assoc]; exact h')

omit [DecidableEq α] in
/-- Words that do not overlap at the end of the new one. -/
theorem acc_of_no_overlap (hnew : ¬ old <:+: new) (hover : ∀ w, w ≠ [] → w <:+ new → ¬ w <+: old)
    (l : List α) : Acc (fun b a => Replaces old new a b) l :=
  acc_of_pieces hnew hover (pieces_self new l)

omit [DecidableEq α] in
theorem Replaces.reverse {l l' : List α} (h : Replaces old new l l') :
    Replaces old.reverse new.reverse l.reverse l'.reverse := by
  obtain ⟨x, y⟩ := h
  simp only [List.reverse_append, ← List.append_assoc]
  exact .at y.reverse x.reverse

omit [DecidableEq α] in
/-- Words that do not overlap at the beginning of the new one. -/
theorem acc_of_no_overlap_front (hnew : ¬ old <:+: new)
    (hover : ∀ w, w ≠ [] → w <+: new → ¬ w <:+ old) (l : List α) :
    Acc (fun b a => Replaces old new a b) l := by
  have hnew' : ¬ old.reverse <:+: new.reverse := mt List.reverse_infix.1 hnew
  have hover' : ∀ w, w ≠ [] → w <:+ new.reverse → ¬ w <+: old.reverse := by
    intro w hw hsuffix hfront
    rw [← List.reverse_reverse w] at hsuffix hfront
    exact hover w.reverse (by simpa using hw) (List.reverse_suffix.1 hsuffix)
      (List.reverse_prefix.1 hfront)
  have hacc := acc_of_no_overlap hnew' hover' l.reverse
  exact Subrelation.accessible (fun hrep => Replaces.reverse hrep)
    (InvImage.accessible List.reverse hacc)

/-- **Harmless words are replaced finitely often**, wherever one replaces. -/
theorem acc_of_harmless (hnew : ¬ old <:+: new) (h : Harmless old new) (l : List α) :
    Acc (fun b a => Replaces old new a b) l := by
  rcases h with ⟨c, hc⟩ | hlen | hover | hover
  · exact acc_of_count hc l
  · exact acc_of_length_eq hlen (fun heq => hnew (heq ▸ List.infix_rfl)) l
  · exact acc_of_no_overlap hnew hover l
  · exact acc_of_no_overlap_front hnew hover l

/-- Replacements that end anywhere end at the first places. -/
theorem stops_of_acc {l m : List α} (hacc : Acc (fun b a => Replaces old new a b) m) :
    ∀ {k : ℕ}, afterSteps old new l k = some m → ∃ k, afterSteps old new l k = none := by
  induction hacc with
  | intro m _ ih =>
      intro k hm
      cases hnext : replaceFirst old new m with
      | none => exact ⟨k + 1, (afterSteps_succ hm).trans hnext⟩
      | some m' => exact ih m' (replaces_of_replaceFirst hnext) ((afterSteps_succ hm).trans hnext)

end Replacement
