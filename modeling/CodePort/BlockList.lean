/-
Sequences cut into blocks.

A sequence kept as a list of blocks has two systems of coordinates: an element is named either by
its index in the flattened sequence or by a block number and an offset inside that block.  This
module develops the passage between the two, and the operation both are used for — overwriting a
window — over an arbitrary element type.

Main definitions:

* `BlockList.overwrite` — a list with one window replaced, lengthened when the window runs past
  the end;
* `BlockList.start` — the index at which a block starts in the flattened sequence.

Main results:

* `BlockList.overwrite_overwrite` — two adjacent windows are one window;
* `BlockList.take_overwrite` — overwriting commutes with cutting the sequence after the window;
* `BlockList.flatten_set_overwrite` — **overwriting inside one block is overwriting the flattened
  sequence**;
* `BlockList.take_drop_flatten` — reading inside one block is reading the flattened sequence.
-/

import Mathlib.Data.List.Basic
import Mathlib.Data.List.TakeDrop
import Mathlib.Tactic.Ring
import Mathlib.Tactic.Linarith

set_option relaxedAutoImplicit false
set_option autoImplicit false

namespace BlockList

variable {α : Type*}

/-! ### Overwriting a window -/

/-- The list `l` with the window that starts at `p` replaced by `d`.  A window that runs past the
end lengthens the list. -/
def overwrite (l : List α) (p : ℕ) (d : List α) : List α :=
  l.take p ++ d ++ l.drop (p + d.length)

@[simp] theorem overwrite_nil (l : List α) (p : ℕ) : overwrite l p [] = l := by
  simp [overwrite]

theorem length_overwrite {l : List α} {p : ℕ} (hp : p ≤ l.length) (d : List α) :
    (overwrite l p d).length = max l.length (p + d.length) := by
  simp only [overwrite, List.length_append, List.length_take, List.length_drop]
  omega

/-- A window inside the list keeps its length. -/
theorem length_overwrite_of_le {l : List α} {p : ℕ} {d : List α} (h : p + d.length ≤ l.length) :
    (overwrite l p d).length = l.length := by
  rw [length_overwrite (by omega)]
  omega

/-- Overwriting never shortens a list. -/
theorem le_length_overwrite (l : List α) (p : ℕ) (d : List α) :
    l.length ≤ (overwrite l p d).length := by
  simp only [overwrite, List.length_append, List.length_take, List.length_drop]
  omega

/-- Every element of an overwritten list, by its index. -/
theorem getElem?_overwrite {l : List α} {p : ℕ} (hp : p ≤ l.length) (d : List α) (i : ℕ) :
    (overwrite l p d)[i]? =
      if i < p then l[i]? else if i < p + d.length then d[i - p]? else l[i]? := by
  have hlen : (l.take p).length = p := by simp [hp]
  rw [overwrite, List.append_assoc]
  split_ifs with h₁ h₂
  · rw [List.getElem?_append_left (by omega), List.getElem?_take_of_lt h₁]
  · rw [List.getElem?_append_right (by omega), hlen, List.getElem?_append_left (by omega)]
  · rw [List.getElem?_append_right (by omega), hlen, List.getElem?_append_right (by omega),
      List.getElem?_drop]
    congr 1
    omega

/-- A window inside the first part of a list leaves the second part alone. -/
theorem overwrite_append_left {l : List α} {p : ℕ} {d : List α} (h : p + d.length ≤ l.length)
    (r : List α) : overwrite (l ++ r) p d = overwrite l p d ++ r := by
  rw [overwrite, overwrite, List.take_append_of_le_length (by omega),
    List.drop_append_of_le_length (by omega)]
  simp only [List.append_assoc]

/-- A window after the first part of a list leaves the first part alone. -/
theorem overwrite_append_right (l r : List α) (p : ℕ) (d : List α) :
    overwrite (l ++ r) (l.length + p) d = l ++ overwrite r p d := by
  simp only [overwrite, Nat.add_assoc, List.take_length_add_append, List.drop_length_add_append,
    List.append_assoc]

/-- **Two adjacent windows are one window.** -/
theorem overwrite_overwrite {l : List α} {p : ℕ} (hp : p ≤ l.length) (d e : List α) :
    overwrite (overwrite l p d) (p + d.length) e = overwrite l p (d ++ e) := by
  have hlen : p + d.length ≤ (overwrite l p d).length := by
    rw [length_overwrite hp]; omega
  refine List.ext_getElem? fun i => ?_
  rw [getElem?_overwrite hlen, getElem?_overwrite hp, getElem?_overwrite hp, List.length_append]
  rcases Nat.lt_or_ge i p with h₁ | h₁
  · rw [if_pos (by omega), if_pos h₁, if_pos h₁]
  rcases Nat.lt_or_ge i (p + d.length) with h₂ | h₂
  · rw [if_pos h₂, if_neg (by omega), if_pos h₂, if_neg (by omega), if_pos (by omega),
      List.getElem?_append_left (by omega)]
  rcases Nat.lt_or_ge i (p + (d.length + e.length)) with h₃ | h₃
  · rw [if_neg (by omega), if_pos (by omega), if_neg (by omega), if_pos h₃,
      List.getElem?_append_right (by omega)]
    congr 1
    omega
  · rw [if_neg (by omega), if_neg (by omega), if_neg (by omega), if_neg (by omega),
      if_neg (by omega), if_neg (by omega)]

/-- Windows that do not overlap can be overwritten in either order. -/
theorem overwrite_comm {l : List α} {p q : ℕ} {d e : List α} (hpq : p + d.length ≤ q)
    (hq : q ≤ l.length) :
    overwrite (overwrite l p d) q e = overwrite (overwrite l q e) p d := by
  have h₁ : q ≤ (overwrite l p d).length := hq.trans (le_length_overwrite _ _ _)
  have h₂ : p ≤ (overwrite l q e).length := le_trans (by omega) (le_length_overwrite l q e)
  refine List.ext_getElem? fun i => ?_
  rw [getElem?_overwrite h₁, getElem?_overwrite (show p ≤ l.length by omega), getElem?_overwrite h₂,
    getElem?_overwrite hq]
  split_ifs <;> first | rfl | omega

theorem getElem?_takeD (n : ℕ) (l : List α) (a : α) (i : ℕ) :
    (l.takeD n a)[i]? = if i < n then some (l[i]?.getD a) else none := by
  induction n generalizing l i with
  | zero => simp
  | succ n ih =>
      rw [List.takeD_succ]
      cases i with
      | zero => cases l <;> simp
      | succ i =>
          rw [List.getElem?_cons_succ, ih]
          cases l <;> simp

/-- Overwriting commutes with cutting the list at or after the start of the window. -/
theorem take_overwrite {l : List α} {p e : ℕ} (hp : p ≤ e) (he : e ≤ l.length) (d : List α) :
    (overwrite l p d).take (max e (p + d.length)) = overwrite (l.take e) p d := by
  have hlen : p ≤ (l.take e).length := by simp; omega
  refine List.ext_getElem? fun i => ?_
  rw [List.getElem?_take, getElem?_overwrite (by omega), getElem?_overwrite hlen,
    List.getElem?_take]
  split_ifs <;> first | rfl | omega

/-- Reading a window back. -/
theorem take_drop_overwrite {l : List α} {p : ℕ} (hp : p ≤ l.length) (d : List α) :
    ((overwrite l p d).drop p).take d.length = d := by
  have hlen : (l.take p).length = p := by simp [hp]
  rw [overwrite, List.append_assoc, List.drop_append_of_le_length (by omega),
    List.drop_eq_nil_of_le (by omega), List.nil_append, List.take_left]

/-! ### Blocks -/

/-- The index at which block `k` starts in the flattened sequence. -/
def start (bs : List (List α)) (k : ℕ) : ℕ := ((bs.map List.length).take k).sum

@[simp] theorem start_zero (bs : List (List α)) : start bs 0 = 0 := by simp [start]

theorem start_succ {bs : List (List α)} {k : ℕ} (hk : k < bs.length) :
    start bs (k + 1) = start bs k + bs[k].length := by
  have hk' : k < (bs.map List.length).length := by simpa using hk
  rw [start, List.take_add_one, List.getElem?_eq_getElem hk', List.sum_append]
  simp [start]

theorem start_length (bs : List (List α)) : start bs bs.length = bs.flatten.length := by
  simp [start, List.length_flatten, List.take_of_length_le]

theorem start_append {bs : List (List α)} {k : ℕ} (hk : k ≤ bs.length) (cs : List (List α)) :
    start (bs ++ cs) k = start bs k := by
  rw [start, start, List.map_append, List.take_append_of_le_length (by simpa using hk)]

/-- Replacing a block by one of the same length changes no length. -/
theorem map_length_set {bs : List (List α)} {k : ℕ} {b : List α} (hk : k < bs.length)
    (hb : b.length = bs[k].length) : (bs.set k b).map List.length = bs.map List.length := by
  rw [List.map_set, hb]
  refine List.ext_getElem (by simp) fun i h₁ h₂ => ?_
  rw [List.getElem_set]
  split_ifs with h
  · subst h; simp
  · rfl

theorem start_mono (bs : List (List α)) {j k : ℕ} (h : j ≤ k) : start bs j ≤ start bs k := by
  obtain ⟨m, rfl⟩ := Nat.exists_eq_add_of_le h
  rw [start, start, List.take_add, List.sum_append]
  omega

/-- An element of block `k` comes before the block after it. -/
theorem start_add_le {bs : List (List α)} {j k p : ℕ} (hj : j < bs.length) (hjk : j < k)
    (hp : p ≤ bs[j].length) : start bs j + p ≤ start bs k := by
  have h := start_mono bs (show j + 1 ≤ k by omega)
  rw [start_succ hj] at h
  omega

theorem start_add_le_length {bs : List (List α)} {k p : ℕ} (hk : k < bs.length)
    (hp : p ≤ bs[k].length) : start bs k + p ≤ bs.flatten.length := by
  rw [← start_length]
  exact start_add_le hk hk hp

theorem length_flatten_take (bs : List (List α)) (k : ℕ) :
    (bs.take k).flatten.length = start bs k := by
  rw [List.length_flatten, List.map_take, start]

/-- No block starts behind the end. -/
theorem start_le_length (bs : List (List α)) (k : ℕ) : start bs k ≤ bs.flatten.length := by
  rw [← length_flatten_take, ← List.take_append_drop k bs, List.flatten_append, List.length_append,
    List.take_append_drop]
  exact Nat.le_add_right _ _

/-- The last of some appended blocks starts behind the others. -/
theorem start_append_last (bs : List (List α)) {cs : List (List α)} (hcs : cs ≠ []) :
    start (bs ++ cs) ((bs ++ cs).length - 1) =
      start bs bs.length + cs.dropLast.flatten.length := by
  have hlen := List.length_pos_iff.2 hcs
  have hidx : (bs ++ cs).length - 1 = bs.length + (cs.length - 1) := by
    rw [List.length_append]
    omega
  have htake : (bs ++ cs).take (bs.length + (cs.length - 1)) = bs ++ cs.dropLast := by
    rw [List.take_length_add_append, List.dropLast_eq_take]
  rw [hidx, ← length_flatten_take, htake, List.flatten_append, List.length_append, start_length]

/-- The flattened sequence around block `k`. -/
theorem flatten_split {bs : List (List α)} {k : ℕ} (hk : k < bs.length) :
    bs.flatten = (bs.take k).flatten ++ (bs[k] ++ (bs.drop (k + 1)).flatten) := by
  conv_lhs => rw [← List.take_append_drop k bs, List.drop_eq_getElem_cons hk]
  rw [List.flatten_append, List.flatten_cons]

/-- **Overwriting inside one block is overwriting the flattened sequence.** -/
theorem flatten_set_overwrite {bs : List (List α)} {k p : ℕ} {d : List α} (hk : k < bs.length)
    (h : p + d.length ≤ bs[k].length) :
    (bs.set k (overwrite bs[k] p d)).flatten = overwrite bs.flatten (start bs k + p) d := by
  have hset : bs.set k (overwrite bs[k] p d) =
      bs.take k ++ overwrite bs[k] p d :: bs.drop (k + 1) := List.set_eq_take_append_cons_drop.trans
    (if_pos hk)
  rw [hset, List.flatten_append, List.flatten_cons, flatten_split hk, ← length_flatten_take,
    overwrite_append_right, overwrite_append_left h]

/-- **Reading inside one block is reading the flattened sequence.** -/
theorem take_drop_flatten {bs : List (List α)} {k p n : ℕ} (hk : k < bs.length)
    (h : p + n ≤ bs[k].length) :
    (bs[k].drop p).take n = (bs.flatten.drop (start bs k + p)).take n := by
  rw [flatten_split hk, ← length_flatten_take, List.drop_length_add_append,
    List.drop_append_of_le_length (by omega), List.take_append_of_le_length (by simp; omega)]

end BlockList
