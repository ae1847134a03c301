/-
A sequence with a cursor.

The abstract machine behind a seekable stream: a finite sequence of elements, a cursor that never
leaves it, and a flag that says whether the stream owns any storage at all.  Nothing here knows
how the sequence is stored.

Main definitions:

* `FlatStream` — the state, with the bound on the cursor as a field;
* `FlatStream.write`, `FlatStream.read`, `FlatStream.seek` — the operations;
* `FlatStream.rest` — what is left to read.

Main results:

* `FlatStream.content_write_of_atEnd` — writing at the end appends;
* `FlatStream.rest_read` — **what a read leaves**.
-/

import CodePort.BlockList

set_option relaxedAutoImplicit false
set_option autoImplicit false

open BlockList

/-- A sequence with a cursor.  A stream that owns no storage is empty. -/
@[ext] structure FlatStream (α : Type*) where
  /-- The elements of the stream. -/
  content : List α
  /-- The cursor. -/
  pos : ℕ
  /-- The stream owns storage. -/
  backed : Bool
  /-- The cursor never leaves the stream. -/
  pos_le : pos ≤ content.length
  /-- A stream without storage is empty. -/
  content_of_not_backed : backed = false → content = []

namespace FlatStream

variable {α : Type*}

/-- The empty stream; `backed` says whether it owns storage. -/
def empty (backed : Bool) : FlatStream α := ⟨[], 0, backed, le_rfl, fun _ => rfl⟩

@[simp] theorem content_empty (b : Bool) : (empty b : FlatStream α).content = [] := rfl
@[simp] theorem pos_empty (b : Bool) : (empty b : FlatStream α).pos = 0 := rfl
@[simp] theorem backed_empty (b : Bool) : (empty b : FlatStream α).backed = b := rfl

/-- Overwrite at the cursor, lengthening the stream when the data run past its end.  Writing
nothing does nothing. -/
def write (f : FlatStream α) (d : List α) : FlatStream α :=
  if d.length = 0 then f
  else
    { content := overwrite f.content f.pos d
      pos := f.pos + d.length
      backed := true
      pos_le := by rw [length_overwrite f.pos_le]; exact le_max_right _ _
      content_of_not_backed := by simp }

/-- What is left to read. -/
def rest (f : FlatStream α) : List α := f.content.drop f.pos

/-- Read the next `n` elements, or as many as there are. -/
def read (f : FlatStream α) (n : ℕ) : List α × FlatStream α :=
  (f.rest.take n,
    { f with
      pos := f.pos + min n (f.content.length - f.pos)
      pos_le := by have := f.pos_le; omega })

/-- Move to `p` when that is in the stream and to the end when it is not.  A stream without
storage does not move. -/
def seek (f : FlatStream α) (p : ℕ) : Bool × FlatStream α :=
  if f.backed then
    (decide (p ≤ f.content.length),
      { f with pos := min p f.content.length, pos_le := min_le_right _ _ })
  else (false, f)

/-- Something is left to read. -/
def readable (f : FlatStream α) : Bool := decide (f.pos < f.content.length)

/-- The cursor is at the end. -/
def AtEnd (f : FlatStream α) : Prop := f.pos = f.content.length

/-! ### Writing -/

@[simp] theorem write_nil (f : FlatStream α) : f.write [] = f := by simp [write]

theorem write_of_ne_nil (f : FlatStream α) {d : List α} (hd : d ≠ []) :
    (f.write d).content = overwrite f.content f.pos d ∧ (f.write d).pos = f.pos + d.length ∧
      (f.write d).backed = true := by
  have hlen : d.length ≠ 0 := by simpa using hd
  simp [write, hlen]

theorem pos_write (f : FlatStream α) (d : List α) : (f.write d).pos = f.pos + d.length := by
  rw [write]
  split_ifs with h
  · simp [h]
  · rfl

theorem content_write (f : FlatStream α) (d : List α) :
    (f.write d).content = overwrite f.content f.pos d := by
  rw [write]
  split_ifs with h
  · rw [List.length_eq_zero_iff.1 h, overwrite_nil]
  · rfl

/-- **Writing at the end appends.** -/
theorem content_write_of_atEnd {f : FlatStream α} (h : f.AtEnd) (d : List α) :
    (f.write d).content = f.content ++ d := by
  rw [content_write, overwrite, h, List.take_length, List.drop_eq_nil_of_le (by omega),
    List.append_nil]

theorem atEnd_write {f : FlatStream α} (h : f.AtEnd) (d : List α) : (f.write d).AtEnd := by
  rw [AtEnd, pos_write, content_write_of_atEnd h, List.length_append, h]

/-! ### Reading -/

theorem rest_read (f : FlatStream α) (n : ℕ) : (f.read n).2.rest = f.rest.drop n := by
  simp only [rest, read, List.drop_drop]
  rcases Nat.le_total n (f.content.length - f.pos) with h | h
  · rw [min_eq_left h]
  · have := f.pos_le
    rw [List.drop_eq_nil_of_le (by omega), List.drop_eq_nil_of_le (by omega)]

@[simp] theorem content_read (f : FlatStream α) (n : ℕ) : (f.read n).2.content = f.content := rfl

theorem length_rest (f : FlatStream α) : f.rest.length = f.content.length - f.pos := by
  simp [rest]

/-! ### Seeking -/

/-- Going back to the start of a stream leaves the whole stream to read. -/
theorem rest_seek_zero (f : FlatStream α) : (f.seek 0).2.rest = f.content := by
  rw [seek]
  split_ifs with h
  · simp [rest]
  · have hc := f.content_of_not_backed (by simpa using h)
    simp [rest, hc]

@[simp] theorem content_seek (f : FlatStream α) (p : ℕ) : (f.seek p).2.content = f.content := by
  rw [seek]; split_ifs <;> rfl

end FlatStream
