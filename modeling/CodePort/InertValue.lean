/-
The inert value.

One variant is constructed inert, and every lookup that fails returns a reference to it, so it has to
stay as it is whatever is done to it.  The numeric setters, the assignment and `Clear` see to that,
each by itself; the setters of texts and blobs do not.

Main definitions:

* `CodePort.VariantOp.Checked` — the mutators that check the inert state;
* `CodePort.World`, `CodePort.World.step` — the two global objects and the data of a program;
* `CodePort.World.Hits` — the write of an unchecked mutator to an inert datum;
* `CodePort.World.Intact` — what a program relies on.

Main results:

* `CodePort.Variant.apply_inert` — the mutators that check leave an inert variant alone, the others
  end its being inert;
* `CodePort.inert_immutable_iff` — **the inert value stays as it is if and only if no text and no blob
  is written to it**.
-/

import CodePort.DatumOps
import CodePort.StepSystem

set_option relaxedAutoImplicit false
set_option autoImplicit false

namespace CodePort

open StepSystem

/-! ### The mutators of an inert variant -/

/-- The mutator checks the inert state. -/
def VariantOp.Checked : VariantOp → Prop
  | .strSet _ => False
  | .bufSet _ => False
  | .bufSetRaw _ => False
  | _ => True

namespace Variant

variable {le : Bool} {m : MemPools} {v : Variant}

theorem construct_inert (m : MemPools) : construct m true = inertValue := rfl

theorem numSet_of_inert (h : v.type = .inert) (w : ℕ) (type : DataType) (val : ℕ) :
    numSet le m w type v val = v := by
  rw [numSet, resizeBuffer, if_pos h]
  exact if_neg Bool.false_ne_true

theorem boolSet_of_inert (h : v.type = .inert) (val : Bool) : boolSet m v val = v := by
  rw [boolSet, resizeBuffer, if_pos h]
  exact if_neg Bool.false_ne_true

/-- **A mutator leaves an inert variant alone if it checks, and ends its being inert if it does
not.** -/
theorem apply_inert (le : Bool) (m : MemPools) (h : v.type = .inert) (op : VariantOp) :
    (op.Checked → v.apply le m op = v) ∧ (¬ op.Checked → (v.apply le m op).type ≠ .inert) := by
  cases op with
  | uint8Set val => exact ⟨fun _ => numSet_of_inert h _ _ _, fun hc => absurd trivial hc⟩
  | int8Set val => exact ⟨fun _ => numSet_of_inert h _ _ _, fun hc => absurd trivial hc⟩
  | uint16Set val => exact ⟨fun _ => numSet_of_inert h _ _ _, fun hc => absurd trivial hc⟩
  | int16Set val => exact ⟨fun _ => numSet_of_inert h _ _ _, fun hc => absurd trivial hc⟩
  | uint32Set val => exact ⟨fun _ => numSet_of_inert h _ _ _, fun hc => absurd trivial hc⟩
  | int32Set val => exact ⟨fun _ => numSet_of_inert h _ _ _, fun hc => absurd trivial hc⟩
  | uint64Set val => exact ⟨fun _ => numSet_of_inert h _ _ _, fun hc => absurd trivial hc⟩
  | int64Set val => exact ⟨fun _ => numSet_of_inert h _ _ _, fun hc => absurd trivial hc⟩
  | float32Set val => exact ⟨fun _ => numSet_of_inert h _ _ _, fun hc => absurd trivial hc⟩
  | float64Set val => exact ⟨fun _ => numSet_of_inert h _ _ _, fun hc => absurd trivial hc⟩
  | boolSet val => exact ⟨fun _ => boolSet_of_inert h val, fun hc => absurd trivial hc⟩
  | assign rhs => exact ⟨fun _ => if_pos h, fun hc => absurd trivial hc⟩
  | clear => exact ⟨fun _ => if_pos h, fun hc => absurd trivial hc⟩
  | strSet str => exact ⟨fun hc => hc.elim, fun _ => fun hc => nomatch hc⟩
  | bufSet buf => exact ⟨fun hc => hc.elim, fun _ => fun hc => nomatch hc⟩
  | bufSetRaw pBuf =>
      refine ⟨fun hc => hc.elim, fun _ hc => ?_⟩
      cases pBuf with
      | none => exact nomatch hc
      | some d => exact nomatch hc

/-- The variant is still the one that was constructed inert. -/
def StaysInert (m : MemPools) (v : Variant) : Prop :=
  v.type = .inert ∧ v.buf = (construct m true).buf

theorem staysInert_iff : StaysInert m v ↔ v = inertValue := by
  constructor
  · rintro ⟨htype, hbuf⟩
    obtain ⟨type, buf⟩ := v
    obtain rfl : type = .inert := htype
    obtain rfl : buf = Buffer.empty := hbuf
    rfl
  · rintro rfl
    exact ⟨rfl, rfl⟩

/-- One mutator: the inert value stays if and only if the mutator checks. -/
theorem staysInert_apply (h : StaysInert m v) (op : VariantOp) :
    StaysInert m (v.apply le m op) ↔ op.Checked := by
  obtain ⟨hkeep, hlose⟩ := apply_inert le m h.1 op
  constructor
  · intro hstays
    by_contra hc
    exact hlose hc hstays.1
  · intro hc
    rw [hkeep hc]
    exact h

end Variant

/-! ### A program with its two global objects -/

/-- The global objects, and the other data of a program. -/
structure World where
  /-- Global inert variant used for an invalid reference. -/
  inertValue : Variant
  /-- Global inert datum used for an invalid reference. -/
  inertDatum : Datum
  data : List Datum

/-- What a program does with data.  A reference leads to a datum of the program or, if it is `none`,
to the inert datum. -/
inductive WorldOp
  | create (name : List UInt8) (inert : Bool)
  | copy (ref : Option (ℕ × List ℕ))
  | on (ref : Option (ℕ × List ℕ)) (op : DatumOp)

namespace World

/-- The global objects as they are initialized. -/
def initial (m : MemPools) : World :=
  ⟨Variant.construct m true, Datum.construct m (ascii "-Inert-") true, []⟩

/-- The datum that a reference leads to. -/
def target (w : World) : Option (ℕ × List ℕ) → Option Datum
  | none => some w.inertDatum
  | some (i, path) => w.data[i]?.bind fun d => d.at path

/-- One operation.  There is nothing to do where a reference leads to no datum. -/
def step (le : Bool) (m : MemPools) (w : World) : WorldOp → World
  | .create name inert => { w with data := w.data ++ [Datum.construct m name inert] }
  | .copy ref => { w with data := w.data ++ ((w.target ref).map (Datum.copy m)).toList }
  | .on none op =>
      let r := w.inertDatum.apply le m w.inertValue op
      { w with inertValue := r.1, inertDatum := r.2 }
  | .on (some (i, path)) op =>
      match w.target (some (i, path)) with
      | none => w
      | some d =>
          { w with
            inertValue := (d.apply le m w.inertValue op).1
            data := w.data.modify i
              (Datum.modifyAt (fun x => (x.apply le m w.inertValue op).2) path) }

/-- A mutator that does not check is applied through the reference that an inert datum returns. -/
def Hits (w : World) : WorldOp → Prop
  | .on ref (.write _ op) => ∃ d, w.target ref = some d ∧ d.isInert = true ∧ ¬ op.Checked
  | _ => False

/-- **What a program relies on**: the inert value is what it was, so every missing attribute of every
datum reads as inert, and the name of a datum without a name is empty. -/
structure Intact (le : Bool) (m : MemPools) (w : World) : Prop where
  stays : w.inertValue.StaysInert m
  missing : ∀ (d : Datum) (type : Attrib), d.attribs type = none →
    (d.attrOr w.inertValue type).type = .inert
  nameless : ∀ d : Datum, d.attribs .name = none → d.nameOr w.inertValue le m = []

variable {le : Bool} {m : MemPools} {w : World}

/-- Everything that a program relies on follows from the inert value. -/
theorem intact_iff : w.Intact le m ↔ w.inertValue.StaysInert m := by
  refine ⟨Intact.stays, fun h => ⟨h, fun d type hmissing => ?_, fun d hmissing => ?_⟩⟩
  · rw [Datum.attrOr, hmissing, Option.getD_none]
    exact h.1
  · rw [Datum.nameOr, Datum.attrOr, hmissing, Option.getD_none, Variant.strGet, h.1]

/-- The shared variant after an operation through a reference that leads to a datum. -/
theorem inertValue_step_on {ref : Option (ℕ × List ℕ)} {d : Datum} (h : w.target ref = some d)
    (op : DatumOp) : (w.step le m (.on ref op)).inertValue = (d.apply le m w.inertValue op).1 := by
  rcases ref with _ | ⟨i, path⟩
  · obtain rfl := Option.some.inj h
    rfl
  · rw [step, h]

/-- **One operation** leaves intact what a program relies on if and only if it is no write of an
unchecked mutator to an inert datum. -/
theorem intact_step (h : w.Intact le m) (o : WorldOp) :
    (w.step le m o).Intact le m ↔ ¬ w.Hits o := by
  rw [intact_iff] at h ⊢
  cases o with
  | create name inert => exact iff_of_true h (fun hc => hc)
  | copy ref => exact iff_of_true h (fun hc => hc)
  | on ref op =>
      cases htarget : w.target ref with
      | none =>
          have hstep : w.step le m (.on ref op) = w := by
            rcases ref with _ | ⟨i, path⟩
            · exact nomatch htarget
            · rw [step, htarget]
          rw [hstep]
          refine iff_of_true h ?_
          cases op with
          | write type vop =>
              rintro ⟨d, hd, -⟩
              rw [htarget] at hd
              exact nomatch hd
          | _ => exact fun hc => hc
      | some d =>
          rw [inertValue_step_on htarget]
          cases op with
          | write type vop =>
              have hhits : w.Hits (.on ref (.write type vop)) ↔
                  d.isInert = true ∧ ¬ vop.Checked := by
                simp [Hits, htarget]
              rw [hhits, Datum.apply]
              cases hd : d.isInert with
              | false => exact iff_of_true h (by simp)
              | true =>
                  rw [if_pos rfl, Variant.staysInert_apply h]
                  simp
          | _ => exact iff_of_true h (fun hc => hc)

end World

/-! ### Whole runs -/

/-- **The inert value stays as it is if and only if no text and no blob is written to it.**  Of a
variant that is constructed inert: the sequences of mutators that leave it alone, after each of them,
are those without `StrSet` and `BufSet`.  Of the shared one: the programs that leave it alone, after
each operation, so that every missing attribute of every datum reads as inert, are those that never
write with `StrSet` or `BufSet` through the reference that an inert datum returns. -/
theorem inert_immutable_iff (le : Bool) (m : MemPools) :
    (∀ ops : List VariantOp,
      (∀ pre, pre <+: ops → ((pre.foldl (Variant.apply le m) (Variant.construct m true)).type =
          .inert ∧ (pre.foldl (Variant.apply le m) (Variant.construct m true)).buf =
          (Variant.construct m true).buf)) ↔ ∀ op ∈ ops, op.Checked) ∧
      ∀ ops : List WorldOp,
        (∀ pre, pre <+: ops → (pre.foldl (World.step le m) (World.initial m)).Intact le m) ↔
          ∀ pre o post, ops = pre ++ o :: post →
            ¬ (pre.foldl (World.step le m) (World.initial m)).Hits o := by
  have hshared : (World.initial m).Intact le m :=
    World.intact_iff.2 (Variant.staysInert_iff.2 rfl)
  refine ⟨fun ops => ?_,
    forall_prefix_iff (P := World.Intact le m) (fun w o h => World.intact_step h o) hshared⟩
  have hiff := forall_prefix_iff (f := Variant.apply le m) (P := Variant.StaysInert m)
    (H := fun _ op => ¬ op.Checked) (fun v op h => by rw [not_not]; exact Variant.staysInert_apply h op)
    (Variant.staysInert_iff.2 (Variant.construct_inert m)) ops
  refine hiff.trans ⟨fun h op hop => ?_, fun h pre op post heq => ?_⟩
  · obtain ⟨pre, post, heq⟩ := List.append_of_mem hop
    exact not_not.1 (h pre op post heq)
  · exact not_not.2 (h op (by simp [heq]))

/-- **A text is written to the inert value**: its type is not inert any more, and every datum without
a name has got one. -/
theorem inert_overwritten :
    (Variant.apply true exactPools (Variant.construct exactPools true) (.strSet [120])).type ≠
        .inert ∧
      ¬ ((World.initial exactPools).step true exactPools
        (.on none (.write .val (.strSet [120])))).Intact true exactPools ∧
      Datum.fresh.nameOr ((World.initial exactPools).step true exactPools
        (.on none (.write .val (.strSet [120])))).inertValue true exactPools = [120] := by
  have hname : Datum.fresh.nameOr ((World.initial exactPools).step true exactPools
      (.on none (.write .val (.strSet [120])))).inertValue true exactPools = [120] := by
    decide +kernel
  refine ⟨by decide, fun h => ?_, hname⟩
  rw [h.nameless Datum.fresh rfl] at hname
  exact nomatch hname

end CodePort
