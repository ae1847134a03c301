/-
Well-formed data.

The setters of a variant make room for what they store, and an assignment copies the data in use.  So
every variant that a program builds is well formed, and a copy of it holds the same value and, unless it is
a blob without an end, reads as the same text.  A datum that is assigned to is equal to what is assigned,
except where it is inert.

Main definitions:

* `CodePort.Variant.Terminated` — a blob that is read as a text has an end;
* `CodePort.Variant.TextKept` — a blob that is read as a text has the same text in a copy;
* `CodePort.Datum.Sound` — every variant in a tree is well formed;
* `CodePort.Datum.Addable` — what can be added to a datum under its name;
* `CodePort.Datum.content` — what a datum holds, and which parts of it are inert;
* `CodePort.Datum.TakesOn` — no inert sub-datum is in the way of an assignment.

Main results:

* `CodePort.Variant.strGet_congr` — the text of a well-formed variant depends on its data only;
* `CodePort.Datum.content_assign_iff` — **when a datum is equal to what is assigned to it**;
* `CodePort.Datum.sound_apply` — **every operation keeps the variants well formed.**
-/

import CodePort.DatumTraverse

set_option relaxedAutoImplicit false
set_option autoImplicit false

namespace CodePort

namespace Variant

variable {m : MemPools} {v u : Variant}

/-! ### Copies of variants -/

theorem type_copy (m : MemPools) (v : Variant) : (copy m v).type = v.type := rfl

theorem data_copy (hm : m.Plentiful) (v : Variant) : (copy m v).buf.data = v.buf.data :=
  Buffer.data_assign hm _ _

/-- A text that is read has an end. -/
def Terminated (v : Variant) : Prop := v.type = .blob → 0 ∈ v.buf.data

/-- **The text of a well-formed variant** depends on its type and its data only. -/
theorem strGet_congr (hv : v.Wf) (hterm : v.Terminated) (ht : u.type = v.type)
    (hd : u.buf.data = v.buf.data) (le : Bool) : u.strGet le m = v.strGet le m := by
  have hlen : u.buf.dataLen = v.buf.dataLen := by
    rw [← Buffer.length_data, hd, Buffer.length_data]
  obtain ⟨hnum, hbool, hstr⟩ := hv
  have hat : ∀ w, v.type.width = some w → u.numAt le w = v.numAt le w := by
    intro w hw
    have hle := hnum w hw
    rw [numAt_eq le hle, numAt_eq le (hlen ▸ hle), hd]
  have hmem : 0 ∈ v.buf.data → cStr u.buf.mem = cStr v.buf.mem := by
    intro h0
    rw [cStr_mem_eq h0, cStr_mem_eq (hd ▸ h0), hd]
  simp only [strGet, ht]
  cases hty : v.type with
  | bool =>
      have hle := hbool hty
      simp only [firstOctet_eq hle, firstOctet_eq (hlen ▸ hle), hd]
  | string => exact hmem (hstr hty)
  | blob => exact hmem (hterm hty)
  | inert => rfl
  | none => rfl
  | datumList => rfl
  | _ => simp only [hat _ (by rw [hty]; rfl)]

/-- The text of a blob ends in its block, and in that of a copy, and is the same there. -/
def TextKept (m : MemPools) (v : Variant) : Prop :=
  v.type = .blob → (v.buf.block = none ∨ 0 ∈ v.buf.mem) ∧
    ((copy m v).buf.block = none ∨ 0 ∈ (copy m v).buf.mem) ∧
      cStr (copy m v).buf.mem = cStr v.buf.mem

/-- **The text of a copy.** -/
theorem strGet_copy (hm : m.Plentiful) (hv : v.Wf) (hkept : v.TextKept m) (le : Bool) :
    (copy m v).strGet le m = v.strGet le m := by
  by_cases hblob : v.type = .blob
  · simp only [strGet, type_copy, hblob]
    exact (hkept hblob).2.2
  · exact strGet_congr hv (fun hc => absurd hc hblob) (type_copy m v) (data_copy hm v) le

/-! ### Well-formed variants -/

/-- Numbers, truth values and texts aside, every variant is well formed. -/
theorem wf_of_type (hwidth : v.type.width = none) (hbool : v.type ≠ .bool) (hstr : v.type ≠ .string) :
    v.Wf := by
  refine ⟨fun w hw => ?_, fun h => absurd h hbool, fun h => absurd h hstr⟩
  rw [hwidth] at hw
  cases hw

theorem wf_numSet (hm : m.Plentiful) (le : Bool) {w : ℕ} {t : DataType} (hw : t.width = some w)
    (hv : v.Wf) (n : ℕ) : (numSet le m w t v n).Wf := by
  by_cases hinert : v.type = .inert
  · rw [numSet_of_inert hinert]
    exact hv
  · exact (holds_numSet hm le hw hinert n).wf

theorem wf_assign (hm : m.Plentiful) (hv : v.Wf) (hu : u.Wf) : (v.assign m u).Wf := by
  rw [assign]
  split_ifs
  · exact hv
  · exact (Wf.congr (u := ⟨u.type, v.buf.assign m u.buf⟩) hu rfl (Buffer.data_assign hm _ _)).1

end Variant

/-- What is assigned is well formed. -/
def VariantOp.Sound : VariantOp → Prop
  | .assign rhs => rhs.Wf
  | _ => True

/-- **Every mutator keeps a variant well formed.** -/
theorem Variant.wf_apply {m : MemPools} {v : Variant} (hm : m.Plentiful) (le : Bool) (hv : v.Wf)
    {op : VariantOp} (hop : op.Sound) : (v.apply le m op).Wf := by
  cases op with
  | uint8Set val => exact wf_numSet hm le rfl hv val
  | int8Set val => exact wf_numSet hm le rfl hv val
  | uint16Set val => exact wf_numSet hm le rfl hv val
  | int16Set val => exact wf_numSet hm le rfl hv val
  | uint32Set val => exact wf_numSet hm le rfl hv val
  | int32Set val => exact wf_numSet hm le rfl hv val
  | uint64Set val => exact wf_numSet hm le rfl hv val
  | int64Set val => exact wf_numSet hm le rfl hv val
  | float32Set val => exact wf_numSet hm le rfl hv val
  | float64Set val => exact wf_numSet hm le rfl hv val
  | boolSet val =>
      by_cases hinert : v.type = .inert
      · rw [apply, boolSet_of_inert hinert]
        exact hv
      · exact (holds_boolSet hm le hinert val).wf
  | strSet str => exact (holds_strSet hm le v str).wf
  | bufSet buf => exact (holds_bufSet hm le v buf).wf
  | bufSetRaw pBuf =>
      cases pBuf with
      | none => exact wf_of_type rfl (by simp [apply, bufSetRaw]) (by simp [apply, bufSetRaw])
      | some d => exact wf_of_type rfl (by simp [apply, bufSetRaw]) (by simp [apply, bufSetRaw])
  | assign rhs => exact wf_assign hm hv hop
  | clear =>
      rw [apply, clear]
      split_ifs
      · exact hv
      · exact wf_of_type rfl (by simp) (by simp)

namespace Datum

/-! ### Well-formed data -/

/-- All variants in a tree are well formed. -/
inductive Sound : Datum → Prop
  | mk {d : Datum} (attribs : ∀ a v, d.attribs a = some v → v.Wf)
      (datums : ∀ x ∈ d.datums, Sound x) : Sound d

theorem Sound.attribs {d : Datum} (h : d.Sound) {a : Attrib} {v : Variant}
    (hv : d.attribs a = some v) : v.Wf := by
  cases h with
  | mk hattribs _ => exact hattribs a v hv

theorem Sound.datums {d x : Datum} (h : d.Sound) (hx : x ∈ d.datums) : x.Sound := by
  cases h with
  | mk _ hdatums => exact hdatums x hx

/-- **What can be added**: an active datum with well-formed variants, whose name is the same in a copy. -/
structure Addable (m : MemPools) (d : Datum) : Prop where
  active : d.isInert = false
  sound : d.Sound
  named : ∀ v, d.attribs .name = some v → v.TextKept m

/-! ### Assigning -/

variable {le : Bool} {m : MemPools}

/-- **The name is assigned.** -/
theorem nameGet_assign (hm : m.Plentiful) {d rhs : Datum} (h : d.isInert = false)
    (hrhs : rhs.Addable m) : (d.assign m rhs).nameGet le m = rhs.nameGet le m := by
  rw [assign_eq h]
  change (((rhs.attribs .name).map (Variant.copy m)).getD inertValue).strGet le m =
    ((rhs.attribs .name).getD inertValue).strGet le m
  cases hname : rhs.attribs .name with
  | none => rfl
  | some v => exact Variant.strGet_copy hm (hrhs.sound.attribs hname) (hrhs.named v hname) le

/-! ### What is equal after an assignment -/

end Datum

/-- The values of a datum and its sub-data, and which of them are inert. -/
inductive Content
  | node (inert : Bool) (attribs : Attrib → Option Value) (datums : List Content)

namespace Datum

variable {le : Bool} {m : MemPools}

mutual

/-- What a datum holds, and which parts of it are inert. -/
def content (le : Bool) : Datum → Content
  | mk inert _ attribs _ datums =>
      .node inert (fun t => (attribs t).map fun v => v.value le) (contents le datums)

/-- What a list of data holds. -/
def contents (le : Bool) : List Datum → List Content
  | [] => []
  | d :: ds => content le d :: contents le ds

end

theorem content_eq (d : Datum) : d.content le =
    .node d.isInert (fun t => (d.attribs t).map fun v => v.value le) (contents le d.datums) := by
  cases d
  rfl

theorem contents_eq (ds : List Datum) : contents le ds = ds.map fun d => d.content le := by
  induction ds with
  | nil => rfl
  | cons d ds ih => rw [contents, ih, List.map_cons]

mutual

/-- **What is assigned is taken on**: an inert datum stays as it is, so it has to be equal to what is assigned;
an active one leaves the assignment to its sub-data, as far as it has any. -/
def TakesOn (le : Bool) : Datum → Datum → Prop
  | d, ⟨inert, self, attribs, iterData, datums⟩ =>
      if d.isInert then d.content le = content le ⟨inert, self, attribs, iterData, datums⟩
      else AllTakeOn le d.datums datums

/-- Each sub-datum takes on the one in its place. -/
def AllTakeOn (le : Bool) : List Datum → List Datum → Prop
  | _, [] => True
  | [], _ :: _ => True
  | d :: ds, r :: rs => TakesOn le d r ∧ AllTakeOn le ds rs

end

theorem takesOn_inert {d : Datum} (h : d.isInert = true) (rhs : Datum) :
    d.TakesOn le rhs ↔ d.content le = rhs.content le := by
  cases rhs
  rw [TakesOn, if_pos h]

theorem takesOn_active {d : Datum} (h : d.isInert = false) (rhs : Datum) :
    d.TakesOn le rhs ↔ AllTakeOn le d.datums rhs.datums := by
  cases rhs
  rw [TakesOn, if_neg (by simp [h])]

theorem allTakeOn_nil (rs : List Datum) : AllTakeOn le [] rs := by
  cases rs with
  | nil => trivial
  | cons r rs => trivial

/-- A new datum takes on everything. -/
theorem takesOn_fresh (rhs : Datum) : fresh.TakesOn le rhs :=
  (takesOn_active rfl rhs).2 (allTakeOn_nil _)

/-- **When a datum is equal to what is assigned to it.** -/
theorem content_assign_iff (hm : m.Plentiful) {d rhs : Datum} (hrhs : rhs.Sound) :
    (d.assign m rhs).content le = rhs.content le ↔ d.TakesOn le rhs := by
  induction rhs using tree_induction generalizing d with
  | h rhs ih =>
      have hlist : ∀ rs : List Datum, (∀ r ∈ rs, r ∈ rhs.datums) → ∀ ds : List Datum,
          contents le (assignDatums m ds rs) = contents le rs ↔ AllTakeOn le ds rs := by
        intro rs
        induction rs with
        | nil => exact fun _ ds => iff_of_true (by rw [assignDatums]) trivial
        | cons r rs ihrs =>
            intro hsub ds
            have hr := hsub r List.mem_cons_self
            have htail := ihrs fun r' hr' => hsub r' (List.mem_cons_of_mem r hr')
            cases ds with
            | nil =>
                refine iff_of_true ?_ trivial
                rw [assignDatums, contents, contents, (ih r hr (hrhs.datums hr)).2 (takesOn_fresh r),
                  (htail []).2 (allTakeOn_nil rs)]
            | cons d ds =>
                rw [assignDatums, contents, contents, List.cons.injEq, ih r hr (hrhs.datums hr),
                  htail ds]
                rfl
      cases hd : d.isInert with
      | true => rw [assign_inert hd, takesOn_inert hd]
      | false =>
          have hattribs : (fun t => ((rhs.attribs t).map (Variant.copy m)).map fun v => v.value le) =
              fun t => (rhs.attribs t).map fun v => v.value le := by
            funext t
            cases ht : rhs.attribs t with
            | none => rfl
            | some v =>
                have hcopy := (hrhs.attribs ht).congr (Variant.type_copy m v) (Variant.data_copy hm v)
                exact congrArg some (hcopy.2 le)
          rw [assign_eq hd, content_eq, content_eq rhs, takesOn_active hd,
            ← hlist rhs.datums (fun _ h => h) d.datums]
          dsimp only
          rw [hattribs]
          exact ⟨fun h => (Content.node.inj h).2.2, fun h => by rw [h]⟩

/-! ### The cursors do not matter -/

theorem nameGet_congr {d e : Datum} (h : d.still = e.still) : d.nameGet le m = e.nameGet le m := by
  rw [still_eq, still_eq] at h
  rw [nameGet, nameGet, attr, attr, (Datum.mk.inj h).2.2.1]

theorem isInert_congr {d e : Datum} (h : d.still = e.still) : d.isInert = e.isInert := by
  rw [still_eq, still_eq] at h
  exact (Datum.mk.inj h).1

theorem map_still_advance (d : Datum) (recurse : Bool) :
    (d.advance recurse).2.datums.map still = d.datums.map still := by
  have hstill := still_advance d recurse
  rw [still_eq, still_eq] at hstill
  exact (Datum.mk.inj hstill).2.2.2.2

theorem content_still (d : Datum) : d.still.content le = d.content le := by
  induction d using tree_induction with
  | h d ih =>
      rw [still_eq, content_eq, content_eq d, contents_eq, contents_eq, List.map_map]
      congr 1
      exact List.map_congr_left ih

theorem content_congr {d e : Datum} (h : d.still = e.still) : d.content le = e.content le := by
  rw [← content_still d, h, content_still]

theorem sound_of_still {d e : Datum} (h : e.Sound) (heq : d.still = e.still) : d.Sound := by
  induction d using tree_induction generalizing e with
  | h d ih =>
      rw [still_eq, still_eq] at heq
      obtain ⟨-, -, hattribs, -, hdatums⟩ := Datum.mk.inj heq
      refine .mk (fun a v hv => h.attribs (hattribs ▸ hv)) fun x hx => ?_
      obtain ⟨y, hy, hxy⟩ := List.mem_map.1 (hdatums ▸ List.mem_map_of_mem hx)
      exact ih x hx (h.datums hy) hxy.symm

/-! ### Every operation keeps the variants well formed -/

theorem sound_fresh : fresh.Sound :=
  .mk (fun _ v hv => by cases hv) fun _ hx => absurd hx List.not_mem_nil

theorem sound_assign (hm : m.Plentiful) {d rhs : Datum} (hd : d.Sound) (hrhs : rhs.Sound) :
    (d.assign m rhs).Sound := by
  refine assign_induction (R := fun x _ => x.Sound) (fun _ h _ hx => h.datums hx)
    (fun _ h _ hx => h.datums hx) sound_fresh ?_ hd hrhs
  intro d rhs hd hrhs hdatums
  cases hact : d.isInert with
  | true =>
      rw [assign_inert hact]
      exact hd
  | false =>
      rw [assign_eq hact]
      refine .mk (fun a v hv => ?_) (forall_of_forall₂ hdatums)
      obtain ⟨v₀, hv₀, rfl⟩ := Option.map_eq_some_iff.1 hv
      exact ((hrhs.attribs hv₀).congr (Variant.type_copy m v₀) (Variant.data_copy hm v₀)).1

/-- A well-formed attribute. -/
theorem Sound.update {d : Datum} (h : d.Sound) (a : Attrib) {v : Option Variant}
    (hv : ∀ u, v = some u → u.Wf) : Sound { d with attribs := Function.update d.attribs a v } := by
  refine .mk (fun b u hu => ?_) fun x hx => h.datums hx
  by_cases hb : b = a
  · dsimp only at hu
    rw [hb, Function.update_self] at hu
    exact hv u hu
  · dsimp only at hu
    rw [Function.update_of_ne hb] at hu
    exact h.attribs hu

/-- The attribute that the map has, or constructs. -/
theorem Sound.old (hm : m.Plentiful) {d : Datum} (h : d.Sound) (a : Attrib) :
    ((d.attribs a).getD (Variant.construct m false)).Wf := by
  cases ha : d.attribs a with
  | none => exact (Variant.holds_construct hm true).wf
  | some v => exact h.attribs ha

theorem sound_attrStrSet (hm : m.Plentiful) {d : Datum} (h : d.Sound) (a : Attrib)
    (str : List UInt8) : (d.attrStrSet m a str).Sound :=
  h.update a fun u hu => by
    obtain rfl := Option.some.inj hu
    exact (Variant.holds_strSet hm true _ str).wf

theorem sound_attrWrite (hm : m.Plentiful) {d : Datum} (h : d.Sound) (a : Attrib) {op : VariantOp}
    (hop : op.Sound) : (d.attrWrite le m a op).Sound :=
  h.update a fun u hu => by
    obtain rfl := Option.some.inj hu
    exact Variant.wf_apply hm le (h.old hm a) hop

theorem sound_nameSet (hm : m.Plentiful) {d : Datum} (h : d.Sound) (name : List UInt8) :
    (d.nameSet m name).Sound := by
  rw [nameSet, attrDel]
  split_ifs
  · exact h
  · exact sound_attrStrSet hm h _ _
  · exact h.update .name fun u hu => by cases hu

theorem sound_textSet (hm : m.Plentiful) {d : Datum} (h : d.Sound) (a : Attrib) (str : List UInt8) :
    (d.textSet m a str).Sound := by
  rw [textSet]
  split_ifs
  · exact h
  · exact sound_attrStrSet hm h a str

theorem sound_construct (hm : m.Plentiful) (name : List UInt8) (inert : Bool) :
    (construct m name inert).Sound := by
  cases inert with
  | false => exact sound_of_still (sound_nameSet hm sound_fresh name) (still_rewind _)
  | true =>
      have hinert : Sound ⟨true, true, fun _ => none, none, []⟩ :=
        .mk (fun _ v hv => by cases hv) fun _ hx => absurd hx List.not_mem_nil
      exact sound_of_still (sound_attrStrSet hm hinert .name name) (still_rewind _)

theorem sound_addFound (hm : m.Plentiful) {d rhs : Datum} (h : d.Sound) (hrhs : rhs.Sound)
    (name : List UInt8) (found : Option ℕ) : (d.addFound m rhs name found).Sound := by
  have hadded : Sound
      { d with
        self := false, iterData := some d.datums.length, datums := d.datums ++ [rhs.copy m] } := by
    refine .mk (fun a v hv => h.attribs hv) fun x hx => ?_
    rcases List.mem_append.1 hx with hx | hx
    · exact h.datums hx
    · rw [List.mem_singleton.1 hx]
      exact sound_assign hm sound_fresh hrhs
  rw [addFound]
  split
  · exact h
  · cases found with
    | none => exact hadded
    | some k =>
        dsimp only
        split
        · exact .mk (fun a v hv => h.attribs hv)
            (forall_mem_modify k (fun x hx => h.datums hx) fun x hx => sound_assign hm hx hrhs)
        · exact hadded

theorem sound_eraseFound {d : Datum} (h : d.Sound) (found : Option ℕ) :
    (d.eraseFound found).2.Sound := by
  cases found with
  | none => exact h
  | some i =>
      exact .mk (fun a v hv => h.attribs hv) fun x hx => h.datums (List.mem_of_mem_eraseIdx hx)

end Datum

variable {le : Bool} {m : MemPools}

/-- What is assigned, or added, is well formed. -/
def DatumOp.Sound : DatumOp → Prop
  | .attrSet _ var => var.Wf
  | .write _ op => op.Sound
  | .convert op => op.Sound
  | .assign rhs => rhs.Sound
  | .addDatum rhs => rhs.Sound
  | _ => True

namespace Datum

/-- **Every public operation keeps all variants of a datum well formed.** -/
theorem sound_apply (hm : m.Plentiful) (g : Variant) {d : Datum} (h : d.Sound) {op : DatumOp}
    (hop : op.Sound) : (d.apply le m g op).2.Sound := by
  cases op with
  | nameSet name => exact sound_nameSet hm h name
  | attrSet type var =>
      rw [apply, attrSet]
      split_ifs
      · exact h
      · exact h.update type fun u hu => by
          obtain rfl := Option.some.inj hu
          exact Variant.wf_assign hm (h.old hm type) hop
  | attrDel type =>
      rw [apply, attrDel]
      split_ifs
      · exact h
      · exact h.update type fun u hu => by cases hu
  | unitsSet units => exact sound_textSet hm h _ units
  | infoSet info => exact sound_textSet hm h _ info
  | choicesSet choices => exact sound_textSet hm h _ choices
  | write type op =>
      rw [apply]
      split_ifs
      · exact h
      · exact sound_attrWrite hm h type hop
  | convert op =>
      rw [apply]
      dsimp only
      split_ifs
      · exact h
      · exact sound_attrWrite hm h .val hop
  | assign rhs => exact sound_assign hm h hop
  | clear =>
      rw [apply]
      dsimp only
      split_ifs
      · exact h
      · exact sound_assign hm h (sound_construct hm _ false)
  | addDatum rhs => exact sound_addFound hm h hop _ _
  | add name => exact sound_addFound hm h (sound_construct hm name false) _ _
  | select name =>
      rw [apply, selectFound]
      by_cases hinert : d.isInert
      · rw [if_pos hinert]
        exact h
      · rw [if_neg hinert]
        exact sound_of_still h (still_congr rfl rfl rfl)
  | rewind => exact sound_of_still h (still_rewind d)
  | next => exact sound_of_still h (still_advance d false)
  | recurse => exact sound_of_still h (still_advance d true)
  | erase =>
      rw [apply, erase_eq]
      exact sound_eraseFound h _
  | eraseName name => exact sound_eraseFound h _

end Datum

end CodePort
