/-
What the IDL serializer reads of what it writes.

The text of a datum is decoded to a datum of the same shape.  A number of 64 bits comes back cut to
32 bits, since the value of every integer type is read with the functions for 32 bits; a text with
the end of a line in it does not come back at all.  All other values do.

Main definitions:

* `CodePort.SerDesIdl.narrow` — what is read of a value;
* `CodePort.SerDesIdl.Kept` — the values that are read back;
* `CodePort.Tree.map`, `CodePort.Tree.All` — trees, value by value;
* `CodePort.Datum.IdlEncodable` — the data with attributes of the types that the decoder asks for.

Main results:

* `CodePort.SerDesIdl.readValue_valueText` — the value that is read of a printed value;
* `CodePort.SerDesIdl.decode_body`, `decode_datums` — **the loop rebuilds a datum and a list of
  data**, by induction on the tree;
* `CodePort.SerDesIdl.decodeIdl_packageText` — the whole package;
* `CodePort.idl_decode_encode_iff` — **which data are decoded to the same tree.**
-/

import CodePort.IdlDecode

set_option relaxedAutoImplicit false
set_option autoImplicit false

namespace CodePort

/-! ### Trees -/

namespace Tree

mutual

/-- Change every value. -/
def map (f : Value → Value) : Tree → Tree
  | .node attribs datums => .node (fun a => (attribs a).map f) (mapList f datums)

/-- Change every value in a list of trees. -/
def mapList (f : Value → Value) : List Tree → List Tree
  | [] => []
  | t :: ts => t.map f :: mapList f ts

end

mutual

/-- Every value satisfies the predicate. -/
def All (P : Value → Prop) : Tree → Prop
  | .node attribs datums => (∀ a x, attribs a = some x → P x) ∧ AllList P datums

/-- Every value in a list of trees satisfies the predicate. -/
def AllList (P : Value → Prop) : List Tree → Prop
  | [] => True
  | t :: ts => t.All P ∧ AllList P ts

end

mutual

/-- A change that leaves every value as it is. -/
theorem map_eq_self_iff (f : Value → Value) : ∀ t : Tree, t.map f = t ↔ t.All fun x => f x = x
  | .node attribs datums => by
      have hattribs : (fun a => (attribs a).map f) = attribs ↔
          ∀ a x, attribs a = some x → f x = x := by
        rw [funext_iff]
        refine forall_congr' fun a => ?_
        cases attribs a <;> simp
      rw [map, All, node.injEq, hattribs, mapList_eq_self_iff f datums]

theorem mapList_eq_self_iff (f : Value → Value) :
    ∀ ts : List Tree, mapList f ts = ts ↔ AllList (fun x => f x = x) ts
  | [] => iff_of_true rfl trivial
  | t :: ts => by
      rw [mapList, AllList, List.cons.injEq, map_eq_self_iff f t, mapList_eq_self_iff f ts]

end

mutual

theorem all_and (P Q : Value → Prop) :
    ∀ t : Tree, t.All (fun x => P x ∧ Q x) ↔ t.All P ∧ t.All Q
  | .node attribs datums => by
      simp only [All, allList_and P Q datums, imp_and, forall_and]
      exact and_and_and_comm

theorem allList_and (P Q : Value → Prop) :
    ∀ ts : List Tree, AllList (fun x => P x ∧ Q x) ts ↔ AllList P ts ∧ AllList Q ts
  | [] => iff_of_true trivial ⟨trivial, trivial⟩
  | t :: ts => by
      simp only [AllList, all_and P Q t, allList_and P Q ts]
      exact and_and_and_comm

end

end Tree

namespace Datum

mutual

theorem Holding.all_tree {le : Bool} {Q : Value → Prop} :
    ∀ {d : Datum}, d.Holding le Q → (d.tree le).All Q
  | ⟨_, _, attribs, _, datums⟩, h => by
      obtain ⟨hattribs, hdatums⟩ := h
      refine ⟨fun a x hx => ?_, AllHolding.all_trees hdatums⟩
      obtain ⟨v, hv, rfl⟩ := Option.map_eq_some_iff.1 hx
      obtain ⟨y, hy, hQ⟩ := hattribs a v hv
      rwa [hy.value_eq]

theorem AllHolding.all_trees {le : Bool} {Q : Value → Prop} :
    ∀ {ds : List Datum}, AllHolding le Q ds → Tree.AllList Q (trees le ds)
  | [], _ => trivial
  | _ :: _, h => ⟨h.1.all_tree, AllHolding.all_trees h.2⟩

end

end Datum

/-! ### Values -/

/-- The types whose values are read back, integers up to their width. -/
def DataType.isIdl : DataType → Bool
  | .none | .int8 | .uint8 | .int16 | .uint16 | .int32 | .uint32 | .int64 | .uint64 | .bool
  | .string | .blob => true
  | _ => false

namespace SerDesIdl

open Variant

/-- What is read of a value: 32 bits of a number of 64 bits. -/
def narrow : Value → Value
  | .num .int64 n => .num .int64 (bits 64 (signed 32 n))
  | .num .uint64 n => .num .uint64 (n % 2 ^ 32)
  | x => x

/-- The values that are read back: of the numbers of 64 bits those that have 32 bits, of the texts
those on one line. -/
def Kept : Value → Prop
  | .num .int64 n => n < 2 ^ 31 ∨ 2 ^ 64 - 2 ^ 31 ≤ n ∧ n < 2 ^ 64
  | .num .uint64 n => n < 2 ^ 32
  | .text s => 10 ∉ s
  | _ => True

theorem bits_signed (n : ℕ) : bits 64 (signed 32 n) = n ↔
    n < 2 ^ 31 ∨ 2 ^ 64 - 2 ^ 31 ≤ n ∧ n < 2 ^ 64 := by
  rw [bits, signed, Int.bmod_def]
  split_ifs <;> omega

theorem kept_iff (x : Value) : Kept x ↔ OneLine x ∧ narrow x = x := by
  cases x with
  | num t n =>
      cases t with
      | int64 =>
          rw [narrow, Value.num.injEq, eq_self_iff_true, true_and, bits_signed]
          exact (and_iff_right trivial).symm
      | uint64 =>
          rw [narrow, Value.num.injEq, eq_self_iff_true, true_and, Nat.mod_eq_iff_lt (by decide)]
          exact (and_iff_right trivial).symm
      | _ => exact iff_of_true trivial ⟨trivial, rfl⟩
  | text s => exact (and_iff_left rfl).symm
  | _ => exact iff_of_true trivial ⟨trivial, rfl⟩

/-- A signed number that is printed with sign extension. -/
theorem bits_signed_signExtend {w n : ℕ} (hw : w = 1 ∨ w = 2) (hn : n < 256 ^ w) :
    bits (8 * w) (signed 32 (signExtend w n)) = n := by
  rw [bits, signed, Int.bmod_def, signExtend]
  rcases hw with rfl | rfl <;> split_ifs <;> omega

/-- **The value that is read of a printed value.** -/
theorem readValue_valueText (le : Bool) {m : MemPools} (hm : m.Plentiful) {v : Variant}
    (hv : v.type.isIdl = true) :
    readValue m v.type (valueText (v.value le)) = narrow (v.value le) := by
  obtain ⟨type, buf⟩ := v
  have hlt := fun w => Variant.numAt_lt le ⟨type, buf⟩ w
  cases type with
  | int8 =>
      change Value.num .int8 (bits 8 (strToInt (intToStr _))) = _
      rw [strToInt_intToStr, bits_signed_signExtend (w := 1) (.inl rfl) (hlt 1)]
      rfl
  | int16 =>
      change Value.num .int16 (bits 16 (strToInt (intToStr _))) = _
      rw [strToInt_intToStr, bits_signed_signExtend (w := 2) (.inr rfl) (hlt 2)]
      rfl
  | int32 =>
      change Value.num .int32 (bits 32 (strToInt (intToStr _))) = _
      have hbits : bits 32 (signed 32 (numAt le ⟨.int32, buf⟩ 4)) = numAt le ⟨.int32, buf⟩ 4 := by
        have hn := hlt 4
        rw [bits, signed, Int.bmod_def]
        split_ifs <;> omega
      rw [strToInt_intToStr, hbits]
      rfl
  | int64 =>
      change Value.num .int64 (bits 64 (strToInt (int64ToStr _))) = _
      rw [strToInt_int64ToStr]
      rfl
  | uint8 =>
      have hn := hlt 1
      change Value.num .uint8 (strToUint (uintToStr _) % 2 ^ 8) = _
      rw [strToUint_uintToStr, Nat.mod_eq_of_lt (by omega), Nat.mod_eq_of_lt (by omega)]
      rfl
  | uint16 =>
      have hn := hlt 2
      change Value.num .uint16 (strToUint (uintToStr _) % 2 ^ 16) = _
      rw [strToUint_uintToStr, Nat.mod_eq_of_lt (by omega), Nat.mod_eq_of_lt (by omega)]
      rfl
  | uint32 =>
      have hn := hlt 4
      change Value.num .uint32 (strToUint (uintToStr _)) = _
      rw [strToUint_uintToStr, Nat.mod_eq_of_lt (by omega)]
      rfl
  | uint64 =>
      change Value.num .uint64 (strToUint (uint64ToStr _)) = _
      rw [strToUint_uint64ToStr]
      rfl
  | bool =>
      have hbool : ∀ b : Bool, strToBool (valueText (.bool b)) = b := by decide
      change Value.bool (strToBool (valueText (.bool _))) = _
      rw [hbool]
      rfl
  | string =>
      change Value.text (cStr (cStr buf.mem)) = _
      rw [cStr_of_notMem (zero_notMem_cStr buf.mem)]
      rfl
  | blob =>
      change Value.blob (hexDecode m (valueText (.blob _)) Buffer.empty).2.data = _
      rw [valueText, hexDecode_flatMap hm]
      rfl
  | none => rfl
  | _ => cases hv

theorem variantExtract_fst (le : Bool) (m : MemPools) (var : Variant) {type : DataType}
    (h : type.isIdl = true) (value : List UInt8) :
    (variantExtract le m var type value).1 = true := by
  cases type with
  | inert => cases h
  | datumList => cases h
  | _ => rfl

/-- A printed blob has neither the end of a line nor a terminator in it. -/
theorem notMem_hexText {c : UInt8} (hc : c = 10 ∨ c = 0) (d : List UInt8) :
    c ∉ d.flatMap fun ch => hexOctet ch ++ [32] := by
  have hdigit : ∀ n < 16, hexDigit n ≠ 10 ∧ hexDigit n ≠ 0 := by decide
  intro hmem
  obtain ⟨ch, -, hmem⟩ := List.mem_flatMap.1 hmem
  have hlt := ch.toNat_lt
  have hhi := hdigit (ch.toNat / 16) (by omega)
  have hlo := hdigit (ch.toNat % 16) (by omega)
  simp only [hexOctet, List.cons_append, List.nil_append, List.mem_cons, List.not_mem_nil,
    or_false] at hmem
  rcases hc with rfl | rfl
  · rcases hmem with h | h | h
    · exact hhi.1 h.symm
    · exact hlo.1 h.symm
    · exact absurd h (by decide)
  · rcases hmem with h | h | h
    · exact hhi.2 h.symm
    · exact hlo.2 h.symm
    · exact absurd h (by decide)

/-- **A printed value is on one line**, if its text is. -/
theorem notMem_valueText (le : Bool) {v : Variant} (hv : v.type.isIdl = true)
    (hone : OneLine (v.value le)) {c : UInt8} (hc : c = 10 ∨ c = 0) :
    c ∉ valueText (v.value le) := by
  obtain ⟨type, buf⟩ := v
  cases type with
  | int8 => exact notMem_intToStr hc _
  | int16 => exact notMem_intToStr hc _
  | int32 => exact notMem_intToStr hc _
  | int64 => exact notMem_int64ToStr hc _
  | uint8 => exact notMem_decText hc _
  | uint16 => exact notMem_decText hc _
  | uint32 => exact notMem_decText hc _
  | uint64 => exact notMem_decText hc _
  | bool =>
      have hbool : ∀ b : Bool, 10 ∉ valueText (.bool b) ∧ 0 ∉ valueText (.bool b) := by decide
      rcases hc with rfl | rfl
      · exact (hbool _).1
      · exact (hbool _).2
  | string =>
      rcases hc with rfl | rfl
      · exact hone
      · exact zero_notMem_cStr buf.mem
  | blob => exact notMem_hexText hc _
  | none => exact List.not_mem_nil
  | _ => cases hv

end SerDesIdl

/-! ### Data that can be read back -/

/-- The attributes that are texts in every datum. -/
def Attrib.isText (a : Attrib) : Prop := a = .name ∨ a = .units ∨ a = .info ∨ a = .choices

/-- The attributes of a datum: texts on one line, a value of one of the types, and a least, a
greatest and a default value of its type. -/
structure SerDesIdl.IdlAttribs (attribs : Attrib → Option Variant) : Prop where
  none_eq : attribs .none = none
  text : ∀ a v, a.isText → attribs a = some v → v.type = .string ∧ 10 ∉ cStr v.buf.mem
  val : ∀ v, attribs .val = some v →
    v.type.isIdl = true ∧ (v.type = .string → 10 ∉ cStr v.buf.mem)
  bound : ∀ a v, a = .min ∨ a = .max ∨ a = .deflt → attribs a = some v →
    ∃ w, attribs .val = some w ∧ v.type = w.type

mutual

/-- The active data with such attributes. -/
def Datum.IdlEncodable : Datum → Prop
  | ⟨isInert, _, attribs, _, datums⟩ =>
      isInert = false ∧ SerDesIdl.IdlAttribs attribs ∧ Datum.AllIdlEncodable datums

/-- Lists of such data. -/
def Datum.AllIdlEncodable : List Datum → Prop
  | [] => True
  | d :: ds => d.IdlEncodable ∧ Datum.AllIdlEncodable ds

end

namespace SerDesIdl

/-- The decoder asks for the type that an attribute has. -/
theorem IdlAttribs.type_eq {d : Datum} (h : IdlAttribs d.attribs) {a : Attrib} {v : Variant}
    (hv : d.attribs a = some v) :
    a ≠ .none ∧ v.type = attributeType a (d.attr .val).type ∧ v.type.isIdl = true := by
  have htext : a.isText → v.type = .string ∧ v.type.isIdl = true := by
    intro ha
    have htype := (h.text a v ha hv).1
    exact ⟨htype, by rw [htype]; rfl⟩
  have hbound : a = .min ∨ a = .max ∨ a = .deflt →
      v.type = (d.attr .val).type ∧ v.type.isIdl = true := by
    intro ha
    obtain ⟨w, hw, htype⟩ := h.bound a v ha hv
    have hattr : d.attr .val = w := by rw [Datum.attr, hw, Option.getD_some]
    exact ⟨by rw [hattr, htype], by rw [htype]; exact (h.val w hw).1⟩
  cases a with
  | none => exact absurd hv (by rw [h.none_eq]; simp)
  | val =>
      have hattr : d.attr .val = v := by rw [Datum.attr, hv, Option.getD_some]
      exact ⟨nofun, by rw [hattr]; rfl, (h.val v hv).1⟩
  | name => exact ⟨nofun, htext (.inl rfl)⟩
  | units => exact ⟨nofun, htext (.inr (.inl rfl))⟩
  | info => exact ⟨nofun, htext (.inr (.inr (.inl rfl)))⟩
  | choices => exact ⟨nofun, htext (.inr (.inr (.inr rfl)))⟩
  | min => exact ⟨nofun, hbound (.inl rfl)⟩
  | max => exact ⟨nofun, hbound (.inr (.inl rfl))⟩
  | deflt => exact ⟨nofun, hbound (.inr (.inr rfl))⟩

end SerDesIdl

namespace Datum

mutual

/-- Such data can be written. -/
theorem IdlEncodable.printable : ∀ {d : Datum}, d.IdlEncodable → d.Printable
  | ⟨isInert, self, attribs, iterData, datums⟩, h => by
      obtain ⟨-, hattribs, hdatums⟩ := h
      refine ⟨hattribs.none_eq, fun a v hv => ?_, AllIdlEncodable.allPrintable hdatums⟩
      obtain ⟨-, -, hidl⟩ := hattribs.type_eq (d := ⟨isInert, self, attribs, iterData, datums⟩) hv
      refine ⟨fun htype => ?_, fun htype => ?_⟩
      · rw [htype] at hidl
        cases hidl
      · rw [htype] at hidl
        cases hidl

theorem AllIdlEncodable.allPrintable : ∀ {ds : List Datum}, AllIdlEncodable ds → AllPrintable ds
  | [], _ => trivial
  | _ :: _, h => ⟨h.1.printable, AllIdlEncodable.allPrintable h.2⟩

end

theorem IdlEncodable.isInert_eq {d : Datum} (h : d.IdlEncodable) : d.isInert = false := by
  cases d
  exact h.1

end Datum

/-! ### The loop -/

namespace SerDesIdl

open Datum

variable {β : Type} [BlockStore β] [LawfulBlockStore β]

variable (le le' : Bool) {m : MemPools} (tags : TagOrder) {st : DecodeState β} {p : List ℕ}
  {rs : List DatumRef} {root x : Datum} {r : List UInt8}

/-- The start of a sub-datum. -/
theorem decode_begin {level : ℕ} (type : DataType)
    (h : st.Stands p rs root (beginText level type ++ r)) (hx : root.at p = some x)
    (hact : x.isInert = false) :
    ∃ st' : DecodeState β, st.decodeLoop le m tags = st'.decodeLoop le m tags ∧
      st'.Stands (p ++ [x.datums.length]) (some p :: rs) (modifyAt (addChild fresh) p root) r ∧
      st'.type = type := by
  have hlf : 10 ∉ tagDat ++ (tagBegin ++ dataTypeName type) := by cases type <;> decide
  have h0 : 0 ∉ tagDat ++ (tagBegin ++ dataTypeName type) := by cases type <;> decide
  obtain ⟨s', hrest, hstep⟩ := decodeStep_lineText le m tags hlf h0
    (solid_tagDat.append _) h.rest
  rw [decodeLine_begin] at hstep
  exact ⟨_, decodeLoop_more hstep, (h.reads hrest).dat le hx hact, rfl⟩

/-- The end of a sub-datum. -/
theorem decode_end {level : ℕ} {q : List ℕ}
    (h : st.Stands q (some p :: rs) root (endText level ++ r)) :
    ∃ st' : DecodeState β, st.decodeLoop le m tags = st'.decodeLoop le m tags ∧
      st'.Stands p rs root r := by
  obtain ⟨s', hrest, hstep⟩ := decodeStep_lineText le m tags (by decide) (by decide)
    (solid_tagDat.append tagEnd) h.rest
  rw [decodeLine_end] at hstep
  exact ⟨_, decodeLoop_more hstep, (h.reads hrest).datEnd⟩

/-- **An attribute** is set on the current datum. -/
theorem decode_attrib (hm : m.Plentiful) {a : Attrib} (ha : a ≠ .none) {v : Variant}
    {type : DataType} (htype : v.type = attributeType a type) (hidl : v.type.isIdl = true)
    (hone : OneLine (v.value le)) {level : ℕ}
    (h : st.Stands p rs root (attribText le level a v ++ r)) (hst : st.type = type)
    (hx : root.at p = some x) (hact : x.isInert = false) (hfree : x.attribs a = none) :
    ∃ (st' : DecodeState β) (v' : Variant), v'.Holds le' (narrow (v.value le)) ∧
      st.decodeLoop le' m tags = st'.decodeLoop le' m tags ∧
      st'.Stands p rs
        (modifyAt (fun _ => { x with attribs := Function.update x.attribs a (some v') }) p root)
        r ∧ st'.type = type := by
  obtain ⟨tag, htag, hsolid, -, hlf, h0, -⟩ := attribMap_spec ha
  have hline : attribText le level a v = lineText level (tag ++ valueText (v.value le)) := by
    rw [attribText, htag, Option.getD_some]
  rw [hline] at h
  have hnot : ∀ c, c = 10 ∨ c = 0 → c ∉ tag → c ∉ tag ++ valueText (v.value le) := by
    intro c hc hctag hmem
    rcases List.mem_append.1 hmem with hmem | hmem
    · exact hctag hmem
    · exact notMem_valueText le hidl hone hc hmem
  obtain ⟨s', hrest, hstep⟩ := decodeStep_lineText le' m tags (hnot 10 (.inl rfl) hlf)
    (hnot 0 (.inr rfl) h0) (hsolid.append _) h.rest
  -- the value is read by the type of the attribute
  have hheld := holds_variantExtract hm le' v.type (valueText (v.value le))
  rw [readValue_valueText le hm hidl] at hheld
  obtain ⟨v', hv', hset⟩ := SerDesNative.attrSet_free le' hm hact hfree hheld
  rw [decodeLine_attrib le' m tags _ ha htag (Prod.ext (variantExtract_fst le' m _
    (by rw [hst, ← htype]; exact hidl) _) rfl), hst, ← htype] at hstep
  have hst' := (h.reads hrest).modifyRef fun d => d.attrSet m a
    (variantExtract le' m (Variant.construct m false) v.type (valueText (v.value le))).2
  rw [modifyAt_congr (g := fun _ => { x with attribs := Function.update x.attribs a (some v') })
    hx hset] at hst'
  exact ⟨_, v', hv', decodeLoop_more hstep, hst', rfl⟩

/-- **The attributes of a datum** are set on the current datum, one after another. -/
theorem decode_attribs (hm : m.Plentiful) {d : Datum} (hd : IdlAttribs d.attribs)
    (hone : ∀ a v, d.attribs a = some v → OneLine (v.value le)) {level : ℕ} (as : List Attrib)
    (hnodup : as.Nodup) :
    ∀ {st : DecodeState β} {root x : Datum},
      st.Stands p rs root (attribsText le level d as ++ r) → st.type = (d.attr .val).type →
      root.at p = some x → x.isInert = false → (∀ a ∈ as, x.attribs a = none) →
      ∃ (st' : DecodeState β) (attribs : Attrib → Option Variant),
        st.decodeLoop le' m tags = st'.decodeLoop le' m tags ∧
        st'.Stands p rs (modifyAt (fun _ => { x with attribs := attribs }) p root) r ∧
        (∀ a ∈ as, (attribs a).map (fun v => v.value le') =
          (d.attribs a).map fun v => narrow (v.value le)) ∧
        ∀ a ∉ as, attribs a = x.attribs a := by
  induction as with
  | nil =>
      intro st root x h _ hx _ _
      refine ⟨st, x.attribs, rfl, ?_, by simp, fun _ _ => rfl⟩
      rw [modifyAt_eq_self hx (by cases x; rfl)]
      exact h
  | cons a as ih =>
      intro st root x h hst hx hact hfree
      obtain ⟨hnotin, hnodup'⟩ := List.nodup_cons.1 hnodup
      rw [attribsText, List.flatMap_cons, ← attribsText, List.append_assoc] at h
      cases hv : d.attribs a with
      | none =>
          rw [hv, Option.elim_none, List.nil_append] at h
          obtain ⟨st', attribs, hloop, hst', hin, hout⟩ := ih hnodup' h hst hx hact
            fun b hb => hfree b (List.mem_cons_of_mem _ hb)
          have hself : (x.attribs a).map (fun v => v.value le') =
              (d.attribs a).map fun v => narrow (v.value le) := by
            rw [hfree a List.mem_cons_self, hv]
            rfl
          obtain ⟨hin', hout'⟩ := SerDesNative.attribs_set_cons
            (g := Option.map fun v => v.value le') hnotin hin hout hself fun _ _ => rfl
          exact ⟨st', attribs, hloop, hst', hin', hout'⟩
      | some v =>
          obtain ⟨ha, htype, hidl⟩ := hd.type_eq hv
          rw [hv, Option.elim_some] at h
          obtain ⟨st₁, v', hheld, hloop₁, hst₁, htype₁⟩ := decode_attrib le le' tags hm ha htype
            hidl (hone a v hv) h hst hx hact (hfree a List.mem_cons_self)
          obtain ⟨st', attribs, hloop, hst', hin, hout⟩ := ih hnodup' hst₁ htype₁
            (at_modifyAt _ hx) hact fun b hb => by
              have hne : b ≠ a := fun hba => hnotin (hba ▸ hb)
              exact (Function.update_of_ne hne _ _).trans (hfree b (List.mem_cons_of_mem _ hb))
          rw [modifyAt_modifyAt] at hst'
          have hself : (Function.update x.attribs a (some v') a).map (fun v => v.value le') =
              (d.attribs a).map fun v => narrow (v.value le) := by
            rw [Function.update_self, hv, Option.map_some, hheld.value_eq]
            rfl
          obtain ⟨hin', hout'⟩ := SerDesNative.attribs_set_cons
            (g := Option.map fun v => v.value le') hnotin hin hout hself fun b hne => Function.update_of_ne hne _ _
          exact ⟨st', attribs, hloop₁.trans hloop, hst', hin', hout'⟩

mutual

/-- **The inside of a datum** is rebuilt in a new datum, up to the width of its numbers. -/
theorem decode_body (hm : m.Plentiful) : ∀ (d : Datum) (level : ℕ), d.IdlEncodable →
    (d.tree le).All OneLine →
    ∀ {st : DecodeState β} {p : List ℕ} {rs : List DatumRef} {root : Datum} {r : List UInt8},
      st.Stands p rs root
        (attribsText le level d Attrib.all ++ (datumsText le level d.datums ++ r)) →
      st.type = (d.attr .val).type → root.at p = some fresh →
      ∃ (st' : DecodeState β) (d' : Datum),
        st.decodeLoop le' m tags = st'.decodeLoop le' m tags ∧
        st'.Stands p rs (modifyAt (fun _ => d') p root) r ∧ d'.tree le' = (d.tree le).map narrow
  | ⟨isInert, self, attribs, iterData, datums⟩, level, hd, hone, st, p, rs, root, r, h, hst,
      hx => by
      obtain ⟨-, hattribs, hall⟩ := hd
      obtain ⟨hone, hones⟩ := hone
      obtain ⟨st₁, attribs', hloop₁, hst₁, hin, -⟩ := decode_attribs le le' tags hm
        (d := ⟨isInert, self, attribs, iterData, datums⟩) hattribs
        (fun a v hv => hone a _ (Option.map_eq_some_iff.2 ⟨v, hv, rfl⟩)) Attrib.all (by decide) h
        hst hx rfl fun _ _ => rfl
      obtain ⟨st₂, ds', hloop₂, hst₂, htrees⟩ := decode_datums hm datums level hall hones hst₁
        (at_modifyAt _ hx) rfl
      rw [modifyAt_modifyAt] at hst₂
      refine ⟨st₂, _, hloop₁.trans hloop₂, hst₂, ?_⟩
      rw [tree_addChildren le' ds' rfl, htrees, tree, Tree.map]
      congr 1
      funext a
      rw [hin a a.mem_all, Option.map_map]
      rfl

/-- **A list of data** is rebuilt behind the sub-data of the current datum. -/
theorem decode_datums (hm : m.Plentiful) : ∀ (ds : List Datum) (level : ℕ), AllIdlEncodable ds →
    Tree.AllList OneLine (trees le ds) →
    ∀ {st : DecodeState β} {p : List ℕ} {rs : List DatumRef} {root x : Datum} {r : List UInt8},
      st.Stands p rs root (datumsText le level ds ++ r) → root.at p = some x →
      x.isInert = false →
      ∃ (st' : DecodeState β) (ds' : List Datum),
        st.decodeLoop le' m tags = st'.decodeLoop le' m tags ∧
        st'.Stands p rs (modifyAt (fun _ => addChildren ds' x) p root) r ∧
        trees le' ds' = Tree.mapList narrow (trees le ds)
  | [], _, _, _, st, p, rs, root, x, r, h, hx, _ => by
      refine ⟨st, [], rfl, ?_, rfl⟩
      rw [modifyAt_eq_self hx rfl]
      exact h
  | d :: ds, level, hall, hone, st, p, rs, root, x, r, h, hx, hact => by
      obtain ⟨hd, hds⟩ := hall
      obtain ⟨hone, hones⟩ := hone
      have htext : datumsText le level (d :: ds) ++ r =
          beginText level (d.attr .val).type ++ (attribsText le (level + 1) d Attrib.all ++
            (datumsText le (level + 1) d.datums ++ (endText level ++
              (datumsText le level ds ++ r)))) := by
        cases d
        simp only [datumsText, datumText, List.append_assoc]
      rw [htext] at h
      -- into the sub-datum, through its inside, and out again
      obtain ⟨st₁, hloop₁, hst₁, htype₁⟩ := decode_begin le' tags _ h hx hact
      obtain ⟨st₂, d', hloop₂, hst₂, htree⟩ := decode_body hm d (level + 1) hd hone hst₁ htype₁
        (at_addChild hx)
      rw [modifyAt_addChild _ hx] at hst₂
      obtain ⟨st₃, hloop₃, hst₃⟩ := decode_end le' tags hst₂
      obtain ⟨st₄, ds', hloop₄, hst₄, htrees⟩ := decode_datums hm ds level hds hones hst₃
        (at_modifyAt _ hx) hact
      rw [modifyAt_modifyAt] at hst₄
      refine ⟨st₄, d' :: ds', hloop₁.trans (hloop₂.trans (hloop₃.trans hloop₄)), hst₄, ?_⟩
      rw [trees, trees, Tree.mapList, htree, htrees]

end

/-- **The elements of a package** are rebuilt in a new datum. -/
theorem decodeElement_spec (hm : m.Plentiful) {d : Datum} (hd : d.IdlEncodable)
    (hone : (d.tree le).All OneLine) {level pkgLevel : ℕ} {s : StreamBase β}
    (h : s.HasRest (datumText le level d ++ lineText pkgLevel (tagPkg ++ tagEnd))) :
    ∃ d' s', decodeElement le' m tags fresh s = some (true, d', s') ∧
      d'.tree le' = (d.tree le).map narrow := by
  have htext : datumText le level d ++ lineText pkgLevel (tagPkg ++ tagEnd) =
      beginText level (d.attr .val).type ++ (attribsText le (level + 1) d Attrib.all ++
        (datumsText le (level + 1) d.datums ++ (endText level ++
          lineText pkgLevel (tagPkg ++ tagEnd)))) := by
    cases d
    simp only [datumText, List.append_assoc]
  rw [htext] at h
  set st₀ : DecodeState β :=
    { stream := s, root := fresh, datStack := [some []], pDat := some [], rootDatum := true
      var := Variant.construct m false, type := .none } with hst₀
  have hlf : ∀ c, c = 10 ∨ c = 0 → ∀ type, c ∉ tagDat ++ (tagBegin ++ dataTypeName type) := by
    rintro c (rfl | rfl) type <;> cases type <;> decide
  -- the first datum is the root
  have hrest₀ : st₀.stream.HasRest _ := h
  obtain ⟨s₁, hrest₁, hstep₁⟩ := decodeStep_lineText le' m tags (hlf 10 (.inl rfl) _)
    (hlf 0 (.inr rfl) _) (solid_tagDat.append _) hrest₀
  rw [decodeLine_begin] at hstep₁
  set st₁ : DecodeState β := ⟨SerDesNative.decodeDat le' m
    ({ st₀.toDecodeState with stream := s₁ } : SerDesNative.DecodeState β),
    (d.attr .val).type⟩
  have hstands₁ : st₁.Stands [] [] fresh
      (attribsText le (level + 1) d Attrib.all ++ (datumsText le (level + 1) d.datums ++
        (endText level ++ lineText pkgLevel (tagPkg ++ tagEnd)))) :=
    ⟨hrest₁, rfl, rfl, rfl, rfl, (Variant.holds_construct hm le').not_inert⟩
  obtain ⟨st₂, d', hloop₂, hst₂, htree⟩ := decode_body le le' tags hm d (level + 1) hd hone
    hstands₁ rfl rfl
  -- the end of the root leaves the stack as it is
  obtain ⟨s₃, hrest₃, hstep₃⟩ := decodeStep_lineText le' m tags (by decide) (by decide)
    (solid_tagDat.append tagEnd) hst₂.rest
  rw [decodeLine_end] at hstep₃
  have hst₃ : SerDesNative.decodeDatEnd
      ({ st₂.toDecodeState with stream := s₃ } : SerDesNative.DecodeState β) =
      { st₂.toDecodeState with stream := s₃ } := by
    rw [SerDesNative.decodeDatEnd]
    simp only [hst₂.datStack_eq]
  rw [hst₃] at hstep₃
  set st₃ : DecodeState β :=
    ⟨({ st₂.toDecodeState with stream := s₃ } : SerDesNative.DecodeState β), st₂.type⟩
  rw [← List.append_nil (lineText pkgLevel _)] at hrest₃
  have hstands₃ : st₃.stream.HasRest _ := hrest₃
  obtain ⟨s₄, -, hstep₄⟩ := decodeStep_lineText le' m tags (by decide) (by decide)
    (solid_tagPkg.append tagEnd) hstands₃
  rw [decodeLine_pkgEnd] at hstep₄
  refine ⟨d', s₄, ?_, htree⟩
  rw [decodeElement, decodeLoop_more hstep₁, hloop₂, decodeLoop_more hstep₃, DecodeState.decodeLoop, hstep₄]
  have hroot : st₃.root = d' := hst₂.root_eq
  simp only [Option.bind_eq_bind, Option.bind_some, Option.map_some, hroot]

/-! ### Packages -/

theorem tagTrim_of_ltrim {line line' : List UInt8} (h : ltrim line = ltrim line')
    (tag : List UInt8) : tagTrim line tag = tagTrim line' tag := by
  simp only [tagTrim, h]

/-- The first line of a package. -/
theorem decodeIdent_lineText {level : ℕ} {s : StreamBase β}
    (h : s.HasRest (lineText level tagHdr ++ r)) :
    ∃ s', decodeIdent s = some (true, s') ∧ s'.HasRest r := by
  obtain ⟨line, s', hs', hline, hrest⟩ := lineGet_lineText (by decide) (by decide) solid_tagHdr h
  refine ⟨s', ?_, hrest⟩
  have htrim : tagTrim line tagHdr = tagTrim tagHdr tagHdr :=
    tagTrim_of_ltrim (hline.trans solid_tagHdr.ltrim_eq.symm) _
  rw [decodeIdent, StreamBase.findLine, ← lineGet, hs', Option.bind_eq_bind, Option.bind_some]
  simp only [if_true, htrim, tagTrim_self solid_tagHdr]

/-- The second line of a package. -/
theorem decodeVersion_lineText {level : ℕ} {ver : List UInt8} (hlf : 10 ∉ ver) (h0 : 0 ∉ ver)
    {s : StreamBase β}
    (h : s.HasRest (lineText level (tagPkg ++ (tagBegin ++ (tagVer ++ ver))) ++ r)) :
    ∃ s', decodeVersion s = some (true, s') ∧ s'.HasRest r := by
  have hnot : ∀ c ∉ ver, c ∉ tagPkg → c ∉ tagBegin → c ∉ tagVer →
      c ∉ tagPkg ++ (tagBegin ++ (tagVer ++ ver)) := by
    intro c hver hpkg hbegin htag hmem
    simp only [List.mem_append] at hmem
    tauto
  obtain ⟨line, s', hs', hline, hrest⟩ := lineGet_lineText
    (hnot 10 hlf (by decide) (by decide) (by decide))
    (hnot 0 h0 (by decide) (by decide) (by decide)) (solid_tagPkg.append _) h
  refine ⟨s', ?_, hrest⟩
  have htrim : tagTrim line tagPkg = (true, tagBegin ++ (tagVer ++ ver)) := by
    rw [← tagTrim_append solid_tagPkg]
    exact tagTrim_of_ltrim (hline.trans (solid_tagPkg.append _).ltrim_eq.symm) _
  have hbegin := tagTrim_append solid_tagBegin (tagVer ++ ver)
  have hver := tagTrim_append solid_tagVer ver
  have hline : isVersionLine line = true := by
    rw [isVersionLine]
    simp only [htrim, hbegin, hver, Bool.and_self]
  rw [decodeVersion, StreamBase.findLine, ← lineGet, hs', Option.bind_eq_bind, Option.bind_some]
  simp only [if_true, hline]

theorem headText_eq (ser : SerDesIdl) : headText ser =
    lineText (if ser.newLine then ser.indentLevel else 0) tagHdr ++
      lineText ser.indentLevel (tagPkg ++ (tagBegin ++ (tagVer ++
        uintToStr datumVersion.toNat))) := by
  have hindent : indentText 0 = [] := rfl
  cases hnl : ser.newLine with
  | false => simp [headText, lineText, hnl, hindent]
  | true => simp [headText, lineText, hnl]

/-- **A package is decoded to the same tree, up to the width of its numbers**, from any stream that
holds its text, into any active datum without a name. -/
theorem decodeIdl_packageText (hm : m.Plentiful) {dat : Datum} (hdat : dat.IdlEncodable)
    (hone : (dat.tree le).All OneLine) (ser : SerDesIdl) {dst : Datum} (hact : dst.isInert = false)
    (hname : dst.nameGet le' m = []) {t : StreamBase β} {g : FlatStream UInt8}
    (ht : t.Represents g) (hg : g.content = packageText le ser dat) :
    ∃ dst' t', dst.decodeIdl le' m tags false t = some (true, dst', t') ∧
      dst'.tree le' = (dat.tree le).map narrow := by
  have hrest : (t.seek 0).2.HasRest (packageText le ser dat) :=
    ⟨_, (ht.seek 0).2, by rw [g.rest_seek_zero, hg]⟩
  rw [packageText_eq, headText_eq, List.append_assoc] at hrest
  obtain ⟨t₁, ht₁, hrest₁⟩ := decodeIdent_lineText hrest
  obtain ⟨t₂, ht₂, hrest₂⟩ := decodeVersion_lineText (notMem_decText (.inl rfl) _)
    (notMem_decText (.inr rfl) _) hrest₁
  obtain ⟨dst', t', hdec, htree⟩ := decodeElement_spec le le' tags hm hdat hone hrest₂
  refine ⟨dst', t', ?_, htree⟩
  rw [decodeIdl, if_neg (by simp [hact]), decode, clear_of_nameless hact hname, ht₁]
  simp only [Option.bind_eq_bind, Option.bind_some, if_true, ht₂, hdec]
  rfl

end SerDesIdl

/-! ### The round trip -/

open SerDesIdl

variable {β : Type} [BlockStore β] [LawfulBlockStore β]

/-- **Which data are decoded to the same tree**: those whose lines can be indented, whose numbers
have 32 bits and whose texts are on one line.  The decoder may run on a host of another byte order,
and on any stream that holds the octets. -/
theorem idl_decode_encode_iff (le le' : Bool) (m : MemPools) {m' : MemPools} (hm' : m'.Plentiful)
    (tags : TagOrder) {dat : Datum} (hdat : dat.IdlEncodable) (ser : SerDesIdl) {s : StreamBase β}
    {f : FlatStream UInt8} (hs : s.Represents f) {dst : Datum} (hact : dst.isInert = false)
    (hname : dst.nameGet le' m' = []) :
    (∃ ser' s', dat.encodeIdl le m .none ser s = some (true, ser', s') ∧
      ∀ {t : StreamBase β} {g : FlatStream UInt8}, t.Represents g → g.content = s'.octets →
        ∃ dst' t', dst.decodeIdl le' m' tags false t = some (true, dst', t') ∧
          dst'.tree le' = dat.tree le) ↔
      dat.Fits (ser.indentLevel + 1) ∧ (dat.tree le).All Kept := by
  have hkept : (dat.tree le).All Kept ↔
      (dat.tree le).All OneLine ∧ (dat.tree le).map narrow = dat.tree le := by
    rw [Tree.map_eq_self_iff, ← Tree.all_and, funext fun x => propext (kept_iff x)]
  rw [hkept]
  constructor
  · rintro ⟨ser', s', henc, hdec⟩
    have hfit : dat.Fits (ser.indentLevel + 1) := by
      by_contra hfit
      rw [Datum.encodeIdl_overruns le m hdat.isInert_eq hdat.printable hfit .none hs] at henc
      cases henc
    obtain ⟨s₁, hs₁, g, hrep, -, hcontent⟩ :=
      Datum.encodeIdl_spec le m hdat.isInert_eq hdat.printable hfit hs
    obtain ⟨-, rfl⟩ : ser' = _ ∧ s' = s₁ := by simpa using henc.symm.trans hs₁
    obtain ⟨dst', t', hrun, htree⟩ := hdec hrep hrep.octets_eq.symm
    -- no text of what is decoded has the end of a line in it
    have hone : (dat.tree le).All OneLine := htree ▸ (holding_decodeIdl hm' hact hname hrun).all_tree
    obtain ⟨dst'', t'', hrun', htree'⟩ :=
      decodeIdl_packageText le le' tags hm' hdat hone ser hact hname hrep hcontent
    obtain ⟨rfl, -⟩ : dst' = dst'' ∧ t' = t'' := by simpa using hrun.symm.trans hrun'
    exact ⟨hfit, hone, htree'.symm.trans htree⟩
  · rintro ⟨hfit, hone, hnarrow⟩
    obtain ⟨s', hs', g', hrep, -, hcontent⟩ :=
      Datum.encodeIdl_spec le m hdat.isInert_eq hdat.printable hfit hs
    refine ⟨_, s', hs', ?_⟩
    intro t g ht hg
    obtain ⟨dst', t', hdec, htree⟩ := decodeIdl_packageText le le' tags hm' hdat hone ser hact hname
      ht (by rw [hg, hrep.octets_eq, hcontent])
    exact ⟨dst', t', hdec, htree.trans hnarrow⟩

/-- A tag map. -/
def sampleTags : TagOrder := ⟨_, List.Perm.refl _⟩

theorem idlEncodable_sampleDatum : sampleDatum.IdlEncodable := by
  have hroot : IdlAttribs sampleDatum.attribs := by
    refine ⟨rfl, ?_, ?_, ?_⟩
    · rintro a v (rfl | rfl | rfl | rfl) hv <;> cases hv
    · rintro v hv
      obtain rfl := Option.some.inj hv
      exact ⟨by decide, by decide⟩
    · rintro a v (rfl | rfl | rfl) hv <;> cases hv
  refine ⟨rfl, hroot, ⟨rfl, ⟨rfl, ?_, ?_, ?_⟩, trivial⟩, trivial⟩
  · rintro a v (rfl | rfl | rfl | rfl) hv
    · cases hv
    · cases hv
    · obtain rfl := Option.some.inj hv
      exact ⟨by decide, by decide⟩
    · cases hv
  · rintro v hv
    cases hv
  · rintro a v (rfl | rfl | rfl) hv <;> cases hv

/-- Encoded on a little-endian host and decoded on a big-endian one. -/
theorem idl_decode_encode_sample :
    ∃ ser' s', sampleDatum.encodeIdl true exactPools .none construct
        (StreamBuf.construct sampleMem 0) = some (true, ser', s') ∧
      ∀ {t : StreamBuf} {g : FlatStream UInt8}, t.Represents g → g.content = s'.octets →
        ∃ dst' t', Datum.fresh.decodeIdl false exactPools sampleTags false t =
            some (true, dst', t') ∧
          dst'.tree false = sampleDatum.tree true := by
  refine (idl_decode_encode_iff true false exactPools plentiful_exactPools sampleTags
    idlEncodable_sampleDatum construct (StreamBuf.represents_construct plentiful_sampleMem 0)
    rfl rfl).2 ⟨⟨by decide, fun _ => by decide, ⟨by decide, fun _ => by decide, trivial⟩, trivial⟩,
      ?_, ⟨?_, trivial⟩, trivial⟩
  · intro a x hx
    cases a with
    | val =>
        obtain rfl := Option.some.inj hx
        trivial
    | _ => cases hx
  · intro a x hx
    cases a with
    | info =>
        obtain rfl := Option.some.inj hx
        change 10 ∉ ascii "text"
        decide
    | _ => cases hx

/-- A datum with the number -5000000000. -/
def wideDatum : Datum :=
  { Datum.fresh with
    attribs := fun a => if a = .val then
      some (Variant.int64Set true exactPools (Variant.construct exactPools false)
        (2 ^ 64 - 5000000000)) else none }

/-- What a datum with nothing but a number of 64 bits holds. -/
def wideTree (n : ℕ) : Tree :=
  .node (fun a => if a = .val then some (.num .int64 n) else none) []

/-- The number -5000000000 comes back as -705032704. -/
theorem idl_decode_encode_wide :
    ∃ ser' s' dst' t', wideDatum.encodeIdl true exactPools .none construct
        (StreamBuf.construct sampleMem 0) = some (true, ser', s') ∧
      Datum.fresh.decodeIdl true exactPools sampleTags false s' = some (true, dst', t') ∧
      wideDatum.IdlEncodable ∧ wideDatum.tree true = wideTree (2 ^ 64 - 5000000000) ∧
      dst'.tree true = wideTree (2 ^ 64 - 705032704) ∧ dst'.tree true ≠ wideDatum.tree true := by
  have hdat : wideDatum.IdlEncodable := by
    refine ⟨rfl, ⟨rfl, ?_, ?_, ?_⟩, trivial⟩
    · rintro a v (rfl | rfl | rfl | rfl) hv <;> cases hv
    · rintro v hv
      obtain rfl := Option.some.inj hv
      exact ⟨by decide, by decide⟩
    · rintro a v (rfl | rfl | rfl) hv <;> cases hv
  have htree : wideDatum.tree true = wideTree (2 ^ 64 - 5000000000) := by
    rw [Datum.tree_eq, wideTree]
    congr 1
    funext a
    cases a with
    | val => decide
    | _ => rfl
  have hone : (wideDatum.tree true).All OneLine := by
    rw [htree]
    refine ⟨fun a x hx => ?_, trivial⟩
    dsimp only at hx
    split_ifs at hx
    obtain rfl := Option.some.inj hx
    trivial
  have hnarrow : (wideTree (2 ^ 64 - 5000000000)).map narrow = wideTree (2 ^ 64 - 705032704) := by
    rw [wideTree, Tree.map, wideTree]
    congr 1
    funext a
    cases a with
    | val => decide
    | _ => rfl
  have hfit : wideDatum.Fits (construct.indentLevel + 1) :=
    ⟨by decide, fun _ => by decide, trivial⟩
  obtain ⟨s', hs', g, hrep, -, hcontent⟩ := Datum.encodeIdl_spec true exactPools rfl hdat.printable
    hfit (StreamBuf.represents_construct plentiful_sampleMem 0)
  obtain ⟨dst', t', hrun, hdst⟩ := decodeIdl_packageText true true sampleTags plentiful_exactPools
    hdat hone construct (show Datum.fresh.isInert = false from rfl) rfl hrep hcontent
  rw [htree, hnarrow] at hdst
  refine ⟨_, s', dst', t', hs', hrun, hdat, htree, hdst, ?_⟩
  rw [hdst, htree, wideTree, wideTree]
  intro heq
  have hval := congrFun (Tree.node.inj heq).1 .val
  exact absurd hval (by decide)

end CodePort
