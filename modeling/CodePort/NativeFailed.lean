/-
What a failed decoding leaves.

A datum that could not be decoded is cleared, and clearing it keeps its name, as `NameGet` reads it.  By then
the name may be one of the rejected octets; and if that is a blob that fills its memory block, its text goes
on in whatever lies behind the block.

Main definitions:

* `CodePort.Variant.strGetPast` — the getter of the text, which reads on behind the memory block;
* `CodePort.SerDesNative.decodePast` — decoding, with the memory that lies behind the block of the name
  when the datum is cleared first, and when it is cleared again;
* `CodePort.SerDesNative.rootName` — the name of the root after the elements of a package;
* `CodePort.Datum.OnlyNamed` — a datum with a certain name and nothing else.

Main results:

* `CodePort.Variant.Wf.strGetPast_eq_iff` — when a text does not depend on what lies behind the block;
* `CodePort.SerDesNative.decodePast_failed` — a failed decoding leaves what the name reads as, and no more;
* `CodePort.native_decode_failed_iff` — when a failed decoding leaves the name alone.
-/

import CodePort.DatumSound
import CodePort.NativeResult

set_option relaxedAutoImplicit false
set_option autoImplicit false

namespace CodePort

open BlockStore PrefixParser

variable {le : Bool} {m : MemPools}

/-! ### Reading on behind the block -/

/-- The buffer, with the memory that lies behind its block. -/
def Buffer.past (b : Buffer) (behind : List UInt8) : Buffer where
  block := b.block.map (· ++ behind)
  dataLen := b.dataLen
  dataLen_le := by
    refine b.dataLen_le.trans ?_
    cases b.block with
    | none => exact le_rfl
    | some x =>
        rw [Option.map_some, Option.getD_some, Option.getD_some, List.length_append]
        exact Nat.le_add_right _ _

namespace Buffer

theorem mem_past {b : Buffer} (h : b.block ≠ none) (behind : List UInt8) :
    (b.past behind).mem = b.mem ++ behind := by
  obtain ⟨x, hx⟩ := Option.ne_none_iff_exists'.1 h
  simp only [past, mem, hx, Option.map_some, Option.getD_some]

theorem past_of_block_eq_none {b : Buffer} (h : b.block = none) (behind : List UInt8) :
    b.past behind = b := by
  obtain ⟨block, dataLen, hle⟩ := b
  obtain rfl : block = none := h
  rfl

/-- With nothing behind it the buffer is as it is. -/
theorem past_nil (b : Buffer) : b.past [] = b := by
  obtain ⟨block, dataLen, hle⟩ := b
  cases block with
  | none => rfl
  | some x => simp only [past, Option.map_some, List.append_nil]

/-- The octets in use are inside of the block. -/
theorem data_past (b : Buffer) (behind : List UInt8) : (b.past behind).data = b.data := by
  by_cases h : b.block = none
  · rw [past_of_block_eq_none h]
  · rw [data, data, mem_past h]
    exact List.take_append_of_le_length b.dataLen_le

end Buffer

namespace Variant

/-- Return the text of the value: the end of a text or a blob is looked for behind its block too. -/
def strGetPast (le : Bool) (m : MemPools) (behind : List UInt8) (v : Variant) : List UInt8 :=
  (⟨v.type, v.buf.past behind⟩ : Variant).strGet le m

theorem strGetPast_nil (v : Variant) : v.strGetPast le m [] = v.strGet le m := by
  rw [strGetPast, Buffer.past_nil]

/-- **A text inside of its block** does not depend on what lies behind. -/
theorem Wf.strGetPast_eq {v : Variant} (h : v.Wf) (hin : v.StrGetInside) (behind : List UInt8) :
    v.strGetPast le m behind = v.strGet le m := by
  by_cases hblob : v.type = .blob
  · rcases h.strGetInside_iff.1 hin hblob with hnull | h0
    · rw [strGetPast, Buffer.past_of_block_eq_none hnull]
    · have hblock : v.buf.block ≠ none := by
        intro hnull
        rw [Buffer.mem, hnull] at h0
        cases h0
      simp only [strGetPast, strGet, hblob]
      rw [Buffer.mem_past hblock, cStr_append h0]
  · exact strGet_congr (u := ⟨v.type, v.buf.past behind⟩) h (fun hc => absurd hc hblob) rfl
      (Buffer.data_past v.buf behind) le

/-- A text that leaves its block goes on behind it. -/
theorem Wf.strGetPast_of_outside {v : Variant} (h : v.Wf) (hout : ¬ v.StrGetInside)
    (behind : List UInt8) : v.strGetPast le m behind = v.buf.mem ++ cStr behind := by
  rw [h.strGetInside_iff, Classical.not_imp, not_or] at hout
  obtain ⟨hblob, hblock, h0⟩ := hout
  simp only [strGetPast, strGet, hblob]
  rw [Buffer.mem_past hblock, cStr, List.takeWhile_append_of_pos]
  · rfl
  · intro x hx
    exact decide_eq_true fun hc => h0 (hc ▸ hx)

/-- **When a text is one whatever lies behind the block.** -/
theorem Wf.strGetPast_eq_iff {v : Variant} (h : v.Wf) (str : List UInt8) :
    (∀ behind, v.strGetPast le m behind = str) ↔ v.StrGetInside ∧ v.strGet le m = str := by
  constructor
  · intro hall
    have hin : v.StrGetInside := by
      -- otherwise an octet behind the block is an octet of the text
      by_contra hout
      have hnil := hall []
      have hone := hall [1]
      rw [h.strGetPast_of_outside hout] at hnil hone
      have hlength := congrArg List.length (hnil.trans hone.symm)
      rw [List.length_append, List.length_append] at hlength
      exact absurd (Nat.add_left_cancel hlength) (by decide)
    exact ⟨hin, (h.strGetPast_eq hin []).symm.trans (hall [])⟩
  · rintro ⟨hin, hstr⟩ behind
    rw [h.strGetPast_eq hin, hstr]

end Variant

/-! ### Decoding with what lies behind the name -/

namespace Datum

/-- Return the datum name, as it is read with the memory behind its block. -/
def nameGetPast (le : Bool) (m : MemPools) (behind : List UInt8) (d : Datum) : List UInt8 :=
  (d.attr .name).strGetPast le m behind

/-- Clears the datum's contents, which reads the name. -/
def clearPast (le : Bool) (m : MemPools) (behind : List UInt8) (d : Datum) : Datum :=
  if d.isInert then d else d.assign m (construct m (d.nameGetPast le m behind) false)

theorem nameGetPast_nil (d : Datum) : d.nameGetPast le m [] = d.nameGet le m :=
  Variant.strGetPast_nil _

theorem clearPast_nil (d : Datum) : d.clearPast le m [] = d.clear le m := by
  rw [clearPast, clear, nameGetPast_nil]

theorem clearPast_eq {d : Datum} (hact : d.isInert = false) (behind : List UInt8) :
    d.clearPast le m behind = ⟨false, true, nameOnly m (d.nameGetPast le m behind), none, []⟩ := by
  rw [clearPast, if_neg (by simp [hact]), assign_construct hact]

/-- The datum has the name, whatever lies behind its block, and nothing else. -/
def OnlyNamed (le : Bool) (m : MemPools) (name : List UInt8) (d : Datum) : Prop :=
  (∀ behind, d.nameGetPast le m behind = name) ∧ (name = [] → d.attribs .name = none) ∧
    (∀ a, a ≠ .name → d.attribs a = none) ∧ d.datums = []

end Datum

variable {β : Type} [BlockStore β]

/-- Decodes a stream to a datum.  The name is read when the datum is cleared first, and with the memory
that lies behind it by then if decoding has failed. -/
def SerDesNative.decodePast (le : Bool) (m : MemPools) (behind behind' : List UInt8)
    (s : StreamBase β) (dat : Datum) (check : Bool) : Option (Bool × Datum × StreamBase β) :=
  (execDecodeStates le m (s.seek 0).2 (dat.clearPast le m behind) check).map fun r =>
    -- clear datum if decode failed
    (r.1, if r.1 then r.2.1 else r.2.1.clearPast le m behind', r.2.2)

/-- Decodes the collection from a stream with the native serializer. -/
def Datum.decodePast (le : Bool) (m : MemPools) (behind behind' : List UInt8) (dat : Datum)
    (check : Bool) (s : StreamBase β) : Option (Bool × Datum × StreamBase β) :=
  if dat.isInert then some (false, dat, s)
  else SerDesNative.decodePast le m behind behind' s dat check

/-- Where nothing lies behind the blocks this is decoding as it is. -/
theorem Datum.decodePast_nil (dat : Datum) (check : Bool) (s : StreamBase β) :
    dat.decodePast le m [] [] check s = dat.decode le m check s := by
  simp only [decodePast, decode, SerDesNative.decodePast, SerDesNative.decode, clearPast_nil]

/-! ### What is left when decoding fails -/

namespace SerDesNative

/-- The name of the root after the elements of a package: the text of what they have stored in the
name last, or else the name from before. -/
def rootName (le : Bool) (m : MemPools) (name r : List UInt8) : List UInt8 :=
  ((Variant.after le m (Datum.nameOnly m name .name)
    ((packageHistory r).attribs .name)).getD inertValue).strGet le m

end SerDesNative

/-- The name that has been kept is read as it was, whatever lies behind its block. -/
theorem Datum.nameGetPast_kept (hm : m.Plentiful) {d : Datum} {name : List UInt8} (h0 : 0 ∉ name)
    (hd : d.attribs .name = nameOnly m name .name) (behind : List UInt8) :
    d.nameGetPast le m behind = name := by
  rw [nameGetPast, attr, hd]
  cases hv : nameOnly m name .name with
  | none =>
      rw [nameOnly, Function.update_self] at hv
      split_ifs at hv with hname
      exact hname.symm
  | some v =>
      obtain ⟨hholds, hty, -⟩ := nameOnly_wf le hm hv
      have hin : v.StrGetInside := hholds.wf.strGetInside_iff.2 fun hblob => by
        cases hty.symm.trans hblob
      have hvalue := hholds.value_eq
      rw [cStr_of_notMem h0, Variant.value, hty] at hvalue
      rw [Option.getD_some, hholds.wf.strGetPast_eq hin, Variant.strGet, hty]
      exact Value.text.inj hvalue

/-- A name that has been read has no terminator in it. -/
theorem Datum.zero_notMem_nameGetPast (behind : List UInt8) (d : Datum) :
    0 ∉ d.nameGetPast le m behind := zero_notMem_strGet le m _

/-- Clearing keeps the name. -/
theorem Datum.nameGet_clear (hm : m.Plentiful) {d : Datum} (hact : d.isInert = false) :
    (d.clear le m).nameGet le m = d.nameGet le m := by
  have h0 : 0 ∉ d.nameGet le m := zero_notMem_strGet le m _
  have hkept : (d.clear le m).nameGetPast le m [] = d.nameGet le m :=
    nameGetPast_kept hm h0 (by rw [clear_eq hact]) []
  rwa [nameGetPast_nil] at hkept

/-- **When the name of a root is one whatever lies behind its block.** -/
theorem Records.nameGetPast_eq_iff (hm : m.Plentiful) {name : List UInt8} {root : Datum} {h : History}
    (hrec : Records le m (Datum.nameOnly m name) root h) (str : List UInt8) :
    (∀ behind, root.nameGetPast le m behind = str) ↔
      SerDesNative.Terminated le m (SerDesNative.startBlock m name [] .name) (h.attribs .name) ∧
        ((Variant.after le m (Datum.nameOnly m name .name) (h.attribs .name)).getD
          inertValue).strGet le m = str := by
  have hstart : ∀ a v, Datum.nameOnly m name a = some v → v.Wf ∧ v.type ≠ .blob := by
    intro a v hv
    obtain ⟨hholds, hty, -⟩ := Datum.nameOnly_wf le hm hv
    exact ⟨hholds.wf, fun hc => by cases hty.symm.trans hc⟩
  obtain ⟨-, hattribs, -⟩ := records_iff.1 hrec
  simp only [Datum.nameGetPast, Datum.attr]
  rw [← hattribs]
  cases hv : root.attribs .name with
  | none =>
      -- a root without a name has been given none
      have hterm : SerDesNative.Terminated le m (SerDesNative.startBlock m name [] .name)
          (h.attribs .name) := by
        rw [hattribs] at hv
        cases ha : h.attribs .name with
        | nil => trivial
        | cons x xs =>
            rw [ha, Variant.after] at hv
            cases hv
      exact ⟨fun hall => ⟨hterm, hall []⟩, fun hstr _ => hstr.2⟩
  | some v =>
      rw [Option.getD_some, (hrec.variant hm hstart hv).1.strGetPast_eq_iff,
        hrec.strGetInside_iff hm hstart hv]
      rfl

section Failed

open SerDesNative

variable [LawfulBlockStore β] {s : StreamBase β} {f : FlatStream UInt8} {dat dat' : Datum} {check : Bool}
  {t : StreamBase β}

/-- What is left is a datum with a name, or without one, and nothing else: the name is what that of the
root is read as. -/
theorem SerDesNative.decodePast_failed (hm : m.Plentiful) (hs : s.Represents f)
    (hact : dat.isInert = false) {behind behind' : List UInt8}
    (hdec : dat.decodePast le m behind behind' check s = some (false, dat', t)) :
    ∃ root, Records le m (Datum.nameOnly m (dat.nameGetPast le m behind)) root
        (packageHistory f.content) ∧
      ∀ behind', dat.decodePast le m behind behind' check s =
        some (false, ⟨false, true, Datum.nameOnly m (root.nameGetPast le m behind'), none, []⟩, t) := by
  have hpast : ∀ behind', dat.decodePast le m behind behind' check s =
      SerDesNative.decodePast le m behind behind' s dat check := by
    intro behind'
    rw [Datum.decodePast, if_neg (by simp [hact])]
  rw [hpast, SerDesNative.decodePast, Datum.clearPast_eq hact] at hdec
  obtain ⟨⟨rv, root, t'⟩, hrun, heq⟩ := Option.map_eq_some_iff.1 hdec
  cases heq
  have hrec := execDecodeStates_records hm hs _ hrun
  obtain ⟨hinert, -⟩ := records_iff.1 hrec
  refine ⟨root, hrec, fun behind' => ?_⟩
  rw [hpast, SerDesNative.decodePast, Datum.clearPast_eq hact, hrun, Option.map_some,
    if_neg Bool.false_ne_true, Datum.clearPast_eq hinert]

/-- **When a failed decoding leaves no trace**, whatever lies behind the memory block of the name by then:
there is nothing but the name from before, exactly if the elements up to the failure have left the root
with the name that it had, as a text that ends in its block. -/
theorem native_decode_failed_iff (hm : m.Plentiful) (hs : s.Represents f)
    (hact : dat.isInert = false) (behind : List UInt8)
    (hfail : ∃ behind' dat' t, dat.decodePast le m behind behind' check s = some (false, dat', t)) :
    (∀ behind' dat' t, dat.decodePast le m behind behind' check s = some (false, dat', t) →
      dat'.OnlyNamed le m (dat.nameGetPast le m behind)) ↔
      Terminated le m (startBlock m (dat.nameGetPast le m behind) [] .name)
          ((packageHistory f.content).attribs .name) ∧
        rootName le m (dat.nameGetPast le m behind) f.content = dat.nameGetPast le m behind := by
  obtain ⟨_, _, t, hdec⟩ := hfail
  obtain ⟨root, hrec, hleft⟩ := decodePast_failed hm hs hact hdec
  rw [rootName, ← hrec.nameGetPast_eq_iff hm]
  have hkept : ∀ behind', (⟨false, true, Datum.nameOnly m (root.nameGetPast le m behind'), none, []⟩ :
      Datum).nameGetPast le m [] = root.nameGetPast le m behind' :=
    fun behind' => Datum.nameGetPast_kept hm (Datum.zero_notMem_nameGetPast behind' root) rfl []
  constructor
  · intro hall behind'
    rw [← hkept behind']
    exact (hall behind' _ t (hleft behind')).1 []
  · intro hname behind' dat' t' hdec'
    have heq := (hleft behind').symm.trans hdec'
    rw [hname behind'] at heq
    cases heq
    refine ⟨Datum.nameGetPast_kept hm (Datum.zero_notMem_nameGetPast behind dat) rfl, fun hnil => ?_,
      fun a ha => Datum.nameOnly_of_ne m _ ha, rfl⟩
    rw [hnil, Datum.nameOnly_nil]

end Failed

/-! ### Packages that are cut off -/

/-- Octets of which not all elements are taken are not decoded, whatever lies behind the name. -/
theorem SerDesNative.exists_decodePast_failed (dat : Datum) (hact : dat.isInert = false)
    (octets : List UInt8) (h : (packageElements octets).2 = none) :
    ∃ (t : StreamBuf) (g : FlatStream UInt8), t.Represents g ∧ g.content = octets ∧
      ∀ behind, ∃ behind' dat' t', dat.decodePast true defaultPools behind behind' false t =
        some (false, dat', t') := by
  obtain ⟨t, g, ht, hg⟩ := StreamBuf.exists_represents octets
  refine ⟨t, g, ht, hg, fun behind => ?_⟩
  obtain ⟨st', done, -, htrue, -, -, hend⟩ := execDecodeStates_elements (m := defaultPools) true ht
    (dat.clearPast true defaultPools behind) false
  have hdone : done = false := by
    cases done with
    | false => rfl
    | true =>
        obtain ⟨rest, hrest, -⟩ := htrue rfl
        rw [hg, h] at hrest
        cases hrest
  refine ⟨[], st'.root.clearPast true defaultPools [], st'.stream, ?_⟩
  rw [Datum.decodePast, if_neg (by simp [hact]), decodePast, hend (.inl rfl), hdone, Option.map_some,
    if_neg Bool.false_ne_true]

/-- A package that is cut off behind the name. -/
def cutOctets : List UInt8 := [0x88, 0xa0, 0x00, 0xa2, 0xb0, 13, 1, 0x58]

/-- A package that is cut off behind a value of the root and a sub-datum with a name. -/
def cutValueOctets : List UInt8 :=
  [0x88, 0xa0, 0x00, 0xa2, 0xc0, 2, 7, 0xa2, 0xb0, 13, 1, 0x58]

/-- A package that is cut off behind a blob of sixteen octets for the name. -/
def cutFullNameOctets : List UInt8 :=
  [0x88, 0xa0, 0x00, 0xa2, 0xb0, 14, 16] ++ List.replicate 16 0x58

/-- A datum with that name. -/
def fullNamed : Datum := Datum.construct defaultPools (List.replicate 16 0x58) false

/-- What the condition says of these packages: a datum keeps a name if the package has none, and not, if it
has another, or the same in a blob without a terminator. -/
theorem native_decode_failed_sample :
    (∃ (t : StreamBuf) (g : FlatStream UInt8), t.Represents g ∧ g.content = cutValueOctets ∧
      ∀ behind' dat' t', fullNamed.decodePast true defaultPools [] behind' false t =
        some (false, dat', t') →
          dat'.OnlyNamed true defaultPools (fullNamed.nameGetPast true defaultPools [])) ∧
    (∃ (t : StreamBuf) (g : FlatStream UInt8), t.Represents g ∧ g.content = cutOctets ∧
      ¬ ∀ behind' dat' t', fullNamed.decodePast true defaultPools [] behind' false t =
        some (false, dat', t') →
          dat'.OnlyNamed true defaultPools (fullNamed.nameGetPast true defaultPools [])) ∧
    ∃ (t : StreamBuf) (g : FlatStream UInt8), t.Represents g ∧ g.content = cutFullNameOctets ∧
      ¬ ∀ behind' dat' t', fullNamed.decodePast true defaultPools [] behind' false t =
        some (false, dat', t') →
          dat'.OnlyNamed true defaultPools (fullNamed.nameGetPast true defaultPools []) := by
  refine ⟨?_, ?_, ?_⟩
  · obtain ⟨t, g, ht, hg, hfail⟩ := SerDesNative.exists_decodePast_failed fullNamed rfl cutValueOctets
      (by decide)
    refine ⟨t, g, ht, hg,
      (native_decode_failed_iff plentiful_defaultPools ht rfl [] (hfail [])).2 ?_⟩
    rw [hg]
    exact ⟨by decide, by decide⟩
  · obtain ⟨t, g, ht, hg, hfail⟩ := SerDesNative.exists_decodePast_failed fullNamed rfl cutOctets
      (by decide)
    refine ⟨t, g, ht, hg,
      mt (native_decode_failed_iff plentiful_defaultPools ht rfl [] (hfail [])).1 ?_⟩
    rw [hg]
    exact fun hc => absurd hc.2 (by decide)
  · obtain ⟨t, g, ht, hg, hfail⟩ := SerDesNative.exists_decodePast_failed fullNamed rfl
      cutFullNameOctets (by decide)
    refine ⟨t, g, ht, hg,
      mt (native_decode_failed_iff plentiful_defaultPools ht rfl [] (hfail [])).1 ?_⟩
    rw [hg]
    exact fun hc => absurd hc.1 (by decide)

/-- **A name from a rejected package**: the datum had none before, and has one now. -/
theorem native_decode_failed_named :
    ∃ (t : StreamBuf) (g : FlatStream UInt8) (dat : Datum) (t' : StreamBuf), t.Represents g ∧
      g.content = cutOctets ∧
      Datum.fresh.decodePast true defaultPools [] [] false t = some (false, dat, t') ∧
      Datum.fresh.nameGetPast true defaultPools [] = [] ∧
      dat.nameGetPast true defaultPools [] = [0x58] := by
  obtain ⟨t, g, ht, hg, hfail⟩ := SerDesNative.exists_decodePast_failed Datum.fresh rfl cutOctets
    (by decide)
  obtain ⟨_, _, t', hdec⟩ := hfail []
  obtain ⟨root, hrec, hleft⟩ := SerDesNative.decodePast_failed plentiful_defaultPools ht rfl hdec
  refine ⟨t, g, _, t', ht, hg, hleft [], rfl, ?_⟩
  rw [Datum.nameGetPast_kept plentiful_defaultPools
    (Datum.zero_notMem_nameGetPast [] root) rfl]
  obtain ⟨-, hattribs, -⟩ := records_iff.1 hrec
  rw [Datum.nameGetPast, Datum.attr, hattribs, hg]
  decide

end CodePort
