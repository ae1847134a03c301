/-
What a datum is like after it has been decoded.

Whatever the octets are: a datum that is decoded from them can be encoded again, and comes back as it
was.  The text of an attribute may lie behind the end of its memory block, if a blob fills the block.

Main definitions:

* `CodePort.Variant.StrGetInside` — the getter of the text stays inside of the memory block;
* `CodePort.SerDesNative.blockAfter` — the octets of a memory block after some values;
* `CodePort.SerDesNative.Terminated` — the last of some values leaves a text that ends in its block.

Main results:

* `CodePort.Records.encodable` — **a datum that has been built from values can be encoded**;
* `CodePort.native_decode_retract` — **a datum that has been decoded comes back as it is**;
* `CodePort.Records.strGetInside_iff` — when the text of one attribute is inside of its block;
* `CodePort.native_strGet_inside_iff` — when every text is inside of its memory block.
-/

import CodePort.NativeHistory
import CodePort.TextUtil

set_option relaxedAutoImplicit false
set_option autoImplicit false

namespace CodePort

open BlockStore PrefixParser

variable {le : Bool} {m : MemPools}

/-! ### Texts -/

theorem zero_notMem_text (x : FloatVal) : 0 ∉ x.text := by
  cases x with
  | inf neg => cases neg <;> decide
  | nan neg => cases neg <;> decide
  | finite neg k e =>
      have hdec := notMem_decText (c := 0) (.inr rfl)
      have hsign : 0 ∉ if neg then ascii "-" else [] := by cases neg <;> decide
      have hpoint : 0 ∉ ascii "." := by decide
      have hpad : ∀ n, (0 : UInt8) ∉ List.replicate n 48 := by
        intro n hmem
        exact absurd (List.eq_of_mem_replicate hmem) (by decide)
      simp only [FloatVal.text, List.mem_append, not_or]
      exact ⟨⟨⟨hsign, hdec _⟩, hpoint⟩, hpad _, hdec _⟩

/-- **A text that a variant returns** has no terminator in it. -/
theorem zero_notMem_strGet (le : Bool) (m : MemPools) (v : Variant) : 0 ∉ v.strGet le m := by
  have huint := fun n => notMem_decText (c := 0) (.inr rfl) (n % 2 ^ 32)
  have hint := notMem_intToStr (c := 0) (.inr rfl)
  have hfloat : ∀ n x, 0 ∉ floatToStr n x := by
    intro n x hmem
    exact zero_notMem_text x (List.mem_of_mem_take hmem)
  rw [Variant.strGet]
  cases v.type with
  | uint8 => exact huint _
  | uint16 => exact huint _
  | uint32 => exact huint _
  | uint64 => exact huint _
  | int8 => exact hint _
  | int16 => exact hint _
  | int32 => exact hint _
  | int64 => exact hint _
  | float32 => exact hfloat _ _
  | float64 => exact hfloat _ _
  | bool =>
      dsimp only
      split_ifs <;> decide
  | string => exact zero_notMem_cStr _
  | blob => exact zero_notMem_cStr _
  | inert => exact List.not_mem_nil
  | none => exact List.not_mem_nil
  | datumList => exact List.not_mem_nil

/-! ### What is decoded can be encoded -/

/-- The value that has been stored last is the one that is held. -/
theorem Variant.stores_after (le : Bool) (hm : m.Plentiful) (start : Option Variant) (x : Value)
    (xs : List Value) : ∃ v, Variant.after le m start (x :: xs) = some v ∧ v.Stores le x :=
  ⟨_, rfl, rfl, Buffer.data_copyIn hm _ _⟩

/-- A variant that stores a value can be encoded. -/
theorem Variant.Stores.encodable {v : Variant} {x : Value} (h : v.Stores le x) (hx : x.Proper) :
    v.Encodable := by
  obtain ⟨hty, hdata⟩ := h
  have hlen : v.buf.dataLen = (x.storage le).length := by rw [← Buffer.length_data, hdata]
  have hne := hx.type_ne
  rw [← hty] at hne
  -- what is asked for of one type is empty for a variant of another
  have hnot : ∀ {t : DataType} {P : Prop}, x.type ≠ t → v.type = t → P := by
    intro t P hxt hc
    exact absurd (hty.symm.trans hc) hxt
  have hwidth : x.type.width = none → ∀ w, v.type.width = some w → w ≤ v.buf.dataLen := by
    intro hnone w hw
    rw [hty, hnone] at hw
    cases hw
  cases x with
  | none =>
      exact ⟨⟨hwidth rfl, hnot (by rintro ⟨⟩), hnot (by rintro ⟨⟩)⟩, hne.1, hne.2, hnot (by rintro ⟨⟩),
        hnot (by rintro ⟨⟩)⟩
  | num t n =>
      obtain ⟨w, hw, -⟩ := hx
      have hxt : ∀ t', t'.width = none → t ≠ t' := by
        rintro t' ht' rfl
        rw [ht'] at hw
        cases hw
      refine ⟨⟨fun w' hw' => ?_, hnot (hxt _ rfl), hnot (hxt _ rfl)⟩, hne.1, hne.2,
        hnot (hxt _ rfl), hnot (hxt _ rfl)⟩
      rw [hty, Value.type] at hw'
      rw [hlen, Value.storage, Octets.length_toHost, hw', Option.getD_some]
  | bool b =>
      exact ⟨⟨hwidth rfl, fun _ => hlen.ge, hnot (by rintro ⟨⟩)⟩, hne.1, hne.2, hnot (by rintro ⟨⟩),
        hnot (by rintro ⟨⟩)⟩
  | text s =>
      refine ⟨⟨hwidth rfl, hnot (by rintro ⟨⟩), fun _ => ?_⟩, hne.1, hne.2, fun _ => ?_, hnot (by rintro ⟨⟩)⟩
      · rw [hdata]
        exact List.mem_append_right _ (List.mem_singleton_self 0)
      · rw [← v.buf.data_append_drop, hdata, Value.storage, List.append_assoc,
          List.singleton_append, cStr_append_zero hx.1]
        exact hx.2
  | blob d =>
      exact ⟨⟨hwidth rfl, hnot (by rintro ⟨⟩), hnot (by rintro ⟨⟩)⟩, hne.1, hne.2, hnot (by rintro ⟨⟩),
        fun _ => hlen.trans_lt hx⟩
  | void t => exact hx.elim

mutual

/-- **A datum that has been built from values** can be encoded. -/
theorem Records.encodable (hm : m.Plentiful) : ∀ (d : Datum) {h : History},
    Records le m (fun _ => none) d h → d.Encodable
  | ⟨isInert, _, attribs, _, datums⟩, h, hrec => by
      obtain ⟨hact, hattribs, -, hproper, hall⟩ := hrec
      refine ⟨hact, ?_, fun a v hv => ?_, AllRecords.encodable hm datums hall⟩
      · rw [hattribs]
        cases hnone : h.attribs .none with
        | nil => rfl
        | cons x xs =>
            have hx : x ∈ h.attribs .none := hnone ▸ List.mem_cons_self
            exact absurd rfl (hproper .none x hx).1
      · rw [hattribs] at hv
        cases ha : h.attribs a with
        | nil =>
            rw [ha, Variant.after] at hv
            cases hv
        | cons x xs =>
            have hx : x ∈ h.attribs a := ha ▸ List.mem_cons_self
            obtain ⟨u, hu, hstores⟩ := Variant.stores_after le hm none x xs
            rw [ha, hu] at hv
            obtain rfl := Option.some.inj hv
            exact hstores.encodable (hproper a x hx).2

theorem AllRecords.encodable (hm : m.Plentiful) : ∀ (ds : List Datum) {hs : List History},
    AllRecords le m ds hs → Datum.AllEncodable ds
  | [], _, _ => trivial
  | d :: ds, _, hall => by
      obtain ⟨h, hs', -, hhead, htail⟩ := hall
      exact ⟨Records.encodable hm d hhead, AllRecords.encodable hm ds htail⟩

end

section Retract

variable {β γ δ : Type} [BlockStore β] [LawfulBlockStore β] [BlockStore γ] [LawfulBlockStore γ]
  [BlockStore δ] [LawfulBlockStore δ]

/-- **A datum that has been decoded comes back as it is**: whatever the octets were, it can be
encoded, and is decoded from its encoding to the same tree, on a host of any byte order. -/
theorem native_decode_retract (le' : Bool) (hm : m.Plentiful) {m' : MemPools} (hm' : m'.Plentiful)
    {t : StreamBase β} {g : FlatStream UInt8} (ht : t.Represents g) {dst dat : Datum}
    (hact : dst.isInert = false) (hname : dst.nameGet le m = []) {t' : StreamBase β}
    (hdec : dst.decode le m false t = some (true, dat, t'))
    {s : StreamBase γ} {f : FlatStream UInt8} (hs : s.Represents f)
    {dst' : Datum} (hact' : dst'.isInert = false) (hname' : dst'.nameGet le' m' = []) :
    ∃ s', dat.encode le m .none s = some (true, s') ∧
      ∀ {u : StreamBase δ} {k : FlatStream UInt8}, u.Represents k → k.content = s'.octets →
        ∃ dat' u', dst'.decode le' m' false u = some (true, dat', u') ∧
          dat'.tree le' = dat.tree le := by
  obtain ⟨root, hrec, hroot⟩ := SerDesNative.decode_records hm ht hact hdec
  rw [hname, Datum.nameOnly_nil] at hrec
  obtain rfl : dat = root := hroot
  exact native_decode_encode le le' m hm' (hrec.encodable hm) hs hact' hname'

end Retract

/-! ### What is decoded at all -/

namespace SerDesNative

variable {β : Type} [BlockStore β] [LawfulBlockStore β]

/-- Without a checksum decoding always ends, and succeeds where the elements end with the package. -/
theorem decode_done (le : Bool) (hm : m.Plentiful) {s : StreamBase β} {f : FlatStream UInt8}
    (hs : s.Represents f) (dat : Datum) (hact : dat.isInert = false) :
    ∃ dat' t, dat.decode le m false s =
      some ((packageElements f.content).2.isSome, dat', t) := by
  obtain ⟨st', done, -, hdone, hfail, -, hdec⟩ := decode_elements (m := m) le hs dat false
  obtain ⟨t, ht⟩ := hdec (.inl rfl)
  rw [Datum.decode, if_neg (by simp [hact]), ht]
  cases done with
  | true =>
      rw [Option.isSome_iff_ne_none.2 (hdone rfl)]
      exact ⟨_, t, rfl⟩
  | false =>
      rw [hfail rfl hm]
      exact ⟨_, t, rfl⟩

end SerDesNative

/-- There is a stream with any octets. -/
theorem StreamBuf.exists_represents (d : List UInt8) :
    ∃ (t : StreamBuf) (g : FlatStream UInt8), t.Represents g ∧ g.content = d := by
  have hnew : StreamBase.Ends (StreamBuf.construct sampleMem 0) [] :=
    ⟨_, StreamBuf.represents_construct plentiful_sampleMem 0, rfl, rfl⟩
  obtain ⟨t, -, g, hrep, -, hcontent⟩ := SerDesNative.ends_arrayWr hnew d
  exact ⟨t, g, hrep, hcontent⟩

/-- A package with an end in front, an attribute of the root before the root, a text with a
terminator in it, and a sub-datum that is never ended and has an attribute twice. -/
def lenientOctets : List UInt8 :=
  [0x88, 0xa0, 0x00, 0xa3, 0xb0, 13, 2, 0x58, 0x00, 0xa2, 0xa2, 0xc0, 2, 7, 0xc0, 12, 5, 0xa1]

/-- Such a package is decoded, and comes back. -/
theorem native_decode_retract_lenient :
    ∃ (t : StreamBuf) (g : FlatStream UInt8) (dat : Datum) (t' : StreamBuf), t.Represents g ∧
      g.content = lenientOctets ∧
      Datum.fresh.decode true exactPools false t = some (true, dat, t') ∧
      ∃ s', dat.encode true exactPools .none (StreamBuf.construct sampleMem 0) = some (true, s') ∧
        ∀ {u : StreamBuf} {k : FlatStream UInt8}, u.Represents k → k.content = s'.octets →
          ∃ dat' u', Datum.fresh.decode false exactPools false u = some (true, dat', u') ∧
            dat'.tree false = dat.tree true := by
  obtain ⟨t, g, ht, hg⟩ := StreamBuf.exists_represents lenientOctets
  have htaken : (SerDesNative.packageElements g.content).2.isSome = true := by
    rw [hg]
    decide
  obtain ⟨dat, t', hdec⟩ := SerDesNative.decode_done true plentiful_exactPools ht Datum.fresh rfl
  rw [htaken] at hdec
  exact ⟨t, g, dat, t', ht, hg, hdec,
    native_decode_retract false plentiful_exactPools plentiful_exactPools ht rfl rfl hdec
      (StreamBuf.represents_construct plentiful_sampleMem 0) rfl rfl⟩

/-! ### Where the texts end -/

namespace Variant

/-- `StrGet` reads octets of the memory block only: where it looks for a terminator there is one. -/
def StrGetInside (v : Variant) : Prop :=
  match v.type with
  | .string | .blob => v.buf.block = none ∨ 0 ∈ v.buf.mem
  | .bool => 1 ≤ v.buf.size
  | t => ∀ w, t.width = some w → w ≤ v.buf.size

/-- Only a blob may have no terminator. -/
theorem Wf.strGetInside_iff {v : Variant} (h : v.Wf) :
    v.StrGetInside ↔ (v.type = .blob → v.buf.block = none ∨ 0 ∈ v.buf.mem) := by
  obtain ⟨hnum, hbool, hstr⟩ := h
  have hle : v.buf.dataLen ≤ v.buf.size := v.buf.dataLen_le
  have hwidth := fun w hw => (hnum w hw).trans hle
  rw [StrGetInside]
  cases hty : v.type with
  | string =>
      have h0 : 0 ∈ v.buf.mem := by
        rw [← v.buf.data_append_drop]
        exact List.mem_append_left _ (hstr hty)
      exact ⟨fun _ hc => (by cases hc), fun _ => .inr h0⟩
  | bool => exact ⟨fun _ hc => (by cases hc), fun _ => (hbool hty).trans hle⟩
  | blob => exact ⟨fun h _ => h, fun h => h rfl⟩
  | _ =>
      rw [hty] at hwidth
      exact ⟨fun _ hc => (by cases hc), fun _ => hwidth⟩

end Variant

namespace SerDesNative

/-- The octets of the memory block of an attribute after some values, the last one first: each value
lies at the start of the block that was there, if that is of a good size for it, or else at the
start of another block, of zeros. -/
def blockAfter (le : Bool) (m : MemPools) (start : List UInt8) : List Value → List UInt8
  | [] => start
  | x :: xs =>
      let d := x.storage le
      let old := blockAfter le m start xs
      let block :=
        if d.length ≤ old.length ∧ 0 < d.length ∧ old.length / d.length < 2 then old
        else if 0 < d.length then List.replicate ((m.blockSize d.length).getD 0) 0
        else []
      d ++ block.drop d.length

/-- The last value is no blob, or an empty one, or there is a terminator in its block. -/
def Terminated (le : Bool) (m : MemPools) (start : List UInt8) : List Value → Prop
  | .blob d :: xs => d = [] ∨ 0 ∈ blockAfter le m start (.blob d :: xs)
  | _ => True

instance decidableTerminated (le : Bool) (m : MemPools) (start : List UInt8) (xs : List Value) :
    Decidable (Terminated le m start xs) :=
  match xs with
  | .blob d :: xs => inferInstanceAs (Decidable (d = [] ∨ 0 ∈ blockAfter le m start (.blob d :: xs)))
  | [] | .none :: _ | .num _ _ :: _ | .bool _ :: _ | .text _ :: _ | .void _ :: _ => .isTrue trivial

end SerDesNative

namespace Buffer

theorem mem_fill (b : Buffer) (d : List UInt8) (h : d.length ≤ b.size) :
    (b.fill d h).mem = d ++ b.mem.drop d.length := by
  cases hb : b.block with
  | none =>
      have h0 : d.length ≤ 0 := by simpa [size, mem, hb] using h
      obtain rfl := List.length_eq_zero_iff.1 (Nat.le_zero.1 h0)
      simp [mem, fill, memWr, hb]
  | some x =>
      simp only [mem, fill, memWr, hb, Option.map_some, Option.getD_some, BlockList.overwrite,
        List.take_zero, List.nil_append, Nat.zero_add]

/-- **What copying leaves in the memory block.** -/
theorem mem_copyIn (hm : m.Plentiful) (b : Buffer) (d : List UInt8) :
    (b.copyIn m d).2.mem = d ++
      (if d.length ≤ b.mem.length ∧ 0 < d.length ∧ b.mem.length / d.length < 2 then b.mem
      else if 0 < d.length then List.replicate ((m.blockSize d.length).getD 0) 0
      else []).drop d.length := by
  have hfst := resize_fst hm b d.length
  have hkeeps : b.keeps d.length = decide (d.length ≤ b.mem.length ∧ 0 < d.length ∧
      b.mem.length / d.length < 2) := by
    rw [keeps]
    cases hb : b.block with
    | none =>
        refine (decide_eq_false ?_).symm
        rintro ⟨hle, hpos, -⟩
        simp only [mem, hb, Option.getD_none, List.length_nil] at hle
        omega
    | some x => simp only [mem, hb, Option.getD_some]
  have hmem : (b.resize m d.length).2.mem =
      if d.length ≤ b.mem.length ∧ 0 < d.length ∧ b.mem.length / d.length < 2 then b.mem
      else if 0 < d.length then List.replicate ((m.blockSize d.length).getD 0) 0 else [] := by
    rw [resize, hkeeps]
    simp only [decide_eq_true_eq]
    split_ifs with hkeep hpos
    · rfl
    · obtain ⟨k, hk⟩ := Option.ne_none_iff_exists'.1 (hm d.length)
      simp only [mem, freshBlock, if_pos hpos, hk, Option.map_some, Option.getD_some]
    · simp only [mem, freshBlock, if_neg hpos, Option.getD_none]
  rw [copyIn, dif_pos hfst, mem_fill, hmem]

/-- Copying nothing leaves no memory block. -/
theorem block_copyIn_nil (hm : m.Plentiful) (b : Buffer) : (b.copyIn m []).2.block = none := by
  have hkeeps : b.keeps 0 = false := by
    rw [keeps]
    cases b.block with
    | none => rfl
    | some x => simp
  have hblock : (b.resize m 0).2.block = none := by rw [resize, hkeeps]; rfl
  rw [copyIn, dif_pos (resize_fst hm b _), fill]
  simp [memWr, hblock]

end Buffer

/-- The memory block of a variant that has been given some values. -/
theorem Variant.mem_after (le : Bool) (hm : m.Plentiful) (start : Option Variant) (xs : List Value) :
    ((Variant.after le m start xs).getD (Variant.construct m false)).buf.mem =
      SerDesNative.blockAfter le m (start.getD (Variant.construct m false)).buf.mem xs := by
  induction xs with
  | nil => rfl
  | cons x xs ih =>
      rw [Variant.after, Option.getD_some, SerDesNative.blockAfter, ← ih]
      exact Buffer.mem_copyIn hm _ _

/-- Every attribute of a datum that has been built from values is well formed, and if it is a blob,
that is the last value. -/
theorem Records.variant (hm : m.Plentiful) {start : Attrib → Option Variant} {x : Datum}
    {h : History} (hstart : ∀ a v, start a = some v → v.Wf ∧ v.type ≠ .blob)
    (hrec : Records le m start x h) {a : Attrib} {v : Variant} (hv : x.attribs a = some v) :
    v.Wf ∧ (v.type = .blob → ∃ d xs, h.attribs a = .blob d :: xs) := by
  obtain ⟨-, hattribs, -, hproper, -⟩ := records_iff.1 hrec
  rw [hattribs] at hv
  cases ha : h.attribs a with
  | nil =>
      rw [ha] at hv
      obtain ⟨hwf, hne⟩ := hstart a v hv
      exact ⟨hwf, fun hc => absurd hc hne⟩
  | cons y ys =>
      obtain ⟨u, hu, hstores⟩ := Variant.stores_after le hm (start a) y ys
      rw [ha, hu] at hv
      obtain rfl := Option.some.inj hv
      have hy := (hproper a y (ha ▸ List.mem_cons_self)).2
      refine ⟨(hstores.encodable hy).wf, fun hc => ?_⟩
      rw [hstores.type_eq] at hc
      cases y with
      | blob d => exact ⟨d, ys, rfl⟩
      | num t n =>
          obtain rfl : t = .blob := hc
          obtain ⟨w, hw, -⟩ := hy
          cases hw
      | void t => exact hy.elim
      | none => cases hc
      | bool b => cases hc
      | text s => cases hc

/-- **When the text of an attribute is inside of its block**: exactly if a blob that it is left with has a
terminator there. -/
theorem Records.strGetInside_iff (hm : m.Plentiful) {start : Attrib → Option Variant} {x : Datum}
    {h : History} (hstart : ∀ a v, start a = some v → v.Wf ∧ v.type ≠ .blob)
    (hrec : Records le m start x h) {a : Attrib} {v : Variant} (hv : x.attribs a = some v) :
    v.StrGetInside ↔ SerDesNative.Terminated le m
      ((start a).getD (Variant.construct m false)).buf.mem (h.attribs a) := by
  obtain ⟨hwf, hblob⟩ := hrec.variant hm hstart hv
  obtain ⟨-, hattribs, -⟩ := records_iff.1 hrec
  have hmem := Variant.mem_after le hm (start a) (h.attribs a)
  rw [← hattribs, hv, Option.getD_some] at hmem
  rw [hwf.strGetInside_iff]
  by_cases hty : v.type = .blob
  · obtain ⟨d, xs, ha⟩ := hblob hty
    have hafter : some v = Variant.after le m (start a) (.blob d :: xs) := by
      rw [← ha, ← hattribs, hv]
    obtain rfl := Option.some.inj hafter
    rw [ha] at hmem ⊢
    rw [SerDesNative.Terminated, ← hmem]
    constructor
    · intro hin
      refine (hin hty).imp_left fun hnull => ?_
      -- without a block there is nothing that the blob could have put there
      have hnil : SerDesNative.blockAfter le m
          ((start a).getD (Variant.construct m false)).buf.mem (.blob d :: xs) = [] := by
        rw [← hmem, Buffer.mem, hnull, Option.getD_none]
      exact (List.append_eq_nil_iff.1 hnil).1
    · rintro (rfl | h0) -
      · exact .inl (Buffer.block_copyIn_nil hm _)
      · exact .inr h0
  · refine iff_of_true (fun hc => absurd hc hty) ?_
    -- what is no blob is left by a value that is none
    cases ha : h.attribs a with
    | nil => trivial
    | cons y ys =>
        obtain ⟨u, hu, hstores⟩ := Variant.stores_after le hm (start a) y ys
        rw [← ha, ← hattribs, hv] at hu
        obtain rfl := Option.some.inj hu
        cases y with
        | blob d => exact absurd hstores.type_eq hty
        | _ => trivial

/-- The name that clearing leaves is a text. -/
theorem Datum.nameOnly_wf (le : Bool) (hm : m.Plentiful) {name : List UInt8} {a : Attrib} {v : Variant}
    (hv : Datum.nameOnly m name a = some v) :
    v.Holds le (.text (cStr name)) ∧ v.type = .string ∧ a = .name ∧ name ≠ [] := by
  by_cases ha : a = .name
  · rw [ha, Datum.nameOnly, Function.update_self] at hv
    split_ifs at hv with hname
    obtain rfl := Option.some.inj hv
    exact ⟨(Variant.holds_strSet hm le _ name).copy hm, rfl, ha, hname⟩
  · rw [Datum.nameOnly_of_ne m name ha] at hv
    cases hv

namespace SerDesNative

/-- The memory block of an attribute before the elements: that of the name of the root, if it has
one, or that of a new variant. -/
def startBlock (m : MemPools) (name : List UInt8) (p : List ℕ) (a : Attrib) : List UInt8 :=
  ((startAt (Datum.nameOnly m name) p a).getD (Variant.construct m false)).buf.mem

end SerDesNative

section Decoded

open SerDesNative

variable {β : Type} [BlockStore β] [LawfulBlockStore β] {s : StreamBase β} {f : FlatStream UInt8}
  {dat dat' : Datum} {check : Bool} {t : StreamBase β}

/-- **When every text is inside of its memory block**: exactly if every blob that an attribute is
left with has a terminator in its block, either in its own octets or behind them. -/
theorem native_strGet_inside_iff (hm : m.Plentiful) (hs : s.Represents f)
    (hact : dat.isInert = false) (hdec : dat.decode le m check s = some (true, dat', t)) :
    (∀ p x, dat'.at p = some x → ∀ a v, x.attribs a = some v → v.StrGetInside) ↔
      ∀ p h, (packageHistory f.content).at p = some h → ∀ a,
        Terminated le m (startBlock m (dat.nameGet le m) p a) (h.attribs a) := by
  obtain ⟨root, hrec, hroot⟩ := decode_records hm hs hact hdec
  obtain rfl : dat' = root := hroot
  have hstart : ∀ p a v, startAt (Datum.nameOnly m (dat.nameGet le m)) p a = some v →
      v.Wf ∧ v.type ≠ .blob := by
    intro p a v hv
    cases p with
    | nil =>
        obtain ⟨hholds, hty, -⟩ := Datum.nameOnly_wf le hm hv
        exact ⟨hholds.wf, fun hc => by cases hty.symm.trans hc⟩
    | cons i p => cases hv
  constructor
  · intro hall p h hh a
    obtain ⟨x, hx, hrec'⟩ := hrec.exists_at hh
    cases hv : x.attribs a with
    | none =>
        -- an attribute that is not there has been given nothing
        obtain ⟨-, hattribs, -⟩ := records_iff.1 hrec'
        rw [hattribs] at hv
        cases ha : h.attribs a with
        | nil => trivial
        | cons y ys =>
            rw [ha, Variant.after] at hv
            cases hv
    | some v => exact (hrec'.strGetInside_iff hm (hstart p) hv).1 (hall p x hx a v hv)
  · intro hall p x hx a v hv
    obtain ⟨h, hh, hrec'⟩ := hrec.at hx
    exact (hrec'.strGetInside_iff hm (hstart p) hv).2 (hall p h hh a)

end Decoded

/-- The blocks of the pools that are created at the start; a larger block is one of its own. -/
def defaultPools : MemPools where
  blockSize n := some (([16, 64, 256, 1024, 4096, 16384].find? fun k => n ≤ k).getD n)
  le_blockSize := by
    intro n k h
    obtain rfl := Option.some.inj h
    cases hfind : [16, 64, 256, 1024, 4096, 16384].find? fun k => decide (n ≤ k) with
    | none => exact le_rfl
    | some k => simpa using List.find?_some hfind

theorem plentiful_defaultPools : defaultPools.Plentiful := fun _ => Option.some_ne_none _

/-- A package whose root has a blob of sixteen octets for its name. -/
def fullNameOctets : List UInt8 :=
  [0x88, 0xa0, 0x00, 0xa2, 0xb0, 14, 16] ++ List.replicate 16 0x58 ++ [0xa3, 0xa1]

/-- A package whose root has a shorter blob for its name, and a sub-datum with a number. -/
def shortNameOctets : List UInt8 :=
  [0x88, 0xa0, 0x00, 0xa2, 0xb0, 14, 3, 0x58, 0x59, 0x5a, 0xa2, 0xc0, 2, 7, 0xa3, 0xa3, 0xa1]

/-- Octets are decoded, or not, as their elements are taken. -/
theorem SerDesNative.exists_decode (octets : List UInt8) (taken : Bool)
    (h : (packageElements octets).2.isSome = taken) :
    ∃ (t : StreamBuf) (g : FlatStream UInt8) (dat : Datum) (t' : StreamBuf), t.Represents g ∧
      g.content = octets ∧ Datum.fresh.decode true defaultPools false t = some (taken, dat, t') := by
  obtain ⟨t, g, ht, hg⟩ := StreamBuf.exists_represents octets
  obtain ⟨dat, t', hdec⟩ := decode_done true plentiful_defaultPools ht Datum.fresh rfl
  rw [hg, h] at hdec
  exact ⟨t, g, dat, t', ht, hg, hdec⟩

/-- A name that leaves room for a terminator, and one that does not. -/
theorem native_strGet_inside_sample :
    (∃ (t : StreamBuf) (g : FlatStream UInt8) (dat : Datum) (t' : StreamBuf), t.Represents g ∧
      g.content = shortNameOctets ∧
      Datum.fresh.decode true defaultPools false t = some (true, dat, t') ∧
      ∀ p x, dat.at p = some x → ∀ a v, x.attribs a = some v → v.StrGetInside) ∧
    ∃ (t : StreamBuf) (g : FlatStream UInt8) (dat : Datum) (t' : StreamBuf), t.Represents g ∧
      g.content = fullNameOctets ∧
      Datum.fresh.decode true defaultPools false t = some (true, dat, t') ∧
      ¬ ∀ p x, dat.at p = some x → ∀ a v, x.attribs a = some v → v.StrGetInside := by
  constructor
  · obtain ⟨t, g, dat, t', ht, hg, hdec⟩ := SerDesNative.exists_decode shortNameOctets true
      (by decide)
    refine ⟨t, g, dat, t', ht, hg, hdec,
      (native_strGet_inside_iff plentiful_defaultPools ht rfl hdec).2 fun p h hh a => ?_⟩
    rw [hg] at hh
    match p, hh with
    | [], hh =>
        obtain rfl := Option.some.inj hh
        cases a with
        | name => exact .inr (by decide)
        | _ => trivial
    | [0], hh =>
        obtain rfl := Option.some.inj hh
        cases a <;> trivial
    | 0 :: _ :: _, hh => cases hh
    | (_ + 1) :: _, hh => cases hh
  · obtain ⟨t, g, dat, t', ht, hg, hdec⟩ := SerDesNative.exists_decode fullNameOctets true
      (by decide)
    refine ⟨t, g, dat, t', ht, hg, hdec,
      mt (native_strGet_inside_iff plentiful_defaultPools ht rfl hdec).1 fun hall => ?_⟩
    have hname := hall [] _ rfl .name
    rw [hg] at hname
    exact absurd hname (by decide)

/-- **A name that fills its block**: the blob takes the whole block of sixteen octets that a new
variant has, and the search for its terminator leaves the block. -/
theorem native_strGet_outside :
    ∃ (t : StreamBuf) (g : FlatStream UInt8) (dat : Datum) (t' : StreamBuf), t.Represents g ∧
      g.content = fullNameOctets ∧
      Datum.fresh.decode true defaultPools false t = some (true, dat, t') ∧
      ∃ v, dat.attribs .name = some v ∧ ¬ v.StrGetInside := by
  obtain ⟨t, g, dat, t', ht, hg, hdec⟩ := SerDesNative.exists_decode fullNameOctets true
    (by decide)
  obtain ⟨root, hrec, hroot⟩ := SerDesNative.decode_records plentiful_defaultPools ht rfl hdec
  obtain rfl : dat = root := hroot
  obtain ⟨-, hattribs, -⟩ := records_iff.1 hrec
  have hgiven : (SerDesNative.packageHistory fullNameOctets).attribs .name =
      [.blob (List.replicate 16 0x58)] := by decide
  have hname : dat.attribs .name = _ := hattribs .name
  rw [hg, hgiven] at hname
  refine ⟨t, g, dat, t', ht, hg, hdec, _, hname, ?_⟩
  have hblock : ¬ (((Variant.construct defaultPools false).buf.copyIn defaultPools
      (List.replicate 16 0x58)).2.block = none ∨
      0 ∈ ((Variant.construct defaultPools false).buf.copyIn defaultPools
        (List.replicate 16 0x58)).2.mem) := by decide
  exact hblock

end CodePort
