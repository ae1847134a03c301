/-
What the native decoder reads.

The octets behind the header of a package are a sequence of elements: marks, and attributes with their
values.  This file parses them apart from any stream or datum, and shows that the loop of the decoder
goes through exactly the elements that the parser finds.  As the parser never looks ahead, a package
that has been cut off is noticed.

Main definitions:

* `CodePort.SerDesNative.Element`, `parseElement` — the elements of a package;
* `CodePort.SerDesNative.parseValue` — the values;
* `CodePort.SerDesNative.packageElements` — the elements of a package behind its header;
* `CodePort.SerDesNative.Parses` — a function extracts what a parser finds;
* `CodePort.SerDesNative.Applied` — what an element does to the variables of the decoder.

Main results:

* `CodePort.SerDesNative.parses_variantExtract` — every value is extracted as it is parsed;
* `CodePort.SerDesNative.decodeLoop_elements` — **the loop goes through the elements that the parser
  finds**, and always ends;
* `CodePort.native_decode_truncated` — **a package that has been cut off is not decoded.**
-/

import CodePort.NativeReading
import CodePort.PrefixParser

set_option relaxedAutoImplicit false
set_option autoImplicit false

namespace CodePort

open BlockStore Octets PrefixParser

/-! ### Values in memory -/

namespace Value

/-- The type of a variant that holds the value. -/
def type : Value → DataType
  | .none => .none
  | .num t _ => t
  | .bool _ => .bool
  | .text _ => .string
  | .blob _ => .blob
  | .void t => t

/-- The octets that a variant stores the value as; without a value they are zeros. -/
def storage (le : Bool) : Value → List UInt8
  | .none => List.replicate 8 0
  | .num t n => toHost le (t.width.getD 0) n
  | .bool b => [if b then 49 else 48]
  | .text s => s ++ [0]
  | .blob d => d
  | .void _ => []

/-- A value of a type that has values, in the range of the type. -/
def Proper : Value → Prop
  | .none => True
  | .num t n => ∃ w, t.width = some w ∧ n < 256 ^ w
  | .bool _ => True
  | .text s => 0 ∉ s ∧ s.length < 2 ^ 32
  | .blob d => d.length < 2 ^ 32
  | .void _ => False

/-- A variant that stores such a value is not inert. -/
theorem Proper.type_ne {x : Value} (h : x.Proper) : x.type ≠ .inert ∧ x.type ≠ .datumList := by
  cases x with
  | num t n =>
      obtain ⟨w, hw, -⟩ := h
      constructor
      · rintro rfl
        cases hw
      · rintro rfl
        cases hw
  | void t => exact h.elim
  | _ => exact ⟨fun hc => (by cases hc), fun hc => (by cases hc)⟩

end Value

/-- The variant stores the value. -/
structure Variant.Stores (le : Bool) (v : Variant) (x : Value) : Prop where
  type_eq : v.type = x.type
  data_eq : v.buf.data = x.storage le

/-- A new variant stores zeros. -/
theorem Variant.stores_construct {m : MemPools} (hm : m.Plentiful) (le : Bool) :
    (Variant.construct m false).Stores le .none := by
  have hfst := Buffer.resize_fst hm Buffer.empty 8
  obtain ⟨k, hk⟩ := Option.ne_none_iff_exists'.1 (hm 8)
  have hle := m.le_blockSize hk
  have hbuf : (Buffer.empty.resize m 8).2.mem = List.replicate k 0 := by
    simp [Buffer.resize, Buffer.keeps, Buffer.empty, Buffer.freshBlock, Buffer.mem, hk]
  have hset : Variant.construct m false = ⟨.none, (Buffer.empty.resize m 8).2.lenSet 8⟩ := by
    simp [construct, resizeBuffer, hfst]
  have hsize : 8 ≤ (Buffer.empty.resize m 8).2.size := Buffer.le_size_resize hfst
  rw [hset]
  refine ⟨rfl, ?_⟩
  rw [Buffer.data_lenSet hsize, hbuf, List.take_replicate, min_eq_left hle]
  rfl

/-! ### Elements -/

namespace SerDesNative

/-- An element of a package. -/
inductive Element
  | dat
  | datEnd
  /-- A mark that means nothing inside of a package. -/
  | mark
  | attrib (a : Attrib) (x : Value)
  deriving DecidableEq

def parseWord (w : ℕ) : Parser UInt8 ℕ := andThen (take w) fun l => ret (ofBE l)

/-- A block length. -/
def parseLen : Parser UInt8 ℕ := andThen next fun ch =>
  if ch < 128 then ret ch.toNat
  else if ch = 128 then
    andThen next fun hi => andThen next fun lo => ret (hi.toNat <<< 8 ||| lo.toNat)
  else if ch = 129 then parseWord 4
  else fail

/-- The octets of a string or a BLOB. -/
def parseBlock : Parser UInt8 (List UInt8) := andThen parseLen take

/-- A number of a type. -/
def parseNumber (t : DataType) : Parser UInt8 Value :=
  andThen (parseWord (t.width.getD 0)) fun n => ret (.num t n)

/-- A value of a type. -/
def parseValue : DataType → Parser UInt8 Value
  | .bool => andThen next fun ch => ret (.bool (decide (ch ≠ octetFalse)))
  | .string => andThen parseBlock fun l => ret (.text (cStr l))
  | .blob => andThen parseBlock fun l => ret (.blob l)
  | .none => ret .none
  | .inert | .datumList => fail
  | t => parseNumber t

/-- The data type and the value of an attribute. -/
def parseAttrib : Parser UInt8 Value := andThen next fun ch =>
  match DataType.ofOctet ch with
  | none => fail
  | some type => parseValue type

/-- An element, or the end of the package. -/
def parseElement : Parser UInt8 (Option Element) := andThen next fun ch =>
  if ch = mkPkgEnd then ret none
  else if ch = mkDat then ret (some .dat)
  else if ch = mkDatEnd then ret (some .datEnd)
  else if ch = mkChk ∨ ch = mkChkEnd then ret (some .mark)
  else
    match tagMap ch with
    | some a => andThen parseAttrib fun x => ret (some (.attrib a x))
    | none => fail

/-- The header of a package. -/
def parseHeader : Parser UInt8 Unit :=
  andThen next fun ch =>
    if ch = mkMagic then
      andThen next fun ch => if ch = mkPkg then andThen next fun _ => ret () else fail
    else fail

/-- The elements of a package behind its header, and what is left behind its end. -/
def packageElements (r : List UInt8) : List Element × Option (List UInt8) :=
  match parseHeader r with
  | none => ([], none)
  | some (_, r') => elements parseElement r'

/-! ### The parsers look at a prefix only -/

theorem local_parseWord (w : ℕ) : Local (parseWord w) :=
  (local_take w).andThen fun l => local_ret (ofBE l)

theorem local_parseLen : Local parseLen := by
  refine local_next.andThen fun ch => ?_
  split_ifs
  · exact local_ret _
  · exact local_next.andThen fun hi => local_next.andThen fun lo => local_ret _
  · exact local_parseWord 4
  · exact local_fail

theorem local_parseBlock : Local parseBlock := local_parseLen.andThen local_take

theorem local_parseNumber (t : DataType) : Local (parseNumber t) :=
  (local_parseWord _).andThen fun n => local_ret (Value.num t n)

theorem local_parseValue (t : DataType) : Local (parseValue t) := by
  cases t with
  | bool =>
      rw [parseValue]
      exact local_next.andThen fun ch => local_ret _
  | string =>
      rw [parseValue]
      exact local_parseBlock.andThen fun l => local_ret _
  | blob =>
      rw [parseValue]
      exact local_parseBlock.andThen fun l => local_ret _
  | none => exact local_ret _
  | inert => exact local_fail
  | datumList => exact local_fail
  | _ => exact local_parseNumber _

theorem local_parseAttrib : Local parseAttrib := by
  refine local_next.andThen fun ch => ?_
  cases DataType.ofOctet ch with
  | none => exact local_fail
  | some type => exact local_parseValue type

/-- What follows the tag of an element. -/
theorem local_parseElement_tag (ch : UInt8) : Local (fun r : List UInt8 =>
    (if ch = mkPkgEnd then ret none
    else if ch = mkDat then ret (some .dat)
    else if ch = mkDatEnd then ret (some .datEnd)
    else if ch = mkChk ∨ ch = mkChkEnd then ret (some .mark)
    else
      match tagMap ch with
      | some a => andThen parseAttrib fun x => ret (some (.attrib a x))
      | none => fail : Parser UInt8 (Option Element)) r) := by
  split_ifs
  · exact local_ret _
  · exact local_ret _
  · exact local_ret _
  · exact local_ret _
  · cases tagMap ch with
    | none => exact local_fail
    | some a => exact local_parseAttrib.andThen fun x => local_ret _

theorem local_parseElement : Local parseElement := local_next.andThen local_parseElement_tag

theorem takes_parseElement : Takes parseElement := takes_next.andThen local_parseElement_tag

theorem local_parseHeader : Local parseHeader := by
  refine local_next.andThen fun ch => ?_
  split_ifs
  · refine local_next.andThen fun ch => ?_
    split_ifs
    · exact local_next.andThen fun _ => local_ret ()
    · exact local_fail
  · exact local_fail

/-- **A strict prefix of a package that is taken as a whole fails.** -/
theorem packageElements_truncated {r q : List UInt8} (h : (packageElements (r ++ q)).2 = some [])
    (hq : q ≠ []) : (packageElements r).2 = none := by
  rw [packageElements] at h ⊢
  rcases hr : parseHeader r with _ | ⟨_, r'⟩
  · rfl
  · rw [local_parseHeader.append hr q] at h
    exact local_parseElement.truncated takes_parseElement h hq

/-! ### Extraction follows the parsers -/

variable {β : Type} [BlockStore β] [LawfulBlockStore β] {α α' δ δ' : Type}

/-- The function extracts what the parser finds, up to a relation.  Where it fails, the parser fails
as well, or memory has run out. -/
def Parses (m : MemPools) (g : Extract β δ) (p : Parser UInt8 α) (R : α → δ → Prop) : Prop :=
  ∀ ⦃s r⦄, StreamBase.HasRest s r →
    (∀ d s', g.run s = (some d, s') → ∃ a r', p r = some (a, r') ∧ R a d ∧ s'.HasRest r') ∧
    ((g.run s).1 = none → m.Plentiful → p r = none)

variable {m : MemPools} {R : α → δ → Prop} {R' : α' → δ' → Prop}

theorem parses_pure {a : α} {d : δ} (h : R a d) : Parses m (pure d : Extract β δ) (ret a) R := by
  intro s r hs
  refine ⟨fun d' s' hrun => ?_, fun hrun => by cases hrun⟩
  obtain ⟨hd, rfl⟩ := Prod.mk.inj hrun
  obtain rfl := Option.some.inj hd
  exact ⟨a, r, rfl, h, hs⟩

theorem parses_failure : Parses m (failure : Extract β δ) (fail : Parser UInt8 α) R := by
  intro s r hs
  exact ⟨fun d s' hrun => (by cases (Prod.mk.inj hrun).1), fun _ _ => rfl⟩

theorem Parses.bind {g : Extract β δ} {p : Parser UInt8 α} (hg : Parses m g p R)
    {h : δ → Extract β δ'} {f : α → Parser UInt8 α'}
    (hh : ∀ a d, R a d → Parses m (h d) (f a) R') : Parses m (g >>= h) (andThen p f) R' := by
  intro s r hs
  obtain ⟨hsome, hnone⟩ := hg hs
  rw [run_bind]
  rcases hrun : g.run s with ⟨_ | d, t⟩
  · refine ⟨fun d s' hrun' => (by cases (Prod.mk.inj hrun').1), fun _ hm => ?_⟩
    rw [hrun] at hnone
    rw [andThen, hnone rfl hm, Option.bind_none]
  · obtain ⟨a, r', hp, hR, hrest⟩ := hsome d t hrun
    obtain ⟨hsome', hnone'⟩ := hh a d hR hrest
    rw [andThen, hp, Option.bind_some]
    exact ⟨hsome', hnone'⟩

theorem Parses.map {g : Extract β δ} {p : Parser UInt8 α} (hg : Parses m g p R) (h : δ → δ')
    (f : α → α') (hR : ∀ a d, R a d → R' (f a) (h d)) :
    Parses m (h <$> g) (andThen p fun a => ret (f a)) R' :=
  hg.bind (h := fun d => pure (h d)) fun a d had => parses_pure (hR a d had)

theorem parses_octetExtract : Parses m (octetExtract : Extract β UInt8) next Eq := by
  intro s r hs
  obtain ⟨t, hrun, hrest⟩ := run_octetExtract hs
  rw [hrun]
  cases r with
  | nil => exact ⟨fun d s' heq => (by cases (Prod.mk.inj heq).1), fun _ _ => rfl⟩
  | cons ch r =>
      refine ⟨fun d s' heq => ?_, fun heq => by cases heq⟩
      obtain ⟨hd, rfl⟩ := Prod.mk.inj heq
      obtain rfl := Option.some.inj hd
      exact ⟨ch, r, rfl, rfl, hrest⟩

theorem parses_octetsExtract (n : ℕ) : Parses m (octetsExtract n : Extract β (List UInt8)) (take n)
    (fun l d => l = d ∧ l.length = n) := by
  intro s r hs
  have hrun := run_octetsExtract n hs
  rw [take]
  by_cases hn : n ≤ r.length
  · rw [if_pos hn] at hrun ⊢
    obtain ⟨t, hrun, hrest⟩ := hrun
    rw [hrun]
    refine ⟨fun d s' heq => ?_, fun heq => by cases heq⟩
    obtain ⟨hd, rfl⟩ := Prod.mk.inj heq
    obtain rfl := Option.some.inj hd
    exact ⟨_, _, rfl, ⟨rfl, List.length_take_of_le hn⟩, hrest⟩
  · rw [if_neg hn] at hrun ⊢
    refine ⟨fun d s' heq => ?_, fun _ _ => rfl⟩
    rw [heq] at hrun
    cases hrun

theorem parses_wordExtract (le : Bool) (w : ℕ) : Parses m (wordExtract le w : Extract β ℕ)
    (parseWord w) (fun n d => n = d ∧ n < 256 ^ w) := by
  refine (parses_octetsExtract w).bind fun l d hl => parses_pure ?_
  obtain ⟨rfl, rfl⟩ := hl
  exact ⟨(ofHost_of_order le l).symm, ofBE_lt l⟩

/-- A number of one octet. -/
theorem parses_octetExtract_word : Parses m (octetExtract : Extract β UInt8) (parseWord 1)
    (fun n ch => n = ch.toNat ∧ n < 256 ^ 1) := by
  intro s r hs
  obtain ⟨hsome, hnone⟩ := parses_octetExtract (m := m) hs
  refine ⟨fun ch s' hrun => ?_, fun hrun hm => ?_⟩
  · obtain ⟨ch', r', hnext, rfl, hrest⟩ := hsome ch s' hrun
    cases r with
    | nil => cases hnext
    | cons x r =>
        obtain ⟨rfl, rfl⟩ := Prod.mk.inj (Option.some.inj hnext)
        exact ⟨x.toNat, r, by simp [parseWord, andThen, take, ret, ofBE], ⟨rfl, x.toNat_lt⟩, hrest⟩
  · cases r with
    | nil => rfl
    | cons x r => cases hnone hrun hm

theorem parses_lenExtract (le : Bool) : Parses m (lenExtract le : Extract β ℕ) parseLen
    (fun n d => n = d ∧ n < 2 ^ 32) := by
  refine parses_octetExtract.bind fun ch _ heq => ?_
  subst heq
  have hch := ch.toNat_lt
  split_ifs
  · exact parses_pure ⟨rfl, by omega⟩
  · refine parses_octetExtract.bind fun hi _ heq => parses_octetExtract.bind fun lo _ heq' => ?_
    subst heq heq'
    refine parses_pure ⟨rfl, ?_⟩
    have hhi := hi.toNat_lt
    have hlo := lo.toNat_lt
    rw [Nat.shiftLeft_eq, Nat.mul_comm, ← Nat.two_pow_add_eq_or_of_lt hlo]
    omega
  · exact parses_wordExtract le 4
  · exact parses_failure

/-- A buffer that is large enough is filled with what is asked for, unless too little is left. -/
theorem readBuf_of_le {s : StreamBase β} {r : List UInt8} (h : s.HasRest r) (m : MemPools)
    {buf : Buffer} {len : ℕ} (hbuf : len ≤ buf.size) :
    (len ≤ r.length → ∃ s', s.readBuf m buf len =
        (len, (buf.memWr 0 (r.take len)).lenSet len, s') ∧ s'.HasRest (r.drop len)) ∧
      (r.length < len → (s.readBuf m buf len).1 ≠ len) := by
  constructor
  · intro hlen
    have htake : (r.take len).length = len := List.length_take_of_le hlen
    rw [← List.take_append_drop len r] at h
    obtain ⟨s', hrun, hrest⟩ := h.readBuf m (htake.le.trans hbuf)
    rw [htake] at hrun
    exact ⟨s', hrun, hrest⟩
  · intro hlen
    obtain ⟨f, hrep, rfl⟩ := h
    have hsize : ∀ n, (s.arrayRd n).1.length ≤ f.rest.length := by
      intro n
      rw [(hrep.arrayRd n).1, FlatStream.read]
      exact List.length_take_le' _ _
    have hfit : ¬ buf.size < (if len < s.lenGet then len else s.lenGet) := by
      split_ifs <;> omega
    rw [StreamBase.readBuf]
    simp only [if_neg hfit, if_true]
    exact Nat.ne_of_lt (lt_of_le_of_lt (hsize _) hlen)

/-- The text that is terminated is that of the octets in front of the terminator. -/
theorem cStr_terminated (d l : List UInt8) : cStr (d ++ 0 :: l) = cStr d := by
  by_cases h : 0 ∈ d
  · exact cStr_append h _
  · rw [cStr_append_zero h, cStr_of_notMem h]

/-- A block of some length is read into a buffer that has been made large enough. -/
theorem parses_block (le : Bool) (size : ℕ → ℕ) (hsize : ∀ len, len ≤ size len) (k : Buffer → ℕ → δ)
    (z : δ) {R : List UInt8 → δ → Prop} (hz : R [] z)
    (hR : ∀ (b : Buffer) (l : List UInt8), l ≠ [] → l.length < 2 ^ 32 → size l.length ≤ b.size →
      R l (k ((b.memWr 0 l).lenSet l.length) l.length)) :
    Parses m (do
      let len ← lenExtract le
      if 0 < len then
        let buf := Buffer.empty.resize m (size len)
        if buf.1 then
          OptionT.mk fun s =>
            let r := s.readBuf m buf.2 len
            (if r.1 = len then some (k r.2.1 len) else none, r.2.2)
        else failure
      else pure z : Extract β δ) parseBlock R := by
  refine (parses_lenExtract le).bind fun len _ hlen => ?_
  obtain ⟨rfl, hlt⟩ := hlen
  by_cases hpos : 0 < len
  · rw [if_pos hpos]
    dsimp only
    by_cases hfst : (Buffer.empty.resize m (size len)).1 = true
    · rw [if_pos hfst]
      have hle := Buffer.le_size_resize hfst
      intro s r hs
      obtain ⟨hlong, hshort⟩ := readBuf_of_le hs m ((hsize len).trans hle)
      rw [take]
      by_cases hr : len ≤ r.length
      · obtain ⟨s', hrun, hrest⟩ := hlong hr
        have htake : (r.take len).length = len := List.length_take_of_le hr
        have hnil : r.take len ≠ [] := by
          rw [← List.length_pos_iff, htake]
          exact hpos
        have hRk := hR (Buffer.empty.resize m (size len)).2 (r.take len) hnil (by rw [htake]; exact hlt)
          (by rw [htake]; exact hle)
        rw [htake] at hRk
        rw [if_pos hr]
        simp only [OptionT.run, OptionT.mk, hrun, if_true]
        refine ⟨fun d t heq => ?_, fun heq => by cases heq⟩
        obtain ⟨hd, rfl⟩ := Prod.mk.inj heq
        obtain rfl := Option.some.inj hd
        exact ⟨_, _, rfl, hRk, hrest⟩
      · have hne := hshort (by omega)
        rw [if_neg hr]
        simp only [OptionT.run, OptionT.mk, if_neg hne]
        exact ⟨fun d t heq => (by cases (Prod.mk.inj heq).1), fun _ _ => trivial⟩
    · rw [if_neg hfst]
      intro s r hs
      refine ⟨fun d t heq => (by cases (Prod.mk.inj heq).1), fun _ hm => ?_⟩
      exact absurd (Buffer.resize_fst hm Buffer.empty (size len)) hfst
  · obtain rfl := Nat.eq_zero_of_not_pos hpos
    rw [if_neg hpos]
    have htake : (take 0 : Parser UInt8 (List UInt8)) = ret [] := by
      funext r
      simp [take, ret]
    rw [htake]
    exact parses_pure hz

theorem parses_stringExtract (le : Bool) : Parses m (stringExtract le m : Extract β (List UInt8))
    parseBlock (fun l d => d = cStr l ∧ l.length < 2 ^ 32) := by
  refine parses_block le (fun len => len + 1) (fun len => Nat.le_succ len)
    (fun b len => cStr (b.memWr len [0]).mem) [] ⟨rfl, by decide⟩ fun b l _ hlt hsize => ?_
  rw [Buffer.mem_terminated hsize, cStr_terminated]
  exact ⟨rfl, hlt⟩

theorem parses_blobExtract (le : Bool) : Parses m (blobExtract le m : Extract β Buffer)
    parseBlock (fun l b => b.data = l ∧ l.length < 2 ^ 32) := by
  refine parses_block le (fun len => len) (fun len => le_rfl) (fun b _ => b)
    (Buffer.empty.resize m 0).2 ⟨rfl, by decide⟩ fun b l _ hlt hsize => ?_
  exact ⟨Buffer.data_lenSet_memWr hsize, hlt⟩

/-- **Every value is extracted as it is parsed.** -/
theorem parses_variantExtract (le : Bool) (var : Variant) (type : DataType) :
    Parses m (variantExtract le m var type : Extract β Variant) (parseValue type)
      (fun x v => x.Proper ∧ (m.Plentiful → var.type ≠ .inert → v.Stores le x)) := by
  -- a number, whatever its type
  have hstore : ∀ (t : DataType) (w n : ℕ), t.width = some w → n < 256 ^ w →
      (Value.num t n).Proper ∧ (m.Plentiful → var.type ≠ .inert →
        (Variant.numSet le m w t var n).Stores le (.num t n)) := by
    intro t w n hw hn
    refine ⟨⟨w, hw, hn⟩, fun hm hvar => ?_⟩
    obtain ⟨hty, hdata⟩ := Variant.data_numSet hm le w t hvar n
    exact ⟨hty, by rw [hdata, Value.storage, hw, Option.getD_some]⟩
  have hword : ∀ (t : DataType) (w : ℕ), t.width = some w →
      Parses m (Variant.numSet le m w t var <$> (wordExtract le w : Extract β ℕ)) (parseNumber t)
        (fun x v => x.Proper ∧ (m.Plentiful → var.type ≠ .inert → v.Stores le x)) := by
    intro t w hw
    rw [parseNumber, hw, Option.getD_some]
    refine (parses_wordExtract le w).map _ _ ?_
    rintro n _ ⟨rfl, hn⟩
    exact hstore t w n hw hn
  have hbyte : ∀ (t : DataType), t.width = some 1 →
      Parses m (octetExtract >>= fun ch => pure (Variant.numSet le m 1 t var ch.toNat) :
        Extract β Variant) (parseNumber t)
        (fun x v => x.Proper ∧ (m.Plentiful → var.type ≠ .inert → v.Stores le x)) := by
    intro t ht
    rw [parseNumber, ht, Option.getD_some]
    refine parses_octetExtract_word.bind ?_
    rintro _ ch ⟨rfl, hn⟩
    exact parses_pure (hstore t 1 _ ht hn)
  cases type with
  | uint8 => exact hbyte .uint8 rfl
  | int8 => exact hbyte .int8 rfl
  | uint16 => exact hword .uint16 2 rfl
  | int16 => exact hword .int16 2 rfl
  | uint32 => exact hword .uint32 4 rfl
  | int32 => exact hword .int32 4 rfl
  | uint64 => exact hword .uint64 8 rfl
  | int64 => exact hword .int64 8 rfl
  | float32 => exact hword .float32 4 rfl
  | float64 => exact hword .float64 8 rfl
  | bool =>
      rw [parseValue]
      refine parses_octetExtract.bind ?_
      rintro ch _ rfl
      refine parses_pure ⟨trivial, fun hm hvar => ?_⟩
      obtain ⟨hty, hdata⟩ := Variant.data_boolSet hm hvar (decide (ch ≠ octetFalse))
      exact ⟨hty, hdata⟩
  | string =>
      rw [parseValue]
      refine (parses_stringExtract le).map _ _ ?_
      rintro l _ ⟨rfl, hl⟩
      have hlen : (cStr l).length ≤ l.length := (List.takeWhile_prefix _).length_le
      refine ⟨⟨zero_notMem_cStr l, by omega⟩, fun hm _ => ⟨rfl, ?_⟩⟩
      have hdata := Buffer.data_assignStr hm var.buf (cStr l)
      rwa [cStr_of_notMem (zero_notMem_cStr l)] at hdata
  | blob =>
      rw [parseValue]
      refine (parses_blobExtract le).map _ _ ?_
      rintro l b ⟨rfl, hl⟩
      exact ⟨hl, fun hm _ => ⟨rfl, Buffer.data_assign hm var.buf b⟩⟩
  | none =>
      refine parses_pure ⟨trivial, fun hm hvar => ?_⟩
      obtain ⟨hty, hdata⟩ := Variant.stores_construct hm le
      rw [Variant.assign, if_neg hvar]
      exact ⟨hty, (Buffer.data_assign hm _ _).trans hdata⟩
  | inert => exact parses_failure
  | datumList => exact parses_failure

theorem parses_attribExtract (le : Bool) (var : Variant) :
    Parses m (attribExtract le m var : Extract β Variant) parseAttrib
      (fun x v => x.Proper ∧ (m.Plentiful → var.type ≠ .inert → v.Stores le x)) := by
  refine parses_octetExtract.bind ?_
  rintro ch _ rfl
  cases DataType.ofOctet ch with
  | none => exact parses_failure
  | some type => exact parses_variantExtract le var type

theorem parses_header : Parses m (decodeIdent >>= fun _ => decodeVersion : Extract β Unit)
    parseHeader Eq := by
  have hassoc : (decodeIdent >>= fun _ => decodeVersion : Extract β Unit) =
      octetExtract >>= fun ch =>
        if ch = mkMagic then
          octetExtract >>= fun ch =>
            if ch = mkPkg then octetExtract >>= fun _ => pure () else failure
        else failure := by
    rw [decodeIdent, bind_assoc]
    congr 1
    funext ch
    split_ifs
    · rw [bind_assoc]
      congr 1
      funext ch
      split_ifs
      · rw [pure_bind]
        rfl
      · rfl
    · rfl
  rw [hassoc]
  refine parses_octetExtract.bind ?_
  rintro ch _ rfl
  split_ifs
  · refine parses_octetExtract.bind ?_
    rintro ch _ rfl
    split_ifs
    · exact parses_octetExtract.bind fun _ _ _ => parses_pure rfl
    · exact parses_failure
  · exact parses_failure

/-! ### The loop goes through the elements -/

/-- What an element does to the variables of `DecodeElement`. -/
inductive Applied (le : Bool) (m : MemPools) : Element → DecodeState β → DecodeState β → Prop
  | dat (st : DecodeState β) : Applied le m .dat st (decodeDat le m st)
  | datEnd (st : DecodeState β) : Applied le m .datEnd st (decodeDatEnd st)
  | mark (st : DecodeState β) : Applied le m .mark st st
  | attrib (st : DecodeState β) {a : Attrib} {x : Value} {var : Variant} (ha : a ≠ .none)
      (hx : x.Proper) (hvar : m.Plentiful → st.var.type ≠ .inert → var.Stores le x) :
      Applied le m (.attrib a x) st
        (({ st with var := var } : DecodeState β).modifyRef st.pDat fun d => d.attrSet m a var)

omit [BlockStore β] [LawfulBlockStore β] in
theorem Applied.stream_eq {le : Bool} {e : Element} {st st' : DecodeState β}
    (h : Applied le m e st st') : st'.stream = st.stream := by
  cases h with
  | dat => exact stream_decodeDat st
  | datEnd => exact stream_decodeDatEnd st
  | mark => rfl
  | attrib => exact stream_modifyRef _ _ _

/-- What a sequence of elements does, one after another, while the stream moves on. -/
inductive AppliedAll (le : Bool) (m : MemPools) :
    List Element → DecodeState β → DecodeState β → Prop
  | nil (st : DecodeState β) (s : StreamBase β) : AppliedAll le m [] st { st with stream := s }
  | cons {e : Element} {es : List Element} {st st₁ st₂ : DecodeState β} (s : StreamBase β)
      (hhead : Applied le m e { st with stream := s } st₁) (htail : AppliedAll le m es st₁ st₂) :
      AppliedAll le m (e :: es) st st₂

omit [BlockStore β] [LawfulBlockStore β] in
/-- Where the stream stands first does not matter. -/
theorem AppliedAll.of_stream {le : Bool} {es : List Element} {st st' : DecodeState β}
    {u : StreamBase β} (h : AppliedAll le m es { st with stream := u } st') :
    AppliedAll le m es st st' := by
  generalize hst : ({ st with stream := u } : DecodeState β) = st₀ at h
  cases h with
  | nil _ s =>
      subst hst
      exact .nil st s
  | cons s hhead htail =>
      subst hst
      exact .cons s hhead htail

/-- Every tag that is recognized is that of an attribute type. -/
theorem ne_none_of_tagMap {ch : UInt8} {a : Attrib} (h : tagMap ch = some a) : a ≠ .none := by
  rintro rfl
  have hmem := List.mem_of_find?_eq_some h
  exact absurd hmem (by decide)

/-- **A pass through the loop** takes the next element. -/
theorem decodeStep_element (le : Bool) {st : DecodeState β} {r : List UInt8}
    (h : st.stream.HasRest r) :
    match decodeStep le m st with
    | (.more, st') => ∃ e r' s, parseElement r = some (some e, r') ∧ s.HasRest r' ∧
        Applied le m e { st with stream := s } st'
    | (.exit, st') => ∃ r' s, parseElement r = some (none, r') ∧ s.HasRest r' ∧
        st' = { st with stream := s }
    | (.fail, st') => ∃ s, st' = { st with stream := s } ∧ (m.Plentiful → parseElement r = none) := by
  obtain ⟨s₁, hrun, hrest⟩ := run_octetExtract h
  rw [decodeStep, hrun]
  cases r with
  | nil => exact ⟨s₁, rfl, fun _ => rfl⟩
  | cons ch r =>
      have hparse : ∀ q, parseElement (ch :: r) = q ↔ (if ch = mkPkgEnd then ret none
          else if ch = mkDat then ret (some .dat)
          else if ch = mkDatEnd then ret (some .datEnd)
          else if ch = mkChk ∨ ch = mkChkEnd then ret (some .mark)
          else
            match tagMap ch with
            | some a => andThen parseAttrib fun x => ret (some (.attrib a x))
            | none => fail : Parser UInt8 (Option Element)) r = q := fun q => Iff.rfl
      simp only [List.head?_cons, List.tail_cons] at hrest ⊢
      simp only [hparse]
      split_ifs with h₁ h₂ h₃ h₄
      · exact ⟨r, s₁, rfl, hrest, rfl⟩
      · exact ⟨.dat, r, s₁, rfl, hrest, Applied.dat _⟩
      · exact ⟨.datEnd, r, s₁, rfl, hrest, Applied.datEnd _⟩
      · exact ⟨.mark, r, s₁, rfl, hrest, Applied.mark _⟩
      · cases htag : tagMap ch with
        | none => exact ⟨s₁, rfl, fun _ => rfl⟩
        | some a =>
            obtain ⟨hsome, hnone⟩ := parses_attribExtract (m := m) le st.var hrest
            simp only [decodeAttrib]
            rcases hattr : (attribExtract le m st.var).run s₁ with ⟨_ | var, s₂⟩
            · refine ⟨s₂, rfl, fun hm => ?_⟩
              rw [andThen, hnone (by rw [hattr]) hm, Option.bind_none]
            · obtain ⟨x, r', hx, ⟨hproper, hstores⟩, hrest'⟩ := hsome var s₂ hattr
              refine ⟨.attrib a x, r', s₂, ?_, hrest', ?_⟩
              · rw [andThen, hx, Option.bind_some, ret]
              · exact Applied.attrib _ (ne_none_of_tagMap htag) hproper hstores

/-- **The loop goes through the elements that the parser finds**, and always ends: with success only
where the parser is done, and with failure, unless memory has run out, only where the parser fails. -/
theorem decodeLoop_elements (le : Bool) {st : DecodeState β} {r : List UInt8}
    (h : st.stream.HasRest r) :
    ∃ ok st', st.decodeLoop le m = some (ok, st') ∧
      (ok = true → ∃ rest, (elements parseElement r).2 = some rest ∧ st'.stream.HasRest rest) ∧
      (ok = false → m.Plentiful → (elements parseElement r).2 = none) ∧
      (ok = true ∨ m.Plentiful → AppliedAll le m (elements parseElement r).1 st st') := by
  induction hn : r.length using Nat.strong_induction_on generalizing r st with
  | _ n ih =>
      have hstep := decodeStep_element (m := m) le h
      rw [DecodeState.decodeLoop, takes_parseElement.elements_eq r]
      rcases hrun : decodeStep le m st with ⟨_ | _ | _, st₁⟩
      · rw [hrun] at hstep
        obtain ⟨e, r', s, hparse, hrest, happ⟩ := hstep
        have hlt := takes_parseElement hparse
        have hrest₁ : st₁.stream.HasRest r' := by rwa [happ.stream_eq]
        obtain ⟨ok, st', hloop, htrue, hfalse, hall⟩ := ih r'.length (by omega) hrest₁ rfl
        simp only [hparse]
        exact ⟨ok, st', hloop, htrue, hfalse, fun hok => .cons s happ (hall hok)⟩
      · rw [hrun] at hstep
        obtain ⟨r', s, hparse, hrest, rfl⟩ := hstep
        simp only [hparse]
        exact ⟨true, _, rfl, fun _ => ⟨r', rfl, hrest⟩, (by rintro ⟨⟩), fun _ => .nil st s⟩
      · rw [hrun] at hstep
        obtain ⟨s, rfl, hparse⟩ := hstep
        refine ⟨false, _, rfl, (by rintro ⟨⟩), fun _ hm => ?_, fun hok => ?_⟩
        · rw [hparse hm]
        · have hm : m.Plentiful := hok.resolve_left (by simp)
          rw [hparse hm]
          exact .nil st s

/-- The variables of `DecodeElement` at its start. -/
def DecodeState.initial (m : MemPools) (dat : Datum) (s : StreamBase β) : DecodeState β :=
  { stream := s, root := dat, datStack := [some []], pDat := some [], rootDatum := true
    var := Variant.construct m false }

/-- **What the states of decoding do**: the elements of the package are applied to the datum, as far as
there are any, and behind the package there is what the parser leaves. -/
theorem execDecodeStates_elements (le : Bool) {s : StreamBase β} {f : FlatStream UInt8}
    (hs : s.Represents f) (dat : Datum) (check : Bool) :
    ∃ (st' : DecodeState β) (done : Bool),
      (done = true ∨ m.Plentiful → AppliedAll le m (packageElements f.content).1
        (DecodeState.initial m dat s) st') ∧
      (done = true → ∃ rest, (packageElements f.content).2 = some rest ∧ st'.stream.HasRest rest) ∧
      (done = false → m.Plentiful → (packageElements f.content).2 = none) ∧
      (∀ r, execDecodeStates le m (s.seek 0).2 dat check = some r →
        (r.1 = true → done = true) ∧ r.2.1 = st'.root) ∧
      (check = false ∨ done = false →
        execDecodeStates le m (s.seek 0).2 dat check = some (done, st'.root, st'.stream)) := by
  have hrest : (s.seek 0).2.HasRest f.content :=
    ⟨_, (hs.seek 0).2, f.rest_seek_zero⟩
  obtain ⟨hsome, hnone⟩ := parses_header (m := m) hrest
  rw [packageElements]
  rcases hhead : (decodeIdent >>= fun _ => decodeVersion : Extract β Unit).run (s.seek 0).2 with
    ⟨_ | _, t⟩
  · -- without a header nothing is applied
    have hdec : execDecodeStates le m (s.seek 0).2 dat check = some (false, dat, t) := by
      rw [execDecodeStates]
      simp only [hhead]
    have hparse : m.Plentiful → parseHeader f.content = none := hnone (by rw [hhead])
    refine ⟨{ DecodeState.initial m dat s with stream := t }, false, fun hok => ?_,
      (by rintro ⟨⟩), fun _ hm => ?_, ?_, fun _ => hdec⟩
    · rw [hparse (hok.resolve_left (by simp))]
      exact .nil _ t
    · rw [hparse hm]
    · rintro r hr
      rw [hdec] at hr
      obtain rfl := Option.some.inj hr
      exact ⟨by rintro ⟨⟩, rfl⟩
  · obtain ⟨_, r', hparse, -, hrest'⟩ := hsome _ t hhead
    have hstart : (DecodeState.initial m dat t).stream.HasRest r' := hrest'
    obtain ⟨ok, st', hloop, htrue, hfalse, hall⟩ := decodeLoop_elements (m := m) le hstart
    have hdec : execDecodeStates le m (s.seek 0).2 dat check =
        (if ok && check then decodeChecksum le st'.stream else some (ok, st'.stream)).map
          fun q => (q.1, st'.root, q.2) := by
      have helem : decodeElement le m dat t = some (ok, st'.root, st'.stream) := by
        rw [decodeElement, ← DecodeState.initial, hloop]
        rfl
      rw [execDecodeStates]
      simp only [hhead, helem, Option.bind_eq_bind, Option.bind_some, Option.pure_def]
      rw [Option.map_eq_bind]
      by_cases hcheck : (ok && check) = true
      · rw [if_pos hcheck, if_pos hcheck]
        rfl
      · rw [if_neg hcheck, if_neg hcheck]
        rfl
    rw [hparse]
    refine ⟨st', ok, fun hok => (hall hok).of_stream, htrue, hfalse, ?_, ?_⟩
    · rintro r hr
      rw [hdec] at hr
      obtain ⟨q, hq, rfl⟩ := Option.map_eq_some_iff.1 hr
      refine ⟨fun hq' => ?_, rfl⟩
      by_contra hok
      rw [if_neg (by simp [hok])] at hq
      obtain rfl := Option.some.inj hq
      exact hok hq'
    · intro hcheck
      have hskip : ¬ (ok && check) = true := by
        rcases hcheck with rfl | rfl <;> simp
      rw [hdec, if_neg hskip]
      rfl

/-- **What decoding does**: the elements of the package are applied to the cleared datum, as far as
there are any, and if decoding fails the result is cleared. -/
theorem decode_elements (le : Bool) {s : StreamBase β} {f : FlatStream UInt8}
    (hs : s.Represents f) (dat : Datum) (check : Bool) :
    ∃ (st' : DecodeState β) (done : Bool),
      (done = true ∨ m.Plentiful → AppliedAll le m (packageElements f.content).1
        (DecodeState.initial m (dat.clear le m) s) st') ∧
      (done = true → (packageElements f.content).2 ≠ none) ∧
      (done = false → m.Plentiful → (packageElements f.content).2 = none) ∧
      (∀ r, decode le m s dat check = some r →
        (r.1 = true → done = true) ∧
        r.2.1 = if r.1 then st'.root else st'.root.clear le m) ∧
      (check = false ∨ done = false →
        ∃ t, decode le m s dat check =
          some (done, if done then st'.root else st'.root.clear le m, t)) := by
  obtain ⟨st', done, happ, htrue, hfalse, hrun, hend⟩ :=
    execDecodeStates_elements (m := m) le hs (dat.clear le m) check
  refine ⟨st', done, happ, fun hdone => ?_, hfalse, fun r hr => ?_, fun hcheck => ?_⟩
  · obtain ⟨rest, hrest, -⟩ := htrue hdone
    rw [hrest]
    exact Option.some_ne_none rest
  · obtain ⟨q, hq, rfl⟩ := Option.map_eq_some_iff.1 hr
    obtain ⟨hdone, hroot⟩ := hrun q hq
    exact ⟨hdone, by rw [hroot]⟩
  · exact ⟨st'.stream, by rw [decode, hend hcheck, Option.map_some]⟩

end SerDesNative

/-! ### Truncation -/

open SerDesNative

variable {β : Type} [BlockStore β] [LawfulBlockStore β]

/-- A package is taken as a whole. -/
theorem SerDesNative.packageElements_packageOctets (le : Bool) {dat : Datum} (hdat : dat.Encodable) :
    (packageElements (packageOctets le dat)).2 = some [] := by
  obtain ⟨s, -, f, hrep, -, hcontent⟩ := Datum.encode_spec le exactPools hdat
    (StreamBuf.represents_construct plentiful_sampleMem 0)
  have hrest : (s.seek 0).2.HasRest (packageOctets le dat) :=
    ⟨_, (hrep.seek 0).2, by rw [f.rest_seek_zero, hcontent]⟩
  obtain ⟨t, ht, hrest⟩ := reads_header Datum.datumVersion hrest
  obtain ⟨d, t', hdec, -, hend⟩ := decodeElement_spec le le plentiful_exactPools hdat hrest
  have hstart : (DecodeState.initial exactPools Datum.fresh t).stream.HasRest
    (datumOctets le dat ++ [mkPkgEnd]) := hrest
  obtain ⟨ok, st', hloop, htrue, -⟩ := decodeLoop_elements (m := exactPools) le hstart
  rw [decodeElement, ← DecodeState.initial, hloop, Option.map_some, Option.some_inj] at hdec
  obtain ⟨hok, hrest'⟩ := Prod.mk.inj hdec
  obtain ⟨rest, hsucc, hrest''⟩ := htrue hok
  obtain rfl := (Prod.mk.inj hrest').2
  have hnil : rest = [] := hrest''.drop_octets.symm.trans hend.drop_octets
  rwa [hnil] at hsucc

/-- **A package that has been cut off is not decoded**, by a host of any byte order with whatever
memory, from any stream that holds the octets, into any datum. -/
theorem native_decode_truncated (le le' : Bool) (m m' : MemPools) {dat : Datum}
    (hdat : dat.Encodable) {γ : Type} [BlockStore γ] [LawfulBlockStore γ] {s : StreamBase γ}
    {f : FlatStream UInt8} (hs : s.Represents f) (dst : Datum) :
    ∃ s', dat.encode le m .none s = some (true, s') ∧
      ∀ {p : List UInt8}, p <+: s'.octets → p ≠ s'.octets →
        ∀ {t : StreamBase β} {g : FlatStream UInt8}, t.Represents g → g.content = p →
          ∃ dst' t', dst.decode le' m' false t = some (false, dst', t') := by
  obtain ⟨s', hrun, g', hrep, -, hcontent⟩ := Datum.encode_spec le m hdat hs
  refine ⟨s', hrun, ?_⟩
  rintro p ⟨q, hq⟩ hne t g ht rfl
  have hoctets : g.content ++ q = packageOctets le dat := by
    rw [hq, hrep.octets_eq, hcontent]
  have hqne : q ≠ [] := by
    rintro rfl
    exact hne ((List.append_nil _).symm.trans hq)
  -- the parser does not get to the end
  have hcut : (packageElements g.content).2 = none := by
    refine packageElements_truncated (q := q) ?_ hqne
    rw [hoctets]
    exact packageElements_packageOctets le hdat
  rw [Datum.decode]
  by_cases hinert : dst.isInert = true
  · exact ⟨dst, t, if_pos hinert⟩
  · obtain ⟨st', done, -, hdone, -, -, hdec⟩ := decode_elements (m := m') le' ht dst false
    cases done with
    | true => exact absurd hcut (hdone rfl)
    | false =>
        obtain ⟨t', ht'⟩ := hdec (.inl rfl)
        exact ⟨_, t', (if_neg hinert).trans ht'⟩

/-- The package of a datum with a number and a text, cut off anywhere. -/
theorem native_decode_truncated_sample :
    ∃ s', sampleDatum.encode true exactPools .none (StreamBuf.construct sampleMem 0) =
        some (true, s') ∧
      ∀ {p : List UInt8}, p <+: s'.octets → p ≠ s'.octets →
        ∀ {t : StreamBuf} {g : FlatStream UInt8}, t.Represents g → g.content = p →
          ∃ dst' t', Datum.fresh.decode false exactPools false t = some (false, dst', t') :=
  native_decode_truncated true false exactPools exactPools encodable_sampleDatum
    (StreamBuf.represents_construct plentiful_sampleMem 0) Datum.fresh

end CodePort
