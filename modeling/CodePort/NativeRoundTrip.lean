/-
The native serializer reads what it writes.

The decoder is one flat loop over tags, so its progress through the octets of a tree is described
by what the loop has left to do: after the octets of an attribute, of a sub-datum or of a list of
sub-data, the loop stands where it stood, on the same reference and with the same stack, and the
tree it builds has grown by exactly that part.

Main definitions:

* `CodePort.SerDesNative.Reads` — a function extracts the given value from the given octets;
* `CodePort.SerDesNative.DecodeState.Stands` — where the loop stands, and what is left to read;
* `CodePort.Datum.addChildren` — a datum with further sub-data.

Main results:

* `CodePort.SerDesNative.reads_variantExtract` — every value is read back, on a host of any byte
  order;
* `CodePort.SerDesNative.decode_body`, `decode_datums` — **the loop rebuilds a datum and a list of
  data**, by induction on the tree;
* `CodePort.native_decode_encode` — **what is encoded is decoded to the same tree.**
-/

import CodePort.NativeEncode
import CodePort.StreamBuf

set_option relaxedAutoImplicit false
set_option autoImplicit false

namespace CodePort

open Octets

/-! ### Reading -/

variable {β : Type} [BlockStore β] [LawfulBlockStore β]

/-- The stream has the octets `r` left to read. -/
def StreamBase.HasRest (s : StreamBase β) (r : List UInt8) : Prop :=
  ∃ f, s.Represents f ∧ f.rest = r

namespace StreamBase

variable {s : StreamBase β}

theorem HasRest.length_le {r : List UInt8} (h : s.HasRest r) : r.length ≤ s.lenGet := by
  obtain ⟨f, hrep, rfl⟩ := h
  rw [hrep.lenGet_eq, f.length_rest]
  exact Nat.sub_le _ _

/-- Reading an array takes the next octets. -/
theorem HasRest.arrayRd {d r : List UInt8} (h : s.HasRest (d ++ r)) :
    (s.arrayRd d.length).1 = d ∧ (s.arrayRd d.length).2.HasRest r := by
  obtain ⟨f, hrep, hrest⟩ := h
  obtain ⟨hd, hrep'⟩ := hrep.arrayRd d.length
  refine ⟨?_, _, hrep', ?_⟩
  · rw [hd, FlatStream.read, hrest, List.take_left]
  · rw [f.rest_read, hrest, List.drop_left]

/-- Reading a buffer that is large enough takes the next octets. -/
theorem HasRest.readBuf {d r : List UInt8} (h : s.HasRest (d ++ r)) (m : MemPools) {buf : Buffer}
    (hbuf : d.length ≤ buf.size) :
    ∃ s', s.readBuf m buf d.length = (d.length, (buf.memWr 0 d).lenSet d.length, s') ∧
      s'.HasRest r := by
  have hlen := h.length_le
  rw [List.length_append] at hlen
  have hmin : (if d.length < s.lenGet then d.length else s.lenGet) = d.length := by
    split_ifs <;> omega
  obtain ⟨hd, hrest⟩ := h.arrayRd
  refine ⟨_, ?_, hrest⟩
  simp only [StreamBase.readBuf, hmin, if_neg (not_lt.2 hbuf), if_true, hd]

end StreamBase

/-- The data of a buffer that has been filled and cut. -/
theorem Buffer.mem_memWr_zero {b : Buffer} {d : List UInt8} (h : d.length < b.size) :
    (b.memWr 0 d).mem = d ++ b.mem.drop d.length := by
  cases hb : b.block with
  | none => rw [size, mem, hb] at h; exact absurd h (Nat.not_lt_zero _)
  | some m => simp [memWr, mem, hb, BlockList.overwrite]

/-- Octets that are copied into a buffer with room for a terminator, and the terminator. -/
theorem Buffer.mem_terminated {b : Buffer} {d : List UInt8} (h : d.length < b.size) :
    (((b.memWr 0 d).lenSet d.length).memWr d.length [0]).mem =
      d ++ 0 :: b.mem.drop (d.length + 1) := by
  have hstart := mem_memWr_zero h
  cases hb : b.block with
  | none =>
      rw [size, mem, hb] at h
      exact absurd h (Nat.not_lt_zero _)
  | some x =>
      simp only [mem, memWr, lenSet, hb, Option.map_some,
        Option.getD_some] at hstart ⊢
      rw [hstart, BlockList.overwrite, List.take_left, List.drop_append, List.drop_drop]
      simp

namespace SerDesNative

/-- The function extracts `a` from the octets `d`. -/
def Reads {α : Type} (g : Extract β α) (d : List UInt8) (a : α) : Prop :=
  ∀ ⦃s r⦄, StreamBase.HasRest s (d ++ r) → ∃ s', g.run s = (some a, s') ∧ s'.HasRest r

variable {α δ : Type}

theorem reads_pure (a : α) : Reads (pure a : Extract β α) [] a :=
  fun s _ h => ⟨s, rfl, h⟩

theorem Reads.bind {g : Extract β α} {h : α → Extract β δ} {d e : List UInt8} {a : α} {b : δ}
    (hg : Reads g d a) (hh : Reads (h a) e b) : Reads (g >>= h) (d ++ e) b := by
  intro s r hs
  rw [List.append_assoc] at hs
  obtain ⟨s₁, hs₁, h₁⟩ := hg hs
  obtain ⟨s₂, hs₂, h₂⟩ := hh h₁
  refine ⟨s₂, ?_, h₂⟩
  have hbind : (g >>= h).run s = (h a).run s₁ := by
    rw [OptionT.run_bind, Option.elimM]
    change StateT.bind g.run _ s = _
    rw [StateT.bind]
    simp only [hs₁]
    rfl
  rw [hbind, hs₂]

theorem Reads.map {g : Extract β α} {d : List UInt8} {a : α} (hg : Reads g d a) (h : α → δ) :
    Reads (h <$> g) d (h a) := by
  have hbind := hg.bind (h := fun x => pure (h x)) (reads_pure (h a))
  rw [List.append_nil] at hbind
  exact hbind

theorem reads_octetExtract (ch : UInt8) : Reads (octetExtract : Extract β UInt8) [ch] ch := by
  intro s r h
  obtain ⟨hd, hrest⟩ := StreamBase.HasRest.arrayRd h
  rw [List.length_singleton] at hd hrest
  exact ⟨_, congrArg (fun l : List UInt8 => (l.head?, (s.arrayRd 1).2)) hd, hrest⟩

theorem reads_octetsExtract (l : List UInt8) :
    Reads (octetsExtract l.length : Extract β (List UInt8)) l l := by
  induction l with
  | nil => exact reads_pure []
  | cons ch l ih =>
      have hl := ih.bind (h := fun x => pure (ch :: x)) (reads_pure (ch :: l))
      rw [List.append_nil] at hl
      exact (reads_octetExtract ch).bind hl

/-- **A number is read in big-endian order** on every host. -/
theorem reads_wordExtract (le : Bool) (w n : ℕ) :
    Reads (wordExtract le w : Extract β ℕ) (toBE w n) (n % 256 ^ w) := by
  have h := (reads_octetsExtract (β := β) (toBE w n)).map fun l =>
    ofHost le (if le then l.reverse else l)
  rw [ofHost_of_order, ofBE_toBE, length_toBE] at h
  exact h

theorem reads_lenExtract (le : Bool) {len : ℕ} (h : len < 2 ^ 32) :
    Reads (lenExtract le : Extract β ℕ) (lenOctets len) len := by
  rw [lenOctets]
  split_ifs with h₁ h₂
  · have hch : (UInt8.ofNat len).toNat = len := by
      rw [UInt8.toNat_ofNat']
      omega
    have hlt : UInt8.ofNat len < 128 := UInt8.lt_iff_toNat_lt.2 (by rw [hch]; exact h₁)
    refine (reads_octetExtract _).bind (e := []) ?_
    rw [if_pos hlt, hch]
    exact reads_pure len
  · have hhi : (UInt8.ofNat (len / 256)).toNat = len / 256 := by
      rw [UInt8.toNat_ofNat']
      omega
    have hlo : (UInt8.ofNat len).toNat = len % 256 := UInt8.toNat_ofNat'
    have hval : (len / 256) <<< 8 ||| len % 256 = len := by
      rw [Nat.shiftLeft_eq, Nat.mul_comm, ← Nat.two_pow_add_eq_or_of_lt (by omega)]
      omega
    refine (reads_octetExtract 128).bind (e := [_, _]) ?_
    rw [if_neg (by decide), if_pos rfl]
    refine (reads_octetExtract _).bind (e := [_]) ((reads_octetExtract _).bind (e := []) ?_)
    rw [hhi, hlo, hval]
    exact reads_pure len
  · refine (reads_octetExtract 129).bind ?_
    rw [if_neg (by decide), if_neg (by decide), if_pos rfl]
    have hword := reads_wordExtract (β := β) le 4 len
    rwa [Nat.mod_eq_of_lt (by omega)] at hword

/-- **A string is read back.** -/
theorem reads_stringExtract (le : Bool) {m : MemPools} (hm : m.Plentiful) {str : List UInt8}
    (h0 : 0 ∉ str) (hlen : str.length < 2 ^ 32) :
    Reads (stringExtract le m : Extract β (List UInt8)) (lenOctets str.length ++ str) str := by
  refine (reads_lenExtract le hlen).bind ?_
  rcases Nat.eq_zero_or_pos str.length with hz | hpos
  · rw [List.length_eq_zero_iff.1 hz]
    exact reads_pure []
  have hsize := Buffer.le_size_resize (Buffer.resize_fst hm Buffer.empty (str.length + 1))
  rw [if_pos hpos]
  simp only [Buffer.resize_fst hm, if_true]
  intro s r h
  obtain ⟨s', hrd, hrest⟩ := h.readBuf m (show str.length ≤
    (Buffer.empty.resize m (str.length + 1)).2.size by omega)
  refine ⟨s', ?_, hrest⟩
  -- the terminator lands right behind the octets that were read
  have hmem := Buffer.mem_terminated (d := str) hsize
  simp only [OptionT.run, OptionT.mk, hrd, if_true, hmem, cStr_append_zero h0]

/-- **A blob is read back.** -/
theorem reads_blobExtract (le : Bool) {m : MemPools} (hm : m.Plentiful) {d : List UInt8}
    (hlen : d.length < 2 ^ 32) :
    ∃ buf : Buffer, buf.data = d ∧
      Reads (blobExtract le m : Extract β Buffer) (lenOctets d.length ++ d) buf := by
  rcases Nat.eq_zero_or_pos d.length with hz | hpos
  · obtain rfl := List.length_eq_zero_iff.1 hz
    refine ⟨(Buffer.empty.resize m 0).2, rfl, (reads_lenExtract le hlen).bind ?_⟩
    exact reads_pure _
  have hsize := Buffer.le_size_resize (Buffer.resize_fst hm Buffer.empty d.length)
  refine ⟨((Buffer.empty.resize m d.length).2.memWr 0 d).lenSet d.length, ?_,
    (reads_lenExtract le hlen).bind ?_⟩
  · exact Buffer.data_lenSet_memWr hsize
  · rw [if_pos hpos]
    simp only [Buffer.resize_fst hm, if_true]
    intro s r h
    obtain ⟨s', hrd, hrest⟩ := h.readBuf m hsize
    exact ⟨s', by simp only [OptionT.run, OptionT.mk, hrd, if_true], hrest⟩

/-- **Every value is read back**, into whatever variant is at hand. -/
theorem reads_variantExtract (le le' : Bool) {m : MemPools} (hm : m.Plentiful) {v : Variant}
    (h : v.Encodable) {var : Variant} (hvar : var.type ≠ .inert) :
    ∃ var' : Variant, var'.Holds le' (v.value le) ∧
      Reads (variantExtract le' m var v.type : Extract β Variant) (valueOctets (v.value le))
        var' := by
  -- a number, whatever its type
  have hnum : ∀ (t : DataType) (w : ℕ), t.width = some w →
      (Variant.numSet le' m w t var (v.numAt le w % 256 ^ w)).Holds le' (.num t (v.numAt le w)) := by
    intro t w hw
    have hset := Variant.holds_numSet hm le' hw hvar (v.numAt le w % 256 ^ w)
    rw [Nat.mod_mod, Nat.mod_eq_of_lt (v.numAt_lt le w)] at hset
    rwa [Nat.mod_eq_of_lt (v.numAt_lt le w)]
  have hword : ∀ (t : DataType) (w : ℕ), t.width = some w →
      Reads ((Variant.numSet le' m w t var) <$> (wordExtract le' w : Extract β ℕ))
        (valueOctets (.num t (v.numAt le w)))
        (Variant.numSet le' m w t var (v.numAt le w % 256 ^ w)) := by
    intro t w hw
    rw [valueOctets, hw]
    exact (reads_wordExtract le' w _).map _
  have hbyte : ∀ t : DataType, t.width = some 1 →
      Reads (octetExtract >>= fun ch => pure (Variant.numSet le' m 1 t var ch.toNat) :
          Extract β Variant) (valueOctets (.num t (v.numAt le 1)))
        (Variant.numSet le' m 1 t var (v.numAt le 1 % 256 ^ 1)) := by
    intro t ht
    have hoct : valueOctets (.num t (v.numAt le 1)) = [UInt8.ofNat (v.numAt le 1)] := by
      simp [valueOctets, ht, toBE]
    have hval : (UInt8.ofNat (v.numAt le 1)).toNat = v.numAt le 1 % 256 ^ 1 := UInt8.toNat_ofNat'
    rw [hoct, ← hval]
    exact (reads_octetExtract _).bind (e := []) (reads_pure _)
  obtain ⟨type, buf⟩ := v
  cases type with
  | uint8 => exact ⟨_, hnum .uint8 1 rfl, hbyte .uint8 rfl⟩
  | int8 => exact ⟨_, hnum .int8 1 rfl, hbyte .int8 rfl⟩
  | uint16 => exact ⟨_, hnum .uint16 2 rfl, hword .uint16 2 rfl⟩
  | int16 => exact ⟨_, hnum .int16 2 rfl, hword .int16 2 rfl⟩
  | uint32 => exact ⟨_, hnum .uint32 4 rfl, hword .uint32 4 rfl⟩
  | int32 => exact ⟨_, hnum .int32 4 rfl, hword .int32 4 rfl⟩
  | uint64 => exact ⟨_, hnum .uint64 8 rfl, hword .uint64 8 rfl⟩
  | int64 => exact ⟨_, hnum .int64 8 rfl, hword .int64 8 rfl⟩
  | float32 => exact ⟨_, hnum .float32 4 rfl, hword .float32 4 rfl⟩
  | float64 => exact ⟨_, hnum .float64 8 rfl, hword .float64 8 rfl⟩
  | bool =>
      set b : Bool := decide ((⟨.bool, buf⟩ : Variant).firstOctet = 49) with hb
      refine ⟨_, Variant.holds_boolSet hm le' hvar b, ?_⟩
      have hdec : decide ((if b then octetTrue else octetFalse) ≠ octetFalse) = b := by
        cases b <;> rfl
      have hread := (reads_octetExtract (β := β) (if b then octetTrue else octetFalse)).map
        fun ch => var.boolSet m (decide (ch ≠ octetFalse))
      rw [hdec] at hread
      exact hread
  | string =>
      have h0 := zero_notMem_cStr buf.mem
      refine ⟨_, ?_, (reads_stringExtract le' hm h0 (h.text_lt rfl)).map (var.strSet m)⟩
      have hset := Variant.holds_strSet hm le' var (cStr buf.mem)
      rwa [cStr_of_notMem h0] at hset
  | blob =>
      obtain ⟨b, hdata, hread⟩ := reads_blobExtract (β := β) le' hm (d := buf.data)
        (by rw [buf.length_data]; exact h.blob_lt rfl)
      refine ⟨_, ?_, hread.map (var.bufSet m)⟩
      have hset := Variant.holds_bufSet hm le' var b
      rwa [hdata] at hset
  | none => exact ⟨_, (Variant.holds_construct hm le').assign hm hvar, reads_pure _⟩
  | inert => exact absurd rfl h.ne_inert
  | datumList => exact absurd rfl h.ne_datumList

end SerDesNative

/-! ### Growing data -/

namespace Datum

/-- Append sub-data one after another. -/
def addChildren (ds : List Datum) (x : Datum) : Datum := ds.foldl (fun x c => addChild c x) x

theorem addChildren_cons (c : Datum) (ds : List Datum) (x : Datum) :
    addChildren (c :: ds) x = addChildren ds (addChild c x) := rfl

theorem fields_addChildren (ds : List Datum) (x : Datum) :
    (addChildren ds x).isInert = x.isInert ∧ (addChildren ds x).attribs = x.attribs ∧
      (addChildren ds x).datums = x.datums ++ ds := by
  induction ds generalizing x with
  | nil => exact ⟨rfl, rfl, (List.append_nil _).symm⟩
  | cons c ds ih =>
      obtain ⟨hi, ha, hd⟩ := ih (addChild c x)
      rw [addChildren_cons]
      refine ⟨hi, ha, ?_⟩
      rw [hd, addChild, List.append_assoc, List.singleton_append]

/-- What a datum holds after sub-data have been appended to a datum without any. -/
theorem tree_addChildren (le : Bool) (ds : List Datum) {x : Datum} (h : x.datums = []) :
    (addChildren ds x).tree le =
      .node (fun t => (x.attribs t).map fun v => v.value le) (trees le ds) := by
  obtain ⟨-, ha, hd⟩ := fields_addChildren ds x
  rw [tree_eq, ha, hd, h, List.nil_append]

end Datum

/-! ### The loop -/

namespace SerDesNative

open Datum

/-- Where the loop of `DecodeElement` stands: on the datum at `p` in `root`, with the references `rs`
below it on the stack, and `r` left to read. -/
structure DecodeState.Stands (st : DecodeState β) (p : List ℕ) (rs : List DatumRef) (root : Datum)
    (r : List UInt8) : Prop where
  rest : st.stream.HasRest r
  root_eq : st.root = root
  pDat_eq : st.pDat = some p
  datStack_eq : st.datStack = some p :: rs
  rootDatum_eq : st.rootDatum = false
  var_ne_inert : st.var.type ≠ .inert

variable (le le' : Bool) {m : MemPools} {st : DecodeState β} {p : List ℕ} {rs : List DatumRef}
  {root x : Datum} {r : List UInt8}

/-- The loop stands where it stood when only the stream has moved. -/
theorem DecodeState.Stands.reads {r' : List UInt8} (h : st.Stands p rs root r') {s : StreamBase β}
    (hs : s.HasRest r) : ({ st with stream := s } : DecodeState β).Stands p rs root r :=
  ⟨hs, h.root_eq, h.pDat_eq, h.datStack_eq, h.rootDatum_eq, h.var_ne_inert⟩

/-- The current datum is changed in place. -/
theorem DecodeState.Stands.modifyRef (h : st.Stands p rs root r) (f : Datum → Datum) :
    (st.modifyRef st.pDat f).Stands p rs (modifyAt f p root) r := by
  have heq : st.modifyRef st.pDat f = { st with root := modifyAt f p root } := by
    simp only [DecodeState.modifyRef, h.pDat_eq, h.root_eq]
  rw [heq]
  exact ⟨h.rest, rfl, h.pDat_eq, h.datStack_eq, h.rootDatum_eq, h.var_ne_inert⟩

/-- A new sub-datum becomes the current datum. -/
theorem DecodeState.Stands.dat (h : st.Stands p rs root r) (hx : root.at p = some x)
    (hact : x.isInert = false) :
    (decodeDat le m st).Stands (p ++ [x.datums.length]) (some p :: rs)
      (modifyAt (addChild fresh) p root) r := by
  have hroot : modifyAt (fun d => d.add le m []) p root = modifyAt (addChild fresh) p root :=
    modifyAt_congr hx (add_nil le m hact)
  have hget : (modifyAt (addChild fresh) p root).at p = some (addChild fresh x) :=
    at_modifyAt _ hx
  have hdat : decodeDat le m st =
      { stream := st.stream, root := modifyAt (addChild fresh) p root,
        datStack := some (p ++ [x.datums.length]) :: some p :: rs,
        pDat := some (p ++ [x.datums.length]), rootDatum := false, var := st.var } := by
    simp only [decodeDat, h.rootDatum_eq, h.pDat_eq, h.datStack_eq, DecodeState.modifyRef,
      h.root_eq, hroot, DecodeState.getRef, Option.bind_eq_bind, Option.bind_some, hget]
    rfl
  rw [hdat]
  exact ⟨h.rest, rfl, rfl, rfl, rfl, h.var_ne_inert⟩

/-- The datum above the current datum becomes the current datum. -/
theorem DecodeState.Stands.datEnd {q : List ℕ} (h : st.Stands q (some p :: rs) root r) :
    (decodeDatEnd st).Stands p rs root r := by
  rw [decodeDatEnd]
  simp only [h.datStack_eq]
  exact ⟨h.rest, h.root_eq, rfl, rfl, h.rootDatum_eq, h.var_ne_inert⟩

/-- The start of a sub-datum. -/
theorem decode_dat (h : st.Stands p rs root (mkDat :: r)) (hx : root.at p = some x)
    (hact : x.isInert = false) :
    ∃ st' : DecodeState β, st.decodeLoop le m = st'.decodeLoop le m ∧
      st'.Stands (p ++ [x.datums.length]) (some p :: rs) (modifyAt (addChild fresh) p root) r := by
  obtain ⟨s', hs', hrest⟩ := reads_octetExtract mkDat h.rest
  have hstep : decodeStep le m st = (.more, decodeDat le m { st with stream := s' }) := by
    rw [decodeStep, hs']
    rfl
  exact ⟨_, decodeLoop_more hstep, (h.reads hrest).dat le hx hact⟩

/-- The end of a sub-datum. -/
theorem decode_datEnd {q : List ℕ} (h : st.Stands q (some p :: rs) root (mkDatEnd :: r)) :
    ∃ st' : DecodeState β, st.decodeLoop le m = st'.decodeLoop le m ∧ st'.Stands p rs root r := by
  obtain ⟨s', hs', hrest⟩ := reads_octetExtract mkDatEnd h.rest
  have hstep : decodeStep le m st = (.more, decodeDatEnd { st with stream := s' }) := by
    rw [decodeStep, hs']
    rfl
  exact ⟨_, decodeLoop_more hstep, (h.reads hrest).datEnd⟩

omit [BlockStore β] [LawfulBlockStore β] in
/-- **Attributes that are set one after another**: those of the tail are set after that of the head, which
they leave alone. -/
theorem attribs_set_cons {γ : Type} {g : Option Variant → γ} {w : Attrib → γ}
    {old new attribs : Attrib → Option Variant} {a : Attrib} {as : List Attrib} (hnotin : a ∉ as)
    (hin : ∀ b ∈ as, g (attribs b) = w b) (hout : ∀ b ∉ as, attribs b = new b)
    (hself : g (new a) = w a) (hnew : ∀ b, b ≠ a → new b = old b) :
    (∀ b ∈ a :: as, g (attribs b) = w b) ∧ ∀ b ∉ a :: as, attribs b = old b := by
  refine ⟨fun b hb => ?_, fun b hb => ?_⟩
  · rcases List.mem_cons.1 hb with rfl | hb
    · rw [hout b hnotin, hself]
    · exact hin b hb
  · obtain ⟨hne, hnot⟩ := not_or.1 (mt List.mem_cons.2 hb)
    rw [hout b hnot, hnew b hne]

/-- **A value is set** as an attribute that the datum does not have yet. -/
theorem attrSet_free (hm : m.Plentiful) (hact : x.isInert = false) {a : Attrib}
    (hfree : x.attribs a = none) {var : Variant} {y : Value} (hvar : var.Holds le y) :
    ∃ v', v'.Holds le y ∧
      x.attrSet m a var = { x with attribs := Function.update x.attribs a (some v') } := by
  refine ⟨_, hvar.assign hm (Variant.holds_construct hm le).not_inert, ?_⟩
  rw [attrSet, if_neg (by simp [hact]), hfree]
  rfl

/-- Every tag but that of the first attribute type is recognized. -/
theorem tagMap_attribMap {a : Attrib} (h : a ≠ .none) :
    tagMap (attribMap a) = some a ∧ attribMap a ≠ mkPkgEnd ∧ attribMap a ≠ mkDat ∧
      attribMap a ≠ mkDatEnd ∧ ¬ (attribMap a = mkChk ∨ attribMap a = mkChkEnd) := by
  cases a with
  | none => exact absurd rfl h
  | _ => exact ⟨by rfl, by decide, by decide, by decide, by decide⟩

/-- **An attribute** is set on the current datum. -/
theorem decode_attrib (hm : m.Plentiful) {a : Attrib} (ha : a ≠ .none) {v : Variant}
    (hv : v.Encodable) (h : st.Stands p rs root (attribOctets le a v ++ r))
    (hx : root.at p = some x) (hact : x.isInert = false) (hfree : x.attribs a = none) :
    ∃ (st' : DecodeState β) (v' : Variant), v'.Holds le' (v.value le) ∧
      st.decodeLoop le' m = st'.decodeLoop le' m ∧
      st'.Stands p rs
        (modifyAt (fun _ => { x with attribs := Function.update x.attribs a (some v') }) p root)
        r := by
  obtain ⟨htag, h₁, h₂, h₃, h₄⟩ := tagMap_attribMap ha
  have hrest := h.rest
  rw [attribOctets, List.cons_append] at hrest
  obtain ⟨s₁, hs₁, hrest₁⟩ := reads_octetExtract (attribMap a) hrest
  obtain ⟨var', hvar', hread⟩ := reads_variantExtract (β := β) le le' hm hv h.var_ne_inert
  -- the data type, then the value
  have hextract : Reads (attribExtract le' m st.var : Extract β Variant)
      ([v.type.toOctet] ++ valueOctets (v.value le)) var' := by
    refine (reads_octetExtract _).bind ?_
    rw [DataType.ofOctet_toOctet]
    exact hread
  obtain ⟨s₂, hs₂, hrest₂⟩ := hextract hrest₁
  obtain ⟨v', hv', hset⟩ := attrSet_free le' hm hact hfree hvar'
  have hstep : decodeStep le' m st = (.more,
      { st with
        stream := s₂, var := var'
        root := modifyAt (fun d => d.attrSet m a var') p root }) := by
    rw [decodeStep, hs₁]
    simp only [if_neg h₁, if_neg h₂, if_neg h₃, if_neg h₄, htag]
    rw [decodeAttrib]
    simp only [hs₂, h.pDat_eq, h.root_eq, DecodeState.modifyRef]
  have hroot : modifyAt (fun d => d.attrSet m a var') p root = modifyAt (fun _ => { x with
      attribs := Function.update x.attribs a (some v') }) p root := modifyAt_congr hx hset
  refine ⟨_, v', hv', decodeLoop_more hstep, ?_⟩
  rw [← hroot]
  exact ⟨hrest₂, rfl, h.pDat_eq, h.datStack_eq, h.rootDatum_eq, hvar'.not_inert⟩

/-- **The attributes of a datum** are set on the current datum, one after another. -/
theorem decode_attribs (hm : m.Plentiful) {d : Datum} (hnone : d.attribs .none = none)
    (hd : ∀ a v, d.attribs a = some v → v.Encodable) (as : List Attrib) (hnodup : as.Nodup) :
    ∀ {st : DecodeState β} {root x : Datum}, st.Stands p rs root (attribsOctets le d as ++ r) →
      root.at p = some x → x.isInert = false → (∀ a ∈ as, x.attribs a = none) →
      ∃ (st' : DecodeState β) (attribs : Attrib → Option Variant),
        st.decodeLoop le' m = st'.decodeLoop le' m ∧
        st'.Stands p rs (modifyAt (fun _ => { x with attribs := attribs }) p root) r ∧
        (∀ a ∈ as, (attribs a).map (fun v => v.value le') =
          (d.attribs a).map fun v => v.value le) ∧
        ∀ a ∉ as, attribs a = x.attribs a := by
  induction as with
  | nil =>
      intro st root x h hx _ _
      refine ⟨st, x.attribs, rfl, ?_, by simp, fun _ _ => rfl⟩
      rw [modifyAt_eq_self hx (by cases x; rfl)]
      exact h
  | cons a as ih =>
      intro st root x h hx hact hfree
      obtain ⟨hnotin, hnodup'⟩ := List.nodup_cons.1 hnodup
      rw [attribsOctets, List.flatMap_cons, ← attribsOctets, List.append_assoc] at h
      cases hv : d.attribs a with
      | none =>
          rw [hv, Option.elim_none, List.nil_append] at h
          obtain ⟨st', attribs, hloop, hst', hin, hout⟩ := ih hnodup' h hx hact
            fun b hb => hfree b (List.mem_cons_of_mem _ hb)
          have hself : (x.attribs a).map (fun v => v.value le') = (d.attribs a).map fun v => v.value le := by
            rw [hfree a List.mem_cons_self, hv]
            rfl
          obtain ⟨hin', hout'⟩ := attribs_set_cons (g := Option.map fun v => v.value le') hnotin hin hout
            hself fun _ _ => rfl
          exact ⟨st', attribs, hloop, hst', hin', hout'⟩
      | some v =>
          have ha : a ≠ .none := by
            rintro rfl
            rw [hnone] at hv
            exact absurd hv (by simp)
          rw [hv, Option.elim_some] at h
          obtain ⟨st₁, v', hheld, hloop₁, hst₁⟩ := decode_attrib le le' hm ha (hd a v hv) h hx
            hact (hfree a (List.mem_cons_self ..))
          obtain ⟨st', attribs, hloop, hst', hin, hout⟩ := ih hnodup' hst₁
            (at_modifyAt _ hx) hact fun b hb => by
              have hne : b ≠ a := fun hba => hnotin (hba ▸ hb)
              exact (Function.update_of_ne hne _ _).trans (hfree b (List.mem_cons_of_mem _ hb))
          rw [modifyAt_modifyAt] at hst'
          have hself : (Function.update x.attribs a (some v') a).map (fun v => v.value le') =
              (d.attribs a).map fun v => v.value le := by
            rw [Function.update_self, hv, Option.map_some, hheld.value_eq]
            rfl
          obtain ⟨hin', hout'⟩ := attribs_set_cons (g := Option.map fun v => v.value le') hnotin hin hout
            hself fun b hne => Function.update_of_ne hne _ _
          exact ⟨st', attribs, hloop₁.trans hloop, hst', hin', hout'⟩

mutual

/-- **The inside of a datum** is rebuilt in a new datum. -/
theorem decode_body (hm : m.Plentiful) : ∀ (d : Datum), d.Encodable →
    ∀ {st : DecodeState β} {p : List ℕ} {rs : List DatumRef} {root : Datum} {r : List UInt8},
      st.Stands p rs root (attribsOctets le d Attrib.all ++ (datumsOctets le d.datums ++ r)) →
      root.at p = some fresh →
      ∃ (st' : DecodeState β) (d' : Datum), st.decodeLoop le' m = st'.decodeLoop le' m ∧
        st'.Stands p rs (modifyAt (fun _ => d') p root) r ∧ d'.tree le' = d.tree le
  | ⟨isInert, self, attribs, iterData, datums⟩, hd, st, p, rs, root, r, h, hx => by
      obtain ⟨-, hnone, hattribs, hall⟩ := hd
      obtain ⟨st₁, attribs', hloop₁, hst₁, hin, -⟩ := decode_attribs le le' hm
        (d := ⟨isInert, self, attribs, iterData, datums⟩) hnone hattribs Attrib.all (by decide)
        h hx rfl fun _ _ => rfl
      obtain ⟨st₂, ds', hloop₂, hst₂, htrees⟩ := decode_datums hm datums hall hst₁
        (at_modifyAt _ hx) rfl
      rw [modifyAt_modifyAt] at hst₂
      refine ⟨st₂, _, hloop₁.trans hloop₂, hst₂, ?_⟩
      rw [tree_addChildren le' ds' rfl, htrees, tree]
      congr 1
      funext a
      exact hin a a.mem_all

/-- **A list of data** is rebuilt behind the sub-data of the current datum. -/
theorem decode_datums (hm : m.Plentiful) : ∀ (ds : List Datum), AllEncodable ds →
    ∀ {st : DecodeState β} {p : List ℕ} {rs : List DatumRef} {root x : Datum} {r : List UInt8},
      st.Stands p rs root (datumsOctets le ds ++ r) → root.at p = some x → x.isInert = false →
      ∃ (st' : DecodeState β) (ds' : List Datum), st.decodeLoop le' m = st'.decodeLoop le' m ∧
        st'.Stands p rs (modifyAt (fun _ => addChildren ds' x) p root) r ∧
        trees le' ds' = trees le ds
  | [], _, st, p, rs, root, x, r, h, hx, _ => by
      refine ⟨st, [], rfl, ?_, rfl⟩
      rw [modifyAt_eq_self hx rfl]
      exact h
  | d :: ds, hall, st, p, rs, root, x, r, h, hx, hact => by
      obtain ⟨hd, hds⟩ := hall
      have hoctets : datumsOctets le (d :: ds) ++ r =
          mkDat :: (attribsOctets le d Attrib.all ++ (datumsOctets le d.datums ++
            (mkDatEnd :: (datumsOctets le ds ++ r)))) := by
        cases d
        simp [datumsOctets, datumOctets]
      rw [hoctets] at h
      -- into the sub-datum, through its inside, and out again
      obtain ⟨st₁, hloop₁, hst₁⟩ := decode_dat le' h hx hact
      obtain ⟨st₂, d', hloop₂, hst₂, htree⟩ := decode_body hm d hd hst₁ (at_addChild hx)
      rw [modifyAt_addChild _ hx] at hst₂
      obtain ⟨st₃, hloop₃, hst₃⟩ := decode_datEnd le' hst₂
      obtain ⟨st₄, ds', hloop₄, hst₄, htrees⟩ := decode_datums hm ds hds hst₃ (at_modifyAt _ hx)
        hact
      rw [modifyAt_modifyAt] at hst₄
      refine ⟨st₄, d' :: ds', hloop₁.trans (hloop₂.trans (hloop₃.trans hloop₄)), hst₄, ?_⟩
      rw [trees, trees, htree, htrees]

end

/-- **The elements of a package** are rebuilt in a new datum. -/
theorem decodeElement_spec (hm : m.Plentiful) {d : Datum} (hd : d.Encodable) {s : StreamBase β}
    (h : s.HasRest (datumOctets le d ++ [mkPkgEnd])) :
    ∃ d' s', decodeElement le' m fresh s = some (true, d', s') ∧ d'.tree le' = d.tree le ∧
      s'.HasRest [] := by
  have hoctets : datumOctets le d ++ [mkPkgEnd] =
      mkDat :: (attribsOctets le d Attrib.all ++ (datumsOctets le d.datums ++
        [mkDatEnd, mkPkgEnd])) := by
    cases d
    simp [datumOctets]
  rw [hoctets] at h
  obtain ⟨s₁, hs₁, hrest₁⟩ := reads_octetExtract mkDat h
  -- the first datum is the root
  set st₀ : DecodeState β :=
    { stream := s, root := fresh, datStack := [some []], pDat := some [], rootDatum := true
      var := Variant.construct m false } with hst₀
  have hstep₀ : decodeStep le' m st₀ = (.more, { st₀ with stream := s₁, rootDatum := false }) := by
    rw [decodeStep, hs₁]
    rfl
  have hst₁ : ({ st₀ with stream := s₁, rootDatum := false } : DecodeState β).Stands [] [] fresh
      (attribsOctets le d Attrib.all ++ (datumsOctets le d.datums ++ [mkDatEnd, mkPkgEnd])) :=
    ⟨hrest₁, rfl, rfl, rfl, rfl, (Variant.holds_construct hm le').not_inert⟩
  obtain ⟨st₂, d', hloop₂, hst₂, htree⟩ := decode_body le le' hm d hd hst₁ rfl
  -- the end of the root leaves the stack as it is
  obtain ⟨s₃, hs₃, hrest₃⟩ := reads_octetExtract mkDatEnd hst₂.rest
  have hstep₂ : decodeStep le' m st₂ = (.more, { st₂ with stream := s₃ }) := by
    rw [decodeStep, hs₃]
    change (Verdict.more, decodeDatEnd { st₂ with stream := s₃ }) = _
    rw [decodeDatEnd]
    simp only [hst₂.datStack_eq]
  obtain ⟨s₄, hs₄, hrest₄⟩ := reads_octetExtract mkPkgEnd hrest₃
  have hstep₃ : decodeStep le' m { st₂ with stream := s₃ } =
      (.exit, { st₂ with stream := s₄ }) := by
    rw [decodeStep, hs₄]
    rfl
  refine ⟨d', s₄, ?_, htree, hrest₄⟩
  rw [decodeElement, decodeLoop_more hstep₀, hloop₂, decodeLoop_more hstep₂, DecodeState.decodeLoop, hstep₃]
  simp only [Option.map_some, hst₂.root_eq]
  rfl

end SerDesNative

/-! ### The round trip -/

open SerDesNative

variable {γ : Type} [BlockStore γ] [LawfulBlockStore γ]

/-- The identifier of a package is read. -/
theorem reads_decodeIdent : Reads (decodeIdent : Extract γ Unit) [mkMagic, mkPkg] () := by
  refine (reads_octetExtract mkMagic).bind (e := [mkPkg]) ?_
  rw [if_pos rfl]
  refine (reads_octetExtract mkPkg).bind (e := []) ?_
  rw [if_pos rfl]
  exact reads_pure ()

/-- The header of a package is read, whatever its version is. -/
theorem reads_header (ver : UInt8) :
    Reads (decodeIdent >>= fun _ => decodeVersion : Extract γ Unit) [mkMagic, mkPkg, ver] () :=
  reads_decodeIdent.bind ((reads_octetExtract ver).bind (reads_pure ()))

/-- **What is encoded is decoded to the same tree**, on hosts of any byte order, from any stream
that holds the octets, into any active datum without a name. -/
theorem native_decode_encode (le le' : Bool) (m : MemPools) {m' : MemPools} (hm' : m'.Plentiful)
    {dat : Datum} (hdat : dat.Encodable) {s : StreamBase β} {f : FlatStream UInt8}
    (hs : s.Represents f) {dst : Datum} (hact : dst.isInert = false)
    (hname : dst.nameGet le' m' = []) :
    ∃ s', dat.encode le m .none s = some (true, s') ∧
      ∀ {t : StreamBase γ} {g : FlatStream UInt8}, t.Represents g → g.content = s'.octets →
        ∃ dst' t', dst.decode le' m' false t = some (true, dst', t') ∧
          dst'.tree le' = dat.tree le := by
  obtain ⟨s', hrun, g', hrep, -, hcontent⟩ := Datum.encode_spec le m hdat hs
  have hoctets : s'.octets = packageOctets le dat := hrep.octets_eq.trans hcontent
  refine ⟨s', hrun, ?_⟩
  intro t g ht hg
  -- the decoder starts over at the start of the stream
  have hrest : (t.seek 0).2.HasRest (packageOctets le dat) :=
    ⟨_, (ht.seek 0).2, by rw [g.rest_seek_zero, hg, hoctets]⟩
  obtain ⟨t₁, ht₁, hrest₁⟩ := reads_header Datum.datumVersion hrest
  obtain ⟨dst', t', hdec, htree, -⟩ := decodeElement_spec le le' hm' hdat hrest₁
  refine ⟨dst', t', ?_, htree⟩
  rw [Datum.decode, if_neg (by simp [hact]), SerDesNative.decode, SerDesNative.execDecodeStates]
  simp only [Datum.clear_of_nameless hact hname, ht₁, hdec]
  rfl

/-- A datum with a number and a sub-datum with a text. -/
def sampleDatum : Datum :=
  let num := Variant.uint16Set true exactPools (Variant.construct exactPools false) 1000
  let text := Variant.strSet exactPools (Variant.construct exactPools false) (ascii "text")
  { Datum.fresh with
    attribs := fun a => if a = .val then some num else none
    datums := [{ Datum.fresh with attribs := fun a => if a = .info then some text else none }] }

theorem encodable_sampleDatum : sampleDatum.Encodable := by
  have hnum : (Variant.uint16Set true exactPools (Variant.construct exactPools false)
      1000).Encodable :=
    ⟨(Variant.holds_numSet plentiful_exactPools true (t := .uint16) rfl (by decide) 1000).wf,
      by decide, by decide, fun h => absurd h (by decide), fun h => absurd h (by decide)⟩
  have htext : (Variant.strSet exactPools (Variant.construct exactPools false)
      (ascii "text")).Encodable :=
    ⟨(Variant.holds_strSet plentiful_exactPools true _ _).wf, by decide, by decide,
      fun _ => by decide, fun h => absurd h (by decide)⟩
  refine ⟨rfl, rfl, ?_, ⟨rfl, rfl, ?_, trivial⟩, trivial⟩
  · intro a v hv
    dsimp only at hv
    split_ifs at hv
    exact Option.some.inj hv ▸ hnum
  · intro a v hv
    dsimp only at hv
    split_ifs at hv
    exact Option.some.inj hv ▸ htext

/-- Encoded on a little-endian host and decoded on a big-endian one. -/
theorem native_decode_encode_sample :
    ∃ s', sampleDatum.encode true exactPools .none (StreamBuf.construct sampleMem 0) =
        some (true, s') ∧
      ∀ {t : StreamBuf} {g : FlatStream UInt8}, t.Represents g → g.content = s'.octets →
        ∃ dst' t', Datum.fresh.decode false exactPools false t = some (true, dst', t') ∧
          dst'.tree false = sampleDatum.tree true :=
  native_decode_encode true false exactPools plentiful_exactPools encodable_sampleDatum
    (StreamBuf.represents_construct plentiful_sampleMem 0) rfl rfl

end CodePort
