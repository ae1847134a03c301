/-
Fragmentation and reassembly are inverse.

The octets that a finalised chain puts on the wire carry all that the receiver needs: fragment
number, data length and flags are read back from them, an accumulator that gets the segments in
any order completes at the last one, and the stream over the reassembled list reads the payload.

Main definitions:

* `CodePort.fieldAt` — the octets of a field of a segment on the wire;
* `CodePort.IpcSegment.padded` — a segment whose buffer is filled up to the full size.

Main results:

* `CodePort.fragNum_fragment`, `dataLen_fragment`, `options_fragment` — what is read back from a
  fragment;
* `CodePort.IpcStreamSeg.read_inject` — **the stream over the fragments of a payload reads the
  payload**;
* `CodePort.fragment_reassemble` — **fragmentation and reassembly are inverse**.
-/

import CodePort.IpcAccum
import CodePort.IpcFragment

set_option relaxedAutoImplicit false
set_option autoImplicit false

namespace CodePort

open BlockList Octets IpcSegment

/-! ### Fields on the wire -/

/-- The octets of a field of `w` octets at offset `p`. -/
def fieldAt (l : List UInt8) (p w : ℕ) : List UInt8 := (l.drop p).takeD w 0

/-- A field depends on its own octets only. -/
theorem fieldAt_congr {l l' : List UInt8} {p w : ℕ}
    (h : ∀ j, p ≤ j → j < p + w → l[j]? = l'[j]?) : fieldAt l p w = fieldAt l' p w := by
  refine List.ext_getElem? fun i => ?_
  rw [fieldAt, fieldAt, getElem?_takeD, getElem?_takeD, List.getElem?_drop, List.getElem?_drop]
  split_ifs with hi
  · rw [h _ (Nat.le_add_right _ _) (by omega)]
  · rfl

theorem fieldAt_append {l r : List UInt8} {p w : ℕ} (h : p + w ≤ l.length) :
    fieldAt (l ++ r) p w = fieldAt l p w :=
  fieldAt_congr fun _ _ hj => List.getElem?_append_left (by omega)

theorem fieldAt_overwrite_self {l d : List UInt8} {p : ℕ} (h : p ≤ l.length) :
    fieldAt (overwrite l p d) p d.length = d := by
  have hlen : d.length ≤ ((overwrite l p d).drop p).length := by
    rw [List.length_drop, length_overwrite h]
    omega
  rw [fieldAt, List.takeD_eq_take _ hlen, take_drop_overwrite h]

theorem fieldAt_overwrite_of_disjoint {l d : List UInt8} {p q w : ℕ} (hp : p ≤ l.length)
    (h : q + w ≤ p ∨ p + d.length ≤ q) : fieldAt (overwrite l p d) q w = fieldAt l q w := by
  refine fieldAt_congr fun j hj hj' => ?_
  rw [getElem?_overwrite hp]
  split_ifs <;> first | rfl | omega

theorem fieldAt_addFlag {h : List UInt8} (hlen : h.length = segData) (flag : UInt8) {q w : ℕ}
    (hq : 2 ≤ q) : fieldAt (addFlag flag h) q w = fieldAt h q w :=
  fieldAt_congr fun _ hj _ => getElem?_addFlag hlen flag (by omega)

/-- A field of a segment is read from the data of its buffer. -/
theorem fieldAt_data {s : IpcSegment} {p w : ℕ} (h : p + w ≤ s.buf.dataLen) :
    fieldAt s.buf.mem p w = fieldAt s.buf.data p w := by
  rw [← s.buf.data_append_drop, fieldAt_append (by rw [Buffer.length_data]; exact h)]

theorem fragNum_eq {s : IpcSegment} (h : segData ≤ s.buf.dataLen) :
    s.fragNum = ofBE (fieldAt s.buf.data segFragNum 2) := by
  rw [← fieldAt_data (le_trans (by decide) h)]
  rfl

theorem dataLen_eq {s : IpcSegment} (h : segData ≤ s.buf.dataLen) :
    s.dataLen = ofBE (fieldAt s.buf.data segDataLen 2) := by
  rw [← fieldAt_data (le_trans (by decide) h)]
  rfl

theorem options_eq {s : IpcSegment} (h : segData ≤ s.buf.dataLen) :
    s.options = s.buf.data.getD segOptions 0 &&& 0xfc := by
  have hlt : segOptions < s.buf.data.length := by
    rw [Buffer.length_data]
    exact lt_of_lt_of_le (by decide) h
  rw [options, octetAt, ← s.buf.data_append_drop, List.getD_eq_getElem?_getD,
    List.getD_eq_getElem?_getD, List.getElem?_append_left hlt]

/-! ### The fields of a fragment -/

variable {base : List UInt8}

theorem fieldAt_fragHead_fragNum (hbase : base.length = segData) (n i len : ℕ) :
    fieldAt (fragHead base n i len) segFragNum 2 = toBE 2 (i + 1) := by
  have hmulti := length_multiHead hbase n
  have hchain := length_chainHead hbase n i
  have hself : fieldAt (chainHead base n i) segFragNum 2 = toBE 2 (i + 1) := by
    have := fieldAt_overwrite_self (l := multiHead base n) (d := toBE 2 (i + 1))
      (p := segFragNum) (by rw [hmulti]; decide)
    rwa [length_toBE] at this
  have hlen : fieldAt (overwrite (chainHead base n i) segDataLen (toBE 2 len)) segFragNum 2 =
      toBE 2 (i + 1) := by
    rw [fieldAt_overwrite_of_disjoint (by rw [hchain]; decide) (Or.inl (by decide)), hself]
  simp only [fragHead]
  split
  · have hover : (overwrite (chainHead base n i) segDataLen (toBE 2 len)).length = segData := by
      rw [length_overwrite_of_le (by rw [hchain, length_toBE]; decide), hchain]
    rw [fieldAt_addFlag hover _ (by decide), hlen]
  · exact hlen

theorem fieldAt_fragHead_dataLen (hbase : base.length = segData) (n i len : ℕ) :
    fieldAt (fragHead base n i len) segDataLen 2 = toBE 2 len := by
  have hchain := length_chainHead hbase n i
  have hself : fieldAt (overwrite (chainHead base n i) segDataLen (toBE 2 len)) segDataLen 2 =
      toBE 2 len := by
    have := fieldAt_overwrite_self (l := chainHead base n i) (d := toBE 2 len)
      (p := segDataLen) (by rw [hchain]; decide)
    rwa [length_toBE] at this
  simp only [fragHead]
  split
  · have hover : (overwrite (chainHead base n i) segDataLen (toBE 2 len)).length = segData := by
      rw [length_overwrite_of_le (by rw [hchain, length_toBE]; decide), hchain]
    rw [fieldAt_addFlag hover _ (by decide), hself]
  · exact hself

/-- An options field with a flag set in it. -/
def flagged (flag o : UInt8) : UInt8 := o &&& 0x03 ||| (o &&& 0xfc ||| flag) &&& 0xfc

theorem getD_overwrite_options {h : List UInt8} {p : ℕ} {d : List UInt8} (hp : 2 ≤ p)
    (hle : p ≤ h.length) : (overwrite h p d).getD segOptions 0 = h.getD segOptions 0 := by
  rw [List.getD_eq_getElem?_getD, List.getD_eq_getElem?_getD, getElem?_overwrite hle,
    if_pos (lt_of_lt_of_le (by decide) hp)]

theorem getD_addFlag {h : List UInt8} (hlen : h.length = segData) (flag : UInt8) :
    (addFlag flag h).getD segOptions 0 = flagged flag (h.getD segOptions 0) := by
  rw [addFlag, List.getD_eq_getElem?_getD, getElem?_overwrite (by rw [hlen]; decide),
    if_neg (lt_irrefl _), if_pos (by rw [List.length_singleton]; exact Nat.lt_succ_self _),
    Nat.sub_self]
  rfl

/-- The options field of a fragment. -/
theorem getD_fragHead (hbase : base.length = segData) (n i len : ℕ) :
    (fragHead base n i len).getD segOptions 0 =
      if 1 < n then
        if i + 1 = n then flagged optInitial (flagged optMultipart (base.getD segOptions 0))
        else flagged optMultipart (base.getD segOptions 0)
      else base.getD segOptions 0 := by
  have hmulti := length_multiHead hbase n
  have hchain := length_chainHead hbase n i
  have hover : (overwrite (chainHead base n i) segDataLen (toBE 2 len)).length = segData := by
    rw [length_overwrite_of_le (by rw [hchain, length_toBE]; decide), hchain]
  have hget : (overwrite (chainHead base n i) segDataLen (toBE 2 len)).getD segOptions 0 =
      if 1 < n then flagged optMultipart (base.getD segOptions 0)
      else base.getD segOptions 0 := by
    rw [getD_overwrite_options (by decide) (by rw [hchain]; decide), chainHead,
      getD_overwrite_options (by decide) (by rw [hmulti]; decide), multiHead]
    split
    · exact getD_addFlag hbase _
    · rfl
  simp only [fragHead]
  by_cases hn : 1 < n
  · by_cases hi : i + 1 = n
    · rw [if_pos ⟨hn, hi⟩, getD_addFlag hover, hget, if_pos hn, if_pos hn, if_pos hi]
    · rw [if_neg fun hc => hi hc.2, hget, if_pos hn, if_pos hn, if_neg hi]
  · rw [if_neg fun hc => hn hc.1, hget, if_neg hn, if_neg hn]

/-- A statement about the bits of an octet, checked octet by octet. -/
theorem forall_octet {P : UInt8 → Prop} (h : ∀ x : BitVec 8, P (UInt8.ofBitVec x)) (o : UInt8) :
    P o := h o.toBitVec

theorem flagged_multipart (o : UInt8) :
    (flagged optMultipart o &&& 0xfc) &&& optMultipart ≠ 0 ∧
      (o &&& optInitial = 0 → (flagged optMultipart o &&& 0xfc) &&& optInitial = 0) := by
  revert o
  exact forall_octet (by decide +kernel)

theorem flagged_initial (o : UInt8) :
    (flagged optInitial (flagged optMultipart o) &&& 0xfc) &&& optMultipart ≠ 0 ∧
      (flagged optInitial (flagged optMultipart o) &&& 0xfc) &&& optInitial ≠ 0 := by
  revert o
  exact forall_octet (by decide +kernel)

theorem unflagged (o : UInt8) :
    (o &&& optMultipart = 0 → (o &&& 0xfc) &&& optMultipart = 0) ∧
      (o &&& optInitial = 0 → (o &&& 0xfc) &&& optInitial = 0) := by
  revert o
  exact forall_octet (by decide +kernel)

/-- **The flags of a fragment**, when the template has no flag that the fragments have not. -/
theorem flags_fragHead (hbase : base.length = segData) {n : ℕ}
    (hmp : ¬ 1 < n → base.getD segOptions 0 &&& optMultipart = 0)
    (hin : base.getD segOptions 0 &&& optInitial = 0) (i len : ℕ) :
    (((fragHead base n i len).getD segOptions 0 &&& 0xfc) &&& optMultipart ≠ 0 ↔ 1 < n) ∧
      (((fragHead base n i len).getD segOptions 0 &&& 0xfc) &&& optInitial ≠ 0 ↔
        1 < n ∧ i + 1 = n) := by
  rw [getD_fragHead hbase]
  by_cases hn : 1 < n
  · by_cases hi : i + 1 = n
    · obtain ⟨h₁, h₂⟩ := flagged_initial (base.getD segOptions 0)
      simp only [hn, hi, if_true, h₁, h₂, ne_eq, not_false_eq_true, and_self]
    · obtain ⟨h₁, h₂⟩ := flagged_multipart (base.getD segOptions 0)
      simp only [hn, hi, if_true, if_false, h₁, h₂ hin, ne_eq, not_false_eq_true, not_true_eq_false,
        and_false, and_self]
  · obtain ⟨h₁, h₂⟩ := unflagged (base.getD segOptions 0)
    simp only [hn, if_false, h₁ (hmp hn), h₂ hin, ne_eq, not_true_eq_false, false_and, and_self]

theorem length_slice_le (payload : List UInt8) (i : ℕ) : (slice payload i).length ≤ capacity :=
  List.length_take_le _ _

/-- **What is read back from a segment that holds a fragment.** -/
theorem fields_fragment (hbase : base.length = segData) {n i : ℕ} {payload : List UInt8}
    {s : IpcSegment} (hi : i + 1 < 2 ^ 16)
    (hdata : s.buf.data = fragHead base n i (slice payload i).length ++ slice payload i) :
    s.buf.dataLen = segData + (slice payload i).length ∧ s.fragNum = i + 1 ∧
      s.dataLen = (slice payload i).length ∧
      s.options = (fragHead base n i (slice payload i).length).getD segOptions 0 &&& 0xfc := by
  have hhead := length_fragHead hbase n i (slice payload i).length
  have hlen : s.buf.dataLen = segData + (slice payload i).length := by
    rw [← Buffer.length_data, hdata, List.length_append, hhead]
  have hle := length_slice_le payload i
  have hcap : capacity = 1000 := rfl
  refine ⟨hlen, ?_, ?_, ?_⟩
  · rw [fragNum_eq (by omega), hdata, fieldAt_append (by rw [hhead]; decide),
      fieldAt_fragHead_fragNum hbase, ofBE_toBE_of_lt hi]
  · rw [dataLen_eq (by omega), hdata, fieldAt_append (by rw [hhead]; decide),
      fieldAt_fragHead_dataLen hbase, ofBE_toBE_of_lt (by omega)]
  · have hlt : segOptions < (fragHead base n i (slice payload i).length).length := by
      rw [hhead]
      decide
    rw [options_eq (by omega), hdata, List.getD_eq_getElem?_getD, List.getD_eq_getElem?_getD,
      List.getElem?_append_left hlt]

/-- The segments that hold the fragments of a payload, one by one. -/
theorem data_fragments {payload : List UInt8} {n : ℕ}
    (hn : IpcStreamSegMem.segCount payload.length = n) {segs : List IpcSegment}
    (hdata : segs.map (fun x => x.buf.data) = fragments base payload) :
    segs.length = n ∧ ∀ i (hi : i < segs.length),
      segs[i].buf.data = fragHead base n i (slice payload i).length ++ slice payload i := by
  constructor
  · have hlen := congrArg List.length hdata
    rw [List.length_map, fragments, hn] at hlen
    simpa using hlen
  · intro i hi
    have hget := List.getElem_of_eq hdata (i := i) (by rw [List.length_map]; exact hi)
    rw [List.getElem_map] at hget
    rw [hget]
    simp [fragments, hn]

/-! ### Reading a reassembled message -/

namespace IpcSegment

/-- A segment whose buffer is filled up to the full size with zeros. -/
def padded (s : IpcSegment) : IpcSegment where
  buf :=
    { block := some (s.buf.mem ++ List.replicate (segMaxLen - s.buf.size) 0)
      dataLen := s.buf.dataLen
      dataLen_le := by
        rw [Option.getD_some, List.length_append]
        exact s.buf.dataLen_le.trans (Nat.le_add_right _ _) }

theorem mem_padded (s : IpcSegment) :
    s.padded.buf.mem = s.buf.mem ++ List.replicate (segMaxLen - s.buf.size) 0 := rfl

theorem full_padded (s : IpcSegment) : s.padded.Full := by
  rw [Full, Buffer.size, mem_padded, List.length_append, List.length_replicate]
  change segMaxLen ≤ s.buf.size + (segMaxLen - s.buf.size)
  omega

theorem data_padded (s : IpcSegment) : s.padded.buf.data = s.buf.data := by
  have hle : s.padded.buf.dataLen ≤ s.buf.mem.length := s.buf.dataLen_le
  rw [Buffer.data, mem_padded, List.take_append_of_le_length hle]
  rfl

/-- A segment that holds data has a block. -/
theorem block_ne_none {s : IpcSegment} (h : 0 < s.buf.dataLen) : s.buf.block ≠ none := by
  intro hc
  have hle := s.buf.dataLen_le
  rw [hc] at hle
  exact absurd hle (not_le.2 h)

end IpcSegment

namespace IpcStreamSeg

open StreamBase IpcStreamSegMem

/-- The chain with every buffer filled up. -/
def paddedStore (m : MemPools) (segs : List IpcSegment) : IpcStreamSegMem where
  pools := m
  blockCount := segs.length
  template := IpcSegment.construct m
  segs := segs.map IpcSegment.padded

theorem ready_paddedStore {m : MemPools} (hm : m.blockSize segMaxLen ≠ none)
    (segs : List IpcSegment) : Ready (paddedStore m segs) := by
  refine ⟨hm, (List.length_map _).symm, ?_⟩
  intro s hs
  obtain ⟨t, -, rfl⟩ := List.mem_map.1 hs
  exact full_padded t

/-- Octets past the end of a list read as zero. -/
theorem drop_takeD_append_replicate (l : List UInt8) (k p w : ℕ) :
    ((l ++ List.replicate k 0).drop p).takeD w 0 = (l.drop p).takeD w 0 := by
  refine List.ext_getElem? fun i => ?_
  rw [getElem?_takeD, getElem?_takeD, List.getElem?_drop, List.getElem?_drop]
  split_ifs with hi
  · rcases Nat.lt_or_ge (p + i) l.length with hlt | hge
    · rw [List.getElem?_append_left hlt]
    · rw [List.getElem?_append_right hge, List.getElem?_eq_none hge, List.getElem?_replicate]
      split_ifs <;> rfl
  · rfl

/-- **Reading an injected chain is reading the chain with its buffers filled up.** -/
theorem arrayRd_inject {m : MemPools} {t : IpcStreamSeg} {segs : List IpcSegment}
    (hsegs : t.store.segs = segs) (hpos : ∀ s ∈ segs, segData ≤ s.buf.dataLen) (len : ℕ) :
    (t.withStore (paddedStore m segs)).arrayRd len =
      ((t.arrayRd len).1, (t.arrayRd len).2.withStore (paddedStore m segs)) := by
  have hptr : ∀ k, BlockStore.blockMemPtr (paddedStore m segs) k =
      (BlockStore.blockMemPtr t.store k).map fun mem =>
        mem ++ List.replicate (segMaxLen - (segData + mem.length)) 0 := by
    intro k
    simp only [BlockStore.blockMemPtr, blockMemPtr, paddedStore, hsegs]
    rcases Nat.lt_or_ge k segs.length with hk | hk
    · have hdl := hpos _ (List.getElem_mem hk)
      have hle : segData ≤ segs[k].buf.size := hdl.trans segs[k].buf.dataLen_le
      have hb := block_ne_none (lt_of_lt_of_le (by decide) hdl)
      obtain ⟨mem, hmem⟩ := Option.ne_none_iff_exists'.1 hb
      have hmem' : segs[k].buf.mem = mem := by rw [Buffer.mem, hmem, Option.getD_some]
      have hsize : segs[k].buf.size = mem.length := by rw [Buffer.size, hmem']
      rw [hsize] at hle
      rw [List.getElem?_map, List.getElem?_eq_getElem hk, Option.map_some, Option.bind_some,
        Option.bind_some, hmem, Option.map_some, Option.map_some]
      simp only [padded, Option.map_some, hmem', hsize]
      rw [List.drop_append_of_le_length hle, List.length_drop, Nat.add_sub_cancel' hle]
    · rw [List.getElem?_map, List.getElem?_eq_none hk]
      rfl
  refine arrayRd_congr len ?_ rfl ?_ ?_
  · simp only [BlockStore.memoryChk, paddedStore, hsegs, List.isEmpty_map]
  · intro k
    rw [hptr, Option.isSome_map]
  · intro chunk
    rw [chunkOctets, chunkOctets, hptr]
    cases BlockStore.blockMemPtr t.store chunk.block with
    | none => rfl
    | some mem => exact drop_takeD_append_replicate _ _ _ _

/-- The slices of a payload, put together. -/
theorem flatten_slices (payload : List UInt8) (n : ℕ) :
    ((List.range n).map (slice payload)).flatten = payload.take (n * capacity) := by
  induction n with
  | zero => simp
  | succ n ih =>
      rw [List.range_succ, List.map_append, List.flatten_append, ih, Nat.succ_mul, List.take_add]
      simp [slice]

theorem length_slice (payload : List UInt8) (i : ℕ) :
    (slice payload i).length = min capacity (payload.length - i * capacity) := by
  rw [slice, List.length_take, List.length_drop]

/-- How the payload of a message fills its segments. -/
theorem slices_fill {payload : List UInt8} (hne : payload ≠ []) {m : ℕ}
    (hm : segCount payload.length = m + 1) :
    payload.length = m * capacity + (slice payload m).length ∧ 0 < (slice payload m).length ∧
      ∀ k < m, (slice payload k).length = capacity := by
  have hcap : capacity = 1000 := rfl
  obtain ⟨h₁, h₂⟩ := segCount_tight (List.length_pos_iff.2 hne)
  rw [hm, hcap] at h₁ h₂
  have hlen := length_slice payload m
  rw [hcap] at hlen
  refine ⟨by rw [hcap]; omega, by omega, ?_⟩
  intro k hk
  have hmul : (k + 1) * 1000 ≤ m * 1000 := Nat.mul_le_mul_right _ hk
  rw [length_slice, hcap]
  omega

/-- The payload areas of a filled-up chain that holds the fragments of a payload: taken up to the
length of the payload, they are the payload. -/
theorem take_flatten_windows {payload : List UInt8} (hne : payload ≠ []) {m : ℕ}
    (hm : segCount payload.length = m + 1) {ws : List (List UInt8)} (hlen : ws.length = m + 1)
    (hfull : ∀ w ∈ ws, w.length = capacity)
    (hw : ∀ k (hk : k < ws.length), ws[k].take (slice payload k).length = slice payload k) :
    ws.flatten.take payload.length = payload := by
  obtain ⟨hpl, -, hfill⟩ := slices_fill hne hm
  rcases List.eq_nil_or_concat ws with rfl | ⟨init, last, hws⟩
  · exact absurd hlen (by simp)
  rw [List.concat_eq_append] at hws
  have hinitLen : init.length = m := by
    rw [hws, List.length_append, List.length_singleton] at hlen
    omega
  have hinit : init = (List.range m).map (slice payload) := by
    refine List.ext_getElem (by simp [hinitLen]) fun k hk₁ hk₂ => ?_
    have hk : k < ws.length := by omega
    have hget : ws[k] = init[k] := by rw [List.getElem_of_eq hws hk, List.getElem_append_left]
    have hlenk : init[k].length = capacity := hfull _ (by rw [hws]; simp)
    have hwk := hw k hk
    rw [hget, hfill k (by omega), ← hlenk, List.take_length] at hwk
    rw [List.getElem_map, List.getElem_range, hwk]
  have hlast : last.take (slice payload m).length = slice payload m := by
    have hm' : m < ws.length := by omega
    have hget : ws[m] = last := by
      rw [List.getElem_of_eq hws hm', List.getElem_concat_length hinitLen.symm]
    have hwm := hw m hm'
    rwa [hget] at hwm
  have hflat : init.flatten.length = m * capacity := by
    rw [length_flatten_of_forall (n := capacity) fun w hw => hfull w (by rw [hws]; simp [hw]),
      hinitLen]
  have hall := flatten_slices payload (m + 1)
  rw [List.range_succ, List.map_append, List.flatten_append, ← hinit, List.map_singleton,
    List.flatten_singleton, ← hm, List.take_of_length_le
      (segCount_tight (List.length_pos_iff.2 hne)).2] at hall
  conv_lhs => rw [hws, List.flatten_append, List.flatten_singleton, hpl, ← hflat,
    List.take_length_add_append, hlast]
  exact hall

/-- The chain of the fragments of a payload, as it is injected. -/
theorem segmentInject_fragments (hbase : base.length = segData) (s : IpcStreamSeg)
    {payload : List UInt8} {n : ℕ} (hn : segCount payload.length = n + 1) (hcount : n + 1 < 2 ^ 16)
    {segs : List IpcSegment} (hdata : segs.map (fun x => x.buf.data) = fragments base payload) :
    s.segmentInject segs =
      { s.clear with
        store := { s.clear.store with blockCount := segs.length, segs := segs }
        lastBlock := n
        lastPos := (slice payload n).length } := by
  obtain ⟨hlen, hget⟩ := data_fragments hn hdata
  have hn' : n < segs.length := by omega
  have htail : segs.getLast? = some segs[n] := by
    rw [List.getLast?_eq_getElem?, show segs.length - 1 = n by omega,
      List.getElem?_eq_getElem hn']
  obtain ⟨-, -, hdl, -⟩ := fields_fragment hbase hcount (hget n hn')
  rw [segmentInject, htail]
  simp only [hlen, Nat.add_sub_cancel, hdl]

theorem lenGet_inject (hbase : base.length = segData) (s : IpcStreamSeg) {payload : List UInt8}
    (hne : payload ≠ []) (hcount : segCount payload.length < 2 ^ 16) {segs : List IpcSegment}
    (hdata : segs.map (fun x => x.buf.data) = fragments base payload) :
    (s.segmentInject segs).lenGet = payload.length := by
  obtain ⟨n, hn⟩ : ∃ n, segCount payload.length = n + 1 :=
    Nat.exists_eq_succ_of_ne_zero (segCount_pos (List.length_pos_iff.2 hne)).ne'
  obtain ⟨hpl, -, -⟩ := slices_fill hne hn
  rw [lenGet, sizeBefore_eq_mul, hpl, segmentInject_fragments hbase s hn (by omega) hdata]

/-- The payload areas of the segments of a payload, filled up, hold its slices. -/
theorem window_padded (hbase : base.length = segData) {payload : List UInt8} {n i : ℕ}
    (hi : i + 1 < 2 ^ 16) {x : IpcSegment}
    (hx : x.buf.data = fragHead base n i (slice payload i).length ++ slice payload i) :
    (window x.padded).take (slice payload i).length = slice payload i := by
  have hpad := data_eq (full_padded x) (length_slice_le payload i) (fields_fragment hbase hi hx).1
  rw [data_padded, hx] at hpad
  obtain ⟨-, hslice⟩ := List.append_inj hpad
    (by rw [length_fragHead hbase, (full_padded x).length_head])
  exact hslice.symm

/-- The chain of the fragments of a payload, with its buffers filled up, is the payload with the cursor
at its beginning. -/
theorem represents_inject (hbase : base.length = segData) {m : MemPools}
    (hm : m.blockSize segMaxLen ≠ none) (s : IpcStreamSeg) {payload : List UInt8}
    (hne : payload ≠ []) (hcount : segCount payload.length < 2 ^ 16) {segs : List IpcSegment}
    (hdata : segs.map (fun x => x.buf.data) = fragments base payload) :
    ((s.segmentInject segs).withStore (paddedStore m segs)).Represents
      ⟨payload, 0, true, Nat.zero_le _, by simp⟩ := by
  have hcap : capacity = 1000 := rfl
  obtain ⟨n, hn⟩ : ∃ n, segCount payload.length = n + 1 :=
    Nat.exists_eq_succ_of_ne_zero (segCount_pos (List.length_pos_iff.2 hne)).ne'
  obtain ⟨hpl, hpos, -⟩ := slices_fill hne hn
  obtain ⟨hlen, hget⟩ := data_fragments hn hdata
  have hulen := lenGet_inject hbase s hne hcount hdata
  set u := (s.segmentInject segs).withStore (paddedStore m segs) with hu
  have hblks : u.blks = segs.map fun x => window x.padded := List.map_map
  have hblksLen : u.blks.length = n + 1 := by rw [hblks, List.length_map, hlen]
  have hne' : u.blks ≠ [] := List.length_pos_iff.1 (by omega)
  obtain ⟨hcb, hcp, hlb, hlp⟩ : u.curBlock = 0 ∧ u.curPos = 0 ∧ u.lastBlock = n ∧
      u.lastPos = (slice payload n).length := by
    rw [hu, segmentInject_fragments hbase s hn (by omega) hdata]
    exact ⟨rfl, rfl, rfl, rfl⟩
  have hwf : u.Wf :=
    { ready := ready_paddedStore hm segs
      unbacked := fun hn => absurd hn hne'
      lastBlock_lt := fun _ => by omega
      lastPos_le := by
        rw [hlp]
        exact length_slice_le payload n
      lastPos_pos := fun _ => by omega
      curBlock_le := by omega
      curPos_le := fun _ => by rw [hcp]; exact Nat.zero_le _
      curPos_le_lastPos := fun _ => by rw [hcp]; exact Nat.zero_le _ }
  have hoct : u.octets = payload := by
    rw [octets, show u.lenGet = payload.length from hulen, hblks]
    refine take_flatten_windows hne hn (by rw [List.length_map, hlen]) ?_ ?_
    · intro w hw
      obtain ⟨x, -, rfl⟩ := List.mem_map.1 hw
      exact length_window (full_padded x)
    · intro k hk
      have hk' : k < segs.length := by simpa using hk
      rw [List.getElem_map]
      exact window_padded hbase (by omega) (hget k hk')
  refine ⟨hwf, hoct, ?_, by simp [hne']⟩
  rw [pos, sizeBefore_eq_mul, hcb, hcp, Nat.zero_mul]

/-- **The stream over the fragments of a payload reads the payload.** -/
theorem read_inject (hbase : base.length = segData) {m : MemPools}
    (hm : m.blockSize segMaxLen ≠ none) (s : IpcStreamSeg) {payload : List UInt8}
    (hne : payload ≠ []) (hcount : segCount payload.length < 2 ^ 16) {segs : List IpcSegment}
    (hdata : segs.map (fun x => x.buf.data) = fragments base payload) :
    (s.segmentInject segs).lenGet = payload.length ∧
      ((s.segmentInject segs).arrayRd payload.length).1 = payload := by
  obtain ⟨n, hn⟩ : ∃ n, segCount payload.length = n + 1 :=
    Nat.exists_eq_succ_of_ne_zero (segCount_pos (List.length_pos_iff.2 hne)).ne'
  obtain ⟨hlen, hget⟩ := data_fragments hn hdata
  have htsegs : (s.segmentInject segs).store.segs = segs := by
    rw [segmentInject_fragments hbase s hn (by omega) hdata]
  refine ⟨lenGet_inject hbase s hne hcount hdata, ?_⟩
  -- the same chain with its buffers filled up is a sequence with a cursor
  have hrd := ((represents_inject hbase hm s hne hcount hdata).arrayRd payload.length).1
  have hcongr := arrayRd_inject (m := m) htsegs (fun x hx => by
    obtain ⟨k, hk, rfl⟩ := List.getElem_of_mem hx
    rw [(fields_fragment hbase (by omega) (hget k hk)).1]
    exact Nat.le_add_right _ _) payload.length
  rw [hcongr] at hrd
  rw [hrd]
  simp [FlatStream.read, FlatStream.rest]

end IpcStreamSeg

/-! ### Fragmentation and reassembly -/

open IpcStreamSeg IpcStreamSegMem

/-- **The segments that hold the fragments of a payload**: their numbers, lengths and flags. -/
theorem fields_fragments (hbase : base.length = segData)
    {payload : List UInt8}
    (hmp : ¬ 1 < segCount payload.length → base.getD segOptions 0 &&& optMultipart = 0)
    (hin : base.getD segOptions 0 &&& optInitial = 0) (hne : payload ≠ [])
    (hcount : segCount payload.length < 2 ^ 16) {segs : List IpcSegment}
    (hdata : segs.map (fun x => x.buf.data) = fragments base payload) :
    segs.length = segCount payload.length ∧ ∀ i (hi : i < segs.length),
      segs[i].fragNum = i + 1 ∧
      segs[i].dataLen = (if i + 1 < segs.length then capacity
        else payload.length - (segs.length - 1) * capacity) ∧
      (segs[i].options &&& optMultipart ≠ 0 ↔ 1 < segs.length) ∧
      (segs[i].options &&& optInitial ≠ 0 ↔ 1 < segs.length ∧ i + 1 = segs.length) := by
  obtain ⟨n, hn⟩ : ∃ n, segCount payload.length = n + 1 :=
    Nat.exists_eq_succ_of_ne_zero (segCount_pos (List.length_pos_iff.2 hne)).ne'
  obtain ⟨hpl, -, hfill⟩ := slices_fill hne hn
  obtain ⟨hlen, hget⟩ := data_fragments hn hdata
  refine ⟨by rw [hlen, hn], ?_⟩
  intro i hi
  obtain ⟨-, hnum, hdl, hopt⟩ := fields_fragment hbase (by omega) (hget i hi)
  obtain ⟨hmulti, hinit⟩ := flags_fragHead hbase (hn ▸ hmp) hin i (slice payload i).length
  rw [hopt, hlen]
  refine ⟨hnum, ?_, hmulti, hinit⟩
  rw [hdl]
  split_ifs with hlt
  · exact hfill i (by omega)
  · have : i = n := by omega
    rw [this, Nat.add_sub_cancel]
    omega

/-- A segment that holds one of the fragments of a payload, and its number. -/
theorem mem_fragments {payload : List UInt8} {d : List UInt8}
    (hd : d ∈ fragments base payload) : ∃ i < segCount payload.length,
      d = fragHead base (segCount payload.length) i (slice payload i).length ++
        slice payload i := by
  obtain ⟨i, hi, rfl⟩ := List.mem_map.1 hd
  exact ⟨i, List.mem_range.1 hi, rfl⟩

/-- The fragment number in the octets of a segment. -/
def numOf (d : List UInt8) : ℕ := ofBE (fieldAt d segFragNum 2)

theorem map_numOf_fragments (hbase : base.length = segData) {payload : List UInt8}
    (hcount : segCount payload.length < 2 ^ 16) :
    (fragments base payload).map numOf = List.range' 1 (segCount payload.length) := by
  rw [fragments, List.map_map, List.range'_eq_map_range]
  refine List.map_congr_left fun i hi => ?_
  have hi' := List.mem_range.1 hi
  have hhead := length_fragHead hbase (segCount payload.length) i (slice payload i).length
  simp only [Function.comp_apply, numOf]
  rw [fieldAt_append (by rw [hhead]; decide), fieldAt_fragHead_fragNum hbase,
    ofBE_toBE_of_lt (show i + 1 < 256 ^ 2 by omega), Nat.add_comm]

/-- The segments that arrive, in whatever order, have the numbers and flags they were sent with. -/
theorem arrived_fields (hbase : base.length = segData)
    {payload : List UInt8}
    (hmp : ¬ 1 < segCount payload.length → base.getD segOptions 0 &&& optMultipart = 0)
    (hin : base.getD segOptions 0 &&& optInitial = 0)
    (hcount : segCount payload.length < 2 ^ 16) {arrived : List SegPtr}
    (hperm : (arrived.map fun p => p.seg.buf.data).Perm (fragments base payload)) :
    (arrived.map SegPtr.fragNum).Perm (List.range' 1 (segCount payload.length)) ∧
      ∀ p ∈ arrived, (p.multipart = true ↔ 1 < segCount payload.length) ∧
        (p.initial = true ↔ 1 < segCount payload.length ∧
          p.fragNum = segCount payload.length) ∧ segData ≤ p.seg.buf.dataLen := by
  have hmem : ∀ p ∈ arrived, ∃ i < segCount payload.length, p.seg.buf.data =
      fragHead base (segCount payload.length) i (slice payload i).length ++ slice payload i :=
    fun p hp => mem_fragments (hperm.subset (List.mem_map_of_mem hp))
  constructor
  · have hkey : arrived.map SegPtr.fragNum =
        (arrived.map fun p => p.seg.buf.data).map numOf := by
      rw [List.map_map]
      refine List.map_congr_left fun p hp => ?_
      obtain ⟨i, hi, hdata⟩ := hmem p hp
      have hlen := (fields_fragment hbase (by omega) hdata).1
      exact fragNum_eq (by omega)
    rw [hkey, ← map_numOf_fragments hbase hcount]
    exact hperm.map _
  · intro p hp
    obtain ⟨i, hi, hdata⟩ := hmem p hp
    obtain ⟨hlen, hnum, -, hopt⟩ := fields_fragment hbase (by omega) hdata
    obtain ⟨hmulti, hinit⟩ := flags_fragHead hbase hmp hin i (slice payload i).length
    have hnum' : p.fragNum = i + 1 := hnum
    rw [SegPtr.multipart, SegPtr.initial, decide_eq_true_eq, decide_eq_true_eq, hopt, hnum']
    exact ⟨hmulti, hinit, by omega⟩

/-- **`Complete()` becomes true exactly at the last segment** of a message of several segments, and
never for a single one. -/
theorem complete_arrived (hbase : base.length = segData)
    {payload : List UInt8}
    (hmp : ¬ 1 < segCount payload.length → base.getD segOptions 0 &&& optMultipart = 0)
    (hin : base.getD segOptions 0 &&& optInitial = 0)
    (hcount : segCount payload.length < 2 ^ 16) {arrived : List SegPtr}
    (hperm : (arrived.map fun p => p.seg.buf.data).Perm (fragments base payload)) (now : ℕ)
    {l rest : List SegPtr} (hl : arrived = l ++ rest) :
    ((IpcAccum.construct now).submitAll l).complete = true ↔
      rest = [] ∧ 1 < segCount payload.length := by
  obtain ⟨hnums, hflags⟩ := arrived_fields hbase hmp hin hcount hperm
  have hsub : ∀ p ∈ l, p ∈ arrived := fun p hp => hl ▸ List.mem_append_left _ hp
  by_cases hn : 1 < segCount payload.length
  · have hset : MessageSet (l ++ rest) (segCount payload.length) := by
      rw [← hl]
      exact ⟨hnums, fun p hp => (hflags p hp).1.2 hn, fun p hp =>
        (hflags p hp).2.1.trans (and_iff_right hn)⟩
    have hholds := IpcAccum.holds_submitAll (l := l) (n := segCount payload.length) now
      fun p hp => ⟨hset.multipart p (List.mem_append_left _ hp),
        hset.initial p (List.mem_append_left _ hp)⟩
    rcases eq_or_ne l [] with rfl | hne
    · -- nothing has been submitted yet
      have hrest : rest ≠ [] := by
        rintro rfl
        have := hset.length_eq
        rw [List.append_nil, List.length_nil] at this
        omega
      simp [IpcAccum.submitAll, IpcAccum.complete, IpcAccum.construct, hrest]
    · rw [hholds.complete_iff hset hne, and_iff_left hn]
  · -- the flag that tells the total is not there
    have htotal : ∀ (l : List SegPtr), (∀ p ∈ l, p.multipart = false) → ∀ a : IpcAccum,
        a.total = 0 → (a.submitAll l).total = 0 := by
      intro l
      induction l with
      | nil => exact fun _ a ha => ha
      | cons p l ih =>
          intro hall a ha
          refine ih (fun q hq => hall q (List.mem_cons_of_mem _ hq)) _ ?_
          rw [IpcAccum.submitSegment, hall p List.mem_cons_self]
          exact ha
    have hzero := htotal l (fun p hp => by
      have := (hflags p (hsub p hp)).1
      rwa [iff_false_right hn, Bool.not_eq_true] at this) (IpcAccum.construct now) rfl
    simp [IpcAccum.complete, hzero, hn]

/-- The segments come out of the accumulator as they were sent. -/
theorem data_messageGet (hbase : base.length = segData)
    {payload : List UInt8}
    (hmp : ¬ 1 < segCount payload.length → base.getD segOptions 0 &&& optMultipart = 0)
    (hin : base.getD segOptions 0 &&& optInitial = 0)
    (hcount : segCount payload.length < 2 ^ 16) {arrived : List SegPtr}
    (hperm : (arrived.map fun p => p.seg.buf.data).Perm (fragments base payload)) (now : ℕ) :
    ((((IpcAccum.construct now).submitAll arrived).messageGet.1.map SegPtr.seg).map
      fun s => s.buf.data) = fragments base payload := by
  obtain ⟨hnums, hflags⟩ := arrived_fields hbase hmp hin hcount hperm
  have hlist : ((IpcAccum.construct now).submitAll arrived).messageGet.1 =
      StableInsert.insertAll SegPtr.fragNum arrived := IpcAccum.list_submitAll now arrived
  rw [hlist, List.map_map]
  have hp := StableInsert.perm_insertAll SegPtr.fragNum arrived
  have hsorted := IpcAccum.map_fragNum_insertAll hnums
  -- both lists are sorted by fragment number, and no number occurs twice
  have hins : ((StableInsert.insertAll SegPtr.fragNum arrived).map fun p =>
      p.seg.buf.data).map numOf = List.range' 1 (segCount payload.length) := by
    rw [← hsorted, List.map_map]
    refine List.map_congr_left fun p hmem => ?_
    exact (fragNum_eq (hflags p (hp.subset hmem)).2.2).symm
  have hlt : (List.range' 1 (segCount payload.length)).Pairwise (· < ·) :=
    List.pairwise_lt_range'
  have hlt₁ := hins ▸ hlt
  have hlt₂ := map_numOf_fragments hbase hcount ▸ hlt
  exact @List.Perm.eq_of_pairwise _ (fun a b => numOf a < numOf b) _ _
    (fun a b _ _ hab hba => absurd hba hab.asymm) (List.pairwise_map.1 hlt₁)
    (List.pairwise_map.1 hlt₂) ((hp.map _).trans hperm)

/-- A flag is in the octet of the options only if the options carry it. -/
theorem unflagged_of_options {o flag : UInt8} (hflag : 0xfc &&& flag = flag)
    (h : (o &&& 0xfc) &&& flag = 0) : o &&& flag = 0 := by
  rw [← hflag, ← UInt8.and_assoc]
  exact h

/-- The options field of the header that a template gives to the segments. -/
theorem getD_baseHead {m : MemPools} (hm : m.blockSize segMaxLen ≠ none) {template : Option IpcSegment}
    (hlen : 2 ≤ (templateOf m template).buf.dataLen) :
    (baseHead m template).getD segOptions 0 = (templateOf m template).octetAt segOptions := by
  set t := templateOf m template
  have hlt : segOptions < t.buf.dataLen := lt_of_lt_of_le (by decide) hlen
  have hmem : segOptions < t.buf.mem.length := hlt.trans_le t.buf.dataLen_le
  rw [baseHead_eq hm hlen, List.getD_eq_getElem?_getD, getElem?_takeD, if_pos (by decide), Option.getD_some,
    Buffer.data, List.getElem?_take_of_lt hlt, octetAt, List.getD_eq_getElem?_getD]

theorem segCount_eq (n : ℕ) : segCount n = (n + 999) / 1000 := by
  rw [segCount, show capacity = 1000 from rfl]
  split <;> omega

/-- The stream copies a flag only from a template that covers its options. -/
theorem flag_baseHead {m : MemPools} (hm : m.blockSize segMaxLen ≠ none) {template : Option IpcSegment}
    {flag : UInt8} (hflag : 0xfc &&& flag = flag)
    (h : 2 ≤ (templateOf m template).buf.dataLen → (templateOf m template).options &&& flag = 0) :
    (baseHead m template).getD segOptions 0 &&& flag = 0 := by
  refine unflagged_of_options hflag ?_
  by_cases hlen : 2 ≤ (templateOf m template).buf.dataLen
  · rw [getD_baseHead hm hlen]
    exact h hlen
  · rw [flags_baseHead hm (by omega), UInt8.zero_and]

/-- **Fragmentation and reassembly are inverse.**  Whatever pieces a payload is written in, the
chain puts the same octets on the wire; whatever order the segments arrive in, the accumulator
completes a message of several segments exactly at the last one, and the stream over what comes out
of it reads the payload. -/
theorem fragment_reassemble {m : MemPools} (hm : m.blockSize segMaxLen ≠ none)
    {template : Option IpcSegment} {payload : List UInt8}
    (hlen : 1000 < payload.length → 2 ≤ (templateOf m template).buf.dataLen)
    (hin : 2 ≤ (templateOf m template).buf.dataLen → (templateOf m template).options &&& optInitial = 0)
    (hmp : 2 ≤ (templateOf m template).buf.dataLen → payload.length ≤ 1000 →
      (templateOf m template).options &&& optMultipart = 0)
    (hne : payload ≠ []) (hcount : (payload.length + 999) / 1000 ≤ 65535) :
    ∃ wires : List (List UInt8), ∀ pieces : List (List UInt8), pieces.flatten = payload →
      ∃ s, (withTemplate m template).writeAll pieces = some s ∧
        let segs := s.finalize.segmentExtract.1
        let n := (payload.length + 999) / 1000
        segs.map (fun x => x.buf.data) = wires ∧ segs.length = n ∧
        (∀ i (hi : i < segs.length), segs[i].fragNum = i + 1 ∧
          segs[i].dataLen = (if i + 1 < n then 1000 else payload.length - (n - 1) * 1000) ∧
          (segs[i].options &&& optMultipart ≠ 0 ↔ 1 < n) ∧
          (segs[i].options &&& optInitial ≠ 0 ↔ 1 < n ∧ i + 1 = n)) ∧
        ∀ (arrived : List SegPtr) (now : ℕ),
          (arrived.map fun p => p.seg.buf.data).Perm wires →
            (∀ l rest, arrived = l ++ rest →
              (((IpcAccum.construct now).submitAll l).complete = true ↔ rest = [] ∧ 1 < n)) ∧
            ∀ t : IpcStreamSeg,
              let u := t.segmentInject
                (((IpcAccum.construct now).submitAll arrived).messageGet.1.map SegPtr.seg)
              (u.arrayRd u.lenGet).1 = payload := by
  have hbase := length_baseHead hm template
  have hn := segCount_eq payload.length
  have hmp' : ¬ 1 < segCount payload.length →
      (baseHead m template).getD segOptions 0 &&& optMultipart = 0 :=
    fun hone => flag_baseHead hm (by decide) fun hcov => hmp hcov (by omega)
  have hin' := flag_baseHead hm (show 0xfc &&& optInitial = optInitial by decide) hin
  have hcount' : segCount payload.length < 2 ^ 16 := by omega
  refine ⟨fragments (baseHead m template) payload, ?_⟩
  rintro pieces rfl
  obtain ⟨s, hrun, hdata, -⟩ := @fragments_of_writeAll m hm template pieces hne fun h => hlen (by omega)
  obtain ⟨hlength, hfields⟩ := fields_fragments hbase hmp' hin' hne hcount' hdata
  refine ⟨s, hrun, ?_⟩
  simp only [← hn]
  refine ⟨hdata, hlength, ?_, ?_⟩
  · intro i hi
    have := hfields i hi
    rwa [hlength] at this
  · intro arrived now hperm
    constructor
    · intro l rest hl
      exact complete_arrived hbase hmp' hin' hcount' hperm now hl
    · intro t
      have hget := data_messageGet hbase hmp' hin' hcount' hperm now
      obtain ⟨hlenGet, hread⟩ := read_inject hbase hm t hne hcount' hget
      rw [hlenGet, hread]

/-- Two and a half thousand octets, written in three pieces, are three segments; they arrive in the order
3, 1, 2 and are read as they were written. -/
theorem fragment_reassemble_three :
    let payload : List UInt8 := List.replicate 2500 7
    let pieces : List (List UInt8) := [payload.take 10, (payload.drop 10).take 1800, payload.drop 1810]
    ∃ s, (withTemplate exactPools none).writeAll pieces = some s ∧
      ∃ x y z, s.finalize.segmentExtract.1 = [x, y, z] ∧
        (x.fragNum, y.fragNum, z.fragNum) = (1, 2, 3) ∧
        (x.dataLen, y.dataLen, z.dataLen) = (1000, 1000, 500) ∧
        (∀ w ∈ [x, y, z], w.options &&& optMultipart ≠ 0) ∧
        (x.options &&& optInitial = 0 ∧ y.options &&& optInitial = 0 ∧ z.options &&& optInitial ≠ 0) ∧
        let arrived : List SegPtr := [⟨0, z⟩, ⟨1, x⟩, ⟨2, y⟩]
        ((IpcAccum.construct 0).submitAll (arrived.take 2)).complete = false ∧
        ((IpcAccum.construct 0).submitAll arrived).complete = true ∧
          let u := (IpcStreamSeg.construct exactPools 0).segmentInject
            (((IpcAccum.construct 0).submitAll arrived).messageGet.1.map SegPtr.seg)
          (u.arrayRd u.lenGet).1 = payload := by
  intro payload pieces
  have hlen : payload.length = 2500 := List.length_replicate
  obtain ⟨wires, h⟩ := @fragment_reassemble exactPools (Option.some_ne_none _) none payload
    (fun _ => by decide +kernel) (fun _ => by decide +kernel)
    (fun _ hle => absurd hle (by rw [hlen]; decide))
    (List.ne_nil_of_length_pos (by rw [hlen]; decide)) (by rw [hlen]; decide)
  have hpieces : pieces.flatten = payload := by
    simp only [pieces, List.flatten_cons, List.flatten_nil, List.append_nil]
    rw [show payload.drop 1810 = (payload.drop 10).drop 1800 by rw [List.drop_drop], List.take_append_drop,
      List.take_append_drop]
  obtain ⟨s, hrun, hwires, hcount, hfields, harrived⟩ := h pieces hpieces
  rw [hlen] at hcount
  obtain ⟨x, y, z, hsegs⟩ := List.length_eq_three.1 hcount
  refine ⟨s, hrun, x, y, z, hsegs, ?_⟩
  simp only [hsegs, hlen] at hwires hfields
  obtain ⟨hx, hxl, hxm, hxi⟩ : x.fragNum = 1 ∧ x.dataLen = 1000 ∧ x.options &&& optMultipart ≠ 0 ∧
      x.options &&& optInitial = 0 := by simpa using hfields 0 (by simp)
  obtain ⟨hy, hyl, hym, hyi⟩ : y.fragNum = 2 ∧ y.dataLen = 1000 ∧ y.options &&& optMultipart ≠ 0 ∧
      y.options &&& optInitial = 0 := by simpa using hfields 1 (by simp)
  obtain ⟨hz, hzl, hzm, hzi⟩ : z.fragNum = 3 ∧ z.dataLen = 500 ∧ z.options &&& optMultipart ≠ 0 ∧
      z.options &&& optInitial ≠ 0 := by simpa using hfields 2 (by simp)
  have hperm : (([⟨0, z⟩, ⟨1, x⟩, ⟨2, y⟩] : List SegPtr).map fun p => p.seg.buf.data).Perm
      wires := by
    rw [← hwires]
    exact (@List.perm_append_comm _ [z.buf.data] [x.buf.data, y.buf.data])
  obtain ⟨hcomplete, hread⟩ := harrived _ 0 hperm
  refine ⟨by rw [hx, hy, hz], by rw [hxl, hyl, hzl], by simp [hxm, hym, hzm], ⟨hxi, hyi, hzi⟩, ?_, ?_,
    hread _⟩
  · rw [← Bool.not_eq_true, hcomplete ([⟨0, z⟩, ⟨1, x⟩, ⟨2, y⟩].take 2) [⟨2, y⟩] rfl]
    exact fun hc => List.cons_ne_nil _ _ hc.1
  · exact (hcomplete _ [] (List.append_nil _).symm).2 ⟨rfl, by rw [hlen]; decide⟩

/-! ### Templates that spoil the flags -/

/-- The segment does not carry the flag of a message of several segments. -/
def Unflagged (s : IpcSegment) : Prop := s.head.getD segOptions 0 &&& optMultipart = 0

/-- A chain whose template has an empty buffer: no segment but the first is ever flagged. -/
structure ShortTemplate (b : IpcStreamSegMem) : Prop where
  ready : Ready b
  pools : b.pools = exactPools
  template : b.template.buf.dataLen = 0
  unflagged : ∀ s ∈ b.segs.tail, Unflagged s
  last : ∀ s ∈ b.segs.getLast?, s.buf.dataLen = 0

theorem Unflagged.hdrWr {s : IpcSegment} (h : Unflagged s) (hfull : s.Full) {p : ℕ}
    {d : List UInt8} (hp : 2 ≤ p) (hd : p + d.length ≤ segData) : Unflagged (s.hdrWr p d) := by
  have hlen := hfull.length_head
  rw [Unflagged, head_hdrWr hfull hd, getD_overwrite_options hp (by omega)]
  exact h

/-- Copying a segment with an empty buffer copies nothing. -/
theorem assign_empty {rhs : IpcSegment} (h0 : rhs.buf.dataLen = 0) (num : ℕ) :
    Unflagged (((IpcSegment.construct exactPools).assign exactPools rhs).setFragNum num) ∧
      (((IpcSegment.construct exactPools).assign exactPools rhs).setFragNum num).buf.dataLen =
        0 := by
  have hm : exactPools.blockSize segMaxLen ≠ none := Option.some_ne_none _
  have hfull := full_assign_construct hm rhs
  obtain ⟨k, -, hlen⟩ := dataLen_assign_construct hm rhs
  refine ⟨Unflagged.hdrWr ?_ hfull (by decide) (by rw [length_toBE]; decide), ?_⟩
  · have hget : ∀ buf : Buffer, (buf.lenSet 0).lenGet = 0 := by
      intro buf
      change (if 0 < buf.size then 0 else buf.size) = 0
      split <;> omega
    have hrhs : rhs.buf.lenGet = 0 := h0
    have hassign : (IpcSegment.construct exactPools).assign exactPools rhs =
        ⟨(((IpcSegment.construct exactPools).buf.resize exactPools segMaxLen).2.lenSet 0).memWr 0
          []⟩ := by
      rw [assign, if_pos (show rhs.buf.lenGet ≤ rhs.buf.size from rhs.buf.dataLen_le), hrhs]
      simp only [hget, List.take_zero]
    rw [hassign]
    unfold Unflagged
    decide +kernel
  · change ((IpcSegment.construct exactPools).assign exactPools rhs).buf.dataLen = 0
    rw [hlen, h0, Nat.zero_min]

theorem shortTemplate_addSegment {b : IpcStreamSegMem} (h : ShortTemplate b) :
    ShortTemplate b.addSegment := by
  have hready := (addSegment_spec h.ready).1
  rcases List.eq_nil_or_concat b.segs with hs | ⟨init, tail, hs⟩
  · obtain ⟨-, hlast⟩ := assign_empty h.template (b.blockCount + 1)
    have hadd : b.addSegment.segs = [((IpcSegment.construct exactPools).assign exactPools
        b.template).setFragNum (b.blockCount + 1)] := by
      simp [addSegment, hs, h.pools]
    refine ⟨hready, by simp [addSegment, hs, h.pools], by simp [addSegment, hs, h.template], ?_, ?_⟩
    · rw [hadd]
      simp
    · rw [hadd]
      simpa using hlast
  · rw [List.concat_eq_append] at hs
    set tail' := if b.segs.length = 1 then tail.setOptions (tail.options ||| optMultipart) else tail
      with htail'
    have hadd : b.addSegment.segs = init ++ [(tail'.setDataLen capacity).bufLenSet
        (capacity + segData), ((IpcSegment.construct exactPools).assign exactPools
          tail').setFragNum (b.blockCount + 1)] := by
      simp [addSegment, hs, htail', h.pools]
    have hfull : tail.Full := h.ready.full tail (by rw [hs]; simp)
    have hlen : tail'.buf.dataLen = 0 := by
      rw [htail', ← h.last tail (by rw [hs]; simp)]
      split <;> rfl
    obtain ⟨hnew, hlast⟩ := assign_empty hlen (b.blockCount + 1)
    refine ⟨hready, by simp [addSegment, hs, h.pools], by simp [addSegment, hs, h.template], ?_, ?_⟩
    · rw [hadd]
      cases init with
      | nil =>
          intro s hmem
          rw [List.nil_append, List.tail_cons, List.mem_singleton] at hmem
          rw [hmem]
          exact hnew
      | cons first init =>
          have htl : b.segs.tail = init ++ [tail] := by rw [hs]; rfl
          have hkeep : tail' = tail := by
            rw [htail', hs]
            exact if_neg (by simp)
          intro s hmem
          rw [List.cons_append, List.tail_cons] at hmem
          rcases List.mem_append.1 hmem with hmem | hmem
          · exact h.unflagged s (by rw [htl]; exact List.mem_append_left _ hmem)
          · rcases List.mem_cons.1 hmem with rfl | hmem
            · rw [hkeep]
              have hun := h.unflagged tail (by rw [htl]; simp)
              exact Unflagged.hdrWr hun hfull (by decide) (by rw [length_toBE]; decide)
            · rw [List.mem_singleton.1 hmem]
              exact hnew
    · rw [hadd]
      simpa using hlast

theorem shortTemplate_blockMemWr {b : IpcStreamSegMem} (h : ShortTemplate b) (k off : ℕ)
    (d : List UInt8) : ShortTemplate (b.blockMemWr k off d) := by
  have hsig := map_sig_blockMemWr h.ready k off d
  refine ⟨ready_blockMemWr h.ready k off d, h.pools, h.template, ?_, ?_⟩
  · intro s hs
    have hmem : sig s ∈ (b.segs.map sig).tail := by
      rw [← hsig, ← List.map_tail]
      exact List.mem_map_of_mem hs
    rw [← List.map_tail] at hmem
    obtain ⟨t, ht, hts⟩ := List.mem_map.1 hmem
    have hhead : t.head = s.head := congrArg Prod.fst hts
    rw [Unflagged, ← hhead]
    exact h.unflagged t ht
  · intro s hs
    have hmem : (b.segs.map sig).getLast? = some (sig s) := by
      rw [← hsig, List.getLast?_map, hs]
      rfl
    rw [List.getLast?_map] at hmem
    obtain ⟨t, ht, hts⟩ := Option.map_eq_some_iff.1 hmem
    have hlen : t.buf.dataLen = s.buf.dataLen := congrArg Prod.snd hts
    rw [← hlen]
    exact h.last t ht

/-- A new segment with a flag set in its options field. -/
def flagTemplate (flag : UInt8) : IpcSegment :=
  (IpcSegment.construct exactPools).setOptions flag

/-- A new segment with an empty buffer. -/
def emptyTemplate : IpcSegment := (IpcSegment.construct exactPools).bufLenSet 0

theorem dataLen_emptyTemplate : emptyTemplate.buf.dataLen = 0 := by decide +kernel

theorem blockSize_exactPools : exactPools.blockSize segMaxLen ≠ none := Option.some_ne_none _

/-- The options of the segments that a template with a flag gives. -/
theorem options_flagTemplate (flag : UInt8)
    (hlen : 2 ≤ (templateOf exactPools (some (flagTemplate flag))).buf.dataLen)
    {payload : List UInt8} (hne : payload ≠ []) (hcount : segCount payload.length < 2 ^ 16) :
    ∃ s, (withTemplate exactPools (some (flagTemplate flag))).writeAll [payload] = some s ∧
      s.finalize.segmentExtract.1.length = segCount payload.length ∧
      ∀ x ∈ s.finalize.segmentExtract.1, ∃ i < segCount payload.length, x.options =
        (fragHead (baseHead exactPools (some (flagTemplate flag))) (segCount payload.length) i
          (slice payload i).length).getD segOptions 0 &&& 0xfc := by
  obtain ⟨s, hrun, hdata, -⟩ := @fragments_of_writeAll _ blockSize_exactPools _
    [payload] (by simpa using hne) fun _ => hlen
  rw [List.flatten_singleton] at hdata
  refine ⟨s, hrun, ?_, ?_⟩
  · have := congrArg List.length hdata
    rwa [List.length_map, fragments, List.length_map, List.length_range] at this
  · intro x hx
    have hmem : x.buf.data ∈ fragments (baseHead exactPools (some (flagTemplate flag))) payload := by
      rw [← hdata]
      exact List.mem_map_of_mem hx
    obtain ⟨i, hi, hxd⟩ := mem_fragments hmem
    exact ⟨i, hi, (fields_fragment (length_baseHead blockSize_exactPools _) (by omega) hxd).2.2.2⟩

/-- A template with an empty buffer leaves the second of two segments without the flag. -/
theorem unflagged_emptyTemplate {payload : List UInt8} (hne : payload ≠ [])
    (hcount : segCount payload.length = 2) :
    ∃ s, (withTemplate exactPools (some emptyTemplate)).writeAll [payload] = some s ∧
      s.finalize.segmentExtract.1.length = 2 ∧
      ∃ x ∈ s.finalize.segmentExtract.1, x.options &&& optMultipart = 0 := by
  obtain ⟨hsegs, hpools, -⟩ := segs_withTemplate exactPools (some emptyTemplate)
  have htemplate := template_withTemplate_some exactPools emptyTemplate
  have hpos := pos_withTemplate exactPools (some emptyTemplate)
  set s₀ := withTemplate exactPools (some emptyTemplate) with hs₀
  have hready : Ready s₀.store := ready_withTemplate blockSize_exactPools _
  have hshort : ShortTemplate s₀.store := by
    refine ⟨hready, hpools, ?_, ?_, ?_⟩
    · obtain ⟨k, -, hlen⟩ := dataLen_assign_construct blockSize_exactPools emptyTemplate
      rw [htemplate, hlen, dataLen_emptyTemplate, Nat.zero_min]
    · rw [hsegs]
      exact fun s hs => absurd hs List.not_mem_nil
    · rw [hsegs]
      exact fun s hs => absurd hs (by simp)
  have hrep := represents_of_segs_nil hready hsegs ⟨hpos.1, hpos.2.1⟩ hpos.2.2
  have hspare : s₀.NoSpare := by
    change (s₀.store.segs.map window).length ≤ _
    rw [hsegs]
    exact Nat.zero_le _
  obtain ⟨s, hrun, hs, hsspare⟩ := hrep.arrayWr payload
  have hstore : ShortTemplate s.store :=
    StreamBase.arrayWr_store (Q := ShortTemplate)
      (fun _ k off d hb => shortTemplate_blockMemWr hb k off d)
      (fun _ n hb => memoryAddLoop_invariant (Q := ShortTemplate)
        (fun _ hb => shortTemplate_addSegment hb) _ false _ hb) hrun hshort
  have hcontent : ((FlatStream.empty false).write payload).content = payload := by
    have hend : (FlatStream.empty false : FlatStream UInt8).AtEnd := rfl
    rw [FlatStream.content_write_of_atEnd hend, FlatStream.content_empty, List.nil_append]
  obtain ⟨-, -, -, -, hlen⟩ := end_eq hs (hsspare hspare) (by rw [hcontent]; exact hne)
  rw [hcontent, hcount] at hlen
  obtain ⟨first, last, hsegs⟩ := List.length_eq_two.1 hlen.symm
  have hfull : last.Full := hstore.ready.full last (by rw [hsegs]; simp)
  have hconcat : s.store.segs = [first] ++ [last] := hsegs
  have hfin : (segmentExtract (finalize s)).1 = [first, finalTail s last] :=
    segs_finalize hconcat
  refine ⟨s, ?_, by rw [hfin]; rfl, finalTail s last, by rw [hfin]; simp, ?_⟩
  · rw [writeAll, hrun, Option.bind_some, writeAll]
  · -- the last segment only gets its length and the other flag
    set t := (last.setDataLen s.lastPos).bufLenSet (s.lastPos + segData) with ht
    have htfull : t.Full := (hfull.hdrWr _ _).bufLenSet _
    have hun : Unflagged t := Unflagged.hdrWr (hstore.unflagged last (by rw [hsegs]; simp)) hfull
      (by decide) (by rw [length_toBE]; decide)
    have htail : finalTail s last = t.setOptions (t.options ||| optInitial) :=
      if_neg (by rw [hsegs, List.length_cons, List.length_singleton]; decide)
    have hofull : (t.setOptions (t.options ||| optInitial)).Full := htfull.hdrWr _ _
    rw [htail, options, octetAt_eq _ (by decide), head_setOptions_or htfull,
      getD_addFlag htfull.length_head]
    have hbits : ∀ o : UInt8, o &&& optMultipart = 0 →
        (flagged optInitial o &&& 0xfc) &&& optMultipart = 0 := forall_octet (by decide +kernel)
    exact hbits _ hun

/-- **A single segment never completes**, flags of the template stay, and a template with an empty
buffer keeps a flag from being copied. -/
theorem reassemble_exceptions :
    (∃ s, (withTemplate exactPools none).writeAll [[7]] = some s ∧
      s.finalize.segmentExtract.1.length = 1 ∧
      ((IpcAccum.construct 0).submitAll (s.finalize.segmentExtract.1.map (SegPtr.mk 0))).complete =
        false) ∧
    (∃ s, (withTemplate exactPools (some (flagTemplate optMultipart))).writeAll [[7]] = some s ∧
      s.finalize.segmentExtract.1.length = 1 ∧
      ∀ x ∈ s.finalize.segmentExtract.1, x.options &&& optMultipart ≠ 0) ∧
    (∃ s, (withTemplate exactPools (some (flagTemplate optInitial))).writeAll
        [List.replicate 1001 7] = some s ∧ s.finalize.segmentExtract.1.length = 2 ∧
      ∀ x ∈ s.finalize.segmentExtract.1, x.options &&& optInitial ≠ 0) ∧
    ∃ s, (withTemplate exactPools (some emptyTemplate)).writeAll [List.replicate 1001 7] = some s ∧
      s.finalize.segmentExtract.1.length = 2 ∧
      ∃ x ∈ s.finalize.segmentExtract.1, x.options &&& optMultipart = 0 := by
  have hne : (List.replicate 1001 7 : List UInt8) ≠ [] := by
    rw [Ne, List.replicate_eq_nil_iff]
    decide
  have hcount : segCount (List.replicate 1001 7 : List UInt8).length = 2 := by
    rw [List.length_replicate]
    rfl
  refine ⟨?_, ?_, ?_, unflagged_emptyTemplate hne (by rw [hcount])⟩
  · have hlen : 2 ≤ (templateOf exactPools none).buf.dataLen := by decide +kernel
    obtain ⟨s, hrun, hdata, -⟩ := @fragments_of_writeAll _ blockSize_exactPools none
      [[7]] (by decide) fun _ => hlen
    have hbase := length_baseHead blockSize_exactPools none
    refine ⟨s, hrun, ?_, ?_⟩
    · have := congrArg List.length hdata
      rwa [List.length_map, fragments, List.length_map, List.length_range] at this
    · have hperm : ((s.finalize.segmentExtract.1.map (SegPtr.mk 0)).map
          fun p => p.seg.buf.data).Perm (fragments (baseHead exactPools none) [7]) := by
        rw [List.map_map]
        exact List.Perm.of_eq hdata
      have hnot := complete_arrived hbase (by decide +kernel) (by decide +kernel) (by decide) hperm
        0 (List.append_nil _).symm
      rw [← Bool.not_eq_true, hnot]
      decide
  · obtain ⟨s, hrun, hlen, hopt⟩ := @options_flagTemplate optMultipart
      (by decide +kernel) [7] (by decide) (by decide)
    refine ⟨s, hrun, hlen, ?_⟩
    intro x hx
    obtain ⟨i, -, hxo⟩ := hopt x hx
    have hbase := length_baseHead blockSize_exactPools (some (flagTemplate optMultipart))
    rw [hxo, getD_fragHead hbase, if_neg (by decide)]
    decide +kernel
  · obtain ⟨s, hrun, hlen, hopt⟩ := options_flagTemplate optInitial
      (by decide +kernel) hne (by rw [hcount]; decide)
    rw [hcount] at hlen hopt
    refine ⟨s, hrun, hlen, ?_⟩
    intro x hx
    obtain ⟨i, -, hxo⟩ := hopt x hx
    have hbase := length_baseHead blockSize_exactPools (some (flagTemplate optInitial))
    rw [hxo, getD_fragHead hbase, if_pos (by decide)]
    split
    · decide +kernel
    · decide +kernel

end CodePort
