/-
Fragments of a message.

What a payload becomes on the wire: it is cut into slices of the segment capacity, and every slice
is preceded by the header of the template with its own fragment number, data length and flags.
This is stated without streams and chains, as one function of template and payload, and a chain
that is written, finalised and extracted is shown to hold exactly these octets.

Main definitions:

* `CodePort.addFlag` — a header with a flag set in its options field;
* `CodePort.fragments` — the octets of the segments of a message;
* `CodePort.IpcStreamSegMem.Chain` — the invariant of a chain that `MemoryAdd` builds;
* `CodePort.IpcStreamSegMem.Single` — the invariant as long as one segment suffices.

Main results:

* `CodePort.IpcStreamSegMem.chain_memoryAdd`, `chain_blockMemWr` — **the invariant is kept**;
* `CodePort.IpcStreamSeg.data_finalize` — **a finalised chain holds the fragments of what was
  written to it**.
-/

import CodePort.IpcStreamSeg
import Mathlib.Data.List.Range

set_option relaxedAutoImplicit false
set_option autoImplicit false

namespace CodePort

open BlockList Octets IpcSegment

/-! ### Headers -/

/-- A header with a flag set in its options field, as `Options(Options() | flag)` sets it. -/
def addFlag (flag : UInt8) (h : List UInt8) : List UInt8 :=
  overwrite h segOptions [h.getD segOptions 0 &&& 0x03 |||
    (h.getD segOptions 0 &&& 0xfc ||| flag) &&& 0xfc]

@[simp] theorem length_addFlag {h : List UInt8} (hlen : h.length = segData) (flag : UInt8) :
    (addFlag flag h).length = segData := by
  rw [addFlag, length_overwrite_of_le (by rw [hlen, List.length_singleton]; decide), hlen]

/-- Setting a flag leaves everything behind the options field. -/
theorem getElem?_addFlag {h : List UInt8} (hlen : h.length = segData) (flag : UInt8) {j : ℕ}
    (hj : j ≠ 1) : (addFlag flag h)[j]? = h[j]? := by
  have h1 : segOptions ≤ h.length := by rw [hlen]; decide
  have hone : segOptions = 1 := rfl
  rw [addFlag, getElem?_overwrite h1, List.length_singleton, hone]
  split_ifs <;> first | rfl | omega

/-- A flag and a field behind the options field can be set in either order. -/
theorem addFlag_overwrite {h : List UInt8} (flag : UInt8) {p : ℕ} {d : List UInt8} (hp : 2 ≤ p)
    (hle : p ≤ h.length) : addFlag flag (overwrite h p d) = overwrite (addFlag flag h) p d := by
  have hget : (overwrite h p d).getD segOptions 0 = h.getD segOptions 0 := by
    rw [List.getD_eq_getElem?_getD, List.getD_eq_getElem?_getD, getElem?_overwrite hle,
      if_pos (lt_of_lt_of_le (by decide) hp)]
  rw [addFlag, addFlag, hget]
  exact (overwrite_comm (by rw [List.length_singleton]; exact hp) hle).symm

/-- The header of a segment after a flag has been set. -/
theorem head_setOptions_or {s : IpcSegment} (h : s.Full) (flag : UInt8) :
    (s.setOptions (s.options ||| flag)).head = addFlag flag s.head := by
  rw [setOptions, head_hdrWr h (by rw [List.length_singleton]; decide), options,
    octetAt_eq s (by decide), addFlag]

/-- The template's header with the flag that all fragments of a message carry. -/
def multiHead (base : List UInt8) (n : ℕ) : List UInt8 :=
  if 1 < n then addFlag optMultipart base else base

/-- The header of fragment `i` of `n`, counted from zero, while the chain is written. -/
def chainHead (base : List UInt8) (n i : ℕ) : List UInt8 :=
  overwrite (multiHead base n) segFragNum (toBE 2 (i + 1))

/-- The header of fragment `i` of `n` with `len` octets of payload, as it is sent. -/
def fragHead (base : List UInt8) (n i len : ℕ) : List UInt8 :=
  let h := overwrite (chainHead base n i) segDataLen (toBE 2 len)
  if 1 < n ∧ i + 1 = n then addFlag optInitial h else h

/-- The payload of fragment `i`. -/
def slice (payload : List UInt8) (i : ℕ) : List UInt8 :=
  (payload.drop (i * capacity)).take capacity

/-- **The octets of the segments of a message**, in the order of their fragment numbers. -/
def fragments (base payload : List UInt8) : List (List UInt8) :=
  let n := IpcStreamSegMem.segCount payload.length
  (List.range n).map fun i =>
    fragHead base n i (slice payload i).length ++ slice payload i

theorem length_multiHead {base : List UInt8} (h : base.length = segData) (n : ℕ) :
    (multiHead base n).length = segData := by
  rw [multiHead]
  split
  · exact length_addFlag h _
  · exact h

theorem getElem?_multiHead {base : List UInt8} (h : base.length = segData) (n : ℕ) {j : ℕ}
    (hj : j ≠ 1) : (multiHead base n)[j]? = base[j]? := by
  rw [multiHead]
  split
  · exact getElem?_addFlag h _ hj
  · rfl

theorem length_chainHead {base : List UInt8} (h : base.length = segData) (n i : ℕ) :
    (chainHead base n i).length = segData := by
  have hlen := length_multiHead h n
  rw [chainHead, length_overwrite_of_le (by rw [hlen, length_toBE]; decide), hlen]

theorem length_fragHead {base : List UInt8} (h : base.length = segData) (n i len : ℕ) :
    (fragHead base n i len).length = segData := by
  have hlen := length_chainHead h n i
  have hlen' : (overwrite (chainHead base n i) segDataLen (toBE 2 len)).length = segData := by
    rw [length_overwrite_of_le (by rw [hlen, length_toBE]; decide), hlen]
  simp only [fragHead]
  split
  · exact length_addFlag hlen' _
  · exact hlen'

/-! ### The chain while it is written -/

namespace IpcStreamSegMem

/-- What the header writes of the chain are about: the header of a segment, and the length of its
buffer. -/
def sig (s : IpcSegment) : List UInt8 × ℕ := (s.head, s.buf.dataLen)

/-- The header and length of segment `i` of `n`; the length of the tail, `tailLen`, is settled
later. -/
def chainSig (base : List UInt8) (tailLen n i : ℕ) : List UInt8 × ℕ :=
  if i + 1 < n then
    (overwrite (chainHead base n i) segDataLen (toBE 2 capacity), capacity + segData)
  else (chainHead base n i, tailLen)

/-- The length covers the options field, and the header is zero behind it. -/
def Covers (tailLen : ℕ) (base : List UInt8) : Prop :=
  2 ≤ tailLen ∧ ∀ j, tailLen ≤ j → j < segData → base[j]? = some 0

/-- **The invariant of a chain that `MemoryAdd` builds** from the template header `base`. -/
structure Chain (base : List UInt8) (b : IpcStreamSegMem) : Prop where
  ready : Ready b
  base_eq : base = b.template.buf.data.takeD segData 0
  template : 2 ≤ b.template.buf.dataLen
  sigs : ∃ tailLen, Covers tailLen base ∧
    b.segs.map sig = (List.range b.segs.length).map (chainSig base tailLen b.segs.length)

/-- **What the header writes leave in a chain**, as far as the fragments depend on it. -/
structure Signed (base : List UInt8) (b : IpcStreamSegMem) : Prop where
  ready : Ready b
  sigs : ∃ tailLen, b.segs.map sig = (List.range b.segs.length).map (chainSig base tailLen b.segs.length)

theorem Chain.signed {base : List UInt8} {b : IpcStreamSegMem} (h : Chain base b) : Signed base b :=
  ⟨h.ready, h.sigs.imp fun _ => And.right⟩

theorem Chain.length_base {base : List UInt8} {b : IpcStreamSegMem} (h : Chain base b) :
    base.length = segData := by
  rw [h.base_eq, List.takeD_length]

/-- A payload write leaves headers and lengths. -/
theorem map_sig_blockMemWr {b : IpcStreamSegMem} (h : Ready b) (k off : ℕ) (d : List UInt8) :
    (b.blockMemWr k off d).segs.map sig = b.segs.map sig := by
  rcases Nat.lt_or_ge k b.segs.length with hk | hk
  · have hsig : sig ⟨(b.segs[k]).buf.memWr (segData + off) d⟩ = sig b.segs[k] :=
      Prod.ext (head_bodyWr (h.full _ (List.getElem_mem hk)) off d) rfl
    have hk' : k < (b.segs.map sig).length := by rw [List.length_map]; exact hk
    rw [blockMemWr, modify_eq_set hk, List.map_set, hsig, ← List.getElem_map sig (h := hk'),
      List.set_getElem_self]
  · rw [blockMemWr, List.modify_eq_self hk]

/-- **A payload write keeps the invariant.** -/
theorem chain_blockMemWr {base : List UInt8} {b : IpcStreamSegMem} (h : Chain base b)
    (k off : ℕ) (d : List UInt8) : Chain base (b.blockMemWr k off d) := by
  obtain ⟨tailLen, hcov, hsigs⟩ := h.sigs
  refine ⟨ready_blockMemWr h.ready k off d, h.base_eq, h.template, tailLen, hcov, ?_⟩
  have hlen : (b.blockMemWr k off d).segs.length = b.segs.length := List.length_modify _ _ _
  rw [map_sig_blockMemWr h.ready, hlen]
  exact hsigs

/-- A header that is copied as far as the length of a buffer that covers it, but for the fragment
number. -/
theorem overwrite_copy {tailLen : ℕ} {h f g : List UInt8} (hlen : h.length = segData)
    (hzero : ∀ j, tailLen ≤ j → j < segData → h[j]? = some 0) (hf : f.length = 2)
    (hg : g.length = 2) {buf : Buffer} (hhead : buf.mem.take segData = overwrite h segFragNum f)
    (hbuf : buf.dataLen = tailLen) :
    overwrite (buf.data.takeD segData 0) segFragNum g = overwrite h segFragNum g := by
  have h24 : segData = 24 := rfl
  have h2 : segFragNum = 2 := rfl
  have hle : segFragNum ≤ (buf.data.takeD segData 0).length := by
    rw [List.takeD_length]
    decide
  refine List.ext_getElem? fun i => ?_
  rw [getElem?_overwrite hle, getElem?_overwrite (by omega), getElem?_takeD]
  by_cases hi : i < segData
  · have hmem : buf.mem[i]? = (overwrite h segFragNum f)[i]? := by
      rw [← hhead, List.getElem?_take_of_lt hi]
    have hdata : i < 2 ∨ 4 ≤ i → buf.data[i]?.getD 0 = h[i]?.getD 0 := by
      intro hout
      rw [getElem?_overwrite (by omega), hf, h2] at hmem
      rw [Buffer.data, List.getElem?_take, hbuf]
      split_ifs with hlt
      · rw [hmem]
        split_ifs <;> first | rfl | omega
      · rw [hzero i (by omega) hi, Option.getD_none, Option.getD_some]
    have hget : h[i]? = some (h[i]?.getD 0) := by
      rw [List.getElem?_eq_getElem (by omega), Option.getD_some]
    rw [hg, h2, if_pos hi]
    rcases Nat.lt_or_ge i 2 with h₁ | h₁
    · rw [if_pos h₁, if_pos h₁, hdata (Or.inl h₁), ← hget]
    · rw [if_neg (not_lt.2 h₁), if_neg (not_lt.2 h₁)]
      rcases Nat.lt_or_ge i (2 + 2) with h₂ | h₂
      · rw [if_pos h₂, if_pos h₂]
      · rw [if_neg (not_lt.2 h₂), if_neg (not_lt.2 h₂), hdata (Or.inr h₂), ← hget]
  · rw [hg, h2, if_neg hi, if_neg (by omega), if_neg (by omega), if_neg (by omega),
      if_neg (by omega), List.getElem?_eq_none (show h.length ≤ i by omega)]

theorem Covers.of_min {tailLen k : ℕ} {base : List UInt8} (h : Covers tailLen base)
    (hk : segMaxLen ≤ k) : Covers (min tailLen k) base := by
  have hmax : segMaxLen = 1024 := rfl
  have h24 : segData = 24 := rfl
  refine ⟨le_min h.1 (by omega), ?_⟩
  intro j hj hj'
  exact h.2 j (by omega) hj'

/-- The header and length of a segment that copies another one and gets its own fragment number. -/
theorem sig_copy {m : MemPools} (hm : m.blockSize segMaxLen ≠ none) {rhs : IpcSegment}
    {tailLen : ℕ} {h f : List UInt8} (hlen : h.length = segData) (hcov : Covers tailLen h)
    (hf : f.length = 2) (hhead : rhs.head = overwrite h segFragNum f)
    (hdata : rhs.buf.dataLen = tailLen) (num : ℕ) :
    ∃ k, segMaxLen ≤ k ∧ sig (((construct m).assign m rhs).setFragNum num) =
      (overwrite h segFragNum (toBE 2 num), min tailLen k) := by
  obtain ⟨k, hk, hmin⟩ := dataLen_assign_construct hm rhs
  refine ⟨k, hk, Prod.ext ?_ (by rw [← hdata]; exact hmin)⟩
  change (((construct m).assign m rhs).setFragNum num).head = _
  rw [setFragNum, head_hdrWr (full_assign_construct hm rhs) (by rw [length_toBE]; decide),
    head_assign_construct hm (by rw [hdata]; exact hcov.1)]
  exact overwrite_copy hlen hcov.2 hf (length_toBE 2 num) hhead hdata

/-- A chain of one segment. -/
theorem chain_addSegment_nil {base : List UInt8} {b : IpcStreamSegMem} (h : Chain base b)
    (hs : b.segs = []) : Chain base b.addSegment := by
  have hready := (addSegment_spec h.ready).1
  have hcount : b.blockCount = 0 := by rw [h.ready.blockCount_eq, hs, List.length_nil]
  have hadd : b.addSegment.segs =
      [((construct b.pools).assign b.pools b.template).setFragNum (0 + 1)] := by
    simp [addSegment, hs, hcount]
  have htemp : b.addSegment.template = b.template := by simp [addSegment, hs]
  obtain ⟨k, hk, hmin⟩ := dataLen_assign_construct h.ready.blockSize_ne b.template
  refine ⟨hready, by rw [htemp]; exact h.base_eq, by rw [htemp]; exact h.template,
    min b.template.buf.dataLen k, ?_, ?_⟩
  · -- behind the length of the template its header reads as zero
    refine Covers.of_min ⟨h.template, ?_⟩ hk
    intro j hj hj'
    have hnone : b.template.buf.data[j]? = none :=
      List.getElem?_eq_none (by rw [Buffer.length_data]; exact hj)
    rw [h.base_eq, getElem?_takeD, if_pos hj', hnone, Option.getD_none]
  · rw [hadd]
    refine List.singleton_inj.2 (Prod.ext ?_ hmin)
    change (((construct b.pools).assign b.pools b.template).setFragNum (0 + 1)).head = _
    rw [setFragNum, head_hdrWr (full_assign_construct h.ready.blockSize_ne _)
      (by rw [length_toBE]; decide), head_assign_construct h.ready.blockSize_ne h.template,
      ← h.base_eq]
    rfl

/-- The signatures of a chain, with the tail split off. -/
theorem chainSig_concat {base : List UInt8} {tailLen m : ℕ} {init : List IpcSegment}
    {tail : IpcSegment} (hm : init.length = m)
    (h : (init ++ [tail]).map sig = (List.range (m + 1)).map (chainSig base tailLen (m + 1))) :
    init.map sig = (List.range m).map (chainSig base tailLen (m + 1)) ∧
      sig tail = (chainHead base (m + 1) m, tailLen) := by
  rw [List.range_succ, List.map_append, List.map_append] at h
  obtain ⟨hinit, htail⟩ := List.append_inj h (by simp [hm])
  refine ⟨hinit, ?_⟩
  rw [List.map_singleton, List.map_singleton, List.singleton_inj] at htail
  rw [htail, chainSig, if_neg (lt_irrefl _)]

/-- Segments before the tail keep their signatures when the chain grows. -/
theorem chainSig_grow (base : List UInt8) (t t' : ℕ) {m i : ℕ} (hi : i < m) :
    chainSig base t (m + 1) i = chainSig base t' (m + 2) i := by
  rw [chainSig, chainSig, if_pos (by omega), if_pos (by omega), chainHead, chainHead, multiHead,
    multiHead, if_pos (by omega), if_pos (by omega)]

/-- The tail that the next segment copies carries the flag of a message of several segments. -/
theorem flag_tail {base : List UInt8} (hbase : base.length = segData) {m : ℕ}
    {tail : IpcSegment} (hfull : tail.Full) (hhead : tail.head = chainHead base (m + 1) m) :
    (if m + 1 = 1 then tail.setOptions (tail.options ||| optMultipart) else tail).head =
      chainHead base (m + 2) m := by
  split_ifs with hm
  · have hm0 : m = 0 := by omega
    subst hm0
    rw [head_setOptions_or hfull, hhead, chainHead, multiHead, if_neg (by decide), chainHead,
      multiHead, if_pos (by decide), addFlag_overwrite _ (by decide) (by rw [hbase]; decide)]
  · rw [hhead, chainHead, chainHead, multiHead, multiHead, if_pos (by omega), if_pos (by omega)]

/-- A chain that grows by a segment behind its tail. -/
theorem chain_addSegment_concat {base : List UInt8} {b : IpcStreamSegMem} (h : Chain base b)
    {init : List IpcSegment} {tail : IpcSegment} (hs : b.segs = init ++ [tail]) :
    Chain base b.addSegment := by
  set m := init.length with hm
  have hready := (addSegment_spec h.ready).1
  have hlen : b.segs.length = m + 1 := by rw [hs, List.length_append, List.length_singleton]
  have hcount : b.blockCount = m + 1 := by rw [h.ready.blockCount_eq, hlen]
  set tail' := if m + 1 = 1 then tail.setOptions (tail.options ||| optMultipart) else tail
    with htail'
  have hadd : b.addSegment.segs = init ++ [(tail'.setDataLen capacity).bufLenSet
      (capacity + segData), ((construct b.pools).assign b.pools tail').setFragNum (m + 1 + 1)] := by
    simp [addSegment, hs, hcount, htail', hm]
  have htemp : b.addSegment.template = b.template := by simp [addSegment, hs]
  obtain ⟨tailLen, hcov, hsigs⟩ := h.sigs
  rw [hlen, hs] at hsigs
  obtain ⟨hinit, htail⟩ := chainSig_concat hm.symm hsigs
  have hfull : tail.Full := h.ready.full tail (by rw [hs]; simp)
  have hfull' : tail'.Full := by
    rw [htail']
    split
    · exact hfull.hdrWr _ _
    · exact hfull
  have hhead' : tail'.head = chainHead base (m + 2) m :=
    flag_tail h.length_base hfull (congrArg Prod.fst htail)
  have hdata' : tail'.buf.dataLen = tailLen := by
    have hlast : tail.buf.dataLen = tailLen := congrArg Prod.snd htail
    rw [htail', ← hlast]
    split <;> rfl
  have hbase := length_multiHead h.length_base (m + 2)
  have hcov' : Covers tailLen (multiHead base (m + 2)) := by
    refine ⟨hcov.1, ?_⟩
    intro j hj hj'
    have := hcov.1
    rw [getElem?_multiHead h.length_base _ (by omega)]
    exact hcov.2 j hj hj'
  obtain ⟨k, hk, hnew⟩ := sig_copy h.ready.blockSize_ne hbase hcov' (length_toBE 2 _) hhead'
    hdata' (m + 1 + 1)
  refine ⟨hready, by rw [htemp]; exact h.base_eq, by rw [htemp]; exact h.template,
    min tailLen k, hcov.of_min hk, ?_⟩
  have hmark : sig ((tail'.setDataLen capacity).bufLenSet (capacity + segData)) =
      chainSig base (min tailLen k) (m + 2) m := by
    rw [chainSig, if_pos (by omega), sig, head_bufLenSet, setDataLen,
      head_hdrWr hfull' (by rw [length_toBE]; decide), hhead']
    refine Prod.ext rfl ?_
    exact Buffer.dataLen_lenSet (hfull'.trans (Buffer.size_memWr_le _ _ _))
  have hlen' : b.addSegment.segs.length = m + 2 := by
    rw [length_addSegment, hlen]
  have hgrow : (List.range m).map (chainSig base tailLen (m + 1)) =
      (List.range m).map (chainSig base (min tailLen k) (m + 2)) :=
    List.map_congr_left fun i hi => chainSig_grow base _ _ (List.mem_range.1 hi)
  rw [hlen', hadd, List.range_succ, List.range_succ, List.map_append, List.map_append,
    List.map_append, hinit, hgrow, List.append_assoc]
  congr 1
  rw [List.map_cons, List.map_singleton, List.map_singleton, List.map_singleton, hmark, hnew,
    List.singleton_append, chainSig, chainSig, if_pos (by omega), if_neg (lt_irrefl _)]
  rfl

/-- **A new segment keeps the invariant.** -/
theorem chain_addSegment {base : List UInt8} {b : IpcStreamSegMem} (h : Chain base b) :
    Chain base b.addSegment := by
  rcases List.eq_nil_or_concat b.segs with hs | ⟨init, tail, hs⟩
  · exact chain_addSegment_nil h hs
  · rw [List.concat_eq_append] at hs
    exact chain_addSegment_concat h hs

/-- **`MemoryAdd` keeps the invariant.** -/
theorem chain_memoryAdd {base : List UInt8} {b : IpcStreamSegMem} (h : Chain base b) (n : ℕ) :
    Chain base (b.memoryAdd n).2 :=
  memoryAddLoop_invariant (Q := Chain base) (fun _ hb => chain_addSegment hb) _ false b h

/-! ### A chain of one segment -/

/-- The invariant of a chain as long as it has at most one segment, whatever the template covers. -/
structure Single (base : List UInt8) (b : IpcStreamSegMem) : Prop where
  ready : Ready b
  base_eq : base = ((construct b.pools).assign b.pools b.template).head
  sigs : b.segs.length ≤ 1 → ∃ tailLen,
    b.segs.map sig = (List.range b.segs.length).map (chainSig base tailLen b.segs.length)

theorem Single.signed {base : List UInt8} {b : IpcStreamSegMem} (h : Single base b)
    (hlen : b.segs.length ≤ 1) : Signed base b := ⟨h.ready, h.sigs hlen⟩

theorem single_blockMemWr {base : List UInt8} {b : IpcStreamSegMem} (h : Single base b)
    (k off : ℕ) (d : List UInt8) : Single base (b.blockMemWr k off d) := by
  have hlen : (b.blockMemWr k off d).segs.length = b.segs.length := List.length_modify _ _ _
  refine ⟨ready_blockMemWr h.ready k off d, h.base_eq, fun hone => ?_⟩
  rw [map_sig_blockMemWr h.ready, hlen]
  exact h.sigs (hlen ▸ hone)

theorem single_addSegment {base : List UInt8} {b : IpcStreamSegMem} (h : Single base b) :
    Single base b.addSegment := by
  have hready := (addSegment_spec h.ready).1
  have htemp : b.addSegment.template = b.template := by
    unfold addSegment
    split <;> rfl
  have hpools : b.addSegment.pools = b.pools := by
    unfold addSegment
    split <;> rfl
  refine ⟨hready, by rw [htemp, hpools]; exact h.base_eq, fun hone => ?_⟩
  have hs : b.segs = [] := by
    rw [length_addSegment] at hone
    exact List.eq_nil_of_length_eq_zero (by omega)
  have hcount : b.blockCount = 0 := by rw [h.ready.blockCount_eq, hs, List.length_nil]
  have hadd : b.addSegment.segs =
      [((construct b.pools).assign b.pools b.template).setFragNum (0 + 1)] := by
    simp [addSegment, hs, hcount]
  refine ⟨((construct b.pools).assign b.pools b.template).buf.dataLen, ?_⟩
  rw [hadd]
  refine List.singleton_inj.2 (Prod.ext ?_ rfl)
  change (((construct b.pools).assign b.pools b.template).setFragNum (0 + 1)).head = _
  rw [setFragNum, head_hdrWr (full_assign_construct h.ready.blockSize_ne _) (by rw [length_toBE]; decide),
    ← h.base_eq]
  rfl

theorem single_memoryAdd {base : List UInt8} {b : IpcStreamSegMem} (h : Single base b) (n : ℕ) :
    Single base (b.memoryAdd n).2 :=
  memoryAddLoop_invariant (Q := Single base) (fun _ hb => single_addSegment hb) _ false b h

end IpcStreamSegMem

/-! ### The chain when it is handed over -/

namespace IpcStreamSeg

open StreamBase IpcStreamSegMem

/-- The data of a segment with a full-size buffer. -/
theorem data_eq {s : IpcSegment} (h : s.Full) {l : ℕ} (hl : l ≤ capacity)
    (hlen : s.buf.dataLen = segData + l) : s.buf.data = s.head ++ (window s).take l := by
  have hhead := h.length_head
  rw [Buffer.data, ← s.head_append_body, hlen, ← hhead, List.take_length_add_append, window,
    List.take_take, min_eq_left hl]

theorem sizeBefore_eq_mul (b : IpcStreamSegMem) (k : ℕ) : sizeBefore b k = k * capacity := by
  induction k with
  | zero => rw [Nat.zero_mul]; rfl
  | succ k ih =>
      rw [sizeBefore_succ, ih, Nat.succ_mul]
      rfl

/-- Where the end of the data lies in a chain without a spare segment. -/
theorem end_eq {s : IpcStreamSeg} {f : FlatStream UInt8} (h : s.Represents f)
    (hspare : s.NoSpare) (hne : f.content ≠ []) :
    s.lastBlock + 1 = s.store.segs.length ∧ 0 < s.lastPos ∧ s.lastPos ≤ capacity ∧
      f.content.length = s.lastBlock * capacity + s.lastPos ∧
      segCount f.content.length = s.store.segs.length := by
  have hcap : capacity = 1000 := rfl
  have hlenGet : s.lenGet = s.lastBlock * capacity + s.lastPos := by
    rw [lenGet, sizeBefore_eq_mul]
  have hlen := h.lenGet_eq
  have hpos := List.length_pos_iff.2 hne
  have hblks : s.blks.length = s.store.segs.length := List.length_map _
  have hb : s.blks ≠ [] := by
    intro hc
    obtain ⟨hl, hp⟩ := h.wf.unbacked hc
    rw [hl, hp] at hlenGet
    omega
  have hlt := h.wf.lastBlock_lt hb
  have hle : s.lastPos ≤ capacity := h.wf.lastPos_le
  have hpos' : 0 < s.lastPos := by
    rcases Nat.eq_zero_or_pos s.lastBlock with h0 | h0
    · rw [h0] at hlenGet
      omega
    · exact h.wf.lastPos_pos h0
  have hlast : s.lastBlock + 1 = s.store.segs.length := by
    have : s.blks.length ≤ s.lastBlock + 1 := hspare
    omega
  refine ⟨hlast, hpos', hle, by omega, ?_⟩
  obtain ⟨h₁, h₂⟩ := segCount_tight hpos
  rw [hcap] at h₁ h₂ hlenGet hle
  omega

/-- The payload areas hold the slices of what was written. -/
theorem slice_eq {s : IpcStreamSeg} {f : FlatStream UInt8} (h : s.Represents f) {k : ℕ}
    (hk : k < s.store.segs.length) :
    slice f.content k = (window s.store.segs[k]).take (slice f.content k).length := by
  have hk' : k < s.blks.length := by
    rw [blks]
    exact hk.trans_eq (List.length_map _).symm
  have hget : s.blks[k] = window s.store.segs[k] := List.getElem_map _
  have hfull : (s.blks[k]).length = capacity := by
    rw [hget]
    exact length_window (h.wf.ready.full _ (List.getElem_mem hk))
  have hstart : start s.blks k = k * capacity := by
    rw [← sizeBefore_eq_mul s.store, sizeBefore_eq h.wf.ready hk'.le]
    rfl
  have hlen : (slice f.content k).length ≤ capacity := List.length_take_le _ _
  have hread := take_drop_flatten (p := 0) (n := (slice f.content k).length) hk' (by omega)
  rw [List.drop_zero, Nat.add_zero, hstart, hget] at hread
  have hl : (slice f.content k).length = min capacity (f.content.length - k * capacity) := by
    rw [slice, List.length_take, List.length_drop]
  -- the slice is cut off at the end of the data
  have hcut : slice (s.blks.flatten.take f.content.length) k =
      (s.blks.flatten.drop (k * capacity)).take
        (min capacity (f.content.length - k * capacity)) := by
    rw [slice, List.drop_take, List.take_take]
  have hcontent : s.blks.flatten.take f.content.length = f.content := by
    rw [← h.lenGet_eq, ← h.octets_eq]
    rfl
  rw [hcontent] at hcut
  rw [hread, hl, hcut]

/-- The tail of a finalised chain. -/
def finalTail (s : IpcStreamSeg) (tail : IpcSegment) : IpcSegment :=
  let tail := (tail.setDataLen s.lastPos).bufLenSet (s.lastPos + segData)
  if s.store.segs.length = 1 then tail else tail.setOptions (tail.options ||| optInitial)

theorem segs_finalize {s : IpcStreamSeg} {init : List IpcSegment} {tail : IpcSegment}
    (hs : s.store.segs = init ++ [tail]) :
    s.finalize.store.segs = init ++ [finalTail s tail] := by
  simp [finalize, finalTail, hs]

/-- The tail of a finalised chain has the header of the last fragment, the length of its data and
its payload. -/
theorem finalTail_spec {base : List UInt8} {s : IpcStreamSeg} {tail : IpcSegment} {m : ℕ}
    (hlen : s.store.segs.length = m + 1) (hfull : tail.Full)
    (hhead : tail.head = chainHead base (m + 1) m) (hpos : s.lastPos ≤ capacity) :
    (finalTail s tail).Full ∧ (finalTail s tail).head = fragHead base (m + 1) m s.lastPos ∧
      (finalTail s tail).buf.dataLen = segData + s.lastPos ∧
      window (finalTail s tail) = window tail := by
  set t := (tail.setDataLen s.lastPos).bufLenSet (s.lastPos + segData) with ht
  have htfull : t.Full := (hfull.hdrWr _ _).bufLenSet _
  have hmin : (if s.lastPos < capacity then s.lastPos else capacity) = s.lastPos := by
    split <;> omega
  have hthead : t.head = overwrite (chainHead base (m + 1) m) segDataLen (toBE 2 s.lastPos) := by
    rw [ht, head_bufLenSet, setDataLen, head_hdrWr hfull (by rw [length_toBE]; decide), hmin,
      hhead]
  have htlen : t.buf.dataLen = segData + s.lastPos := by
    have hsize : segMaxLen ≤ (tail.setDataLen s.lastPos).buf.size :=
      hfull.trans (Buffer.size_memWr_le _ _ _)
    have hmax : segMaxLen = capacity + segData := rfl
    rw [ht, Nat.add_comm segData]
    exact Buffer.dataLen_lenSet (by omega)
  have htwin : window t = window tail := by
    change window (tail.setDataLen s.lastPos) = window tail
    exact window_hdrWr hfull (by rw [length_toBE]; decide)
  have htail : finalTail s tail =
      if s.store.segs.length = 1 then t else t.setOptions (t.options ||| optInitial) := rfl
  rw [htail, hlen, fragHead]
  split_ifs with h1 h2 h2
  · omega
  · exact ⟨htfull, hthead, htlen, htwin⟩
  · obtain ⟨hofull, howin⟩ := setOptions_spec htfull (t.options ||| optInitial)
    refine ⟨hofull, ?_, htlen, howin.trans htwin⟩
    rw [head_setOptions_or htfull, hthead]
  · exact absurd ⟨by omega, rfl⟩ h2

/-- **A finalised chain holds the fragments of what was written to it.** -/
theorem data_finalize {base : List UInt8} {s : IpcStreamSeg} {f : FlatStream UInt8}
    (h : s.Represents f) (hspare : s.NoSpare) (hsigned : Signed base s.store)
    (hne : f.content ≠ []) :
    s.finalize.store.segs.map (fun x => x.buf.data) = fragments base f.content ∧
      ∀ x ∈ s.finalize.store.segs, x.Full := by
  obtain ⟨hlast, hpos, hle, hlen, hcount⟩ := end_eq h hspare hne
  obtain ⟨tailLen, hsigs⟩ := hsigned.sigs
  rcases List.eq_nil_or_concat s.store.segs with hs | ⟨init, tail, hs⟩
  · rw [hs, List.length_nil] at hlast
    omega
  rw [List.concat_eq_append] at hs
  set m := init.length with hm
  have hn : s.store.segs.length = m + 1 := by rw [hs, List.length_append, List.length_singleton]
  rw [hn, hs] at hsigs
  obtain ⟨hinit, htail⟩ := chainSig_concat hm.symm hsigs
  have hfulls := hsigned.ready.full
  obtain ⟨hffull, hfhead, hflen, hfwin⟩ := finalTail_spec hn
    (hfulls tail (by rw [hs]; simp)) (congrArg Prod.fst htail) hle
  have hslice : ∀ k (hk : k < s.store.segs.length),
      slice f.content k = (window s.store.segs[k]).take (slice f.content k).length :=
    fun k hk => slice_eq h hk
  have hlenSlice : ∀ k, (slice f.content k).length =
      min capacity (f.content.length - k * capacity) := by
    intro k
    rw [slice, List.length_take, List.length_drop]
  constructor
  · rw [segs_finalize hs, fragments, hcount, hn, List.range_succ, List.map_append,
      List.map_append, List.map_singleton, List.map_singleton]
    congr 1
    · refine List.ext_getElem (by simp [hm]) fun k hk₁ hk₂ => ?_
      have hk : k < m := by simpa [hm] using hk₁
      have hk' : k < s.store.segs.length := by omega
      have hget : s.store.segs[k] = init[k] := by
        rw [List.getElem_of_eq hs hk', List.getElem_append_left]
      have hsig : sig init[k] = chainSig base tailLen (m + 1) k := by
        have := List.getElem_of_eq hinit (i := k) (by rw [List.length_map]; exact hk)
        rwa [List.getElem_map, List.getElem_map, List.getElem_range] at this
      rw [chainSig, if_pos (by omega)] at hsig
      have hfullk : init[k].Full := hget ▸ hfulls _ (List.getElem_mem hk')
      have hlk : (slice f.content k).length = capacity := by
        have hcap : capacity = 1000 := rfl
        have hmul : (k + 1) * capacity ≤ s.lastBlock * capacity :=
          Nat.mul_le_mul_right _ (by omega)
        rw [Nat.succ_mul] at hmul
        rw [hlenSlice]
        omega
      have hsk := hslice k hk'
      rw [hget] at hsk
      rw [List.getElem_map, List.getElem_map, List.getElem_range, hsk, hlk, List.length_take,
        length_window hfullk, min_self,
        data_eq hfullk le_rfl ((congrArg Prod.snd hsig).trans (Nat.add_comm _ _)),
        show init[k].head = _ from congrArg Prod.fst hsig, fragHead, if_neg (by omega)]
    · have hm' : m < s.store.segs.length := by omega
      have hget : s.store.segs[m] = tail := by
        rw [List.getElem_of_eq hs hm', List.getElem_concat_length rfl]
      have hlm : (slice f.content m).length = s.lastPos := by
        have hmb : m = s.lastBlock := by omega
        rw [hlenSlice, hmb]
        omega
      have hsm := hslice m hm'
      rw [hget, hlm] at hsm
      rw [data_eq hffull hle hflen, hfhead, hfwin, hlm, ← hsm]
  · rw [segs_finalize hs]
    intro x hx
    rcases List.mem_append.1 hx with hx | hx
    · exact hfulls x (by rw [hs]; exact List.mem_append_left _ hx)
    · rw [List.mem_singleton.1 hx]
      exact hffull

/-! ### Writing a message in pieces -/

/-- Successive `ArrayWr` calls. -/
def writeAll (s : IpcStreamSeg) : List (List UInt8) → Option IpcStreamSeg
  | [] => some s
  | piece :: pieces => (s.arrayWr piece).bind fun r => writeAll r.2 pieces

/-- A default-constructed stream, with a header template or without one. -/
def withTemplate (m : MemPools) : Option IpcSegment → IpcStreamSeg
  | none => construct m 0
  | some seg => (construct m 0).setTemplate seg

/-- The segment whose fields a stream copies. -/
def templateOf (m : MemPools) (template : Option IpcSegment) : IpcSegment :=
  template.getD (IpcSegment.construct m)

/-- The header that a stream copies to its first segment. -/
def baseHead (m : MemPools) (template : Option IpcSegment) : List UInt8 :=
  ((IpcSegment.construct m).assign m (withTemplate m template).store.template).head

theorem segs_withTemplate (m : MemPools) (template : Option IpcSegment) :
    (withTemplate m template).store.segs = [] ∧ (withTemplate m template).store.pools = m ∧
      (withTemplate m template).store.blockCount = 0 := by
  cases template <;> exact ⟨rfl, rfl, rfl⟩

theorem pos_withTemplate (m : MemPools) (template : Option IpcSegment) :
    (withTemplate m template).lastBlock = 0 ∧ (withTemplate m template).lastPos = 0 ∧
      (withTemplate m template).curBlock = 0 ∧ (withTemplate m template).curPos = 0 := by
  cases template <;> exact ⟨rfl, rfl, rfl, rfl⟩

theorem template_withTemplate_some (m : MemPools) (seg : IpcSegment) :
    (withTemplate m (some seg)).store.template = (IpcSegment.construct m).assign m seg := rfl

/-- Copying a template that covers the options keeps its header. -/
theorem takeD_withTemplate {m : MemPools} (hm : m.blockSize segMaxLen ≠ none)
    {template : Option IpcSegment} (hlen : 2 ≤ (templateOf m template).buf.dataLen) :
    2 ≤ (withTemplate m template).store.template.buf.dataLen ∧
      (templateOf m template).buf.data.takeD segData 0 =
        (withTemplate m template).store.template.buf.data.takeD segData 0 := by
  cases template with
  | none => exact ⟨hlen, rfl⟩
  | some seg =>
      have hseg : 2 ≤ seg.buf.dataLen := hlen
      obtain ⟨k, hk, hmin⟩ := dataLen_assign_construct hm seg
      have hmax : segMaxLen = 1024 := rfl
      have h24 : segData = 24 := rfl
      change 2 ≤ ((IpcSegment.construct m).assign m seg).buf.dataLen ∧
        seg.buf.data.takeD segData 0 =
          ((IpcSegment.construct m).assign m seg).buf.data.takeD segData 0
      refine ⟨by omega, ?_⟩
      have hhead := head_assign_construct hm hseg
      refine List.ext_getElem? fun i => ?_
      rw [getElem?_takeD, getElem?_takeD]
      by_cases hi : i < segData
      · have hget : ((IpcSegment.construct m).assign m seg).buf.mem[i]? =
            some (seg.buf.data[i]?.getD 0) := by
          have := congrArg (fun l => l[i]?) hhead
          simp only [head, List.getElem?_take_of_lt hi, getElem?_takeD, if_pos hi] at this
          exact this
        have hdata : ((IpcSegment.construct m).assign m seg).buf.data[i]? =
            if i < min seg.buf.dataLen k then some (seg.buf.data[i]?.getD 0) else none := by
          rw [Buffer.data, List.getElem?_take, hget, hmin]
        rw [if_pos hi, if_pos hi, hdata, Option.some_inj]
        split_ifs with hlt
        · rfl
        · have hnone : seg.buf.data[i]? = none :=
            List.getElem?_eq_none (by rw [Buffer.length_data]; omega)
          rw [hnone, Option.getD_none]
      · rw [if_neg hi, if_neg hi]

theorem length_baseHead {m : MemPools} (hm : m.blockSize segMaxLen ≠ none)
    (template : Option IpcSegment) : (baseHead m template).length = segData :=
  (full_assign_construct hm _).length_head

theorem baseHead_eq {m : MemPools} (hm : m.blockSize segMaxLen ≠ none)
    {template : Option IpcSegment} (hlen : 2 ≤ (templateOf m template).buf.dataLen) :
    baseHead m template = (templateOf m template).buf.data.takeD segData 0 := by
  obtain ⟨htemp, heq⟩ := takeD_withTemplate hm hlen
  rw [heq]
  exact head_assign_construct hm htemp

/-- A template that does not reach the options gives no flags. -/
theorem flags_baseHead {m : MemPools} (hm : m.blockSize segMaxLen ≠ none)
    {template : Option IpcSegment} (hlen : (templateOf m template).buf.dataLen < 2) :
    (baseHead m template).getD segOptions 0 &&& 0xfc = 0 := by
  refine flags_assign_construct hm ?_
  cases template with
  | none => exact hlen
  | some seg =>
      obtain ⟨k, -, hmin⟩ := dataLen_assign_construct hm seg
      rw [template_withTemplate_some, hmin]
      exact (min_le_left _ _).trans_lt hlen

theorem ready_withTemplate {m : MemPools} (hm : m.blockSize segMaxLen ≠ none)
    (template : Option IpcSegment) : Ready (withTemplate m template).store := by
  obtain ⟨hsegs, hpools, hcount⟩ := segs_withTemplate m template
  refine ⟨by rw [hpools]; exact hm, by rw [hcount, hsegs, List.length_nil], ?_⟩
  rw [hsegs]
  intro s hs
  exact absurd hs List.not_mem_nil

theorem chain_withTemplate {m : MemPools} (hm : m.blockSize segMaxLen ≠ none)
    {template : Option IpcSegment} (hlen : 2 ≤ (templateOf m template).buf.dataLen) :
    Chain (baseHead m template) (withTemplate m template).store := by
  obtain ⟨htemp, heq⟩ := takeD_withTemplate hm hlen
  refine ⟨ready_withTemplate hm template, (baseHead_eq hm hlen).trans heq, htemp, segData,
    ⟨by decide, fun j hj hj' => absurd hj' (not_lt.2 hj)⟩, ?_⟩
  rw [(segs_withTemplate m template).1]
  rfl

theorem single_withTemplate {m : MemPools} (hm : m.blockSize segMaxLen ≠ none)
    (template : Option IpcSegment) : Single (baseHead m template) (withTemplate m template).store := by
  obtain ⟨hsegs, hpools, -⟩ := segs_withTemplate m template
  refine ⟨ready_withTemplate hm template, by rw [hpools]; rfl, fun _ => ⟨0, ?_⟩⟩
  rw [hsegs]
  rfl

/-- **Writing a message in pieces**: the pieces are appended, no segment is spare, and what every write
to a segment and every new segment keep is kept. -/
theorem writeAll_spec {Q : IpcStreamSegMem → Prop}
    (hwr : ∀ b k off d, Q b → Q (b.blockMemWr k off d)) (hadd : ∀ b n, Q b → Q (b.memoryAdd n).2)
    (pieces : List (List UInt8)) :
    ∀ (s : IpcStreamSeg) (f : FlatStream UInt8), s.Represents f → f.AtEnd → s.NoSpare →
      Q s.store → ∃ s' f', s.writeAll pieces = some s' ∧ s'.Represents f' ∧
        s'.NoSpare ∧ Q s'.store ∧ f'.content = f.content ++ pieces.flatten := by
  induction pieces with
  | nil =>
      intro s f h _ hspare hstore
      exact ⟨s, f, rfl, h, hspare, hstore, by simp⟩
  | cons piece pieces ih =>
      intro s f h hend hspare hstore
      obtain ⟨t, hrun, ht, htspare⟩ := h.arrayWr piece
      have htstore : Q t.store := arrayWr_store hwr hadd hrun hstore
      obtain ⟨s', f', hrun', hs', hspare', hstore', hcontent⟩ :=
        ih t (f.write piece) ht (FlatStream.atEnd_write hend piece) (htspare hspare) htstore
      refine ⟨s', f', ?_, hs', hspare', hstore', ?_⟩
      · rw [writeAll, hrun, Option.bind_some, hrun']
      · rw [hcontent, FlatStream.content_write_of_atEnd hend, List.flatten_cons, List.append_assoc]

/-- **What a message becomes on the wire** does not depend on the pieces it is written in. -/
theorem fragments_of_writeAll {m : MemPools} (hm : m.blockSize segMaxLen ≠ none)
    {template : Option IpcSegment} {pieces : List (List UInt8)} (hne : pieces.flatten ≠ [])
    (hlen : 1 < segCount pieces.flatten.length → 2 ≤ (templateOf m template).buf.dataLen) :
    ∃ s, (withTemplate m template).writeAll pieces = some s ∧
      s.finalize.segmentExtract.1.map (fun x => x.buf.data) =
        fragments (baseHead m template) pieces.flatten ∧
      ∀ x ∈ s.finalize.segmentExtract.1, x.Full := by
  obtain ⟨hsegs, -, -⟩ := segs_withTemplate m template
  have hpos := pos_withTemplate m template
  have hrep := represents_of_segs_nil (ready_withTemplate hm template) hsegs ⟨hpos.1, hpos.2.1⟩ hpos.2.2
  have hspare : (withTemplate m template).NoSpare := by
    change ((withTemplate m template).store.segs.map window).length ≤ _
    rw [hsegs]
    exact Nat.zero_le _
  obtain ⟨s, f, hrun, hs, hspare', hsigned, hcontent⟩ : ∃ s f,
      (withTemplate m template).writeAll pieces = some s ∧ s.Represents f ∧ s.NoSpare ∧
        Signed (baseHead m template) s.store ∧ f.content = pieces.flatten := by
    by_cases hone : 1 < segCount pieces.flatten.length
    · obtain ⟨s, f, hrun, hs, hspare', hchain, hcontent⟩ :=
        @writeAll_spec (Chain (baseHead m template)) (fun _ k off d hb => chain_blockMemWr hb k off d)
          (fun _ n hb => chain_memoryAdd hb n) pieces _ _ hrep rfl hspare
          (chain_withTemplate hm (hlen hone))
      exact ⟨s, f, hrun, hs, hspare', hchain.signed, hcontent⟩
    · -- the message fits in its first segment, and the template is copied only once
      obtain ⟨s, f, hrun, hs, hspare', hsingle, hcontent⟩ :=
        @writeAll_spec (Single (baseHead m template)) (fun _ k off d hb => single_blockMemWr hb k off d)
          (fun _ n hb => single_memoryAdd hb n) pieces _ _ hrep rfl hspare
          (single_withTemplate hm template)
      rw [FlatStream.content_empty, List.nil_append] at hcontent
      obtain ⟨-, -, -, -, hcount⟩ := end_eq hs hspare' (by rw [hcontent]; exact hne)
      rw [hcontent] at hcount
      exact ⟨s, f, hrun, hs, hspare', hsingle.signed (by omega), hcontent⟩
  obtain ⟨hdata, hfull⟩ := data_finalize hs hspare' hsigned (by rw [hcontent]; exact hne)
  refine ⟨s, hrun, ?_, hfull⟩
  rw [← hcontent]
  exact hdata

end IpcStreamSeg

end CodePort
