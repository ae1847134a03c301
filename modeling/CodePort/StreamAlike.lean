/-
Streams that a reader cannot tell apart.

A function that reads a stream sees its blocks through `ArrayRd` only, and what lies behind the memory
of a block never matters.  Where two stores answer every read in the same way, the functions that
read the streams over them return the same.

Main definitions:

* `CodePort.StoresAlike`, `StreamBase.Alike` — the two answer every read in the same way;
* `CodePort.SerDesNative.Blind` — an extraction that cannot tell such streams apart.

Main results:

* `CodePort.SerDesNative.Blind.bind`, `blind_variantExtract` — every extraction is blind;
* `CodePort.StreamBase.Alike.findLine` — so is the search for a line;
* `CodePort.SerDesNative.alike_decode` — **so is the native decoder**;
* `CodePort.SerDesFactory.alike_detectEncoding` — and the detection of an encoding.
-/

import CodePort.AutoDetect

set_option relaxedAutoImplicit false
set_option autoImplicit false

namespace CodePort

open BlockStore StreamBase

variable {β : Type} [BlockStore β]

/-! ### Stores -/

/-- The two stores answer every read in the same way. -/
structure StoresAlike (b c : β) : Prop where
  memoryChk_eq : memoryChk c = memoryChk b
  validBlock_eq : ∀ k, validBlock c k = validBlock b k
  blockSize_eq : blockSize c = blockSize b
  isSome_eq : ∀ k, (blockMemPtr c k).isSome = (blockMemPtr b k).isSome
  octets_eq : ∀ chunk, chunkOctets c chunk = chunkOctets b chunk

theorem StoresAlike.symm {b c : β} (h : StoresAlike b c) : StoresAlike c b :=
  ⟨h.memoryChk_eq.symm, fun k => (h.validBlock_eq k).symm, h.blockSize_eq.symm,
    fun k => (h.isSome_eq k).symm, fun chunk => (h.octets_eq chunk).symm⟩

namespace StreamBase

/-- The two streams answer every read in the same way: the stores do, and the rest is equal. -/
structure Alike (s t : StreamBase β) : Prop where
  store : StoresAlike s.store t.store
  eq : t = s.withStore t.store

variable {s t : StreamBase β}

theorem alike_withStore {c : β} (h : StoresAlike s.store c) : s.Alike (s.withStore c) := ⟨h, rfl⟩

theorem Alike.symm (h : s.Alike t) : t.Alike s := by
  refine ⟨h.store.symm, ?_⟩
  rw [h.eq]
  rfl

theorem Alike.lenGet_eq (h : s.Alike t) : t.lenGet = s.lenGet := by
  rw [h.eq]
  simp only [lenGet, sizeBefore, withStore, h.store.blockSize_eq]

/-- The loop of `ArrayRd` moves the cursor only. -/
theorem store_eq_arrayRdLoop (s : StreamBase β) (left : ℕ) : (s.arrayRdLoop left).2.store = s.store := by
  fun_induction arrayRdLoop s left with
  | case1 s => rfl
  | case2 s left h0 hrs hnull => rfl
  | case3 s left h0 hrs mem hmem n r ih => exact ih
  | case4 s left h0 hrs hlt ih => exact ih
  | case5 s left h0 hrs hlt => rfl

theorem store_eq_arrayRd (s : StreamBase β) (len : ℕ) : (s.arrayRd len).2.store = s.store := by
  simp only [arrayRd, arrayRdChunks]
  split_ifs
  · rfl
  · exact store_eq_arrayRdLoop s len
  · rfl

/-- A stream that has been read differs from the other one in its store only. -/
theorem Alike.moved {s' : StreamBase β} (h : s.Alike t) (hs : s'.store = s.store) :
    s'.Alike (s'.withStore t.store) := ⟨hs ▸ h.store, rfl⟩

/-- **An array is read in the same way.** -/
theorem Alike.arrayRd (h : s.Alike t) (len : ℕ) :
    (t.arrayRd len).1 = (s.arrayRd len).1 ∧ (s.arrayRd len).2.Alike (t.arrayRd len).2 := by
  have hcongr := arrayRd_congr len h.store.memoryChk_eq h.store.blockSize_eq h.store.isSome_eq
    h.store.octets_eq
  rw [← h.eq] at hcongr
  rw [hcongr]
  exact ⟨rfl, h.moved (store_eq_arrayRd s len)⟩

theorem usedSize_withStore {c : β} (h : StoresAlike s.store c) (i : ℕ) :
    (s.withStore c).usedSize i = s.usedSize i := by
  simp only [usedSize, withStore, h.blockSize_eq]

/-- The loop of `Seek` looks at the sizes of the blocks only. -/
theorem seekLoop_congr {c : β} (h : StoresAlike s.store c) (p i loc : ℕ) :
    seekLoop p (s.withStore c) i loc =
      ((seekLoop p s i loc).1, (seekLoop p s i loc).2.withStore c) := by
  fun_induction seekLoop p s i loc with
  | case1 s i loc hvalid hp =>
      have hvalid' : (validBlock (s.withStore c).store i &&
          decide (i ≤ (s.withStore c).lastBlock)) = true := by
        rw [show (s.withStore c).store = c from rfl, h.validBlock_eq]
        exact hvalid
      rw [seekLoop, if_pos hvalid', usedSize_withStore h, if_pos hp]
      rfl
  | case2 s i loc hvalid hp ih =>
      have hvalid' : (validBlock (s.withStore c).store i &&
          decide (i ≤ (s.withStore c).lastBlock)) = true := by
        rw [show (s.withStore c).store = c from rfl, h.validBlock_eq]
        exact hvalid
      rw [seekLoop, if_pos hvalid', usedSize_withStore h, if_neg hp]
      exact ih h
  | case3 s i loc hvalid =>
      have hvalid' : ¬ (validBlock (s.withStore c).store i &&
          decide (i ≤ (s.withStore c).lastBlock)) = true := by
        rw [show (s.withStore c).store = c from rfl, h.validBlock_eq]
        exact hvalid
      rw [seekLoop, if_neg hvalid']

/-- **A position is found in the same way.** -/
theorem Alike.seek (h : s.Alike t) (p : ℕ) :
    (t.seek p).1 = (s.seek p).1 ∧ (s.seek p).2.Alike (t.seek p).2 := by
  have hcongr := seekLoop_congr h.store p 0 0
  rw [← h.eq] at hcongr
  rw [StreamBase.seek, StreamBase.seek, hcongr]
  exact ⟨rfl, h.moved (seekLoop_frame p s 0 0).1⟩

/-- A buffer is read in the same way. -/
theorem Alike.readBuf (h : s.Alike t) (m : MemPools) (buf : Buffer) (len : ℕ) :
    (t.readBuf m buf len).1 = (s.readBuf m buf len).1 ∧
      (t.readBuf m buf len).2.1 = (s.readBuf m buf len).2.1 ∧
        (s.readBuf m buf len).2.2.Alike (t.readBuf m buf len).2.2 := by
  rw [StreamBase.readBuf, StreamBase.readBuf, h.lenGet_eq]
  dsimp only
  generalize (if len < s.lenGet then len else s.lenGet) = length
  generalize (if buf.size < length then buf.resize m length else (true, buf)) = r
  obtain ⟨hd, hrest⟩ := h.arrayRd length
  split_ifs
  · rw [hd]
    exact ⟨rfl, rfl, hrest⟩
  · exact ⟨rfl, rfl, h⟩

end StreamBase

/-! ### Extraction -/

namespace SerDesNative

variable {α δ : Type}

/-- The function extracts the same from streams that answer every read in the same way. -/
def Blind (g : Extract β α) : Prop :=
  ∀ ⦃s t : StreamBase β⦄, s.Alike t → (g.run t).1 = (g.run s).1 ∧ (g.run s).2.Alike (g.run t).2

theorem blind_pure (a : α) : Blind (pure a : Extract β α) := fun _ _ h => ⟨rfl, h⟩

theorem blind_failure : Blind (failure : Extract β α) := fun _ _ h => ⟨rfl, h⟩

theorem Blind.bind {g : Extract β α} {h : α → Extract β δ} (hg : Blind g)
    (hh : ∀ a, Blind (h a)) : Blind (g >>= h) := by
  intro s t hst
  obtain ⟨hsame, hrest⟩ := hg hst
  rw [run_bind, run_bind]
  rcases hs : g.run s with ⟨_ | a, s'⟩
  · rcases ht : g.run t with ⟨_ | b, t'⟩
    · rw [hs, ht] at hrest
      exact ⟨rfl, hrest⟩
    · rw [hs, ht] at hsame
      cases hsame
  · rcases ht : g.run t with ⟨_ | b, t'⟩
    · rw [hs, ht] at hsame
      cases hsame
    · rw [hs, ht] at hsame hrest
      obtain rfl := Option.some.inj hsame
      exact hh b hrest

theorem Blind.map {g : Extract β α} (hg : Blind g) (h : α → δ) : Blind (h <$> g) :=
  hg.bind fun a => blind_pure (h a)

theorem blind_octetExtract : Blind (octetExtract : Extract β UInt8) := by
  intro s t h
  obtain ⟨hd, hrest⟩ := h.arrayRd 1
  exact ⟨congrArg List.head? hd, hrest⟩

theorem blind_octetsExtract (n : ℕ) : Blind (octetsExtract n : Extract β (List UInt8)) := by
  induction n with
  | zero => exact blind_pure []
  | succ n ih => exact blind_octetExtract.bind fun ch => ih.bind fun l => blind_pure (ch :: l)

theorem blind_wordExtract (le : Bool) (w : ℕ) : Blind (wordExtract le w : Extract β ℕ) :=
  (blind_octetsExtract w).bind fun l => blind_pure (Octets.ofHost le (if le then l.reverse else l))

theorem blind_lenExtract (le : Bool) : Blind (lenExtract le : Extract β ℕ) := by
  refine blind_octetExtract.bind fun ch => ?_
  split_ifs
  · exact blind_pure _
  · exact blind_octetExtract.bind fun hi => blind_octetExtract.bind fun lo => blind_pure _
  · exact blind_wordExtract le 4
  · exact blind_failure

/-- A block of some length is read into a buffer. -/
theorem blind_block (m : MemPools) (buf : Buffer) (len : ℕ) (f : Buffer → α) :
    Blind (OptionT.mk fun s =>
      let r := s.readBuf m buf len
      (if r.1 = len then some (f r.2.1) else none, r.2.2) : Extract β α) := by
  intro s t h
  obtain ⟨hlen, hbuf, hrest⟩ := h.readBuf m buf len
  refine ⟨?_, hrest⟩
  change (if (t.readBuf m buf len).1 = len then some (f (t.readBuf m buf len).2.1) else none) = _
  rw [hlen, hbuf]
  rfl

theorem blind_stringExtract (le : Bool) (m : MemPools) :
    Blind (stringExtract le m : Extract β (List UInt8)) := by
  refine (blind_lenExtract le).bind fun len => ?_
  split_ifs
  · dsimp only
    split_ifs
    · exact blind_block m _ len fun buf => cStr (buf.memWr len [0]).mem
    · exact blind_failure
  · exact blind_pure []

theorem blind_blobExtract (le : Bool) (m : MemPools) :
    Blind (blobExtract le m : Extract β Buffer) := by
  refine (blind_lenExtract le).bind fun len => ?_
  split_ifs
  · dsimp only
    split_ifs
    · exact blind_block m _ len id
    · exact blind_failure
  · exact blind_pure _

/-- **The extraction of a value is blind**, whatever its type. -/
theorem blind_variantExtract (le : Bool) (m : MemPools) (var : Variant) (type : DataType) :
    Blind (variantExtract le m var type : Extract β Variant) := by
  cases type with
  | uint8 => exact blind_octetExtract.bind fun val => blind_pure _
  | int8 => exact blind_octetExtract.bind fun val => blind_pure _
  | uint16 => exact (blind_wordExtract le 2).map _
  | int16 => exact (blind_wordExtract le 2).map _
  | uint32 => exact (blind_wordExtract le 4).map _
  | int32 => exact (blind_wordExtract le 4).map _
  | uint64 => exact (blind_wordExtract le 8).map _
  | int64 => exact (blind_wordExtract le 8).map _
  | float32 => exact (blind_wordExtract le 4).map _
  | float64 => exact (blind_wordExtract le 8).map _
  | bool => exact blind_octetExtract.bind fun ch => blind_pure _
  | string => exact (blind_stringExtract le m).map _
  | blob => exact (blind_blobExtract le m).map _
  | none => exact blind_pure _
  | inert => exact blind_failure
  | datumList => exact blind_failure

theorem blind_attribExtract (le : Bool) (m : MemPools) (var : Variant) :
    Blind (attribExtract le m var : Extract β Variant) := by
  refine blind_octetExtract.bind fun ch => ?_
  cases DataType.ofOctet ch with
  | none => exact blind_failure
  | some type => exact blind_variantExtract le m var type

theorem blind_decodeIdent : Blind (decodeIdent : Extract β Unit) := by
  refine blind_octetExtract.bind fun ch => ?_
  split_ifs
  · refine blind_octetExtract.bind fun ch => ?_
    split_ifs
    · exact blind_pure ()
    · exact blind_failure
  · exact blind_failure

theorem blind_decodeVersion : Blind (decodeVersion : Extract β Unit) :=
  blind_octetExtract.bind fun _ => blind_pure ()

end SerDesNative

/-! ### Lines -/

namespace StreamBase

open SerDesNative

variable {s t : StreamBase β}

theorem Alike.readLineLoop (h : s.Alike t) {term : UInt8} {discardTerm : Bool} {line : List UInt8}
    {r : Bool × List UInt8 × StreamBase β}
    (hrun : StreamBase.readLineLoop term discardTerm line s = some r) :
    ∃ t', StreamBase.readLineLoop term discardTerm line t = some (r.1, r.2.1, t') ∧ r.2.2.Alike t' := by
  refine readLineLoop.partial_correctness term discardTerm (fun line s r => ∀ t : StreamBase β, s.Alike t →
    ∃ t', StreamBase.readLineLoop term discardTerm line t = some (r.1, r.2.1, t') ∧ r.2.2.Alike t') ?_
    line s r hrun t h
  intro loop ih line s r hrun t h
  have hblind : ((StreamBase.readOctet : Extract β UInt8).run t).1 =
      ((StreamBase.readOctet : Extract β UInt8).run s).1 ∧
        ((StreamBase.readOctet : Extract β UInt8).run s).2.Alike
          ((StreamBase.readOctet : Extract β UInt8).run t).2 := blind_octetExtract h
  rw [StreamBase.readLineLoop]
  rcases hs : (StreamBase.readOctet : Extract β UInt8).run s with ⟨c, s₁⟩
  rcases ht : (StreamBase.readOctet : Extract β UInt8).run t with ⟨c', t₁⟩
  rw [hs, ht] at hblind
  obtain ⟨rfl, hrest⟩ := hblind
  rw [hs] at hrun
  cases c' with
  | none =>
      obtain rfl := Option.some.inj hrun
      exact ⟨t₁, rfl, hrest⟩
  | some ch =>
      dsimp only at hrun ⊢
      by_cases hch : ch = term
      · rw [if_pos hch] at hrun ⊢
        obtain rfl := Option.some.inj hrun
        exact ⟨t₁, rfl, hrest⟩
      · rw [if_neg hch] at hrun ⊢
        exact ih _ _ r hrun t₁ hrest

theorem Alike.readLine (h : s.Alike t) {term : UInt8} {discardTerm : Bool}
    {r : Bool × List UInt8 × StreamBase β} (hrun : s.readLine term discardTerm = some r) :
    ∃ t', t.readLine term discardTerm = some (r.1, r.2.1, t') ∧ r.2.2.Alike t' := by
  obtain ⟨r', hr', rfl⟩ := Option.map_eq_some_iff.1 hrun
  obtain ⟨t', ht', hrest⟩ := h.readLineLoop hr'
  exact ⟨t', by rw [StreamBase.readLine, ht', Option.map_some], hrest⟩

/-- **A line is looked for in the same way.** -/
theorem Alike.findLine (h : s.Alike t) {p : List UInt8 → Bool} {r : Bool × StreamBase β}
    (hrun : s.findLine p = some r) : ∃ t', t.findLine p = some (r.1, t') ∧ r.2.Alike t' := by
  refine findLine.partial_correctness p (fun s r => ∀ t : StreamBase β, s.Alike t →
    ∃ t', t.findLine p = some (r.1, t') ∧ r.2.Alike t') ?_ s r hrun t h
  intro loop ih s r hrun t h
  obtain ⟨⟨ok, line, s₁⟩, hline, hrun⟩ := Option.bind_eq_some_iff.1 hrun
  obtain ⟨t₁, ht₁, hrest⟩ := h.readLine hline
  rw [StreamBase.findLine, ht₁]
  simp only [Option.bind_eq_bind, Option.bind_some] at hrun ⊢
  cases ok with
  | false =>
      obtain rfl := Option.some.inj hrun
      exact ⟨t₁, rfl, hrest⟩
  | true =>
      simp only [if_true] at hrun ⊢
      cases hp : p line with
      | true =>
          rw [hp] at hrun
          obtain rfl := Option.some.inj hrun
          exact ⟨t₁, rfl, hrest⟩
      | false =>
          rw [hp] at hrun
          simp only [Bool.false_eq_true, if_false] at hrun ⊢
          exact ih s₁ r hrun t₁ hrest

end StreamBase

/-! ### The native decoder -/

namespace SerDesNative

/-- The variables of two decoders are equal, and the streams answer every read in the same way. -/
structure DecodeState.Alike (st st' : DecodeState β) : Prop where
  stream : st.stream.Alike st'.stream
  eq : st' = { st with stream := st'.stream }

variable {le : Bool} {m : MemPools} {st st' : DecodeState β}

theorem DecodeState.Alike.set (h : st.Alike st') {s t : StreamBase β} (hst : s.Alike t) :
    ({ st with stream := s } : DecodeState β).Alike { st' with stream := t } := by
  refine ⟨hst, ?_⟩
  rw [h.eq]

theorem alike_modifyRef (h : st.Alike st') (f : Datum → Datum) :
    (st.modifyRef st.pDat f).Alike (st'.modifyRef st'.pDat f) := by
  obtain ⟨hst, heq⟩ := h
  obtain ⟨stream, root, datStack, pDat, rootDatum, var⟩ := st
  rw [heq]
  cases pDat with
  | none => exact ⟨hst, rfl⟩
  | some p => exact ⟨hst, rfl⟩

theorem alike_decodeDat (h : st.Alike st') : (decodeDat le m st).Alike (decodeDat le m st') := by
  obtain ⟨hst, heq⟩ := h
  obtain ⟨stream, root, datStack, pDat, rootDatum, var⟩ := st
  rw [heq]
  cases rootDatum with
  | true => exact ⟨hst, rfl⟩
  | false =>
      cases pDat with
      | none => exact ⟨hst, rfl⟩
      | some p => exact ⟨hst, rfl⟩

theorem alike_decodeDatEnd (h : st.Alike st') : (decodeDatEnd st).Alike (decodeDatEnd st') := by
  obtain ⟨hst, heq⟩ := h
  obtain ⟨stream, root, datStack, pDat, rootDatum, var⟩ := st
  rw [heq]
  rcases datStack with _ | ⟨a, _ | ⟨b, rs⟩⟩
  · exact ⟨hst, rfl⟩
  · exact ⟨hst, rfl⟩
  · exact ⟨hst, rfl⟩

theorem alike_decodeAttrib (attrib : Attrib) (h : st.Alike st') :
    (decodeAttrib le m attrib st').1 = (decodeAttrib le m attrib st).1 ∧
      (decodeAttrib le m attrib st).2.Alike (decodeAttrib le m attrib st').2 := by
  have hvar : st'.var = st.var := by rw [h.eq]
  have hblind := blind_attribExtract le m st.var h.stream
  rw [decodeAttrib, decodeAttrib, hvar]
  rcases hs : (attribExtract le m st.var).run st.stream with ⟨v, s₁⟩
  rcases ht : (attribExtract le m st.var).run st'.stream with ⟨v', t₁⟩
  rw [hs, ht] at hblind
  obtain ⟨hv, hrest⟩ := hblind
  obtain rfl : v' = v := hv
  cases v' with
  | none =>
      refine ⟨rfl, hrest, ?_⟩
      dsimp only
      rw [h.eq]
  | some var =>
      refine ⟨rfl, ?_⟩
      have hvar : ({ st with stream := s₁, var := var } : DecodeState β).Alike
          { st' with stream := t₁, var := var } := by
        refine ⟨hrest, ?_⟩
        rw [h.eq]
      exact alike_modifyRef hvar _

/-- **A pass through the loop** does the same. -/
theorem alike_decodeStep (h : st.Alike st') :
    (decodeStep le m st').1 = (decodeStep le m st).1 ∧
      (decodeStep le m st).2.Alike (decodeStep le m st').2 := by
  have hblind := blind_octetExtract h.stream
  rw [decodeStep, decodeStep]
  rcases hs : octetExtract.run st.stream with ⟨c, s₁⟩
  rcases ht : octetExtract.run st'.stream with ⟨c', t₁⟩
  rw [hs, ht] at hblind
  obtain ⟨rfl, hrest⟩ := hblind
  have hset := h.set hrest
  cases c' with
  | none => exact ⟨rfl, hset⟩
  | some ch =>
      dsimp only
      split_ifs
      · exact ⟨rfl, hset⟩
      · exact ⟨rfl, alike_decodeDat hset⟩
      · exact ⟨rfl, alike_decodeDatEnd hset⟩
      · exact ⟨rfl, hset⟩
      · cases tagMap ch with
        | none => exact ⟨rfl, hset⟩
        | some attrib => exact alike_decodeAttrib attrib hset

theorem alike_decodeLoop (h : st.Alike st') {r : Bool × DecodeState β}
    (hrun : st.decodeLoop le m = some r) :
    ∃ r', st'.decodeLoop le m = some (r.1, r') ∧ r.2.Alike r' := by
  refine DecodeState.decodeLoop.partial_correctness le m (fun st r => ∀ st' : DecodeState β, st.Alike st' →
    ∃ r', st'.decodeLoop le m = some (r.1, r') ∧ r.2.Alike r') ?_ st r hrun st' h
  intro loop ih st r hrun st' h
  obtain ⟨hsame, hrest⟩ := @alike_decodeStep _ _ le m _ _ h
  rw [DecodeState.decodeLoop]
  rcases hs : decodeStep le m st with ⟨v, st₁⟩
  rcases ht : decodeStep le m st' with ⟨v', st₁'⟩
  rw [hs, ht] at hsame hrest
  obtain rfl : v' = v := hsame
  rw [hs] at hrun
  cases v' with
  | more => exact ih st₁ r hrun st₁' hrest
  | exit =>
      obtain rfl := Option.some.inj hrun
      exact ⟨st₁', rfl, hrest⟩
  | fail =>
      obtain rfl := Option.some.inj hrun
      exact ⟨st₁', rfl, hrest⟩

theorem alike_decodeElement {s t : StreamBase β} (h : s.Alike t) {dat : Datum}
    {r : Bool × Datum × StreamBase β} (hrun : decodeElement le m dat s = some r) :
    ∃ t', decodeElement le m dat t = some (r.1, r.2.1, t') ∧ r.2.2.Alike t' := by
  obtain ⟨r', hloop, rfl⟩ := Option.map_eq_some_iff.1 hrun
  have hstart : DecodeState.Alike ⟨s, dat, [some []], some [], true, Variant.construct m false⟩
      ⟨t, dat, [some []], some [], true, Variant.construct m false⟩ := ⟨h, rfl⟩
  obtain ⟨st', hloop', hst⟩ := alike_decodeLoop hstart hloop
  refine ⟨st'.stream, ?_, hst.stream⟩
  rw [decodeElement, hloop', Option.map_some, hst.eq]

theorem alike_execDecodeStates {s t : StreamBase β} (h : s.Alike t) {dat : Datum}
    {r : Bool × Datum × StreamBase β} (hrun : execDecodeStates le m s dat false = some r) :
    ∃ t', execDecodeStates le m t dat false = some (r.1, r.2.1, t') ∧ r.2.2.Alike t' := by
  have hheader := (blind_decodeIdent.bind fun _ => blind_decodeVersion) h
  unfold execDecodeStates at hrun ⊢
  dsimp only at hrun ⊢
  rcases hs : (decodeIdent >>= fun _ => decodeVersion : Extract β Unit).run s with ⟨c, s₁⟩
  rcases ht : (decodeIdent >>= fun _ => decodeVersion : Extract β Unit).run t with ⟨c', t₁⟩
  rw [hs, ht] at hheader
  obtain ⟨hc, hrest⟩ := hheader
  obtain rfl : c' = c := hc
  rw [hs] at hrun
  cases c' with
  | none =>
      obtain rfl := Option.some.inj hrun
      exact ⟨t₁, rfl, hrest⟩
  | some _ =>
      simp only [Bool.and_false, Bool.false_eq_true, if_false] at hrun ⊢
      obtain ⟨⟨rv, d, s₂⟩, hdec, hrun⟩ := Option.bind_eq_some_iff.1 hrun
      obtain ⟨t₂, hdec', hrest'⟩ := alike_decodeElement hrest hdec
      obtain rfl := Option.some.inj hrun
      exact ⟨t₂, by rw [hdec']; rfl, hrest'⟩

/-- **The native decoder makes the same of streams that it cannot tell apart.** -/
theorem alike_decode {s t : StreamBase β} (h : s.Alike t) {dat : Datum} {r : Bool × Datum × StreamBase β}
    (hrun : decode le m s dat false = some r) :
    ∃ t', decode le m t dat false = some (r.1, r.2.1, t') ∧ r.2.2.Alike t' := by
  obtain ⟨r, hstates, rfl⟩ := Option.map_eq_some_iff.1 hrun
  obtain ⟨t', hstates', halike⟩ := alike_execDecodeStates (h.seek 0).2 hstates
  exact ⟨t', by rw [decode, hstates', Option.map_some], halike⟩

end SerDesNative

/-! ### The detection of an encoding -/

variable {s t : StreamBase β}

theorem SerDes.alike_checkEncoding (sd : SerDes) (h : s.Alike t) {r : Bool × StreamBase β}
    (hrun : sd.checkEncoding s = some r) : ∃ t', sd.checkEncoding t = some (r.1, t') ∧ r.2.Alike t' := by
  obtain ⟨hok, hrest⟩ := h.seek 0
  rw [checkEncoding.eq_def] at hrun ⊢
  dsimp only at hrun ⊢
  rw [hok]
  split_ifs at hrun ⊢
  · cases sd with
    | native =>
        obtain rfl := Option.some.inj hrun
        obtain ⟨hsame, hrest'⟩ := SerDesNative.blind_decodeIdent hrest
        exact ⟨_, by rw [hsame], hrest'⟩
    | xml => exact hrest.findLine hrun
    | idl _ => exact hrest.findLine hrun
  · obtain rfl := Option.some.inj hrun
    exact ⟨_, rfl, hrest⟩

theorem SerDesFactory.alike_detectLoop (pools : List (List UInt8 × List SerDes)) (h : s.Alike t)
    {r : List UInt8 × StreamBase β} (hrun : detectLoop pools s = some r) :
    ∃ t', detectLoop pools t = some (r.1, t') ∧ r.2.Alike t' := by
  induction pools generalizing s t with
  | nil =>
      obtain rfl := Option.some.inj hrun
      exact ⟨t, rfl, h⟩
  | cons pool pools ih =>
      obtain ⟨name, sds⟩ := pool
      cases sds with
      | nil => exact ih h hrun
      | cons sd sds =>
          obtain ⟨⟨ok, s₁⟩, hcheck, hrun⟩ := Option.bind_eq_some_iff.1 hrun
          obtain ⟨t₁, ht₁, hrest⟩ := sd.alike_checkEncoding h hcheck
          rw [detectLoop, ht₁]
          simp only [Option.bind_eq_bind, Option.bind_some] at hrun ⊢
          cases ok with
          | true =>
              obtain rfl := Option.some.inj hrun
              exact ⟨t₁, rfl, hrest⟩
          | false => exact ih hrest hrun

/-- **The encoding is detected in the same way.** -/
theorem SerDesFactory.alike_detectEncoding (fac : SerDesFactory) (h : s.Alike t)
    {r : List UInt8 × StreamBase β} (hrun : fac.detectEncoding s = some r) :
    ∃ t', fac.detectEncoding t = some (r.1, t') ∧ r.2.Alike t' :=
  alike_detectLoop fac.pools h hrun

end CodePort
