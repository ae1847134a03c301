/-
The native decoder only reads.

Whatever octets the decoder meets, it moves the cursor of the stream and changes nothing else: the
blocks and the end of the data stay, and the cursor stays between the start and the end.

Main definitions:

* `CodePort.StreamBase.Reading` — a stream after something has been read from it;
* `CodePort.SerDesNative.Keeps` — a function that extracts by reading only.

Main results:

* `CodePort.SerDesNative.Keeps.bind`, `keeps_variantExtract` — every extraction only reads;
* `CodePort.SerDesNative.run_octetsExtract` — what is extracted when enough is left, or too little;
* `CodePort.SerDesNative.reading_decodeLoop` — **so does the loop over the elements**.
-/

import CodePort.NativeRoundTrip

set_option relaxedAutoImplicit false
set_option autoImplicit false

namespace CodePort

open BlockStore Octets

variable {β : Type} [BlockStore β] [LawfulBlockStore β]

namespace StreamBase

/-- The stream `s'` is `s` after something has been read: only the cursor has moved. -/
structure Reading (s s' : StreamBase β) : Prop where
  wf : s'.Wf
  store_eq : s'.store = s.store
  lastBlock_eq : s'.lastBlock = s.lastBlock
  lastPos_eq : s'.lastPos = s.lastPos

variable {s s' s'' : StreamBase β}

theorem Reading.refl (h : s.Wf) : s.Reading s := ⟨h, rfl, rfl, rfl⟩

theorem Reading.trans (h : s.Reading s') (h' : s'.Reading s'') : s.Reading s'' :=
  ⟨h'.wf, h'.store_eq.trans h.store_eq, h'.lastBlock_eq.trans h.lastBlock_eq,
    h'.lastPos_eq.trans h.lastPos_eq⟩

theorem Reading.blks_eq (h : s.Reading s') : s'.blks = s.blks := by
  rw [blks, h.store_eq, blks]

theorem Reading.lenGet_eq (h : s.Reading s') : s'.lenGet = s.lenGet := by
  rw [lenGet, h.store_eq, h.lastBlock_eq, h.lastPos_eq, lenGet]

theorem Reading.octets_eq (h : s.Reading s') : s'.octets = s.octets := by
  rw [octets, h.blks_eq, h.lenGet_eq, octets]

theorem reading_arrayRd (h : s.Wf) (len : ℕ) : s.Reading (s.arrayRd len).2 := by
  simp only [arrayRd, arrayRdChunks]
  split_ifs
  · exact Reading.refl h
  · obtain ⟨-, hwf, hstore, hlb, hlp, -⟩ := arrayRdLoop_spec s len h
    exact ⟨hwf, hstore, hlb, hlp⟩
  · exact Reading.refl h

omit [LawfulBlockStore β] in
/-- `Read` into a buffer reads an array, or nothing. -/
theorem readBuf_stream (s : StreamBase β) (m : MemPools) (buf : Buffer) (len : ℕ) :
    (∃ length, (s.readBuf m buf len).2.2 = (s.arrayRd length).2) ∨ (s.readBuf m buf len).2.2 = s := by
  rw [readBuf]
  dsimp only
  generalize (if len < s.lenGet then len else s.lenGet) = length
  generalize (if buf.size < length then buf.resize m length else (true, buf)) = r
  split_ifs
  · exact .inl ⟨length, rfl⟩
  · exact .inr rfl

theorem reading_readBuf (h : s.Wf) (m : MemPools) (buf : Buffer) (len : ℕ) :
    s.Reading (s.readBuf m buf len).2.2 := by
  rcases s.readBuf_stream m buf len with ⟨length, heq⟩ | heq
  · exact heq ▸ reading_arrayRd h length
  · exact heq.symm ▸ Reading.refl h

theorem reading_seek (h : s.Wf) (p : ℕ) : s.Reading (s.seek p).2 := by
  by_cases hb : s.blks = []
  · have hvalid : validBlock s.store 0 = false := by
      rw [LawfulBlockStore.validBlock_eq h.ready]
      simpa [blks] using hb
    rw [seek, seekLoop, hvalid]
    simpa using Reading.refl h
  · obtain ⟨-, hd⟩ := seekLoop_spec (p := p) h hb _ s 0 rfl (Nat.zero_le _) rfl rfl rfl
      (by simp [sizeBefore])
    exact ⟨hd.wf h, hd.store_eq, hd.lastBlock_eq, hd.lastPos_eq⟩

/-- The start of a stream with storage. -/
theorem Wf.seek_zero (h : s.Wf) (hb : s.blks ≠ []) :
    s.seek 0 = (true, { s with curBlock := 0, curPos := 0 }) := by
  have hvalid : validBlock s.store 0 = true := by
    rw [LawfulBlockStore.validBlock_eq h.ready]
    simpa [blks, List.length_pos_iff] using hb
  rw [seek, seekLoop, hvalid]
  simp

/-- **Where reading has led to does not matter** once the stream is read from its start. -/
theorem Reading.seek_zero (h : s.Reading s') (hs : s.Wf) (hb : s.blks ≠ []) :
    s'.seek 0 = s.seek 0 := by
  rw [h.wf.seek_zero (by rwa [h.blks_eq]), hs.seek_zero hb, h.store_eq, h.lastBlock_eq,
    h.lastPos_eq]

/-- What is left to read of a stream. -/
theorem Wf.hasRest (h : s.Wf) : s.HasRest (s.octets.drop s.pos) := by
  refine ⟨⟨s.octets, s.pos, decide (s.blks ≠ []), ?_, ?_⟩, ⟨h, rfl, rfl, by simp⟩, rfl⟩
  · rw [h.length_octets]
    exact h.pos_le
  · intro hb
    have hnil : s.blks = [] := by simpa using hb
    rw [octets, hnil]
    exact List.take_nil

theorem HasRest.drop_octets {r : List UInt8} (h : s.HasRest r) : s.octets.drop s.pos = r := by
  obtain ⟨f, hrep, rfl⟩ := h
  rw [hrep.octets_eq, hrep.pos_eq, FlatStream.rest]

end StreamBase

namespace SerDesNative

variable {α δ : Type}

/-- The function extracts by reading only. -/
def Keeps (g : Extract β α) : Prop :=
  ∀ ⦃s : StreamBase β⦄, s.Wf → s.Reading (g.run s).2

omit [BlockStore β] [LawfulBlockStore β] in
theorem run_bind (g : Extract β α) (h : α → Extract β δ) (s : StreamBase β) :
    (g >>= h).run s = match g.run s with
      | (some a, t) => (h a).run t
      | (none, t) => (none, t) := by
  rw [OptionT.run_bind, Option.elimM]
  change StateT.bind g.run _ s = _
  rw [StateT.bind]
  rcases g.run s with ⟨_ | a, t⟩ <;> rfl

theorem keeps_pure (a : α) : Keeps (pure a : Extract β α) := fun _ hs => .refl hs

theorem keeps_failure : Keeps (failure : Extract β α) := fun _ hs => .refl hs

theorem Keeps.bind {g : Extract β α} {h : α → Extract β δ} (hg : Keeps g)
    (hh : ∀ a, Keeps (h a)) : Keeps (g >>= h) := by
  intro s hs
  have hread := hg hs
  rw [run_bind]
  rcases hrun : g.run s with ⟨_ | a, t⟩
  · rw [hrun] at hread
    exact hread
  · rw [hrun] at hread
    exact hread.trans (hh a hread.wf)

theorem Keeps.map {g : Extract β α} (hg : Keeps g) (h : α → δ) : Keeps (h <$> g) :=
  hg.bind fun a => keeps_pure (h a)

theorem keeps_octetExtract : Keeps (octetExtract : Extract β UInt8) :=
  fun _ hs => StreamBase.reading_arrayRd hs 1

theorem keeps_octetsExtract (n : ℕ) : Keeps (octetsExtract n : Extract β (List UInt8)) := by
  induction n with
  | zero => exact keeps_pure []
  | succ n ih => exact keeps_octetExtract.bind fun ch => ih.bind fun l => keeps_pure (ch :: l)

theorem keeps_wordExtract (le : Bool) (w : ℕ) : Keeps (wordExtract le w : Extract β ℕ) :=
  (keeps_octetsExtract w).bind fun l => keeps_pure (ofHost le (if le then l.reverse else l))

theorem keeps_lenExtract (le : Bool) : Keeps (lenExtract le : Extract β ℕ) := by
  refine keeps_octetExtract.bind fun ch => ?_
  split_ifs
  · exact keeps_pure _
  · exact keeps_octetExtract.bind fun hi => keeps_octetExtract.bind fun lo => keeps_pure _
  · exact keeps_wordExtract le 4
  · exact keeps_failure

theorem keeps_stringExtract (le : Bool) (m : MemPools) :
    Keeps (stringExtract le m : Extract β (List UInt8)) := by
  refine (keeps_lenExtract le).bind fun len => ?_
  split_ifs
  · dsimp only
    split_ifs
    · exact fun s hs => StreamBase.reading_readBuf hs m _ len
    · exact keeps_failure
  · exact keeps_pure []

theorem keeps_blobExtract (le : Bool) (m : MemPools) :
    Keeps (blobExtract le m : Extract β Buffer) := by
  refine (keeps_lenExtract le).bind fun len => ?_
  split_ifs
  · dsimp only
    split_ifs
    · exact fun s hs => StreamBase.reading_readBuf hs m _ len
    · exact keeps_failure
  · exact keeps_pure _

/-- **The extraction of a value only reads**, whatever its type. -/
theorem keeps_variantExtract (le : Bool) (m : MemPools) (var : Variant) (type : DataType) :
    Keeps (variantExtract le m var type : Extract β Variant) := by
  cases type with
  | uint8 => exact keeps_octetExtract.bind fun val => keeps_pure _
  | int8 => exact keeps_octetExtract.bind fun val => keeps_pure _
  | uint16 => exact (keeps_wordExtract le 2).map _
  | int16 => exact (keeps_wordExtract le 2).map _
  | uint32 => exact (keeps_wordExtract le 4).map _
  | int32 => exact (keeps_wordExtract le 4).map _
  | uint64 => exact (keeps_wordExtract le 8).map _
  | int64 => exact (keeps_wordExtract le 8).map _
  | float32 => exact (keeps_wordExtract le 4).map _
  | float64 => exact (keeps_wordExtract le 8).map _
  | bool => exact keeps_octetExtract.bind fun ch => keeps_pure _
  | string => exact (keeps_stringExtract le m).map _
  | blob => exact (keeps_blobExtract le m).map _
  | none => exact keeps_pure _
  | inert => exact keeps_failure
  | datumList => exact keeps_failure

theorem keeps_attribExtract (le : Bool) (m : MemPools) (var : Variant) :
    Keeps (attribExtract le m var : Extract β Variant) := by
  refine keeps_octetExtract.bind fun ch => ?_
  cases DataType.ofOctet ch with
  | none => exact keeps_failure
  | some type => exact keeps_variantExtract le m var type

theorem keeps_decodeIdent : Keeps (decodeIdent : Extract β Unit) := by
  refine keeps_octetExtract.bind fun ch => ?_
  split_ifs
  · refine keeps_octetExtract.bind fun ch => ?_
    split_ifs
    · exact keeps_pure ()
    · exact keeps_failure
  · exact keeps_failure

theorem keeps_decodeVersion : Keeps (decodeVersion : Extract β Unit) :=
  keeps_octetExtract.bind fun _ => keeps_pure ()

/-! ### Extraction from what is left -/

/-- An octet is extracted unless nothing is left. -/
theorem run_octetExtract {s : StreamBase β} {r : List UInt8} (h : s.HasRest r) :
    ∃ s', octetExtract.run s = (r.head?, s') ∧ s'.HasRest r.tail := by
  obtain ⟨f, hrep, rfl⟩ := h
  obtain ⟨hd, hrep'⟩ := hrep.arrayRd 1
  refine ⟨(s.arrayRd 1).2, ?_, _, hrep', ?_⟩
  · change ((s.arrayRd 1).1.head?, (s.arrayRd 1).2) = _
    rw [hd, FlatStream.read]
    cases f.rest <;> rfl
  · rw [f.rest_read, List.drop_one]

/-- Octets are extracted unless too few are left. -/
theorem run_octetsExtract (n : ℕ) {s : StreamBase β} {r : List UInt8} (h : s.HasRest r) :
    if n ≤ r.length then
      ∃ s', (octetsExtract n).run s = (some (r.take n), s') ∧ s'.HasRest (r.drop n)
    else ((octetsExtract n).run s).1 = none := by
  induction n generalizing s r with
  | zero => exact (if_pos (Nat.zero_le _)).mpr ⟨s, rfl, h⟩
  | succ n ih =>
      obtain ⟨s₁, hrun, hrest⟩ := run_octetExtract h
      rw [octetsExtract, run_bind, hrun]
      cases r with
      | nil => exact (if_neg (by simp)).mpr rfl
      | cons ch r =>
          have hih := ih hrest
          simp only [List.head?_cons, run_bind, List.length_cons, Nat.add_le_add_iff_right]
          rw [List.tail_cons] at hih
          split_ifs with hn
          · rw [if_pos hn] at hih
            obtain ⟨s₂, hrun₂, hrest₂⟩ := hih
            refine ⟨s₂, ?_, hrest₂⟩
            rw [hrun₂]
            rfl
          · rw [if_neg hn] at hih
            rcases hrun₂ : (octetsExtract n).run s₁ with ⟨_ | l, s₂⟩
            · rfl
            · rw [hrun₂] at hih
              exact nomatch hih

/-! ### The loop over the elements -/

variable {le : Bool} {m : MemPools}

omit [BlockStore β] [LawfulBlockStore β] in
theorem stream_modifyRef (st : DecodeState β) (r : DatumRef) (f : Datum → Datum) :
    (st.modifyRef r f).stream = st.stream := by
  cases r <;> rfl

omit [BlockStore β] [LawfulBlockStore β] in
theorem stream_decodeDat (st : DecodeState β) : (decodeDat le m st).stream = st.stream := by
  rw [decodeDat]
  split_ifs
  · rfl
  · exact stream_modifyRef st _ _

omit [BlockStore β] [LawfulBlockStore β] in
theorem stream_decodeDatEnd (st : DecodeState β) : (decodeDatEnd st).stream = st.stream := by
  rw [decodeDatEnd]
  split <;> rfl

/-- A pass through the loop only reads. -/
theorem reading_decodeStep (le : Bool) (m : MemPools) {st : DecodeState β} (h : st.stream.Wf) :
    st.stream.Reading (decodeStep le m st).2.stream := by
  have hread := keeps_octetExtract h
  rw [decodeStep]
  rcases hrun : octetExtract.run st.stream with ⟨_ | ch, s⟩
  · rw [hrun] at hread
    exact hread
  · rw [hrun] at hread
    dsimp only
    split_ifs
    · exact hread
    · exact (stream_decodeDat { st with stream := s }).symm ▸ hread
    · exact (stream_decodeDatEnd { st with stream := s }).symm ▸ hread
    · exact hread
    · cases tagMap ch with
      | none => exact hread
      | some attrib =>
          have hattr := keeps_attribExtract le m st.var hread.wf
          dsimp only [decodeAttrib]
          rcases hrun' : (attribExtract le m st.var).run s with ⟨_ | var, s'⟩
          · rw [hrun'] at hattr
            exact hread.trans hattr
          · rw [hrun'] at hattr
            rw [stream_modifyRef]
            exact hread.trans hattr

/-- **The loop only reads.** -/
theorem reading_decodeLoop {st : DecodeState β} {r : Bool × DecodeState β}
    (hrun : st.decodeLoop le m = some r) (h : st.stream.Wf) :
    st.stream.Reading r.2.stream := by
  refine DecodeState.decodeLoop.partial_correctness le m
    (fun st r => st.stream.Wf → st.stream.Reading r.2.stream) ?_ st r hrun h
  intro loop ih st r hrun h
  have hread := reading_decodeStep le m h
  rcases hstep : decodeStep le m st with ⟨_ | _ | _, st'⟩
  · rw [hstep] at hread hrun
    exact hread.trans (ih st' r hrun hread.wf)
  · rw [hstep] at hread hrun
    obtain rfl := Option.some.inj hrun
    exact hread
  · rw [hstep] at hread hrun
    obtain rfl := Option.some.inj hrun
    exact hread

end SerDesNative

end CodePort
