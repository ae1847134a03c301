/-
What the encoder reports.

The encoder of a datum adds up how many of its calls to the serializer have succeeded, and takes any
number but zero for a success.  So a call that fails, because a value has no encoding or because the
stream does not take all the octets, is covered up by the others.

Main definitions:

* `CodePort.Datum.encodeTrace` — the results of all the calls to the serializer, one after another;
* `CodePort.StreamBase.writeAll` — a stream takes some arrays completely;
* `CodePort.Datum.Every` — every attribute in a tree has some property;
* `CodePort.SerDesNative.Asks` — a function succeeds exactly if a condition holds and the stream takes
  the given arrays completely.

Main results:

* `CodePort.Datum.encodeTrace_iff` — **when every call succeeds**;
* `CodePort.SerDesNative.package_taken_iff` — when the decoder takes what has been written;
* `CodePort.native_encode_reports_iff` — both, for every encoding that is reported as a success.
-/

import CodePort.NativeResult

set_option relaxedAutoImplicit false
set_option autoImplicit false

namespace CodePort

open Octets PrefixParser

/-! ### The calls to the serializer -/

namespace Datum

open SerDesNative

variable {β : Type} [BlockStore β]

mutual

/-- The calls that encode a datum and its sub-data, and what they return. -/
def encodeCalls (le : Bool) (m : MemPools) : Datum → StreamBase β → Option (List Bool × StreamBase β)
  | ⟨isInert, self, attribs, iterData, datums⟩, s => do
      let (started, s) ← start le m ⟨isInert, self, attribs, iterData, datums⟩ s
      let (calls, s) ← encodeCallsAll le m datums s
      let (ended, s) ← end' s
      pure (started :: calls ++ [ended], s)

/-- The calls that encode a list of data. -/
def encodeCallsAll (le : Bool) (m : MemPools) :
    List Datum → StreamBase β → Option (List Bool × StreamBase β)
  | [], s => some ([], s)
  | d :: ds, s => do
      let (calls, s) ← encodeCalls le m d s
      let (more, s) ← encodeCallsAll le m ds s
      pure (calls ++ more, s)

end

mutual

/-- What the encoder adds up is the number of calls that succeed. -/
theorem encodeDatum_eq_count (le : Bool) (m : MemPools) : ∀ (d : Datum) (s : StreamBase β),
    d.encodeDatum le m s = (d.encodeCalls le m s).map fun r => (r.1.count true, r.2)
  | ⟨isInert, self, attribs, iterData, datums⟩, s => by
      rw [encodeDatum, encodeCalls]
      cases hstart : start le m ⟨isInert, self, attribs, iterData, datums⟩ s with
      | none => rfl
      | some r =>
          obtain ⟨started, s₁⟩ := r
          simp only [Option.bind_eq_bind, Option.bind_some, encodeDatums_eq_count le m datums s₁]
          cases hcalls : encodeCallsAll le m datums s₁ with
          | none => rfl
          | some r =>
              obtain ⟨calls, s₂⟩ := r
              simp only [Option.map_some, Option.bind_some]
              cases hend : (end' : Insert β) s₂ with
              | none => rfl
              | some r =>
                  obtain ⟨ended, s₃⟩ := r
                  simp only [Option.bind_some, Option.pure_def, Option.map_some]
                  have hcount : (started :: calls ++ [ended]).count true =
                      started.toNat + calls.count true + ended.toNat := by
                    cases started <;> cases ended <;> simp [List.count_append] <;> omega
                  rw [hcount]

theorem encodeDatums_eq_count (le : Bool) (m : MemPools) : ∀ (ds : List Datum) (s : StreamBase β),
    encodeDatums le m ds s = (encodeCallsAll le m ds s).map fun r => (r.1.count true, r.2)
  | [], _ => rfl
  | d :: ds, s => by
      rw [encodeDatums, encodeCallsAll, encodeDatum_eq_count le m d s]
      cases hhead : encodeCalls le m d s with
      | none => rfl
      | some r =>
          obtain ⟨calls, s₁⟩ := r
          simp only [Option.map_some, Option.bind_eq_bind, Option.bind_some,
            encodeDatums_eq_count le m ds s₁]
          cases htail : encodeCallsAll le m ds s₁ with
          | none => rfl
          | some r =>
              obtain ⟨more, s₂⟩ := r
              simp only [Option.map_some, Option.bind_some, Option.pure_def, List.count_append]

end

/-- The calls that encode a package: `Open`, and if it succeeds `Start` and `End` of every datum, and
if one of these succeeds `Close`. -/
def encodeTrace (le : Bool) (m : MemPools) (dat : Datum) (s : StreamBase β) :
    Option (List Bool × StreamBase β) := do
  let (opened, s) ← «open» datumVersion s
  if opened then
    let (calls, s) ← dat.encodeCalls le m s
    if true ∈ calls then
      let (closed, s) ← close le .none s
      pure (true :: calls ++ [closed], s)
    else pure (true :: calls, s)
  else pure ([false], s)

/-- An encoding that is reported as a success has made all these calls. -/
theorem exists_encodeTrace {le : Bool} {m : MemPools} {dat : Datum} {s s' : StreamBase β}
    (h : dat.encode le m .none s = some (true, s')) :
    ∃ calls, dat.encodeTrace le m s = some (calls, s') := by
  rw [encode] at h
  split_ifs at h
  · cases h
  · rw [encodeTrace]
    rw [Insert.both] at h
    cases hopen : (SerDesNative.open datumVersion : Insert β) s with
    | none =>
        rw [hopen] at h
        cases h
    | some r =>
        obtain ⟨opened, s₁⟩ := r
        rw [hopen, Option.bind_some] at h
        simp only [Option.bind_eq_bind, Option.bind_some]
        cases opened with
        | false => cases h
        | true =>
            simp only [if_true, Insert.both, encodeDatum_eq_count, Option.map_map] at h ⊢
            cases hcalls : dat.encodeCalls le m s₁ with
            | none =>
                rw [hcalls] at h
                cases h
            | some r =>
                obtain ⟨calls, s₂⟩ := r
                have hcount : decide (calls.count true ≠ 0) = decide (true ∈ calls) := by
                  rw [decide_eq_decide, Ne, List.count_eq_zero, not_not]
                rw [hcalls, Option.map_some, Option.bind_some] at h
                simp only [Function.comp_apply, hcount, decide_eq_true_eq] at h
                rw [Option.bind_some]
                by_cases hmem : true ∈ calls
                · rw [if_pos hmem] at h ⊢
                  rw [h, Option.bind_some]
                  exact ⟨_, rfl⟩
                · rw [if_neg hmem] at h
                  cases h

end Datum

/-! ### Complete writes -/

namespace StreamBase

variable {β : Type} [BlockStore β]

/-- The stream takes the arrays one after another, each of them completely. -/
def writeAll : List (List UInt8) → StreamBase β → Option (StreamBase β)
  | [], s => some s
  | d :: ds, s => (s.arrayWr d).bind fun r => if r.1 = d.length then writeAll ds r.2 else none

theorem writeAll_append (ds es : List (List UInt8)) (s : StreamBase β) :
    writeAll (ds ++ es) s = (writeAll ds s).bind (writeAll es) := by
  induction ds generalizing s with
  | nil => rfl
  | cons d ds ih =>
      rw [List.cons_append, writeAll, writeAll]
      cases s.arrayWr d with
      | none => rfl
      | some r =>
          rw [Option.bind_some, Option.bind_some]
          split_ifs
          · exact ih r.2
          · rfl

/-- A stream whose store always has another block takes everything. -/
theorem exists_writeAll {γ : Type} [BlockStore γ] [LawfulBlockStore γ] {s : StreamBase γ}
    {f : FlatStream UInt8} (h : s.Represents f) (ds : List (List UInt8)) :
    ∃ s', writeAll ds s = some s' := by
  induction ds generalizing s f with
  | nil => exact ⟨s, rfl⟩
  | cons d ds ih =>
      obtain ⟨s₁, hrun, hrep, -⟩ := h.arrayWr d
      obtain ⟨s', hall⟩ := ih hrep
      exact ⟨s', by rw [writeAll, hrun, Option.bind_some, if_pos rfl, hall]⟩

end StreamBase

namespace SerDesNative

variable {β : Type} [BlockStore β]

/-- The function succeeds exactly if the condition holds and the stream takes the arrays. -/
def Asks (g : Insert β) (c : Prop) (ds : List (List UInt8)) : Prop :=
  ∀ s s', g s = some (true, s') ↔ c ∧ StreamBase.writeAll ds s = some s'

theorem asks_done : Asks (Insert.done true : Insert β) True [] := by
  intro s s'
  rw [Insert.done, StreamBase.writeAll, Option.some_inj, Option.some_inj, Prod.mk.injEq]
  exact ⟨fun h => ⟨trivial, h.2⟩, fun h => ⟨rfl, h.2⟩⟩

theorem asks_refused (ds : List (List UInt8)) : Asks (Insert.done false : Insert β) False ds := by
  intro s s'
  rw [Insert.done, Option.some_inj, Prod.mk.injEq, false_and]
  exact ⟨fun h => absurd h.1 Bool.false_ne_true, False.elim⟩

theorem Asks.both {f g : Insert β} {c c' : Prop} {ds es : List (List UInt8)} (hf : Asks f c ds)
    (hg : Asks g c' es) : Asks (f.both g) (c ∧ c') (ds ++ es) := by
  intro s s'
  rw [Insert.both, StreamBase.writeAll_append]
  constructor
  · intro h
    obtain ⟨⟨rv, s₁⟩, hrun, h⟩ := Option.bind_eq_some_iff.1 h
    cases rv with
    | false => cases h
    | true =>
        obtain ⟨hc, hall⟩ := (hf s s₁).1 hrun
        obtain ⟨hc', hall'⟩ := (hg s₁ s').1 h
        exact ⟨⟨hc, hc'⟩, by rw [hall, Option.bind_some, hall']⟩
  · rintro ⟨⟨hc, hc'⟩, h⟩
    obtain ⟨s₁, hall, hall'⟩ := Option.bind_eq_some_iff.1 h
    rw [(hf s s₁).2 ⟨hc, hall⟩, Option.bind_some, if_pos rfl]
    exact (hg s₁ s').2 ⟨hc', hall'⟩

theorem Asks.congr {g : Insert β} {c c' : Prop} {ds : List (List UInt8)} (hg : Asks g c ds)
    (hc : c ↔ c') : Asks g c' ds := by
  intro s s'
  rw [← hc]
  exact hg s s'

/-- A function that writes one array. -/
theorem asks_arrayWr (d : List UInt8) (n : ℕ) (hn : n = d.length) :
    Asks (fun s => (s.arrayWr d).map fun r => (decide (r.1 = n), r.2) : Insert β) True [d] := by
  subst hn
  intro s s'
  rw [StreamBase.writeAll, true_and, Option.map_eq_some_iff, Option.bind_eq_some_iff]
  constructor
  · rintro ⟨r, hrun, heq⟩
    obtain ⟨hlen, rfl⟩ := Prod.mk.inj heq
    exact ⟨r, hrun, by rw [if_pos (of_decide_eq_true hlen)]; rfl⟩
  · rintro ⟨r, hrun, hrest⟩
    split_ifs at hrest with hlen
    obtain rfl := Option.some.inj hrest
    exact ⟨r, hrun, by rw [decide_eq_true hlen]⟩

/-- Octets one by one. -/
def singles (l : List UInt8) : List (List UInt8) := l.map fun ch => [ch]

theorem asks_octetInsert (ch : UInt8) : Asks (octetInsert ch : Insert β) True [[ch]] :=
  asks_arrayWr [ch] 1 rfl

theorem asks_octetsInsert (l : List UInt8) : Asks (octetsInsert l : Insert β) True (singles l) := by
  induction l with
  | nil => exact asks_done
  | cons ch l ih => exact ((asks_octetInsert ch).both ih).congr (and_self_iff)

theorem asks_wordInsert (le : Bool) (w val : ℕ) :
    Asks (wordInsert le w val : Insert β) True (singles (toBE w val)) := by
  simp only [wordInsert, toHost_of_order]
  exact asks_octetsInsert _

theorem asks_lenInsert (le : Bool) (len : ℕ) :
    Asks (lenInsert le len : Insert β) True (singles (lenOctets len)) := by
  rw [lenInsert, lenOctets]
  split_ifs with h₁ h₂
  · exact asks_octetInsert _
  · obtain ⟨hhi, hlo⟩ := ofNat_shortword len
    rw [hhi, hlo]
    exact ((asks_octetInsert _).both (((asks_octetInsert _).both (asks_octetInsert _)).congr
      and_self_iff)).congr and_self_iff
  · exact ((asks_octetInsert _).both (asks_wordInsert le 4 len)).congr and_self_iff

/-- The arrays that a value is written in. -/
def valuePieces : Value → List (List UInt8)
  | .text s => singles (lenOctets s.length) ++ [s]
  | .blob d => singles (lenOctets d.length) ++ [d]
  | x => singles (valueOctets x)

end SerDesNative

/-- The values whose type has an encoding. -/
def Variant.Insertable (v : Variant) : Prop := v.type ≠ .inert ∧ v.type ≠ .datumList

namespace SerDesNative

variable {β : Type} [BlockStore β]

/-- **A value is inserted** if its type has an encoding and the stream takes the octets. -/
theorem asks_valueInsert (le : Bool) (m : MemPools) (v : Variant) :
    Asks (valueInsert le m v : Insert β) v.Insertable (valuePieces (v.value le)) := by
  obtain ⟨type, buf⟩ := v
  have hnum := fun w => numAt_mod le ⟨type, buf⟩ w
  have hbyte : ∀ n, Asks (octetInsert (UInt8.ofNat n) : Insert β) True (singles (toBE 1 n)) := by
    intro n
    have hn : toBE 1 n = [UInt8.ofNat n] := by simp [toBE]
    rw [hn]
    exact asks_octetInsert _
  have hgood : ∀ {g : Insert β} {ds}, Asks g True ds → type ≠ .inert → type ≠ .datumList →
      Asks g (Variant.Insertable ⟨type, buf⟩) ds := by
    intro g ds hg h₁ h₂
    exact hg.congr (iff_of_true trivial ⟨h₁, h₂⟩)
  cases type with
  | uint8 =>
      simp only [valueInsert, Variant.uint8Get, Variant.uint64Get, hnum 1]
      exact hgood (hbyte _) (by rintro ⟨⟩) (by rintro ⟨⟩)
  | int8 =>
      simp only [valueInsert, Variant.int8Get, Variant.uint64Get, hnum 1]
      exact hgood (hbyte _) (by rintro ⟨⟩) (by rintro ⟨⟩)
  | uint16 =>
      simp only [valueInsert, Variant.uint16Get, Variant.uint64Get, hnum 2]
      exact hgood (asks_wordInsert le 2 _) (by rintro ⟨⟩) (by rintro ⟨⟩)
  | int16 =>
      simp only [valueInsert, Variant.int16Get, Variant.uint64Get, hnum 2]
      exact hgood (asks_wordInsert le 2 _) (by rintro ⟨⟩) (by rintro ⟨⟩)
  | uint32 =>
      simp only [valueInsert, Variant.uint32Get, Variant.uint64Get, hnum 4]
      exact hgood (asks_wordInsert le 4 _) (by rintro ⟨⟩) (by rintro ⟨⟩)
  | int32 =>
      simp only [valueInsert, Variant.int32Get, Variant.uint64Get, hnum 4]
      exact hgood (asks_wordInsert le 4 _) (by rintro ⟨⟩) (by rintro ⟨⟩)
  | uint64 => exact hgood (asks_wordInsert le 8 _) (by rintro ⟨⟩) (by rintro ⟨⟩)
  | int64 => exact hgood (asks_wordInsert le 8 _) (by rintro ⟨⟩) (by rintro ⟨⟩)
  | float32 => exact hgood (asks_wordInsert le 4 _) (by rintro ⟨⟩) (by rintro ⟨⟩)
  | float64 => exact hgood (asks_wordInsert le 8 _) (by rintro ⟨⟩) (by rintro ⟨⟩)
  | bool =>
      simp only [valueInsert, Variant.boolGet, Variant.value, valuePieces, valueOctets]
      exact hgood (asks_octetInsert _) (by rintro ⟨⟩) (by rintro ⟨⟩)
  | string =>
      exact hgood (((asks_lenInsert le _).both (asks_arrayWr _ _ rfl)).congr and_self_iff)
        (by rintro ⟨⟩) (by rintro ⟨⟩)
  | blob =>
      have htake : buf.data.take buf.lenGet = buf.data :=
        List.take_of_length_le buf.length_data.le
      have hwrite : Asks (fun s => (s.writeBuf buf buf.lenGet).map fun r =>
          (decide (r.1 = buf.lenGet), r.2) : Insert β) True [buf.data] := by
        simp only [StreamBase.writeBuf, htake]
        exact asks_arrayWr _ _ buf.length_data.symm
      have hpieces : valuePieces (Variant.value le ⟨.blob, buf⟩) =
          singles (lenOctets buf.lenGet) ++ [buf.data] := by
        rw [Buffer.lenGet, ← buf.length_data]
        rfl
      rw [hpieces]
      exact hgood (((asks_lenInsert le buf.lenGet).both hwrite).congr and_self_iff)
        (by rintro ⟨⟩) (by rintro ⟨⟩)
  | none => exact hgood asks_done (by rintro ⟨⟩) (by rintro ⟨⟩)
  | inert => exact (asks_refused _).congr (iff_of_false id fun h => h.1 rfl)
  | datumList => exact (asks_refused _).congr (iff_of_false id fun h => h.2 rfl)

/-- The arrays that the attributes of the given kinds are written in. -/
def attribsPieces (le : Bool) (dat : Datum) (as : List Attrib) : List (List UInt8) :=
  as.flatMap fun a => (dat.attribs a).elim [] fun v =>
    [attribMap a] :: [v.type.toOctet] :: valuePieces (v.value le)

theorem asks_attribsInsert (le : Bool) (m : MemPools) (dat : Datum) (as : List Attrib) :
    Asks (attribsInsert le m dat as : Insert β)
      (∀ a ∈ as, ∀ v, dat.attribs a = some v → v.Insertable) (attribsPieces le dat as) := by
  induction as with
  | nil => exact asks_done.congr (iff_of_true trivial fun a ha => absurd ha List.not_mem_nil)
  | cons a as ih =>
      rw [attribsInsert, List.foldr_cons, ← attribsInsert, attribsPieces, List.flatMap_cons,
        ← attribsPieces]
      cases ha : dat.attribs a with
      | none =>
          refine ih.congr ?_
          rw [List.forall_mem_cons, ha]
          exact ⟨fun h => ⟨fun v hv => (by cases hv), h⟩, fun h => h.2⟩
      | some v =>
          have hattr : Asks (attribInsert le m a v : Insert β) v.Insertable
              ([attribMap a] :: [v.type.toOctet] :: valuePieces (v.value le)) :=
            ((asks_octetInsert _).both (((asks_octetInsert _).both
              (asks_valueInsert le m v)).congr (iff_of_eq (true_and _)))).congr (iff_of_eq (true_and _))
          refine (hattr.both ih).congr ?_
          rw [List.forall_mem_cons, ha]
          exact ⟨fun h => ⟨fun u hu => Option.some.inj hu ▸ h.1, h.2⟩, fun h => ⟨h.1 v rfl, h.2⟩⟩

end SerDesNative

mutual

/-- Every attribute in the tree has the property. -/
def Datum.Every (P : Attrib → Variant → Prop) : Datum → Prop
  | ⟨_, _, attribs, _, datums⟩ =>
      (∀ a v, attribs a = some v → P a v) ∧ Datum.AllEvery P datums

/-- So has every attribute in the trees of a list. -/
def Datum.AllEvery (P : Attrib → Variant → Prop) : List Datum → Prop
  | [] => True
  | d :: ds => d.Every P ∧ Datum.AllEvery P ds

end

namespace SerDesNative

mutual

/-- The arrays that a datum is written in. -/
def datumPieces (le : Bool) : Datum → List (List UInt8)
  | ⟨isInert, self, attribs, iterData, datums⟩ =>
      [mkDat] :: (attribsPieces le ⟨isInert, self, attribs, iterData, datums⟩ Attrib.all ++
        (datumsPieces le datums ++ [[mkDatEnd]]))

/-- The arrays that a list of data is written in. -/
def datumsPieces (le : Bool) : List Datum → List (List UInt8)
  | [] => []
  | d :: ds => datumPieces le d ++ datumsPieces le ds

end

/-- The arrays that a package is written in. -/
def packagePieces (le : Bool) (dat : Datum) : List (List UInt8) :=
  [mkMagic] :: [mkPkg] :: [Datum.datumVersion] :: (datumPieces le dat ++ [[mkPkgEnd]])

end SerDesNative

namespace Datum

open SerDesNative

variable {β : Type} [BlockStore β]

theorem asks_start (le : Bool) (m : MemPools) (dat : Datum) :
    Asks (start le m dat : Insert β) (∀ a v, dat.attribs a = some v → v.Insertable)
      ([mkDat] :: attribsPieces le dat Attrib.all) := by
  refine ((asks_octetInsert mkDat).both (asks_attribsInsert le m dat Attrib.all)).congr ?_
  rw [true_and]
  exact ⟨fun h a v hv => h a (Attrib.mem_all a) v hv, fun h a _ v hv => h a v hv⟩

/-- The first call and the last one could insert, and so could all between them. -/
theorem all_true_framed {more : List Bool} (h : ∀ c ∈ more, c = true) :
    ∀ c ∈ true :: more ++ [true], c = true := by
  intro c hc
  simp only [List.mem_append, List.mem_cons, List.not_mem_nil, or_false] at hc
  rcases hc with (rfl | hc) | rfl
  · rfl
  · exact h c hc
  · rfl

mutual

/-- **Every call succeeds for a datum** exactly if all its values can be encoded and the stream takes
everything. -/
theorem encodeCalls_iff (le : Bool) (m : MemPools) : ∀ (d : Datum) (s s' : StreamBase β),
    (∃ calls, d.encodeCalls le m s = some (calls, s') ∧ ∀ c ∈ calls, c = true) ↔
      d.Every (fun _ v => v.Insertable) ∧ StreamBase.writeAll (datumPieces le d) s = some s'
  | ⟨isInert, self, attribs, iterData, datums⟩, s, s' => by
      have hstart := asks_start (β := β) le m ⟨isInert, self, attribs, iterData, datums⟩
      have hend := asks_octetInsert (β := β) mkDatEnd
      rw [Every, datumPieces, ← List.cons_append, StreamBase.writeAll_append,
        Option.bind_eq_some_iff]
      simp only [encodeCalls, Option.bind_eq_bind, Option.bind_eq_some_iff, Option.pure_def,
        Option.some_inj, Prod.mk.injEq, StreamBase.writeAll_append]
      constructor
      · rintro ⟨calls, ⟨⟨started, s₁⟩, hs, ⟨more, s₂⟩, hm, ⟨ended, s₃⟩, he, rfl, rfl⟩, hall⟩
        obtain rfl := hall started List.mem_cons_self
        obtain rfl := hall ended (List.mem_append_right _ (List.mem_singleton_self ended))
        obtain ⟨hgood, hw₁⟩ := (hstart s s₁).1 hs
        obtain ⟨hgood', hw₂⟩ := (encodeCallsAll_iff le m datums s₁ s₂).1
          ⟨more, hm, fun c hc => hall c (List.mem_append_left _ (List.mem_cons_of_mem _ hc))⟩
        exact ⟨⟨hgood, hgood'⟩, s₁, hw₁, s₂, hw₂, ((hend s₂ s₃).1 he).2⟩
      · rintro ⟨⟨hgood, hgood'⟩, s₁, hw₁, s₂, hw₂, hw₃⟩
        obtain ⟨more, hm, hall⟩ := (encodeCallsAll_iff le m datums s₁ s₂).2 ⟨hgood', hw₂⟩
        refine ⟨_, ⟨(true, s₁), (hstart s s₁).2 ⟨hgood, hw₁⟩, (more, s₂), hm, (true, s'),
          (hend s₂ s').2 ⟨trivial, hw₃⟩, rfl, rfl⟩, ?_⟩
        exact all_true_framed hall

theorem encodeCallsAll_iff (le : Bool) (m : MemPools) : ∀ (ds : List Datum) (s s' : StreamBase β),
    (∃ calls, encodeCallsAll le m ds s = some (calls, s') ∧ ∀ c ∈ calls, c = true) ↔
      AllEvery (fun _ v => v.Insertable) ds ∧
        StreamBase.writeAll (datumsPieces le ds) s = some s'
  | [], s, s' => by
      rw [AllEvery, datumsPieces, StreamBase.writeAll, true_and, encodeCallsAll]
      constructor
      · rintro ⟨calls, h, -⟩
        rw [(Prod.mk.inj (Option.some.inj h)).2]
      · intro h
        rw [Option.some.inj h]
        exact ⟨[], rfl, fun c hc => absurd hc List.not_mem_nil⟩
  | d :: ds, s, s' => by
      rw [AllEvery, datumsPieces, StreamBase.writeAll_append, Option.bind_eq_some_iff]
      simp only [encodeCallsAll, Option.bind_eq_bind, Option.bind_eq_some_iff, Option.pure_def,
        Option.some_inj, Prod.mk.injEq]
      constructor
      · rintro ⟨calls, ⟨⟨head, s₁⟩, hh, ⟨tail, s₂⟩, ht, rfl, rfl⟩, hall⟩
        obtain ⟨hgood, hw₁⟩ := (encodeCalls_iff le m d s s₁).1
          ⟨head, hh, fun c hc => hall c (List.mem_append_left _ hc)⟩
        obtain ⟨hgood', hw₂⟩ := (encodeCallsAll_iff le m ds s₁ s₂).1
          ⟨tail, ht, fun c hc => hall c (List.mem_append_right _ hc)⟩
        exact ⟨⟨hgood, hgood'⟩, s₁, hw₁, hw₂⟩
      · rintro ⟨⟨hgood, hgood'⟩, s₁, hw₁, hw₂⟩
        obtain ⟨head, hh, hall⟩ := (encodeCalls_iff le m d s s₁).2 ⟨hgood, hw₁⟩
        obtain ⟨tail, ht, hall'⟩ := (encodeCallsAll_iff le m ds s₁ s').2 ⟨hgood', hw₂⟩
        refine ⟨_, ⟨(head, s₁), hh, (tail, s'), ht, rfl, rfl⟩, fun c hc => ?_⟩
        rcases List.mem_append.1 hc with hc | hc
        · exact hall c hc
        · exact hall' c hc

end

/-- At least one call is made for a datum, so if none fails there is a success. -/
theorem true_mem_of_encodeCalls {le : Bool} {m : MemPools} {d : Datum} {s s' : StreamBase β}
    {calls : List Bool} (h : d.encodeCalls le m s = some (calls, s'))
    (hall : ∀ c ∈ calls, c = true) : true ∈ calls := by
  obtain ⟨isInert, self, attribs, iterData, datums⟩ := d
  simp only [encodeCalls, Option.bind_eq_bind, Option.bind_eq_some_iff, Option.pure_def,
    Option.some_inj, Prod.mk.injEq] at h
  obtain ⟨⟨started, s₁⟩, -, ⟨more, s₂⟩, -, ⟨ended, s₃⟩, -, rfl, -⟩ := h
  obtain rfl := hall started List.mem_cons_self
  exact List.mem_cons_self

/-- **Every call succeeds for a package** exactly if all its values can be encoded and the stream takes
everything. -/
theorem encodeTrace_iff (le : Bool) (m : MemPools) (dat : Datum) (s s' : StreamBase β) :
    (∃ calls, dat.encodeTrace le m s = some (calls, s') ∧ ∀ c ∈ calls, c = true) ↔
      dat.Every (fun _ v => v.Insertable) ∧
        StreamBase.writeAll (packagePieces le dat) s.clear = some s' := by
  have hopen : Asks (fun t => ((octetInsert mkMagic).both ((octetInsert mkPkg).both
      (octetInsert datumVersion))) t : Insert β) True [[mkMagic], [mkPkg], [datumVersion]] :=
    ((asks_octetInsert _).both (((asks_octetInsert _).both (asks_octetInsert _)).congr
      and_self_iff)).congr and_self_iff
  have hclose : Asks (close le .none : Insert β) True [[mkPkgEnd]] :=
    ((asks_octetInsert mkPkgEnd).both asks_done).congr and_self_iff
  have hpieces : packagePieces le dat =
      [[mkMagic], [mkPkg], [datumVersion]] ++ (datumPieces le dat ++ [[mkPkgEnd]]) := rfl
  rw [hpieces, StreamBase.writeAll_append, Option.bind_eq_some_iff]
  simp only [encodeTrace, Option.bind_eq_bind, Option.bind_eq_some_iff,
    StreamBase.writeAll_append]
  constructor
  · rintro ⟨calls, ⟨⟨opened, s₁⟩, ho, h⟩, hall⟩
    cases opened with
    | false =>
        rw [if_neg Bool.false_ne_true] at h
        obtain ⟨rfl, -⟩ := Prod.mk.inj (Option.some.inj h)
        exact absurd (hall false (List.mem_singleton_self _)) Bool.false_ne_true
    | true =>
        rw [if_pos rfl, Option.bind_eq_some_iff] at h
        obtain ⟨⟨more, s₂⟩, hm, h⟩ := h
        dsimp only at h
        split_ifs at h with hmem
        · obtain ⟨⟨closed, s₃⟩, hc, h⟩ := Option.bind_eq_some_iff.1 h
          obtain ⟨rfl, rfl⟩ := Prod.mk.inj (Option.some.inj h)
          obtain rfl := hall closed (List.mem_append_right _ (List.mem_singleton_self closed))
          obtain ⟨hgood, hw⟩ := (encodeCalls_iff le m dat s₁ s₂).1
            ⟨more, hm, fun c hc => hall c (List.mem_append_left _ (List.mem_cons_of_mem _ hc))⟩
          exact ⟨hgood, s₁, ((hopen s.clear s₁).1 ho).2, s₂, hw, ((hclose s₂ s₃).1 hc).2⟩
        · obtain ⟨rfl, rfl⟩ := Prod.mk.inj (Option.some.inj h)
          exact absurd (true_mem_of_encodeCalls hm fun c hc =>
            hall c (List.mem_cons_of_mem _ hc)) hmem
  · rintro ⟨hgood, s₁, hw₁, s₂, hw₂, hw₃⟩
    obtain ⟨more, hm, hall⟩ := (encodeCalls_iff le m dat s₁ s₂).2 ⟨hgood, hw₂⟩
    refine ⟨true :: more ++ [true], ⟨(true, s₁), (hopen s.clear s₁).2 ⟨trivial, hw₁⟩, ?_⟩, ?_⟩
    · rw [if_pos rfl, Option.bind_eq_some_iff]
      refine ⟨(more, s₂), hm, ?_⟩
      dsimp only
      rw [if_pos (true_mem_of_encodeCalls hm hall), (hclose s₂ s').2 ⟨trivial, hw₃⟩]
      rfl
    · exact all_true_framed hall

end Datum

/-! ### What is written to a stream that takes everything -/

namespace SerDesNative

/-- The octets of the attributes of the given kinds, up to the first value without an encoding. -/
def attribsWritten (le : Bool) (dat : Datum) : List Attrib → List UInt8
  | [] => []
  | a :: as =>
      (dat.attribs a).elim (attribsWritten le dat as) fun v =>
        attribMap a :: v.type.toOctet ::
          if v.type = .inert ∨ v.type = .datumList then []
          else valueOctets (v.value le) ++ attribsWritten le dat as

mutual

/-- The octets of a datum, as far as it can be encoded. -/
def datumWritten (le : Bool) : Datum → List UInt8
  | ⟨isInert, self, attribs, iterData, datums⟩ =>
      mkDat :: (attribsWritten le ⟨isInert, self, attribs, iterData, datums⟩ Attrib.all ++
        (datumsWritten le datums ++ [mkDatEnd]))

def datumsWritten (le : Bool) : List Datum → List UInt8
  | [] => []
  | d :: ds => datumWritten le d ++ datumsWritten le ds

end

/-- The octets of a package, as far as the data can be encoded. -/
def packageWritten (le : Bool) (dat : Datum) : List UInt8 :=
  mkMagic :: mkPkg :: Datum.datumVersion :: (datumWritten le dat ++ [mkPkgEnd])

variable {β : Type} [BlockStore β] [LawfulBlockStore β]

theorem ends_attribsInsert (le : Bool) (m : MemPools) (dat : Datum) (as : List Attrib)
    {s : StreamBase β} {c : List UInt8} (h : s.Ends c) :
    ∃ rv s', attribsInsert le m dat as s = some (rv, s') ∧
      s'.Ends (c ++ attribsWritten le dat as) := by
  induction as generalizing s c with
  | nil => exact ⟨true, s, rfl, by rwa [attribsWritten, List.append_nil]⟩
  | cons a as ih =>
      rw [attribsInsert, List.foldr_cons, ← attribsInsert, attribsWritten]
      cases ha : dat.attribs a with
      | none => exact ih h
      | some v =>
          obtain ⟨s₁, hs₁, h₁⟩ := writes_octetInsert (attribMap a) h
          obtain ⟨s₂, hs₂, h₂⟩ := writes_octetInsert v.type.toOctet h₁
          simp only [Option.elim_some, Insert.both, attribInsert, hs₁, Option.bind_some, hs₂,
            if_true]
          rw [List.append_assoc] at h₂
          by_cases hbad : v.type = .inert ∨ v.type = .datumList
          · have hvalue : (valueInsert le m v : Insert β) = Insert.done false := by
              rw [valueInsert]
              rcases hbad with hty | hty <;> rw [hty]
            rw [if_pos hbad, hvalue]
            exact ⟨false, s₂, rfl, h₂⟩
          · obtain ⟨hinert, hlist⟩ := not_or.1 hbad
            obtain ⟨s₃, hs₃, h₃⟩ := writes_valueInsert_of_type le m hinert hlist h₂
            obtain ⟨rv, s₄, hs₄, h₄⟩ := ih h₃
            rw [if_neg hbad, hs₃, Option.bind_some, if_pos rfl]
            refine ⟨rv, s₄, hs₄, ?_⟩
            simpa only [List.append_assoc, List.cons_append, List.nil_append] using h₄

end SerDesNative

namespace Datum

open SerDesNative

variable {β : Type} [BlockStore β] [LawfulBlockStore β]

mutual

/-- **A datum is written as far as it can be encoded**, and at least one call succeeds. -/
theorem ends_encodeDatum (le : Bool) (m : MemPools) : ∀ (d : Datum) {s : StreamBase β}
    {c : List UInt8}, s.Ends c →
      ∃ n s', d.encodeDatum le m s = some (n, s') ∧ n ≠ 0 ∧ s'.Ends (c ++ datumWritten le d)
  | ⟨isInert, self, attribs, iterData, datums⟩, s, c, h => by
      obtain ⟨s₀, hs₀, h₀⟩ := writes_octetInsert mkDat h
      obtain ⟨rv, s₁, hs₁, h₁⟩ := ends_attribsInsert le m
        ⟨isInert, self, attribs, iterData, datums⟩ Attrib.all h₀
      obtain ⟨n, s₂, hs₂, h₂⟩ := ends_encodeDatums le m datums h₁
      obtain ⟨s₃, hs₃, h₃⟩ := writes_octetInsert mkDatEnd h₂
      refine ⟨rv.toNat + n + 1, s₃, ?_, Nat.succ_ne_zero _, ?_⟩
      · simp only [encodeDatum, start, Insert.both, hs₀, Option.bind_some, if_true, hs₁, hs₂, end',
          hs₃, Option.bind_eq_bind]
        rfl
      · rw [datumWritten]
        simpa only [List.append_assoc, List.cons_append, List.nil_append] using h₃

theorem ends_encodeDatums (le : Bool) (m : MemPools) : ∀ (ds : List Datum) {s : StreamBase β}
    {c : List UInt8}, s.Ends c →
      ∃ n s', encodeDatums le m ds s = some (n, s') ∧ s'.Ends (c ++ datumsWritten le ds)
  | [], s, c, h => ⟨0, s, rfl, by rwa [datumsWritten, List.append_nil]⟩
  | d :: ds, s, c, h => by
      obtain ⟨n, s₁, hs₁, -, h₁⟩ := ends_encodeDatum le m d h
      obtain ⟨k, s₂, hs₂, h₂⟩ := ends_encodeDatums le m ds h₁
      refine ⟨n + k, s₂, ?_, ?_⟩
      · simp only [encodeDatums, hs₁, hs₂, Option.bind_eq_bind, Option.bind_some]
        rfl
      · rwa [datumsWritten, ← List.append_assoc]

end

/-- **An active datum is always encoded successfully**, as it is reported. -/
theorem ends_encode_written (le : Bool) (m : MemPools) {dat : Datum} (hact : dat.isInert = false)
    {s : StreamBase β} {f : FlatStream UInt8} (h : s.Represents f) :
    ∃ s', dat.encode le m .none s = some (true, s') ∧ s'.Ends (packageWritten le dat) := by
  obtain ⟨t, ht, hends⟩ := ends_open datumVersion h
  obtain ⟨n, t', ht', hn, hends'⟩ := ends_encodeDatum le m dat hends
  have hend : Writes (close le .none : Insert β) [mkPkgEnd] := by
    have hdone := (writes_octetInsert (β := β) mkPkgEnd).both writes_done
    rwa [List.append_nil] at hdone
  obtain ⟨s', hs', hs''⟩ := hend hends'
  refine ⟨s', ?_, ?_⟩
  · rw [encode, if_neg (by simp [hact]), Insert.both, ht, Option.bind_some, if_pos rfl]
    simp [Insert.both, ht', hn, hs']
  · rw [packageWritten]
    simpa only [List.append_assoc, List.cons_append, List.nil_append] using hs''

end Datum

/-! ### What the decoder takes -/

/-- A text or a blob whose length has an encoding. -/
def Variant.Sized (v : Variant) : Prop :=
  (v.type = .string → (cStr v.buf.mem).length < 2 ^ 32) ∧
    (v.type = .blob → v.buf.dataLen < 2 ^ 32)

namespace SerDesNative

theorem parseWord_toBE {w n : ℕ} (h : n < 256 ^ w) (r : List UInt8) :
    parseWord w (toBE w n ++ r) = some (n, r) := by
  have htake := take_append (toBE w n) r
  rw [length_toBE] at htake
  rw [parseWord, andThen, htake, Option.bind_some, ofBE_toBE_of_lt h, ret]

theorem parseLen_lenOctets {len : ℕ} (h : len < 2 ^ 32) (r : List UInt8) :
    parseLen (lenOctets len ++ r) = some (len, r) := by
  -- a stream with these octets is read as it is parsed
  obtain ⟨t, g, ht, hg⟩ := StreamBuf.exists_represents (lenOctets len ++ r)
  have hrest : (t.seek 0).2.HasRest (lenOctets len ++ r) :=
    ⟨_, (ht.seek 0).2, by rw [g.rest_seek_zero, hg]⟩
  obtain ⟨s', hrun, hend⟩ := reads_lenExtract true h hrest
  obtain ⟨hsome, -⟩ := parses_lenExtract (m := exactPools) true hrest
  obtain ⟨n, r', hparse, ⟨rfl, -⟩, hrest'⟩ := hsome _ _ hrun
  rw [hparse, hrest'.drop_octets.symm.trans hend.drop_octets]

theorem parseBlock_octets {d : List UInt8} (h : d.length < 2 ^ 32) (r : List UInt8) :
    parseBlock (lenOctets d.length ++ d ++ r) = some (d, r) := by
  rw [parseBlock, andThen, List.append_assoc, parseLen_lenOctets h, Option.bind_some, take_append]

/-- **A value that has been written is parsed.** -/
theorem parseValue_octets (le : Bool) {v : Variant} (hv : v.Insertable) (hsize : v.Sized)
    (r : List UInt8) :
    parseValue v.type (valueOctets (v.value le) ++ r) = some (v.value le, r) := by
  obtain ⟨type, buf⟩ := v
  have hnum : ∀ w, type.width = some w →
      parseNumber type (toBE (type.width.getD 0) (Variant.numAt le ⟨type, buf⟩ w) ++ r) =
        some (.num type (Variant.numAt le ⟨type, buf⟩ w), r) := by
    intro w hw
    rw [parseNumber, andThen, hw, Option.getD_some, parseWord_toBE (Variant.numAt_lt le _ w),
      Option.bind_some, ret]
  cases type with
  | inert => exact absurd rfl hv.1
  | datumList => exact absurd rfl hv.2
  | none => rfl
  | bool =>
      have hoctet : ∀ b : Bool, decide ((if b then octetTrue else octetFalse) ≠ octetFalse) = b := by
        decide
      simp only [parseValue, Variant.value, valueOctets, andThen, List.cons_append,
        List.nil_append, next, Option.bind_some, hoctet, ret]
  | string =>
      have hlen : (cStr buf.mem).length < 2 ^ 32 := hsize.1 rfl
      simp only [parseValue, Variant.value, valueOctets, andThen, parseBlock_octets hlen,
        Option.bind_some, cStr_of_notMem (zero_notMem_cStr buf.mem), ret]
  | blob =>
      have hlen : buf.data.length < 2 ^ 32 := by
        rw [buf.length_data]
        exact hsize.2 rfl
      simp only [parseValue, Variant.value, valueOctets, andThen, parseBlock_octets hlen,
        Option.bind_some, ret]
  | uint8 => exact hnum 1 rfl
  | int8 => exact hnum 1 rfl
  | uint16 => exact hnum 2 rfl
  | int16 => exact hnum 2 rfl
  | uint32 => exact hnum 4 rfl
  | int32 => exact hnum 4 rfl
  | float32 => exact hnum 4 rfl
  | uint64 => exact hnum 8 rfl
  | int64 => exact hnum 8 rfl
  | float64 => exact hnum 8 rfl

/-- An attribute of the kinds that have a tag. -/
theorem parseElement_tag {a : Attrib} (ha : a ≠ .none) (r : List UInt8) :
    parseElement (attribMap a :: r) =
      andThen parseAttrib (fun x => ret (some (.attrib a x))) r := by
  obtain ⟨htag, h₁, h₂, h₃, h₄⟩ := tagMap_attribMap ha
  rw [parseElement, andThen, next, Option.bind_some]
  simp only [if_neg h₁, if_neg h₂, if_neg h₃, if_neg h₄, htag]

/-- An attribute without a tag, or with a value that has no encoding, is not taken. -/
theorem parseElement_bad {a : Attrib} {v : Variant} (h : ¬ (a ≠ .none ∧ v.Insertable))
    (r : List UInt8) : parseElement (attribMap a :: v.type.toOctet :: r) = none := by
  by_cases ha : a = .none
  · subst ha
    rfl
  · have hbad : v.type = .inert ∨ v.type = .datumList := by
      by_contra hno
      exact h ⟨ha, not_or.1 hno⟩
    rw [parseElement_tag ha, andThen, parseAttrib, andThen, next, Option.bind_some]
    simp only [DataType.ofOctet_toOctet]
    rcases hbad with hty | hty <;> rw [hty] <;> rfl

/-- The decoder takes the octets if the condition holds, and fails within them if it does not. -/
def Taken (c : Prop) (d : List UInt8) : Prop :=
  ∀ r, (c → (elements parseElement (d ++ r)).2 = (elements parseElement r).2) ∧
    (¬ c → (elements parseElement (d ++ r)).2 = none)

theorem taken_nil : Taken True [] := fun _ => ⟨fun _ => rfl, fun h => absurd trivial h⟩

theorem Taken.append {c c' : Prop} {d e : List UInt8} (hd : Taken c d) (he : Taken c' e) :
    Taken (c ∧ c') (d ++ e) := by
  intro r
  rw [List.append_assoc]
  obtain ⟨hyes, hno⟩ := hd (e ++ r)
  obtain ⟨hyes', hno'⟩ := he r
  refine ⟨fun h => (hyes h.1).trans (hyes' h.2), fun h => ?_⟩
  by_cases hc : c
  · exact (hyes hc).trans (hno' fun hc' => h ⟨hc, hc'⟩)
  · exact hno hc

theorem Taken.congr {c c' : Prop} {d : List UInt8} (hd : Taken c d) (hc : c ↔ c') : Taken c' d := by
  intro r
  rw [← hc]
  exact hd r

theorem taken_element {d : List UInt8} {e : Element}
    (h : ∀ r, parseElement (d ++ r) = some (some e, r)) : Taken True d := by
  intro r
  refine ⟨fun _ => ?_, fun hno => absurd trivial hno⟩
  rw [takes_parseElement.elements_eq, h]

theorem taken_bad {d : List UInt8} (h : ∀ r, parseElement (d ++ r) = none) : Taken False d := by
  intro r
  refine ⟨False.elim, fun _ => ?_⟩
  rw [takes_parseElement.elements_eq, h]

theorem taken_attribs (le : Bool) {dat : Datum}
    (hsize : ∀ a v, dat.attribs a = some v → v.Sized) (as : List Attrib) :
    Taken (∀ a ∈ as, ∀ v, dat.attribs a = some v → a ≠ .none ∧ v.Insertable)
      (attribsWritten le dat as) := by
  induction as with
  | nil => exact taken_nil.congr (iff_of_true trivial fun a ha => absurd ha List.not_mem_nil)
  | cons a as ih =>
      rw [attribsWritten]
      cases ha : dat.attribs a with
      | none =>
          refine ih.congr ?_
          rw [List.forall_mem_cons, ha]
          exact ⟨fun h => ⟨fun v hv => (by cases hv), h⟩, fun h => h.2⟩
      | some v =>
          rw [Option.elim_some]
          by_cases hgood : a ≠ .none ∧ v.Insertable
          · have hattr : Taken True (attribMap a :: v.type.toOctet :: valueOctets (v.value le)) := by
              refine taken_element (e := .attrib a (v.value le)) fun r => ?_
              rw [List.cons_append, List.cons_append, parseElement_tag hgood.1, andThen,
                parseAttrib, andThen, next, Option.bind_some]
              simp only [DataType.ofOctet_toOctet]
              rw [parseValue_octets le hgood.2 (hsize a v ha), Option.bind_some, ret]
            rw [if_neg (not_or.2 hgood.2)]
            refine (hattr.append ih).congr ?_
            rw [List.forall_mem_cons, ha]
            exact ⟨fun h => ⟨fun u hu => Option.some.inj hu ▸ hgood, h.2⟩,
              fun h => ⟨trivial, h.2⟩⟩
          · refine (taken_bad fun r => parseElement_bad hgood _).congr ?_
            refine iff_of_false id fun h => hgood (h a List.mem_cons_self v ha)

mutual

/-- **What is written for a datum is taken** exactly if all its attributes have a tag and all its
values an encoding. -/
theorem taken_datum (le : Bool) : ∀ (d : Datum), d.Every (fun _ v => v.Sized) →
    Taken (d.Every fun a v => a ≠ .none ∧ v.Insertable) (datumWritten le d)
  | ⟨isInert, self, attribs, iterData, datums⟩, hsize => by
      obtain ⟨hsize, hsizes⟩ := hsize
      have hdat : Taken True [mkDat] := taken_element (e := .dat) fun r => rfl
      have hend : Taken True [mkDatEnd] := taken_element (e := .datEnd) fun r => rfl
      have hattribs := @taken_attribs le ⟨isInert, self, attribs, iterData, datums⟩ hsize
        Attrib.all
      have hall := hdat.append (hattribs.append ((taken_datums le datums hsizes).append hend))
      rw [datumWritten]
      refine hall.congr ?_
      rw [Datum.Every]
      exact ⟨fun h => ⟨fun a v hv => h.2.1 a (Attrib.mem_all a) v hv, h.2.2.1⟩,
        fun h => ⟨trivial, fun a _ v hv => h.1 a v hv, h.2, trivial⟩⟩

theorem taken_datums (le : Bool) : ∀ (ds : List Datum),
    Datum.AllEvery (fun _ v => v.Sized) ds →
      Taken (Datum.AllEvery (fun a v => a ≠ .none ∧ v.Insertable) ds) (datumsWritten le ds)
  | [], _ => taken_nil
  | d :: ds, hsize => (taken_datum le d hsize.1).append (taken_datums le ds hsize.2)

end

/-- **When the decoder takes what has been written.** -/
theorem package_taken_iff (le : Bool) {dat : Datum} (hsize : dat.Every fun _ v => v.Sized) :
    (packageElements (packageWritten le dat)).2.isSome = true ↔
      dat.Every fun a v => a ≠ .none ∧ v.Insertable := by
  have hend : (elements parseElement [mkPkgEnd]).2 = some [] := rfl
  have hhead : packageElements (packageWritten le dat) =
      elements parseElement (datumWritten le dat ++ [mkPkgEnd]) := rfl
  obtain ⟨hyes, hno⟩ := taken_datum le dat hsize [mkPkgEnd]
  rw [hhead]
  constructor
  · intro h
    by_contra hbad
    rw [hno hbad] at h
    cases h
  · intro hgood
    rw [hyes hgood, hend]
    rfl

end SerDesNative

/-! ### What a success means -/

open SerDesNative

/-- **When a success that is reported means that every call has succeeded**: exactly if every value in
the tree has an encoding and the stream takes everything completely.  And a stream that takes everything
leaves the decoder with octets that it takes exactly if every value has an encoding and every attribute
a tag. -/
theorem native_encode_reports_iff (le : Bool) (m : MemPools) {dat : Datum}
    (hact : dat.isInert = false) :
    (∀ {β : Type} [BlockStore β] {s s' : StreamBase β}, dat.encode le m .none s = some (true, s') →
      ∃ calls, dat.encodeTrace le m s = some (calls, s') ∧
        ((∀ c ∈ calls, c = true) ↔ dat.Every (fun _ v => v.Insertable) ∧
          StreamBase.writeAll (packagePieces le dat) s.clear ≠ none)) ∧
    ((dat.Every fun _ v => v.Sized) →
      ∀ {γ : Type} [BlockStore γ] [LawfulBlockStore γ] {s : StreamBase γ} {f : FlatStream UInt8},
        s.Represents f → ∃ s', dat.encode le m .none s = some (true, s') ∧
          ∀ {δ : Type} [BlockStore δ] [LawfulBlockStore δ] {t : StreamBase δ} {g : FlatStream UInt8},
            t.Represents g → g.content = s'.octets →
              ∀ (le' : Bool) {m' : MemPools}, m'.Plentiful → ∀ dst : Datum, dst.isInert = false →
                ∃ rv dst' t', dst.decode le' m' false t = some (rv, dst', t') ∧
                  (rv = true ↔ dat.Every fun a v => a ≠ .none ∧ v.Insertable)) := by
  constructor
  · intro β _ s s' h
    obtain ⟨calls, htrace⟩ := Datum.exists_encodeTrace h
    refine ⟨calls, htrace, fun hall => ?_, ?_⟩
    · obtain ⟨hgood, hw⟩ := (Datum.encodeTrace_iff le m dat s s').1 ⟨calls, htrace, hall⟩
      exact ⟨hgood, by rw [hw]; exact Option.some_ne_none s'⟩
    · rintro ⟨hgood, hw⟩
      obtain ⟨s'', hw⟩ := Option.ne_none_iff_exists'.1 hw
      obtain ⟨calls', htrace', hall⟩ := (Datum.encodeTrace_iff le m dat s s'').2 ⟨hgood, hw⟩
      rw [htrace] at htrace'
      obtain ⟨rfl, -⟩ := Prod.mk.inj (Option.some.inj htrace')
      exact hall
  · intro hsize γ _ _ s f hs
    obtain ⟨s', hs', g', hrep, -, hcontent⟩ := Datum.ends_encode_written le m hact hs
    refine ⟨s', hs', ?_⟩
    intro δ _ _ t g ht hg le' m' hm' dst hdst
    obtain ⟨dst', t', hdec⟩ := decode_done le' hm' ht dst hdst
    refine ⟨_, dst', t', hdec, ?_⟩
    rw [hg, hrep.octets_eq, hcontent]
    exact package_taken_iff le hsize

/-- A new datum whose value is the one that a new datum returns a reference to. -/
def inertValDatum : Datum := Datum.fresh.attrSet exactPools .val inertValue

theorem not_insertable_inertValDatum {P : Attrib → Variant → Prop}
    (hP : ∀ a v, P a v → v.Insertable) : ¬ inertValDatum.Every P := by
  intro h
  exact (hP _ _ (h.1 .val _ rfl)).1 rfl

theorem sized_inertValDatum : inertValDatum.Every fun _ v => v.Sized := by
  refine ⟨fun a v hv => ?_, trivial⟩
  have hty : v.type = .inert := by
    by_cases ha : a = .val
    · subst ha
      obtain rfl := Option.some.inj hv
      rfl
    · rw [Function.update_of_ne ha] at hv
      cases hv
  exact ⟨fun hc => (by cases hty.symm.trans hc), fun hc => (by cases hty.symm.trans hc)⟩

mutual

/-- What holds of the values that the encoder accepts holds in a tree that can be encoded. -/
theorem Datum.Encodable.every {P : Attrib → Variant → Prop}
    (hP : ∀ a v, a ≠ .none → v.Encodable → P a v) : ∀ {d : Datum}, d.Encodable → d.Every P
  | ⟨_, _, _, _, _⟩, ⟨_, hnone, hvals, hdatums⟩ => by
      refine ⟨fun a v hv => hP a v ?_ (hvals a v hv), Datum.AllEncodable.every hP hdatums⟩
      rintro rfl
      cases hnone.symm.trans hv

/-- So it does in the trees of a list. -/
theorem Datum.AllEncodable.every {P : Attrib → Variant → Prop}
    (hP : ∀ a v, a ≠ .none → v.Encodable → P a v) :
    ∀ {ds : List Datum}, Datum.AllEncodable ds → Datum.AllEvery P ds
  | [], _ => trivial
  | _ :: _, ⟨hd, hds⟩ => ⟨hd.every hP, Datum.AllEncodable.every hP hds⟩

end

/-- A number and a text are encoded and decoded.  A value without an encoding is neither reported by the
encoder, though a call fails, nor taken by the decoder. -/
theorem native_encode_reports_sample :
    (∃ calls s', sampleDatum.encode true exactPools .none (StreamBuf.construct sampleMem 0) =
        some (true, s') ∧
      sampleDatum.encodeTrace true exactPools (StreamBuf.construct sampleMem 0) = some (calls, s') ∧
      (∀ c ∈ calls, c = true) ∧
      ∀ {t : StreamBuf} {g : FlatStream UInt8}, t.Represents g → g.content = s'.octets →
        ∃ dst' t', Datum.fresh.decode true exactPools false t = some (true, dst', t')) ∧
    ∃ calls s', inertValDatum.encode true exactPools .none (StreamBuf.construct sampleMem 0) =
        some (true, s') ∧
      inertValDatum.encodeTrace true exactPools (StreamBuf.construct sampleMem 0) = some (calls, s') ∧
      ¬ (∀ c ∈ calls, c = true) ∧
      ∀ {t : StreamBuf} {g : FlatStream UInt8}, t.Represents g → g.content = s'.octets →
        ∃ dst' t', Datum.fresh.decode true exactPools false t = some (false, dst', t') := by
  have hs := StreamBuf.represents_construct plentiful_sampleMem 0
  constructor
  · have hevery : sampleDatum.Every fun a v => a ≠ .none ∧ v.Insertable :=
      encodable_sampleDatum.every fun a v ha hv => ⟨ha, hv.ne_inert, hv.ne_datumList⟩
    obtain ⟨hcalls, htaken⟩ := @native_encode_reports_iff true exactPools sampleDatum rfl
    obtain ⟨s', hs', hdec⟩ := htaken
      (encodable_sampleDatum.every fun a v _ hv => ⟨hv.text_lt, hv.blob_lt⟩) hs
    obtain ⟨calls, htrace, hall⟩ := hcalls hs'
    obtain ⟨t₀, hwritten⟩ := StreamBase.exists_writeAll hs.clear (packagePieces true sampleDatum)
    refine ⟨calls, s', hs', htrace, hall.2 ⟨encodable_sampleDatum.every fun a v _ hv =>
      ⟨hv.ne_inert, hv.ne_datumList⟩, by rw [hwritten]; exact Option.some_ne_none t₀⟩, ?_⟩
    intro t g ht hg
    obtain ⟨rv, dst', t', hrun, htrue⟩ := hdec ht hg true plentiful_exactPools Datum.fresh rfl
    obtain rfl := htrue.2 hevery
    exact ⟨dst', t', hrun⟩
  · obtain ⟨hcalls, htaken⟩ := @native_encode_reports_iff true exactPools inertValDatum rfl
    obtain ⟨s', hs', hdec⟩ := htaken sized_inertValDatum hs
    obtain ⟨calls, htrace, hall⟩ := hcalls hs'
    refine ⟨calls, s', hs', htrace, fun h => ?_, ?_⟩
    · exact not_insertable_inertValDatum (fun _ _ h => h) (hall.1 h).1
    · intro t g ht hg
      obtain ⟨rv, dst', t', hrun, htrue⟩ := hdec ht hg true plentiful_exactPools Datum.fresh rfl
      have hno := mt htrue.1 (not_insertable_inertValDatum fun _ _ h => h.2)
      rw [Bool.not_eq_true] at hno
      subst hno
      exact ⟨dst', t', hrun⟩

/-- **A value without an encoding**: one call fails, the encoding is reported as a success, and the
decoder does not take it. -/
theorem native_encode_unreported :
    ∃ calls s', inertValDatum.encode true exactPools .none (StreamBuf.construct sampleMem 0) =
        some (true, s') ∧
      inertValDatum.encodeTrace true exactPools (StreamBuf.construct sampleMem 0) =
        some (calls, s') ∧ false ∈ calls ∧
      ∀ {t : StreamBuf} {g : FlatStream UInt8}, t.Represents g → g.content = s'.octets →
        ∃ dst' t', Datum.fresh.decode true exactPools false t = some (false, dst', t') := by
  obtain ⟨s', hs', g', hrep, -, hcontent⟩ := Datum.ends_encode_written true exactPools
    (show inertValDatum.isInert = false from rfl)
    (StreamBuf.represents_construct plentiful_sampleMem 0)
  obtain ⟨calls, htrace⟩ := Datum.exists_encodeTrace hs'
  refine ⟨calls, s', hs', htrace, ?_, ?_⟩
  · by_contra hno
    have hall : ∀ c ∈ calls, c = true := by
      intro c hc
      cases c with
      | true => rfl
      | false => exact absurd hc hno
    obtain ⟨hgood, -⟩ := (Datum.encodeTrace_iff true exactPools inertValDatum _ s').1
      ⟨calls, htrace, hall⟩
    exact not_insertable_inertValDatum (fun _ _ h => h) hgood
  · intro t g ht hg
    obtain ⟨dst', t', hdec⟩ := decode_done true plentiful_exactPools ht Datum.fresh rfl
    have hno : (packageElements g.content).2.isSome = false := by
      rw [hg, hrep.octets_eq, hcontent, Bool.eq_false_iff]
      intro hyes
      exact not_insertable_inertValDatum (fun _ _ h => h.2)
        ((package_taken_iff true sized_inertValDatum).1 hyes)
    rw [hno] at hdec
    exact ⟨dst', t', hdec⟩

end CodePort
