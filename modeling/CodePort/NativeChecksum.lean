/-
The checksum section of a package.

With `Check` the decoder goes on behind the end of the package: it wants the mark of a checksum, a
checksum type and, if the type is that of a CRC-32, a checksum that agrees with that of the package;
at last it takes one more octet.  It does not ask which octet that is, and it takes any type that it
does not know for a checksum that agrees.

Main definitions:

* `CodePort.SerDesNative.AcceptedSection` — what the decoder takes for a checksum;
* `CodePort.SerDesNative.Checksummed` — the section that the encoder writes with a CRC-32;
* `CodePort.SerDesNative.Misjudged` — the three kinds of sections that are accepted by mistake;
* `CodePort.SerDesNative.PackageEnd` — where the elements of the package in some octets end.

Main results:

* `CodePort.SerDesNative.decodeChecksum_iff` — which octets the decoder accepts as a section;
* `CodePort.native_check_iff` — **when checked decoding accepts checksummed packages only**.
-/

import CodePort.Crc32
import CodePort.NativeElements

set_option relaxedAutoImplicit false
set_option autoImplicit false

namespace CodePort

open BlockStore Octets

variable {β : Type} [BlockStore β] [LawfulBlockStore β]

/-- `Crc32Get` does not depend on the cursor. -/
theorem StreamBase.Reading.crc32Get_eq {s s' : StreamBase β} (hs : s.Wf) (h : s.Reading s')
    (len : ℕ) : s'.crc32Get len = s.crc32Get len := by
  rw [h.wf.hasBlocks.crc32Get_eq, hs.hasBlocks.crc32Get_eq, h.blks_eq, h.lenGet_eq]

namespace SerDesNative

/-! ### Extraction from what is left -/

/-- A number is extracted unless too little is left. -/
theorem run_longExtract {s : StreamBase β} {r : List UInt8} (h : s.HasRest r) (le : Bool) :
    if 4 ≤ r.length then
      ∃ s', (longExtract le).run s = (some (ofBE (r.take 4)), s') ∧ s'.HasRest (r.drop 4)
    else ((longExtract le).run s).1 = none := by
  have hoctets := run_octetsExtract 4 h
  rw [longExtract, wordExtract, run_bind]
  by_cases hlen : 4 ≤ r.length
  · rw [if_pos hlen] at hoctets ⊢
    obtain ⟨s', hrun, hrest⟩ := hoctets
    refine ⟨s', ?_, hrest⟩
    rw [hrun, ← ofHost_of_order le]
    rfl
  · rw [if_neg hlen] at hoctets ⊢
    rcases hrun : (octetsExtract 4).run s with ⟨_ | l, s'⟩
    · rfl
    · rw [hrun] at hoctets
      exact nomatch hoctets

/-! ### The section -/

/-- The octets behind the end of a package that the decoder accepts, when `Crc32Get` of the package
is `crc`. -/
def AcceptedSection (r : List UInt8) (crc : ℕ) : Prop :=
  ∃ ch tail, r = mkChk :: ch :: tail ∧
    if ch = CheckSum.crc32.toOctet then
      ∃ w e rest, tail = w ++ e :: rest ∧ w.length = 4 ∧ ofBE w = crc
    else ch ≠ CheckSum.md5Sum.toOctet ∧ ch ≠ CheckSum.sha1Sum.toOctet ∧ tail ≠ []

/-- The section that the encoder writes with a CRC-32. -/
def Checksummed (r : List UInt8) (crc : BitVec 32) : Prop :=
  ∃ tail, r = mkChk :: CheckSum.crc32.toOctet :: (toBE 4 crc.toNat ++ mkChkEnd :: tail)

/-- The sections that are accepted and are none with the CRC-32 `crc` of the package, when `Crc32Get` of
the package is `got`: a type that is not known is followed by any octet; the octet behind the checksum is
not the mark; or `Crc32Get` is not the CRC-32 of the package. -/
inductive Misjudged (got crc : BitVec 32) : List UInt8 → Prop
  | unknown {ch e : UInt8} {tail : List UInt8} (hcrc32 : ch ≠ CheckSum.crc32.toOctet)
      (hmd5 : ch ≠ CheckSum.md5Sum.toOctet) (hsha1 : ch ≠ CheckSum.sha1Sum.toOctet) :
      Misjudged got crc (mkChk :: ch :: e :: tail)
  | unended {e : UInt8} {tail : List UInt8} (he : e ≠ mkChkEnd) :
      Misjudged got crc (mkChk :: CheckSum.crc32.toOctet :: (toBE 4 got.toNat ++ e :: tail))
  | restarted {e : UInt8} {tail : List UInt8} (hne : got ≠ crc) :
      Misjudged got crc (mkChk :: CheckSum.crc32.toOctet :: (toBE 4 got.toNat ++ e :: tail))

theorem toBE_toNat_inj {a b : BitVec 32} : toBE 4 a.toNat = toBE 4 b.toNat ↔ a = b := by
  constructor
  · intro h
    have hofBE := congrArg ofBE h
    rw [ofBE_toBE_of_lt a.isLt, ofBE_toBE_of_lt b.isLt] at hofBE
    exact BitVec.eq_of_toNat_eq hofBE
  · rintro rfl
    rfl

/-- A section with the CRC-32 that is read as another one starts with other octets. -/
theorem Checksummed.octets_eq {got crc : BitVec 32} {e : UInt8} {tail : List UInt8}
    (h : Checksummed (mkChk :: CheckSum.crc32.toOctet :: (toBE 4 got.toNat ++ e :: tail)) crc) :
    got = crc ∧ e = mkChkEnd := by
  obtain ⟨rest, heq⟩ := h
  obtain ⟨hw, hrest⟩ := List.append_inj (List.cons_eq_cons.1 (List.cons_eq_cons.1 heq).2).2
    (by rw [length_toBE, length_toBE])
  exact ⟨toBE_toNat_inj.1 hw, (List.cons_eq_cons.1 hrest).1⟩

/-- A section with a CRC-32 is not misjudged. -/
theorem Misjudged.not_checksummed {got crc : BitVec 32} {r : List UInt8} (h : Misjudged got crc r) :
    ¬ Checksummed r crc := by
  cases h with
  | unknown hcrc32 hmd5 hsha1 =>
      rintro ⟨rest, heq⟩
      exact hcrc32 (List.cons_eq_cons.1 (List.cons_eq_cons.1 heq).2).1
  | unended he => exact fun hsum => he hsum.octets_eq.2
  | restarted hne => exact fun hsum => hne hsum.octets_eq.1

/-- **What is misjudged** is what is accepted without the CRC-32. -/
theorem misjudged_iff (r : List UInt8) (got crc : BitVec 32) :
    Misjudged got crc r ↔ AcceptedSection r got.toNat ∧ ¬ Checksummed r crc := by
  constructor
  · intro h
    refine ⟨?_, h.not_checksummed⟩
    have hread : ∀ {e : UInt8} {tail : List UInt8}, AcceptedSection
        (mkChk :: CheckSum.crc32.toOctet :: (toBE 4 got.toNat ++ e :: tail)) got.toNat := by
      intro e tail
      refine ⟨_, _, rfl, ?_⟩
      rw [if_pos rfl]
      exact ⟨_, e, tail, rfl, length_toBE 4 _, ofBE_toBE_of_lt got.isLt⟩
    cases h with
    | unknown hcrc32 hmd5 hsha1 =>
        refine ⟨_, _, rfl, ?_⟩
        rw [if_neg hcrc32]
        exact ⟨hmd5, hsha1, List.cons_ne_nil _ _⟩
    | unended he => exact hread
    | restarted hne => exact hread
  · rintro ⟨⟨ch, tail, rfl, hacc⟩, hsum⟩
    split_ifs at hacc with hcrc32
    · obtain ⟨w, e, rest, rfl, hw, hmatch⟩ := hacc
      have hoctets : toBE 4 got.toNat = w := by
        rw [← hmatch, ← hw, toBE_ofBE]
      rw [hcrc32, ← hoctets] at hsum ⊢
      by_cases he : e = mkChkEnd
      · refine .restarted fun heq => hsum ⟨rest, ?_⟩
        rw [he, heq]
      · exact .unended he
    · obtain ⟨e, rest, rfl⟩ := List.exists_cons_of_ne_nil hacc.2.2
      exact .unknown hcrc32 hacc.1 hacc.2.1

/-- The last octet is taken unless nothing is left. -/
theorem isSome_octetExtract {s : StreamBase β} {r : List UInt8} (h : s.HasRest r) :
    (octetExtract.run s).1.isSome = true ↔ r ≠ [] := by
  obtain ⟨s', hrun, -⟩ := run_octetExtract h
  rw [hrun]
  cases r with
  | nil => simp
  | cons ch r => simp

/-- The mark and the type of a checksum. -/
def checksumType : Extract β UInt8 := do
  let ch ← octetExtract
  if ch = mkChk then octetExtract else failure

theorem keeps_checksumType : Keeps (checksumType : Extract β UInt8) := by
  refine keeps_octetExtract.bind fun ch => ?_
  split_ifs
  · exact keeps_octetExtract
  · exact keeps_failure

/-- The type is extracted if it follows the mark. -/
theorem run_checksumType {s : StreamBase β} {r : List UInt8} (h : s.HasRest r) :
    (∃ ch tail s', r = mkChk :: ch :: tail ∧ checksumType.run s = (some ch, s') ∧
      s'.HasRest tail) ∨
    ((checksumType.run s).1 = none ∧ ∀ ch tail, r ≠ mkChk :: ch :: tail) := by
  obtain ⟨s₁, hrun₁, hrest₁⟩ := run_octetExtract h
  rw [checksumType, run_bind, hrun₁]
  cases r with
  | nil => exact Or.inr ⟨rfl, by simp⟩
  | cons mk r =>
      obtain ⟨s₂, hrun₂, hrest₂⟩ := run_octetExtract hrest₁
      by_cases hmk : mk = mkChk
      · subst hmk
        simp only [List.head?_cons, if_true, hrun₂]
        cases r with
        | nil => exact Or.inr ⟨rfl, by simp⟩
        | cons ch tail => exact Or.inl ⟨ch, tail, s₂, rfl, rfl, hrest₂⟩
      · simp only [List.head?_cons, if_neg hmk]
        exact Or.inr ⟨rfl, fun ch tail heq => hmk (List.cons_eq_cons.1 heq).1⟩

/-- **Which octets the decoder accepts.** -/
theorem decodeChecksum_iff (le : Bool) {s : StreamBase β} (h : s.Wf) {crc : BitVec 32}
    (hcrc : s.crc32Get s.pos = some crc) :
    (∃ s', decodeChecksum le s = some (true, s')) ↔
      AcceptedSection (s.octets.drop s.pos) crc.toNat := by
  have hread := keeps_checksumType h
  rw [decodeChecksum, ← checksumType]
  rcases run_checksumType h.hasRest with ⟨ch, tail, t, hr, hrun, hrest⟩ | ⟨hnone, hr⟩
  · rw [hrun] at hread ⊢
    have hsection : AcceptedSection (s.octets.drop s.pos) crc.toNat ↔
        if ch = CheckSum.crc32.toOctet then
          ∃ w e rest, tail = w ++ e :: rest ∧ w.length = 4 ∧ ofBE w = crc.toNat
        else ch ≠ CheckSum.md5Sum.toOctet ∧ ch ≠ CheckSum.sha1Sum.toOctet ∧ tail ≠ [] := by
      rw [AcceptedSection, hr]
      constructor
      · rintro ⟨ch', tail', heq, hacc⟩
        obtain ⟨rfl, rfl⟩ := List.cons_eq_cons.1 (List.cons_eq_cons.1 heq).2
        exact hacc
      · exact fun hacc => ⟨ch, tail, rfl, hacc⟩
    rw [hsection]
    dsimp only
    split_ifs with hcrc32 hbad
    · have hlong := run_longExtract hrest le
      have hread' := hread.trans (keeps_wordExtract le 4 hread.wf)
      rw [← longExtract] at hread'
      by_cases hlen : 4 ≤ tail.length
      · rw [if_pos hlen] at hlong
        obtain ⟨t', hrun', hrest'⟩ := hlong
        rw [hrun'] at hread' ⊢
        have hlast := isSome_octetExtract hrest'
        have hcrc' : t'.crc32Get s.pos = some crc := by
          rw [hread'.crc32Get_eq h, hcrc]
        simp only [hcrc', Option.map_some, Option.some_inj]
        constructor
        · rintro ⟨s', heq⟩
          split_ifs at heq with hmatch
          · obtain ⟨e, rest, hdrop⟩ := List.exists_cons_of_ne_nil
              (hlast.1 (congrArg Prod.fst heq))
            exact ⟨tail.take 4, e, rest, by rw [← hdrop, List.take_append_drop],
              List.length_take_of_le hlen, hmatch⟩
          · cases congrArg Prod.fst heq
        · rintro ⟨w, e, rest, rfl, hw, hmatch⟩
          rw [List.take_left' hw] at *
          rw [List.drop_left' hw] at hlast
          rw [if_pos hmatch]
          exact ⟨_, Prod.ext (hlast.2 (List.cons_ne_nil _ _)) rfl⟩
      · rw [if_neg hlen] at hlong
        rcases hrun' : (longExtract le).run t with ⟨_ | l, t'⟩
        · refine iff_of_false (by simp) ?_
          rintro ⟨w, e, rest, rfl, hw, -⟩
          rw [List.length_append] at hlen
          omega
        · rw [hrun'] at hlong
          exact nomatch hlong
    · exact iff_of_false (by simp) fun hacc => hbad.elim hacc.1 hacc.2.1
    · have hlast := isSome_octetExtract hrest
      obtain ⟨hmd5, hsha1⟩ := not_or.1 hbad
      simp only [Option.some_inj]
      constructor
      · rintro ⟨s', heq⟩
        exact ⟨hmd5, hsha1, hlast.1 (congrArg Prod.fst heq)⟩
      · rintro ⟨-, -, hne⟩
        exact ⟨_, Prod.ext (hlast.2 hne) rfl⟩
  · rcases hrun : checksumType.run s with ⟨_ | ch, t⟩
    · exact iff_of_false (by simp) fun ⟨ch, tail, heq, _⟩ => hr ch tail heq
    · rw [hrun] at hnone
      exact nomatch hnone

/-! ### Checked decoding -/

variable {le : Bool} {m : MemPools} {dat : Datum} {s : StreamBase β}

/-- The states before the elements. -/
def header : Extract β Unit := do
  decodeIdent
  decodeVersion

omit [LawfulBlockStore β] in
/-- The states succeed if there is a header, the elements are decoded and the section behind them, if
it is asked for, is accepted. -/
theorem execDecodeStates_eq_true_iff (check : Bool) (d : Datum) (t : StreamBase β) :
    execDecodeStates le m s dat check = some (true, d, t) ↔
      ∃ s' t', header.run s = (some (), s') ∧ decodeElement le m dat s' = some (true, d, t') ∧
        if check then decodeChecksum le t' = some (true, t) else t' = t := by
  rw [execDecodeStates, ← header]
  rcases (header : Extract β Unit).run s with ⟨_ | u, s₁⟩
  · exact iff_of_false (by simp) (by rintro ⟨s', t', hhead, -⟩; cases hhead)
  · constructor
    · intro hrun
      obtain ⟨⟨b, d', t₁⟩, helem, hrun⟩ := Option.bind_eq_some_iff.1 hrun
      cases b with
      | false => cases congrArg (fun r => r.map Prod.fst) hrun
      | true =>
          refine ⟨s₁, t₁, rfl, ?_⟩
          cases check with
          | false =>
              cases hrun
              exact ⟨helem, rfl⟩
          | true =>
              obtain ⟨⟨b', t₂⟩, hsection, hrun⟩ := Option.bind_eq_some_iff.1 hrun
              obtain ⟨rfl, hrun'⟩ := Prod.mk.inj (Option.some.inj hrun)
              obtain ⟨rfl, rfl⟩ := Prod.mk.inj hrun'
              exact ⟨helem, hsection⟩
    · rintro ⟨s', t', hhead, helem, hsection⟩
      obtain rfl : s₁ = s' := congrArg Prod.snd hhead
      cases check with
      | false =>
          obtain rfl : t' = t := hsection
          simp only [helem, Option.bind_eq_bind, Option.bind_some]
          rfl
      | true =>
          rw [if_pos rfl] at hsection
          simp only [helem, Option.bind_eq_bind, Option.bind_some, Bool.and_self, if_true,
            hsection]
          rfl

omit [LawfulBlockStore β] in
/-- Decoding succeeds if its states do. -/
theorem decode_eq_true_iff (check : Bool) (d : Datum) (t : StreamBase β) :
    decode le m s dat check = some (true, d, t) ↔
      execDecodeStates le m (s.seek 0).2 (dat.clear le m) check = some (true, d, t) := by
  rw [decode, Option.map_eq_some_iff]
  constructor
  · rintro ⟨⟨b, d', t'⟩, hrun, heq⟩
    obtain ⟨rfl, heq⟩ := Prod.mk.inj heq
    obtain ⟨rfl, rfl⟩ := Prod.mk.inj heq
    exact hrun
  · exact fun hrun => ⟨_, hrun, rfl⟩

/-- Decoding only reads. -/
theorem reading_decode {d : Datum} {t : StreamBase β} (h : s.Wf)
    (hrun : decode le m s dat false = some (true, d, t)) : s.Reading t := by
  have hseek := StreamBase.reading_seek h 0
  have hkeeps : Keeps (header : Extract β Unit) :=
    keeps_decodeIdent.bind fun _ => keeps_decodeVersion
  have hheader := hseek.trans (hkeeps hseek.wf)
  obtain ⟨s', t', hhead, helem, rfl⟩ :=
    (execDecodeStates_eq_true_iff false d t).1 ((decode_eq_true_iff false d t).1 hrun)
  rw [hhead] at hheader
  obtain ⟨r, hloop, heq⟩ := Option.map_eq_some_iff.1 helem
  obtain rfl : r.2.stream = t' := congrArg (fun x => x.2.2) heq
  exact hheader.trans (reading_decodeLoop hloop hheader.wf)

omit [LawfulBlockStore β] in
/-- Checked decoding succeeds if the package is decoded and the section behind it is accepted. -/
theorem decode_check_iff :
    (∃ d t, decode le m s dat true = some (true, d, t)) ↔
      ∃ d t, decode le m s dat false = some (true, d, t) ∧
        ∃ t', decodeChecksum le t = some (true, t') := by
  simp only [decode_eq_true_iff, execDecodeStates_eq_true_iff, if_true]
  constructor
  · rintro ⟨d, t, s', t', hhead, helem, hsection⟩
    exact ⟨d, t', ⟨s', t', hhead, helem, rfl⟩, t, hsection⟩
  · rintro ⟨d, t, ⟨s', t', hhead, helem, rfl⟩, t'', hsection⟩
    exact ⟨d, t'', s', t', hhead, helem, hsection⟩

/-- Some octets are a package, up to the end of its elements, and what follows it. -/
def PackageEnd (octets package rest : List UInt8) : Prop :=
  octets = package ++ rest ∧ (packageElements octets).2 = some rest

/-- **What is decoded ends where the elements end.** -/
theorem packageEnd_of_decode {d : Datum} {t : StreamBase β} (h : s.Wf)
    (hrun : decode le m s dat false = some (true, d, t)) :
    PackageEnd s.octets (s.octets.take t.pos) (s.octets.drop t.pos) := by
  obtain ⟨f, hs, -⟩ := h.hasRest
  obtain ⟨st', done, -, htrue, -, hroot, hend⟩ :=
    execDecodeStates_elements (m := m) le hs (dat.clear le m) false
  have hstates := (decode_eq_true_iff false d t).1 hrun
  obtain ⟨rest, helements, hrest⟩ := htrue ((hroot _ hstates).1 rfl)
  rw [hend (.inl rfl)] at hstates
  obtain rfl : st'.stream = t := (Prod.mk.inj (Prod.mk.inj (Option.some.inj hstates)).2).2
  have hdrop := hrest.drop_octets
  rw [(reading_decode h hrun).octets_eq] at hdrop
  refine ⟨(List.take_append_drop _ _).symm, ?_⟩
  rw [hdrop, hs.octets_eq]
  exact helements

/-- A package that ends is decoded, with memory for it. -/
theorem decode_of_packageEnd (le : Bool) (hm : m.Plentiful) (dat : Datum) (h : s.Wf)
    {package rest : List UInt8} (hpackage : PackageEnd s.octets package rest) :
    ∃ d t, decode le m s dat false = some (true, d, t) ∧ t.pos = package.length ∧
      s.octets.drop t.pos = rest := by
  obtain ⟨f, hs, -⟩ := h.hasRest
  obtain ⟨st', done, -, htrue, hfalse, -, hend⟩ :=
    execDecodeStates_elements (m := m) le hs (dat.clear le m) false
  obtain ⟨hoctets, helements⟩ := hpackage
  rw [hs.octets_eq] at helements
  cases done with
  | false => exact absurd (hfalse rfl hm) (helements ▸ Option.some_ne_none rest)
  | true =>
      have hrun : decode le m s dat false = some (true, st'.root, st'.stream) :=
        (decode_eq_true_iff false _ _).2 (hend (.inl rfl))
      have hread := reading_decode h hrun
      obtain ⟨rest', helements', hrest⟩ := htrue rfl
      obtain rfl : rest' = rest := Option.some.inj (helements'.symm.trans helements)
      have hdrop := hrest.drop_octets
      rw [hread.octets_eq] at hdrop
      refine ⟨_, _, hrun, ?_, hdrop⟩
      -- the position is known from what is left
      have hpos : st'.stream.pos ≤ s.octets.length := by
        rw [← hread.octets_eq, hread.wf.length_octets]
        exact hread.wf.pos_le
      have hlength := congrArg List.length hdrop
      rw [List.length_drop] at hlength
      have htotal := congrArg List.length hoctets
      rw [List.length_append] at htotal
      omega

/-- The checksum that `Crc32Get` returns for the octets before a position: that of the octets since
the last block at whose end the checksum so far was that of a new start. -/
def gotCrc32 (s : StreamBase β) (pos : ℕ) : BitVec 32 :=
  calcCrc32 (crcSince (crcPieces s.blks s.lenGet pos)) 0xffffffff

/-- Nothing is decoded from a stream without octets. -/
theorem lenGet_pos_of_decode {d : Datum} {t : StreamBase β} (h : s.Wf)
    (hrun : decode le m s dat false = some (true, d, t)) : s.lenGet ≠ 0 := by
  intro hzero
  have hseek := StreamBase.reading_seek h 0
  obtain ⟨s', t', hhead, -, -⟩ :=
    (execDecodeStates_eq_true_iff false d t).1 ((decode_eq_true_iff false d t).1 hrun)
  have hnil : s.octets = [] := by
    rw [StreamBase.octets, hzero, List.take_zero]
  obtain ⟨s₁, hrun₁, -⟩ := run_octetExtract hseek.wf.hasRest
  rw [hseek.octets_eq, hnil, List.drop_nil] at hrun₁
  rw [header, decodeIdent, bind_assoc, run_bind, hrun₁] at hhead
  cases congrArg Prod.fst hhead

/-- What `Crc32Get` returns for a package. -/
theorem crc32Get_pos {d : Datum} {t : StreamBase β} (h : s.Wf)
    (hrun : decode le m s dat false = some (true, d, t)) :
    t.crc32Get t.pos = some (gotCrc32 s t.pos) := by
  have hread := reading_decode h hrun
  rw [hread.crc32Get_eq h, h.hasBlocks.crc32Get_eq, gotCrc32, calcCrc32_start, if_neg]
  have hpos : t.pos ≤ s.lenGet := hread.lenGet_eq ▸ hread.wf.pos_le
  exact mt (crcPieces_eq_nil_iff h.lenGet_le hpos).1 (lenGet_pos_of_decode h hrun)

/-- The section behind a package that is decoded is accepted, or not. -/
theorem decodeChecksum_of_decode {d : Datum} {t : StreamBase β} (h : s.Wf)
    (hrun : decode le m s dat false = some (true, d, t)) :
    (∃ t', decodeChecksum le t = some (true, t')) ↔
      AcceptedSection (s.octets.drop t.pos) (gotCrc32 s t.pos).toNat := by
  have hread := reading_decode h hrun
  rw [← hread.octets_eq]
  exact decodeChecksum_iff le hread.wf (crc32Get_pos h hrun)

end SerDesNative

open SerDesNative

/-- **When checked decoding accepts checksummed packages only**: on a host of any byte order, into any
datum and with any memory, if and only if the octets behind the end of the package are not misjudged. -/
theorem native_check_iff (s : StreamBase β) (h : s.Wf) :
    (∀ le m dat, (∃ d t, SerDesNative.decode le m s dat true = some (true, d, t)) →
      ∃ package rest, PackageEnd s.octets package rest ∧
        Checksummed rest (calcCrc32 package 0xffffffff)) ↔
    ∀ package rest, PackageEnd s.octets package rest →
      ¬ Misjudged (gotCrc32 s package.length) (calcCrc32 package 0xffffffff) rest := by
  constructor
  · intro hchecked package rest hpackage hmis
    obtain ⟨hacc, hsum⟩ := (misjudged_iff _ _ _).1 hmis
    obtain ⟨d, t, hrun, hpos, hdrop⟩ :=
      decode_of_packageEnd true plentiful_exactPools Datum.fresh h hpackage
    have hsection := (decodeChecksum_of_decode h hrun).2 (by rwa [hdrop, hpos])
    obtain ⟨package', rest', hpackage', hsum'⟩ :=
      hchecked true exactPools Datum.fresh (decode_check_iff.2 ⟨d, t, hrun, hsection⟩)
    -- the package ends at one place only
    obtain rfl : rest' = rest := Option.some.inj (hpackage'.2.symm.trans hpackage.2)
    obtain rfl : package' = package :=
      List.append_cancel_right (hpackage'.1.symm.trans hpackage.1)
    exact hsum hsum'
  · intro hjudged le m dat hchecked
    obtain ⟨d, t, hrun, hsection⟩ := decode_check_iff.1 hchecked
    have hpackage := packageEnd_of_decode h hrun
    have hlength : (s.octets.take t.pos).length = t.pos := by
      have hread := reading_decode h hrun
      rw [List.length_take_of_le]
      rw [← hread.octets_eq, hread.wf.length_octets]
      exact hread.wf.pos_le
    refine ⟨_, _, hpackage, ?_⟩
    by_contra hsum
    refine hjudged _ _ hpackage ((misjudged_iff _ _ _).2 ⟨?_, hsum⟩)
    rw [hlength]
    exact (decodeChecksum_of_decode h hrun).1 hsection

/-! ### Packages with a checksum, and without -/

/-- A stream over one block of octets. -/
theorem wf_filledStream {x : List UInt8} (h : x ≠ []) : (filledStream [x]).Wf where
  ready := ⟨plentiful_sampleMem, fun y hy => List.mem_singleton.1 hy ▸ List.length_pos_iff.2 h⟩
  unbacked hnil := by cases hnil
  lastBlock_lt _ := Nat.one_pos
  lastPos_le := le_rfl
  lastPos_pos := fun h => absurd h (lt_irrefl 0)
  curBlock_le := le_rfl
  curPos_le _ := Nat.zero_le _
  curPos_le_lastPos _ := Nat.zero_le _

/-- An empty package. -/
def emptyPackage : List UInt8 := [mkMagic, mkPkg, Datum.datumVersion, mkPkgEnd]

/-- An empty package and a section with its CRC-32. -/
def summedPackage : List UInt8 :=
  emptyPackage ++ mkChk :: CheckSum.crc32.toOctet ::
    (toBE 4 (calcCrc32 emptyPackage 0xffffffff).toNat ++ [mkChkEnd])

theorem packageEnd_summedPackage {package rest : List UInt8}
    (h : PackageEnd (filledStream [summedPackage]).octets package rest) :
    package = emptyPackage ∧ rest = mkChk :: CheckSum.crc32.toOctet ::
      (toBE 4 (calcCrc32 emptyPackage 0xffffffff).toNat ++ [mkChkEnd]) := by
  have hrest : (packageElements (filledStream [summedPackage]).octets).2 = some (mkChk ::
      CheckSum.crc32.toOctet :: (toBE 4 (calcCrc32 emptyPackage 0xffffffff).toNat ++ [mkChkEnd])) := by
    decide +kernel
  obtain rfl := Option.some.inj (h.2.symm.trans hrest)
  exact ⟨(List.append_cancel_right (h.1.symm.trans rfl)), rfl⟩

/-- The package with a CRC-32 is accepted, and it is checksummed. -/
theorem native_check_iff_summed :
    (∃ d t, SerDesNative.decode true exactPools (filledStream [summedPackage]) Datum.fresh true =
      some (true, d, t)) ∧
      ∃ package rest, PackageEnd (filledStream [summedPackage]).octets package rest ∧
        Checksummed rest (calcCrc32 package 0xffffffff) := by
  have hwf := wf_filledStream (x := summedPackage) (List.cons_ne_nil _ _)
  have hgot : gotCrc32 (filledStream [summedPackage]) emptyPackage.length =
      calcCrc32 emptyPackage 0xffffffff := by decide +kernel
  have hjudged : ∀ package rest, PackageEnd (filledStream [summedPackage]).octets package rest →
      ¬ Misjudged (gotCrc32 (filledStream [summedPackage]) package.length)
        (calcCrc32 package 0xffffffff) rest := by
    intro package rest hpackage hmis
    obtain ⟨rfl, rfl⟩ := packageEnd_summedPackage hpackage
    exact hmis.not_checksummed ⟨[], rfl⟩
  have hdec : ∃ d t, SerDesNative.decode true exactPools (filledStream [summedPackage]) Datum.fresh
      true = some (true, d, t) := by
    have hpackage : PackageEnd (filledStream [summedPackage]).octets emptyPackage _ :=
      ⟨rfl, by decide +kernel⟩
    obtain ⟨d, t, hrun, hpos, hdrop⟩ :=
      decode_of_packageEnd true plentiful_exactPools Datum.fresh hwf hpackage
    refine decode_check_iff.2 ⟨d, t, hrun, (decodeChecksum_of_decode hwf hrun).2 ?_⟩
    rw [hdrop, hpos, hgot]
    refine ⟨_, _, rfl, ?_⟩
    rw [if_pos rfl]
    exact ⟨_, _, [], rfl, length_toBE 4 _, ofBE_toBE_of_lt (BitVec.isLt _)⟩
  exact ⟨hdec, (native_check_iff _ hwf).2 hjudged true exactPools Datum.fresh hdec⟩

/-- An empty package and a section with a type octet that says there is no checksum. -/
def unsummedPackage : List UInt8 :=
  [mkMagic, mkPkg, Datum.datumVersion, mkPkgEnd, mkChk, CheckSum.none.toOctet, mkChkEnd]

/-- **A package without a CRC-32 is accepted.** -/
theorem native_check_unsummed :
    (∃ d t, SerDesNative.decode true exactPools (filledStream [unsummedPackage]) Datum.fresh true =
      some (true, d, t)) ∧
      ¬ ∃ package rest, PackageEnd (filledStream [unsummedPackage]).octets package rest ∧
        Checksummed rest (calcCrc32 package 0xffffffff) := by
  have hwf := wf_filledStream (x := unsummedPackage) (List.cons_ne_nil _ _)
  have hrest : (packageElements (filledStream [unsummedPackage]).octets).2 =
      some [mkChk, CheckSum.none.toOctet, mkChkEnd] := by decide
  have hend : PackageEnd (filledStream [unsummedPackage]).octets emptyPackage
      [mkChk, CheckSum.none.toOctet, mkChkEnd] := ⟨rfl, hrest⟩
  constructor
  · obtain ⟨d, t, hrun, -, hdrop⟩ :=
      decode_of_packageEnd true plentiful_exactPools Datum.fresh hwf hend
    refine decode_check_iff.2 ⟨d, t, hrun, (decodeChecksum_of_decode hwf hrun).2 ?_⟩
    rw [hdrop]
    exact ⟨_, _, rfl, by decide, by decide, List.cons_ne_nil _ _⟩
  · rintro ⟨package, rest, hpackage, tail, heq⟩
    obtain rfl := Option.some.inj (hpackage.2.symm.trans hrest)
    exact absurd (List.cons_eq_cons.1 (List.cons_eq_cons.1 heq).2).1 (by decide)

end CodePort
