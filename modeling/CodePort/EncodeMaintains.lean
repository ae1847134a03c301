/-
What the native encoder does to a stream.

The encoder clears the stream when it opens a package, and from then on it only writes octets.  So a
property of streams that these two keep holds of what it leaves, whatever tree it encodes and whether it
succeeds or not.

Main definitions:

* `CodePort.Writable` — clearing a stream and writing to it keep a property;
* `CodePort.SerDesNative.Maintains` — a function that writes to a stream keeps it.

Main results:

* `CodePort.Datum.maintains_encode` — **the native encoder only clears the stream and writes to it**.
-/

import CodePort.SerDesNative

set_option relaxedAutoImplicit false
set_option autoImplicit false

namespace CodePort

variable {β : Type} [BlockStore β]

/-- What clearing a stream and writing octets to it keep. -/
structure Writable (P : StreamBase β → Prop) : Prop where
  clear : ∀ s, P s → P s.clear
  arrayWr : ∀ s d r, P s → s.arrayWr d = some r → P r.2

namespace SerDesNative

variable {P : StreamBase β → Prop}

/-- The function keeps `P`. -/
def Maintains (P : StreamBase β → Prop) (g : Insert β) : Prop :=
  ∀ ⦃s⦄, P s → ∀ r, g s = some r → P r.2

omit [BlockStore β] in
theorem maintains_done (b : Bool) : Maintains P (Insert.done b) := by
  intro s hs r hr
  obtain rfl := Option.some.inj hr
  exact hs

omit [BlockStore β] in
theorem Maintains.both {f g : Insert β} (hf : Maintains P f) (hg : Maintains P g) : Maintains P (f.both g) := by
  intro s hs r hr
  obtain ⟨⟨ok, t⟩, ht, hr⟩ := Option.bind_eq_some_iff.1 hr
  have hP := hf hs _ ht
  cases ok with
  | true => exact hg hP r hr
  | false =>
      obtain rfl := Option.some.inj hr
      exact hP

variable (h : Writable P)

include h

/-- A write of which only the answer is converted. -/
theorem maintains_arrayWr (d : List UInt8) (f : ℕ → Bool) :
    Maintains P fun s => (s.arrayWr d).map fun r => (f r.1, r.2) := by
  intro s hs r hr
  obtain ⟨r', hr', rfl⟩ := Option.map_eq_some_iff.1 hr
  exact h.arrayWr s d r' hs hr'

theorem maintains_octetInsert (ch : UInt8) : Maintains P (octetInsert ch) :=
  maintains_arrayWr h [ch] fun n => decide (n = 1)

theorem maintains_octetsInsert (l : List UInt8) : Maintains P (octetsInsert l) := by
  induction l with
  | nil => exact maintains_done true
  | cons ch l ih => exact (maintains_octetInsert h ch).both ih

theorem maintains_wordInsert (le : Bool) (w val : ℕ) : Maintains P (wordInsert le w val) :=
  maintains_octetsInsert h _

theorem maintains_lenInsert (le : Bool) (len : ℕ) : Maintains P (lenInsert le len) := by
  rw [lenInsert]
  split_ifs
  · exact maintains_octetInsert h _
  · exact (maintains_octetInsert h _).both ((maintains_octetInsert h _).both (maintains_octetInsert h _))
  · exact (maintains_octetInsert h _).both (maintains_wordInsert h le 4 len)

theorem maintains_valueInsert (le : Bool) (m : MemPools) (v : Variant) : Maintains P (valueInsert le m v) := by
  rw [valueInsert]
  cases v.type with
  | uint8 | int8 => exact maintains_octetInsert h _
  | uint16 | int16 => exact maintains_wordInsert h le 2 _
  | uint32 | int32 | float32 => exact maintains_wordInsert h le 4 _
  | uint64 | int64 | float64 => exact maintains_wordInsert h le 8 _
  | bool => exact maintains_octetInsert h _
  | string =>
      exact (maintains_lenInsert h le _).both
        (maintains_arrayWr h _ fun n => decide (n = (v.strGet le m).length))
  | blob =>
      exact (maintains_lenInsert h le _).both
        (maintains_arrayWr h _ fun n => decide (n = v.buf.lenGet))
  | none => exact maintains_done true
  | inert | datumList => exact maintains_done false

theorem maintains_attribsInsert (le : Bool) (m : MemPools) (dat : Datum) (as : List Attrib) :
    Maintains P (attribsInsert le m dat as) := by
  induction as with
  | nil => exact maintains_done true
  | cons a as ih =>
      rw [attribsInsert, List.foldr_cons, ← attribsInsert]
      cases dat.attribs a with
      | none => exact ih
      | some v =>
          exact ((maintains_octetInsert h _).both
            ((maintains_octetInsert h _).both (maintains_valueInsert h le m v))).both ih

theorem maintains_start (le : Bool) (m : MemPools) (dat : Datum) : Maintains P (start le m dat) :=
  (maintains_octetInsert h mkDat).both (maintains_attribsInsert h le m dat _)

theorem maintains_open (ver : UInt8) : Maintains P («open» ver) := fun s hs r hr =>
  ((maintains_octetInsert h mkMagic).both ((maintains_octetInsert h mkPkg).both (maintains_octetInsert h ver)))
    (h.clear s hs) r hr

theorem maintains_close (le : Bool) (chkMode : CheckSum) : Maintains P (close le chkMode) := by
  refine (maintains_octetInsert h mkPkgEnd).both ?_
  intro s hs r hr
  have hsection : Maintains P (Insert.both
      (fun t : StreamBase β =>
        if chkMode = .crc32 then (t.crc32Get s.pos).bind fun crc => longInsert le crc.toNat t
        else some (true, t))
      (octetInsert mkChkEnd)) := by
    refine Maintains.both ?_ (maintains_octetInsert h mkChkEnd)
    intro t ht r hr
    dsimp only at hr
    by_cases hchk : chkMode = .crc32
    · rw [if_pos hchk] at hr
      obtain ⟨crc, -, hr⟩ := Option.bind_eq_some_iff.1 hr
      exact maintains_wordInsert h le 4 _ ht r hr
    · rw [if_neg hchk] at hr
      obtain rfl := Option.some.inj hr
      exact ht
  dsimp only at hr
  by_cases hnone : chkMode = .none
  · rw [if_pos hnone] at hr
    obtain rfl := Option.some.inj hr
    exact hs
  · rw [if_neg hnone] at hr
    exact ((maintains_octetInsert h mkChk).both ((maintains_octetInsert h _).both hsection)) hs r hr

end SerDesNative

namespace Datum

open SerDesNative

variable {P : StreamBase β → Prop}

mutual

/-- A datum, and the data in it, one after another. -/
theorem maintains_encodeDatum (h : Writable P) (le : Bool) (m : MemPools) :
    ∀ (d : Datum) ⦃s : StreamBase β⦄, P s → ∀ r, d.encodeDatum le m s = some r → P r.2
  | ⟨isInert, self, attribs, iterData, datums⟩, s, hs, r, hr => by
      rw [encodeDatum] at hr
      obtain ⟨⟨started, s₁⟩, h₁, hr⟩ := Option.bind_eq_some_iff.1 hr
      obtain ⟨⟨size, s₂⟩, h₂, hr⟩ := Option.bind_eq_some_iff.1 hr
      obtain ⟨⟨ended, s₃⟩, h₃, hr⟩ := Option.bind_eq_some_iff.1 hr
      obtain rfl := Option.some.inj hr
      have hs₁ := maintains_start h le m _ hs _ h₁
      have hs₂ := maintains_encodeDatums h le m datums hs₁ _ h₂
      exact maintains_octetInsert h mkDatEnd hs₂ _ h₃

theorem maintains_encodeDatums (h : Writable P) (le : Bool) (m : MemPools) :
    ∀ (ds : List Datum) ⦃s : StreamBase β⦄, P s → ∀ r, encodeDatums le m ds s = some r → P r.2
  | [], s, hs, r, hr => by
      obtain rfl := Option.some.inj hr
      exact hs
  | d :: ds, s, hs, r, hr => by
      rw [encodeDatums] at hr
      obtain ⟨⟨size, s₁⟩, h₁, hr⟩ := Option.bind_eq_some_iff.1 hr
      obtain ⟨⟨sizes, s₂⟩, h₂, hr⟩ := Option.bind_eq_some_iff.1 hr
      obtain rfl := Option.some.inj hr
      have hs₁ : P s₁ := maintains_encodeDatum h le m d hs _ h₁
      exact maintains_encodeDatums h le m ds hs₁ (sizes, s₂) h₂

end

/-- **The native encoder only clears the stream and writes to it.** -/
theorem maintains_encode (h : Writable P) (le : Bool) (m : MemPools) (dat : Datum)
    (chkMode : CheckSum) : Maintains P (dat.encode le m chkMode) := by
  intro s hs r hr
  rw [encode] at hr
  split_ifs at hr
  · obtain rfl := Option.some.inj hr
    exact hs
  · refine ((maintains_open h _).both (Maintains.both ?_ (maintains_close h le chkMode))) hs r hr
    intro s hs r hr
    obtain ⟨r', hr', rfl⟩ := Option.map_eq_some_iff.1 hr
    exact maintains_encodeDatum h le m dat hs r' hr'

end Datum

end CodePort
