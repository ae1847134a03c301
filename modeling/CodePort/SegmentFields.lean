/-
The header fields of a segment.

Every field is a window of the header, and a setter overwrites the window of its field.  Two windows
lie apart or are the same; the options and the priority are the only two fields that share one, and
they have different bits of it.  So a setter is seen by the getter of its own field only.

Main definitions:

* `CodePort.writeUint16B`, `writeUint32B`, `joinUint16B`, `joinUint32B` — shifting octets out of a number
  and into one, which does not ask for the byte order of the host;
* `CodePort.HeaderField` — a field, with its offset and its width;
* `CodePort.HeaderOp` — a call of a setter, with the field that it sets and the value that a getter
  returns then;
* `CodePort.HeaderOp.lastSet` — the value that a field was last set to.

Main results:

* `CodePort.HeaderField.apart` — the windows of two fields;
* `CodePort.HeaderOp.get_apply` — **what one setter changes**;
* `CodePort.header_fields_independent` — **every getter returns the value last set**.
-/

import CodePort.IpcSegment
import Mathlib.Data.List.Induction

set_option relaxedAutoImplicit false
set_option autoImplicit false

namespace CodePort

open BlockList IpcSegment Octets

/-! ### Numbers in network order -/

/-- The octets that `WriteUint16B` stores. -/
def writeUint16B (val : UInt16) : List UInt8 := [(val >>> 8).toUInt8, val.toUInt8]

/-- The octets that `WriteUint32B` stores. -/
def writeUint32B (val : UInt32) : List UInt8 :=
  [(val >>> 24).toUInt8, (val >>> 16).toUInt8, (val >>> 8).toUInt8, val.toUInt8]

/-- The number that `ReadUint16B` makes of two octets. -/
def joinUint16B (p₀ p₁ : UInt8) : UInt16 := p₀.toUInt16 <<< 8 ||| p₁.toUInt16

/-- The number that `ReadUint32B` makes of four octets. -/
def joinUint32B (p₀ p₁ p₂ p₃ : UInt8) : UInt32 :=
  p₀.toUInt32 <<< 24 ||| p₁.toUInt32 <<< 16 ||| p₂.toUInt32 <<< 8 ||| p₃.toUInt32

theorem toBE_toNat_uint16 (val : UInt16) : toBE 2 val.toNat = writeUint16B val := by
  simp only [toBE, writeUint16B, List.cons.injEq, and_true, ← UInt8.toNat_inj]
  simp [Nat.shiftRight_eq_div_pow]

theorem toBE_toNat_uint32 (val : UInt32) : toBE 4 val.toNat = writeUint32B val := by
  simp only [toBE, writeUint32B, List.cons.injEq, and_true, ← UInt8.toNat_inj]
  simp [Nat.shiftRight_eq_div_pow]

/-- An octet is put behind a number. -/
theorem shiftLeft_or {a b : ℕ} (hb : b < 256) : a <<< 8 ||| b = a * 256 + b := by
  have hshift : a * 256 = a <<< 8 := by simp [Nat.shiftLeft_eq]
  rw [hshift, ← Nat.shiftLeft_add_eq_or_of_lt (by omega)]

theorem readUint16B_cons (p₀ p₁ : UInt8) (l : List UInt8) :
    readUint16B (p₀ :: p₁ :: l) = (joinUint16B p₀ p₁).toNat := by
  have h₀ := p₀.toNat_lt
  have hmod : p₀.toNat <<< 8 % 2 ^ 16 = p₀.toNat <<< 8 := by
    rw [Nat.shiftLeft_eq, Nat.mod_eq_of_lt (by omega)]
  rw [joinUint16B, UInt16.toNat_or, UInt16.toNat_shiftLeft]
  simp only [UInt8.toNat_toUInt16, UInt16.reduceToNat, Nat.reduceMod, hmod, shiftLeft_or p₁.toNat_lt]
  simp [readUint16B, ofBE]

theorem readUint32B_cons (p₀ p₁ p₂ p₃ : UInt8) (l : List UInt8) :
    readUint32B (p₀ :: p₁ :: p₂ :: p₃ :: l) = (joinUint32B p₀ p₁ p₂ p₃).toNat := by
  have h₀ := p₀.toNat_lt
  have h₁ := p₁.toNat_lt
  have h₂ := p₂.toNat_lt
  have hmod : ∀ a k : ℕ, a < 256 → k ≤ 24 → a <<< k % 2 ^ 32 = a <<< k := by
    intro a k ha hk
    have hpow : 2 ^ k ≤ 2 ^ 24 := Nat.pow_le_pow_right (by decide) hk
    have hmul : a * 2 ^ k ≤ 255 * 2 ^ 24 := Nat.mul_le_mul (by omega) hpow
    rw [Nat.shiftLeft_eq, Nat.mod_eq_of_lt (by omega)]
  -- the shifts are nested, one octet after another
  have hnest : p₀.toNat <<< 24 ||| p₁.toNat <<< 16 ||| p₂.toNat <<< 8 ||| p₃.toNat =
      ((p₀.toNat <<< 8 ||| p₁.toNat) <<< 8 ||| p₂.toNat) <<< 8 ||| p₃.toNat := by
    simp only [Nat.shiftLeft_or_distrib, ← Nat.shiftLeft_add]
  simp only [joinUint32B, UInt32.toNat_or, UInt32.toNat_shiftLeft, UInt8.toNat_toUInt32,
    UInt32.reduceToNat, Nat.reduceMod, hmod _ 24 h₀ (by decide), hmod _ 16 h₁ (by decide),
    hmod _ 8 h₂ (by decide), hnest, shiftLeft_or h₁, shiftLeft_or h₂, shiftLeft_or p₃.toNat_lt]
  change ofBE [p₀, p₁, p₂, p₃] = _
  simp only [ofBE, List.length_cons, List.length_nil]
  ring

/-! ### Fields -/

namespace IpcSegment

/-- Returns the segment version. -/
def ver (s : IpcSegment) : UInt8 := s.octetAt segVersion

/-- Returns the first long word in the payload buffer. -/
def dataGetLong (s : IpcSegment) : ℕ := readUint32B (s.buf.mem.drop segData)

/-- Returns the payload data in a buffer. -/
def dataGet (m : MemPools) (s : IpcSegment) (buf : Buffer) : Bool × Buffer :=
  buf.copyIn m (s.body.take s.dataLen)

/-- Returns the globally unique ID, put together from its two halves. -/
def guidGet (s : IpcSegment) : UInt64 :=
  let guid := UInt64.ofNat s.srcAddr
  let guid := guid <<< 32
  guid ||| UInt64.ofNat s.msgId

/-- The octets of a window of the buffer. -/
def octetsAt (s : IpcSegment) (offset width : ℕ) : List UInt8 := (s.buf.mem.drop offset).takeD width 0

end IpcSegment

/-- The fields of the header. -/
inductive HeaderField
  | ver
  | options
  | priority
  | fragNum
  | srcAddr
  | dstAddr
  | msgId
  | context
  | msgType
  | ctlCode
  | dataLen
  deriving DecidableEq

namespace HeaderField

/-- Where the octets of a field start. -/
def offset : HeaderField → ℕ
  | ver => segVersion
  | options => segOptions
  | priority => segOptions
  | fragNum => segFragNum
  | srcAddr => segSrcAddr
  | dstAddr => segDstAddr
  | msgId => segMsgId
  | context => segContext
  | msgType => segMsgType
  | ctlCode => segCtlCode
  | dataLen => segDataLen

/-- How many octets a field has. -/
def width : HeaderField → ℕ
  | ver | options | priority | msgType | ctlCode => 1
  | fragNum | dataLen => 2
  | srcAddr | dstAddr | msgId | context => 4

/-- What the getter of a field makes of its octets. -/
def decode : HeaderField → List UInt8 → ℕ
  | options, l => (l.headD 0 &&& 0xfc).toNat
  | priority, l => (l.headD 0 &&& 0x03).toNat
  | _, l => ofBE l

end HeaderField

/-- What the getter of a field returns. -/
def IpcSegment.get (s : IpcSegment) : HeaderField → ℕ
  | .ver => s.ver.toNat
  | .options => s.options.toNat
  | .priority => s.priority.toNat
  | .fragNum => s.fragNum
  | .srcAddr => s.srcAddr
  | .dstAddr => s.dstAddr
  | .msgId => s.msgId
  | .context => s.context
  | .msgType => s.msgType.toNat
  | .ctlCode => s.ctlCode.toNat
  | .dataLen => s.dataLen

/-- A call of a setter. -/
inductive HeaderOp
  | options (data : UInt8)
  | priority (data : UInt8)
  | fragNum (val : UInt16)
  | srcAddr (addr : UInt32)
  | dstAddr (addr : UInt32)
  | msgId (val : UInt32)
  | context (val : UInt32)
  | msgType (val : UInt8)
  | ctlCode (val : UInt8)
  | dataLen (len : ℕ)

namespace HeaderOp

/-- The segment after a call. -/
def apply (s : IpcSegment) : HeaderOp → IpcSegment
  | options data => s.setOptions data
  | priority data => s.setPriority data
  | fragNum val => s.setFragNum val.toNat
  | srcAddr addr => s.setSrcAddr addr.toNat
  | dstAddr addr => s.setDstAddr addr.toNat
  | msgId val => s.setMsgId val.toNat
  | context val => s.setContext val.toNat
  | msgType val => s.setMsgType val
  | ctlCode val => s.setCtlCode val
  | dataLen len => s.setDataLen len

/-- The field that is set. -/
def field : HeaderOp → HeaderField
  | options _ => .options
  | priority _ => .priority
  | fragNum _ => .fragNum
  | srcAddr _ => .srcAddr
  | dstAddr _ => .dstAddr
  | msgId _ => .msgId
  | context _ => .context
  | msgType _ => .msgType
  | ctlCode _ => .ctlCode
  | dataLen _ => .dataLen

/-- The value that the getter is to return afterwards. -/
def value : HeaderOp → ℕ
  | options data => (data &&& 0xfc).toNat
  | priority data => min data.toNat 3
  | fragNum val => val.toNat
  | srcAddr addr => addr.toNat
  | dstAddr addr => addr.toNat
  | msgId val => val.toNat
  | context val => val.toNat
  | msgType val => val.toNat
  | ctlCode val => val.toNat
  | dataLen len => min len capacity

/-- The value that a field was last set to. -/
def lastSet (f : HeaderField) (ops : List HeaderOp) : Option ℕ :=
  ((ops.filter fun o => o.field = f).getLast?).map value

end HeaderOp

/-! ### Windows -/

namespace HeaderField

/-- Every field lies in the header. -/
theorem offset_add_width_le (f : HeaderField) : f.offset + f.width ≤ segData := by
  cases f <;> decide

theorem width_pos (f : HeaderField) : 0 < f.width := by cases f <;> decide

/-- **Two fields have the same window, or lie apart.** -/
theorem apart (f g : HeaderField) : f.offset = g.offset ∧ f.width = g.width ∨
    f.offset + f.width ≤ g.offset ∨ g.offset + g.width ≤ f.offset := by
  cases f <;> cases g <;> decide

/-- Only the options and the priority share a window. -/
theorem offset_eq_iff (f g : HeaderField) : f.offset = g.offset ↔
    f = g ∨ f = options ∧ g = priority ∨ f = priority ∧ g = options := by
  cases f <;> cases g <;> decide

end HeaderField

namespace IpcSegment

variable {s : IpcSegment}

/-- A window holds what was written to it. -/
theorem octetsAt_hdrWr_self (h : s.Full) {offset : ℕ} {d : List UInt8}
    (hd : offset + d.length ≤ segData) : (s.hdrWr offset d).octetsAt offset d.length = d := by
  have hle : offset + d.length ≤ s.buf.mem.length := hd.trans (le_trans (by decide) h)
  have hlen : (overwrite s.buf.mem offset d).length = s.buf.mem.length := length_overwrite_of_le hle
  rw [octetsAt, hdrWr, Buffer.mem_memWr h.size_pos,
    List.takeD_eq_take _ (by rw [List.length_drop, hlen]; omega), take_drop_overwrite (by omega)]

/-- A window that lies apart is left alone. -/
theorem octetsAt_hdrWr_of_apart (h : s.Full) {offset : ℕ} {d : List UInt8}
    (hd : offset + d.length ≤ segData) {o w : ℕ} (ho : o + w ≤ offset ∨ offset + d.length ≤ o) :
    (s.hdrWr offset d).octetsAt o w = s.octetsAt o w := by
  have hseg : segData ≤ s.buf.mem.length := le_trans (by decide) h
  have hle : offset ≤ s.buf.mem.length := by omega
  refine List.ext_getElem? fun i => ?_
  rw [octetsAt, octetsAt, hdrWr, Buffer.mem_memWr h.size_pos, getElem?_takeD, getElem?_takeD]
  split_ifs with hi
  · rw [List.getElem?_drop, List.getElem?_drop, getElem?_overwrite hle]
    rcases ho with ho | ho
    · rw [if_pos (by omega)]
    · rw [if_neg (by omega), if_neg (by omega)]
  · rfl

/-- A getter reads the window of its field. -/
theorem get_eq_decode (s : IpcSegment) (f : HeaderField) :
    s.get f = f.decode (s.octetsAt f.offset f.width) := by
  have hoctet : ∀ o, s.octetsAt o 1 = [s.octetAt o] := by
    intro o
    rw [octetsAt, octetAt, List.takeD_succ, List.takeD_zero, List.head?_drop, List.getD_eq_getElem?_getD]
  have hone : ∀ x : UInt8, ofBE [x] = x.toNat := by
    intro x
    simp [ofBE]
  cases f with
  | ver | msgType | ctlCode =>
      simp only [HeaderField.decode, HeaderField.offset, HeaderField.width, hoctet, hone]
      rfl
  | options | priority =>
      simp only [HeaderField.decode, HeaderField.offset, HeaderField.width, hoctet]
      rfl
  | _ => rfl

end IpcSegment

/-! ### Setters -/

namespace HeaderOp

/-- Bits that are masked out of a number do not come back when others are put into it. -/
theorem or_and_mask (x d : UInt8) {a b : UInt8} (hab : a &&& b = 0) :
    (x &&& a ||| d &&& b) &&& b = d &&& b := by
  have hbits : a.toBitVec &&& b.toBitVec = 0 := by simpa using congrArg UInt8.toBitVec hab
  apply UInt8.toBitVec_inj.1
  simp only [UInt8.toBitVec_and, UInt8.toBitVec_or]
  ext i hi
  have hbit := congrArg (fun v : BitVec 8 => v.getLsbD i) hbits
  simp at hbit ⊢
  grind

/-- The priority is bounded. -/
theorem toNat_clamp (data : UInt8) :
    ((if data > ipcMinimumPriority then ipcMinimumPriority else data) &&& 0x03).toNat =
      min data.toNat 3 := by
  split_ifs with h
  · have hlt : 3 < data.toNat := h
    rw [min_eq_right hlt.le]
    rfl
  · have hle : ¬ 3 < data.toNat := h
    have hmask : (0x03 : UInt8).toNat = 2 ^ 2 - 1 := rfl
    rw [UInt8.toNat_and, hmask, Nat.and_two_pow_sub_one_eq_mod]
    omega

theorem toNat_dataLen (len : ℕ) :
    ofBE (toBE 2 (if len < capacity then len else capacity)) = min len capacity := by
  have hcap : capacity = 1000 := rfl
  rw [ofBE_toBE]
  split_ifs <;> omega

/-- What a setter writes: the octets of its field, of which only the getter of the field makes another
value. -/
def Writes (s : IpcSegment) (o : HeaderOp) (d : List UInt8) : Prop :=
  o.apply s = s.hdrWr o.field.offset d ∧ d.length = o.field.width ∧
    ∀ f : HeaderField, f.offset = o.field.offset →
      f.decode d = if f = o.field then o.value else s.get f

/-- A field that shares its window with no other. -/
theorem writes_of_sole {s : IpcSegment} {o : HeaderOp} {d : List UInt8}
    (happly : o.apply s = s.hdrWr o.field.offset d) (hlen : d.length = o.field.width)
    (hsole : o.field ≠ .options ∧ o.field ≠ .priority) (hd : o.field.decode d = o.value) :
    Writes s o d := by
  refine ⟨happly, hlen, fun f hf => ?_⟩
  obtain rfl : f = o.field := by
    rcases (HeaderField.offset_eq_iff _ _).1 hf with heq | ⟨-, hc⟩ | ⟨-, hc⟩
    · exact heq
    · exact absurd hc hsole.2
    · exact absurd hc hsole.1
  rw [if_pos rfl, hd]

theorem exists_writes (s : IpcSegment) (o : HeaderOp) : ∃ d, Writes s o d := by
  have hshort : ∀ val : UInt16, ofBE (toBE 2 val.toNat) = val.toNat := fun val =>
    ofBE_toBE_of_lt val.toNat_lt
  have hlong : ∀ val : UInt32, ofBE (toBE 4 val.toNat) = val.toNat := fun val =>
    ofBE_toBE_of_lt val.toNat_lt
  have hone : ∀ x : UInt8, ofBE [x] = x.toNat := by
    intro x
    simp [ofBE]
  cases o with
  | options data =>
      refine ⟨_, rfl, rfl, fun f hf => ?_⟩
      rcases (HeaderField.offset_eq_iff _ _).1 hf with rfl | ⟨-, hc⟩ | ⟨rfl, -⟩
      · exact congrArg UInt8.toNat (or_and_mask _ data (by decide))
      · exact absurd hc (by simp [field])
      · refine congrArg UInt8.toNat ?_
        rw [UInt8.or_comm]
        exact or_and_mask data _ (by decide)
  | priority data =>
      refine ⟨_, rfl, rfl, fun f hf => ?_⟩
      rcases (HeaderField.offset_eq_iff _ _).1 hf with rfl | ⟨rfl, -⟩ | ⟨-, hc⟩
      · exact (congrArg UInt8.toNat (or_and_mask _ _ (by decide))).trans (toNat_clamp data)
      · refine congrArg UInt8.toNat ?_
        rw [UInt8.or_comm]
        exact or_and_mask _ _ (by decide)
      · exact absurd hc (by simp [field])
  | fragNum val => exact ⟨_, writes_of_sole rfl (length_toBE _ _) (by simp [field]) (hshort val)⟩
  | srcAddr addr => exact ⟨_, writes_of_sole rfl (length_toBE _ _) (by simp [field]) (hlong addr)⟩
  | dstAddr addr => exact ⟨_, writes_of_sole rfl (length_toBE _ _) (by simp [field]) (hlong addr)⟩
  | msgId val => exact ⟨_, writes_of_sole rfl (length_toBE _ _) (by simp [field]) (hlong val)⟩
  | context val => exact ⟨_, writes_of_sole rfl (length_toBE _ _) (by simp [field]) (hlong val)⟩
  | msgType val => exact ⟨_, writes_of_sole rfl rfl (by simp [field]) (hone val)⟩
  | ctlCode val => exact ⟨_, writes_of_sole rfl rfl (by simp [field]) (hone val)⟩
  | dataLen len =>
      exact ⟨_, writes_of_sole rfl (length_toBE _ _) (by simp [field]) (toNat_dataLen len)⟩

variable {s : IpcSegment}

/-- **What one setter changes**: what the getter of its own field returns. -/
theorem get_apply (h : s.Full) (o : HeaderOp) (f : HeaderField) :
    (o.apply s).get f = if f = o.field then o.value else s.get f := by
  obtain ⟨d, happly, hlen, hdecode⟩ := exists_writes s o
  have hd : o.field.offset + d.length ≤ segData := by
    rw [hlen]
    exact o.field.offset_add_width_le
  rw [get_eq_decode, happly]
  rcases HeaderField.apart f o.field with ⟨hoffset, hwidth⟩ | hapart
  · rw [hoffset, hwidth, ← hlen, octetsAt_hdrWr_self h hd]
    exact hdecode f hoffset
  · have hne : f ≠ o.field := by
      rintro rfl
      have hpos := o.field.width_pos
      omega
    rw [if_neg hne, get_eq_decode]
    exact congrArg f.decode (octetsAt_hdrWr_of_apart h hd (by rw [hlen]; exact hapart))

theorem full_apply (h : s.Full) (o : HeaderOp) : (o.apply s).Full := by
  obtain ⟨d, happly, -⟩ := exists_writes s o
  rw [happly]
  exact h.hdrWr _ _

/-- **No setter changes the payload.** -/
theorem body_apply (h : s.Full) (o : HeaderOp) : (o.apply s).body = s.body := by
  obtain ⟨d, happly, hlen, -⟩ := exists_writes s o
  rw [happly]
  refine body_hdrWr h ?_
  rw [hlen]
  exact o.field.offset_add_width_le

/-! ### Many setters -/

theorem full_foldl (h : s.Full) (ops : List HeaderOp) : (ops.foldl apply s).Full := by
  induction ops generalizing s with
  | nil => exact h
  | cons o ops ih => exact ih (full_apply h o)

theorem body_foldl (h : s.Full) (ops : List HeaderOp) : (ops.foldl apply s).body = s.body := by
  induction ops generalizing s with
  | nil => rfl
  | cons o ops ih => exact (ih (full_apply h o)).trans (body_apply h o)

theorem lastSet_concat (f : HeaderField) (ops : List HeaderOp) (o : HeaderOp) :
    lastSet f (ops ++ [o]) = if f = o.field then some o.value else lastSet f ops := by
  rw [lastSet, List.filter_append]
  by_cases hf : f = o.field
  · rw [if_pos hf, List.filter_cons_of_pos (by simp [hf]), List.filter_nil, List.getLast?_concat]
    rfl
  · rw [if_neg hf, List.filter_cons_of_neg (by simpa using Ne.symm hf), List.filter_nil,
      List.append_nil]
    rfl

/-- **A getter returns the value last set**, and what it returned before if none was. -/
theorem get_foldl (h : s.Full) (f : HeaderField) (ops : List HeaderOp) :
    (ops.foldl apply s).get f = (lastSet f ops).getD (s.get f) := by
  induction ops using List.reverseRecOn with
  | nil => rfl
  | append_singleton ops o ih =>
      rw [List.foldl_append, List.foldl_cons, List.foldl_nil, get_apply (full_foldl h ops), ih,
        lastSet_concat]
      split_ifs <;> rfl

end HeaderOp

namespace IpcSegment

/-- The ID is put together without loss. -/
theorem toNat_guidGet (s : IpcSegment) : s.guidGet.toNat = s.guid := by
  have hlt : ∀ l : List UInt8, readUint32B l < 2 ^ 32 := by
    intro l
    have h := ofBE_lt (l.takeD 4 0)
    rw [List.takeD_length] at h
    exact h
  have hsrc : s.srcAddr < 2 ^ 32 := hlt _
  have hmsg : s.msgId < 2 ^ 32 := hlt _
  have hshift : s.srcAddr <<< 32 % 2 ^ 64 = s.srcAddr <<< 32 := by
    rw [Nat.shiftLeft_eq, Nat.mod_eq_of_lt (by omega)]
  have hsize : UInt64.size = 2 ^ 64 := rfl
  have hsrc64 : (UInt64.ofNat s.srcAddr).toNat = s.srcAddr := UInt64.toNat_ofNat_of_lt' (by omega)
  have hmsg64 : (UInt64.ofNat s.msgId).toNat = s.msgId := UInt64.toNat_ofNat_of_lt' (by omega)
  rw [guidGet, UInt64.toNat_or, UInt64.toNat_shiftLeft, hsrc64, hmsg64]
  simp only [UInt64.reduceToNat, Nat.reduceMod, hshift]
  rw [← Nat.shiftLeft_add_eq_or_of_lt hmsg, Nat.shiftLeft_eq, guid]

/-- The first long word of the payload is read from the payload. -/
theorem dataGetLong_eq (s : IpcSegment) : s.dataGetLong = readUint32B s.body := rfl

end IpcSegment

open HeaderOp in
/-- **The header fields are independent.**  After any setters every getter returns the value last set, or
what it returned in the beginning; one more setter is seen by no other getter, and the payload is what it
was; and the ID is made of the source address and the message ID. -/
theorem header_fields_independent {s : IpcSegment} (hs : s.Full) (ops : List HeaderOp) :
    let t := ops.foldl apply s
    (∀ f, t.get f = (lastSet f ops).getD (s.get f)) ∧ t.body = s.body ∧
    (∀ o : HeaderOp, (o.apply t).get o.field = o.value ∧
      (∀ f, f ≠ o.field → (o.apply t).get f = t.get f) ∧
      (o.apply t).body = t.body ∧ (o.apply t).dataGetLong = t.dataGetLong ∧
      ∀ m buf, (o.apply t).dataGet m buf =
        buf.copyIn m (t.body.take (if o.field = .dataLen then o.value else t.dataLen))) ∧
    t.guidGet.toNat = t.srcAddr * 2 ^ 32 + t.msgId := by
  intro t
  have ht : t.Full := full_foldl hs ops
  refine ⟨fun f => get_foldl hs f ops, body_foldl hs ops, fun o => ?_, toNat_guidGet _⟩
  have hbody := body_apply ht o
  refine ⟨?_, ?_, hbody, ?_, ?_⟩
  · rw [get_apply ht, if_pos rfl]
  · intro f hf
    rw [get_apply ht, if_neg hf]
  · rw [dataGetLong_eq, dataGetLong_eq, hbody]
  · intro m buf
    have hlen : (o.apply t).dataLen = if o.field = .dataLen then o.value else t.dataLen := by
      have hget := get_apply ht o .dataLen
      simp only [@eq_comm _ HeaderField.dataLen] at hget
      exact hget
    rw [dataGet, hbody, hlen]

/-- A segment gets options, a priority and a length that are out of range, and options again. -/
def sampleSetters : List HeaderOp := [.options 0xff, .priority 9, .dataLen 5000, .options 0x23]

open HeaderOp in
theorem header_fields_independent_sample :
    let t := sampleSetters.foldl apply (IpcSegment.construct exactPools)
    t.get .options = 0x20 ∧ t.get .priority = 3 ∧ t.get .dataLen = 1000 ∧
      t.body = (IpcSegment.construct exactPools).body := by
  have hfull : (IpcSegment.construct exactPools).Full :=
    full_construct (plentiful_exactPools segMaxLen)
  obtain ⟨hget, hbody, -⟩ := header_fields_independent hfull sampleSetters
  exact ⟨hget .options, hget .priority, hget .dataLen, hbody⟩

end CodePort
