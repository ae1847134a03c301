/-
Messages that are sent while others arrive.

The accumulator thread does not know which messages are under way.  Seen from outside there are the
messages that have been sent, the segments that have been accumulated and the octets that are still
on their way, and the three change all the time: a message is sent, a segment arrives.

Main definitions:

* `CodePort.wireKey` — what the accumulators ask of a segment, in the octets of the segment;
* `CodePort.Delivering` — **the invariant of the delivery**: what has been sent is what has been
  accumulated and what is on its way, and a message is delivered when nothing of it is on its way.

Main results:

* `CodePort.Delivering.send` — a new message may be sent at any time;
* `CodePort.Delivering.receive` — **a segment that arrives keeps the invariant**;
* `CodePort.Delivering.views` — what the invariant says about the messages that a reader finds.
-/

import CodePort.MessageView

set_option relaxedAutoImplicit false
set_option autoImplicit false

namespace CodePort

open IpcSegment IpcAccumMap

/-! ### What the accumulators ask of a segment -/

/-- The globally unique ID of a message. -/
def MessageView.guid (v : MessageView) : ℕ := v.srcAddr * 2 ^ 32 + v.msgId

/-- The globally unique ID in the octets of a segment. -/
def wireGuid (w : List UInt8) : ℕ := wireGet w .srcAddr * 2 ^ 32 + wireGet w .msgId

namespace SegPtr

/-- What the accumulators ask of a segment: the ID of its message, its number and the two flags. -/
def key (p : SegPtr) : ℕ × ℕ × Bool × Bool := (p.guid, p.fragNum, p.multipart, p.initial)

/-- A segment with these octets. -/
def ofWire (w : List UInt8) : SegPtr := ⟨0, ⟨⟨some w, w.length, Nat.le_of_eq rfl⟩⟩⟩

@[simp] theorem wire_ofWire (w : List UInt8) : (ofWire w).wire = w := List.take_length

end SegPtr

/-- The same, in the octets of the segment. -/
def wireKey (w : List UInt8) : ℕ × ℕ × Bool × Bool :=
  let options := w.getD segOptions 0 &&& 0xfc
  (wireGuid w, numOf w, decide (options &&& optMultipart ≠ 0), decide (options &&& optInitial ≠ 0))

namespace SegPtr

theorem key_eq {p : SegPtr} (h : segData ≤ p.wire.length) : p.key = wireKey p.wire := by
  rw [wire, Buffer.length_data] at h
  have hsrc : p.seg.srcAddr = wireGet p.wire .srcAddr := get_eq_wireGet h .srcAddr
  have hid : p.seg.msgId = wireGet p.wire .msgId := get_eq_wireGet h .msgId
  have hnum : p.fragNum = numOf p.wire := fragNum_eq h
  rw [key, guid, IpcSegment.guid, hsrc, hid, hnum, multipart, initial, options_eq h]
  rfl

theorem guid_eq {p : SegPtr} (h : segData ≤ p.wire.length) : p.guid = wireGuid p.wire :=
  congrArg Prod.fst (key_eq h)

end SegPtr

/-! ### The accumulators and what is to come -/

namespace IpcAccumMap

/-- The keys of the segments of one message. -/
theorem map_key_ofGuid (g : ℕ) (l : List SegPtr) :
    (ofGuid g l).map SegPtr.key = (l.map SegPtr.key).filter fun k => k.1 = g := by
  rw [ofGuid, List.filter_map]
  rfl

/-- A set of fragments is known by the keys. -/
theorem messageSet_congr {l l' : List SegPtr} (h : (l.map SegPtr.key).Perm (l'.map SegPtr.key)) {n : ℕ}
    (hset : MessageSet l n) : MessageSet l' n := by
  have hback : ∀ p ∈ l', ∃ q ∈ l, q.key = p.key := fun p hp =>
    List.mem_map.1 (h.mem_iff.2 (List.mem_map_of_mem hp))
  refine ⟨?_, fun p hp => ?_, fun p hp => ?_⟩
  · have hnums := h.map fun k => k.2.1
    rw [List.map_map, List.map_map] at hnums
    exact hnums.symm.trans hset.numbers
  · obtain ⟨q, hq, hkey⟩ := hback p hp
    have hm := hset.multipart q hq
    rwa [show q.multipart = p.multipart from congrArg (fun k => k.2.2.1) hkey] at hm
  · obtain ⟨q, hq, hkey⟩ := hback p hp
    have hi := hset.initial q hq
    rwa [show q.initial = p.initial from congrArg (fun k => k.2.2.2) hkey,
      show q.fragNum = p.fragNum from congrArg (fun k => k.2.1) hkey] at hi

variable {l rest rest' : List SegPtr} {m : AList fun _ : ℕ => IpcAccum}

/-- **The segments that are to come are known by their keys**, and in any order. -/
theorem Reassembling.congr (h : Reassembling l rest m)
    (hkeys : (rest.map SegPtr.key).Perm (rest'.map SegPtr.key)) : Reassembling l rest' m := by
  have hof : ∀ g, ((ofGuid g rest).map SegPtr.key).Perm ((ofGuid g rest').map SegPtr.key) := by
    intro g
    rw [map_key_ofGuid, map_key_ofGuid]
    exact hkeys.filter _
  have hnil : ∀ g, ofGuid g rest = [] ↔ ofGuid g rest' = [] := by
    intro g
    have hlen := (hof g).length_eq
    rw [List.length_map, List.length_map] at hlen
    rw [← List.length_eq_zero_iff, ← List.length_eq_zero_iff, hlen]
  constructor
  · intro g hg
    rw [← hnil g] at hg
    exact h.absent g hg
  · intro g hl hr
    rw [Ne, ← hnil g] at hr
    obtain ⟨a, ha, hrec⟩ := h.present g hl hr
    refine ⟨a, ha, fun n hset => hrec n (messageSet_congr ?_ hset)⟩
    rw [List.map_append, List.map_append]
    exact (hof g).symm.append_left _

/-- Segments of messages of which nothing has arrived may be to come, too. -/
theorem Reassembling.append (h : Reassembling l rest m) {new : List SegPtr}
    (hnew : ∀ p ∈ new, ofGuid p.guid l = []) : Reassembling l (rest ++ new) m := by
  have hnone : ∀ g, ofGuid g l ≠ [] → ofGuid g new = [] := by
    intro g hl
    refine List.filter_eq_nil_iff.2 fun p hp hg => ?_
    rw [decide_eq_true_iff] at hg
    exact hl (hg ▸ hnew p hp)
  constructor
  · rintro g (hg | hg)
    · exact h.absent g (.inl hg)
    · rw [ofGuid_append] at hg
      exact h.absent g (.inr (List.append_eq_nil_iff.1 hg).1)
  · intro g hl hr
    rw [ofGuid_append, hnone g hl, List.append_nil] at hr ⊢
    exact h.present g hl hr

end IpcAccumMap

/-! ### The messages that have been sent -/

/-- A message, and the octets of its segments. -/
abbrev SentMessage : Type := MessageView × List (List UInt8)

/-- **The messages that have been sent**: their octets are on the wire, and no two of them have the same
ID. -/
structure AreSent (msgs : List SentMessage) : Prop where
  onWire : ∀ x ∈ msgs, OnWire x.1 x.2
  nodup : (msgs.map fun x => x.1.guid).Nodup

namespace AreSent

variable {msgs : List SentMessage}

theorem guid_mem (h : AreSent msgs) {x : SentMessage} (hx : x ∈ msgs) {w : List UInt8} (hw : w ∈ x.2) :
    wireGuid w = x.1.guid := by
  rw [MessageView.guid, ← (h.onWire x hx).read_mem hw]
  rfl

theorem length_mem (h : AreSent msgs) {w : List UInt8} (hw : w ∈ msgs.flatMap Prod.snd) :
    segData ≤ w.length := by
  obtain ⟨x, hx, hwx⟩ := List.mem_flatMap.1 hw
  exact ((h.onWire x hx).length_mem.2 w hwx).1

/-- Two messages with one ID are one message. -/
theorem eq_of_guid (h : AreSent msgs) {x y : SentMessage} (hx : x ∈ msgs) (hy : y ∈ msgs)
    (hg : x.1.guid = y.1.guid) : x = y := List.inj_on_of_nodup_map h.nodup hx hy hg

/-- The octets with the ID of a message are those of the message. -/
theorem filter_guid (h : AreSent msgs) {x : SentMessage} (hx : x ∈ msgs) :
    ((msgs.flatMap Prod.snd).filter fun w => wireGuid w = x.1.guid) = x.2 := by
  obtain ⟨pre, post, rfl⟩ := List.append_of_mem hx
  have hself : (x.2.filter fun w => wireGuid w = x.1.guid) = x.2 :=
    List.filter_eq_self.2 fun w hw => by simpa using h.guid_mem hx hw
  have hother : ∀ {l : List SentMessage}, (∀ y ∈ l, y ∈ pre ++ x :: post ∧ y.1.guid ≠ x.1.guid) →
      ((l.flatMap Prod.snd).filter fun w => wireGuid w = x.1.guid) = [] := by
    intro l hl
    refine List.filter_eq_nil_iff.2 fun w hw => ?_
    obtain ⟨y, hy, hwy⟩ := List.mem_flatMap.1 hw
    rw [decide_eq_true_iff, h.guid_mem (hl y hy).1 hwy]
    exact (hl y hy).2
  have hnodup := h.nodup
  rw [List.map_append, List.map_cons, List.nodup_append] at hnodup
  obtain ⟨-, hpost, hpre⟩ := hnodup
  rw [List.flatMap_append, List.flatMap_cons, List.filter_append, List.filter_append, hself,
    hother fun y hy => ⟨List.mem_append_left _ hy, ?_⟩,
    hother fun y hy => ⟨List.mem_append_right _ (List.mem_cons_of_mem _ hy), ?_⟩, List.nil_append,
    List.append_nil]
  · intro hg
    refine (List.nodup_cons.1 hpost).1 ?_
    rw [← hg]
    exact List.mem_map_of_mem hy
  · exact hpre _ (List.mem_map_of_mem hy) _ List.mem_cons_self

theorem append (h : AreSent msgs) {x : SentMessage} (hx : OnWire x.1 x.2)
    (hnew : x.1.guid ∉ msgs.map fun y => y.1.guid) : AreSent (msgs ++ [x]) := by
  refine ⟨fun y hy => ?_, ?_⟩
  · rcases List.mem_append.1 hy with hy | hy
    · exact h.onWire y hy
    · rw [List.mem_singleton.1 hy]
      exact hx
  · rw [List.map_append, List.nodup_append]
    refine ⟨h.nodup, List.nodup_singleton _, ?_⟩
    intro g hg g' hg' heq
    rw [heq, List.mem_singleton.1 hg'] at hg
    exact hnew hg

end AreSent

/-! ### The invariant of the delivery -/

/-- A message that has been delivered is the message that was sent, in the context that it names. -/
def IsDelivery (d : ℕ × List SegPtr) (x : SentMessage) : Prop :=
  d.1 = x.1.context ∧ d.2.map SegPtr.wire = x.2

/-- **The invariant of the delivery.**  The messages `msgs` have been sent; their segments have been
accumulated, which are those in `l`, or are on their way, which are the octets in `ws`; and the
messages of which nothing is on its way have been delivered, in the order of `delivered`. -/
structure Delivering (msgs : List SentMessage) (l : List SegPtr) (ws : List (List UInt8))
    (m : AList fun _ : ℕ => IpcAccum) (delivered : List (ℕ × List SegPtr)) : Prop where
  sent : AreSent msgs
  flow : (l.map SegPtr.wire ++ ws).Perm (msgs.flatMap Prod.snd)
  reassembling : Reassembling l (ws.map SegPtr.ofWire) m
  split : ∃ done todo, msgs.Perm (done ++ todo) ∧ List.Forall₂ IsDelivery delivered done ∧
    (∀ x ∈ done, ∀ w ∈ ws, wireGuid w ≠ x.1.guid) ∧ ∀ x ∈ todo, ∃ w ∈ ws, wireGuid w = x.1.guid

namespace Delivering

variable {msgs : List SentMessage} {l : List SegPtr} {ws ws' : List (List UInt8)}
  {m : AList fun _ : ℕ => IpcAccum} {delivered : List (ℕ × List SegPtr)}

theorem nil : Delivering [] [] [] ∅ [] where
  sent := ⟨fun x hx => absurd hx List.not_mem_nil, List.nodup_nil⟩
  flow := .refl _
  reassembling := reassembling_nil []
  split := ⟨[], [], .refl _, .nil, by simp, by simp⟩

theorem length_mem (h : Delivering msgs l ws m delivered) {w : List UInt8} (hw : w ∈ ws) :
    segData ≤ w.length :=
  h.sent.length_mem (h.flow.subset (List.mem_append_right _ hw))

theorem length_arrived (h : Delivering msgs l ws m delivered) {p : SegPtr} (hp : p ∈ l) :
    segData ≤ p.wire.length :=
  h.sent.length_mem (h.flow.subset (List.mem_append_left _ (List.mem_map_of_mem hp)))

/-- What is on its way may change its order. -/
theorem perm (h : Delivering msgs l ws m delivered) (hperm : ws.Perm ws') :
    Delivering msgs l ws' m delivered where
  sent := h.sent
  flow := (hperm.symm.append_left _).trans h.flow
  reassembling := h.reassembling.congr ((hperm.map _).map _)
  split := by
    obtain ⟨done, todo, hmsgs, hdone, hover, hleft⟩ := h.split
    refine ⟨done, todo, hmsgs, hdone, fun x hx w hw => hover x hx w (hperm.mem_iff.2 hw), ?_⟩
    intro x hx
    obtain ⟨w, hw, hg⟩ := hleft x hx
    exact ⟨w, hperm.mem_iff.1 hw, hg⟩

/-- **A new message may be sent at any time.** -/
theorem send (h : Delivering msgs l ws m delivered) {x : SentMessage} (hx : OnWire x.1 x.2)
    (hnew : x.1.guid ∉ msgs.map fun y => y.1.guid) :
    Delivering (msgs ++ [x]) l (ws ++ x.2) m delivered := by
  have hsent := h.sent.append hx hnew
  have hxmem : x ∈ msgs ++ [x] := List.mem_append_right _ (List.mem_singleton.2 rfl)
  have hguid : ∀ w ∈ x.2, wireGuid w = x.1.guid := fun w hw => hsent.guid_mem hxmem hw
  refine ⟨hsent, ?_, ?_, ?_⟩
  · rw [List.flatMap_append, List.flatMap_singleton, ← List.append_assoc]
    exact h.flow.append_right _
  · rw [List.map_append]
    refine h.reassembling.append fun p hp => ?_
    obtain ⟨w, hw, rfl⟩ := List.mem_map.1 hp
    refine List.filter_eq_nil_iff.2 fun q hq hg => hnew ?_
    have hwlen := (hx.length_mem.2 w hw).1
    rw [decide_eq_true_iff, SegPtr.guid_eq (h.length_arrived hq),
      SegPtr.guid_eq (by rwa [SegPtr.wire_ofWire]), SegPtr.wire_ofWire, hguid w hw] at hg
    -- the ID would be one of those that have been sent
    obtain ⟨y, hy, hqy⟩ := List.mem_flatMap.1
      (h.flow.subset (List.mem_append_left _ (List.mem_map_of_mem hq)))
    rw [← hg, h.sent.guid_mem hy hqy]
    exact List.mem_map_of_mem hy
  · obtain ⟨done, todo, hmsgs, hdone, hover, hleft⟩ := h.split
    refine ⟨done, todo ++ [x], ?_, hdone, fun y hy w hw => ?_, fun y hy => ?_⟩
    · rw [← List.append_assoc]
      exact hmsgs.append_right _
    · rcases List.mem_append.1 hw with hw | hw
      · exact hover y hy w hw
      · rw [hguid w hw]
        intro hg
        refine hnew ?_
        rw [hg]
        exact List.mem_map_of_mem (hmsgs.symm.subset (List.mem_append_left _ hy))
    · rcases List.mem_append.1 hy with hy | hy
      · obtain ⟨w, hw, hg⟩ := hleft y hy
        exact ⟨w, List.mem_append_left _ hw, hg⟩
      · rw [List.mem_singleton.1 hy]
        obtain ⟨w, hw⟩ := List.exists_mem_of_ne_nil _ hx.length_mem.1
        exact ⟨w, List.mem_append_right _ hw, hguid w hw⟩

/-- The message that a segment on its way belongs to, and its segments, wherever they are. -/
theorem exists_message {p : SegPtr} (h : Delivering msgs l (p.wire :: ws) m delivered) :
    ∃ x ∈ msgs, p.guid = x.1.guid ∧
      ((ofGuid p.guid (l ++ p :: ws.map SegPtr.ofWire)).map SegPtr.wire).Perm x.2 := by
  have hin : p.wire ∈ msgs.flatMap Prod.snd :=
    h.flow.subset (List.mem_append_right _ List.mem_cons_self)
  obtain ⟨x, hx, hpx⟩ := List.mem_flatMap.1 hin
  have hguid : p.guid = x.1.guid := by
    rw [SegPtr.guid_eq (h.sent.length_mem hin), h.sent.guid_mem hx hpx]
  have hall : (l ++ p :: ws.map SegPtr.ofWire).map SegPtr.wire = l.map SegPtr.wire ++ p.wire :: ws := by
    rw [List.map_append, List.map_cons, List.map_map]
    simp [Function.comp_def]
  have hfilter : (ofGuid p.guid (l ++ p :: ws.map SegPtr.ofWire)).map SegPtr.wire =
      (l.map SegPtr.wire ++ p.wire :: ws).filter fun w => wireGuid w = x.1.guid := by
    rw [← hall, List.filter_map, ofGuid]
    refine congrArg _ (List.filter_congr fun q hq => ?_)
    have hq' : q.wire ∈ msgs.flatMap Prod.snd := by
      refine h.flow.subset ?_
      rw [← hall]
      exact List.mem_map_of_mem hq
    rw [Function.comp_apply, SegPtr.guid_eq (h.sent.length_mem hq'), hguid]
  refine ⟨x, hx, hguid, ?_⟩
  rw [hfilter, ← h.sent.filter_guid hx]
  exact h.flow.filter _

/-- **A segment that arrives keeps the invariant**: its message is delivered when nothing of it is on
its way any more. -/
theorem receive {s : IpcAccumMap} {p : SegPtr} (h : Delivering msgs l (p.wire :: ws) s.accumMap delivered)
    (i : AccumIn) :
    Delivering msgs (l ++ [p]) ws (receive s i p).2.accumMap
      (delivered ++ (receive s i p).1.delivered.toList) := by
  obtain ⟨x, hx, hguid, hperm⟩ := h.exists_message
  have hpin : segData ≤ p.wire.length := h.length_mem List.mem_cons_self
  have hcome : Reassembling l (p :: ws.map SegPtr.ofWire) s.accumMap := by
    refine h.reassembling.congr (.of_eq ?_)
    rw [List.map_cons, List.map_cons, List.map_cons, SegPtr.key_eq hpin,
      SegPtr.key_eq (by rwa [SegPtr.wire_ofWire]), SegPtr.wire_ofWire]
  obtain ⟨hinv, hwait, hlast⟩ := receive_answers (i := i) hcome ((h.sent.onWire x hx).isMessage hperm)
  obtain ⟨done, todo, hmsgs, hdone, hover, hleft⟩ := h.split
  have hflow : ((l ++ [p]).map SegPtr.wire ++ ws).Perm (msgs.flatMap Prod.snd) := by
    rw [List.map_append, List.map_singleton, List.append_assoc]
    exact h.flow
  have hpx : wireGuid p.wire = x.1.guid := (SegPtr.guid_eq hpin).symm.trans hguid
  -- is anything of the message still on its way?
  have hnone : ofGuid p.guid (ws.map SegPtr.ofWire) = [] ↔ ∀ w ∈ ws, wireGuid w ≠ x.1.guid := by
    rw [ofGuid, List.filter_eq_nil_iff, List.forall_mem_map]
    refine forall₂_congr fun w hw => ?_
    have hwlen := h.length_mem (List.mem_cons_of_mem p.wire hw)
    rw [decide_eq_true_iff, SegPtr.guid_eq (by rwa [SegPtr.wire_ofWire]), SegPtr.wire_ofWire, hguid]
  refine ⟨h.sent, hflow, hinv, ?_⟩
  by_cases hr : ofGuid p.guid (ws.map SegPtr.ofWire) = []
  · obtain ⟨head, tail, hdel, hmsg, hsorted⟩ := hlast hr
    have hxtodo : x ∈ todo := by
      refine (List.mem_append.1 (hmsgs.subset hx)).resolve_left fun hxdone => ?_
      exact hover x hxdone p.wire List.mem_cons_self hpx
    obtain ⟨pre, post, rfl⟩ := List.append_of_mem hxtodo
    have hnodup := (hmsgs.map fun y => y.1.guid).nodup_iff.1 h.sent.nodup
    -- the accumulator had the segments of the message
    have hwires : ((head :: tail).map SegPtr.wire).Perm x.2 := by
      refine (hmsg.map _).trans ?_
      rw [List.append_cons, ofGuid_append, hr, List.append_nil] at hperm
      exact hperm
    have hsame := (h.sent.onWire x hx).map_wire_of_sorted hwires hsorted
    have hctx : head.seg.context = x.1.context := by
      have hon := h.sent.onWire x hx
      rw [← hsame] at hon
      exact congrArg MessageView.context hon.head
    refine ⟨done ++ [x], pre ++ post, ?_, ?_, fun y hy w hw => ?_, fun y hy => ?_⟩
    · refine hmsgs.trans ?_
      rw [List.append_assoc]
      exact List.perm_middle.append_left _
    · rw [hdel]
      exact List.rel_append hdone (.cons ⟨hctx, hsame⟩ .nil)
    · rcases List.mem_append.1 hy with hy | hy
      · exact hover y hy w (List.mem_cons_of_mem _ hw)
      · rw [List.mem_singleton.1 hy]
        exact hnone.1 hr w hw
    · have hyt : y ∈ pre ++ x :: post :=
        List.mem_append.2 ((List.mem_append.1 hy).imp_right (List.mem_cons_of_mem _))
      obtain ⟨w, hw, hg⟩ := hleft y hyt
      rcases List.mem_cons.1 hw with rfl | hw
      · -- the segment belongs to one message only
        have heq : y = x := h.sent.eq_of_guid (hmsgs.symm.subset (List.mem_append_right _ hyt)) hx
          (hg.symm.trans hpx)
        rw [heq] at hy
        rw [List.map_append, List.map_append, List.map_cons] at hnodup
        have hout := (List.nodup_middle.1 (List.nodup_append.1 hnodup).2.1)
        refine absurd ?_ (List.nodup_cons.1 hout).1
        rw [← List.map_append]
        exact List.mem_map_of_mem hy
      · exact ⟨w, hw, hg⟩
  · rw [hwait hr, Option.toList_none, List.append_nil]
    refine ⟨done, todo, hmsgs, hdone, fun y hy w hw => hover y hy w (List.mem_cons_of_mem _ hw), ?_⟩
    intro y hy
    obtain ⟨w, hw, hg⟩ := hleft y hy
    rcases List.mem_cons.1 hw with rfl | hw
    · have hmore : ∃ w' ∈ ws, wireGuid w' = x.1.guid := by
        by_contra hc
        exact hr (hnone.2 fun w' hw' hg' => hc ⟨w', hw', hg'⟩)
      obtain ⟨w', hw', hg'⟩ := hmore
      exact ⟨w', hw', hg'.trans (hpx.symm.trans hg)⟩
    · exact ⟨w, hw, hg⟩

/-- Nothing is missing when nothing is on its way. -/
theorem missing_eq_nil {missing : List MessageView}
    (h : ∀ v ∈ missing, ∃ w ∈ ws, wireGuid w = v.guid) (hws : ws = []) : missing = [] := by
  subst hws
  refine List.eq_nil_iff_forall_not_mem.2 fun v hv => ?_
  obtain ⟨w, hw, -⟩ := h v hv
  exact List.not_mem_nil hw

/-- The messages that a reader finds in what has been delivered.  Of a message that is missing something
is on its way. -/
theorem views {mem : MemPools} (hm : mem.blockSize segMaxLen ≠ none) (dc : IpcDecoder)
    (h : Delivering msgs l ws m delivered) :
    ∃ missing : List MessageView,
      ((delivered.map fun d => dc.view d.2) ++ missing).Perm (msgs.map Prod.fst) ∧
      (∀ d ∈ delivered, (dc.view d.2).context = d.1) ∧
      ∀ v ∈ missing, ∃ w ∈ ws, wireGuid w = v.guid := by
  obtain ⟨done, todo, hmsgs, hdone, -, hleft⟩ := h.split
  have hview : ∀ {d : ℕ × List SegPtr} {x : SentMessage}, x ∈ done → IsDelivery d x →
      dc.view d.2 = x.1 := by
    intro d x hx hd
    have hon := h.sent.onWire x (hmsgs.symm.subset (List.mem_append_left _ hx))
    rw [← hd.2] at hon
    exact hon.view hm dc
  have hforall : List.Forall₂ (fun d x => dc.view d.2 = x.1 ∧ (dc.view d.2).context = d.1) delivered
      done := by
    have hmem : ∀ {ds : List (ℕ × List SegPtr)} {xs : List SentMessage}, List.Forall₂ IsDelivery ds xs →
        (∀ x ∈ xs, x ∈ done) →
          List.Forall₂ (fun d x => dc.view d.2 = x.1 ∧ (dc.view d.2).context = d.1) ds xs := by
      intro ds xs hds
      induction hds with
      | nil => exact fun _ => .nil
      | cons hd _ ih =>
          intro hxs
          have hv := hview (hxs _ List.mem_cons_self) hd
          refine .cons ⟨hv, ?_⟩ (ih fun x hx => hxs x (List.mem_cons_of_mem _ hx))
          rw [hv, hd.1]
    exact hmem hdone fun _ hx => hx
  have hmap : delivered.map (fun d => dc.view d.2) = done.map Prod.fst := by
    rw [← List.forall₂_eq_eq_eq, List.forall₂_map_left_iff, List.forall₂_map_right_iff]
    exact hforall.imp fun _ _ hd => hd.1
  refine ⟨todo.map Prod.fst, ?_, ?_, ?_⟩
  · rw [hmap, ← List.map_append]
    exact (hmsgs.map _).symm
  · intro d hd
    obtain ⟨i, hi, rfl⟩ := List.getElem_of_mem hd
    exact (hforall.get hi (hforall.length_eq ▸ hi)).2
  · intro v hv
    obtain ⟨x, hx, rfl⟩ := List.mem_map.1 hv
    exact hleft x hx

end Delivering

end CodePort
