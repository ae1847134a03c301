/-
Who deletes the devices of a transport.

A transport owns the devices that `DevicesSet` installs, and one object may be installed as both of them.
The destructor asks whether the two pointers are the same, and `DevicesSet`, which deletes the devices
before it installs others, does not.

A device is identified here by its creation, so an address that is used again after a deletion does not
make two devices one.

Main definitions:

* `CodePort.TransportDevices.devicesSet`, `validate`, `destruct` — the functions that use devices;
* `CodePort.DeletedOnce` — what is expected of a life of a transport;
* `CodePort.TransportDevices.Distinct` — the devices that a call finds in place are two objects.

Main results:

* `CodePort.TransportDevices.events_of_run` — what happens to the devices in a life from any state;
* `CodePort.devices_deleted_once_iff` — **every device is deleted once, and not used afterwards, if and
  only if every call that installs devices finds two objects in place, or none**.
-/

import CodePort.StepSystem
import Mathlib.Data.List.AList

set_option relaxedAutoImplicit false
set_option autoImplicit false

namespace CodePort

open StepSystem

/-- What happens to a device. -/
inductive DeviceEvent
  | used (dev : ℕ)
  | deleted (dev : ℕ)
  deriving DecidableEq

def DeviceEvent.device : DeviceEvent → ℕ
  | used dev => dev
  | deleted dev => dev

/-- The devices of a transport. -/
structure TransportDevices where
  /-- The validity flag. -/
  valid : Bool
  /-- Device to send messages; `none` is the NULL pointer, here and below. -/
  ptrSendDevice : Option ℕ
  /-- Device to receive messages. -/
  ptrRecvDevice : Option ℕ
  /-- Map of send devices by node address. -/
  sendDevices : AList fun _ : ℕ => Option ℕ

/-- How a validation goes. -/
structure Validation where
  /-- There is memory for the segment. -/
  created : Bool
  /-- The device takes the whole segment. -/
  sent : Bool
  /-- The response arrives in time, and is the segment that was sent. -/
  received : Bool

/-- A call of `DevicesSet`. -/
structure DevicesSetCall where
  pSendDevice : Option ℕ
  pRecvDevice : Option ℕ
  validateNode : ℕ
  validation : Validation

namespace DevicesSetCall

/-- The devices that the call is given. -/
def devices (c : DevicesSetCall) : List ℕ := c.pSendDevice.toList ++ c.pRecvDevice.toList

/-- The devices that the call installs. -/
def installed (c : DevicesSetCall) : List ℕ :=
  if c.pSendDevice.isSome && c.pRecvDevice.isSome then c.devices else []

end DevicesSetCall

namespace TransportDevices

/-- The constructor. -/
def construct : TransportDevices := ⟨false, none, none, ∅⟩

/-- Return the appropriate send device. -/
def sendDeviceGet (t : TransportDevices) (nodeAddr : ℕ) : Option ℕ :=
  (t.sendDevices.lookup nodeAddr).getD t.ptrSendDevice

/-- Return true if the connection is functioning.  The result is the answer and what was used. -/
def validate (t : TransportDevices) (nodeAddr : ℕ) (v : Validation) : Bool × List DeviceEvent :=
  if v.created then
    -- send the message
    match t.sendDeviceGet nodeAddr with
    | none => (false, [])
    | some send =>
        if v.sent then
          -- wait for response
          match t.ptrRecvDevice with
          | none => (false, [.used send])
          | some recv => (v.received, [.used send, .used recv])
        else (false, [.used send])
  else (false, [])

/-- What `DevicesSet` deletes: any existing send device and any existing receive device. -/
def dropped (t : TransportDevices) : List DeviceEvent :=
  t.ptrSendDevice.toList.map DeviceEvent.deleted ++ t.ptrRecvDevice.toList.map DeviceEvent.deleted

/-- Install default send and receive devices. -/
def devicesSet (t : TransportDevices) (c : DevicesSetCall) :
    (Bool × List DeviceEvent) × TransportDevices :=
  if c.pSendDevice.isSome && c.pRecvDevice.isSome then
    let deleted := t.dropped
    -- assign new devices
    let t := { t with ptrSendDevice := c.pSendDevice, ptrRecvDevice := c.pRecvDevice }
    -- validate if a node number is provided
    let r := if c.validateNode ≠ 0 then t.validate c.validateNode c.validation else (true, [])
    ((true, deleted ++ r.2), { t with valid := r.1 })
  else ((false, []), t)

/-- The destructor. -/
def destruct (t : TransportDevices) : List DeviceEvent :=
  t.ptrSendDevice.toList.map DeviceEvent.deleted ++
    if t.ptrSendDevice ≠ t.ptrRecvDevice then t.ptrRecvDevice.toList.map DeviceEvent.deleted else []

/-- A call of `DevicesSet`, as a step. -/
def devicesStep (t : TransportDevices) (c : DevicesSetCall) :
    Option ((Bool × List DeviceEvent) × TransportDevices) := some (t.devicesSet c)

/-- What happens to the devices until the transport is gone: in the calls, and in the destructor. -/
def life (as : List (Bool × List DeviceEvent)) (t : TransportDevices) : List DeviceEvent :=
  as.flatMap (fun a => a.2) ++ t.destruct

/-- The devices that the transport owns. -/
def held (t : TransportDevices) : List ℕ := t.ptrSendDevice.toList ++ t.ptrRecvDevice.toList

/-- A call that installs devices finds two objects in place, or none. -/
def Distinct (t : TransportDevices) (c : DevicesSetCall) : Prop :=
  c.installed ≠ [] → ∀ a ∈ t.ptrSendDevice, a ∉ t.ptrRecvDevice

end TransportDevices

/-- The later event is not about a device that the earlier one deletes. -/
def DeviceEvent.Allows (e e' : DeviceEvent) : Prop := ∀ a, e = .deleted a → e'.device ≠ a

/-- **What is expected of a life of a transport**: every installed device is deleted exactly once, and
nothing happens to a device after it has been deleted. -/
structure DeletedOnce (installed : List ℕ) (events : List DeviceEvent) : Prop where
  deleted : ∀ a ∈ installed, events.count (.deleted a) = 1
  unused : events.Pairwise DeviceEvent.Allows

/-- Each call is given devices that no earlier call has been given. -/
def FreshDevices (cs : List DevicesSetCall) : Prop :=
  cs.Pairwise fun c c' => ∀ a ∈ c.devices, a ∉ c'.devices

/-! ### One call -/

theorem DevicesSetCall.mem_devices_of_installed (c : DevicesSetCall) {a : ℕ} (h : a ∈ c.installed) :
    a ∈ c.devices := by
  rw [installed] at h
  split_ifs at h
  · exact h
  · cases h

namespace TransportDevices

variable {t : TransportDevices} {c : DevicesSetCall}

/-- A call with a NULL pointer does nothing. -/
theorem devicesSet_of_null (h : c.installed = []) : t.devicesSet c = ((false, []), t) := by
  by_cases hsome : (c.pSendDevice.isSome && c.pRecvDevice.isSome) = true
  · rw [DevicesSetCall.installed, if_pos hsome, DevicesSetCall.devices] at h
    obtain ⟨hsend, -⟩ := List.append_eq_nil_iff.1 h
    cases hs : c.pSendDevice with
    | none => simp [hs] at hsome
    | some s => simp [hs] at hsend
  · rw [devicesSet, if_neg hsome]

/-- A validation uses the devices of the transport, as long as no other ones are registered. -/
theorem used_validate (h : t.sendDevices = ∅) (nodeAddr : ℕ) (v : Validation) :
    ∀ e ∈ (t.validate nodeAddr v).2, ∃ a ∈ t.held, e = .used a := by
  have hget : t.sendDeviceGet nodeAddr = t.ptrSendDevice := by
    rw [sendDeviceGet, h, AList.lookup_empty, Option.getD_none]
  intro e he
  rw [validate, hget] at he
  cases hs : t.ptrSendDevice with
  | none => simp [hs] at he
  | some s =>
      cases hr : t.ptrRecvDevice with
      | none =>
          simp only [hs, hr] at he
          refine ⟨s, by simp [held, hs], ?_⟩
          split_ifs at he
          · exact List.mem_singleton.1 he
          · exact List.mem_singleton.1 he
          · cases he
      | some r =>
          simp only [hs, hr] at he
          split_ifs at he
          · simp only [List.mem_cons, List.not_mem_nil, or_false] at he
            rcases he with rfl | rfl
            · exact ⟨s, by simp [held, hs], rfl⟩
            · exact ⟨r, by simp [held, hr], rfl⟩
          · exact ⟨s, by simp [held, hs], List.mem_singleton.1 he⟩
          · cases he

/-- **A call that installs devices** deletes the old ones, without asking whether they are one object, and
uses the new ones only. -/
theorem devicesSet_spec (ht : t.sendDevices = ∅) (h : c.installed ≠ []) :
    ∃ used, (∀ e ∈ used, ∃ a ∈ c.devices, e = .used a) ∧
      (t.devicesSet c).1.2 = t.dropped ++ used ∧
      (t.devicesSet c).2.sendDevices = ∅ ∧ (t.devicesSet c).2.held = c.devices ∧
      c.installed = c.devices := by
  have hsome : (c.pSendDevice.isSome && c.pRecvDevice.isSome) = true := by
    by_contra hnot
    exact h (if_neg hnot)
  rw [devicesSet, if_pos hsome]
  refine ⟨_, ?_, rfl, ht, rfl, if_pos hsome⟩
  intro e he
  split_ifs at he
  · exact used_validate (t := { t with ptrSendDevice := c.pSendDevice, ptrRecvDevice := c.pRecvDevice })
      ht _ _ e he
  · cases he

theorem meets_cons {c : DevicesSetCall} {cs : List DevicesSetCall} {t : TransportDevices} :
    Meets devicesStep Distinct (c :: cs) t ↔
      Distinct t c ∧ Meets devicesStep Distinct cs (t.devicesSet c).2 := by
  refine ⟨fun h => ⟨h.1, h.2 _ _ rfl⟩, fun h => ⟨h.1, fun a s' hstep => ?_⟩⟩
  obtain ⟨-, rfl⟩ := Prod.mk.inj (Option.some.inj hstep)
  exact h.2

/-! ### A life -/

theorem allows_of_used {e e' : DeviceEvent} (h : ∀ a, e ≠ .deleted a) : e.Allows e' :=
  fun a ha => absurd ha (h a)

theorem mem_dropped {t : TransportDevices} {e : DeviceEvent} :
    e ∈ t.dropped ↔ ∃ a ∈ t.held, e = .deleted a := by
  rw [dropped, ← List.map_append, List.mem_map, held]
  exact ⟨fun ⟨a, ha, h⟩ => ⟨a, ha, h.symm⟩, fun ⟨a, ha, h⟩ => ⟨a, ha, h.symm⟩⟩

/-- The deletions of a call leave one another alone if and only if they are of two objects. -/
theorem pairwise_dropped_iff (t : TransportDevices) :
    t.dropped.Pairwise DeviceEvent.Allows ↔ ∀ a ∈ t.ptrSendDevice, a ∉ t.ptrRecvDevice := by
  rw [dropped]
  cases t.ptrSendDevice with
  | none => cases t.ptrRecvDevice <;> simp
  | some s =>
      cases t.ptrRecvDevice with
      | none => simp
      | some r => simp [DeviceEvent.Allows, DeviceEvent.device]

theorem count_deleted (o : Option ℕ) (a : ℕ) :
    (o.toList.map DeviceEvent.deleted).count (.deleted a) = if a ∈ o then 1 else 0 := by
  cases o with
  | none => rfl
  | some b =>
      simp only [Option.toList_some, List.map_cons, List.map_nil, List.count_singleton, beq_iff_eq,
        DeviceEvent.deleted.injEq, Option.mem_some_iff]

theorem mem_held {t : TransportDevices} {a : ℕ} :
    a ∈ t.held ↔ a ∈ t.ptrSendDevice ∨ a ∈ t.ptrRecvDevice := by
  rw [held, List.mem_append, Option.mem_toList, Option.mem_toList]
  exact Iff.rfl

/-- Two objects are deleted once. -/
theorem count_dropped {t : TransportDevices} (h : ∀ a ∈ t.ptrSendDevice, a ∉ t.ptrRecvDevice) (a : ℕ) :
    t.dropped.count (.deleted a) = if a ∈ t.held then 1 else 0 := by
  rw [dropped, List.count_append, count_deleted, count_deleted]
  by_cases hs : a ∈ t.ptrSendDevice
  · rw [if_pos hs, if_neg (h a hs), if_pos (mem_held.2 (.inl hs))]
  · by_cases hr : a ∈ t.ptrRecvDevice
    · rw [if_neg hs, if_pos hr, if_pos (mem_held.2 (.inr hr))]
    · rw [if_neg hs, if_neg hr, if_neg (mt mem_held.1 (not_or.2 ⟨hs, hr⟩))]

/-- **The events of a call and of what comes later**, which is about other devices. -/
theorem events_of_call {t : TransportDevices} {used rest : List DeviceEvent}
    (hused : ∀ e ∈ used, ∀ a, e ≠ .deleted a) (hlater : ∀ e ∈ used ++ rest, e.device ∉ t.held) :
    ((t.dropped ++ used ++ rest).Pairwise DeviceEvent.Allows ↔
        (∀ a ∈ t.ptrSendDevice, a ∉ t.ptrRecvDevice) ∧ rest.Pairwise DeviceEvent.Allows) ∧
      ((∀ a ∈ t.ptrSendDevice, a ∉ t.ptrRecvDevice) → ∀ a,
        (t.dropped ++ used ++ rest).count (.deleted a) =
          (if a ∈ t.held then 1 else 0) + rest.count (.deleted a)) := by
  rw [List.append_assoc]
  have hcross : ∀ e ∈ t.dropped, ∀ e' ∈ used ++ rest, e.Allows e' := by
    rintro e he e' he' a rfl
    obtain ⟨b, hb, heq⟩ := mem_dropped.1 he
    obtain rfl := DeviceEvent.deleted.inj heq
    exact fun hdev => hlater e' he' (hdev ▸ hb)
  have hallows : ∀ e ∈ used, ∀ e', e.Allows e' := fun e he e' => allows_of_used (hused e he)
  have hpair : used.Pairwise DeviceEvent.Allows :=
    List.pairwise_of_forall_mem_list fun e he e' _ => hallows e he e'
  constructor
  · rw [List.pairwise_append, pairwise_dropped_iff, List.pairwise_append]
    constructor
    · rintro ⟨hdistinct, ⟨-, hrest, -⟩, -⟩
      exact ⟨hdistinct, hrest⟩
    · rintro ⟨hdistinct, hrest⟩
      exact ⟨hdistinct, ⟨hpair, hrest, fun e he e' _ => hallows e he e'⟩, hcross⟩
  · intro hdistinct a
    have hzero : used.count (.deleted a) = 0 :=
      List.count_eq_zero.2 fun hmem => hused _ hmem a rfl
    rw [List.count_append, List.count_append, count_dropped hdistinct, hzero, Nat.zero_add]

/-- The destructor deletes every device that the transport owns, once. -/
theorem deletedOnce_destruct (t : TransportDevices) : DeletedOnce t.held t.destruct := by
  by_cases heq : t.ptrSendDevice = t.ptrRecvDevice
  · rw [destruct, if_neg (not_not.2 heq), List.append_nil]
    constructor
    · intro a ha
      rw [mem_held, ← heq, or_self] at ha
      rw [count_deleted, if_pos ha]
    · cases t.ptrSendDevice <;> simp
  · have hdistinct : ∀ a ∈ t.ptrSendDevice, a ∉ t.ptrRecvDevice := fun a hs hr =>
      heq (hs.trans hr.symm)
    rw [destruct, if_pos heq]
    exact ⟨fun a ha => (count_dropped hdistinct a).trans (if_pos ha), (pairwise_dropped_iff t).2 hdistinct⟩

theorem device_of_mem_destruct {t : TransportDevices} {e : DeviceEvent} (h : e ∈ t.destruct) :
    e.device ∈ t.held := by
  have hdel : e ∈ t.dropped := by
    rw [destruct] at h
    split_ifs at h
    · exact h
    · exact List.mem_append_left _ (by rwa [List.append_nil] at h)
  obtain ⟨a, ha, rfl⟩ := mem_dropped.1 hdel
  exact ha

/-- **What happens to the devices in a life from any state**, if the calls are given fresh devices: it is
about the devices in place and those of the calls; nothing happens to a deleted device if and only if
every call that installs devices finds two objects in place, or none; and then each device is deleted
exactly once. -/
theorem events_of_run {cs : List DevicesSetCall} :
    ∀ {t : TransportDevices}, t.sendDevices = ∅ → (∀ c ∈ cs, ∀ a ∈ t.held, a ∉ c.devices) →
      FreshDevices cs → ∀ as t', run devicesStep cs t = some (as, t') →
        (∀ e ∈ life as t', e.device ∈ t.held ∨ ∃ c ∈ cs, e.device ∈ c.devices) ∧
          ((life as t').Pairwise DeviceEvent.Allows ↔ Meets devicesStep Distinct cs t) ∧
          (Meets devicesStep Distinct cs t →
            ∀ a ∈ t.held ++ cs.flatMap DevicesSetCall.installed, (life as t').count (.deleted a) = 1) := by
  induction cs with
  | nil =>
      intro t _ _ _ as t' hrun
      obtain ⟨rfl, rfl⟩ := Prod.mk.inj (Option.some.inj hrun)
      obtain ⟨hdel, hpair⟩ := deletedOnce_destruct t
      refine ⟨fun e he => .inl (device_of_mem_destruct he), iff_of_true hpair trivial, fun _ a ha => ?_⟩
      exact hdel a (by simpa using ha)
  | cons c cs ih =>
      intro t ht hheld hfresh as t' hrun
      obtain ⟨hc, hcs⟩ := List.pairwise_cons.1 hfresh
      obtain ⟨a₁, t₁, bs, hstep, hrest, rfl⟩ := run_cons_eq_some.1 hrun
      have hset : t.devicesSet c = (a₁, t₁) := Option.some.inj hstep
      obtain rfl : a₁ = (t.devicesSet c).1 := by rw [hset]
      obtain rfl : t₁ = (t.devicesSet c).2 := by rw [hset]
      have hlife : life ((t.devicesSet c).1 :: bs) t' = (t.devicesSet c).1.2 ++ life bs t' := by
        rw [life, List.flatMap_cons, List.append_assoc, ← life]
      rw [hlife, meets_cons]
      have hheld' : ∀ c' ∈ cs, ∀ a ∈ t.held, a ∉ c'.devices := fun c' hc' =>
        hheld c' (List.mem_cons_of_mem _ hc')
      by_cases hnull : c.installed = []
      · -- nothing is installed
        have hsame := devicesSet_of_null (t := t) hnull
        rw [hsame] at hrest ⊢
        obtain ⟨hdev, hpair, hcount⟩ := ih ht hheld' hcs _ _ hrest
        refine ⟨fun e he => (hdev e he).imp_right fun ⟨c', hc', h⟩ => ⟨c', List.mem_cons_of_mem _ hc', h⟩,
          ?_, ?_⟩
        · rw [List.nil_append, hpair]
          exact (and_iff_right fun hne => absurd hnull hne).symm
        · rintro ⟨-, hmeets⟩
          rw [List.nil_append, List.flatMap_cons, hnull, List.nil_append]
          exact hcount hmeets
      · obtain ⟨used, hused, hevents, hmap, hnew, hinst⟩ := devicesSet_spec ht hnull
        obtain ⟨hdev, hpair, hcount⟩ := ih hmap (by rw [hnew]; exact hc) hcs _ _ hrest
        rw [hnew] at hdev hcount
        -- what comes later is about the devices of the calls
        have hdevices : ∀ e ∈ used ++ life bs t', ∃ c' ∈ c :: cs, e.device ∈ c'.devices := by
          intro e he
          rcases List.mem_append.1 he with he | he
          · obtain ⟨a, ha, rfl⟩ := hused e he
            exact ⟨c, List.mem_cons_self, ha⟩
          · rcases hdev e he with hmem | ⟨c', hc', hmem⟩
            · exact ⟨c, List.mem_cons_self, hmem⟩
            · exact ⟨c', List.mem_cons_of_mem _ hc', hmem⟩
        have hlater : ∀ e ∈ used ++ life bs t', e.device ∉ t.held := by
          intro e he hmem
          obtain ⟨c', hc', hin⟩ := hdevices e he
          exact hheld c' hc' _ hmem hin
        obtain ⟨hpair', hcount'⟩ := events_of_call (fun e he a hdel => by
          obtain ⟨b, -, rfl⟩ := hused e he
          cases hdel) hlater
        rw [hevents]
        refine ⟨?_, ?_, ?_⟩
        · intro e he
          rw [List.append_assoc] at he
          rcases List.mem_append.1 he with he | he
          · obtain ⟨a, ha, rfl⟩ := mem_dropped.1 he
            exact .inl ha
          · exact .inr (hdevices e he)
        · rw [hpair', hpair]
          exact and_congr_left fun _ => ⟨fun h _ => h, fun h => h hnull⟩
        · rintro ⟨hdistinct, hmeets⟩ a ha
          rw [hcount' (hdistinct hnull)]
          rw [List.flatMap_cons, hinst, List.mem_append] at ha
          rcases ha with ha | ha
          · have hzero : (life bs t').count (.deleted a) = 0 := List.count_eq_zero.2 fun hmem =>
              hlater _ (List.mem_append_right used hmem) ha
            rw [if_pos ha, hzero]
          · have hnot : a ∉ t.held := by
              intro hmem
              rcases List.mem_append.1 ha with ha | ha
              · exact hheld c List.mem_cons_self a hmem ha
              · obtain ⟨c', hc', hin⟩ := List.mem_flatMap.1 ha
                exact hheld' c' hc' a hmem (c'.mem_devices_of_installed hin)
            rw [if_neg hnot, hcount hmeets a ha]

end TransportDevices

/-- **Every device is deleted exactly once, and not used afterwards, if and only if** every call that
installs devices finds two objects in place, or none.  So one object may be installed as both devices only
by the last call that installs any. -/
theorem devices_deleted_once_iff {cs : List DevicesSetCall} (hfresh : FreshDevices cs)
    {as : List (Bool × List DeviceEvent)} {t : TransportDevices}
    (hrun : run TransportDevices.devicesStep cs TransportDevices.construct = some (as, t)) :
    DeletedOnce (cs.flatMap DevicesSetCall.installed) (TransportDevices.life as t) ↔
      Meets TransportDevices.devicesStep TransportDevices.Distinct cs TransportDevices.construct := by
  obtain ⟨-, hpair, hcount⟩ := TransportDevices.events_of_run rfl
    (fun c _ a ha => absurd ha List.not_mem_nil) hfresh as t hrun
  exact ⟨fun h => hpair.1 h.unused, fun h => ⟨hcount h, hpair.2 h⟩⟩

/-- Two devices, and then one object for both. -/
def sampleDevicesSets : List DevicesSetCall :=
  [⟨some 0, some 1, 7, true, true, true⟩, ⟨some 2, some 2, 0, true, true, true⟩]

theorem devices_deleted_once_iff_replaced : ∃ as t,
    run TransportDevices.devicesStep sampleDevicesSets TransportDevices.construct = some (as, t) ∧
      (DeletedOnce [0, 1, 2, 2] (TransportDevices.life as t) ↔
        Meets TransportDevices.devicesStep TransportDevices.Distinct sampleDevicesSets
          TransportDevices.construct) :=
  ⟨_, _, rfl, @devices_deleted_once_iff sampleDevicesSets (by
    simp only [FreshDevices, sampleDevicesSets, DevicesSetCall.devices]
    decide) _ _ rfl⟩

/-- One object for both devices, and then two: the first object is deleted twice. -/
theorem devicesSet_deletes_twice : ∃ as t,
    run TransportDevices.devicesStep
        [⟨some 0, some 0, 0, true, true, true⟩, ⟨some 1, some 2, 0, true, true, true⟩]
        TransportDevices.construct = some (as, t) ∧
      TransportDevices.life as t = [.deleted 0, .deleted 0, .deleted 1, .deleted 2] ∧
      ¬ DeletedOnce [0, 0, 1, 2] (TransportDevices.life as t) :=
  ⟨_, _, rfl, by decide, fun h => absurd (h.deleted 0 List.mem_cons_self) (by decide)⟩

end CodePort
