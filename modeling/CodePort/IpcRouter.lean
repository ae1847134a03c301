/-
The name registry of the message router.

A node is created in three steps: its name is looked up, an address is acquired, and the record is
stored in two maps.  Other threads may take steps in between, so that two threads may both find that
a name is not there.  What they store in the end is consistent exactly when the name is still not
there then.

Main definitions:

* `CodePort.IpcRouter` — the registry; `nodeFind`, `nodeAddAcquire`, `nodeAddStore`, `nodeDel` are
  its critical sections;
* `CodePort.RouterWorld`, `CodePort.routerStep` — the registry and its callers; one section;
* `CodePort.RouterWorld.Consistent` — what is expected of the registry at a moment of a run;
* `CodePort.RouterWorld.Unique` — the condition on a section.

Main results:

* `CodePort.RouterWorld.Registered.step` — **one section keeps the invariant**;
* `CodePort.router_consistent_iff` — **when the registry stays consistent.**
-/

import CodePort.IpcSegment
import CodePort.StepSystem
import CodePort.TextUtil
import Mathlib.Data.List.AList

set_option relaxedAutoImplicit false
set_option autoImplicit false

namespace CodePort

open StepSystem

/-! ### The registry -/

def ipcNodeAddrMinVal : UInt32 := 16
def ipcNodeDevNameMinLen : ℕ := 8
def ipcCommsQueueDepth : ℕ := 16
def broadcastNode : List UInt8 := ascii "BROADCAST"
def broadcastAddr : UInt32 := ~~~0

/-- The queue of a node: its device name and its dimensions. -/
structure RouterQueue where
  ioDevice : List UInt8
  maxLen : ℕ
  depth : ℕ

/-- The name registry of the router. -/
structure IpcRouter where
  /-- Next available node address. -/
  nextNodeAddr : UInt32
  /-- Maps numeric addresses to send queues. -/
  nodeQueues : AList fun _ : UInt32 => RouterQueue
  /-- Maps string names to numeric addresses. -/
  nodeAddresses : AList fun _ : List UInt8 => UInt32

namespace IpcRouter

/-- The constructor. -/
def construct : IpcRouter where
  nextNodeAddr := ipcNodeAddrMinVal
  nodeQueues := ∅
  nodeAddresses := AList.insert broadcastNode broadcastAddr ∅

/-- The address of a name, or zero. -/
def nodeFind (r : IpcRouter) (nodeName : List UInt8) : UInt32 :=
  (r.nodeAddresses.lookup nodeName).getD 0

/-- The first section of `NodeAdd`: a new address, or zero if there is none. -/
def nodeAddAcquire (r : IpcRouter) : UInt32 × IpcRouter :=
  -- check if any new addresses are available
  if r.nextNodeAddr < broadcastAddr then
    (r.nextNodeAddr, { r with nextNodeAddr := r.nextNodeAddr + 1 })
  else (0, r)

/-- The device name that is based on an address. -/
def ioDevice (address : UInt32) : List UInt8 :=
  let text := uintToStr address.toNat
  if text.length < ipcNodeDevNameMinLen then
    genStr (ipcNodeDevNameMinLen - text.length) 48 ++ text
  else text

/-- The queue that `NodeAdd` creates. -/
def queue (address : UInt32) : RouterQueue where
  ioDevice := ioDevice address
  maxLen := IpcSegment.segMaxLen
  depth := ipcCommsQueueDepth

/-- The second section of `NodeAdd`: the record is stored. -/
def nodeAddStore (r : IpcRouter) (nodeName : List UInt8) (address : UInt32) : IpcRouter :=
  { r with
    nodeQueues := r.nodeQueues.insert address (queue address)
    nodeAddresses := r.nodeAddresses.insert nodeName address }

/-- The walk over the names of `NodeDel`: the first one, in their order, that has an address. -/
def nameOf (r : IpcRouter) (address : UInt32) : Option (List UInt8) :=
  ((r.nodeAddresses.entries.mergeSort fun e e' => decide (e.1 ≤ e'.1)).find?
    fun e => e.2 = address).map Sigma.fst

/-- Delete a node. -/
def nodeDel (r : IpcRouter) (address : UInt32) : Bool × IpcRouter :=
  let rv := (r.nodeQueues.lookup address).isSome
  -- remove node to queue mapping and delete queue
  let r := { r with nodeQueues := r.nodeQueues.erase address }
  -- locate and remove name to node address mapping
  match r.nameOf address with
  | some nodeName => (true, { r with nodeAddresses := r.nodeAddresses.erase nodeName })
  | none => (rv, r)

variable {r : IpcRouter} {nodeName : List UInt8} {address : UInt32}

theorem nodeFind_eq_zero (h : r.nodeFind nodeName = 0) :
    r.nodeAddresses.lookup nodeName = none ∨ r.nodeAddresses.lookup nodeName = some 0 := by
  rw [nodeFind] at h
  cases hlook : r.nodeAddresses.lookup nodeName with
  | none => exact .inl rfl
  | some a =>
      rw [hlook, Option.getD_some] at h
      exact .inr (congrArg some h)

/-- The name that the walk finds has the address. -/
theorem lookup_of_nameOf (h : r.nameOf address = some nodeName) :
    r.nodeAddresses.lookup nodeName = some address := by
  obtain ⟨⟨n, a⟩, hfind, rfl⟩ := Option.map_eq_some_iff.1 h
  have hmem := List.mem_mergeSort.1 (List.mem_of_find?_eq_some hfind)
  have ha := List.find?_some hfind
  simp only [decide_eq_true_eq] at ha
  subst ha
  exact AList.mem_lookup_iff.2 hmem

/-- The walk finds a name if one has the address. -/
theorem lookup_ne_of_nameOf (h : r.nameOf address = none) (nodeName : List UInt8) :
    r.nodeAddresses.lookup nodeName ≠ some address := by
  intro hlook
  have hfind := List.find?_eq_none.1 (Option.map_eq_none_iff.1 h) ⟨nodeName, address⟩
    (List.mem_mergeSort.2 (AList.mem_lookup_iff.1 hlook))
  exact hfind (decide_eq_true rfl)

end IpcRouter

/-! ### Callers -/

/-- Where a thread stands in `NodeCreate`. -/
inductive RouterPc
  | idle
  /-- The name has not been found. -/
  | adding (nodeName : List UInt8)
  /-- An address has been acquired. -/
  | storing (nodeName : List UInt8) (address : UInt32)

/-- The registry, and where its callers stand. -/
structure RouterWorld where
  router : IpcRouter
  pc : ℕ → RouterPc

/-- A step of the thread `t`. -/
inductive RouterOp
  /-- `NodeCreate` is called, and looks for the name. -/
  | nodeCreate (t : ℕ) (nodeName : List UInt8)
  /-- The first section of `NodeAdd`. -/
  | acquire (t : ℕ)
  /-- The second section of `NodeAdd`; it is left out when the new queue is not valid. -/
  | store (t : ℕ) (valid : Bool)
  | nodeDel (t : ℕ) (address : UInt32)

/-- What a step answers. -/
inductive RouterAnswer
  /-- The call goes on. -/
  | searched
  | acquired (address : UInt32)
  /-- `NodeCreate` returns an address, and the device name unless it leaves that alone. -/
  | created (nodeName : List UInt8) (address : UInt32) (ioDevice : Option (List UInt8))
  | deleted (address : UInt32) (rv : Bool)
  deriving DecidableEq

namespace RouterWorld

/-- The thread moves. -/
def goto (w : RouterWorld) (t : ℕ) (pc : RouterPc) : RouterWorld :=
  { w with pc := Function.update w.pc t pc }

/-- Nobody has called. -/
def initial : RouterWorld where
  router := IpcRouter.construct
  pc _ := .idle

end RouterWorld

open RouterWorld

/-- One section.  The broadcast address is not deleted. -/
def routerStep (w : RouterWorld) : RouterOp → Option (RouterAnswer × RouterWorld)
  | .nodeCreate t nodeName =>
      match w.pc t with
      | .idle =>
          -- make sure node name doesn't already exist
          if w.router.nodeFind nodeName = 0 then some (.searched, w.goto t (.adding nodeName))
          else some (.created nodeName 0 none, w)
      | _ => none
  | .acquire t =>
      match w.pc t with
      | .adding nodeName =>
          let r := w.router.nodeAddAcquire
          if r.1 = 0 then some (.created nodeName 0 none, { w with router := r.2 }.goto t .idle)
          else some (.acquired r.1, { w with router := r.2 }.goto t (.storing nodeName r.1))
      | _ => none
  | .store t valid =>
      match w.pc t with
      | .storing nodeName address =>
          let ioDevice := some (IpcRouter.ioDevice address)
          if valid then
            some (.created nodeName address ioDevice,
              { w with router := w.router.nodeAddStore nodeName address }.goto t .idle)
          else some (.created nodeName 0 ioDevice, w.goto t .idle)
      | _ => none
  | .nodeDel t address =>
      match w.pc t with
      | .idle =>
          if address = broadcastAddr then none
          else
            let r := w.router.nodeDel address
            some (.deleted address r.1, { w with router := r.2 })
      | _ => none

/-- The address that has been assigned. -/
def RouterAnswer.acquiredAddr : RouterAnswer → Option UInt32
  | .acquired a => some a
  | _ => none

/-- The address that `NodeCreate` has returned. -/
def RouterAnswer.createdAddr : RouterAnswer → Option UInt32
  | .created _ a _ => if a = 0 then none else some a
  | _ => none

/-- A node of this name and address has been created, and not deleted since. -/
def Alive (as : List RouterAnswer) (nodeName : List UInt8) (a : UInt32) : Prop :=
  ∃ pre d mid, as = pre ++ .created nodeName a d :: mid ∧ .deleted a true ∉ mid

namespace RouterWorld

/-- What is expected at a moment of a run, after some answers. -/
structure Consistent (as : List RouterAnswer) (w : RouterWorld) : Prop where
  /-- When a name is created twice, the first node has been deleted in between. -/
  once : ∀ pre nodeName a d mid b e post,
    as = pre ++ .created nodeName a d :: (mid ++ .created nodeName b e :: post) →
    a ≠ 0 → b ≠ 0 → .deleted a true ∈ mid
  /-- No address is assigned twice, and none is returned twice. -/
  acquired_nodup : (as.filterMap RouterAnswer.acquiredAddr).Nodup
  created_nodup : (as.filterMap RouterAnswer.createdAddr).Nodup
  /-- When no call is in progress, every address with a queue has one name. -/
  name : (∀ t, w.pc t = .idle) → ∀ a ∈ w.router.nodeQueues,
    ∃! nodeName, w.router.nodeAddresses.lookup nodeName = some a
  /-- When no call is in progress, every name has an address with a queue. -/
  queue : (∀ t, w.pc t = .idle) → ∀ nodeName ≠ broadcastNode,
    ∀ a, w.router.nodeAddresses.lookup nodeName = some a → a ∈ w.router.nodeQueues

/-- **The condition on a section**: the name is still not there when its record is stored. -/
def Unique (w : RouterWorld) : RouterOp → Prop
  | .store t true => ∀ nodeName a, w.pc t = .storing nodeName a → w.router.nodeFind nodeName = 0
  | _ => True

end RouterWorld

/-! ### Nodes that are alive -/

variable {as : List RouterAnswer} {nodeName : List UInt8} {a : UInt32} {x : RouterAnswer}

/-- **A node stays alive** until it is deleted. -/
theorem alive_concat : Alive (as ++ [x]) nodeName a ↔
    (∃ d, x = .created nodeName a d) ∨ Alive as nodeName a ∧ x ≠ .deleted a true := by
  constructor
  · rintro ⟨pre, d, mid, heq, hmid⟩
    rcases concat_eq_append_cons heq with ⟨-, -, rfl⟩ | ⟨mid', rfl, rfl⟩
    · exact .inl ⟨d, rfl⟩
    · refine .inr ⟨⟨pre, d, mid', rfl, fun h => hmid (List.mem_append_left _ h)⟩, ?_⟩
      rintro rfl
      exact hmid (List.mem_append_right _ List.mem_cons_self)
  · rintro (⟨d, rfl⟩ | ⟨⟨pre, d, mid, rfl, hmid⟩, hx⟩)
    · exact ⟨as, d, [], rfl, by simp⟩
    · refine ⟨pre, d, mid ++ [x], by simp, fun h => ?_⟩
      rcases List.mem_append.1 h with h | h
      · exact hmid h
      · exact hx (List.mem_singleton.1 h).symm

theorem Alive.mem (h : Alive as nodeName a) : ∃ d, .created nodeName a d ∈ as := by
  obtain ⟨pre, d, mid, rfl, -⟩ := h
  exact ⟨d, List.mem_append_right _ List.mem_cons_self⟩

/-! ### The invariant -/

namespace RouterWorld

/-- The invariant of the addresses and of the callers, after the answers `as`. -/
structure Numbered (as : List RouterAnswer) (w : RouterWorld) : Prop where
  next_ge : 16 ≤ w.router.nextNodeAddr
  acquired : ∀ a, .acquired a ∈ as → 16 ≤ a ∧ a < w.router.nextNodeAddr
  acquired_nodup : (as.filterMap RouterAnswer.acquiredAddr).Nodup
  adding : ∀ t nodeName, w.pc t = .adding nodeName → nodeName ≠ broadcastNode
  storing : ∀ t nodeName a, w.pc t = .storing nodeName a →
    .acquired a ∈ as ∧ nodeName ≠ broadcastNode ∧ ∀ n d, .created n a d ∉ as
  storing_inj : ∀ t t' n n' a, w.pc t = .storing n a → w.pc t' = .storing n' a → t = t'
  created : ∀ n a d, .created n a d ∈ as → a ≠ 0 → .acquired a ∈ as
  created_nodup : (as.filterMap RouterAnswer.createdAddr).Nodup

/-- **The invariant** after the answers `as`: the maps hold the nodes that are alive. -/
structure Registered (as : List RouterAnswer) (w : RouterWorld) : Prop extends Numbered as w where
  once : ∀ pre n b d post, as = pre ++ .created n b d :: post → b ≠ 0 →
    ∀ a, a ≠ 0 → ¬ Alive pre n a
  broadcast : w.router.nodeAddresses.lookup broadcastNode = some broadcastAddr
  lookup_iff : ∀ n, n ≠ broadcastNode →
    ∀ a, w.router.nodeAddresses.lookup n = some a ↔ a ≠ 0 ∧ Alive as n a
  inj : ∀ n n' a, w.router.nodeAddresses.lookup n = some a →
    w.router.nodeAddresses.lookup n' = some a → n = n'
  mem_iff : ∀ a, a ∈ w.router.nodeQueues ↔
    ∃ n, n ≠ broadcastNode ∧ w.router.nodeAddresses.lookup n = some a

variable {w w' : RouterWorld} {t : ℕ} {pc : RouterPc}

/-- One more answer adds an address that is new, or none. -/
theorem nodup_filterMap_concat {f : RouterAnswer → Option UInt32} (h : (as.filterMap f).Nodup)
    (hx : ∀ b, f x = some b → b ∉ as.filterMap f) : ((as ++ [x]).filterMap f).Nodup := by
  rw [List.filterMap_append]
  cases hfx : f x with
  | none => simpa [hfx] using h
  | some b =>
      have hnot := hx b hfx
      simp only [List.filterMap_cons, hfx, List.filterMap_nil]
      exact List.nodup_append.2 ⟨h, List.nodup_singleton b, fun c hc d hd hcd => by
        rw [List.mem_singleton.1 hd] at hcd
        exact hnot (hcd ▸ hc)⟩

theorem ne_zero_of_ge {a : UInt32} (h : 16 ≤ a) : a ≠ 0 := by
  rintro rfl
  exact absurd h (by decide)

theorem ne_broadcast_of_lt {a b : UInt32} (h : a < b) : a ≠ broadcastAddr := by
  rintro rfl
  have hlt := UInt32.lt_iff_toNat_lt.1 h
  have hb := b.toNat_lt
  have hmax : broadcastAddr.toNat = 2 ^ 32 - 1 := by decide
  omega

/-- No name has the address zero. -/
theorem Registered.lookup_eq_none (h : Registered as w)
    (hfind : w.router.nodeFind nodeName = 0) : w.router.nodeAddresses.lookup nodeName = none := by
  rcases IpcRouter.nodeFind_eq_zero hfind with hlook | hlook
  · exact hlook
  · by_cases hbc : nodeName = broadcastNode
    · rw [hbc, h.broadcast] at hlook
      exact absurd (Option.some.inj hlook) (by decide)
    · exact absurd rfl ((h.lookup_iff nodeName hbc 0).1 hlook).1

/-- An answer that assigns and returns no address. -/
theorem Numbered.quiet (h : Numbered as w) (hx : x.acquiredAddr = none)
    (hx' : x.createdAddr = none) (hnext : w'.router.nextNodeAddr = w.router.nextNodeAddr)
    (hadding : ∀ t n, w'.pc t = .adding n → w.pc t = .adding n ∨ n ≠ broadcastNode)
    (hstoring : ∀ t n a, w'.pc t = .storing n a → w.pc t = .storing n a) :
    Numbered (as ++ [x]) w' := by
  have hacq : ∀ a, .acquired a ∈ as ++ [x] ↔ .acquired a ∈ as := by
    intro a
    rw [List.mem_append, List.mem_singleton, or_iff_left]
    rintro rfl
    exact absurd hx (Option.some_ne_none a)
  have hcre : ∀ n a d, a ≠ 0 → .created n a d ∈ as ++ [x] → .created n a d ∈ as := by
    intro n a d ha hmem
    refine (List.mem_append.1 hmem).resolve_right fun hmem => ?_
    rw [← List.mem_singleton.1 hmem, RouterAnswer.createdAddr, if_neg ha] at hx'
    exact absurd hx' (Option.some_ne_none a)
  refine ⟨hnext ▸ h.next_ge, ?_, ?_, ?_, ?_, ?_, ?_, ?_⟩
  · intro a ha
    exact hnext ▸ h.acquired a ((hacq a).1 ha)
  · exact nodup_filterMap_concat h.acquired_nodup (by simp [hx])
  · intro t n hn
    exact (hadding t n hn).elim (h.adding t n) id
  · intro t n a hn
    obtain ⟨ha, hne, hnot⟩ := h.storing t n a (hstoring t n a hn)
    refine ⟨(hacq a).2 ha, hne, fun n' d hmem => hnot n' d ?_⟩
    exact hcre n' a d (ne_zero_of_ge (h.acquired a ha).1) hmem
  · intro t t' n n' a hn hn'
    exact h.storing_inj t t' n n' a (hstoring t n a hn) (hstoring t' n' a hn')
  · intro n a d hmem ha
    exact (hacq a).2 (h.created n a d (hcre n a d ha hmem) ha)
  · exact nodup_filterMap_concat h.created_nodup (by simp [hx'])

/-- An answer that returns no address, and is no deletion, does not concern the maps. -/
theorem Registered.quiet (h : Registered as w) (hx' : x.createdAddr = none)
    (hdel : ∀ a, x ≠ .deleted a true) (hnumbered : Numbered (as ++ [x]) w')
    (haddresses : w'.router.nodeAddresses = w.router.nodeAddresses)
    (hqueues : w'.router.nodeQueues = w.router.nodeQueues) :
    Registered (as ++ [x]) w' := by
  have hnot : ∀ {n b d}, b ≠ 0 → x ≠ .created n b d := by
    rintro n b d hb rfl
    rw [RouterAnswer.createdAddr, if_neg hb] at hx'
    exact Option.some_ne_none b hx'
  refine ⟨hnumbered, ?_, ?_, ?_, ?_, ?_⟩
  · intro pre n b d post heq hb a ha
    rcases concat_eq_append_cons heq with ⟨-, -, rfl⟩ | ⟨post', -, heq'⟩
    · exact absurd rfl (hnot hb)
    · exact h.once pre n b d post' heq' hb a ha
  · exact haddresses ▸ h.broadcast
  · intro n hn a
    rw [haddresses, h.lookup_iff n hn a, alive_concat]
    refine and_congr_right fun ha => ?_
    rw [or_iff_right fun ⟨d, hd⟩ => hnot ha hd, and_iff_left (hdel a)]
  · exact haddresses ▸ h.inj
  · rw [haddresses, hqueues]
    exact h.mem_iff

/-- An address is assigned. -/
theorem Numbered.acquire (h : Numbered as w) (hpc : w.pc t = .adding nodeName)
    (hnext : w.router.nextNodeAddr < broadcastAddr) :
    Numbered (as ++ [.acquired w.router.nextNodeAddr])
      ({ w with router := { w.router with nextNodeAddr := w.router.nextNodeAddr + 1 } }.goto t
        (.storing nodeName w.router.nextNodeAddr)) := by
  set next := w.router.nextNodeAddr with hdef
  have hlt : next < next + 1 := by
    rw [UInt32.lt_iff_toNat_lt] at hnext ⊢
    have hmax : broadcastAddr.toNat = 2 ^ 32 - 1 := by decide
    rw [UInt32.toNat_add]
    have hone : (1 : UInt32).toNat = 1 := rfl
    omega
  have hnew : .acquired next ∉ as := fun hmem => absurd (h.acquired next hmem).2 (UInt32.lt_irrefl _)
  have hacq : ∀ a, .acquired a ∈ as ++ [.acquired next] ↔ .acquired a ∈ as ∨ a = next := by
    intro a
    rw [List.mem_append, List.mem_singleton, RouterAnswer.acquired.injEq]
  have hcre : ∀ n a d, .created n a d ∈ as ++ [.acquired next] ↔ .created n a d ∈ as := by
    intro n a d
    simp
  refine ⟨?_, ?_, ?_, ?_, ?_, ?_, ?_, ?_⟩
  · exact UInt32.le_trans h.next_ge (UInt32.le_of_lt hlt)
  · intro a ha
    rcases (hacq a).1 ha with ha | rfl
    · obtain ⟨hge, hlt'⟩ := h.acquired a ha
      exact ⟨hge, UInt32.lt_trans hlt' hlt⟩
    · exact ⟨h.next_ge, hlt⟩
  · refine nodup_filterMap_concat h.acquired_nodup fun b hb hmem => ?_
    obtain rfl := Option.some.inj hb
    obtain ⟨y, hy, hya⟩ := List.mem_filterMap.1 hmem
    cases y with
    | acquired c =>
        obtain rfl := Option.some.inj hya
        exact hnew hy
    | _ => cases hya
  · intro t' n hn
    rcases moved_cases hn with ⟨-, hpc'⟩ | ⟨-, hn⟩
    · cases hpc'
    · exact h.adding t' n hn
  · intro t' n a hn
    rcases moved_cases hn with ⟨-, hpc'⟩ | ⟨-, hn⟩
    · cases hpc'
      refine ⟨(hacq _).2 (.inr rfl), h.adding t nodeName hpc, fun n' d hmem => hnew ?_⟩
      exact h.created n' next d ((hcre n' next d).1 hmem) (ne_zero_of_ge h.next_ge)
    · obtain ⟨ha, hne, hnot⟩ := h.storing t' n a hn
      exact ⟨(hacq a).2 (.inl ha), hne, fun n' d hmem => hnot n' d ((hcre n' a d).1 hmem)⟩
  · intro t₁ t₂ n n' a hn hn'
    rcases moved_cases hn with ⟨h₁, hpc₁⟩ | ⟨h₁, hn⟩
    · cases hpc₁
      rcases moved_cases hn' with ⟨h₂, -⟩ | ⟨-, hn'⟩
      · rw [h₁, h₂]
      · exact absurd (h.storing t₂ n' _ hn').1 hnew
    · rcases moved_cases hn' with ⟨-, hpc₂⟩ | ⟨-, hn'⟩
      · cases hpc₂
        exact absurd (h.storing t₁ n _ hn).1 hnew
      · exact h.storing_inj t₁ t₂ n n' a hn hn'
  · intro n a d hmem ha
    exact (hacq a).2 (.inl (h.created n a d ((hcre n a d).1 hmem) ha))
  · exact nodup_filterMap_concat h.created_nodup (by simp [RouterAnswer.createdAddr])

/-- A record is stored, and its address returned. -/
theorem Numbered.store (h : Numbered as w) (hpc : w.pc t = .storing nodeName a)
    (d : Option (List UInt8)) : Numbered (as ++ [.created nodeName a d])
      ({ w with router := w.router.nodeAddStore nodeName a }.goto t .idle) := by
  obtain ⟨hacquired, -, hnot⟩ := h.storing t nodeName a hpc
  have ha := ne_zero_of_ge (h.acquired a hacquired).1
  have hacq : ∀ b, .acquired b ∈ as ++ [.created nodeName a d] ↔ .acquired b ∈ as := by
    intro b
    simp
  have hcre : ∀ {n b d'}, .created n b d' ∈ as ++ [.created nodeName a d] →
      .created n b d' ∈ as ∨ n = nodeName ∧ b = a := by
    intro n b d' hmem
    refine (List.mem_append.1 hmem).imp_right fun hmem => ?_
    obtain ⟨hn, hb, -⟩ := RouterAnswer.created.inj (List.mem_singleton.1 hmem)
    exact ⟨hn, hb⟩
  refine ⟨?_, ?_, ?_, ?_, ?_, ?_, ?_, ?_⟩
  · exact h.next_ge
  · intro b hb
    exact h.acquired b ((hacq b).1 hb)
  · exact nodup_filterMap_concat h.acquired_nodup (by simp [RouterAnswer.acquiredAddr])
  · intro t' n hn
    rcases moved_cases hn with ⟨-, hpc'⟩ | ⟨-, hn⟩
    · cases hpc'
    · exact h.adding t' n hn
  · intro t' n b hn
    rcases moved_cases hn with ⟨-, hpc'⟩ | ⟨ht, hn⟩
    · cases hpc'
    · obtain ⟨hb, hne, hnot'⟩ := h.storing t' n b hn
      refine ⟨(hacq b).2 hb, hne, fun n' d' hmem => ?_⟩
      rcases hcre hmem with hmem | ⟨-, rfl⟩
      · exact hnot' n' d' hmem
      · exact ht (h.storing_inj t' t n nodeName b hn hpc)
  · intro t₁ t₂ n n' b hn hn'
    rcases moved_cases hn with ⟨-, hpc₁⟩ | ⟨-, hn⟩
    · cases hpc₁
    · rcases moved_cases hn' with ⟨-, hpc₂⟩ | ⟨-, hn'⟩
      · cases hpc₂
      · exact h.storing_inj t₁ t₂ n n' b hn hn'
  · intro n b d' hmem hb
    rcases hcre hmem with hmem | ⟨-, rfl⟩
    · exact (hacq b).2 (h.created n b d' hmem hb)
    · exact (hacq b).2 hacquired
  · refine nodup_filterMap_concat h.created_nodup fun b hb hmem => ?_
    rw [RouterAnswer.createdAddr, if_neg ha] at hb
    obtain rfl := Option.some.inj hb
    obtain ⟨y, hy, hya⟩ := List.mem_filterMap.1 hmem
    cases y with
    | created n c d' =>
        rw [RouterAnswer.createdAddr] at hya
        split_ifs at hya with hc
        obtain rfl := Option.some.inj hya
        exact hnot n d' hy
    | _ => cases hya

/-- **A record is stored** under a name that is not there. -/
theorem Registered.store (h : Registered as w) (hpc : w.pc t = .storing nodeName a)
    (hnone : w.router.nodeAddresses.lookup nodeName = none) (d : Option (List UInt8)) :
    Registered (as ++ [.created nodeName a d])
      ({ w with router := w.router.nodeAddStore nodeName a }.goto t .idle) := by
  obtain ⟨hacquired, hbc, hnot⟩ := h.storing t nodeName a hpc
  obtain ⟨hge, hlt⟩ := h.acquired a hacquired
  have ha := ne_zero_of_ge hge
  have hnone' : ∀ b, b ≠ 0 → ¬ Alive as nodeName b := by
    intro b hb halive
    rw [(h.lookup_iff nodeName hbc b).2 ⟨hb, halive⟩] at hnone
    exact Option.some_ne_none b hnone
  -- nobody has the new address
  have hfresh : ∀ n, w.router.nodeAddresses.lookup n ≠ some a := by
    intro n hlook
    by_cases hn : n = broadcastNode
    · rw [hn, h.broadcast] at hlook
      exact ne_broadcast_of_lt hlt (Option.some.inj hlook).symm
    · obtain ⟨d', hmem⟩ := ((h.lookup_iff n hn a).1 hlook).2.mem
      exact hnot n d' hmem
  have halive : ∀ n b, Alive (as ++ [.created nodeName a d]) n b ↔
      n = nodeName ∧ b = a ∨ Alive as n b := by
    intro n b
    rw [alive_concat]
    refine or_congr ⟨?_, ?_⟩ ⟨fun h => h.1, fun h => ⟨h, by simp⟩⟩
    · rintro ⟨d', heq⟩
      obtain ⟨hn, hb, -⟩ := RouterAnswer.created.inj heq
      exact ⟨hn.symm, hb.symm⟩
    · rintro ⟨rfl, rfl⟩
      exact ⟨d, rfl⟩
  -- the name leads to the new address, the others lead where they led before
  have hlookup : ∀ n b, (w.router.nodeAddresses.insert nodeName a).lookup n = some b ↔
      n = nodeName ∧ b = a ∨ w.router.nodeAddresses.lookup n = some b := by
    intro n b
    by_cases hn : n = nodeName
    · rw [hn, AList.lookup_insert, hnone, Option.some.injEq]
      simp [eq_comm]
    · rw [AList.lookup_insert_ne hn, or_iff_right fun hc => hn hc.1]
  refine ⟨h.toNumbered.store hpc d, ?_, ?_, ?_, ?_, ?_⟩
  · intro pre n b d' post heq hb c hc
    rcases concat_eq_append_cons heq with ⟨-, rfl, hx⟩ | ⟨post', -, heq'⟩
    · obtain ⟨rfl, -, -⟩ := RouterAnswer.created.inj hx
      exact hnone' c hc
    · exact h.once pre n b d' post' heq' hb c hc
  · exact (AList.lookup_insert_ne (Ne.symm hbc)).trans h.broadcast
  · intro n hn b
    rw [halive]
    refine (hlookup n b).trans ?_
    rw [h.lookup_iff n hn b]
    constructor
    · rintro (⟨hn', rfl⟩ | ⟨hb, hal⟩)
      · exact ⟨ha, .inl ⟨hn', rfl⟩⟩
      · exact ⟨hb, .inr hal⟩
    · rintro ⟨hb, hor⟩
      exact hor.imp_right fun hal => ⟨hb, hal⟩
  · intro n n' b hn hn'
    rcases (hlookup n b).1 hn with ⟨rfl, rfl⟩ | hlook
    · rcases (hlookup n' b).1 hn' with ⟨rfl, -⟩ | hlook'
      · rfl
      · exact absurd hlook' (hfresh n')
    · rcases (hlookup n' b).1 hn' with ⟨-, rfl⟩ | hlook'
      · exact absurd hlook (hfresh n)
      · exact h.inj n n' b hlook hlook'
  · intro b
    refine (AList.mem_insert _).trans ?_
    rw [h.mem_iff b]
    constructor
    · rintro (rfl | ⟨n, hn, hlook⟩)
      · exact ⟨nodeName, hbc, (hlookup nodeName b).2 (.inl ⟨rfl, rfl⟩)⟩
      · exact ⟨n, hn, (hlookup n b).2 (.inr hlook)⟩
    · rintro ⟨n, hn, hlook⟩
      rcases (hlookup n b).1 hlook with ⟨-, rfl⟩ | hlook
      · exact .inl rfl
      · exact .inr ⟨n, hn, hlook⟩

/-- **A node is deleted.** -/
theorem Registered.nodeDel (h : Registered as w) {address : UInt32} (hne : address ≠ broadcastAddr) :
    Registered (as ++ [.deleted address (w.router.nodeDel address).1])
      { w with router := (w.router.nodeDel address).2 } := by
  cases hname : w.router.nameOf address with
  | none =>
      -- nothing has the address
      have hout : address ∉ w.router.nodeQueues := by
        intro hmem
        obtain ⟨n, -, hlook⟩ := (h.mem_iff address).1 hmem
        exact IpcRouter.lookup_ne_of_nameOf hname n hlook
      have hdel : w.router.nodeDel address =
          (false, { w.router with nodeQueues := w.router.nodeQueues.erase address }) := by
        have hname' : IpcRouter.nameOf { w.router with
            nodeQueues := w.router.nodeQueues.erase address } address = none := hname
        rw [IpcRouter.nodeDel, hname', AList.lookup_eq_none.2 hout]
        rfl
      rw [hdel]
      have hnumbered : Numbered (as ++ [.deleted address false]) w :=
        h.toNumbered.quiet rfl rfl rfl (fun t n hn => .inl hn) fun t n a hn => hn
      have hquiet := h.quiet rfl (by simp) hnumbered rfl rfl
      refine ⟨⟨hquiet.next_ge, hquiet.acquired, hquiet.acquired_nodup, hquiet.adding, hquiet.storing,
        hquiet.storing_inj, hquiet.created, hquiet.created_nodup⟩, hquiet.once, hquiet.broadcast,
        hquiet.lookup_iff, hquiet.inj, fun b => ?_⟩
      refine AList.mem_erase.trans ((and_iff_right_of_imp ?_).trans (h.mem_iff b))
      rintro hmem rfl
      exact hout hmem
  | some name =>
      have hlook := IpcRouter.lookup_of_nameOf hname
      have hbc : name ≠ broadcastNode := by
        rintro rfl
        exact hne (Option.some.inj (hlook.symm.trans h.broadcast))
      have hdel : w.router.nodeDel address = (true, { w.router with
          nodeQueues := w.router.nodeQueues.erase address
          nodeAddresses := w.router.nodeAddresses.erase name }) := by
        have hname' : IpcRouter.nameOf { w.router with
            nodeQueues := w.router.nodeQueues.erase address } address = some name := hname
        rw [IpcRouter.nodeDel, hname']
      rw [hdel]
      have halive : ∀ n b, Alive (as ++ [.deleted address true]) n b ↔
          Alive as n b ∧ b ≠ address := by
        intro n b
        rw [alive_concat]
        simp [eq_comm]
      -- exactly the name of the node is gone
      have hlookup : ∀ n b, (w.router.nodeAddresses.erase name).lookup n = some b ↔
          w.router.nodeAddresses.lookup n = some b ∧ b ≠ address := by
        intro n b
        by_cases hn : n = name
        · rw [hn, AList.lookup_erase, hlook, Option.some.injEq]
          simp [eq_comm]
        · rw [AList.lookup_erase_ne hn]
          refine (and_iff_left_of_imp fun hb hba => hn ?_).symm
          exact h.inj n name b hb (hba ▸ hlook)
      refine ⟨h.toNumbered.quiet rfl rfl rfl (fun t n hn => .inl hn) fun t n a hn => hn, ?_, ?_, ?_,
        ?_, ?_⟩
      · intro pre n b d post heq hb c hc
        rcases concat_eq_append_cons heq with ⟨-, -, hx⟩ | ⟨post', -, heq'⟩
        · cases hx
        · exact h.once pre n b d post' heq' hb c hc
      · refine (hlookup _ _).2 ⟨h.broadcast, hne.symm⟩
      · intro n hn b
        rw [halive, ← and_assoc, ← h.lookup_iff n hn b]
        exact hlookup n b
      · intro n n' b hn hn'
        exact h.inj n n' b ((hlookup n b).1 hn).1 ((hlookup n' b).1 hn').1
      · intro b
        refine AList.mem_erase.trans ?_
        rw [h.mem_iff b]
        constructor
        · rintro ⟨hb, n, hn, hlook'⟩
          exact ⟨n, hn, (hlookup n b).2 ⟨hlook', hb⟩⟩
        · rintro ⟨n, hn, hlook'⟩
          obtain ⟨hlook', hb⟩ := (hlookup n b).1 hlook'
          exact ⟨hb, n, hn, hlook'⟩

/-! ### Runs -/

/-- **One section keeps the invariant**, if it meets the condition. -/
theorem Registered.step {op : RouterOp} (h : Registered as w) (hunique : w.Unique op)
    (hstep : routerStep w op = some (x, w')) : Registered (as ++ [x]) w' := by
  -- a thread that goes nowhere in particular
  have hidle : ∀ {t : ℕ} {n : List UInt8} {d : Option (List UInt8)},
      Registered (as ++ [.created n 0 d]) (w.goto t .idle) := by
    intro t n d
    refine h.quiet rfl (by simp) (h.toNumbered.quiet rfl rfl rfl ?_ ?_) rfl rfl
    · intro t' n' hn
      rcases moved_cases hn with ⟨-, hpc⟩ | ⟨-, hn⟩
      · cases hpc
      · exact .inl hn
    · intro t' n' a hn
      rcases moved_cases hn with ⟨-, hpc⟩ | ⟨-, hn⟩
      · cases hpc
      · exact hn
  cases op with
  | nodeCreate t nodeName =>
      rw [routerStep] at hstep
      split at hstep
      · split_ifs at hstep with hfind
        · cases hstep
          have hnone := h.lookup_eq_none hfind
          refine h.quiet rfl (by simp) (h.toNumbered.quiet rfl rfl rfl ?_ ?_) rfl rfl
          · intro t' n hn
            rcases moved_cases hn with ⟨-, hpc⟩ | ⟨-, hn⟩
            · cases hpc
              right
              rintro rfl
              exact Option.some_ne_none _ (h.broadcast.symm.trans hnone)
            · exact .inl hn
          · intro t' n a hn
            rcases moved_cases hn with ⟨-, hpc⟩ | ⟨-, hn⟩
            · cases hpc
            · exact hn
        · cases hstep
          exact h.quiet rfl (by simp) (h.toNumbered.quiet rfl rfl rfl (fun t n hn => .inl hn)
            fun t n a hn => hn) rfl rfl
      · cases hstep
  | acquire t =>
      rw [routerStep] at hstep
      split at hstep
      case h_2 => cases hstep
      case h_1 nodeName hpc =>
        rw [IpcRouter.nodeAddAcquire] at hstep
        by_cases hnext : w.router.nextNodeAddr < broadcastAddr
        · have hne : w.router.nextNodeAddr ≠ 0 := ne_zero_of_ge h.next_ge
          simp only [if_pos hnext, if_neg hne] at hstep
          cases hstep
          exact h.quiet rfl (by simp) (h.toNumbered.acquire hpc hnext) rfl rfl
        · simp only [if_neg hnext, if_true] at hstep
          cases hstep
          exact hidle
  | store t valid =>
      rw [routerStep] at hstep
      split at hstep
      case h_2 => cases hstep
      case h_1 nodeName address hpc =>
        cases valid with
        | true =>
            rw [if_pos rfl] at hstep
            cases hstep
            exact h.store hpc (h.lookup_eq_none (hunique nodeName address hpc)) _
        | false =>
            rw [if_neg Bool.false_ne_true] at hstep
            cases hstep
            exact hidle
  | nodeDel t address =>
      rw [routerStep] at hstep
      split at hstep
      · split_ifs at hstep with hbc
        cases hstep
        exact h.nodeDel hbc
      · cases hstep

/-- The invariant says what is expected. -/
theorem Registered.consistent (h : Registered as w) : Consistent as w := by
  refine ⟨?_, h.acquired_nodup, h.created_nodup, fun _ a ha => ?_, fun _ n hn a hlook => ?_⟩
  · intro pre n a d mid b e post heq ha hb
    by_contra hmid
    refine h.once (pre ++ .created n a d :: mid) n b e post ?_ hb a ha ⟨pre, d, mid, rfl, hmid⟩
    rw [heq, List.append_assoc, List.cons_append]
  · obtain ⟨n, -, hlook⟩ := (h.mem_iff a).1 ha
    exact ⟨n, hlook, fun n' hlook' => h.inj n' n a hlook' hlook⟩
  · exact (h.mem_iff a).2 ⟨n, hn, hlook⟩

/-- **A record that is stored over another one** makes the second node of the name. -/
theorem Registered.not_consistent {op : RouterOp} (h : Registered as w) (hunique : ¬ w.Unique op) :
    ∃ x w', routerStep w op = some (x, w') ∧ ¬ Consistent (as ++ [x]) w' := by
  cases op with
  | store t valid =>
      cases valid with
      | false => exact absurd trivial hunique
      | true =>
          simp only [Unique, not_forall] at hunique
          obtain ⟨nodeName, a, hpc, hfind⟩ := hunique
          obtain ⟨hacquired, hbc, -⟩ := h.storing t nodeName a hpc
          obtain ⟨hge, -⟩ := h.acquired a hacquired
          cases hlook : w.router.nodeAddresses.lookup nodeName with
          | none =>
              rw [IpcRouter.nodeFind, hlook] at hfind
              exact absurd rfl hfind
          | some b =>
              obtain ⟨hb, pre, d, mid, rfl, hmid⟩ := (h.lookup_iff nodeName hbc b).1 hlook
              refine ⟨_, _, by rw [routerStep, hpc]; rfl, fun hcons => hmid ?_⟩
              refine hcons.once pre nodeName b d mid a (some (IpcRouter.ioDevice a)) [] ?_ hb
                (ne_zero_of_ge hge)
              rw [List.append_assoc, List.cons_append]
  | nodeCreate t nodeName => exact absurd trivial hunique
  | acquire t => exact absurd trivial hunique
  | nodeDel t address => exact absurd trivial hunique

/-- Nothing has been created. -/
theorem registered_initial : Registered [] initial := by
  have hnone : ∀ n, n ≠ broadcastNode → initial.router.nodeAddresses.lookup n = none := fun n hn =>
    (AList.lookup_insert_ne hn).trans (AList.lookup_empty n)
  have halive : ∀ n a, ¬ Alive [] n a := by
    rintro n a ⟨pre, d, mid, heq, -⟩
    cases pre <;> cases heq
  refine ⟨⟨UInt32.le_refl _, ?_, List.nodup_nil, ?_, ?_, ?_, ?_, List.nodup_nil⟩, ?_,
    AList.lookup_insert _, ?_, ?_, ?_⟩
  · simp
  · intro t n hn
    cases hn
  · intro t n a hn
    cases hn
  · intro t t' n n' a hn
    cases hn
  · simp
  · simp
  · intro n hn a
    rw [hnone n hn]
    exact ⟨fun h => absurd h (Option.some_ne_none a).symm, fun h => absurd h.2 (halive n a)⟩
  · intro n n' a hn hn'
    by_cases h : n = broadcastNode
    · by_cases h' : n' = broadcastNode
      · rw [h, h']
      · exact absurd ((hnone n' h').symm.trans hn') (Option.some_ne_none a).symm
    · exact absurd ((hnone n h).symm.trans hn) (Option.some_ne_none a).symm
  · intro a
    constructor
    · intro ha
      exact absurd ha (AList.notMem_empty a)
    · rintro ⟨n, hn, hlook⟩
      exact absurd ((hnone n hn).symm.trans hlook) (Option.some_ne_none a).symm

end RouterWorld

/-- **When the registry stays consistent**: at every moment of a run, no name has two nodes, no address
is assigned twice, and between the calls names and queues correspond, if and only if no record is
stored under a name that is there. -/
theorem router_consistent_iff (ops : List RouterOp) :
    (∀ pre as w, pre <+: ops → run routerStep pre RouterWorld.initial = some (as, w) →
        Consistent as w) ↔
      Meets routerStep RouterWorld.Unique ops RouterWorld.initial :=
  forall_prefix_iff_meets (fun h hunique hstep => h.step hunique hstep) (fun h => h.consistent)
    (fun h hunique => h.not_consistent hunique) registered_initial ops

/-- **Two threads create one name**: both find that it is not there, and both get an address.  Then
nobody knows the name of the first one. -/
theorem router_not_consistent :
    ∃ pre w d e, run routerStep [.nodeCreate 0 (ascii "A"), .nodeCreate 1 (ascii "A"), .acquire 0,
        .acquire 1, .store 0 true, .store 1 true] RouterWorld.initial =
      some (pre ++ [.created (ascii "A") 16 d, .created (ascii "A") 17 e], w) ∧
    pre = [.searched, .searched, .acquired 16, .acquired 17] ∧
    (∀ t, w.pc t = .idle) ∧ 16 ∈ w.router.nodeQueues ∧
    (∀ nodeName, w.router.nodeAddresses.lookup nodeName ≠ some 16) ∧
    ¬ Consistent (pre ++ [.created (ascii "A") 16 d, .created (ascii "A") 17 e]) w := by
  refine ⟨_, _, _, _, rfl, rfl, fun t => ?_, ?_, fun n hlook => ?_, fun hcons => ?_⟩
  · by_cases h₁ : t = 1
    · rw [h₁]
      rfl
    · by_cases h₀ : t = 0
      · rw [h₀]
        rfl
      · simp [goto, initial, h₀, h₁]
  · decide
  · by_cases hn : n = ascii "A"
    · rw [hn] at hlook
      exact absurd hlook (by decide)
    · have hlook' : (((AList.insert broadcastNode broadcastAddr
          (∅ : AList fun _ : List UInt8 => UInt32)).insert (ascii "A") 16).insert
            (ascii "A") 17).lookup n = some 16 := hlook
      rw [AList.lookup_insert_ne hn, AList.lookup_insert_ne hn] at hlook'
      by_cases hbc : n = broadcastNode
      · rw [hbc] at hlook'
        exact absurd hlook' (by decide)
      · rw [AList.lookup_insert_ne hbc, AList.lookup_empty] at hlook'
        exact absurd hlook' (Option.some_ne_none _).symm
  · exact absurd (hcons.once _ _ _ _ [] _ _ [] rfl (by decide) (by decide)) List.not_mem_nil

end CodePort
