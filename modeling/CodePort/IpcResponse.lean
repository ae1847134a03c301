/-
Replies and the clients that wait for them.

The accumulator thread puts every reply into the context that it names; a client waits for the
semaphore of its context, takes the reply from there, and removes the context.  Each of these is a
step of its own, and semaphores are kept in a pool between two contexts.  Context 0 is never removed,
so a reply that arrives between the semaphore and the reply of a client leaves it signalled without a
message there; with any other context that does no harm.

Main definitions:

* `CodePort.ResponseContext` — the message context class, as far as no handler is registered;
* `CodePort.ResponseWorld` — the contexts, the semaphores and the clients;
* `CodePort.responseStep` — one step: a reply is delivered, or a client goes on;
* `CodePort.pending` — the reply that no successful call has followed;
* `CodePort.ResponseWorld.Correlated` — what is expected at a moment of a run.

Main results:

* `CodePort.ResponseWorld.Corresponds.step` — **one step keeps the invariant**;
* `CodePort.getResponse_correlated` — replies and calls correspond.
-/

import CodePort.SemLite
import CodePort.StepSystem
import Mathlib.Data.List.AList
import Mathlib.Data.List.Induction

set_option relaxedAutoImplicit false
set_option autoImplicit false

namespace CodePort

open StepSystem

/-! ### Contexts -/

/-- A reply.  Its number tells it from the others; no code looks at it. -/
structure IpcResponse where
  number : ℕ
  context : ℕ
  deriving DecidableEq

/-- The message context class without a dispatch object. -/
structure ResponseContext where
  ptrHead : Option IpcResponse
  /-- The semaphore that blocks and signals the client; it can be created whenever that is tried. -/
  ptrSem : ℕ

/-- Where the call of `GetResponse` for a message id stands. -/
inductive ResponsePc
  | idle
  /-- The context has been found or created. -/
  | waiting
  /-- The semaphore was not signalled. -/
  | blocked
  /-- The semaphore has been taken. -/
  | taken
  /-- `MessageGet` has returned true. -/
  | removing (response : Option IpcResponse)
  deriving DecidableEq

/-- The contexts, the semaphores, and the calls, at most one for each message id. -/
structure ResponseWorld where
  contextMap : AList fun _ : ℕ => ResponseContext
  /-- The semaphores that are not in use. -/
  semPool : List ℕ
  sems : ℕ → SemLite
  /-- The next semaphore that is created. -/
  newSem : ℕ
  pc : ℕ → ResponsePc
  /-- How many replies have been delivered. -/
  delivered : ℕ

namespace ResponseWorld

/-- Nothing has been delivered, and nobody has called. -/
def initial : ResponseWorld where
  contextMap := ∅
  semPool := []
  sems _ := SemLite.construct 0 1
  newSem := 0
  pc _ := .idle
  delivered := 0

def goto (w : ResponseWorld) (msgId : ℕ) (pc : ResponsePc) : ResponseWorld :=
  { w with pc := Function.update w.pc msgId pc }

def contextSet (w : ResponseWorld) (msgId : ℕ) (c : ResponseContext) : ResponseWorld :=
  { w with contextMap := w.contextMap.insert msgId c }

def semSet (w : ResponseWorld) (s : ℕ) (sem : SemLite) : ResponseWorld :=
  { w with sems := Function.update w.sems s sem }

/-- Get a semaphore from the pool. -/
def getSemFromPool (w : ResponseWorld) : ℕ × ResponseWorld :=
  match w.semPool.getLast? with
  -- take one from the end
  | some s => (s, { w with semPool := w.semPool.dropLast })
  -- if container didn't have one to supply, create one
  | none =>
      (w.newSem, { w with newSem := w.newSem + 1 }.semSet w.newSem (SemLite.construct 0 1))

/-- Put a semaphore back in the pool. -/
def putSemIntoPool (w : ResponseWorld) (s : ℕ) : ResponseWorld :=
  -- make sure it is empty
  { w.semSet s ((w.sems s).take.getD (w.sems s)) with semPool := w.semPool ++ [s] }

/-- `m_ContextMap[MsgId]`: find or create a context. -/
def contextGet (w : ResponseWorld) (msgId : ℕ) : ResponseContext × ResponseWorld :=
  match w.contextMap.lookup msgId with
  | some c => (c, w)
  | none =>
      let (s, w) := w.getSemFromPool
      (⟨none, s⟩, w.contextSet msgId ⟨none, s⟩)

/-- `MessagePut`: the new message replaces the one that is there. -/
def messagePut (w : ResponseWorld) (msgId : ℕ) (r : IpcResponse) : ResponseWorld :=
  let (c, w) := w.contextGet msgId
  (w.contextSet msgId { c with ptrHead := some r }).semSet c.ptrSem (w.sems c.ptrSem).give.2

/-- `Take` of the semaphore of a context. -/
def takeSem (w : ResponseWorld) (msgId : ℕ) (c : ResponseContext) : ResponseWorld :=
  match (w.sems c.ptrSem).take with
  | some sem => (w.semSet c.ptrSem sem).goto msgId .taken
  | none => w.goto msgId .blocked

/-- `RemoveContext`, with the destructor of the context. -/
def removeContext (w : ResponseWorld) (msgId : ℕ) : ResponseWorld :=
  -- abort if attempt to delete context 0
  if msgId = 0 then w
  else
    match w.contextMap.lookup msgId with
    | none => w
    | some c => { w with contextMap := w.contextMap.erase msgId }.putSemIntoPool c.ptrSem

end ResponseWorld

/-! ### Steps -/

/-- A step of the accumulator thread, or of the client that calls `GetResponse` for a message id. -/
inductive ResponseOp
  /-- The accumulator thread puts a reply into its context. -/
  | deliver (msgId : ℕ)
  /-- `GetResponse` finds or creates the context. -/
  | getResponse (msgId : ℕ)
  /-- The client finds the semaphore signalled and takes it, or waits. -/
  | take (msgId : ℕ)
  /-- A client that waits gives up. -/
  | timeout (msgId : ℕ)
  /-- The client takes the message from the context. -/
  | head (msgId : ℕ)
  /-- The client removes the context, and `GetResponse` returns. -/
  | remove (msgId : ℕ)

/-- What a step answers. -/
inductive ResponseAnswer
  | delivered (msgId : ℕ) (response : IpcResponse)
  /-- The call goes on. -/
  | pending
  /-- `GetResponse` returns; the response pointer is left alone if there is no message. -/
  | gotten (msgId : ℕ) (rv : Bool) (response : Option IpcResponse)
  deriving DecidableEq

open ResponseWorld

/-- One step. -/
def responseStep (w : ResponseWorld) : ResponseOp → Option (ResponseAnswer × ResponseWorld)
  | .deliver msgId =>
      let r : IpcResponse := ⟨w.delivered, msgId⟩
      some (.delivered msgId r, { w with delivered := w.delivered + 1 }.messagePut msgId r)
  | .getResponse msgId =>
      match w.pc msgId with
      | .idle => some (.pending, (w.contextGet msgId).2.goto msgId .waiting)
      | _ => none
  | .take msgId =>
      match w.pc msgId, w.contextMap.lookup msgId with
      | .waiting, some c => some (.pending, w.takeSem msgId c)
      | .blocked, some c => some (.pending, w.takeSem msgId c)
      | _, _ => none
  | .timeout msgId =>
      match w.pc msgId with
      | .blocked => some (.gotten msgId false none, w.goto msgId .idle)
      | _ => none
  | .head msgId =>
      match w.pc msgId, w.contextMap.lookup msgId with
      | .taken, some c =>
          some (.pending,
            (w.contextSet msgId { c with ptrHead := none }).goto msgId (.removing c.ptrHead))
      | _, _ => none
  | .remove msgId =>
      match w.pc msgId with
      | .removing response =>
          some (.gotten msgId true response, (w.removeContext msgId).goto msgId .idle)
      | _ => none

/-- The response that `GetResponse` has returned. -/
def ResponseAnswer.response : ResponseAnswer → Option IpcResponse
  | .gotten _ true response => response
  | _ => none

/-- The most recent reply for a message id, after one more answer. -/
def ResponseAnswer.newest (msgId : ℕ) (o : Option IpcResponse) : ResponseAnswer → Option IpcResponse
  | .delivered m r => if m = msgId then some r else o
  | _ => o

/-- The reply that is pending for a message id, after one more answer. -/
def ResponseAnswer.pend (msgId : ℕ) (o : Option IpcResponse) : ResponseAnswer → Option IpcResponse
  | .delivered m r => if m = msgId then some r else o
  | .gotten m true _ => if m = msgId then none else o
  | _ => o

/-- The most recent reply for a message id. -/
def newest (as : List ResponseAnswer) (msgId : ℕ) : Option IpcResponse :=
  as.foldl (ResponseAnswer.newest msgId) none

/-- **The most recent reply for a message id**, unless a call has succeeded since. -/
def pending (as : List ResponseAnswer) (msgId : ℕ) : Option IpcResponse :=
  as.foldl (ResponseAnswer.pend msgId) none

/-- The responses that calls have returned. -/
def returned (as : List ResponseAnswer) : List IpcResponse := as.filterMap ResponseAnswer.response

namespace ResponseWorld

/-- What is expected at a moment of a run, after some answers. -/
structure Correlated (as : List ResponseAnswer) (w : ResponseWorld) : Prop where
  /-- A call that returns true returns a reply for its message id. -/
  response : ∀ msgId o, .gotten msgId true o ∈ as → ∃ r, o = some r ∧ r.context = msgId
  /-- No two calls return the same. -/
  returned_nodup : (returned as).Nodup
  /-- When no call is running, a pending reply is returned at once by the next one. -/
  at_once : ∀ msgId r, w.pc msgId = .idle → pending as msgId = some r →
    ∃ w', run responseStep [.getResponse msgId, .take msgId, .head msgId, .remove msgId] w =
      some ([.pending, .pending, .pending, .gotten msgId true (some r)], w')
  /-- A running call does not wait when a reply is pending, -/
  take : ∀ msgId r, w.pc msgId = .waiting ∨ w.pc msgId = .blocked → pending as msgId = some r →
    ∃ w', responseStep w (.take msgId) = some (.pending, w') ∧ w'.pc msgId = .taken
  /-- and takes the most recent reply. -/
  head : ∀ msgId, w.pc msgId = .taken → ∃ r w', newest as msgId = some r ∧
    responseStep w (.head msgId) = some (.pending, w') ∧ w'.pc msgId = .removing (some r)
  /-- A semaphore in the pool has count 0, and belongs to no context. -/
  pool : ∀ s ∈ w.semPool, (w.sems s).count = 0 ∧
    ∀ msgId c, w.contextMap.lookup msgId = some c → c.ptrSem ≠ s
  pool_nodup : w.semPool.Nodup
  /-- No semaphore belongs to two contexts. -/
  owner : ∀ m m' c c', w.contextMap.lookup m = some c → w.contextMap.lookup m' = some c' →
    c.ptrSem = c'.ptrSem → m = m'

/-- **The condition on a step**: no reply is delivered to context 0 after a client has taken the
semaphore and before it takes the message. -/
def Undisturbed (w : ResponseWorld) : ResponseOp → Prop
  | .deliver msgId => msgId = 0 → w.pc msgId ≠ .taken
  | _ => True

instance Undisturbed.decidable (w : ResponseWorld) : (op : ResponseOp) → Decidable (w.Undisturbed op)
  | .deliver msgId => inferInstanceAs (Decidable (msgId = 0 → w.pc msgId ≠ .taken))
  | .getResponse _ => isTrue trivial
  | .take _ => isTrue trivial
  | .timeout _ => isTrue trivial
  | .head _ => isTrue trivial
  | .remove _ => isTrue trivial

/-! ### Semaphores -/

/-- A semaphore that is empty, or has been emptied. -/
theorem count_tryTake {s : SemLite} (h : s.maxCount = 1) :
    (s.take.getD s).count = 0 ∧ (s.take.getD s).maxCount = 1 := by
  have hle := s.count_le
  cases htake : s.take with
  | some t =>
      obtain ⟨hcount, hmax⟩ := SemLite.take_eq_some.1 htake
      rw [Option.getD_some]
      omega
  | none =>
      have hzero : ¬ 0 < s.count := fun hpos => SemLite.take_ne_none hpos htake
      rw [Option.getD_none]
      omega

/-- A semaphore that has been given. -/
theorem count_give {s : SemLite} (h : s.maxCount = 1) : s.give.2.count = 1 := by
  have hpos := SemLite.count_give_pos (s := s) (h ▸ Nat.one_pos)
  have hle := s.give.2.count_le
  rw [SemLite.maxCount_give, h] at hle
  omega

/-- **The semaphores**: every one is in the pool, or belongs to one context, or has not been created
yet. -/
structure SemsOk (w : ResponseWorld) : Prop where
  maxCount : ∀ s, (w.sems s).maxCount = 1
  pool : ∀ s ∈ w.semPool, s < w.newSem ∧ (w.sems s).count = 0
  pool_nodup : w.semPool.Nodup
  owned : ∀ m c, w.contextMap.lookup m = some c → c.ptrSem < w.newSem ∧ c.ptrSem ∉ w.semPool
  owner : ∀ m m' c c', w.contextMap.lookup m = some c → w.contextMap.lookup m' = some c' →
    c.ptrSem = c'.ptrSem → m = m'

/-- A step for the message id `m` leaves the other contexts and calls alone. -/
structure Frame (w w' : ResponseWorld) (m : ℕ) : Prop where
  lookup : ∀ m', m' ≠ m → w'.contextMap.lookup m' = w.contextMap.lookup m'
  sems : ∀ m', m' ≠ m → ∀ c, w.contextMap.lookup m' = some c → w'.sems c.ptrSem = w.sems c.ptrSem
  pc : ∀ m', m' ≠ m → w'.pc m' = w.pc m'

variable {w w' w'' : ResponseWorld} {m : ℕ} {c : ResponseContext}

theorem Frame.refl (w : ResponseWorld) (m : ℕ) : Frame w w m :=
  ⟨fun _ _ => rfl, fun _ _ _ _ => rfl, fun _ _ => rfl⟩

theorem Frame.trans (h : Frame w w' m) (h' : Frame w' w'' m) : Frame w w'' m := by
  refine ⟨fun m' hne => (h'.lookup m' hne).trans (h.lookup m' hne), fun m' hne c hc => ?_,
    fun m' hne => (h'.pc m' hne).trans (h.pc m' hne)⟩
  rw [h'.sems m' hne c ((h.lookup m' hne).trans hc), h.sems m' hne c hc]

theorem frame_goto (w : ResponseWorld) (m : ℕ) (pc : ResponsePc) : Frame w (w.goto m pc) m :=
  ⟨fun _ _ => rfl, fun _ _ _ _ => rfl, fun _ hne => Function.update_of_ne hne _ _⟩

theorem SemsOk.goto (h : SemsOk w) (m : ℕ) (pc : ResponsePc) : SemsOk (w.goto m pc) :=
  ⟨h.maxCount, h.pool, h.pool_nodup, h.owned, h.owner⟩

@[simp] theorem pc_goto_self (w : ResponseWorld) (m : ℕ) (pc : ResponsePc) :
    (w.goto m pc).pc m = pc := Function.update_self _ _ _

@[simp] theorem lookup_contextSet_self (w : ResponseWorld) (m : ℕ) (c : ResponseContext) :
    (w.contextSet m c).contextMap.lookup m = some c := AList.lookup_insert _

@[simp] theorem sems_semSet_self (w : ResponseWorld) (s : ℕ) (sem : SemLite) :
    (w.semSet s sem).sems s = sem := Function.update_self _ _ _

/-- The message of a context changes. -/
theorem SemsOk.contextSet (h : SemsOk w) (hc : w.contextMap.lookup m = some c)
    (o : Option IpcResponse) : SemsOk (w.contextSet m { c with ptrHead := o }) ∧
      Frame w (w.contextSet m { c with ptrHead := o }) m := by
  have hof : ∀ m' c', (w.contextSet m { c with ptrHead := o }).contextMap.lookup m' = some c' →
      ∃ d, w.contextMap.lookup m' = some d ∧ c'.ptrSem = d.ptrSem := by
    intro m' c' hc'
    by_cases hm : m' = m
    · rw [hm, lookup_contextSet_self] at hc'
      obtain rfl := Option.some.inj hc'
      exact ⟨c, hm ▸ hc, rfl⟩
    · exact ⟨c', (AList.lookup_insert_ne hm).symm.trans hc', rfl⟩
  refine ⟨⟨h.maxCount, h.pool, h.pool_nodup, fun m' c' hc' => ?_, fun m₁ m₂ c₁ c₂ h₁ h₂ heq => ?_⟩,
    ⟨fun _ hne => AList.lookup_insert_ne hne, fun _ _ _ _ => rfl, fun _ _ => rfl⟩⟩
  · obtain ⟨d, hd, hsem⟩ := hof m' c' hc'
    rw [hsem]
    exact h.owned m' d hd
  · obtain ⟨d₁, hd₁, hsem₁⟩ := hof m₁ c₁ h₁
    obtain ⟨d₂, hd₂, hsem₂⟩ := hof m₂ c₂ h₂
    exact h.owner m₁ m₂ d₁ d₂ hd₁ hd₂ (hsem₁.symm.trans (heq.trans hsem₂))

/-- The semaphore of a context changes. -/
theorem SemsOk.semSet (h : SemsOk w) (hc : w.contextMap.lookup m = some c) {sem : SemLite}
    (hmax : sem.maxCount = 1) : SemsOk (w.semSet c.ptrSem sem) ∧
      Frame w (w.semSet c.ptrSem sem) m := by
  refine ⟨⟨fun s => ?_, fun s hs => ?_, h.pool_nodup, h.owned, h.owner⟩,
    ⟨fun _ _ => rfl, fun m' hne c' hc' => Function.update_of_ne (fun heq => hne ?_) _ _,
      fun _ _ => rfl⟩⟩
  · by_cases hs : s = c.ptrSem
    · rw [hs, sems_semSet_self]
      exact hmax
    · exact (congrArg SemLite.maxCount (Function.update_of_ne hs _ _)).trans (h.maxCount s)
  · have hne : s ≠ c.ptrSem := fun heq => (h.owned m c hc).2 (heq ▸ hs)
    obtain ⟨hlt, hcount⟩ := h.pool s hs
    exact ⟨hlt, (congrArg SemLite.count (Function.update_of_ne hne _ _)).trans hcount⟩
  · exact h.owner m' m c' c hc' hc heq

/-- A semaphore has been drawn: it is empty, and nobody else has it. -/
structure Drawn (w v : ResponseWorld) (s : ℕ) : Prop where
  contextMap_eq : v.contextMap = w.contextMap
  pc_eq : v.pc = w.pc
  delivered_eq : v.delivered = w.delivered
  ok : SemsOk v
  lt : s < v.newSem
  notMem : s ∉ v.semPool
  count_eq : (v.sems s).count = 0
  other : ∀ m c, w.contextMap.lookup m = some c →
    c.ptrSem ≠ s ∧ v.sems c.ptrSem = w.sems c.ptrSem

/-- **What the pool hands out.** -/
theorem SemsOk.getSemFromPool (h : SemsOk w) :
    Drawn w w.getSemFromPool.2 w.getSemFromPool.1 := by
  rw [ResponseWorld.getSemFromPool]
  cases hlast : w.semPool.getLast? with
  | some s =>
      obtain ⟨rest, hpool⟩ : ∃ rest, w.semPool = rest ++ [s] := List.getLast?_eq_some_iff.1 hlast
      have hdrop : w.semPool.dropLast = rest := by rw [hpool, List.dropLast_concat]
      have hsub : ∀ a ∈ rest, a ∈ w.semPool := fun a ha => hpool ▸ List.mem_append_left [s] ha
      have hs : s ∈ w.semPool := hpool ▸ List.mem_append_right rest List.mem_cons_self
      have hnodup := h.pool_nodup
      rw [hpool] at hnodup
      obtain ⟨hrest, -, hdisj⟩ := List.nodup_append.1 hnodup
      refine ⟨rfl, rfl, rfl, ⟨h.maxCount, ?_, ?_, ?_, h.owner⟩, (h.pool s hs).1, ?_, (h.pool s hs).2,
        ?_⟩
      · intro a ha
        exact h.pool a (hsub a (hdrop ▸ ha))
      · exact hdrop ▸ hrest
      · intro m c hc
        obtain ⟨hlt, hnot⟩ := h.owned m c hc
        exact ⟨hlt, fun hmem => hnot (hsub _ (hdrop ▸ hmem))⟩
      · intro hmem
        exact hdisj s (hdrop ▸ hmem) s List.mem_cons_self rfl
      · intro m c hc
        exact ⟨fun heq => (h.owned m c hc).2 (heq ▸ hs), rfl⟩
  | none =>
      have hne : ∀ {a}, a < w.newSem → a ≠ w.newSem := fun hlt => Nat.ne_of_lt hlt
      refine ⟨rfl, rfl, rfl, ⟨fun a => ?_, fun a ha => ?_, h.pool_nodup, fun m c hc => ?_, h.owner⟩,
        Nat.lt_succ_self _, ?_, ?_, fun m c hc => ?_⟩
      · by_cases ha : a = w.newSem
        · rw [ha, sems_semSet_self]
          rfl
        · exact (congrArg SemLite.maxCount (Function.update_of_ne ha _ _)).trans (h.maxCount a)
      · obtain ⟨hlt, hcount⟩ := h.pool a ha
        refine ⟨Nat.lt_succ_of_lt hlt, ?_⟩
        exact (congrArg SemLite.count (Function.update_of_ne (hne hlt) _ _)).trans hcount
      · obtain ⟨hlt, hnot⟩ := h.owned m c hc
        exact ⟨Nat.lt_succ_of_lt hlt, hnot⟩
      · intro hmem
        exact Nat.lt_irrefl _ (h.pool _ hmem).1
      · rw [sems_semSet_self]
        rfl
      · have hlt := (h.owned m c hc).1
        exact ⟨hne hlt, Function.update_of_ne (hne hlt) _ _⟩

/-- A context is created with a semaphore that has been drawn. -/
theorem Drawn.contextSet {v : ResponseWorld} {s : ℕ} (h : SemsOk w) (hv : Drawn w v s) (m : ℕ) :
    SemsOk (v.contextSet m ⟨none, s⟩) ∧ Frame w (v.contextSet m ⟨none, s⟩) m := by
  have hof : ∀ {m' c'}, (v.contextSet m ⟨none, s⟩).contextMap.lookup m' = some c' →
      m' = m ∧ c'.ptrSem = s ∨ m' ≠ m ∧ w.contextMap.lookup m' = some c' := by
    intro m' c' hc'
    by_cases hm : m' = m
    · rw [hm, lookup_contextSet_self] at hc'
      obtain rfl := Option.some.inj hc'
      exact .inl ⟨hm, rfl⟩
    · exact .inr ⟨hm, hv.contextMap_eq ▸ (AList.lookup_insert_ne hm).symm.trans hc'⟩
  refine ⟨⟨hv.ok.maxCount, hv.ok.pool, hv.ok.pool_nodup, fun m' c' hc' => ?_,
      fun m₁ m₂ c₁ c₂ h₁ h₂ heq => ?_⟩,
    ⟨fun m' hne => (AList.lookup_insert_ne hne).trans (by rw [hv.contextMap_eq]),
      fun m' _ c' hc' => (hv.other m' c' hc').2, fun m' _ => congrFun hv.pc_eq m'⟩⟩
  · rcases hof hc' with ⟨-, hs⟩ | ⟨-, hc'⟩
    · rw [hs]
      exact ⟨hv.lt, hv.notMem⟩
    · exact hv.ok.owned m' c' (hv.contextMap_eq ▸ hc')
  · rcases hof h₁ with ⟨hm₁, hs₁⟩ | ⟨-, h₁⟩
    · rcases hof h₂ with ⟨hm₂, -⟩ | ⟨-, h₂⟩
      · rw [hm₁, hm₂]
      · exact absurd (heq.symm.trans hs₁) (hv.other m₂ c₂ h₂).1
    · rcases hof h₂ with ⟨-, hs₂⟩ | ⟨-, h₂⟩
      · exact absurd (heq.trans hs₂) (hv.other m₁ c₁ h₁).1
      · exact h.owner m₁ m₂ c₁ c₂ h₁ h₂ heq

/-- **A context is found or created**; a new one is empty. -/
theorem SemsOk.contextGet (h : SemsOk w) (m : ℕ) :
    ∃ c w', w.contextGet m = (c, w') ∧ SemsOk w' ∧ Frame w w' m ∧
      w'.contextMap.lookup m = some c ∧ w'.pc = w.pc ∧ w'.delivered = w.delivered ∧
      (w.contextMap.lookup m = some c ∧ w' = w ∨
        w.contextMap.lookup m = none ∧ c.ptrHead = none ∧ (w'.sems c.ptrSem).count = 0) := by
  rw [ResponseWorld.contextGet]
  cases hlook : w.contextMap.lookup m with
  | some c => exact ⟨c, w, rfl, h, .refl w m, hlook, rfl, rfl, .inl ⟨rfl, rfl⟩⟩
  | none =>
      have hdrawn := h.getSemFromPool
      obtain ⟨hok, hframe⟩ := hdrawn.contextSet h m
      exact ⟨_, _, rfl, hok, hframe, lookup_contextSet_self _ _ _, hdrawn.pc_eq, hdrawn.delivered_eq,
        .inr ⟨rfl, rfl, hdrawn.count_eq⟩⟩

/-- **A context is removed**, and its semaphore is emptied. -/
theorem SemsOk.removeContext (h : SemsOk w) (hm : m ≠ 0) (hc : w.contextMap.lookup m = some c) :
    SemsOk (w.removeContext m) ∧ Frame w (w.removeContext m) m ∧
      (w.removeContext m).contextMap.lookup m = none ∧ (w.removeContext m).pc = w.pc ∧
      (w.removeContext m).delivered = w.delivered := by
  obtain ⟨hlt, hnot⟩ := h.owned m c hc
  obtain ⟨hcount, hmax⟩ := count_tryTake (h.maxCount c.ptrSem)
  have hother : ∀ m', m' ≠ m → ∀ c', w.contextMap.lookup m' = some c' → c'.ptrSem ≠ c.ptrSem :=
    fun m' hne c' hc' heq => hne (h.owner m' m c' c hc' hc heq)
  have hof : ∀ {m' c'}, (w.contextMap.erase m).lookup m' = some c' →
      m' ≠ m ∧ w.contextMap.lookup m' = some c' := by
    intro m' c' hc'
    have hne : m' ≠ m := by
      rintro rfl
      rw [AList.lookup_erase] at hc'
      exact Option.some_ne_none c' hc'.symm
    exact ⟨hne, (AList.lookup_erase_ne hne).symm.trans hc'⟩
  rw [ResponseWorld.removeContext, if_neg hm, hc]
  refine ⟨⟨fun s => ?_, fun s hs => ?_, ?_, fun m' c' hc' => ?_, fun m₁ m₂ c₁ c₂ h₁ h₂ heq => ?_⟩,
    ⟨fun m' hne => AList.lookup_erase_ne hne,
      fun m' hne c' hc' => Function.update_of_ne (hother m' hne c' hc') _ _, fun _ _ => rfl⟩,
    AList.lookup_erase _ _, rfl, rfl⟩
  · by_cases hs : s = c.ptrSem
    · rw [hs]
      exact (congrArg SemLite.maxCount (Function.update_self _ _ _)).trans hmax
    · exact (congrArg SemLite.maxCount (Function.update_of_ne hs _ _)).trans (h.maxCount s)
  · by_cases hsc : s = c.ptrSem
    · rw [hsc]
      exact ⟨hlt, (congrArg SemLite.count (Function.update_self _ _ _)).trans hcount⟩
    · have hmem : s ∈ w.semPool := by
        rcases List.mem_append.1 hs with hs | hs
        · exact hs
        · exact absurd (List.mem_singleton.1 hs) hsc
      obtain ⟨hlt', hcount'⟩ := h.pool s hmem
      exact ⟨hlt', (congrArg SemLite.count (Function.update_of_ne hsc _ _)).trans hcount'⟩
  · refine List.nodup_append.2 ⟨h.pool_nodup, List.nodup_singleton _, fun a ha b hb hab => ?_⟩
    rw [List.mem_singleton.1 hb] at hab
    exact hnot (hab ▸ ha)
  · obtain ⟨hne, hc'⟩ := hof hc'
    obtain ⟨hlt', hnot'⟩ := h.owned m' c' hc'
    refine ⟨hlt', fun hmem => ?_⟩
    rcases List.mem_append.1 hmem with hmem | hmem
    · exact hnot' hmem
    · exact hother m' hne c' hc' (List.mem_singleton.1 hmem)
  · exact h.owner m₁ m₂ c₁ c₂ (hof h₁).2 (hof h₂).2 heq

/-- **A reply is put into its context**, and the semaphore is signalled. -/
theorem SemsOk.messagePut (h : SemsOk w) (m : ℕ) (r : IpcResponse) :
    SemsOk (w.messagePut m r) ∧ Frame w (w.messagePut m r) m ∧ (w.messagePut m r).pc = w.pc ∧
      (w.messagePut m r).delivered = w.delivered ∧
      ∃ c, (w.messagePut m r).contextMap.lookup m = some c ∧ c.ptrHead = some r ∧
        ((w.messagePut m r).sems c.ptrSem).count = 1 := by
  obtain ⟨c, v, hget, hok, hframe, hlook, hpc, hdel, -⟩ := h.contextGet m
  obtain ⟨hok₁, hframe₁⟩ := hok.contextSet hlook (some r)
  have hmax : (v.sems c.ptrSem).give.2.maxCount = 1 := by
    rw [SemLite.maxCount_give]
    exact hok.maxCount _
  obtain ⟨hok₂, hframe₂⟩ := hok₁.semSet (lookup_contextSet_self _ _ _) hmax
  rw [ResponseWorld.messagePut, hget]
  refine ⟨hok₂, (hframe.trans hframe₁).trans hframe₂, hpc, hdel, _, lookup_contextSet_self _ _ _,
    rfl, ?_⟩
  exact (congrArg SemLite.count (sems_semSet_self _ _ _)).trans (count_give (hok.maxCount _))

/-! ### The invariant -/

/-- The context of a message id holds a reply, and its semaphore is signalled. -/
def Holds (w : ResponseWorld) (m : ℕ) (r : IpcResponse) : Prop :=
  ∃ c, w.contextMap.lookup m = some c ∧ c.ptrHead = some r ∧ (w.sems c.ptrSem).count = 1

/-- The context of a message id is empty, if there is one. -/
def Bare (w : ResponseWorld) (m : ℕ) : Prop :=
  ∀ c, w.contextMap.lookup m = some c → c.ptrHead = none ∧ (w.sems c.ptrSem).count = 0

/-- The context holds the most recent reply, or is empty. -/
def Rests (as : List ResponseAnswer) (w : ResponseWorld) (m : ℕ) : Prop :=
  (∃ r, newest as m = some r ∧ w.Holds m r) ∨ w.Bare m

/-- The context holds the most recent reply, or is empty and no reply is pending. -/
def Settled (as : List ResponseAnswer) (w : ResponseWorld) (m : ℕ) : Prop :=
  (∃ r, newest as m = some r ∧ w.Holds m r) ∨ pending as m = none ∧ w.Bare m

/-- What holds of a message id and its call. -/
def CallOk (as : List ResponseAnswer) (w : ResponseWorld) (m : ℕ) : ResponsePc → Prop
  | .idle => Settled as w m
  | .waiting => Settled as w m ∧ ∃ c, w.contextMap.lookup m = some c
  | .blocked => Settled as w m ∧ ∃ c, w.contextMap.lookup m = some c
  | .taken => ∃ r c, newest as m = some r ∧ w.contextMap.lookup m = some c ∧ c.ptrHead = some r ∧
      (m = 0 → (w.sems c.ptrSem).count = 0)
  | .removing response => ∃ r c, response = some r ∧ r.context = m ∧ r.number < w.delivered ∧
      r ∉ returned as ∧ w.contextMap.lookup m = some c ∧ c.ptrHead ≠ some r ∧ (m = 0 → Rests as w m)

/-- **The invariant** after the answers `as`. -/
structure Corresponds (as : List ResponseAnswer) (w : ResponseWorld) : Prop where
  sems : SemsOk w
  calls : ∀ m, CallOk as w m (w.pc m)
  heads : ∀ m c r, w.contextMap.lookup m = some c → c.ptrHead = some r →
    r.context = m ∧ r.number < w.delivered ∧ r ∉ returned as
  response : ∀ m o, .gotten m true o ∈ as → ∃ r, o = some r ∧ r.context = m
  returned_lt : ∀ r ∈ returned as, r.number < w.delivered
  returned_nodup : (returned as).Nodup

variable {as : List ResponseAnswer} {x : ResponseAnswer} {r : IpcResponse}

theorem newest_concat (as : List ResponseAnswer) (x : ResponseAnswer) (m : ℕ) :
    newest (as ++ [x]) m = x.newest m (newest as m) := by
  rw [newest, List.foldl_append]
  rfl

theorem pending_concat (as : List ResponseAnswer) (x : ResponseAnswer) (m : ℕ) :
    pending (as ++ [x]) m = x.pend m (pending as m) := by
  rw [pending, List.foldl_append]
  rfl

theorem mem_returned_concat :
    r ∈ returned (as ++ [x]) ↔ r ∈ returned as ∨ x.response = some r := by
  rw [returned, List.filterMap_append, List.mem_append]
  refine or_congr Iff.rfl ?_
  cases hx : x.response <;> simp [hx, eq_comm]

/-- **A pending reply is the most recent one.** -/
theorem newest_of_pending (h : pending as m = some r) : newest as m = some r := by
  induction as using List.reverseRecOn with
  | nil => cases h
  | append_singleton as x ih =>
      rw [pending_concat] at h
      rw [newest_concat]
      cases x with
      | delivered m' r' =>
          simp only [ResponseAnswer.pend, ResponseAnswer.newest] at h ⊢
          split_ifs at h ⊢ with hm
          · exact h
          · exact ih h
      | pending => exact ih h
      | gotten m' rv o =>
          cases rv with
          | false => exact ih h
          | true =>
              simp only [ResponseAnswer.pend] at h
              split_ifs at h
              exact ih h

/-- The answer concerns no other message id. -/
def About (m : ℕ) (x : ResponseAnswer) : Prop :=
  ∀ m', m' ≠ m → (∀ o, x.newest m' o = o) ∧ (∀ o, x.pend m' o = o) ∧
    ∀ r, x.response = some r → r.context ≠ m'

/-- A step for another message id. -/
theorem CallOk.frame {m' : ℕ} (h : CallOk as w m' (w.pc m')) (hne : m' ≠ m)
    (hframe : Frame w w' m) (hdel : w.delivered ≤ w'.delivered) (hx : About m x) :
    CallOk (as ++ [x]) w' m' (w'.pc m') := by
  obtain ⟨hnewest, hpend, hresponse⟩ := hx m' hne
  have hnew : newest (as ++ [x]) m' = newest as m' := (newest_concat as x m').trans (hnewest _)
  have hpen : pending (as ++ [x]) m' = pending as m' := (pending_concat as x m').trans (hpend _)
  have hlook := hframe.lookup m' hne
  have hholds : ∀ {r}, w.Holds m' r → w'.Holds m' r := by
    rintro r ⟨c, hc, hhead, hcount⟩
    exact ⟨c, hlook.trans hc, hhead, hframe.sems m' hne c hc ▸ hcount⟩
  have hbare : w.Bare m' → w'.Bare m' := by
    intro hbare c hc
    rw [hlook] at hc
    rw [hframe.sems m' hne c hc]
    exact hbare c hc
  have hsettled : Settled as w m' → Settled (as ++ [x]) w' m' := by
    rintro (⟨r, hr, hh⟩ | ⟨hnone, hb⟩)
    · exact .inl ⟨r, hnew.trans hr, hholds hh⟩
    · exact .inr ⟨hpen.trans hnone, hbare hb⟩
  rw [hframe.pc m' hne]
  cases hpc : w.pc m' with
  | idle =>
      rw [hpc] at h
      exact hsettled h
  | waiting =>
      rw [hpc] at h
      exact ⟨hsettled h.1, h.2.imp fun c hc => hlook.trans hc⟩
  | blocked =>
      rw [hpc] at h
      exact ⟨hsettled h.1, h.2.imp fun c hc => hlook.trans hc⟩
  | taken =>
      rw [hpc] at h
      obtain ⟨r, c, hr, hc, hhead, hcount⟩ := h
      refine ⟨r, c, hnew.trans hr, hlook.trans hc, hhead, fun hm => ?_⟩
      rw [hframe.sems m' hne c hc]
      exact hcount hm
  | removing response =>
      rw [hpc] at h
      obtain ⟨r, c, hr, hcontext, hlt, hnot, hc, hhead, hrests⟩ := h
      refine ⟨r, c, hr, hcontext, Nat.lt_of_lt_of_le hlt hdel, ?_, hlook.trans hc, hhead, fun hm => ?_⟩
      · intro hmem
        exact (mem_returned_concat.1 hmem).elim hnot fun hx => hresponse r hx hcontext
      · exact (hrests hm).imp (fun ⟨r', hr', hh⟩ => ⟨r', hnew.trans hr', hholds hh⟩) hbare

/-- **What a step must show for its own message id.** -/
theorem Corresponds.of_frame (h : Corresponds as w) (hsems : SemsOk w') (hframe : Frame w w' m)
    (hdel : w.delivered ≤ w'.delivered) (hx : About m x)
    (hcall : CallOk (as ++ [x]) w' m (w'.pc m))
    (hheads : ∀ c r, w'.contextMap.lookup m = some c → c.ptrHead = some r →
      r.context = m ∧ r.number < w'.delivered ∧ r ∉ returned (as ++ [x]))
    (hresponse : ∀ m' o, x = .gotten m' true o →
      ∃ r, o = some r ∧ r.context = m' ∧ r ∉ returned as ∧ r.number < w'.delivered) :
    Corresponds (as ++ [x]) w' := by
  have hret : ∀ r, x.response = some r → r ∉ returned as ∧ r.number < w'.delivered := by
    intro r hr
    cases x with
    | gotten m' rv o =>
        cases rv with
        | false => cases hr
        | true =>
            obtain ⟨r', ho, -, hnot, hlt⟩ := hresponse m' o rfl
            obtain rfl := Option.some.inj (ho.symm.trans hr)
            exact ⟨hnot, hlt⟩
    | _ => cases hr
  refine ⟨hsems, fun m' => ?_, fun m' c r hc hhead => ?_, fun m' o hmem => ?_, fun r hr => ?_, ?_⟩
  · by_cases hne : m' = m
    · exact hne ▸ hcall
    · exact (h.calls m').frame hne hframe hdel hx
  · by_cases hne : m' = m
    · exact hne ▸ hheads c r (hne ▸ hc) hhead
    · obtain ⟨hcontext, hlt, hnot⟩ := h.heads m' c r ((hframe.lookup m' hne).symm.trans hc) hhead
      refine ⟨hcontext, Nat.lt_of_lt_of_le hlt hdel, fun hmem => ?_⟩
      exact (mem_returned_concat.1 hmem).elim hnot fun hr => (hx m' hne).2.2 r hr hcontext
  · rcases List.mem_append.1 hmem with hmem | hmem
    · exact h.response m' o hmem
    · obtain ⟨r, ho, hcontext, -⟩ := hresponse m' o (List.mem_singleton.1 hmem).symm
      exact ⟨r, ho, hcontext⟩
  · rcases mem_returned_concat.1 hr with hr | hr
    · exact Nat.lt_of_lt_of_le (h.returned_lt r hr) hdel
    · exact (hret r hr).2
  · have hnodup := h.returned_nodup
    rw [returned] at hnodup ⊢
    rw [List.filterMap_append]
    cases hr : x.response with
    | none => simpa [hr] using hnodup
    | some r =>
        simp only [List.filterMap_cons, hr, List.filterMap_nil]
        refine List.nodup_append.2 ⟨hnodup, List.nodup_singleton r, fun a ha b hb hab => ?_⟩
        rw [List.mem_singleton.1 hb] at hab
        exact (hret r hr).1 (hab ▸ ha)

/-! ### One step -/

theorem about_pending (m : ℕ) : About m .pending := fun m' _ =>
  ⟨fun _ => rfl, fun _ => rfl, fun r hr => by cases hr⟩

/-- The call goes on, and the message of its context stays where it is. -/
theorem Corresponds.heads_concat (h : Corresponds as w) (hx : x.response = none)
    (hdel : w.delivered ≤ w'.delivered) (hc : w.contextMap.lookup m = some c)
    (hhead : c.ptrHead = some r) :
    r.context = m ∧ r.number < w'.delivered ∧ r ∉ returned (as ++ [x]) := by
  obtain ⟨hcontext, hlt, hnot⟩ := h.heads m c r hc hhead
  refine ⟨hcontext, Nat.lt_of_lt_of_le hlt hdel, fun hmem => ?_⟩
  rcases mem_returned_concat.1 hmem with hmem | hr
  · exact hnot hmem
  · exact Option.some_ne_none r (hr.symm.trans hx)

/-- **A reply is delivered.** -/
theorem Corresponds.deliver (h : Corresponds as w) (hfree : m = 0 → w.pc m ≠ .taken) :
    Corresponds (as ++ [.delivered m ⟨w.delivered, m⟩])
      ({ w with delivered := w.delivered + 1 }.messagePut m ⟨w.delivered, m⟩) := by
  set r : IpcResponse := ⟨w.delivered, m⟩ with hr
  set v : ResponseWorld := { w with delivered := w.delivered + 1 } with hv
  have hok : SemsOk v := ⟨h.sems.maxCount, h.sems.pool, h.sems.pool_nodup, h.sems.owned, h.sems.owner⟩
  obtain ⟨hsems, hframe, hpc, hdel, c, hlook, hhead, hcount⟩ := hok.messagePut m r
  have hdel' : (v.messagePut m r).delivered = w.delivered + 1 := hdel
  have hnew : newest (as ++ [.delivered m r]) m = some r := by
    rw [newest_concat, ResponseAnswer.newest, if_pos rfl]
  have hret : ∀ r', r' ∈ returned (as ++ [.delivered m r]) → r' ∈ returned as := by
    intro r' hmem
    exact (mem_returned_concat.1 hmem).resolve_right fun hc => by cases hc
  have hsettled : Settled (as ++ [.delivered m r]) (v.messagePut m r) m :=
    .inl ⟨r, hnew, c, hlook, hhead, hcount⟩
  refine h.of_frame hsems ⟨hframe.lookup, hframe.sems, hframe.pc⟩ (hdel' ▸ Nat.le_succ _) ?_ ?_ ?_ ?_
  · intro m' hne
    refine ⟨fun o => if_neg hne.symm, fun o => if_neg hne.symm, fun r' hr' => by cases hr'⟩
  · have hcall := h.calls m
    rw [show (v.messagePut m r).pc m = w.pc m from congrFun hpc m]
    cases hpcm : w.pc m with
    | idle => exact hsettled
    | waiting => exact ⟨hsettled, c, hlook⟩
    | blocked => exact ⟨hsettled, c, hlook⟩
    | taken => exact ⟨r, c, hnew, hlook, hhead, fun hm => absurd hpcm (hfree hm)⟩
    | removing response =>
        rw [hpcm] at hcall
        obtain ⟨r₀, c₀, hr₀, hcontext, hlt, hnot, -, -, -⟩ := hcall
        refine ⟨r₀, c, hr₀, hcontext, hdel' ▸ Nat.lt_succ_of_lt hlt, fun hmem => hnot (hret r₀ hmem),
          hlook, ?_, fun _ => .inl ⟨r, hnew, c, hlook, hhead, hcount⟩⟩
        rw [hhead]
        intro heq
        obtain rfl := Option.some.inj heq
        exact Nat.lt_irrefl _ hlt
  · intro c' r' hc' hhead'
    obtain rfl := Option.some.inj (hlook.symm.trans hc')
    obtain rfl := Option.some.inj (hhead.symm.trans hhead')
    refine ⟨rfl, hdel' ▸ Nat.lt_succ_self _, fun hmem => ?_⟩
    exact Nat.lt_irrefl _ (h.returned_lt _ (hret _ hmem))
  · intro m' o heq
    cases heq

/-- **A client finds or creates its context.** -/
theorem Corresponds.getResponse (h : Corresponds as w) (hpc : w.pc m = .idle) :
    Corresponds (as ++ [.pending]) ((w.contextGet m).2.goto m .waiting) := by
  obtain ⟨c, v, hget, hok, hframe, hlook, hpcv, hdel, hcases⟩ := h.sems.contextGet m
  have hcall := h.calls m
  rw [hpc] at hcall
  rw [hget]
  have hsettled : Settled (as ++ [.pending]) (v.goto m .waiting) m := by
    rcases hcases with ⟨-, rfl⟩ | ⟨hnone, hhead, hcount⟩
    · exact hcall.imp (fun ⟨r, hr, hh⟩ => ⟨r, (newest_concat as _ m).trans hr, hh⟩)
        fun ⟨hp, hb⟩ => ⟨(pending_concat as _ m).trans hp, hb⟩
    · rcases hcall with ⟨r, -, c', hc', -⟩ | ⟨hp, -⟩
      · exact absurd (hnone.symm.trans hc') (Option.some_ne_none c').symm
      · refine .inr ⟨(pending_concat as _ m).trans hp, fun c' hc' => ?_⟩
        obtain rfl := Option.some.inj (hlook.symm.trans hc')
        exact ⟨hhead, hcount⟩
  refine h.of_frame (hok.goto m _) (hframe.trans (frame_goto v m _)) (Nat.le_of_eq hdel.symm)
    (about_pending m) ?_ ?_ ?_
  · rw [pc_goto_self]
    exact ⟨hsettled, c, hlook⟩
  · intro c' r hc' hhead'
    obtain rfl := Option.some.inj (hlook.symm.trans hc')
    rcases hcases with ⟨hold, -⟩ | ⟨-, hnone, -⟩
    · exact h.heads_concat rfl (Nat.le_of_eq hdel.symm) hold hhead'
    · exact absurd (hnone.symm.trans hhead') (Option.some_ne_none r).symm
  · intro m' o heq
    cases heq

/-- An answer that says nothing changes neither what is pending nor what is most recent. -/
theorem Settled.concat_pending (h : Settled as w m) : Settled (as ++ [.pending]) w m :=
  h.imp (fun ⟨r, hr, hh⟩ => ⟨r, (newest_concat as _ m).trans hr, hh⟩)
    fun ⟨hp, hb⟩ => ⟨(pending_concat as _ m).trans hp, hb⟩

/-- **A client looks at its semaphore.** -/
theorem Corresponds.takeSem (h : Corresponds as w) (hsettled : Settled as w m)
    (hc : w.contextMap.lookup m = some c) :
    Corresponds (as ++ [.pending]) (w.takeSem m c) := by
  rw [ResponseWorld.takeSem]
  cases htake : (w.sems c.ptrSem).take with
  | none =>
      refine h.of_frame (h.sems.goto m _) (frame_goto w m _) (Nat.le_refl _) (about_pending m) ?_
        (fun c' r hc' hhead => h.heads_concat rfl (Nat.le_refl _) hc' hhead)
        fun m' o heq => by cases heq
      rw [pc_goto_self]
      exact ⟨hsettled.concat_pending, c, hc⟩
  | some sem =>
      obtain ⟨hcount, hmax⟩ := SemLite.take_eq_some.1 htake
      have hle := (w.sems c.ptrSem).count_le
      have hone := h.sems.maxCount c.ptrSem
      have hzero : sem.count = 0 := by omega
      obtain ⟨hok, hframe⟩ := h.sems.semSet hc (hmax.symm.trans hone)
      refine h.of_frame (hok.goto m _) (hframe.trans (frame_goto _ m _)) (Nat.le_refl _)
        (about_pending m) ?_ (fun c' r hc' hhead => h.heads_concat rfl (Nat.le_refl _) hc' hhead)
        fun m' o heq => by cases heq
      rw [pc_goto_self]
      -- the semaphore was signalled, so there is a message
      rcases hsettled with ⟨r, hr, c', hc', hhead, -⟩ | ⟨-, hbare⟩
      · obtain rfl := Option.some.inj (hc.symm.trans hc')
        refine ⟨r, c, (newest_concat as _ m).trans hr, hc, hhead, fun _ => ?_⟩
        exact (congrArg SemLite.count (sems_semSet_self _ _ _)).trans hzero
      · have hnone := (hbare c hc).2
        omega

/-- **A client takes the message.** -/
theorem Corresponds.head (h : Corresponds as w) (hpc : w.pc m = .taken)
    (hc : w.contextMap.lookup m = some c) :
    Corresponds (as ++ [.pending])
      ((w.contextSet m { c with ptrHead := none }).goto m (.removing c.ptrHead)) := by
  have hcall := h.calls m
  rw [hpc] at hcall
  obtain ⟨r, c', hr, hc', hhead, hcount⟩ := hcall
  obtain rfl := Option.some.inj (hc.symm.trans hc')
  obtain ⟨hok, hframe⟩ := h.sems.contextSet hc none
  obtain ⟨hcontext, hlt, hnot⟩ := h.heads_concat (x := .pending) rfl (Nat.le_refl w.delivered) hc hhead
  have hlook := lookup_contextSet_self w m { c with ptrHead := none }
  refine h.of_frame (hok.goto m _) (hframe.trans (frame_goto _ m _)) (Nat.le_refl _)
    (about_pending m) ?_ ?_ fun m' o heq => by cases heq
  · rw [pc_goto_self]
    refine ⟨r, _, hhead, hcontext, hlt, hnot, hlook, (Option.some_ne_none r).symm, fun hm => ?_⟩
    refine .inr fun c' hc' => ?_
    obtain rfl := Option.some.inj (hlook.symm.trans hc')
    exact ⟨rfl, hcount hm⟩
  · intro c' r' hc' hhead'
    obtain rfl := Option.some.inj (hlook.symm.trans hc')
    cases hhead'

/-- **A client removes its context**, unless that is context 0. -/
theorem Corresponds.remove (h : Corresponds as w) {response : Option IpcResponse}
    (hpc : w.pc m = .removing response) :
    Corresponds (as ++ [.gotten m true response]) ((w.removeContext m).goto m .idle) := by
  have hcall := h.calls m
  rw [hpc] at hcall
  obtain ⟨r, c, rfl, hcontext, hlt, hnot, hc, hhead, hrests⟩ := hcall
  have hnone : pending (as ++ [.gotten m true (some r)]) m = none := by
    rw [pending_concat, ResponseAnswer.pend, if_pos rfl]
  have habout : About m (.gotten m true (some r)) := by
    refine fun m' hne => ⟨fun _ => rfl, fun _ => if_neg hne.symm, fun r' hr' => ?_⟩
    obtain rfl := Option.some.inj hr'
    exact hcontext.trans_ne hne.symm
  have hresponse : ∀ {n : ℕ}, w.delivered = n → ∀ m' o, ResponseAnswer.gotten m true (some r) =
      .gotten m' true o → ∃ r, o = some r ∧ r.context = m' ∧ r ∉ returned as ∧ r.number < n := by
    rintro n rfl m' o heq
    obtain ⟨rfl, -, rfl⟩ := ResponseAnswer.gotten.inj heq
    exact ⟨r, rfl, hcontext, hnot, hlt⟩
  by_cases hm : m = 0
  · have hremove : w.removeContext m = w := if_pos hm
    rw [hremove]
    refine h.of_frame (h.sems.goto m _) (frame_goto w m _) (Nat.le_refl _) habout ?_ ?_
      (hresponse rfl)
    · rw [pc_goto_self]
      exact (hrests hm).imp (fun ⟨r', hr', hh⟩ => ⟨r', (newest_concat as _ m).trans hr', hh⟩)
        fun hb => ⟨hnone, hb⟩
    · intro c' r' hc' hhead'
      obtain rfl := Option.some.inj (hc.symm.trans hc')
      obtain ⟨hcontext', hlt', hnot'⟩ := h.heads m c r' hc hhead'
      refine ⟨hcontext', hlt', fun hmem => ?_⟩
      rcases mem_returned_concat.1 hmem with hmem | hr'
      · exact hnot' hmem
      · exact hhead (hhead'.trans hr'.symm)
  · obtain ⟨hok, hframe, hlook, -, hdel⟩ := h.sems.removeContext hm hc
    have hgone : ∀ c', (w.removeContext m).contextMap.lookup m ≠ some c' := fun c' hc' =>
      Option.some_ne_none c' (hc'.symm.trans hlook)
    refine h.of_frame (hok.goto m _) (hframe.trans (frame_goto _ m _)) (Nat.le_of_eq hdel.symm)
      habout ?_ (fun c' r' hc' _ => absurd hc' (hgone c')) (hresponse hdel.symm)
    rw [pc_goto_self]
    exact .inr ⟨hnone, fun c' hc' => absurd hc' (hgone c')⟩

/-- **A client gives up.** -/
theorem Corresponds.timeout (h : Corresponds as w) (hsettled : Settled as w m) :
    Corresponds (as ++ [.gotten m false none]) (w.goto m .idle) := by
  refine h.of_frame (h.sems.goto m _) (frame_goto w m _) (Nat.le_refl _)
    (fun m' hne => ⟨fun _ => rfl, fun _ => rfl, fun r hr => by cases hr⟩) ?_
    (fun c' r hc' hhead => h.heads_concat rfl (Nat.le_refl _) hc' hhead) fun m' o heq => by cases heq
  rw [pc_goto_self]
  exact hsettled.imp (fun ⟨r, hr, hh⟩ => ⟨r, (newest_concat as _ m).trans hr, hh⟩)
    fun ⟨hp, hb⟩ => ⟨(pending_concat as _ m).trans hp, hb⟩

/-- **One step keeps the invariant**, if it meets the condition. -/
theorem Corresponds.step {op : ResponseOp} (h : Corresponds as w) (hfree : w.Undisturbed op)
    (hstep : responseStep w op = some (x, w')) : Corresponds (as ++ [x]) w' := by
  cases op with
  | deliver m =>
      cases hstep
      exact h.deliver hfree
  | getResponse m =>
      rw [responseStep] at hstep
      cases hpc : w.pc m with
      | idle =>
          simp only [hpc] at hstep
          cases hstep
          exact h.getResponse hpc
      | _ => simp [hpc] at hstep
  | take m =>
      rw [responseStep] at hstep
      have hcall := h.calls m
      cases hc : w.contextMap.lookup m with
      | none => simp [hc] at hstep
      | some c =>
          cases hpc : w.pc m with
          | waiting =>
              rw [hpc] at hcall
              simp only [hpc, hc] at hstep
              cases hstep
              exact h.takeSem hcall.1 hc
          | blocked =>
              rw [hpc] at hcall
              simp only [hpc, hc] at hstep
              cases hstep
              exact h.takeSem hcall.1 hc
          | _ => simp [hpc] at hstep
  | timeout m =>
      rw [responseStep] at hstep
      have hcall := h.calls m
      cases hpc : w.pc m with
      | blocked =>
          rw [hpc] at hcall
          simp only [hpc] at hstep
          cases hstep
          exact h.timeout hcall.1
      | _ => simp [hpc] at hstep
  | head m =>
      rw [responseStep] at hstep
      cases hc : w.contextMap.lookup m with
      | none => simp [hc] at hstep
      | some c =>
          cases hpc : w.pc m with
          | taken =>
              simp only [hpc, hc] at hstep
              cases hstep
              exact h.head hpc hc
          | _ => simp [hpc] at hstep
  | remove m =>
      rw [responseStep] at hstep
      cases hpc : w.pc m with
      | removing response =>
          simp only [hpc] at hstep
          cases hstep
          exact h.remove hpc
      | _ => simp [hpc] at hstep

/-! ### Runs -/

/-- **A call does not wait when a reply is pending.** -/
theorem Corresponds.take_pending (h : Corresponds as w)
    (hpc : w.pc m = .waiting ∨ w.pc m = .blocked) (hr : pending as m = some r) :
    ∃ w', responseStep w (.take m) = some (.pending, w') ∧ w'.pc m = .taken := by
  have hcall := h.calls m
  have hsettled : Settled as w m := by
    rcases hpc with hpc | hpc
    · rw [hpc] at hcall
      exact hcall.1
    · rw [hpc] at hcall
      exact hcall.1
  rcases hsettled with ⟨r', -, c, hc, -, hcount⟩ | ⟨hnone, -⟩
  · obtain ⟨sem, hsem⟩ := Option.ne_none_iff_exists'.1
      (SemLite.take_ne_none (s := w.sems c.ptrSem) (hcount ▸ Nat.one_pos))
    refine ⟨w.takeSem m c, ?_, ?_⟩
    · rcases hpc with hpc | hpc
      · simp only [responseStep, hpc, hc]
      · simp only [responseStep, hpc, hc]
    · rw [ResponseWorld.takeSem, hsem]
      exact pc_goto_self _ _ _
  · exact absurd (hnone.symm.trans hr) (Option.some_ne_none r).symm

/-- **A call takes the most recent reply.** -/
theorem Corresponds.head_newest (h : Corresponds as w) (hpc : w.pc m = .taken) :
    ∃ r w', newest as m = some r ∧ responseStep w (.head m) = some (.pending, w') ∧
      w'.pc m = .removing (some r) := by
  have hcall := h.calls m
  rw [hpc] at hcall
  obtain ⟨r, c, hr, hc, hhead, -⟩ := hcall
  refine ⟨r, (w.contextSet m { c with ptrHead := none }).goto m (.removing c.ptrHead), hr, ?_, ?_⟩
  · simp only [responseStep, hpc, hc]
  · rw [← hhead]
    exact pc_goto_self _ _ _

/-- **The next call returns a pending reply at once.** -/
theorem Corresponds.at_once (h : Corresponds as w) (hpc : w.pc m = .idle)
    (hr : pending as m = some r) :
    ∃ w', run responseStep [.getResponse m, .take m, .head m, .remove m] w =
      some ([.pending, .pending, .pending, .gotten m true (some r)], w') := by
  have hsay : ∀ {as : List ResponseAnswer}, pending (as ++ [.pending]) m = pending as m := fun {as} =>
    pending_concat as _ m
  have hfree : ∀ {v : ResponseWorld} {op : ResponseOp}, (∀ m, op ≠ .deliver m) →
      v.Undisturbed op := by
    rintro v op hop
    cases op with
    | deliver m => exact absurd rfl (hop m)
    | _ => trivial
  have hstep₁ : responseStep w (.getResponse m) =
      some (.pending, (w.contextGet m).2.goto m .waiting) := by
    rw [responseStep, hpc]
  have h₁ := h.step (hfree (by simp)) hstep₁
  have hr₁ := hsay.trans hr
  obtain ⟨w₂, hstep₂, hpc₂⟩ := h₁.take_pending (.inl (pc_goto_self _ _ _)) hr₁
  have h₂ := h₁.step (hfree (by simp)) hstep₂
  have hr₂ := hsay.trans hr₁
  obtain ⟨r', w₃, hnew, hstep₃, hpc₃⟩ := h₂.head_newest hpc₂
  obtain rfl := Option.some.inj ((newest_of_pending hr₂).symm.trans hnew)
  have hstep₄ : responseStep w₃ (.remove m) =
      some (.gotten m true (some r), (w₃.removeContext m).goto m .idle) := by
    rw [responseStep, hpc₃]
  refine ⟨(w₃.removeContext m).goto m .idle, ?_⟩
  refine run_cons_eq_some.2 ⟨_, _, _, hstep₁, ?_, rfl⟩
  refine run_cons_eq_some.2 ⟨_, _, _, hstep₂, ?_, rfl⟩
  refine run_cons_eq_some.2 ⟨_, _, _, hstep₃, ?_, rfl⟩
  exact run_cons_eq_some.2 ⟨_, _, _, hstep₄, run_nil _, rfl⟩

/-- The invariant says what is expected. -/
theorem Corresponds.correlated (h : Corresponds as w) : Correlated as w where
  response := h.response
  returned_nodup := h.returned_nodup
  at_once _ _ hpc hr := h.at_once hpc hr
  take _ _ hpc hr := h.take_pending hpc hr
  head _ hpc := h.head_newest hpc
  pool s hs := ⟨(h.sems.pool s hs).2, fun m c hc heq => (h.sems.owned m c hc).2 (heq ▸ hs)⟩
  pool_nodup := h.sems.pool_nodup
  owner := h.sems.owner

/-- Nothing has been delivered. -/
theorem corresponds_initial : Corresponds [] initial := by
  have hnone : ∀ m c, initial.contextMap.lookup m ≠ some c := fun m c hc =>
    Option.some_ne_none c (hc.symm.trans (AList.lookup_empty m))
  refine ⟨⟨fun _ => rfl, by simp [initial], List.nodup_nil, fun m c hc => absurd hc (hnone m c),
      fun m m' c c' hc => absurd hc (hnone m c)⟩,
    fun m => .inr ⟨rfl, fun c hc => absurd hc (hnone m c)⟩, fun m c r hc => absurd hc (hnone m c),
    by simp, by simp [returned], List.nodup_nil⟩

end ResponseWorld

/-- **Replies and calls correspond** at every moment of a run, if no reply comes to context 0 between
the semaphore and the message of a client. -/
theorem getResponse_correlated {ops : List ResponseOp} {as : List ResponseAnswer}
    {w : ResponseWorld} (h : run responseStep ops ResponseWorld.initial = some (as, w))
    (hfree : Meets responseStep ResponseWorld.Undisturbed ops ResponseWorld.initial) :
    ResponseWorld.Correlated as w :=
  (run_history_of_meets (fun h hG hstep => h.step hG hstep) ResponseWorld.corresponds_initial h
    hfree).correlated

/-- A second reply comes between the semaphore and the message, to a context that is removed. -/
theorem getResponse_correlated_replaced :
    ∃ as w, run responseStep [.getResponse 7, .deliver 7, .take 7, .deliver 7, .head 7, .remove 7]
        ResponseWorld.initial = some (as, w) ∧ .gotten 7 true (some ⟨1, 7⟩) ∈ as ∧
      ResponseWorld.Correlated as w :=
  ⟨[.pending, .delivered 7 ⟨0, 7⟩, .pending, .delivered 7 ⟨1, 7⟩, .pending,
      .gotten 7 true (some ⟨1, 7⟩)], _, rfl, by decide,
    @getResponse_correlated [.getResponse 7, .deliver 7, .take 7, .deliver 7, .head 7, .remove 7] _ _
      rfl (by decide)⟩

/-- **A call returns true without a reply**: a reply came to context 0 between the semaphore and the
message of the call before, which has left the semaphore signalled. -/
theorem getResponse_not_correlated :
    ∃ as w, run responseStep [.deliver 0, .getResponse 0, .take 0, .deliver 0, .head 0, .remove 0,
        .getResponse 0, .take 0, .head 0, .remove 0] ResponseWorld.initial = some (as, w) ∧
      .gotten 0 true none ∈ as ∧ ¬ ResponseWorld.Correlated as w := by
  have hrun : run responseStep [.deliver 0, .getResponse 0, .take 0, .deliver 0, .head 0, .remove 0,
      .getResponse 0, .take 0, .head 0, .remove 0] ResponseWorld.initial =
      some ([.delivered 0 ⟨0, 0⟩, .pending, .pending, .delivered 0 ⟨1, 0⟩, .pending,
        .gotten 0 true (some ⟨1, 0⟩), .pending, .pending, .pending, .gotten 0 true none], _) := rfl
  refine ⟨_, _, hrun, by decide, fun hcorr => ?_⟩
  obtain ⟨r, hr, -⟩ := hcorr.response 0 none (by decide)
  exact Option.some_ne_none r hr.symm

end CodePort
