/-
Replies and the registration of their handlers.

A client that waits for a reply either asks the context of its message for it, or registers a
handler with the context.  The accumulator thread delivers the reply at any time, so it may come
before the registration or after it.  What is in the context when the handler comes stays where it
is: the context has a dispatch object from then on, and is not asked for messages any more.

Main definitions:

* `CodePort.IpcAccumMap.getResponse`, `registerHandler`, `removeContext` — the calls of the clients;
* `CodePort.replyStep` — the delivery of a reply, and the registration of a handler for it;
* `CodePort.Reached` — the reply has been submitted, or the client can get it.

Main results:

* `CodePort.reply_reached_iff` — **when a reply reaches its client**, in either order;
* `CodePort.reply_stranded` — a reply that comes before its handler reaches nobody.
-/

import CodePort.IpcAccumMap

set_option relaxedAutoImplicit false
set_option autoImplicit false

namespace CodePort

open StepSystem

/-! ### The calls of the clients -/

namespace IpcAccumMap

/-- Remove a message context.  An attempt to delete context 0 is prevented. -/
def removeContext (m : AList fun _ : ℕ => IpcContext) (msgId : ℕ) :
    Bool × AList fun _ : ℕ => IpcContext :=
  if msgId = 0 then (false, m) else ((m.lookup msgId).isSome, m.erase msgId)

/-- Wait for a response and retrieve it: the answer, and the segments if there are any. -/
def getResponse (m : AList fun _ : ℕ => IpcContext) (msgId : ℕ) :
    (Bool × List SegPtr) × AList fun _ : ℕ => IpcContext :=
  -- find or create context
  let r := ((m.lookup msgId).getD IpcContext.construct).messageGet
  let m := m.insert msgId r.2
  -- remove context entry if response successfully retrieved
  (r.1, if r.1.1 then (removeContext m msgId).2 else m)

/-- Register a message handler function. -/
def registerHandler (m : AList fun _ : ℕ => IpcContext) (msgId : ℕ) (pHandler created : Bool) :
    Bool × AList fun _ : ℕ => IpcContext :=
  let r := ((m.lookup msgId).getD IpcContext.construct).registerHandler pHandler created
  (r.1, m.insert msgId r.2)

end IpcAccumMap

open IpcAccumMap

/-! ### The two steps -/

/-- The events that the dispatch object of a context has accepted when it becomes another one. -/
def IpcContext.accepted (c c' : IpcContext) : List (List SegPtr) :=
  (c'.dispatcher.getD []).drop (c.dispatcher.getD []).length

/-- The steps that a reply and its client take. -/
inductive ReplyOp
  /-- The accumulator thread delivers the reply to the context that its head names. -/
  | deliver (head : SegPtr) (tail : List SegPtr) (submitOk : Bool) (drained : ℕ)
  /-- The client registers a handler. -/
  | register (msgId : ℕ) (created : Bool)

/-- One step: the events it submits, and the contexts. -/
def replyStep (m : AList fun _ : ℕ => IpcContext) :
    ReplyOp → Option (List (List SegPtr) × AList fun _ : ℕ => IpcContext)
  | .deliver head tail submitOk drained =>
      let c := (m.lookup head.seg.context).getD IpcContext.construct
      some (c.accepted (c.messagePut (head :: tail) submitOk).context,
        (deliver m (head :: tail) head submitOk drained).2)
  | .register msgId created => some ([], (registerHandler m msgId true created).2)

/-- The two steps in one of the two orders. -/
def inOrder (registerFirst : Bool) (deliver register : ReplyOp) : List ReplyOp :=
  if registerFirst then [register, deliver] else [deliver, register]

/-- **The reply has reached its client**: it has been submitted exactly once, or it has not and the
client can get it. -/
def Reached (msgId : ℕ) (reply : List SegPtr) (submitted : List (List (List SegPtr)))
    (m : AList fun _ : ℕ => IpcContext) : Prop :=
  submitted.flatten = [reply] ∨
    submitted.flatten = [] ∧ (getResponse m msgId).1 = (true, reply)

/-- The context has a dispatch object when the reply is delivered. -/
def handledAtDelivery (m : AList fun _ : ℕ => IpcContext) (msgId : ℕ)
    (registerFirst created : Bool) : Bool :=
  ((m.lookup msgId).getD IpcContext.construct).dispatcher.isSome || registerFirst && created

/-! ### Contexts that hold a message, and contexts that give none -/

/-- The context gives a client that asks for a message none. -/
def IpcContext.Silent (c : IpcContext) : Prop := c.dispatcher.isSome = true ∨ c.sem = 0

/-- A handler is registered with the dispatch object that is there, or has been created. -/
theorem IpcContext.dispatcher_registerHandler (c : IpcContext) (pHandler created : Bool) :
    (c.registerHandler pHandler created).2.dispatcher =
      c.dispatcher.or (if created then some [] else none) := by
  obtain ⟨head, sem, _ | events, handled⟩ := c <;> cases pHandler <;> cases created <;> rfl

theorem IpcContext.Silent.registerHandler {c : IpcContext} (h : c.Silent) (pHandler created : Bool) :
    (c.registerHandler pHandler created).2.Silent := by
  rcases h with hd | hsem
  · refine Or.inl ?_
    rw [dispatcher_registerHandler, Option.isSome_or, hd, Bool.true_or]
  · refine Or.inr ?_
    rw [IpcContext.registerHandler]
    split_ifs <;> exact hsem

/-- The dispatch object is there as soon as it has been created. -/
theorem IpcContext.silent_registerHandler (c : IpcContext) (pHandler : Bool) :
    (c.registerHandler pHandler true).2.Silent := by
  refine Or.inl ?_
  rw [dispatcher_registerHandler, Option.isSome_or, if_pos rfl, Option.isSome_some, Bool.or_true]

variable {m : AList fun _ : ℕ => IpcContext} {msgId : ℕ}

theorem getResponse_of_silent (h : ((m.lookup msgId).getD IpcContext.construct).Silent) :
    (getResponse m msgId).1 = (false, []) := by
  rw [getResponse, IpcContext.messageGet]
  rcases h with hd | hsem
  · rw [if_pos hd]
  · rw [hsem]
    split_ifs <;> first | rfl | contradiction

/-- A message that has been stored can be got. -/
theorem getResponse_of_stored {c : IpcContext} (h : m.lookup msgId = some c)
    (hd : c.dispatcher = none) (hsem : 0 < c.sem) :
    (getResponse m msgId).1 = (true, c.ptrHead) := by
  rw [getResponse, h, Option.getD_some, IpcContext.messageGet, hd,
    if_neg (Option.isSome_none ▸ Bool.false_ne_true), if_pos hsem]

/-! ### What each step does -/

variable {head : SegPtr}

/-- The delivery to a context without a dispatch object stores the message. -/
theorem replyStep_deliver_of_none (tail : List SegPtr) (submitOk : Bool) (drained : ℕ)
    {c : IpcContext} (hc : (m.lookup head.seg.context).getD IpcContext.construct = c)
    (hd : c.dispatcher = none) :
    replyStep m (.deliver head tail submitOk drained) = some ([], m.insert head.seg.context
      { c with ptrHead := head :: tail, sem := min (c.sem + 1) 1 }) := by
  have hput : c.messagePut (head :: tail) submitOk =
      ⟨true, c.ptrHead, { c with ptrHead := head :: tail, sem := min (c.sem + 1) 1 }⟩ := by
    rw [IpcContext.messagePut, hd]
    rfl
  rw [replyStep, deliver, hc, hput, IpcContext.accepted, hd]
  rfl

/-- The delivery to a context with a dispatch object submits the message, and leaves nothing that
a client could get. -/
theorem replyStep_deliver_of_some (tail : List SegPtr) (submitOk : Bool) (drained : ℕ)
    {c : IpcContext} {events : List (List SegPtr)}
    (hc : (m.lookup head.seg.context).getD IpcContext.construct = c)
    (hd : c.dispatcher = some events) :
    ∃ m', replyStep m (.deliver head tail submitOk drained) =
      some (if submitOk then [head :: tail] else [], m') ∧
      ((m'.lookup head.seg.context).getD IpcContext.construct).Silent := by
  refine ⟨(deliver m (head :: tail) head submitOk drained).2, ?_, ?_⟩
  · rw [replyStep, hc, IpcContext.messagePut, hd]
    cases submitOk <;> simp [IpcContext.accepted, hd]
  · have hstored : (c.messagePut (head :: tail) submitOk).stored = false ∧
        (c.messagePut (head :: tail) submitOk).context.dispatcher.isSome = true := by
      rw [IpcContext.messagePut, hd]
      cases submitOk <;> simp [hd]
    rw [deliver, hc, hstored.1]
    by_cases hzero : head.seg.context = 0
    · rw [if_neg (by simp [hzero]), AList.lookup_insert]
      exact Or.inl hstored.2
    · rw [if_pos (by simp [hzero]), AList.lookup_erase]
      exact Or.inr rfl

/-- The registration when no dispatch object can be created, in a context that has none. -/
theorem registerHandler_false {c : IpcContext} (hd : c.dispatcher = none) (pHandler : Bool) :
    (c.registerHandler pHandler false).2 = c := by
  obtain ⟨head, sem, dispatcher, handled⟩ := c
  obtain rfl : dispatcher = none := hd
  rfl

/-! ### The two orders -/

theorem run_pair {o o' : ReplyOp} {a a' : List (List SegPtr)}
    {m₁ m₂ : AList fun _ : ℕ => IpcContext} (h : replyStep m o = some (a, m₁))
    (h' : replyStep m₁ o' = some (a', m₂)) : run replyStep [o, o'] m = some ([a, a'], m₂) :=
  run_cons_eq_some.2 ⟨a, m₁, _, h, run_cons_eq_some.2 ⟨a', m₂, _, h', rfl, rfl⟩, rfl⟩

theorem exists_run_iff {ops : List ReplyOp} {submitted : List (List (List SegPtr))}
    {m' : AList fun _ : ℕ => IpcContext} (h : run replyStep ops m = some (submitted, m'))
    (P : List (List (List SegPtr)) → (AList fun _ : ℕ => IpcContext) → Prop) :
    (∃ as n, run replyStep ops m = some (as, n) ∧ P as n) ↔ P submitted m' := by
  constructor
  · rintro ⟨as, n, hrun, hP⟩
    obtain ⟨rfl, rfl⟩ := Prod.mk.inj (Option.some.inj (h.symm.trans hrun))
    exact hP
  · intro hP
    exact ⟨submitted, m', h, hP⟩

/-- A reply that was submitted is reached if and only if the dispatch object accepted it. -/
theorem reached_of_silent {reply : List SegPtr} {submitted : List (List (List SegPtr))}
    {submitOk : Bool} (hsubmitted : submitted.flatten = if submitOk then [reply] else [])
    (h : ((m.lookup msgId).getD IpcContext.construct).Silent) :
    Reached msgId reply submitted m ↔ submitOk = true := by
  rw [Reached, hsubmitted, getResponse_of_silent h]
  cases submitOk <;> simp

/-- A reply that was stored is reached, as long as the context has no dispatch object. -/
theorem reached_of_stored {reply : List SegPtr} {submitted : List (List (List SegPtr))}
    {c : IpcContext} (hsubmitted : submitted.flatten = []) (h : m.lookup msgId = some c)
    (hd : c.dispatcher = none) (hsem : 0 < c.sem) (hhead : c.ptrHead = reply) :
    Reached msgId reply submitted m :=
  Or.inr ⟨hsubmitted, hhead ▸ getResponse_of_stored h hd hsem⟩

/-- A reply that was stored is stranded as soon as the context gets a dispatch object. -/
theorem not_reached_of_silent {reply : List SegPtr} {submitted : List (List (List SegPtr))}
    (hsubmitted : submitted.flatten = [])
    (h : ((m.lookup msgId).getD IpcContext.construct).Silent) :
    ¬ Reached msgId reply submitted m := by
  rw [Reached, hsubmitted, getResponse_of_silent h]
  simp

/-- **When a reply reaches its client.**  Whatever the contexts hold, and whichever of the two steps
comes first: the reply is submitted to the dispatch object exactly once, or can be got, if and only
if the dispatch object is there at the delivery and accepts it, or none is there and the
registration creates none. -/
theorem reply_reached_iff (m : AList fun _ : ℕ => IpcContext) (head : SegPtr) (tail : List SegPtr)
    (registerFirst created submitOk : Bool) (drained : ℕ) :
    (∃ submitted m', run replyStep (inOrder registerFirst (.deliver head tail submitOk drained)
        (.register head.seg.context created)) m = some (submitted, m') ∧
      Reached head.seg.context (head :: tail) submitted m') ↔
      if handledAtDelivery m head.seg.context registerFirst created then submitOk = true
      else created = false := by
  set c := (m.lookup head.seg.context).getD IpcContext.construct with hc
  have hregister : ∀ n : AList fun _ : ℕ => IpcContext,
      replyStep n (.register head.seg.context created) = some ([], n.insert head.seg.context
        (((n.lookup head.seg.context).getD IpcContext.construct).registerHandler true created).2) :=
    fun _ => rfl
  rw [handledAtDelivery, ← hc]
  cases registerFirst with
  | false =>
      rw [Bool.false_and, Bool.or_false]
      cases hd : c.dispatcher with
      | none =>
          -- the message is stored when the registration comes
          have hdeliver := replyStep_deliver_of_none tail submitOk drained hc.symm hd
          refine (exists_run_iff (run_pair hdeliver (hregister _)) _).trans ?_
          rw [AList.lookup_insert, Option.getD_some]
          cases created with
          | false =>
              have hstored : ({ c with ptrHead := head :: tail, sem := min (c.sem + 1) 1 } :
                  IpcContext).dispatcher = none := hd
              rw [registerHandler_false hstored]
              refine iff_of_true ?_ rfl
              exact reached_of_stored (by simp) (AList.lookup_insert _) hd (by simp) rfl
          | true =>
              refine iff_of_false (not_reached_of_silent rfl ?_) (by simp)
              rw [AList.lookup_insert, Option.getD_some]
              exact IpcContext.silent_registerHandler _ true
      | some events =>
          obtain ⟨m₁, hdeliver, hsilent⟩ := replyStep_deliver_of_some tail submitOk drained
            hc.symm hd
          refine (exists_run_iff (run_pair hdeliver (hregister m₁)) _).trans ?_
          refine reached_of_silent (by simp) ?_
          rw [AList.lookup_insert, Option.getD_some]
          exact hsilent.registerHandler true created
  | true =>
      rw [Bool.true_and]
      have hc' : ((m.insert head.seg.context (c.registerHandler true created).2).lookup
          head.seg.context).getD IpcContext.construct = (c.registerHandler true created).2 := by
        rw [AList.lookup_insert, Option.getD_some]
      have hhandled : (c.registerHandler true created).2.dispatcher.isSome =
          (c.dispatcher.isSome || created) := by
        rw [IpcContext.dispatcher_registerHandler, Option.isSome_or]
        cases created <;> rfl
      rw [← hhandled]
      cases hd : (c.registerHandler true created).2.dispatcher with
      | none =>
          have hcreated : created = false := by
            rw [hd, Option.isSome_none] at hhandled
            exact (Bool.or_eq_false_iff.1 hhandled.symm).2
          have hdeliver := replyStep_deliver_of_none tail submitOk drained hc' hd
          refine (exists_run_iff (run_pair (hregister m) hdeliver) _).trans ?_
          refine iff_of_true ?_ hcreated
          exact reached_of_stored (by simp) (AList.lookup_insert _) hd (by simp) rfl
      | some events =>
          obtain ⟨m₂, hdeliver, hsilent⟩ := replyStep_deliver_of_some tail submitOk drained
            hc' hd
          refine (exists_run_iff (run_pair (hregister m) hdeliver) _).trans ?_
          exact reached_of_silent (by simp) hsilent

/-- **A reply is stranded**: it comes before the handler that its client registers, is stored, and
can neither be got nor is it submitted. -/
theorem reply_stranded : ¬ ∀ (m : AList fun _ : ℕ => IpcContext) (head : SegPtr)
    (tail : List SegPtr) (registerFirst created submitOk : Bool) (drained : ℕ),
    ∃ submitted m', run replyStep (inOrder registerFirst (.deliver head tail submitOk drained)
        (.register head.seg.context created)) m = some (submitted, m') ∧
      Reached head.seg.context (head :: tail) submitted m' := by
  intro h
  -- the reply to a request with the context 7
  set head : SegPtr := sampleSeg 0 0 1 1 6 7
  have hempty : ((∅ : AList fun _ : ℕ => IpcContext).lookup head.seg.context).getD
      IpcContext.construct = IpcContext.construct := by
    rw [AList.lookup_empty, Option.getD_none]
  have hdeliver := replyStep_deliver_of_none [] true 0 hempty rfl
  have hreached := (exists_run_iff (run_pair hdeliver rfl) _).1 (h ∅ head [] false true true 0)
  refine not_reached_of_silent rfl ?_ hreached
  rw [IpcAccumMap.registerHandler, AList.lookup_insert, Option.getD_some]
  exact IpcContext.silent_registerHandler _ true

end CodePort
