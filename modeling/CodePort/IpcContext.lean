/-
The message context class.

A context either stores the last message that was put into it, until a client gets it, or hands
every message to the dispatch object of a registered handler.  What becomes of the segments is
part of the answer of every function here, since a context deletes what it replaces.

Main definitions:

* `CodePort.IpcContext` — the class; of its dispatch object only the accepted events matter here;
* `CodePort.IpcContext.messagePut`, `messageGet` — put a message into the context, and get it;
* `CodePort.IpcContext.registerHandler` — from then on messages go to a dispatch object;
* `CodePort.IpcContext.runEvent` — what a dispatch thread deletes with an event;
* `CodePort.IpcContext.destroy` — what the destructor does with the segments.
-/

import CodePort.IpcAccum

set_option relaxedAutoImplicit false
set_option autoImplicit false

namespace CodePort

/-- The message context class. -/
structure IpcContext where
  /-- The stored message; the empty list is the NULL pointer. -/
  ptrHead : List SegPtr
  /-- The count of the message arrival semaphore, at most one. -/
  sem : ℕ
  /-- The events that the dispatch object has accepted and not run yet, if one is registered. -/
  dispatcher : Option (List (List SegPtr))
  /-- The dispatch object has the functions that are called before and after the handlers of an event;
  between them they make a packet of the event, which deletes its segments. -/
  handled : Bool

namespace IpcContext

/-- The constructor. -/
def construct : IpcContext := ⟨[], 0, none, false⟩

/-- What a function of the context does: the answer, the segments it deletes, and the context. -/
structure PutAnswer where
  /-- True if the message was stored, false if it was passed to a dispatcher. -/
  stored : Bool
  deleted : List SegPtr
  context : IpcContext

/-- Put a message into the context.  `submitOk` is the answer of `Dispatch::SubmitEvent`. -/
def messagePut (c : IpcContext) (msg : List SegPtr) (submitOk : Bool) : PutAnswer :=
  -- pretend a NULL pointer was stored
  if msg.isEmpty then ⟨true, [], c⟩
  else
    match c.dispatcher with
    | none => ⟨true, c.ptrHead, { c with ptrHead := msg, sem := min (c.sem + 1) 1 }⟩
    | some events =>
        if submitOk then ⟨false, [], { c with dispatcher := some (events ++ [msg]) }⟩
        else ⟨false, msg, c⟩

/-- Get a message from the context: the answer, and the message if there is one. -/
def messageGet (c : IpcContext) : (Bool × List SegPtr) × IpcContext :=
  -- don't allow manual intervention if a dispatcher has been registered
  if c.dispatcher.isSome then ((false, []), c)
  else if 0 < c.sem then ((true, c.ptrHead), { c with ptrHead := [], sem := c.sem - 1 })
  else ((false, []), c)

/-- Register a message handler function.  `pHandler` says that it is not NULL, and `created` that a
dispatch object can be created. -/
def registerHandler (c : IpcContext) (pHandler created : Bool) : Bool × IpcContext :=
  let c := if c.dispatcher.isNone && created then { c with dispatcher := some [] } else c
  -- register pre and post handler functions
  let c := if c.dispatcher.isSome && pHandler then { c with handled := true } else c
  (c.dispatcher.isSome, c)

/-- A dispatch thread runs an event: the segments that are deleted.  Without the functions that are
called before and after the handlers the event is taken from the queue and forgotten. -/
def runEvent (c : IpcContext) (event : List SegPtr) : List SegPtr := if c.handled then event else []

/-- The destructor: the segments it deletes, and those of events that no dispatch thread runs any
more.  `drained` is how many of the accepted events the dispatch threads run before they exit. -/
def destroy (c : IpcContext) (drained : ℕ) : List SegPtr × List SegPtr :=
  match c.dispatcher with
  | none => (c.ptrHead, [])
  | some events =>
      (c.ptrHead ++ (events.take drained).flatMap c.runEvent, (events.drop drained).flatten)

end IpcContext

end CodePort
