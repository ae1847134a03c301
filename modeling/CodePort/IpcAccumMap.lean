/-
The accumulator map.

One thread takes the segments that were received from a queue.  A segment of a message of several
segments goes to the accumulator of its message, which is created when it is not there and deleted
when the message is complete; every complete message is put into the context it names.

Main definitions:

* `CodePort.IpcAccumMap` — the maps of accumulators and contexts;
* `CodePort.IpcAccumMap.accumulate` — what the thread does with a segment;
* `CodePort.IpcAccumMap.accumStep` — one turn of `AccumThread`;
* `CodePort.IsMessage` — the segments of a message.

Main results:

* `CodePort.IpcAccumMap.Reassembling.step` — one segment keeps the invariant of the map, and is
  answered with its message exactly when nothing of the message is still to come;
* `CodePort.IpcAccumMap.reassembling_run` — **so does every interleaving of messages**;
* `CodePort.accumThread_delivers` — **every message is delivered exactly once**, at the arrival of
  its last missing fragment, to the context it names.
-/

import CodePort.IpcContext
import CodePort.StepSystem
import Mathlib.Data.List.AList

set_option relaxedAutoImplicit false
set_option autoImplicit false

namespace CodePort

open IpcSegment StepSystem

/-- The globally unique ID of the segment at an address. -/
def SegPtr.guid (p : SegPtr) : ℕ := p.seg.guid

/-- The accumulator map class. -/
structure IpcAccumMap where
  /-- Map of message segment accumulators. -/
  accumMap : AList fun _ : ℕ => IpcAccum
  /-- Map of message context objects. -/
  contextMap : AList fun _ : ℕ => IpcContext

namespace IpcAccumMap

/-- Maps without entries. -/
def construct : IpcAccumMap := ⟨∅, ∅⟩

/-- What one turn of `AccumThread` takes: the segment pointer from the queue, the exit flag, the
time, and the answers of the dispatch object it meets. -/
structure AccumIn where
  /-- The segment; `none` is the NULL pointer. -/
  segment : Option SegPtr
  exitFlag : Bool
  now : ℕ
  /-- The answer of `SubmitEvent`. -/
  submitOk : Bool
  /-- How many accepted events the threads of a deleted dispatch object still run. -/
  drained : ℕ

/-- What one turn of `AccumThread` does besides changing the maps. -/
structure AccumOut where
  /-- The message that was put into a context, and the context. -/
  delivered : Option (ℕ × List SegPtr)
  /-- The segments that were deleted. -/
  deleted : List SegPtr
  /-- The segments of events that no dispatch thread will run. -/
  abandoned : List SegPtr

/-- Hand a segment to the accumulator of its message, or take it as a message of its own.  The
result is the complete message, and is empty while segments of it are missing. -/
def accumulate (m : AList fun _ : ℕ => IpcAccum) (now : ℕ) (p : SegPtr) :
    List SegPtr × AList fun _ : ℕ => IpcAccum :=
  if p.multipart then
    -- get a reference to the appropriate accumulator
    let accum := ((m.lookup p.guid).getD (IpcAccum.construct now)).submitSegment p
    if accum.complete then (accum.messageGet.1, m.erase p.guid)
    else ([], m.insert p.guid (accum.resetTimeout now ipcAccumulatorTimeout))
  else ([p], m)

/-- Put a message into the context that its first segment names.  A context that forwarded it to a
dispatch object is removed, except context 0. -/
def deliver (m : AList fun _ : ℕ => IpcContext) (msg : List SegPtr) (head : SegPtr)
    (submitOk : Bool) (drained : ℕ) : AccumOut × AList fun _ : ℕ => IpcContext :=
  let msgId := head.seg.context
  let r := ((m.lookup msgId).getD IpcContext.construct).messagePut msg submitOk
  if !r.stored && msgId != 0 then
    let d := r.context.destroy drained
    (⟨some (msgId, msg), r.deleted ++ d.1, d.2⟩, m.erase msgId)
  else (⟨some (msgId, msg), r.deleted, []⟩, m.insert msgId r.context)

/-- What happens to a segment: it is accumulated, and a message that it completes is delivered. -/
def receive (s : IpcAccumMap) (i : AccumIn) (p : SegPtr) : AccumOut × IpcAccumMap :=
  let r := accumulate s.accumMap i.now p
  match r.1 with
  | [] => (⟨none, [], []⟩, { s with accumMap := r.2 })
  | head :: tail =>
      let d := deliver s.contextMap (head :: tail) head i.submitOk i.drained
      (d.1, ⟨r.2, d.2⟩)

/-- The accumulator has expired, or a thread exit has been requested. -/
def stale (i : AccumIn) (a : IpcAccum) : Bool := a.expired i.now || i.exitFlag

/-- What the housekeeping of `AccumThread` does. -/
structure HouseKeeping where
  /-- The lists of which the node is alerted. -/
  notified : List (List SegPtr)
  deleted : List SegPtr
  accumMap : AList fun _ : ℕ => IpcAccum
  /-- The iterator has not been advanced from an element that was erased. -/
  valid : Bool

/-- The housekeeping of `AccumThread`, from an iterator on. -/
def houseKeep (i : AccumIn) (m : AList fun _ : ℕ => IpcAccum) :
    List (Sigma fun _ : ℕ => IpcAccum) → HouseKeeping
  | [] => ⟨[], [], m, true⟩
  | e :: es =>
      -- the loop goes on from the element it has erased, so it is not defined what comes next
      if stale i e.2 then ⟨[e.2.list], e.2.list, m.erase e.1, false⟩ else houseKeep i m es

/-- One turn of `AccumThread` that gets a pointer from the queue.  There is no result when the
housekeeping loses its iterator. -/
def accumStep (s : IpcAccumMap) (i : AccumIn) : Option (AccumOut × IpcAccumMap) :=
  match i.segment, i.exitFlag with
  | some p, false => some (receive s i p)
  | segment, _ =>
      let h := houseKeep i s.accumMap s.accumMap.entries
      if h.valid then
        some (⟨none, h.deleted ++ segment.toList, []⟩, { s with accumMap := h.accumMap })
      else none

end IpcAccumMap

/-! ### Messages that arrive interleaved -/

/-- The segments of a message: one segment without the flag of a message of several segments, or
a set of fragments. -/
def IsMessage (l : List SegPtr) : Prop :=
  (∃ p, l = [p] ∧ p.multipart = false) ∨ ∃ n, 0 < n ∧ MessageSet l n

theorem IsMessage.perm {l l' : List SegPtr} (h : IsMessage l) (hp : l.Perm l') : IsMessage l' := by
  rcases h with ⟨p, rfl, hm⟩ | ⟨n, hn, hset⟩
  · exact Or.inl ⟨p, List.perm_singleton.1 hp.symm, hm⟩
  · exact Or.inr ⟨n, hn, hset.perm hp⟩

theorem IsMessage.ne_nil {l : List SegPtr} (h : IsMessage l) : l ≠ [] := by
  rcases h with ⟨p, rfl, -⟩ | ⟨n, hn, hset⟩
  · exact List.cons_ne_nil _ _
  · rintro rfl
    have := hset.length_eq
    rw [List.length_nil] at this
    omega

/-- The segments of one message in a series of arrivals. -/
def ofGuid (g : ℕ) (l : List SegPtr) : List SegPtr := l.filter fun p => p.guid = g

theorem ofGuid_append (g : ℕ) (l l' : List SegPtr) :
    ofGuid g (l ++ l') = ofGuid g l ++ ofGuid g l' := List.filter_append _ _

theorem ofGuid_cons_self (p : SegPtr) (l : List SegPtr) :
    ofGuid p.guid (p :: l) = p :: ofGuid p.guid l := List.filter_cons_of_pos (by simp)

theorem ofGuid_cons_of_ne {g : ℕ} {p : SegPtr} (h : p.guid ≠ g) (l : List SegPtr) :
    ofGuid g (p :: l) = ofGuid g l := List.filter_cons_of_neg (by simpa using h)

namespace IpcAccumMap

/-- **The invariant of the accumulator map** after the arrival of `l`, when `rest` is still to come:
the messages that have begun and are not over have an accumulator, which holds what has arrived of
them, and there is no other accumulator. -/
structure Reassembling (l rest : List SegPtr) (m : AList fun _ : ℕ => IpcAccum) : Prop where
  absent : ∀ g, ofGuid g l = [] ∨ ofGuid g rest = [] → m.lookup g = none
  present : ∀ g, ofGuid g l ≠ [] → ofGuid g rest ≠ [] →
    ∃ a, m.lookup g = some a ∧ ∀ n, MessageSet (ofGuid g l ++ ofGuid g rest) n →
      a.Holds n (ofGuid g l)

variable {l rest : List SegPtr} {m : AList fun _ : ℕ => IpcAccum}

/-- Nothing has arrived yet. -/
theorem reassembling_nil (rest : List SegPtr) : Reassembling [] rest ∅ :=
  ⟨fun _ _ => AList.lookup_empty _, fun _ h => absurd rfl h⟩

/-- Nothing is still to come, so no accumulator is left. -/
theorem Reassembling.eq_empty (h : Reassembling l [] m) : m.entries = [] := by
  rw [List.eq_nil_iff_forall_not_mem]
  rintro ⟨g, a⟩ hmem
  have hnone := h.absent g (Or.inr rfl)
  rw [AList.lookup_eq_none] at hnone
  exact hnone (AList.mem_keys.2 (List.mem_map_of_mem (f := Sigma.fst) hmem))

/-- A step on the message `g` leaves the other messages alone. -/
theorem Reassembling.of_frame {p : SegPtr} {m' : AList fun _ : ℕ => IpcAccum}
    (h : Reassembling l (p :: rest) m) (hframe : ∀ g, g ≠ p.guid → m'.lookup g = m.lookup g)
    (habsent : ofGuid p.guid rest = [] → m'.lookup p.guid = none)
    (hpresent : ofGuid p.guid rest ≠ [] → ∃ a, m'.lookup p.guid = some a ∧
      ∀ n, MessageSet (ofGuid p.guid (l ++ [p]) ++ ofGuid p.guid rest) n →
        a.Holds n (ofGuid p.guid (l ++ [p]))) :
    Reassembling (l ++ [p]) rest m' := by
  have hother : ∀ g, g ≠ p.guid →
      ofGuid g (l ++ [p]) = ofGuid g l ∧ ofGuid g (p :: rest) = ofGuid g rest := by
    intro g hg
    refine ⟨?_, ofGuid_cons_of_ne hg.symm _⟩
    rw [ofGuid_append, ofGuid_cons_of_ne hg.symm]
    exact List.append_nil _
  constructor
  · intro g hor
    by_cases hg : g = p.guid
    · subst hg
      rcases hor with hnil | hnil
      · rw [ofGuid_append, ofGuid_cons_self] at hnil
        exact absurd hnil (by simp)
      · exact habsent hnil
    · obtain ⟨h₁, h₂⟩ := hother g hg
      rw [hframe g hg]
      rw [h₁, ← h₂] at hor
      exact h.absent g hor
  · intro g hl hrest
    by_cases hg : g = p.guid
    · subst hg
      exact hpresent hrest
    · obtain ⟨h₁, h₂⟩ := hother g hg
      rw [hframe g hg, h₁, ← h₂]
      exact h.present g (h₁ ▸ hl) (h₂ ▸ hrest)

/-- **One segment** keeps the invariant of the map, and is answered with its message exactly when
nothing of the message is still to come. -/
theorem Reassembling.step {p : SegPtr} (h : Reassembling l (p :: rest) m)
    (hmsg : IsMessage (ofGuid p.guid (l ++ p :: rest))) (now : ℕ) :
    Reassembling (l ++ [p]) rest (accumulate m now p).2 ∧
      (ofGuid p.guid rest ≠ [] → (accumulate m now p).1 = []) ∧
      (ofGuid p.guid rest = [] →
        (accumulate m now p).1.Perm (ofGuid p.guid (l ++ [p])) ∧
        (accumulate m now p).1.Pairwise fun a b => a.fragNum < b.fragNum) := by
  have hall : ofGuid p.guid (l ++ p :: rest) =
      ofGuid p.guid l ++ p :: ofGuid p.guid rest := by
    rw [ofGuid_append, ofGuid_cons_self]
  have hnow : ofGuid p.guid (l ++ [p]) = ofGuid p.guid l ++ [p] := by
    rw [ofGuid_append, ofGuid_cons_self]
    rfl
  rw [hall] at hmsg
  rcases hmsg with ⟨q, hq, hmulti⟩ | ⟨n, hn, hset⟩
  · -- a message of one segment
    have hlen := congrArg List.length hq
    rw [List.length_append, List.length_cons, List.length_singleton] at hlen
    have hl : ofGuid p.guid l = [] := List.length_eq_zero_iff.1 (by omega)
    have hr : ofGuid p.guid rest = [] := List.length_eq_zero_iff.1 (by omega)
    rw [hl, hr, List.nil_append, List.singleton_inj] at hq
    have hacc : accumulate m now p = ([p], m) := by
      rw [accumulate, hq, hmulti, if_neg (by decide)]
    rw [hacc, hnow, hl]
    refine ⟨h.of_frame (fun _ _ => rfl) (fun _ => h.absent _ (Or.inl hl)) fun hc => absurd hr hc,
      fun hc => absurd hr hc, fun _ => ⟨List.Perm.refl _, List.pairwise_singleton _ _⟩⟩
  · -- a message of several segments
    have hp : p.multipart = true := hset.multipart p (by simp)
    have hholds : ((m.lookup p.guid).getD (IpcAccum.construct now)).Holds n (ofGuid p.guid l) := by
      rcases eq_or_ne (ofGuid p.guid l) [] with hl | hl
      · rw [h.absent _ (Or.inl hl), hl]
        exact IpcAccum.holds_construct n now
      · have hcons : ofGuid p.guid (p :: rest) ≠ [] := by
          rw [ofGuid_cons_self]
          exact List.cons_ne_nil _ _
        obtain ⟨a, ha, hrec⟩ := h.present _ hl hcons
        rw [ha]
        exact hrec n (by rw [ofGuid_cons_self]; exact hset)
    have hsub := hholds.submitSegment hp (hset.initial p (by simp))
    set a := ((m.lookup p.guid).getD (IpcAccum.construct now)).submitSegment p with ha
    have hset' : MessageSet ((ofGuid p.guid l ++ [p]) ++ ofGuid p.guid rest) n := by
      rw [List.append_assoc]
      exact hset
    have hcomplete := hsub.complete_iff hset' (by simp)
    have hacc : accumulate m now p = if a.complete then (a.messageGet.1, m.erase p.guid)
        else ([], m.insert p.guid (a.resetTimeout now ipcAccumulatorTimeout)) := by
      rw [accumulate, hp, if_pos rfl]
    rw [hacc, hnow]
    by_cases hr : ofGuid p.guid rest = []
    · rw [if_pos (hcomplete.2 hr)]
      rw [hr, List.append_nil] at hset'
      obtain ⟨hperm, hnums⟩ := hsub.messageGet hset'
      refine ⟨h.of_frame (fun g hg => AList.lookup_erase_ne hg)
        (fun _ => AList.lookup_erase _ _) fun hc => absurd hr hc, fun hc => absurd hr hc,
        fun _ => ⟨hperm, ?_⟩⟩
      rw [← List.pairwise_map, hnums]
      exact List.pairwise_lt_range'
    · rw [if_neg fun hc => hr (hcomplete.1 hc)]
      refine ⟨h.of_frame (fun g hg => AList.lookup_insert_ne hg) (fun hc => absurd hc hr)
        fun _ => ⟨_, AList.lookup_insert _, ?_⟩, fun _ => rfl, fun hc => absurd hc hr⟩
      intro n' hn'
      rw [hnow] at hn' ⊢
      have heq : n' = n := hn'.length_eq.symm.trans hset'.length_eq
      rw [heq]
      exact hsub.resetTimeout _ _

/-! ### The run -/

/-- The segments that a series of turns takes from the queue. -/
def segments (is : List AccumIn) : List SegPtr := is.filterMap AccumIn.segment

/-- A turn that takes a segment and is not asked to exit. -/
def Arrives (i : AccumIn) (p : SegPtr) : Prop := i.segment = some p ∧ i.exitFlag = false

/-- What a turn that takes the segment `p` does, after the arrival of `l` and before that of
`rest`: it delivers the message of `p` if nothing of it is still to come. -/
def Answers (l rest : List SegPtr) (p : SegPtr) (o : AccumOut) : Prop :=
  (ofGuid p.guid rest ≠ [] → o.delivered = none) ∧
    (ofGuid p.guid rest = [] → ∃ head tail, o.delivered = some (head.seg.context, head :: tail) ∧
      (head :: tail).Perm (ofGuid p.guid (l ++ [p])) ∧
      (head :: tail).Pairwise fun a b => a.fragNum < b.fragNum)

theorem accumStep_of_arrives {i : AccumIn} {p : SegPtr} (hi : Arrives i p) (s : IpcAccumMap) :
    accumStep s i = some (receive s i p) := by
  rw [accumStep, hi.1, hi.2]

/-- **One segment** keeps the invariant and is answered. -/
theorem receive_answers {s : IpcAccumMap} {i : AccumIn} {p : SegPtr}
    (h : Reassembling l (p :: rest) s.accumMap) (hmsg : IsMessage (ofGuid p.guid (l ++ p :: rest))) :
    Reassembling (l ++ [p]) rest (receive s i p).2.accumMap ∧
      Answers l rest p (receive s i p).1 := by
  obtain ⟨hinv, hwait, hdone⟩ := h.step hmsg i.now
  rw [receive]
  cases hacc : (accumulate s.accumMap i.now p).1 with
  | nil =>
      refine ⟨hinv, fun _ => rfl, fun hr => ?_⟩
      obtain ⟨hperm, -⟩ := hdone hr
      rw [hacc, ofGuid_append, ofGuid_cons_self] at hperm
      exact absurd hperm.symm.eq_nil (by simp)
  | cons head tail =>
      refine ⟨hinv, fun hr => ?_, fun hr => ⟨head, tail, ?_, ?_⟩⟩
      · rw [hwait hr] at hacc
        exact absurd hacc (by simp)
      · simp only [deliver]
        split <;> rfl
      · rw [← hacc]
        exact hdone hr

/-- **Every interleaving of messages**: the invariant holds after the run, and every turn answers
its segment. -/
theorem reassembling_run (is : List AccumIn) : ∀ (l : List SegPtr) (s : IpcAccumMap),
    (∀ i ∈ is, ∃ p, Arrives i p) → Reassembling l (segments is) s.accumMap →
      (∀ g, ofGuid g (l ++ segments is) = [] ∨ IsMessage (ofGuid g (l ++ segments is))) →
      ∃ outs s', run accumStep is s = some (outs, s') ∧
        Reassembling (l ++ segments is) [] s'.accumMap ∧ outs.length = is.length ∧
        ∀ k (hk : k < is.length) p, Arrives is[k] p → ∃ o, outs[k]? = some o ∧
          Answers (l ++ segments (is.take k)) (segments (is.drop (k + 1))) p o := by
  induction is with
  | nil =>
      intro l s _ h _
      refine ⟨[], s, rfl, by simpa [segments] using h, rfl, ?_⟩
      intro k hk
      exact absurd hk (Nat.not_lt_zero _)
  | cons i is ih =>
      intro l s harr h hmsg
      obtain ⟨p, hp⟩ := harr i List.mem_cons_self
      have hseg : segments (i :: is) = p :: segments is := by
        rw [segments, List.filterMap_cons, hp.1]
        rfl
      rw [hseg] at h hmsg
      have hthis : IsMessage (ofGuid p.guid (l ++ p :: segments is)) := by
        refine (hmsg p.guid).resolve_left ?_
        rw [ofGuid_append, ofGuid_cons_self]
        simp
      obtain ⟨hinv, hans⟩ := receive_answers (i := i) h hthis
      have hassoc : l ++ [p] ++ segments is = l ++ p :: segments is := by simp
      obtain ⟨outs, s', hrun, hfin, hlen, hrec⟩ := ih (l ++ [p]) (receive s i p).2
        (fun j hj => harr j (List.mem_cons_of_mem _ hj)) hinv (by rw [hassoc]; exact hmsg)
      refine ⟨(receive s i p).1 :: outs, s',
        run_cons_eq_some.2 ⟨_, _, _, accumStep_of_arrives hp s, hrun, rfl⟩, ?_, by simp [hlen], ?_⟩
      · rw [hseg, ← hassoc]
        exact hfin
      · intro k hk q hq
        cases k with
        | zero =>
            obtain rfl : p = q := Option.some_inj.1 (hp.1.symm.trans hq.1)
            refine ⟨(receive s i p).1, rfl, ?_⟩
            simpa [segments] using hans
        | succ k =>
            obtain ⟨o, ho, hao⟩ := hrec k (by simpa using hk) q hq
            refine ⟨o, ho, ?_⟩
            have htake : l ++ segments ((i :: is).take (k + 1)) =
                l ++ [p] ++ segments (is.take k) := by
              rw [List.take_succ_cons, segments, List.filterMap_cons, hp.1]
              simp [segments]
            rw [htake]
            exact hao

/-- The arrivals around turn `k`. -/
theorem segments_split {is : List AccumIn} {k : ℕ} (hk : k < is.length) {p : SegPtr}
    (hp : Arrives is[k] p) :
    segments is = segments (is.take k) ++ p :: segments (is.drop (k + 1)) := by
  conv_lhs => rw [← List.take_append_drop k is, List.drop_eq_getElem_cons hk]
  rw [segments, List.filterMap_append, List.filterMap_cons, hp.1]
  rfl

/-- A message of which something arrives has a last arrival. -/
theorem exists_last_arrival {g : ℕ} {is : List AccumIn} (harr : ∀ i ∈ is, ∃ p, Arrives i p)
    (hne : ofGuid g (segments is) ≠ []) :
    ∃ k, ∃ hk : k < is.length, ∃ p, Arrives is[k] p ∧ p.guid = g ∧
      ofGuid g (segments (is.drop (k + 1))) = [] := by
  induction is with
  | nil => exact absurd rfl hne
  | cons i is ih =>
      rcases eq_or_ne (ofGuid g (segments is)) [] with hnil | hrest
      · obtain ⟨p, hp⟩ := harr i List.mem_cons_self
        have hseg : segments (i :: is) = p :: segments is := by
          rw [segments, List.filterMap_cons, hp.1]
          rfl
        refine ⟨0, Nat.succ_pos _, p, hp, ?_, hnil⟩
        by_contra hg
        rw [hseg, ofGuid_cons_of_ne hg] at hne
        exact hne hnil
      · obtain ⟨k, hk, p, hp, hg, hnil⟩ :=
          ih (fun j hj => harr j (List.mem_cons_of_mem _ hj)) hrest
        exact ⟨k + 1, Nat.succ_lt_succ hk, p, hp, hg, hnil⟩

end IpcAccumMap

/-! ### Sets of messages -/

/-- Messages with pairwise distinct globally unique IDs, each of them shared by its segments. -/
structure Distinct (msgs : List (List SegPtr)) : Prop where
  guid_eq : ∀ M ∈ msgs, ∀ p ∈ M, ∀ q ∈ M, p.guid = q.guid
  guid_ne : msgs.Pairwise fun M N => ∀ p ∈ M, ∀ q ∈ N, p.guid ≠ q.guid

/-- The segments with the ID of a message are those of the message. -/
theorem ofGuid_flatten {msgs : List (List SegPtr)} (h : Distinct msgs) {M : List SegPtr}
    (hM : M ∈ msgs) {p : SegPtr} (hp : p ∈ M) : ofGuid p.guid msgs.flatten = M := by
  have hself : ∀ N ∈ msgs, ∀ q ∈ N, ofGuid q.guid N = N := by
    intro N hN q hq
    refine List.filter_eq_self.2 fun r hr => ?_
    simpa using h.guid_eq N hN r hr q hq
  have hother : ∀ {N q}, (∀ r ∈ N, q ≠ SegPtr.guid r) → ofGuid q N = [] := by
    intro N q hne
    refine List.filter_eq_nil_iff.2 fun r hr => ?_
    simpa using (hne r hr).symm
  induction msgs with
  | nil => exact absurd hM List.not_mem_nil
  | cons N msgs ih =>
      obtain ⟨hN, htail⟩ := List.pairwise_cons.1 h.guid_ne
      rw [List.flatten_cons, ofGuid_append]
      rcases List.mem_cons.1 hM with rfl | hM'
      · rw [hself M List.mem_cons_self p hp, hother, List.append_nil]
        intro r hr
        obtain ⟨K, hK, hrK⟩ := List.mem_flatten.1 hr
        exact hN K hK p hp r hrK
      · rw [hother fun r hr => (hN M hM' r hr p hp).symm, List.nil_append]
        exact ih ⟨fun K hK => h.guid_eq K (List.mem_cons_of_mem _ hK), htail⟩ hM'
          fun K hK => hself K (List.mem_cons_of_mem _ hK)

namespace IpcAccumMap

/-- The segment that turn `k` takes. -/
def arrival (is : List AccumIn) (k : ℕ) : Option SegPtr := is[k]?.bind AccumIn.segment

/-- The context and the message that turn `k` puts into it. -/
def delivery (os : List AccumOut) (k : ℕ) : Option (ℕ × List SegPtr) :=
  os[k]?.bind AccumOut.delivered

theorem arrival_of_arrives {is : List AccumIn} {k : ℕ} (hk : k < is.length) {p : SegPtr}
    (h : Arrives is[k] p) : arrival is k = some p := by
  rw [arrival, List.getElem?_eq_getElem hk, Option.bind_some, h.1]

/-- What arrives after turn `k` is still to come at turn `k`. -/
theorem mem_segments_drop {is : List AccumIn} {j k : ℕ} {p : SegPtr} (hjk : k < j)
    (h : arrival is j = some p) : p ∈ segments (is.drop (k + 1)) := by
  obtain ⟨i, hi, hp⟩ := Option.bind_eq_some_iff.1 h
  obtain ⟨hj, rfl⟩ := List.getElem?_eq_some_iff.1 hi
  refine List.mem_filterMap.2 ⟨_, ?_, hp⟩
  rw [List.mem_drop_iff_getElem]
  exact ⟨j - (k + 1), by omega, by congr 1; omega⟩

/-- A turn delivers only when it takes the last segment of a message, and then that message. -/
theorem Answers.of_delivered {l rest : List SegPtr} {p : SegPtr} {o : AccumOut} {d : ℕ × List SegPtr}
    (h : Answers l rest p o) (hd : o.delivered = some d) :
    ofGuid p.guid rest = [] ∧ d.2.Perm (ofGuid p.guid (l ++ [p])) := by
  by_cases hr : ofGuid p.guid rest = []
  · obtain ⟨head, tail, hdel, hperm, -⟩ := h.2 hr
    obtain rfl := Option.some_inj.1 (hd.symm.trans hdel)
    exact ⟨hr, hperm⟩
  · rw [h.1 hr] at hd
    exact absurd hd (by simp)

/-! ### The segments of a set of messages -/

section Arriving

variable {msgs : List (List SegPtr)} {is : List AccumIn}

/-- A segment that arrives is one of a message. -/
theorem exists_mem_of_arrives (hsegs : (segments is).Perm msgs.flatten) {k : ℕ} (hk : k < is.length)
    {p : SegPtr} (hp : Arrives is[k] p) : ∃ M ∈ msgs, p ∈ M := by
  have hin : p ∈ segments is := List.mem_filterMap.2 ⟨_, List.getElem_mem hk, hp.1⟩
  obtain ⟨M, hM, hpM⟩ := List.mem_flatten.1 (hsegs.subset hin)
  exact ⟨M, hM, hpM⟩

/-- The segments that arrive with the ID of a message are those of the message. -/
theorem ofGuid_segments (hdistinct : Distinct msgs) (hsegs : (segments is).Perm msgs.flatten)
    {M : List SegPtr} (hM : M ∈ msgs) {p : SegPtr} (hp : p ∈ M) :
    (ofGuid p.guid (segments is)).Perm M := by
  have h : (ofGuid p.guid (segments is)).Perm (ofGuid p.guid msgs.flatten) := hsegs.filter _
  rwa [ofGuid_flatten hdistinct hM hp] at h

/-- What has arrived of a message when nothing of it is still to come. -/
theorem ofGuid_take (hdistinct : Distinct msgs) (hsegs : (segments is).Perm msgs.flatten) {k : ℕ}
    (hk : k < is.length) {p : SegPtr} (hp : Arrives is[k] p)
    (hlast : ofGuid p.guid (segments (is.drop (k + 1))) = []) {M : List SegPtr} (hM : M ∈ msgs)
    (hpM : p ∈ M) : (ofGuid p.guid ([] ++ segments (is.take k) ++ [p])).Perm M := by
  have h := ofGuid_segments hdistinct hsegs hM hpM
  rw [segments_split hk hp, List.append_cons, ofGuid_append, hlast, List.append_nil] at h
  rwa [List.nil_append]

/-- Behind the last segment of a message none of its segments arrives. -/
theorem not_mem_of_last (hdistinct : Distinct msgs) {M : List SegPtr} (hM : M ∈ msgs) {p : SegPtr}
    (hp : p ∈ M) {k : ℕ} (hlast : ofGuid p.guid (segments (is.drop (k + 1))) = []) {j : ℕ}
    {q : SegPtr} (hkj : k < j) (hq : arrival is j = some q) : q ∉ M := by
  intro hqM
  have hin : q ∈ ofGuid p.guid (segments (is.drop (k + 1))) :=
    List.mem_filter.2 ⟨mem_segments_drop hkj hq, by simpa using hdistinct.guid_eq M hM q hqM p hp⟩
  rw [hlast] at hin
  exact List.not_mem_nil hin

/-- The last segment of a message arrives in some turn. -/
theorem exists_last_of_message (hdistinct : Distinct msgs) (hsegs : (segments is).Perm msgs.flatten)
    (harr : ∀ i ∈ is, ∃ p, Arrives i p) {M : List SegPtr} (hM : M ∈ msgs) (hne : M ≠ []) :
    ∃ k, ∃ hk : k < is.length, ∃ p ∈ M, Arrives is[k] p ∧
      ofGuid p.guid (segments (is.drop (k + 1))) = [] := by
  obtain ⟨q, hq⟩ := List.exists_mem_of_ne_nil M hne
  have hof : ofGuid q.guid (segments is) ≠ [] := by
    intro hnil
    have h := ofGuid_segments hdistinct hsegs hM hq
    rw [hnil] at h
    exact hne h.nil_eq.symm
  obtain ⟨k, hk, p, hp, hg, hlast⟩ := exists_last_arrival harr hof
  obtain ⟨N, hN, hpN⟩ := exists_mem_of_arrives hsegs hk hp
  have hNM : N = M := by
    rw [← ofGuid_flatten hdistinct hN hpN, hg, ofGuid_flatten hdistinct hM hq]
  exact ⟨k, hk, p, hNM ▸ hpN, hp, by rw [hg]; exact hlast⟩

/-- The segments with one ID are those of a message, if there are any. -/
theorem isMessage_ofGuid (hmsgs : ∀ M ∈ msgs, IsMessage M) (hdistinct : Distinct msgs)
    (hsegs : (segments is).Perm msgs.flatten) (harr : ∀ i ∈ is, ∃ p, Arrives i p) (g : ℕ) :
    ofGuid g (segments is) = [] ∨ IsMessage (ofGuid g (segments is)) := by
  rcases eq_or_ne (ofGuid g (segments is)) [] with hnil | hne
  · exact .inl hnil
  · obtain ⟨k, hk, p, hp, rfl, -⟩ := exists_last_arrival harr hne
    obtain ⟨M, hM, hpM⟩ := exists_mem_of_arrives hsegs hk hp
    exact .inr ((hmsgs M hM).perm (ofGuid_segments hdistinct hsegs hM hpM).symm)

end Arriving

end IpcAccumMap

open IpcAccumMap in
/-- **Every message is delivered exactly once**, whatever the interleaving of the segments: at the
arrival of its last missing fragment, to the context that it names, with its own fragments in
ascending order; and when everything has arrived no accumulator is left. -/
theorem accumThread_delivers {msgs : List (List SegPtr)} (hmsgs : ∀ M ∈ msgs, IsMessage M)
    (hdistinct : Distinct msgs) {is : List AccumIn} (hexit : ∀ i ∈ is, i.exitFlag = false)
    (hperm : (is.map AccumIn.segment).Perm (msgs.flatten.map some)) :
    ∃ outs s, run accumStep is construct = some (outs, s) ∧ s.accumMap.entries = [] ∧
    -- every message is delivered, at the arrival of its last segment
    (∀ M ∈ msgs, ∃ k head tail, delivery outs k = some (head.seg.context, head :: tail) ∧
      (head :: tail).Perm M ∧ (head :: tail).Pairwise (fun a b => a.fragNum < b.fragNum) ∧
      (∃ p ∈ M, arrival is k = some p) ∧ ∀ j p, k < j → arrival is j = some p → p ∉ M) ∧
    -- no message is delivered twice
    (∀ M ∈ msgs, ∀ j k dj dk, delivery outs j = some dj → delivery outs k = some dk →
      dj.2.Perm M → dk.2.Perm M → j = k) ∧
    -- nothing but messages is delivered
    ∀ k d, delivery outs k = some d → ∃ M ∈ msgs, d.2.Perm M := by
  -- every turn takes a segment
  have harr : ∀ i ∈ is, ∃ p, Arrives i p := by
    intro i hi
    obtain ⟨p, -, hp⟩ := List.mem_map.1 (hperm.subset (List.mem_map_of_mem hi))
    exact ⟨p, hp.symm, hexit i hi⟩
  have hsegs : (segments is).Perm msgs.flatten := by
    have h := hperm.filterMap id
    rwa [List.filterMap_map, List.filterMap_map, Function.id_comp, Function.id_comp,
      List.filterMap_some] at h
  obtain ⟨outs, s, hrun, hfin, hlen, hans⟩ := reassembling_run is [] construct harr
    (reassembling_nil (segments is)) (isMessage_ofGuid hmsgs hdistinct hsegs harr)
  -- a turn that delivers takes the last segment of a message, and delivers that message
  have hdel : ∀ {k d}, delivery outs k = some d →
      ∃ p, arrival is k = some p ∧ ofGuid p.guid (segments (is.drop (k + 1))) = [] ∧
        ∃ M ∈ msgs, p ∈ M ∧ d.2.Perm M := by
    intro k d hd
    obtain ⟨o, ho, hod⟩ := Option.bind_eq_some_iff.1 hd
    obtain ⟨hk', -⟩ := List.getElem?_eq_some_iff.1 ho
    have hk : k < is.length := hlen ▸ hk'
    obtain ⟨p, hp⟩ := harr _ (List.getElem_mem hk)
    obtain ⟨o', ho', hans'⟩ := hans k hk p hp
    obtain rfl := Option.some_inj.1 (ho.symm.trans ho')
    obtain ⟨hr, hperm'⟩ := hans'.of_delivered hod
    obtain ⟨M, hM, hpM⟩ := exists_mem_of_arrives hsegs hk hp
    exact ⟨p, arrival_of_arrives hk hp, hr, M, hM, hpM,
      hperm'.trans (ofGuid_take hdistinct hsegs hk hp hr hM hpM)⟩
  refine ⟨outs, s, hrun, hfin.eq_empty, ?_, ?_, ?_⟩
  · intro M hM
    obtain ⟨k, hk, p, hpM, hp, hr⟩ :=
      exists_last_of_message hdistinct hsegs harr hM (hmsgs M hM).ne_nil
    obtain ⟨o, ho, hans'⟩ := hans k hk p hp
    obtain ⟨head, tail, hod, hperm', hsorted⟩ := hans'.2 hr
    refine ⟨k, head, tail, ?_, hperm'.trans (ofGuid_take hdistinct hsegs hk hp hr hM hpM), hsorted,
      ⟨p, hpM, arrival_of_arrives hk hp⟩, ?_⟩
    · rw [delivery, ho, Option.bind_some, hod]
    · intro j q hkj hq
      exact not_mem_of_last hdistinct hM hpM hr hkj hq
  · -- the message is over at the first delivery, so there is no second one
    have hle : ∀ M ∈ msgs, ∀ j k dj dk, delivery outs j = some dj →
        delivery outs k = some dk → dj.2.Perm M → dk.2.Perm M → ¬ j < k := by
      intro M hM j k dj dk hj hk hpj hpk hlt
      obtain ⟨p, -, hr, N, hN, hpN, hpermN⟩ := hdel hj
      obtain ⟨q, hq, -, K, hK, hqK, hpermK⟩ := hdel hk
      have hpM : p ∈ M := (hpermN.symm.trans hpj).subset hpN
      have hqM : q ∈ M := (hpermK.symm.trans hpk).subset hqK
      exact not_mem_of_last hdistinct hM hpM hr hlt hq hqM
    intro M hM j k dj dk hj hk hpj hpk
    have h₁ := hle M hM j k dj dk hj hk hpj hpk
    have h₂ := hle M hM k j dk dj hk hj hpk hpj
    omega
  · intro k d hd
    obtain ⟨-, -, -, M, hM, -, hpermM⟩ := hdel hd
    exact ⟨M, hM, hpermM⟩

/-- A received segment without payload, with one-octet values in its fields. -/
def sampleSeg (addr : ℕ) (options fragNum srcAddr msgId context : UInt8) : SegPtr where
  addr := addr
  seg :=
    { buf :=
        { block := some [0, options, 0, fragNum, 0, 0, 0, srcAddr, 0, 0, 0, 0, 0, 0, 0, msgId,
            0, 0, 0, context, 0, 0, 0, 0]
          dataLen := 24
          dataLen_le := Nat.le_refl 24 } }

/-- A message of two segments, and one of a single segment. -/
def sampleMessages : List (List SegPtr) :=
  [[sampleSeg 0 0x20 1 1 5 7, sampleSeg 1 0x60 2 1 5 7], [sampleSeg 2 0 1 1 6 0]]

open IpcAccumMap in
/-- The last segment of the first message arrives first, its first segment last. -/
def sampleTurns : List AccumIn :=
  [⟨some (sampleSeg 1 0x60 2 1 5 7), false, 10, true, 0⟩,
    ⟨some (sampleSeg 2 0 1 1 6 0), false, 11, true, 0⟩,
    ⟨some (sampleSeg 0 0x20 1 1 5 7), false, 12, true, 0⟩]

open IpcAccumMap in
theorem accumThread_delivers_two :
    ∃ outs s, run accumStep sampleTurns construct = some (outs, s) ∧ s.accumMap.entries = [] ∧
      ∃ k head tail, delivery outs k = some (head.seg.context, head :: tail) ∧
        (head :: tail).Perm [sampleSeg 0 0x20 1 1 5 7, sampleSeg 1 0x60 2 1 5 7] := by
  have hset : MessageSet [sampleSeg 0 0x20 1 1 5 7, sampleSeg 1 0x60 2 1 5 7] 2 :=
    ⟨by decide, by decide, by decide⟩
  have hmsgs : ∀ M ∈ sampleMessages, IsMessage M := by
    intro M hM
    rcases List.mem_cons.1 hM with rfl | hM
    · exact Or.inr ⟨2, by decide, hset⟩
    · rw [List.mem_singleton.1 hM]
      exact Or.inl ⟨_, rfl, by decide⟩
  have hdistinct : Distinct sampleMessages := ⟨by decide, by decide⟩
  obtain ⟨outs, s, hrun, hempty, hall, -⟩ := @accumThread_delivers _ hmsgs hdistinct sampleTurns
    (by decide) (by decide)
  obtain ⟨k, head, tail, hdel, hperm, -⟩ := hall _ List.mem_cons_self
  exact ⟨outs, s, hrun, hempty, k, head, tail, hdel, hperm⟩

end CodePort
