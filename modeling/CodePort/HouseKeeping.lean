/-
The housekeeping of the accumulator thread.

The pass goes through the map of accumulators with an iterator, and erases from the map the element that
the iterator is at.  That ends the life of the iterator, and the pass advances it all the same: from
there on anything may happen.

Main definitions:

* `CodePort.HouseEvent` — what the pass does to an element or to the iterator;
* `CodePort.IpcAccumMap.housePass` — the pass, as far as it is defined;
* `CodePort.IpcAccumMap.Behaves` — what an execution of the pass may do;
* `CodePort.IpcAccumMap.Housekept` — what the pass owes.

Main results:

* `CodePort.IpcAccumMap.housePass_of_fresh`, `housePass_of_stale` — the pass up to the first element that
  it erases;
* `CodePort.IpcAccumMap.housePass_eq_houseKeep` — the pass does what a turn of the thread makes of it;
* `CodePort.houseKeeping_exact_iff` — **the pass does what it owes if and only if there is nothing to
  erase**.
-/

import CodePort.IpcAccumMap

set_option relaxedAutoImplicit false
set_option autoImplicit false

namespace CodePort

/-- What the pass does to an element of the map, which its ID names, or to the iterator that is at it. -/
inductive HouseEvent
  /-- The element is looked at through the iterator. -/
  | visit (guid : ℕ)
  /-- The node is alerted of a list. -/
  | notify (list : List SegPtr)
  | erase (guid : ℕ)
  | advance (guid : ℕ)
  deriving DecidableEq

/-- What is read when an element is looked at: the time, and the exit flag of the thread. -/
structure HouseReading where
  now : ℕ
  exitFlag : Bool

namespace IpcAccumMap

/-- The accumulator is to be removed: it has expired, or a thread exit has been requested. -/
def Stale (r : ℕ → HouseReading) (guid : ℕ) (a : IpcAccum) : Bool :=
  a.expired (r guid).now || (r guid).exitFlag

/-- How far the pass is defined: the events, the map, and whether it has come to its end. -/
structure HousePass where
  events : List HouseEvent
  accumMap : AList fun _ : ℕ => IpcAccum
  ended : Bool

/-- The loop of the pass, from an iterator on. -/
def housePass (r : ℕ → HouseReading) (m : AList fun _ : ℕ => IpcAccum) :
    List (Sigma fun _ : ℕ => IpcAccum) → HousePass
  | [] => ⟨[], m, true⟩
  | e :: es =>
      -- if accumulator is expired or thread exit has been requested
      if Stale r e.1 e.2 then
        ⟨[.visit e.1, .notify e.2.list, .erase e.1, .advance e.1], m.erase e.1, false⟩
      else
        let p := housePass r m es
        { p with events := .visit e.1 :: .advance e.1 :: p.events }

/-- An execution of the pass over the map `m` that does `events` and leaves the map `m'`.  When an iterator
to an erased element has been advanced, anything may come next. -/
def Behaves (r : ℕ → HouseReading) (m : AList fun _ : ℕ => IpcAccum) (events : List HouseEvent)
    (m' : AList fun _ : ℕ => IpcAccum) : Prop :=
  let p := housePass r m m.entries
  if p.ended then events = p.events ∧ m' = p.accumMap else p.events <+: events

/-- The lists of which the node is alerted. -/
def notified (events : List HouseEvent) : List (List SegPtr) :=
  events.filterMap fun
    | .notify list => some list
    | _ => none

/-- What the pass owes. -/
structure Housekept (r : ℕ → HouseReading) (m : AList fun _ : ℕ => IpcAccum) (events : List HouseEvent)
    (m' : AList fun _ : ℕ => IpcAccum) : Prop where
  /-- Every accumulator is visited exactly once. -/
  visited : ∀ guid, events.count (.visit guid) = if guid ∈ m then 1 else 0
  /-- Exactly those that are to be removed are reported to the node. -/
  reported : notified events =
    (m.entries.filter fun e => Stale r e.1 e.2).map fun e => e.2.list
  /-- They are erased, and the others stay untouched. -/
  erased : ∀ guid, m'.lookup guid = (m.lookup guid).filter fun a => !Stale r guid a
  /-- No iterator to an erased element is advanced or dereferenced. -/
  safe : ∀ before after guid,
    events = before ++ .visit guid :: after ∨ events = before ++ .advance guid :: after →
      .erase guid ∉ before

variable {r : ℕ → HouseReading} {m : AList fun _ : ℕ => IpcAccum}

/-- What the pass does with an element that stays. -/
def passed (e : Sigma fun _ : ℕ => IpcAccum) : List HouseEvent := [.visit e.1, .advance e.1]

/-- **Nothing is to be erased.** -/
theorem housePass_of_fresh {es : List (Sigma fun _ : ℕ => IpcAccum)}
    (h : ∀ e ∈ es, Stale r e.1 e.2 = false) : housePass r m es = ⟨es.flatMap passed, m, true⟩ := by
  induction es with
  | nil => rfl
  | cons e es ih =>
      obtain ⟨he, hes⟩ := List.forall_mem_cons.1 h
      rw [housePass, if_neg (by simp [he]), ih hes]
      rfl

/-- **The pass up to the first element that it erases.** -/
theorem housePass_of_stale {es₁ es₂ : List (Sigma fun _ : ℕ => IpcAccum)}
    {e : Sigma fun _ : ℕ => IpcAccum} (h : ∀ e ∈ es₁, Stale r e.1 e.2 = false)
    (he : Stale r e.1 e.2 = true) :
    housePass r m (es₁ ++ e :: es₂) =
      ⟨es₁.flatMap passed ++ [.visit e.1, .notify e.2.list, .erase e.1] ++ [.advance e.1],
        m.erase e.1, false⟩ := by
  induction es₁ with
  | nil =>
      rw [List.nil_append, housePass, if_pos he]
      rfl
  | cons c es₁ ih =>
      obtain ⟨hc, hes⟩ := List.forall_mem_cons.1 h
      rw [List.cons_append, housePass, if_neg (by simp [hc]), ih hes]
      rfl

/-- **The pass does what a turn of the thread makes of it**, when nothing changes in the meantime. -/
theorem housePass_eq_houseKeep (i : AccumIn) (m : AList fun _ : ℕ => IpcAccum)
    (es : List (Sigma fun _ : ℕ => IpcAccum)) :
    (houseKeep i m es).valid = (housePass (fun _ => ⟨i.now, i.exitFlag⟩) m es).ended ∧
      (houseKeep i m es).accumMap = (housePass (fun _ => ⟨i.now, i.exitFlag⟩) m es).accumMap ∧
      (houseKeep i m es).notified =
        notified (housePass (fun _ => ⟨i.now, i.exitFlag⟩) m es).events := by
  induction es with
  | nil => exact ⟨rfl, rfl, rfl⟩
  | cons e es ih =>
      have hstale : Stale (fun _ => ⟨i.now, i.exitFlag⟩) e.1 e.2 = stale i e.2 := rfl
      rw [houseKeep, housePass, hstale]
      split_ifs
      · exact ⟨rfl, rfl, rfl⟩
      · exact ih

/-- The events of a pass that erases nothing. -/
theorem count_visit_passed {es : List (Sigma fun _ : ℕ => IpcAccum)} (guid : ℕ) :
    (es.flatMap passed).count (.visit guid) = (es.map Sigma.fst).count guid := by
  induction es with
  | nil => rfl
  | cons e es ih =>
      rw [List.flatMap_cons, List.count_append, ih, List.map_cons, List.count_cons, Nat.add_comm]
      congr 1
      by_cases hg : e.1 = guid <;> simp [passed, hg]

theorem not_mem_passed {es : List (Sigma fun _ : ℕ => IpcAccum)} {x : HouseEvent}
    (hx : (∀ guid, x ≠ .visit guid) ∧ ∀ guid, x ≠ .advance guid) : x ∉ es.flatMap passed := by
  intro hmem
  obtain ⟨e, -, he⟩ := List.mem_flatMap.1 hmem
  rcases List.mem_cons.1 he with rfl | he
  · exact hx.1 e.1 rfl
  · exact hx.2 e.1 (List.mem_singleton.1 he)

theorem notified_passed (es : List (Sigma fun _ : ℕ => IpcAccum)) :
    notified (es.flatMap passed) = [] := by
  refine List.filterMap_eq_nil_iff.2 fun x hx => ?_
  cases x with
  | notify list => exact absurd hx (not_mem_passed ⟨by simp, by simp⟩)
  | _ => rfl

/-- An ID that is in the map is that of one element. -/
theorem count_keys (m : AList fun _ : ℕ => IpcAccum) (guid : ℕ) :
    (m.entries.map Sigma.fst).count guid = if guid ∈ m then 1 else 0 := by
  have hnodup : (m.entries.map Sigma.fst).Nodup := m.nodupKeys
  split_ifs with hmem
  · exact List.count_eq_one_of_mem hnodup (AList.mem_keys.1 hmem)
  · exact List.count_eq_zero.2 fun hkey => hmem (AList.mem_keys.2 hkey)

/-- **A pass that erases nothing** does what it owes. -/
theorem housekept_of_fresh {events : List HouseEvent} {m' : AList fun _ : ℕ => IpcAccum}
    (h : ∀ e ∈ m.entries, Stale r e.1 e.2 = false) (hrun : Behaves r m events m') :
    Housekept r m events m' := by
  rw [Behaves, housePass_of_fresh h] at hrun
  have hrun' : events = m.entries.flatMap passed ∧ m' = m := hrun
  obtain ⟨rfl, rfl⟩ := hrun'
  refine ⟨fun guid => ?_, ?_, fun guid => ?_, fun before after guid hsplit hmem => ?_⟩
  · rw [count_visit_passed, count_keys]
  · have hnil : m'.entries.filter (fun e => Stale r e.1 e.2) = [] :=
      List.filter_eq_nil_iff.2 fun e he => by simp [h e he]
    rw [notified_passed, hnil, List.map_nil]
  · cases hlook : m'.lookup guid with
    | none => rfl
    | some a =>
        have hmem : (⟨guid, a⟩ : Sigma fun _ : ℕ => IpcAccum) ∈ m'.entries :=
          AList.mem_lookup_iff.1 hlook
        have hstale : Stale r guid a = false := h _ hmem
        rw [Option.filter_some, hstale]
        rfl
  · have hno : HouseEvent.erase guid ∉ m'.entries.flatMap passed :=
      not_mem_passed ⟨by simp, by simp⟩
    refine hno ?_
    rcases hsplit with hsplit | hsplit <;>
    · rw [hsplit]
      exact List.mem_append_left _ hmem

/-- **A pass that erases something** goes on with an iterator to an erased element. -/
theorem not_housekept_of_stale {events : List HouseEvent} {m' : AList fun _ : ℕ => IpcAccum}
    {e : Sigma fun _ : ℕ => IpcAccum} (he : e ∈ m.entries) (hstale : Stale r e.1 e.2 = true)
    (hrun : Behaves r m events m') : ¬ Housekept r m events m' := by
  intro hkept
  -- the first element that is to be erased
  have hfind : (m.entries.find? fun e => Stale r e.1 e.2).isSome = true :=
    List.find?_isSome.2 ⟨e, he, hstale⟩
  obtain ⟨c, hc⟩ := Option.isSome_iff_exists.1 hfind
  obtain ⟨hcstale, es₁, es₂, hentries, hes₁⟩ := List.find?_eq_some_iff_append.1 hc
  rw [Behaves, hentries, housePass_of_stale (fun e he => by simpa using hes₁ e he) hcstale] at hrun
  obtain ⟨after, hafter⟩ := hrun
  refine hkept.safe (es₁.flatMap passed ++ [.visit c.1, .notify c.2.list, .erase c.1]) after c.1
    (.inr ?_) (by simp)
  rw [← hafter]
  simp

end IpcAccumMap

open IpcAccumMap in
/-- **The pass does what it owes if and only if there is nothing to erase**: whatever an execution of the
pass does, it visits every accumulator once, reports and erases exactly those that are to be removed and
lets no iterator outlive its element just when no accumulator of the map is to be removed. -/
theorem houseKeeping_exact_iff (r : ℕ → HouseReading) (m : AList fun _ : ℕ => IpcAccum)
    {events : List HouseEvent} {m' : AList fun _ : ℕ => IpcAccum} (hrun : Behaves r m events m') :
    Housekept r m events m' ↔ ∀ guid a, m.lookup guid = some a → Stale r guid a = false := by
  constructor
  · intro hkept guid a hlook
    have hmem : (⟨guid, a⟩ : Sigma fun _ : ℕ => IpcAccum) ∈ m.entries := AList.mem_lookup_iff.1 hlook
    cases hstale : Stale r guid a with
    | true => exact absurd hkept (not_housekept_of_stale hmem hstale hrun)
    | false => rfl
  · intro hfresh
    refine housekept_of_fresh (fun e he => ?_) hrun
    exact hfresh e.1 e.2 (AList.mem_lookup_iff.2 he)

/-- One accumulator, which expires at the time 60000. -/
def sampleAccums : AList fun _ : ℕ => IpcAccum := (∅ : AList fun _ : ℕ => IpcAccum).insert 7 (.construct 0)

open IpcAccumMap in
theorem houseKeeping_exact_iff_early :
    Housekept (fun _ => ⟨59999, false⟩) sampleAccums [.visit 7, .advance 7] sampleAccums ↔
      ∀ guid a, sampleAccums.lookup guid = some a → Stale (fun _ => ⟨59999, false⟩) guid a = false :=
  houseKeeping_exact_iff (fun _ => ⟨59999, false⟩) sampleAccums ⟨rfl, rfl⟩

open IpcAccumMap in
/-- The accumulator has expired: whatever an execution of the pass does, it has advanced an iterator to
the element that it has erased. -/
theorem houseKeeping_advances_erased :
    Behaves (fun _ => ⟨60000, false⟩) sampleAccums [.visit 7, .notify [], .erase 7, .advance 7] ∅ ∧
      ∀ events m', Behaves (fun _ => ⟨60000, false⟩) sampleAccums events m' →
        [.visit 7, .notify [], .erase 7, .advance 7] <+: events ∧
          ¬ Housekept (fun _ => ⟨60000, false⟩) sampleAccums events m' := by
  have hmem : (⟨7, .construct 0⟩ : Sigma fun _ : ℕ => IpcAccum) ∈ sampleAccums.entries :=
    AList.mem_lookup_iff.1 (AList.lookup_insert _)
  refine ⟨⟨[], rfl⟩, fun events m' hrun => ⟨hrun, not_housekept_of_stale hmem (by decide) hrun⟩⟩

end CodePort
