/-
The list of an accumulator, link by link.

An accumulator has no more than a pointer to its first segment; each segment holds a pointer to the
next one.  `SubmitSegment` walks along the links with two pointers, and puts the segment in front of
the first one with a greater number, or behind the last one.

Main definitions:

* `CodePort.SegHeap` — the segments at their addresses, and their links;
* `CodePort.LinkedAccum` — the accumulator, with `submitSegment` and `messageGet`;
* `CodePort.SegHeap.insertLoop` — the search for the place of a segment;
* `CodePort.LinkedAccum.Represents` — the accumulator has the segments of a list.

Main results:

* `CodePort.LinkedAccum.insertLoop_spec` — what the search finds, and links;
* `CodePort.LinkedAccum.Represents.submitSegment` — **every segment stays reachable exactly once**: a
  submission does to the links what `IpcAccum.submitSegment` does to the list;
* `CodePort.accum_stable_sort` — **the message is what was submitted, sorted, and stable**.
-/

import CodePort.IpcAccum
import CodePort.LinkedQueue

set_option relaxedAutoImplicit false
set_option autoImplicit false

namespace CodePort

open LinkedQueue StableInsert

/-- The segments at their addresses, and the links to the next ones. -/
structure SegHeap where
  seg : ℕ → IpcSegment
  next : ℕ → Option ℕ

namespace SegHeap

/-- The fragment number of the segment at an address. -/
def fragNum (h : SegHeap) (p : ℕ) : ℕ := (h.seg p).fragNum

/-- The segment at an address, with the address. -/
def deref (h : SegHeap) (p : ℕ) : SegPtr := ⟨p, h.seg p⟩

/-- Set the link of a segment. -/
def nextSet (h : SegHeap) (p : ℕ) (next : Option ℕ) : SegHeap :=
  { h with next := Function.update h.next p next }

end SegHeap

/-- The segment accumulator class, with a pointer to the first segment. -/
structure LinkedAccum where
  /-- Accumulation expiration time. -/
  timeout : ℕ
  /-- Total number of segments in this message. -/
  total : ℕ
  /-- Number of segments received. -/
  received : ℕ
  /-- Pointer to the head of the segment list. -/
  ptrHead : Option ℕ

/-- The pointers when the search of `SubmitSegment` is over.  The segment is NULL if it was inserted. -/
structure ListSearch where
  ptrSegment : Option ℕ
  ptrPrev : Option ℕ
  ptrHead : Option ℕ
  heap : SegHeap

/-- The loop of `SubmitSegment` over the list with the given head. -/
def SegHeap.insertLoop (p : ℕ) (ptrHead ptrPrev ptrCurr : Option ℕ) (heap : SegHeap) :
    Option ListSearch :=
  match ptrCurr with
  | none => some ⟨some p, ptrPrev, ptrHead, heap⟩
  | some curr =>
      -- insert segment immediately before a higher fragment number
      if heap.fragNum p < heap.fragNum curr then
        let heap := heap.nextSet p (some curr)
        match ptrPrev with
        | none => some ⟨none, none, some p, heap⟩
        | some prev => some ⟨none, some prev, ptrHead, heap.nextSet prev (some p)⟩
      else heap |>.insertLoop p ptrHead (some curr) (heap.next curr)
partial_fixpoint

namespace LinkedAccum

/-- The constructor, at time `now`. -/
def construct (now : ℕ) : LinkedAccum := ⟨now + ipcAccumulatorTimeout, 0, 0, none⟩

/-- Submit a segment for accumulation; there is no result if the walk along the links does not end. -/
def submitSegment (a : LinkedAccum) (heap : SegHeap) (ptrSegment : Option ℕ) :
    Option (LinkedAccum × SegHeap) :=
  match ptrSegment with
  | none => some (a, heap)
  | some p =>
      let a := { a with
        received := (a.received + 1) % 2 ^ 32
        -- check if this is the highest numbered segment
        total := if (heap.deref p).multipart && (heap.deref p).initial then heap.fragNum p else a.total }
      match a.ptrHead with
      | none => some ({ a with ptrHead := some p }, heap)
      | some head => do
          let r ← heap.insertLoop p (some head) none (some head)
          match r.ptrSegment, r.ptrPrev with
          | none, _ => some ({ a with ptrHead := r.ptrHead }, r.heap)
          -- insert segment at end if it wasn't inserted somewhere in the list
          | some p, some prev => some ({ a with ptrHead := r.ptrHead }, r.heap.nextSet prev (some p))
          | some p, none => some ({ a with ptrHead := some p }, r.heap)

/-- Get the received set of segments.  The result is what the function returns, and the pointer. -/
def messageGet (a : LinkedAccum) (ptrSegment : Option ℕ) : Bool × Option ℕ × LinkedAccum :=
  if a.ptrHead = none then (false, ptrSegment, a) else (true, a.ptrHead, { a with ptrHead := none })

/-- Submit segments one after another. -/
def submitAll (a : LinkedAccum) (heap : SegHeap) : List ℕ → Option (LinkedAccum × SegHeap)
  | [] => some (a, heap)
  | p :: ps => do
      let (a, heap) ← a.submitSegment heap (some p)
      submitAll a heap ps

/-- The accumulator has the segments of a list: those that the links lead to, one after another. -/
structure Represents (a : LinkedAccum) (heap : SegHeap) (b : IpcAccum) : Prop where
  timeout_eq : a.timeout = b.timeout
  total_eq : a.total = b.total
  received_eq : a.received = b.received
  visits : Visits heap.next a.ptrHead (b.list.map SegPtr.addr)
  deref_eq : ∀ q ∈ b.list, heap.deref q.addr = q
  nodup : (b.list.map SegPtr.addr).Nodup

variable {a : LinkedAccum} {heap : SegHeap} {b : IpcAccum} {p : ℕ}

/-- **What the search finds, and links.**  The elements before `pCurr` have no greater numbers.  Either the
segment is linked between two elements or in front of all, and then it is where insertion by number puts
it; or it belongs behind all of them, and nothing has been linked. -/
theorem insertLoop_spec {ptrHead : Option ℕ} {rest : List ℕ} :
    ∀ {done : List ℕ} {ptrCurr : Option ℕ}, Visits heap.next ptrHead (done ++ rest) →
      Visits heap.next ptrCurr rest → (done ++ rest).Nodup → p ∉ done ++ rest →
      (∃ prev head next, heap.insertLoop p ptrHead done.getLast? ptrCurr =
          some ⟨none, prev, head, { heap with next := next }⟩ ∧
        Visits next head (done ++ insertByKey heap.fragNum p rest) ∧
        ∀ q ∉ p :: (done ++ rest), next q = heap.next q) ∨
      heap.insertLoop p ptrHead done.getLast? ptrCurr =
          some ⟨some p, (done ++ rest).getLast?, ptrHead, heap⟩ ∧
        insertByKey heap.fragNum p rest = rest ++ [p] := by
  induction rest with
  | nil =>
      intro done ptrCurr h hcurr hnodup hp
      obtain rfl : ptrCurr = none := hcurr
      refine .inr ⟨?_, rfl⟩
      rw [SegHeap.insertLoop, List.append_nil]
  | cons c rest ih =>
      intro done ptrCurr h hcurr hnodup hp
      obtain ⟨rfl, hrest⟩ := hcurr
      rw [SegHeap.insertLoop]
      by_cases hlt : heap.fragNum p < heap.fragNum c
      · -- this is the place: the link of the segment first, then the one before it
        have hvisits : Visits (Function.update heap.next p (some c)) ptrHead (done ++ c :: rest) := by
          refine h.congr fun q hq => Function.update_of_ne ?_ _ _
          rintro rfl
          exact hp hq
        have hsplice := hvisits.splice hnodup hp (Function.update_self p (some c) heap.next)
        refine .inl ⟨done.getLast?, if done = [] then some p else ptrHead,
          linkBehind (Function.update heap.next p (some c)) done.getLast? p, ?_, ?_, fun q hq => ?_⟩
        · rw [if_pos hlt]
          rcases List.eq_nil_or_concat done with rfl | ⟨done, d, rfl⟩
          · rfl
          · rw [List.concat_eq_append, List.getLast?_concat, if_neg (by simp)]
            rfl
        · rw [insertByKey, if_pos hlt]
          exact hsplice
        · obtain ⟨hqp, hq⟩ := not_or.1 (mt List.mem_cons.2 hq)
          have hlast : done.getLast? ≠ some q := fun hlast =>
            hq (List.mem_append_left _ (List.mem_of_getLast? hlast))
          rw [linkBehind_of_ne hlast, Function.update_of_ne hqp]
      · have hdone : done ++ c :: rest = done ++ [c] ++ rest := by simp
        rw [hdone] at h hnodup hp ⊢
        have hrec := ih h hrest hnodup hp
        rw [List.getLast?_concat] at hrec
        rw [if_neg hlt, insertByKey, if_neg hlt]
        rcases hrec with ⟨prev, head, next, hrun, hlinks, hframe⟩ | ⟨hrun, hend⟩
        · rw [List.append_assoc, List.singleton_append] at hlinks
          exact .inl ⟨prev, head, next, hrun, hlinks, hframe⟩
        · exact .inr ⟨hrun, by rw [hend]; rfl⟩

/-- **A submission** puts the segment where insertion by number puts it, and changes no link outside the
list. -/
theorem submitSegment_spec {l : List ℕ} (h : Visits heap.next a.ptrHead l) (hnodup : l.Nodup)
    (hp : p ∉ l) (hdetached : heap.next p = none) :
    ∃ head next, a.submitSegment heap (some p) =
        some ({ a with
          received := (a.received + 1) % 2 ^ 32
          total := if (heap.deref p).multipart && (heap.deref p).initial then heap.fragNum p else a.total
          ptrHead := head }, { heap with next := next }) ∧
      Visits next head (insertByKey heap.fragNum p l) ∧ ∀ q ∉ p :: l, next q = heap.next q := by
  cases hhead : a.ptrHead with
  | none =>
      rw [hhead] at h
      obtain rfl : l = [] := List.head?_eq_none_iff.1 h.head?_eq
      refine ⟨some p, heap.next, ?_, ⟨rfl, hdetached⟩, fun q _ => rfl⟩
      simp only [submitSegment, hhead]
  | some first =>
      rw [hhead] at h
      have hsearch := @insertLoop_spec heap p (some first) l [] (some first) h h hnodup hp
      simp only [List.getLast?_nil, List.nil_append] at hsearch
      rcases hsearch with ⟨prev, head, next, hrun, hlinks, hframe⟩ | ⟨hrun, hend⟩
      · refine ⟨head, next, ?_, hlinks, hframe⟩
        simp only [submitSegment, hhead, hrun, Option.bind_eq_bind, Option.bind_some]
      · -- the segment goes behind the last one
        have hne : l ≠ [] := by
          rintro rfl
          exact absurd h (Option.some_ne_none first)
        obtain ⟨l, d, rfl⟩ := (List.eq_nil_or_concat l).resolve_left hne
        rw [List.concat_eq_append] at *
        rw [List.getLast?_concat] at hrun
        have hsplice := @Visits.splice ℕ heap.next _ (some first) (l ++ [d]) [] p (by simpa using h)
          (by simpa using hnodup) (by simpa using hp) hdetached
        rw [List.getLast?_concat, if_neg hne] at hsplice
        refine ⟨some first, linkBehind heap.next (some d) p, ?_, ?_, fun q hq => ?_⟩
        · simp only [submitSegment, hhead, hrun, Option.bind_eq_bind, Option.bind_some]
          rfl
        · rw [hend]
          exact hsplice
        · obtain ⟨-, hq⟩ := not_or.1 (mt List.mem_cons.2 hq)
          refine linkBehind_of_ne fun hdq => hq ?_
          obtain rfl : d = q := Option.some.inj hdq
          exact List.mem_append_right l List.mem_cons_self

/-- The list of segments is the list of their addresses, looked up. -/
theorem Represents.list_eq (h : a.Represents heap b) :
    b.list = (b.list.map SegPtr.addr).map heap.deref := by
  have hid : b.list.map (heap.deref ∘ SegPtr.addr) = b.list.map id := List.map_congr_left h.deref_eq
  rw [List.map_map, hid, List.map_id]

/-- **A submission does to the links what it does to the list.** -/
theorem Represents.submitSegment (h : a.Represents heap b) (hp : p ∉ b.list.map SegPtr.addr)
    (hdetached : heap.next p = none) :
    ∃ a' next, a.submitSegment heap (some p) = some (a', { heap with next := next }) ∧
      a'.Represents { heap with next := next } (b.submitSegment (heap.deref p)) ∧
      ∀ q ∉ p :: b.list.map SegPtr.addr, next q = heap.next q := by
  obtain ⟨head, next, hrun, hlinks, hframe⟩ := submitSegment_spec h.visits h.nodup hp hdetached
  have hlist : (b.submitSegment (heap.deref p)).list =
      (insertByKey heap.fragNum p (b.list.map SegPtr.addr)).map heap.deref := by
    have hmap := map_insertByKey SegPtr.fragNum heap.deref p (b.list.map SegPtr.addr)
    rw [← h.list_eq] at hmap
    exact hmap.symm
  have haddr : (b.submitSegment (heap.deref p)).list.map SegPtr.addr =
      insertByKey heap.fragNum p (b.list.map SegPtr.addr) := by
    rw [hlist, List.map_map]
    exact List.map_id _
  have hnodup := (perm_insertByKey heap.fragNum p (b.list.map SegPtr.addr)).nodup_iff.2
    (List.nodup_cons.2 ⟨hp, h.nodup⟩)
  refine ⟨_, next, hrun, ⟨h.timeout_eq, ?_, ?_, ?_, ?_, ?_⟩, hframe⟩
  · rw [h.total_eq]
    rfl
  · rw [h.received_eq]
    rfl
  · rw [haddr]
    exact hlinks
  · intro q hq
    rw [hlist] at hq
    obtain ⟨c, -, rfl⟩ := List.mem_map.1 hq
    rfl
  · rw [haddr]
    exact hnodup

/-- **Submissions one after another** do to the links what they do to the list. -/
theorem Represents.submitAll {ps : List ℕ} (h : a.Represents heap b)
    (hnodup : (ps ++ b.list.map SegPtr.addr).Nodup) (hdetached : ∀ p ∈ ps, heap.next p = none) :
    ∃ a' next, a.submitAll heap ps = some (a', { heap with next := next }) ∧
      a'.Represents { heap with next := next } (b.submitAll (ps.map heap.deref)) := by
  induction ps generalizing a heap b with
  | nil => exact ⟨a, heap.next, rfl, h⟩
  | cons p ps ih =>
      obtain ⟨hp, hnodup'⟩ := List.nodup_cons.1 hnodup
      obtain ⟨hdet, hdetached'⟩ := List.forall_mem_cons.1 hdetached
      obtain ⟨hps, hlist⟩ := not_or.1 (mt List.mem_append.2 hp)
      obtain ⟨a₁, next₁, hrun₁, hrep₁, hframe⟩ := h.submitSegment hlist hdet
      have hperm := (perm_insertByKey SegPtr.fragNum (heap.deref p) b.list).map SegPtr.addr
      have hnodup₁ : (ps ++ (b.submitSegment (heap.deref p)).list.map SegPtr.addr).Nodup :=
        ((hperm.append_left ps).trans List.perm_middle).nodup_iff.2 hnodup
      have hdetached₁ : ∀ q ∈ ps, next₁ q = none := by
        intro q hq
        rw [hframe q, hdetached' q hq]
        intro hmem
        rcases List.mem_cons.1 hmem with rfl | hmem
        · exact hps hq
        · exact List.disjoint_of_nodup_append hnodup' hq hmem
      obtain ⟨a', next', hrun', hrep'⟩ := ih hrep₁ hnodup₁ hdetached₁
      refine ⟨a', next', ?_, hrep'⟩
      rw [LinkedAccum.submitAll, hrun₁]
      exact hrun'

end LinkedAccum

/-- Submissions are counted. -/
theorem IpcAccum.received_submitAll (now : ℕ) (l : List SegPtr) :
    ((construct now).submitAll l).received = l.length % 2 ^ 32 := by
  induction l using List.reverseRecOn with
  | nil => rfl
  | append_singleton l p ih =>
      rw [submitAll, List.foldl_append, List.length_append, List.length_singleton, Nat.add_mod, ← ih]
      simp [submitAll, submitSegment, Nat.add_mod]

open LinkedAccum in
/-- **The accumulator list is a stable sort of what arrived**: after the submission of distinct detached
segments the links lead from the pointer that `MessageGet` returns to each of them exactly once, in the
order of their fragment numbers and, where these are equal, in the order of their arrival; and the
submissions have been counted. -/
theorem accum_stable_sort (now : ℕ) (heap : SegHeap) (ps : List ℕ) (hnodup : ps.Nodup)
    (hdetached : ∀ p ∈ ps, heap.next p = none) :
    ∃ a next out, (construct now).submitAll heap ps = some (a, { heap with next := next }) ∧
      Visits next (a.messageGet none).2.1 out ∧ (a.messageGet none).1 = decide (ps ≠ []) ∧
      out.Perm ps ∧ (out.Pairwise fun p q => heap.fragNum p ≤ heap.fragNum q) ∧
      (∀ k, (out.filter fun p => heap.fragNum p = k) = ps.filter fun p => heap.fragNum p = k) ∧
      a.received = ps.length % 2 ^ 32 := by
  have hempty : (construct now).Represents heap (IpcAccum.construct now) :=
    ⟨rfl, rfl, rfl, rfl, fun q hq => absurd hq List.not_mem_nil, List.nodup_nil⟩
  have hnodup' : (ps ++ (IpcAccum.construct now).list.map SegPtr.addr).Nodup := by
    rw [IpcAccum.construct, List.map_nil, List.append_nil]
    exact hnodup
  obtain ⟨a, next, hrun, hrep⟩ := hempty.submitAll hnodup' hdetached
  have hout : ((IpcAccum.construct now).submitAll (ps.map heap.deref)).list.map SegPtr.addr =
      insertAll heap.fragNum ps := by
    have hmap := map_insertAll SegPtr.fragNum heap.deref ps
    rw [IpcAccum.list_submitAll, ← hmap, List.map_map]
    exact List.map_id _
  have hvisits := hrep.visits
  rw [hout] at hvisits
  have hperm := perm_insertAll heap.fragNum ps
  have hhead : a.ptrHead = none ↔ ps = [] := by
    rw [← hvisits.head?_eq, List.head?_eq_none_iff, ← List.length_eq_zero_iff, hperm.length_eq,
      List.length_eq_zero_iff]
  refine ⟨a, next, insertAll heap.fragNum ps, hrun, ?_, ?_, hperm, pairwise_insertAll _ ps,
    filter_insertAll _ ps, ?_⟩
  · rw [messageGet]
    split_ifs with hnone
    · rwa [hnone] at hvisits
    · exact hvisits
  · rw [messageGet]
    split_ifs with hnone
    · simp [hhead.1 hnone]
    · simp [mt hhead.2 hnone]
  · rw [hrep.received_eq, IpcAccum.received_submitAll, List.length_map]

/-- Three segments, of which the first and the last one have the same number. -/
def sampleHeap : SegHeap where
  seg p :=
    { buf :=
        { block := some (0 :: 0x20 :: 0 :: (if p = 1 then 1 else 2) :: List.replicate 20 0)
          dataLen := 24
          dataLen_le := Nat.le_of_eq rfl } }
  next _ := none

open LinkedAccum in
theorem accum_stable_sort_three :
    ∃ a next out, (construct 0).submitAll sampleHeap [0, 1, 2] =
        some (a, { sampleHeap with next := next }) ∧
      Visits next (a.messageGet none).2.1 out ∧ out.Perm [0, 1, 2] ∧
      (out.filter fun p => sampleHeap.fragNum p = 2) = [0, 2] ∧ a.received = 3 := by
  obtain ⟨a, next, out, hrun, hvisits, -, hperm, -, hstable, hreceived⟩ :=
    accum_stable_sort 0 sampleHeap [0, 1, 2] (by decide) (fun _ _ => rfl)
  exact ⟨a, next, out, hrun, hvisits, hperm, (hstable 2).trans (by decide), hreceived⟩

end CodePort
