/-
Recursive iteration.

`Recurse` walks through a tree with one cursor in each datum: a datum advances into the current sub-datum
until that cannot advance any more, and then to the next one, which it rewinds on arrival.  So the
position is spread over a chain of cursors, and the cursors off the chain do not matter.  The state of a
chain is what is still to be visited, and one step takes the first of it.

Main definitions:

* `CodePort.Datum.getRecursive` — the datum at the end of the chain of cursors;
* `CodePort.Datum.increment` — the increment operator;
* `CodePort.Datum.preorder` — the descendants of a datum in pre-order;
* `CodePort.Datum.remaining` — the descendants that are after the chain of cursors.

Main results:

* `CodePort.Datum.advance_remaining` — one step visits the first datum that remains;
* `CodePort.recurse_preorder` — **recursive iteration is a pre-order traversal**.
-/

import CodePort.DatumCursor

set_option relaxedAutoImplicit false
set_option autoImplicit false

namespace CodePort

namespace Datum

/-! ### The chain of cursors -/

mutual

/-- Return a reference to the virtual datum. -/
def getRecursive : Datum → DatumRef
  | ⟨_, self, _, iterData, datums⟩ =>
      if self then some []
      else
        match iterData with
        | none => none
        | some i => (getRecursiveAt datums i).map fun p => i :: p

/-- Return a reference to the virtual datum of the sub-datum at an index. -/
def getRecursiveAt : List Datum → ℕ → DatumRef
  | [], _ => none
  | d :: _, 0 => getRecursive d
  | _ :: ds, i + 1 => getRecursiveAt ds i

end

/-- Increment to the next virtual datum recursively. -/
def increment (d : Datum) : DatumRef × Datum :=
  let r := d.advance true
  if !d.isInert && r.1 then (r.2.getRecursive, r.2) else (none, r.2)

/-- No datum of a tree is inert. -/
inductive AllActive : Datum → Prop
  | mk {d : Datum} (active : d.isInert = false) (datums : ∀ x ∈ d.datums, AllActive x) : AllActive d

theorem AllActive.active {d : Datum} (h : d.AllActive) : d.isInert = false := by
  cases h with
  | mk hactive _ => exact hactive

theorem AllActive.datums {d x : Datum} (h : d.AllActive) (hx : x ∈ d.datums) : x.AllActive := by
  cases h with
  | mk _ hdatums => exact hdatums x hx

/-! ### Pre-order -/

mutual

/-- The descendants of a datum in pre-order: each sub-datum comes before its own descendants, and those
come before the next sub-datum. -/
def preorder : Datum → List (List ℕ)
  | ⟨_, _, _, _, datums⟩ => preorderFrom datums 0

/-- The sub-data from an index on, each with its descendants. -/
def preorderFrom : List Datum → ℕ → List (List ℕ)
  | [], _ => []
  | d :: ds, k => [k] :: (preorder d).map (fun p => k :: p) ++ preorderFrom ds (k + 1)

end

mutual

/-- The descendants that come after the virtual datum. -/
def remaining : Datum → List (List ℕ)
  | ⟨_, self, _, iterData, datums⟩ =>
      if self then preorderFrom datums 0
      else
        match iterData with
        | none => []
        | some i => remainingAt datums i 0

/-- The descendants that come after the virtual datum of the sub-datum at an index; `k` is the index of
the first sub-datum in the list. -/
def remainingAt : List Datum → ℕ → ℕ → List (List ℕ)
  | [], _, _ => []
  | d :: ds, 0, k => (remaining d).map (fun p => k :: p) ++ preorderFrom ds (k + 1)
  | _ :: ds, i + 1, k => remainingAt ds i (k + 1)

end

/-! ### Cursors aside -/

mutual

/-- A datum without its cursors. -/
def still : Datum → Datum
  | ⟨inert, _, attribs, _, datums⟩ => ⟨inert, true, attribs, none, stillAll datums⟩

/-- Data without their cursors. -/
def stillAll : List Datum → List Datum
  | [] => []
  | d :: ds => still d :: stillAll ds

end

theorem stillAll_eq (ds : List Datum) : stillAll ds = ds.map still := by
  induction ds with
  | nil => rfl
  | cons d ds ih => rw [stillAll, ih, List.map_cons]

theorem still_eq (d : Datum) : d.still = ⟨d.isInert, true, d.attribs, none, d.datums.map still⟩ := by
  cases d
  rw [still, stillAll_eq]

/-- Cursors aside, data are equal if they have the same attributes and sub-data. -/
theorem still_congr {d e : Datum} (hinert : d.isInert = e.isInert) (hattribs : d.attribs = e.attribs)
    (hdatums : d.datums.map still = e.datums.map still) : d.still = e.still := by
  rw [still_eq, still_eq, hinert, hattribs, hdatums]

theorem still_rewind (d : Datum) : d.rewind.2.still = d.still := still_congr rfl rfl rfl

theorem map_still_rewindAt (iter : Option ℕ) (ds : List Datum) :
    (rewindAt iter ds).map still = ds.map still := by
  cases iter with
  | none => rfl
  | some i =>
      apply List.ext_getElem?
      intro j
      rw [rewindAt, List.getElem?_map, List.getElem?_map, List.getElem?_modify]
      cases ds[j]? with
      | none => rfl
      | some x =>
          by_cases hj : i = j
          · simp [hj, still_rewind]
          · simp [hj]

/-! ### The sub-datum at an index -/

theorem advanceAt_eq {ds : List Datum} {i : ℕ} {x : Datum} (h : ds[i]? = some x) :
    advanceAt ds i = ((x.advance true).1, ds.set i (x.advance true).2) := by
  induction ds generalizing i with
  | nil => simp at h
  | cons d ds ih =>
      cases i with
      | zero =>
          obtain rfl : d = x := by simpa using h
          rfl
      | succ i =>
          rw [advanceAt, ih (by simpa using h), List.set_cons_succ]

theorem getRecursiveAt_eq {ds : List Datum} {i : ℕ} {x : Datum} (h : ds[i]? = some x) :
    getRecursiveAt ds i = x.getRecursive := by
  induction ds generalizing i with
  | nil => simp at h
  | cons d ds ih =>
      cases i with
      | zero =>
          obtain rfl : d = x := by simpa using h
          rfl
      | succ i => rw [getRecursiveAt, ih (by simpa using h)]

theorem remainingAt_eq {ds : List Datum} {i : ℕ} {x : Datum} (k : ℕ) (h : ds[i]? = some x) :
    remainingAt ds i k =
      x.remaining.map (fun p => (k + i) :: p) ++ preorderFrom (ds.drop (i + 1)) (k + i + 1) := by
  induction ds generalizing i k with
  | nil => simp at h
  | cons d ds ih =>
      cases i with
      | zero =>
          obtain rfl : d = x := by simpa using h
          rfl
      | succ i =>
          rw [remainingAt, ih (k + 1) (by simpa using h), List.drop_succ_cons]
          have hk : k + 1 + i = k + (i + 1) := by omega
          rw [hk]

/-- The order of the descendants of a list depends on those of its elements only. -/
theorem preorderFrom_congr {ds es : List Datum} (k : ℕ) (h : ds.map preorder = es.map preorder) :
    preorderFrom ds k = preorderFrom es k := by
  induction ds generalizing es k with
  | nil =>
      rw [List.map_nil] at h
      rw [List.map_eq_nil_iff.1 h.symm]
  | cons d ds ih =>
      cases es with
      | nil => simp at h
      | cons e es =>
          rw [List.map_cons, List.map_cons, List.cons.injEq] at h
          rw [preorderFrom, preorderFrom, h.1, ih (k + 1) h.2]

theorem preorder_eq (d : Datum) : d.preorder = preorderFrom d.datums 0 := by
  cases d
  rfl

theorem remaining_rewind (d : Datum) : d.rewind.2.remaining = d.preorder := by
  cases d
  rfl

theorem getRecursive_rewind (d : Datum) : d.rewind.2.getRecursive = some [] := by
  cases d
  rfl

theorem map_still_advanceAt {ds : List Datum}
    (h : ∀ x ∈ ds, ∀ recurse : Bool, (x.advance recurse).2.still = x.still) (i : ℕ) :
    (advanceAt ds i).2.map still = ds.map still := by
  induction ds generalizing i with
  | nil => rfl
  | cons d ds ih =>
      cases i with
      | zero => rw [advanceAt, List.map_cons, List.map_cons, h d List.mem_cons_self true]
      | succ i =>
          rw [advanceAt, List.map_cons, List.map_cons,
            ih (fun x hx => h x (List.mem_cons_of_mem d hx)) i]

/-- **`Advance` moves cursors only.** -/
theorem still_advance (d : Datum) : ∀ recurse : Bool, (d.advance recurse).2.still = d.still := by
  induction d using tree_induction with
  | h d ih =>
      intro recurse
      cases hinert : d.isInert with
      | true => rw [advance_inert hinert]
      | false =>
          cases hself : d.self with
          | true =>
              rw [advance_self hinert hself]
              exact still_congr rfl rfl (map_still_rewindAt _ _)
          | false =>
              cases hiter : d.iterData with
              | none => rw [advance_end hinert hself hiter]
              | some i =>
                  have hin := map_still_advanceAt ih i
                  have hpast : ∀ ds, ds.map still = d.datums.map still →
                      (if recurse then advanceAt d.datums i else (false, d.datums)) = (false, ds) →
                      (d.advance recurse).2.still = d.still := by
                    intro ds hds hat
                    rw [advance_past hinert hself hiter hat]
                    exact still_congr rfl rfl ((map_still_rewindAt _ _).trans hds)
                  cases recurse with
                  | false => exact hpast d.datums rfl rfl
                  | true =>
                      cases hat : (advanceAt d.datums i).1 with
                      | false => exact hpast _ hin (Prod.ext hat rfl)
                      | true =>
                          rw [advance_into hinert hself hiter (Prod.ext hat rfl)]
                          exact still_congr rfl rfl hin

theorem preorder_still (d : Datum) : d.still.preorder = d.preorder := by
  induction d using tree_induction with
  | h d ih =>
      rw [preorder_eq, preorder_eq, still_eq]
      refine preorderFrom_congr 0 ?_
      rw [List.map_map]
      exact List.map_congr_left ih

theorem preorderFrom_drop_congr {ds es : List Datum} (n k : ℕ) (h : ds.map still = es.map still) :
    preorderFrom (ds.drop n) k = preorderFrom (es.drop n) k := by
  have hpre : ∀ l : List Datum, l.map preorder = (l.map still).map preorder := by
    intro l
    rw [List.map_map]
    exact List.map_congr_left fun x _ => (preorder_still x).symm
  refine preorderFrom_congr k ?_
  rw [List.map_drop, List.map_drop, hpre ds, hpre es, h]

theorem allActive_still {d : Datum} (h : d.AllActive) : d.still.AllActive := by
  induction d using tree_induction with
  | h d ih =>
      rw [still_eq]
      refine .mk h.active fun x hx => ?_
      obtain ⟨y, hy, rfl⟩ := List.mem_map.1 hx
      exact ih y hy (h.datums hy)

theorem allActive_of_still {d : Datum} (h : d.still.AllActive) : d.AllActive := by
  induction d using tree_induction with
  | h d ih =>
      rw [still_eq] at h
      exact .mk h.active fun x hx => ih x hx (h.datums (List.mem_map_of_mem hx))

theorem AllActive.congr {d e : Datum} (h : d.AllActive) (heq : e.still = d.still) : e.AllActive :=
  allActive_of_still (heq ▸ allActive_still h)

/-! ### One step -/

/-- The iterator to the sub-datum at an index, or the end of the list. -/
def indexOrEnd (ds : List Datum) (j : ℕ) : Option ℕ := if j < ds.length then some j else none

theorem begin_eq (ds : List Datum) : begin ds = indexOrEnd ds 0 := by
  cases ds <;> rfl

theorem following_eq (ds : List Datum) (i : ℕ) : following ds i = indexOrEnd ds (i + 1) := rfl

/-- What a step of a datum does, when `todo` are the data that remain. -/
structure Visits (d' : Datum) (moved : Bool) (todo : List (List ℕ)) : Prop where
  moved_eq : moved = !todo.isEmpty
  here : d'.getRecursive = todo.head?
  rest : d'.remaining = todo.tail

theorem remaining_of_self {d : Datum} (hself : d.self = true) : d.remaining = d.preorder := by
  cases d
  cases hself
  rfl

theorem remaining_of_end {d : Datum} (hself : d.self = false) (hiter : d.iterData = none) :
    d.remaining = [] := by
  cases d
  cases hself
  cases hiter
  rfl

theorem getRecursive_of_end {d : Datum} (hself : d.self = false) (hiter : d.iterData = none) :
    d.getRecursive = none := by
  cases d
  cases hself
  cases hiter
  rfl

section Chain

variable {d x : Datum} {i : ℕ}

/-- The virtual datum of a datum is that of the current sub-datum. -/
theorem getRecursive_of_some (hself : d.self = false) (hiter : d.iterData = some i)
    (hx : d.datums[i]? = some x) : d.getRecursive = x.getRecursive.map fun p => i :: p := by
  rw [← getRecursiveAt_eq hx]
  cases d
  cases hself
  cases hiter
  rfl

/-- What remains of a datum is what remains of the current sub-datum, and then the next sub-data. -/
theorem remaining_of_some (hself : d.self = false) (hiter : d.iterData = some i)
    (hx : d.datums[i]? = some x) :
    d.remaining =
      x.remaining.map (fun p => i :: p) ++ preorderFrom (d.datums.drop (i + 1)) (i + 1) := by
  have h := remainingAt_eq 0 hx
  rw [zero_add] at h
  rw [← h]
  cases d
  cases hself
  cases hiter
  rfl

/-- Where the virtual datum is valid, the iterator is. -/
theorem exists_current (hself : d.self = false) (hiter : d.iterData = some i)
    (h : d.getRecursive ≠ none) : ∃ x, d.datums[i]? = some x ∧ x.getRecursive ≠ none := by
  have hat : ∀ (ds : List Datum) (i : ℕ), getRecursiveAt ds i ≠ none →
      ∃ x, ds[i]? = some x ∧ x.getRecursive ≠ none := by
    intro ds
    induction ds with
    | nil => exact fun i hc => absurd rfl hc
    | cons d ds ih =>
        intro i hi
        cases i with
        | zero => exact ⟨d, rfl, hi⟩
        | succ i => exact ih i hi
  refine hat d.datums i fun hc => h ?_
  cases d
  cases hself
  cases hiter
  simp only [getRecursive, hc, Bool.false_eq_true, if_false, Option.map_none]

end Chain

/-- The position of a datum: its virtual datum is valid, or its iterator is at the end. -/
def Placed (d : Datum) : Prop := d.getRecursive = none → d.self = false ∧ d.iterData = none

/-- **Arriving at a sub-datum**, or at the end of the list. -/
theorem visits_arrive {d : Datum} {ds : List Datum} {j : ℕ} (hself : d.self = false)
    (hiter : d.iterData = indexOrEnd ds j) (hds : d.datums = rewindAt (indexOrEnd ds j) ds) :
    Visits d (indexOrEnd ds j).isSome (preorderFrom (ds.drop j) j) ∧ d.Placed := by
  by_cases hj : j < ds.length
  · have hindex : indexOrEnd ds j = some j := if_pos hj
    rw [hindex] at hiter hds ⊢
    have hget : d.datums[j]? = some (ds[j].rewind.2) := by
      rw [hds, rewindAt]
      simp [hj]
    have hrest := preorderFrom_drop_congr (j + 1) (j + 1) (map_still_rewindAt (some j) ds)
    rw [← hds] at hrest
    have hhere : d.getRecursive = some [j] := by
      rw [getRecursive_of_some hself hiter hget, getRecursive_rewind]
      rfl
    rw [List.drop_eq_getElem_cons hj, preorderFrom]
    refine ⟨⟨rfl, hhere, ?_⟩, fun hc => ?_⟩
    · rw [remaining_of_some hself hiter hget, remaining_rewind, hrest]
      rfl
    · rw [hhere] at hc
      simp at hc
  · have hindex : indexOrEnd ds j = none := if_neg hj
    rw [hindex] at hiter ⊢
    rw [List.drop_eq_nil_of_le (by omega), preorderFrom]
    exact ⟨⟨rfl, getRecursive_of_end hself hiter, remaining_of_end hself hiter⟩,
      fun _ => ⟨hself, hiter⟩⟩

/-- **One step** of a datum visits the first datum that remains. -/
theorem advance_remaining (d : Datum) (h : d.AllActive) (hplaced : d.Placed) :
    Visits (d.advance true).2 (d.advance true).1 d.remaining ∧ (d.advance true).2.Placed := by
  induction d using tree_induction with
  | h d ih =>
      cases hself : d.self with
      | true =>
          rw [advance_self h.active hself, begin_eq, remaining_of_self hself, preorder_eq]
          exact visits_arrive rfl rfl rfl
      | false =>
          cases hiter : d.iterData with
          | none =>
              rw [advance_end h.active hself hiter, remaining_of_end hself hiter]
              exact ⟨⟨rfl, getRecursive_of_end hself hiter, remaining_of_end hself hiter⟩, hplaced⟩
          | some i =>
              have hvalid : d.getRecursive ≠ none := fun hc => by
                simpa [hiter] using (hplaced hc).2
              obtain ⟨x, hx, hxvalid⟩ := exists_current hself hiter hvalid
              have hmem : x ∈ d.datums := List.mem_of_getElem? hx
              obtain ⟨hvisits, -⟩ := ih x hmem (h.datums hmem) fun hc => absurd hc hxvalid
              have hlt := (List.getElem?_eq_some_iff.1 hx).1
              have hat := advanceAt_eq hx
              have hdrop : (d.datums.set i (x.advance true).2).drop (i + 1) =
                  d.datums.drop (i + 1) := List.drop_set_of_lt (Nat.lt_succ_self i)
              rw [remaining_of_some hself hiter hx]
              cases hmoved : (x.advance true).1 with
              | false =>
                  -- reached the end node of the branch
                  have hrem : x.remaining = [] := by
                    simpa [hmoved] using hvisits.moved_eq
                  rw [hmoved] at hat
                  have hpast : d.advance true = _ := advance_past h.active hself hiter hat
                  rw [hpast, following_eq, hrem, List.map_nil, List.nil_append, ← hdrop]
                  exact visits_arrive hself rfl rfl
              | true =>
                  rw [hmoved] at hat
                  rw [advance_into h.active hself hiter hat]
                  have hset : (d.datums.set i (x.advance true).2)[i]? = some (x.advance true).2 :=
                    List.getElem?_set_self hlt
                  have hhere := getRecursive_of_some
                    (d := { d with datums := d.datums.set i (x.advance true).2 }) hself hiter hset
                  have hrest := remaining_of_some
                    (d := { d with datums := d.datums.set i (x.advance true).2 }) hself hiter hset
                  rw [hvisits.here] at hhere
                  rw [hvisits.rest, hdrop] at hrest
                  have hmoved' := hvisits.moved_eq
                  rw [hmoved] at hmoved'
                  cases hrem : x.remaining with
                  | nil => simp [hrem] at hmoved'
                  | cons p ps =>
                      rw [hrem] at hhere hrest
                      refine ⟨⟨rfl, hhere, hrest⟩, fun hc => ?_⟩
                      rw [hhere] at hc
                      simp at hc

/-! ### The descendants -/

theorem mem_preorderFrom_iff {ds : List Datum} {k : ℕ} {p : List ℕ} :
    p ∈ preorderFrom ds k ↔
      ∃ i x q, ds[i]? = some x ∧ p = (k + i) :: q ∧ (q = [] ∨ q ∈ x.preorder) := by
  induction ds generalizing k with
  | nil => simp [preorderFrom]
  | cons d ds ih =>
      rw [preorderFrom, List.cons_append, List.mem_cons, List.mem_append, List.mem_map, ih]
      constructor
      · rintro (rfl | ⟨q, hq, rfl⟩ | ⟨i, x, q, hx, rfl, hq⟩)
        · exact ⟨0, d, [], rfl, rfl, Or.inl rfl⟩
        · exact ⟨0, d, q, rfl, rfl, Or.inr hq⟩
        · exact ⟨i + 1, x, q, hx, by rw [Nat.add_right_comm, Nat.add_assoc], hq⟩
      · rintro ⟨i, x, q, hx, rfl, hq⟩
        cases i with
        | zero =>
            obtain rfl : d = x := by simpa using hx
            rcases hq with rfl | hq
            · exact Or.inl rfl
            · exact Or.inr (Or.inl ⟨q, hq, rfl⟩)
        | succ i =>
            exact Or.inr (Or.inr ⟨i, x, q, hx, by rw [Nat.add_right_comm, Nat.add_assoc], hq⟩)

/-- **Every descendant is in the order**, and nothing else is. -/
theorem mem_preorder_iff {d : Datum} {p : List ℕ} :
    p ∈ d.preorder ↔ p ≠ [] ∧ (d.at p).isSome := by
  induction p generalizing d with
  | nil =>
      rw [preorder_eq, mem_preorderFrom_iff]
      simp
  | cons i p ih =>
      rw [preorder_eq, mem_preorderFrom_iff, Datum.at]
      constructor
      · rintro ⟨j, x, q, hx, heq, hq⟩
        rw [zero_add, List.cons.injEq] at heq
        obtain ⟨rfl, rfl⟩ := heq
        rw [hx, Option.bind_some]
        refine ⟨List.cons_ne_nil _ _, ?_⟩
        rcases hq with rfl | hq
        · rfl
        · exact (ih.1 hq).2
      · rintro ⟨-, hsome⟩
        cases hx : d.datums[i]? with
        | none => simp [hx] at hsome
        | some x =>
            rw [hx, Option.bind_some] at hsome
            refine ⟨i, x, p, hx, by rw [zero_add], ?_⟩
            by_cases hp : p = []
            · exact Or.inl hp
            · exact Or.inr (ih.2 ⟨hp, hsome⟩)

/-- **The order is lexicographic**: a datum comes before its descendants, and these before whatever comes
after the datum. -/
theorem pairwise_preorder (d : Datum) : d.preorder.Pairwise (· < ·) := by
  induction d using tree_induction with
  | h d ih =>
      have hfrom : ∀ (ds : List Datum) (k : ℕ), (∀ x ∈ ds, x.preorder.Pairwise (· < ·)) →
          (preorderFrom ds k).Pairwise (· < ·) := by
        intro ds
        induction ds with
        | nil => simp [preorderFrom]
        | cons x ds ihds =>
            intro k hx
            have hlater : ∀ q, ∀ b ∈ preorderFrom ds (k + 1), k :: q < b := by
              intro q b hb
              obtain ⟨i, y, r, -, rfl, -⟩ := mem_preorderFrom_iff.1 hb
              exact List.cons_lt_cons_iff.2 (Or.inl (by omega))
            rw [preorderFrom, List.cons_append, List.pairwise_cons, List.pairwise_append]
            refine ⟨fun b hb => ?_, ?_, ihds (k + 1) fun y hy => hx y (List.mem_cons_of_mem x hy), ?_⟩
            · rcases List.mem_append.1 hb with hb | hb
              · obtain ⟨q, hq, rfl⟩ := List.mem_map.1 hb
                obtain ⟨c, cs, rfl⟩ := List.exists_cons_of_ne_nil (mem_preorder_iff.1 hq).1
                exact List.cons_lt_cons_iff.2 (Or.inr ⟨rfl, List.nil_lt_cons c cs⟩)
              · exact hlater [] b hb
            · refine List.Pairwise.map _ (fun a b hab => ?_) (hx x List.mem_cons_self)
              exact List.cons_lt_cons_iff.2 (Or.inr ⟨rfl, hab⟩)
            · intro a ha b hb
              obtain ⟨q, -, rfl⟩ := List.mem_map.1 ha
              exact hlater q b hb
      rw [preorder_eq]
      exact hfrom d.datums 0 ih

theorem at_still (d : Datum) (p : List ℕ) : d.still.at p = (d.at p).map still := by
  induction p generalizing d with
  | nil => rfl
  | cons i p ih =>
      rw [Datum.at, Datum.at, still_eq, List.getElem?_map]
      cases d.datums[i]? with
      | none => rfl
      | some x => exact ih x

theorem AllActive.at {d x : Datum} {p : List ℕ} (h : d.AllActive) (hx : d.at p = some x) :
    x.AllActive := by
  induction p generalizing d with
  | nil =>
      rw [Datum.at, Option.some_inj] at hx
      exact hx ▸ h
  | cons i p ih =>
      rw [Datum.at, Option.bind_eq_some_iff] at hx
      obtain ⟨c, hc, hx⟩ := hx
      exact ih (h.datums (List.mem_of_getElem? hc)) hx

/-! ### Whole iterations -/

/-- The datum after a number of calls of `Recurse`. -/
def recurseTimes (d : Datum) (k : ℕ) : Datum := (fun x => (x.advance true).2)^[k] d

theorem recurseTimes_succ (d : Datum) (k : ℕ) :
    d.recurseTimes (k + 1) = ((d.recurseTimes k).advance true).2 :=
  Function.iterate_succ_apply' _ k d

theorem still_recurseTimes (d : Datum) (k : ℕ) : (d.recurseTimes k).still = d.still := by
  induction k with
  | zero => rfl
  | succ k ih => rw [recurseTimes_succ, still_advance, ih]

/-- What remains after a number of calls. -/
theorem remaining_recurseTimes {d : Datum} (h : d.AllActive) (hplaced : d.Placed) (k : ℕ) :
    (d.recurseTimes k).remaining = d.remaining.drop k ∧ (d.recurseTimes k).Placed := by
  induction k with
  | zero => exact ⟨rfl, hplaced⟩
  | succ k ih =>
      have hactive := h.congr (still_recurseTimes d k)
      obtain ⟨hvisits, hnext⟩ := advance_remaining _ hactive ih.2
      rw [recurseTimes_succ]
      refine ⟨?_, hnext⟩
      rw [hvisits.rest, ih.1, List.tail_drop]

end Datum

/-- **Recursive iteration is a pre-order traversal**: of every tree of active data, wherever its cursors
are, the calls of `Recurse` or of the increment operator after a `Rewind` visit the descendants of the
root one by one in pre-order, each an active datum that nothing but cursors has changed in; every later
call fails. -/
theorem recurse_preorder (d : Datum) (h : d.AllActive) (k : ℕ) :
    ((d.rewind.2.recurseTimes k).advance true).1 = decide (k < d.preorder.length) ∧
      (d.rewind.2.recurseTimes (k + 1)).getRecursive = d.preorder[k]? ∧
      (d.rewind.2.recurseTimes k).increment =
        (d.preorder[k]?, d.rewind.2.recurseTimes (k + 1)) ∧
      (d.rewind.2.recurseTimes (k + 1)).still = d.still ∧
      ∀ p, d.preorder[k]? = some p → ∃ x y, d.at p = some x ∧
        (d.rewind.2.recurseTimes (k + 1)).at p = some y ∧ y.isInert = false ∧ y.still = x.still := by
  have hrewind : d.rewind.2.AllActive := h.congr (Datum.still_rewind d)
  have hplaced : d.rewind.2.Placed := fun hc => by
    rw [Datum.getRecursive_rewind] at hc
    simp at hc
  have hstill : ∀ n, (d.rewind.2.recurseTimes n).still = d.still := fun n =>
    (Datum.still_recurseTimes _ n).trans (Datum.still_rewind d)
  obtain ⟨hrem, hchain⟩ := Datum.remaining_recurseTimes hrewind hplaced k
  rw [Datum.remaining_rewind] at hrem
  have hactive := h.congr (hstill k)
  obtain ⟨hvisits, -⟩ := Datum.advance_remaining _ hactive hchain
  rw [hrem] at hvisits
  have hmoved : ((d.rewind.2.recurseTimes k).advance true).1 = decide (k < d.preorder.length) := by
    rw [hvisits.moved_eq]
    cases hlt : decide (k < d.preorder.length) with
    | true => simpa using hlt
    | false => simpa using hlt
  have hhere : (d.rewind.2.recurseTimes (k + 1)).getRecursive = d.preorder[k]? := by
    rw [Datum.recurseTimes_succ, hvisits.here, List.head?_drop]
  refine ⟨hmoved, hhere, ?_, hstill (k + 1), fun p hp => ?_⟩
  · rw [Datum.increment, hactive.active, hmoved, ← Datum.recurseTimes_succ, hhere]
    by_cases hk : k < d.preorder.length
    · simp [hk]
    · simp [hk]
  · obtain ⟨x, hx⟩ := Option.isSome_iff_exists.1 (Datum.mem_preorder_iff.1
      (List.mem_of_getElem? hp)).2
    have hat := Datum.at_still (d.rewind.2.recurseTimes (k + 1)) p
    rw [hstill (k + 1), Datum.at_still, hx] at hat
    obtain ⟨y, hy, hxy⟩ := Option.map_eq_some_iff.1 hat.symm
    exact ⟨x, y, hx, hy, ((h.congr (hstill (k + 1))).at hy).active, hxy⟩

/-- Adding a tree of active data to an active datum. -/
theorem Datum.AllActive.addChild {c d : Datum} (hc : c.AllActive) (h : d.AllActive) :
    (Datum.addChild c d).AllActive := by
  refine .mk h.active fun x hx => ?_
  rcases List.mem_append.1 hx with hx | hx
  · exact h.datums hx
  · rw [List.mem_singleton.1 hx]
    exact hc

/-- A datum with a sub-datum and one below that: the second call reaches the lowest. -/
theorem recurse_preorder_chain :
    ((Datum.addChild (Datum.addChild Datum.fresh Datum.fresh) Datum.fresh).rewind.2.recurseTimes
      2).getRecursive = some [0, 0] := by
  have hfresh : Datum.fresh.AllActive := .mk rfl fun x hx => absurd hx List.not_mem_nil
  exact (recurse_preorder _ ((hfresh.addChild hfresh).addChild hfresh) 1).2.1

end CodePort
