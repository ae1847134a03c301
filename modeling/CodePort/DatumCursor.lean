/-
The current datum.

Which datum is the current one is kept in two places, a flag and an iterator, and every operation of a
datum sets them in its own combination.  `Get` asks the flag first; `Erase` asks the iterator only, and
a failed `Select` sets the iterator only.  Both disagree with `Get` on a datum that is its own current
datum, and on no other.

Main definitions:

* `CodePort.Datum.getFound` — the reference to the named sub-datum;
* `CodePort.paramSelect`, `CodePort.paramGet` — how a message packet reads a parameter;
* `CodePort.Datum.Pointed` — every iterator in a tree points into its list or to the end of it;
* `CodePort.Datum.SelectAgrees`, `CodePort.Datum.EraseAgrees` — what `Select` and `Erase` are for.

Main results:

* `CodePort.World.pointed_run` — the iterators of every program stay valid;
* `CodePort.select_get_iff` — **`Select` and `Get` agree with `Get` by name if and only if the name is
  there or the datum is not its own current datum**;
* `CodePort.erase_get_iff` — **`Erase` removes the current sub-datum and nothing else, unless the datum
  is its own current datum and has sub-data**.
-/

import CodePort.InertValue

set_option relaxedAutoImplicit false
set_option autoImplicit false

namespace CodePort

namespace Datum

/-! ### References to the current datum -/

/-- Return a reference to the named sub-datum, when the search for the name has found it or not. -/
def getFound (d : Datum) (found : Option ℕ) : DatumRef :=
  if d.isInert then none else found.map fun i => [i]

/-- The datum that a reference leads to. -/
def read (d inert : Datum) (ref : DatumRef) : Datum := (ref.bind d.at).getD inert

/-- A search finds the first sub-datum with the name. -/
theorem findOr_eq_some {g : Variant} {le : Bool} {m : MemPools} {d : Datum} {name : List UInt8}
    {i : ℕ} (h : d.findOr g le m name = some i) :
    ∃ x, d.datums[i]? = some x ∧ x.nameOr g le m = name ∧
      ∀ j < i, ∀ y, d.datums[j]? = some y → y.nameOr g le m ≠ name := by
  obtain ⟨hi, hname, hfirst⟩ := List.findIdx?_eq_some_iff_getElem.1 h
  refine ⟨d.datums[i], List.getElem?_eq_getElem hi, of_decide_eq_true hname, fun j hj y hy => ?_⟩
  obtain ⟨hlen, rfl⟩ := List.getElem?_eq_some_iff.1 hy
  intro hc
  exact hfirst j hj (decide_eq_true hc)

theorem findOr_lt {g : Variant} {le : Bool} {m : MemPools} {d : Datum} {name : List UInt8} {i : ℕ}
    (h : d.findOr g le m name = some i) : i < d.datums.length := by
  obtain ⟨x, hx, -⟩ := findOr_eq_some h
  exact (List.getElem?_eq_some_iff.1 hx).1

end Datum

/-- Select a parameter of the current message. -/
def paramSelect (g : Variant) (le : Bool) (m : MemPools) (cur : Datum) (key : List UInt8) :
    Bool × Datum :=
  cur.selectFound (cur.findOr g le m key)

/-- Return the value of the selected parameter. -/
def paramGet (g : Variant) (inert cur : Datum) : Variant := (cur.read inert cur.get).attrOr g .val

namespace Datum

/-! ### Selecting by name -/

/-- **What `Select` is for**: afterwards the current datum is the one that `Get` finds by name, which is
the first one with the name or the inert datum, and a parameter that is not there reads as the value of
the inert datum. -/
structure SelectAgrees (g : Variant) (le : Bool) (m : MemPools) (d inert : Datum)
    (name : List UInt8) : Prop where
  same : (d.selectFound (d.findOr g le m name)).2.get = d.getFound (d.findOr g le m name)
  found : (d.selectFound (d.findOr g le m name)).1 = true →
    ∃ i x, (d.selectFound (d.findOr g le m name)).2.get = some [i] ∧ d.datums[i]? = some x ∧
      x.nameOr g le m = name ∧ ∀ j < i, ∀ y, d.datums[j]? = some y → y.nameOr g le m ≠ name
  failed : (d.selectFound (d.findOr g le m name)).1 = false →
    (d.selectFound (d.findOr g le m name)).2.get = none
  not_self : (d.selectFound (d.findOr g le m name)).2.get ≠ some []
  param : (paramSelect g le m d name).1 = false →
    paramGet g inert (paramSelect g le m d name).2 = inert.attrOr g .val

variable {g : Variant} {le : Bool} {m : MemPools} {inert d : Datum} {name : List UInt8}

/-- The current datum after a search that has succeeded. -/
theorem get_selectFound_some (hd : d.isInert = false) (i : ℕ) :
    (d.selectFound (some i)).2.get = some [i] := by
  rw [selectFound, hd]
  rfl

/-- The current datum after a search that has failed. -/
theorem get_selectFound_none (hd : d.isInert = false) :
    (d.selectFound none).2.get = if d.self then some [] else none := by
  rw [selectFound, hd]
  rfl

theorem selectFound_fst (hd : d.isInert = false) (found : Option ℕ) :
    (d.selectFound found).1 = found.isSome := by
  rw [selectFound, hd]
  rfl

end Datum

/-- **`Select` and `Get` agree with `Get` by name if and only if the name is there or the datum is not its
own current datum**, for every active datum, whatever has been done to it, and every name. -/
theorem select_get_iff (g : Variant) (le : Bool) (m : MemPools) (inert d : Datum)
    (hd : d.isInert = false) (name : List UInt8) :
    d.SelectAgrees g le m inert name ↔ (∃ x ∈ d.datums, x.nameOr g le m = name) ∨ d.self = false := by
  have hfound : (∃ x ∈ d.datums, x.nameOr g le m = name) ↔ (d.findOr g le m name).isSome := by
    rw [Datum.findOr, List.findIdx?_isSome, List.any_eq_true]
    simp
  rw [hfound]
  cases hf : d.findOr g le m name with
  | some i =>
      obtain ⟨x, hx, hname, hfirst⟩ := Datum.findOr_eq_some hf
      have hget := Datum.get_selectFound_some hd i
      refine iff_of_true ⟨?_, ?_, ?_, ?_, ?_⟩ (Or.inl rfl)
      · rw [hf, hget, Datum.getFound, hd]
        rfl
      · rw [hf]
        exact fun _ => ⟨i, x, hget, hx, hname, hfirst⟩
      · rw [hf, Datum.selectFound_fst hd]
        simp
      · rw [hf, hget]
        simp
      · rw [paramSelect, hf, Datum.selectFound_fst hd]
        simp
  | none =>
      have hget := Datum.get_selectFound_none hd
      constructor
      · intro h
        have hself := h.not_self
        rw [hf, hget] at hself
        cases hs : d.self with
        | false => exact Or.inr rfl
        | true => exact absurd (by rw [hs]; rfl) hself
      · rintro (hc | hs)
        · simp at hc
        · have hnone : (d.selectFound none).2.get = none := by rw [hget, hs]; rfl
          refine ⟨?_, ?_, ?_, ?_, ?_⟩
          · rw [hf, hnone, Datum.getFound, hd]
            rfl
          · rw [hf, Datum.selectFound_fst hd]
            simp
          · rw [hf]
            exact fun _ => hnone
          · rw [hf, hnone]
            simp
          · rw [paramSelect, hf, paramGet, hnone]
            exact fun _ => rfl

/-- A message with the name `"m"` and the value 7, as it is constructed and set. -/
def sampleMessage : Datum :=
  (Datum.construct exactPools [109] false).attrWrite true exactPools .val (.uint32Set 7)

/-- A message with a parameter: `Select` finds it, on a rewound message too. -/
theorem select_get_parameter :
    (sampleMessage.add true exactPools [120]).rewind.2.SelectAgrees inertValue true exactPools
      (World.initial exactPools).inertDatum [120] :=
  (select_get_iff inertValue true exactPools _ _ (by decide +kernel) [120]).2
    (Or.inl (by decide +kernel))

/-- A message without parameters, after a `ParamSelect` of `"x"`: the current datum is the message
itself, and `ParamGet` returns its value. -/
theorem select_get_message :
    ([WorldOp.create [109] false, .on (some (0, [])) (.write .val (.uint32Set 7))].foldl
        (World.step true exactPools) (World.initial exactPools)).target (some (0, [])) =
      some sampleMessage ∧
      (paramSelect inertValue true exactPools sampleMessage [120]).1 = false ∧
      (paramGet inertValue (World.initial exactPools).inertDatum
        (paramSelect inertValue true exactPools sampleMessage [120]).2).uint64Get true = 7 ∧
      ¬ sampleMessage.SelectAgrees inertValue true exactPools (World.initial exactPools).inertDatum
        [120] := by
  refine ⟨rfl, by decide +kernel, by decide +kernel, fun h => ?_⟩
  exact h.not_self (by decide +kernel)

namespace Datum

/-! ### Valid iterators -/

/-- The iterators of a datum and of all data in it point into their lists or to the end of them. -/
inductive Pointed : Datum → Prop
  | mk {d : Datum} (iter : ∀ i, d.iterData = some i → i < d.datums.length)
      (datums : ∀ x ∈ d.datums, Pointed x) : Pointed d

namespace Pointed

variable {d x : Datum}

theorem iter (h : d.Pointed) {i : ℕ} (hi : d.iterData = some i) : i < d.datums.length := by
  cases h with
  | mk hiter _ => exact hiter i hi

theorem datums (h : d.Pointed) (hx : x ∈ d.datums) : x.Pointed := by
  cases h with
  | mk _ hdatums => exact hdatums x hx

/-- The attributes, and which datum is the current one, do not matter. -/
theorem of_eq (h : d.Pointed) (hiter : x.iterData = d.iterData) (hdatums : x.datums = d.datums) :
    x.Pointed := by
  refine .mk (fun i hi => ?_) (fun y hy => ?_)
  · rw [hdatums]
    exact h.iter (hiter ▸ hi)
  · exact h.datums (hdatums ▸ hy)

theorem «at» {p : List ℕ} (h : d.Pointed) (hx : d.at p = some x) : x.Pointed := by
  induction p generalizing d with
  | nil =>
      rw [Datum.at, Option.some_inj] at hx
      exact hx ▸ h
  | cons i p ih =>
      rw [Datum.at, Option.bind_eq_some_iff] at hx
      obtain ⟨c, hc, hx⟩ := hx
      exact ih (h.datums (List.mem_of_getElem? hc)) hx

end Pointed

theorem begin_lt {ds : List Datum} {i : ℕ} (h : begin ds = some i) : i < ds.length := by
  rw [begin] at h
  split at h
  · cases h
  · obtain rfl := Option.some.inj h
    exact List.length_pos_of_ne_nil ‹_›

theorem pointed_fresh : fresh.Pointed :=
  .mk (fun _ hi => nomatch hi) (fun _ hx => absurd hx List.not_mem_nil)

/-- An assignment rewinds, all the way down. -/
theorem pointed_assign (m : MemPools) {d rhs : Datum} (h : d.Pointed) :
    (d.assign m rhs).Pointed := by
  refine assign_induction (Q := fun _ => True) (R := fun x _ => x.Pointed)
    (fun _ h _ hx => h.datums hx) (fun _ _ _ _ => trivial) pointed_fresh ?_ h trivial
  intro d rhs h _ hdatums
  cases hact : d.isInert with
  | true =>
      rw [assign_inert hact]
      exact h
  | false =>
      rw [assign_eq hact]
      refine .mk (fun i hi => ?_) (forall_of_forall₂ hdatums)
      have hlt := begin_lt hi
      rwa [← hdatums.length_eq] at hlt

theorem pointed_copy (m : MemPools) (rhs : Datum) : (rhs.copy m).Pointed :=
  pointed_assign m pointed_fresh

namespace Pointed

variable {d x : Datum}

theorem rewind (h : d.Pointed) : d.rewind.2.Pointed :=
  .mk (fun _ hi => begin_lt hi) (fun _ hx => h.datums hx)

end Pointed

/-- A list in which one element has been changed. -/
theorem forall_mem_modify {P : Datum → Prop} {ds : List Datum} {f : Datum → Datum} (i : ℕ)
    (h : ∀ x ∈ ds, P x) (hf : ∀ x, P x → P (f x)) : ∀ x ∈ ds.modify i f, P x := by
  intro x hx
  obtain ⟨j, hj⟩ := List.mem_iff_getElem?.1 hx
  rw [List.getElem?_modify] at hj
  obtain ⟨y, hy, rfl⟩ := Option.map_eq_some_iff.1 hj
  have hPy := h y (List.mem_of_getElem? hy)
  split
  · exact hf y hPy
  · exact hPy

theorem following_lt {ds : List Datum} {i j : ℕ} (h : following ds i = some j) : j < ds.length := by
  rw [following] at h
  split at h
  · obtain rfl := Option.some.inj h
    assumption
  · exact nomatch h

@[simp] theorem length_rewindAt (iter : Option ℕ) (ds : List Datum) :
    (rewindAt iter ds).length = ds.length := by
  cases iter <;> simp [rewindAt]

theorem pointed_rewindAt {ds : List Datum} (iter : Option ℕ) (h : ∀ x ∈ ds, x.Pointed) :
    ∀ x ∈ rewindAt iter ds, x.Pointed := by
  cases iter with
  | none => exact h
  | some i => exact forall_mem_modify i h fun x hx => hx.rewind

@[simp] theorem length_advanceAt (ds : List Datum) (i : ℕ) :
    (advanceAt ds i).2.length = ds.length := by
  induction ds generalizing i with
  | nil => rfl
  | cons d ds ih => cases i <;> simp [advanceAt, ih]

section Advance

variable {d : Datum} {i : ℕ}

theorem advance_inert (h : d.isInert = true) (recurse : Bool) : d.advance recurse = (false, d) := by
  cases d
  rw [advance.eq_def]
  exact if_pos h

/-- From itself, a datum advances to its first sub-datum. -/
theorem advance_self (h : d.isInert = false) (hs : d.self = true) (recurse : Bool) :
    d.advance recurse = ((begin d.datums).isSome,
      { d with
        self := false
        iterData := begin d.datums
        datums := rewindAt (begin d.datums) d.datums }) := by
  cases d
  cases h
  cases hs
  rw [advance.eq_def]
  rfl

/-- At the end of the list, a datum stays. -/
theorem advance_end (h : d.isInert = false) (hs : d.self = false) (hi : d.iterData = none)
    (recurse : Bool) : d.advance recurse = (false, d) := by
  cases d
  cases h
  cases hs
  cases hi
  rw [advance.eq_def]
  rfl

/-- From a sub-datum that cannot advance itself, a datum advances to the next one. -/
theorem advance_past (h : d.isInert = false) (hs : d.self = false) (hi : d.iterData = some i)
    {recurse : Bool} {ds : List Datum}
    (hat : (if recurse then advanceAt d.datums i else (false, d.datums)) = (false, ds)) :
    d.advance recurse = ((following ds i).isSome,
      { d with iterData := following ds i, datums := rewindAt (following ds i) ds }) := by
  cases d
  cases h
  cases hs
  cases hi
  rw [advance.eq_def]
  simp only [Bool.false_eq_true, if_false] at hat ⊢
  rw [hat]
  rfl

/-- Into a sub-datum, a datum advances as the sub-datum does. -/
theorem advance_into (h : d.isInert = false) (hs : d.self = false) (hi : d.iterData = some i)
    {ds : List Datum} (hat : advanceAt d.datums i = (true, ds)) :
    d.advance true = (true, { d with datums := ds }) := by
  cases d
  cases h
  cases hs
  cases hi
  rw [advance.eq_def]
  simp only [Bool.false_eq_true, if_false, if_true] at hat ⊢
  rw [hat]
  rfl

end Advance

mutual

theorem pointed_advance (recurse : Bool) : ∀ {d : Datum}, d.Pointed → (d.advance recurse).2.Pointed
  | ⟨true, self, attribs, iterData, datums⟩, h => by
      rw [advance_inert rfl]
      exact h
  | ⟨false, true, attribs, iterData, datums⟩, h => by
      rw [advance_self rfl rfl]
      refine .mk (fun i hi => ?_) (pointed_rewindAt _ fun x hx => h.datums hx)
      rw [length_rewindAt]
      exact begin_lt hi
  | ⟨false, false, attribs, none, datums⟩, h => by
      rw [advance_end rfl rfl rfl]
      exact h
  | ⟨false, false, attribs, some i, datums⟩, h => by
      have hlt : i < datums.length := h.iter rfl
      have hds : ∀ x ∈ datums, x.Pointed := fun x hx => h.datums hx
      have hin : ∀ x ∈ (advanceAt datums i).2, x.Pointed := pointed_advanceAt i hds
      -- where the sub-datum has not advanced, the iterator does
      have hpast : ∀ ds, (if recurse then advanceAt datums i else (false, datums)) = (false, ds) →
          (∀ x ∈ ds, x.Pointed) →
          (advance ⟨false, false, attribs, some i, datums⟩ recurse).2.Pointed := by
        intro ds hat hpointed
        rw [advance_past rfl rfl rfl hat]
        refine .mk (fun j hj => ?_) (pointed_rewindAt _ hpointed)
        rw [length_rewindAt]
        exact following_lt hj
      cases recurse with
      | false => exact hpast datums rfl hds
      | true =>
          cases hat : (advanceAt datums i).1 with
          | false => exact hpast (advanceAt datums i).2 (Prod.ext hat rfl) hin
          | true =>
              rw [advance_into rfl rfl rfl (Prod.ext hat rfl)]
              refine .mk (fun j hj => ?_) hin
              obtain rfl := Option.some.inj hj
              rwa [length_advanceAt]

theorem pointed_advanceAt :
    ∀ {ds : List Datum} (i : ℕ), (∀ x ∈ ds, x.Pointed) → ∀ x ∈ (advanceAt ds i).2, x.Pointed
  | [], _, h => h
  | d :: ds, 0, h => by
      intro x hx
      rw [advanceAt, List.mem_cons] at hx
      rcases hx with rfl | hx
      · exact pointed_advance true (h d List.mem_cons_self)
      · exact h x (List.mem_cons_of_mem d hx)
  | d :: ds, i + 1, h => by
      intro x hx
      rw [advanceAt, List.mem_cons] at hx
      rcases hx with rfl | hx
      · exact h x List.mem_cons_self
      · exact pointed_advanceAt i (fun y hy => h y (List.mem_cons_of_mem d hy)) x hx

end

theorem pointed_construct (m : MemPools) (name : List UInt8) (inert : Bool) :
    (construct m name inert).Pointed := by
  refine Pointed.rewind ?_
  cases inert with
  | false =>
      rw [nameSet]
      refine pointed_fresh.of_eq ?_ ?_ <;> split_ifs <;> rfl
  | true => exact pointed_fresh.of_eq rfl rfl

theorem pointed_modifyAt {f : Datum → Datum} (hf : ∀ x : Datum, x.Pointed → (f x).Pointed)
    (p : List ℕ) {d : Datum} (h : d.Pointed) : (modifyAt f p d).Pointed := by
  induction p generalizing d with
  | nil => exact hf d h
  | cons i p ih =>
      refine .mk (fun j hj => ?_) (forall_mem_modify i (fun x hx => h.datums hx) fun x hx => ih hx)
      rw [modifyAt, List.length_modify]
      exact h.iter hj

section Apply

variable {d : Datum} {m : MemPools}

theorem pointed_addFound (h : d.Pointed) (rhs : Datum) (name : List UInt8) {found : Option ℕ}
    (hfound : ∀ i, found = some i → i < d.datums.length) :
    (d.addFound m rhs name found).Pointed := by
  have hadded : Pointed
      { d with
        self := false, iterData := some d.datums.length, datums := d.datums ++ [rhs.copy m] } := by
    refine .mk (fun i hi => ?_) (fun x hx => ?_)
    · obtain rfl := Option.some.inj hi
      simp
    · rcases List.mem_append.1 hx with hx | hx
      · exact h.datums hx
      · rw [List.mem_singleton.1 hx]
        exact pointed_copy m rhs
  rw [addFound]
  split
  · exact h
  · cases found with
    | none => exact hadded
    | some k =>
        dsimp only
        split
        · refine .mk (fun i hi => ?_)
            (forall_mem_modify k (fun x hx => h.datums hx) fun x hx => pointed_assign m hx)
          obtain rfl := Option.some.inj hi
          rw [List.length_modify]
          exact hfound k rfl
        · exact hadded

theorem pointed_selectFound (h : d.Pointed) {found : Option ℕ}
    (hfound : ∀ i, found = some i → i < d.datums.length) : (d.selectFound found).2.Pointed := by
  rw [selectFound]
  split
  · exact h
  · exact .mk hfound fun x hx => h.datums hx

theorem pointed_eraseFound (h : d.Pointed) (found : Option ℕ) : (d.eraseFound found).2.Pointed := by
  cases found with
  | none => exact h
  | some i => exact .mk (fun _ hi => nomatch hi) fun x hx => h.datums (List.mem_of_mem_eraseIdx hx)

/-- `Erase` is the removal of what the iterator points to. -/
theorem erase_eq (d : Datum) : d.erase = d.eraseFound d.iterData := by
  rw [erase.eq_def, eraseFound.eq_def]

/-- **Every operation of a datum** leaves its iterators valid. -/
theorem pointed_apply (le : Bool) (m : MemPools) (g : Variant) (h : d.Pointed) (op : DatumOp) :
    (d.apply le m g op).2.Pointed := by
  cases op with
  | nameSet name =>
      rw [apply, nameSet, attrDel]
      refine h.of_eq ?_ ?_ <;> split_ifs <;> rfl
  | attrSet type var =>
      rw [apply, attrSet]
      refine h.of_eq ?_ ?_ <;> split_ifs <;> rfl
  | attrDel type =>
      rw [apply, attrDel]
      refine h.of_eq ?_ ?_ <;> split_ifs <;> rfl
  | unitsSet units =>
      rw [apply, unitsSet, textSet]
      refine h.of_eq ?_ ?_ <;> split_ifs <;> rfl
  | infoSet info =>
      rw [apply, infoSet, textSet]
      refine h.of_eq ?_ ?_ <;> split_ifs <;> rfl
  | choicesSet choices =>
      rw [apply, choicesSet, textSet]
      refine h.of_eq ?_ ?_ <;> split_ifs <;> rfl
  | write type op =>
      rw [apply]
      refine h.of_eq ?_ ?_ <;> split_ifs <;> rfl
  | convert op =>
      rw [apply]
      refine h.of_eq ?_ ?_ <;> dsimp only <;> split_ifs <;> rfl
  | assign rhs => exact pointed_assign m h
  | clear =>
      rw [apply]
      dsimp only
      split
      · exact h
      · exact pointed_assign m h
  | addDatum rhs => exact pointed_addFound h _ _ fun i hi => findOr_lt hi
  | add name => exact pointed_addFound h _ _ fun i hi => findOr_lt hi
  | select name => exact pointed_selectFound h fun i hi => findOr_lt hi
  | rewind => exact h.rewind
  | next => exact pointed_advance false h
  | recurse => exact pointed_advance true h
  | erase =>
      rw [apply, erase_eq]
      exact pointed_eraseFound h _
  | eraseName name => exact pointed_eraseFound h _

end Apply

end Datum

namespace World

/-- The iterators of all data of a program are valid. -/
structure Pointed (w : World) : Prop where
  inert : w.inertDatum.Pointed
  data : ∀ d ∈ w.data, d.Pointed

variable {w : World}

theorem Pointed.target (h : w.Pointed) {ref : Option (ℕ × List ℕ)} {d : Datum}
    (hd : w.target ref = some d) : d.Pointed := by
  rcases ref with _ | ⟨i, path⟩
  · rw [World.target, Option.some_inj] at hd
    exact hd ▸ h.inert
  · rw [World.target, Option.bind_eq_some_iff] at hd
    obtain ⟨x, hx, hd⟩ := hd
    exact (h.data x (List.mem_of_getElem? hx)).at hd

/-- **One operation of a program** leaves the iterators valid. -/
theorem pointed_step (le : Bool) (m : MemPools) (h : w.Pointed) (o : WorldOp) :
    (w.step le m o).Pointed := by
  have hadd : ∀ new : List Datum, (∀ d ∈ new, d.Pointed) →
      Pointed { w with data := w.data ++ new } := by
    intro new hnew
    refine ⟨h.inert, fun d hd => ?_⟩
    rcases List.mem_append.1 hd with hd | hd
    · exact h.data d hd
    · exact hnew d hd
  cases o with
  | create name inert => exact hadd _ (by simp [Datum.pointed_construct])
  | copy ref =>
      refine hadd _ fun d hd => ?_
      obtain ⟨x, -, rfl⟩ := Option.map_eq_some_iff.1 (Option.mem_toList.1 hd)
      exact Datum.pointed_copy m x
  | on ref op =>
      rcases ref with _ | ⟨i, path⟩
      · exact ⟨Datum.pointed_apply le m _ h.inert op, h.data⟩
      · rw [step]
        split
        · exact h
        · exact ⟨h.inert, Datum.forall_mem_modify i h.data fun x hx =>
            Datum.pointed_modifyAt (fun y hy => Datum.pointed_apply le m _ hy op) path hx⟩

/-- **Every program** leaves the iterators valid. -/
theorem pointed_run (le : Bool) (m : MemPools) (ops : List WorldOp) :
    (ops.foldl (step le m) (initial m)).Pointed := by
  refine List.foldlRecOn ops (step le m) ?_ fun w h o _ => pointed_step le m h o
  exact ⟨Datum.pointed_construct m _ true, by simp [initial]⟩

end World

/-! ### Erasing the current datum -/

namespace Datum

/-- **What `Erase` is for**: it removes the current datum, if that is a sub-datum, keeps the others in
order and leaves no cursor, and it does nothing otherwise. -/
structure EraseAgrees (d : Datum) : Prop where
  current : ∀ i, d.get = some [i] → ∃ pre x post, d.datums = pre ++ x :: post ∧ pre.length = i ∧
    d.erase = (true, { d with datums := pre ++ post, iterData := none }) ∧ d.erase.2.get = none
  other : d.get = some [] ∨ d.get = none → d.erase = (false, d)

theorem get_of_self {d : Datum} (h : d.self = true) : d.get = some [] := if_pos h

theorem get_of_not_self {d : Datum} (h : d.self = false) :
    d.get = d.iterData.map fun i => [i] := by
  rw [get, h]
  rfl

theorem erase_of_some {d : Datum} {i : ℕ} (h : d.iterData = some i) :
    d.erase = (true, { d with datums := d.datums.eraseIdx i, iterData := none }) := by
  rw [erase.eq_def, h]

theorem erase_of_none {d : Datum} (h : d.iterData = none) : d.erase = (false, d) := by
  rw [erase.eq_def, h]

/-- **One `Erase`** does what it is for if and only if the datum is not its own current datum, or its
iterator is at the end. -/
theorem eraseAgrees_iff {d : Datum} (h : d.Pointed) :
    d.EraseAgrees ↔ d.self = false ∨ d.iterData = none := by
  constructor
  · intro hagrees
    cases hs : d.self with
    | false => exact Or.inl rfl
    | true =>
        refine Or.inr ?_
        cases hi : d.iterData with
        | none => rfl
        | some i =>
            have hother := hagrees.other (Or.inl (get_of_self hs))
            rw [erase_of_some hi] at hother
            simp at hother
  · intro hcond
    cases hi : d.iterData with
    | none =>
        refine ⟨fun i hget => ?_, fun _ => erase_of_none hi⟩
        rw [get, hi] at hget
        split_ifs at hget <;> simp at hget
    | some i =>
        have hs : d.self = false := hcond.resolve_right (by simp [hi])
        have hlt := h.iter hi
        have hget : d.get = some [i] := by
          rw [get_of_not_self hs, hi]
          rfl
        refine ⟨fun j hj => ?_, fun hj => ?_⟩
        · obtain rfl : i = j := by simpa [hget] using hj
          have hsplit : d.datums = d.datums.take i ++ d.datums[i] :: d.datums.drop (i + 1) := by
            rw [List.getElem_cons_drop, List.take_append_drop]
          refine ⟨d.datums.take i, d.datums[i], d.datums.drop (i + 1), hsplit, ?_, ?_, ?_⟩
          · rw [List.length_take, min_eq_left hlt.le]
          · rw [erase_of_some hi, List.eraseIdx_eq_take_drop_succ]
          · rw [erase_of_some hi, get_of_not_self (by exact hs)]
            rfl
        · rw [hget] at hj
          simp at hj

end Datum

/-- **`Erase` removes the current sub-datum and nothing else, unless the datum is its own current datum
and has sub-data**: for every active datum of every program, after any operations, `Erase` does what it is
for if and only if the datum is not its own current datum, or its iterator is at the end. -/
theorem erase_get_iff (le : Bool) (m : MemPools) (ops : List WorldOp) (ref : Option (ℕ × List ℕ))
    (d : Datum) (hd : (ops.foldl (World.step le m) (World.initial m)).target ref = some d) :
    d.EraseAgrees ↔ d.self = false ∨ d.iterData = none :=
  Datum.eraseAgrees_iff ((World.pointed_run le m ops).target hd)

/-- `Erase` of the parameter that has just been added. -/
theorem erase_get_added : (sampleMessage.add true exactPools [120]).EraseAgrees :=
  (erase_get_iff true exactPools [.create [109] false, .on (some (0, [])) (.write .val (.uint32Set 7)),
    .on (some (0, [])) (.add [120])] (some (0, [])) _ rfl).2 (Or.inl (by decide +kernel))

/-- A message with a parameter that has been rewound: the current datum is the message, and `Erase`
removes the parameter. -/
theorem erase_get_rewound :
    ([WorldOp.create [109] false, .on (some (0, [])) (.write .val (.uint32Set 7)),
        .on (some (0, [])) (.add [120]), .on (some (0, [])) .rewind].foldl
        (World.step true exactPools) (World.initial exactPools)).target (some (0, [])) =
      some (sampleMessage.add true exactPools [120]).rewind.2 ∧
      (sampleMessage.add true exactPools [120]).rewind.2.get = some [] ∧
      (sampleMessage.add true exactPools [120]).rewind.2.erase.1 = true ∧
      (sampleMessage.add true exactPools [120]).rewind.2.erase.2.datums = [] ∧
      ¬ (sampleMessage.add true exactPools [120]).rewind.2.EraseAgrees := by
  have hget : (sampleMessage.add true exactPools [120]).rewind.2.get = some [] := rfl
  have herase : (sampleMessage.add true exactPools [120]).rewind.2.erase.1 = true := by decide +kernel
  refine ⟨rfl, hget, herase, rfl, fun h => ?_⟩
  rw [h.other (Or.inl hget)] at herase
  simp at herase

end CodePort
