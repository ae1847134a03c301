/-
The sub-data as an ordered map.

`Add` looks for the name first: a name that is there is assigned to in place, and any other one is
appended.  So the sub-data are an ordered map from names, in which what has no name is kept too.  What
is found under a name is equal to what was last added under it, as long as assigning makes it equal:
an inert sub-datum does not change its state, not even when a datum that contains it is assigned to.

Main definitions:

* `CodePort.DatumOp.OnMap`, `CodePort.DatumOp.mapOp` — the operations of the map;
* `CodePort.DatumOp.Faithful`, `CodePort.Datum.MapRun` — what makes equal what is assigned to, step by step;
* `CodePort.DatumOp.Effect` — what an operation does to the other sub-data;
* `CodePort.Datum.IsMap` — what a map is for, after a series of operations.

Main results:

* `CodePort.Datum.children_apply` — **every operation is the one of a list with keys**;
* `CodePort.datum_isMap` — **the sub-data are an ordered map over the names.**
-/

import CodePort.DatumSound
import CodePort.KeyedList

set_option relaxedAutoImplicit false
set_option autoImplicit false

namespace CodePort

/-! ### The operations of the map -/

open Datum

variable {le : Bool} {m : MemPools}

/-- The operations of the map, and what moves the cursor. -/
def DatumOp.OnMap (m : MemPools) : DatumOp → Prop
  | .add _ => True
  | .addDatum rhs => rhs.Addable m
  | .eraseName _ => True
  | .clear => True
  | .select _ => True
  | .rewind => True
  | .next => True
  | .recurse => True
  | _ => False

/-- The operation on a list with keys. -/
def DatumOp.mapOp (le : Bool) (m : MemPools) : DatumOp → KeyedList.Op (List UInt8) Datum
  | .add name => .put name (construct m name false)
  | .addDatum rhs => .put (rhs.nameGet le m) rhs
  | .eraseName name => .remove name
  | .clear => .clear
  | _ => .skip

/-- **What an addition needs**: a name is one without a zero, and a sub-datum with the name of what is added
takes that on. -/
def DatumOp.Faithful (le : Bool) (m : MemPools) (d : Datum) : DatumOp → Prop
  | .add name => 0 ∉ name
  | .addDatum rhs => ∀ x ∈ d.datums, x.nameGet le m = rhs.nameGet le m → rhs.nameGet le m ≠ [] →
      x.TakesOn le rhs
  | _ => True

/-- A sub-datum with a name, and the datum that was last added under it. -/
structure Datum.ChildOf (le : Bool) (m : MemPools) (x : Datum) (e : List UInt8 × Datum) : Prop where
  active : x.isInert = false
  name : x.nameGet le m = e.1
  equal : x.content le = e.2.content le

theorem datums_construct (m : MemPools) (name : List UInt8) : (construct m name false).datums = [] := by
  cases name with
  | nil => rw [construct_nil]; rfl
  | cons c name => rfl

/-- A new datum can be added. -/
theorem addable_construct (hm : m.Plentiful) (name : List UInt8) :
    (construct m name false).Addable m := by
  cases name with
  | nil => exact ⟨rfl, sound_construct hm [] false, fun v hv => by cases hv⟩
  | cons c name =>
      refine ⟨rfl, sound_construct hm (c :: name) false, fun v hv hblob => ?_⟩
      change Function.update fresh.attribs .name _ .name = some v at hv
      rw [Function.update_self] at hv
      obtain rfl := Option.some.inj hv
      cases hblob

/-- A new datum has the name that it was given. -/
theorem nameGet_construct (le : Bool) (hm : m.Plentiful) {name : List UInt8} (h0 : 0 ∉ name) :
    (construct m name false).nameGet le m = name := by
  cases name with
  | nil => rfl
  | cons c name =>
      have hholds := Variant.holds_strSet hm le (Variant.construct m false) (c :: name)
      have hvalue := hholds.value_eq
      rw [cStr_of_notMem h0] at hvalue
      exact Value.text.inj hvalue

/-- A new datum has no sub-data to be taken on. -/
theorem takesOn_construct (m : MemPools) {x : Datum} (hx : x.isInert = false) (name : List UInt8) :
    x.TakesOn le (construct m name false) := by
  rw [takesOn_active hx, datums_construct, AllTakeOn]
  trivial

namespace Datum

variable {d rhs : Datum} {es : List (List UInt8 × Datum)}

theorem ChildOf.key (x : Datum) (e : List UInt8 × Datum) (h : ChildOf le m x e) :
    x.nameGet le m = e.1 := h.name

/-- A sub-datum that has been assigned to. -/
theorem childOf_assign (hm : m.Plentiful) (hrhs : rhs.Addable m) {x : Datum} (hx : x.isInert = false)
    (htakes : x.TakesOn le rhs) : ChildOf le m (x.assign m rhs) (rhs.nameGet le m, rhs) where
  active := by rw [assign_eq hx, hrhs.active]
  name := nameGet_assign hm hx hrhs
  equal := (content_assign_iff hm hrhs.sound).2 htakes

/-- **`Add` puts the datum under its name.** -/
theorem children_addDatum (hm : m.Plentiful) (hd : d.isInert = false) (hrhs : rhs.Addable m)
    (htakes : ∀ x ∈ d.datums, x.isInert = false → x.nameGet le m = rhs.nameGet le m →
      rhs.nameGet le m ≠ [] → x.TakesOn le rhs)
    (h : List.Forall₂ (ChildOf le m) d.datums es) :
    (d.addDatum le m rhs).isInert = false ∧
      List.Forall₂ (ChildOf le m) (d.addDatum le m rhs).datums
        (KeyedList.put [] es (rhs.nameGet le m) rhs) := by
  have hcopy : ChildOf le m (rhs.copy m) (rhs.nameGet le m, rhs) :=
    childOf_assign hm hrhs rfl (takesOn_fresh rhs)
  rw [addDatum_eq, addFound, if_neg (by simp [hd])]
  cases hfind : d.find le m (rhs.nameGet le m) with
  | none =>
      have habsent := (KeyedList.findIdx?_eq_none_iff ChildOf.key h).1 hfind
      exact ⟨hd, KeyedList.forall₂_append hcopy (.inl habsent) h⟩
  | some k =>
      dsimp only
      split_ifs with hlen
      · have hne := List.ne_nil_of_length_pos hlen
        refine ⟨hd, KeyedList.forall₂_modify ChildOf.key ?_ hne h hfind⟩
        intro x hmem w hx
        exact childOf_assign hm hrhs hx.active (htakes x hmem hx.active hx.name hne)
      · have hnil : rhs.nameGet le m = [] := List.length_eq_zero_iff.1 (Nat.eq_zero_of_not_pos hlen)
        exact ⟨hd, KeyedList.forall₂_append hcopy (.inr hnil) h⟩

/-- What is only moved stays related. -/
theorem children_of_still {xs ds : List Datum} (h : List.Forall₂ (ChildOf le m) xs es)
    (hds : ds.map still = xs.map still) : List.Forall₂ (ChildOf le m) ds es := by
  induction h generalizing ds with
  | nil =>
      rw [List.map_nil, List.map_eq_nil_iff] at hds
      rw [hds]
      exact .nil
  | @cons x e xs es hx _ ih =>
      obtain ⟨y, ys, rfl, hy, hys⟩ := List.map_eq_cons_iff.1 hds
      exact .cons ⟨(isInert_congr hy).trans hx.active, (nameGet_congr hy).trans hx.name,
        (content_congr hy).trans hx.equal⟩ (ih hys)

theorem children_advance (recurse : Bool) (hd : d.isInert = false)
    (h : List.Forall₂ (ChildOf le m) d.datums es) :
    (d.advance recurse).2.isInert = false ∧
      List.Forall₂ (ChildOf le m) (d.advance recurse).2.datums es := by
  have hact := isInert_congr (still_advance d recurse)
  exact ⟨hact.trans hd, children_of_still h (map_still_advance d recurse)⟩

/-- `Clear` leaves nothing. -/
theorem datums_clear (le : Bool) (hm : m.Plentiful) (hd : d.isInert = false) :
    (d.clear le m).isInert = false ∧ (d.clear le m).datums = [] := by
  have hadd := addable_construct hm (d.nameGet le m)
  rw [clear, if_neg (by simp [hd]), assign_eq hd]
  refine ⟨hadd.active, ?_⟩
  dsimp only
  rw [datums_construct]
  simp [assignDatums]

/-- **Every operation is the one of a list with keys.** -/
theorem children_apply (hm : m.Plentiful) (hd : d.isInert = false) {op : DatumOp} (hop : op.OnMap m)
    (hfaith : op.Faithful le m d) (h : List.Forall₂ (ChildOf le m) d.datums es) :
    (d.apply le m inertValue op).2.isInert = false ∧
      List.Forall₂ (ChildOf le m) (d.apply le m inertValue op).2.datums
        (KeyedList.step [] es (op.mapOp le m)) := by
  cases op with
  | add name =>
      have hput := children_addDatum hm hd (addable_construct hm name)
        (fun x _ hx _ _ => takesOn_construct m hx name) h
      rwa [nameGet_construct le hm hfaith] at hput
  | addDatum rhs => exact children_addDatum hm hd hop (fun x hx _ => hfaith x hx) h
  | eraseName name =>
      change (d.eraseFound (d.find le m name)).2.isInert = false ∧
        List.Forall₂ (ChildOf le m) (d.eraseFound (d.find le m name)).2.datums (KeyedList.remove es name)
      cases hfind : d.find le m name with
      | none =>
          have habsent := (KeyedList.findIdx?_eq_none_iff ChildOf.key h).1 hfind
          rw [KeyedList.remove_of_absent habsent]
          exact ⟨hd, h⟩
      | some i => exact ⟨hd, KeyedList.forall₂_eraseIdx ChildOf.key h hfind⟩
  | clear =>
      obtain ⟨hact, hnil⟩ := datums_clear le hm hd
      refine ⟨hact, ?_⟩
      change List.Forall₂ (ChildOf le m) (d.clear le m).datums []
      rw [hnil]
      exact .nil
  | select name =>
      change (d.selectFound (d.find le m name)).2.isInert = false ∧
        List.Forall₂ (ChildOf le m) (d.selectFound (d.find le m name)).2.datums es
      rw [selectFound, if_neg (by simp [hd])]
      exact ⟨hd, h⟩
  | rewind => exact ⟨hd, h⟩
  | next => exact children_advance false hd h
  | recurse => exact children_advance true hd h
  | _ => exact hop.elim

/-! ### Series of operations -/

/-- Do something to a datum again and again. -/
def applyAll (le : Bool) (m : MemPools) (d : Datum) (ops : List DatumOp) : Datum :=
  ops.foldl (fun d op => (d.apply le m inertValue op).2) d

/-- **A series of operations of the map**, in which every addition is a faithful one. -/
def MapRun (le : Bool) (m : MemPools) : Datum → List DatumOp → Prop
  | _, [] => True
  | d, op :: ops => op.OnMap m ∧ op.Faithful le m d ∧ MapRun le m (d.apply le m inertValue op).2 ops

/-- The datum that was last added under a name, if it has not been erased since. -/
def lastAdded (le : Bool) (m : MemPools) (ops : List DatumOp) (name : List UInt8) : Option Datum :=
  KeyedList.lastPut (ops.map (DatumOp.mapOp le m)) name

/-- **Every series of operations is the one on a list with keys.** -/
theorem children_applyAll (hm : m.Plentiful) (hd : d.isInert = false)
    (h : List.Forall₂ (ChildOf le m) d.datums es) (ops : List DatumOp) (hrun : MapRun le m d ops) :
    (d.applyAll le m ops).isInert = false ∧
      List.Forall₂ (ChildOf le m) (d.applyAll le m ops).datums
        ((ops.map (DatumOp.mapOp le m)).foldl (KeyedList.step []) es) := by
  induction ops generalizing d es with
  | nil => exact ⟨hd, h⟩
  | cons op ops ih =>
      obtain ⟨hop, hfaith, hrest⟩ := hrun
      obtain ⟨hd', h'⟩ := children_apply hm hd hop hfaith h
      exact ih hd' h' hrest

/-- What adding a datum does to a datum: a new name, or none, is appended; a name that is there is
replaced in place. -/
structure AddEffect (le : Bool) (m : MemPools) (d d' rhs : Datum) : Prop where
  appended : rhs.nameGet le m = [] ∨ (∀ x ∈ d.datums, x.nameGet le m ≠ rhs.nameGet le m) →
    ∃ c, d'.datums = d.datums ++ [c] ∧ c.isInert = false ∧ c.nameGet le m = rhs.nameGet le m ∧
      c.content le = rhs.content le
  replaced : rhs.nameGet le m ≠ [] → ∀ pre x post, d.datums = pre ++ x :: post →
    x.nameGet le m = rhs.nameGet le m →
    ∃ c, d'.datums = pre ++ c :: post ∧ c.isInert = false ∧ c.nameGet le m = rhs.nameGet le m ∧
      (c.content le = rhs.content le ↔ x.TakesOn le rhs)

/-- What erasing a name does to a datum: the first sub-datum with the name goes. -/
structure EraseEffect (le : Bool) (m : MemPools) (d d' : Datum) (name : List UInt8) : Prop where
  absent : (∀ x ∈ d.datums, x.nameGet le m ≠ name) → d'.datums = d.datums
  erased : ∀ pre x post, d.datums = pre ++ x :: post → (∀ y ∈ pre, y.nameGet le m ≠ name) →
    x.nameGet le m = name → d'.datums = pre ++ post

end Datum

/-- **What an operation does to the other sub-data**: their order and contents stay. -/
def DatumOp.Effect (le : Bool) (m : MemPools) (d : Datum) (op : DatumOp) : Prop :=
  match op with
  | .add name => AddEffect le m d (d.apply le m inertValue op).2 (construct m name false)
  | .addDatum rhs => AddEffect le m d (d.apply le m inertValue op).2 rhs
  | .eraseName name => EraseEffect le m d (d.apply le m inertValue op).2 name
  | .clear => (d.apply le m inertValue op).2.datums = []
  | _ => (d.apply le m inertValue op).2.datums.map still = d.datums.map still

namespace Datum

variable {d rhs : Datum}

/-- **The sub-data are an ordered map over the names**, after a series of operations. -/
structure IsMap (le : Bool) (m : MemPools) (ops : List DatumOp) (d : Datum) : Prop where
  /-- Names are distinct. -/
  distinct : d.datums.Pairwise fun x y => x.nameGet le m = y.nameGet le m → x.nameGet le m = []
  /-- What is found under a name is equal to what was last added under it. -/
  found : ∀ name ≠ [], ∀ rhs, lastAdded le m ops name = some rhs →
    ∃ i x, d.getFound (d.find le m name) = some [i] ∧ d.datums[i]? = some x ∧ x.isInert = false ∧
      x.nameGet le m = name ∧ x.content le = rhs.content le
  /-- What was not added, or has been erased, is not found. -/
  absent : ∀ name ≠ [], lastAdded le m ops name = none → d.getFound (d.find le m name) = none
  /-- One more operation. -/
  effect : ∀ op : DatumOp, op.OnMap m → op.Effect le m d

/-- The first sub-datum with a name. -/
theorem find_append {name : List UInt8} {pre post : List Datum} {x : Datum}
    (h : d.datums = pre ++ x :: post) (hpre : ∀ y ∈ pre, y.nameGet le m ≠ name)
    (hx : x.nameGet le m = name) : d.find le m name = some pre.length := by
  have hnone : (pre.findIdx? fun y => y.nameGet le m = name) = none := by
    rw [List.findIdx?_eq_none_iff]
    intro y hy
    exact decide_eq_false (hpre y hy)
  rw [find, h, List.findIdx?_append, hnone, List.findIdx?_cons, decide_eq_true hx]
  simp

/-- The effect of `Add`. -/
theorem addEffect_addDatum (hm : m.Plentiful) (hd : d.isInert = false) (hrhs : rhs.Addable m)
    (hact : ∀ x ∈ d.datums, x.isInert = false)
    (hdist : d.datums.Pairwise fun x y => x.nameGet le m = y.nameGet le m → x.nameGet le m = []) :
    AddEffect le m d (d.addDatum le m rhs) rhs := by
  have hcopy : ∃ c, d.datums ++ [rhs.copy m] = d.datums ++ [c] ∧ c.isInert = false ∧
      c.nameGet le m = rhs.nameGet le m ∧ c.content le = rhs.content le :=
    ⟨rhs.copy m, rfl, by rw [copy, assign_eq rfl, hrhs.active], nameGet_assign hm rfl hrhs,
      (content_assign_iff hm hrhs.sound).2 (takesOn_fresh rhs)⟩
  refine ⟨fun hnew => ?_, fun hne pre x post hds hx => ?_⟩
  · rw [addDatum_eq, addFound, if_neg (by simp [hd])]
    cases hfind : d.find le m (rhs.nameGet le m) with
    | none => exact hcopy
    | some k =>
        obtain ⟨x, hx, hname, -⟩ := findOr_eq_some hfind
        have hnil : rhs.nameGet le m = [] :=
          hnew.resolve_right fun hne => hne x (List.mem_of_getElem? hx) hname
        have hlen : ¬ 0 < (rhs.nameGet le m).length := by rw [hnil]; exact Nat.lt_irrefl 0
        dsimp only
        rw [if_neg hlen]
        exact hcopy
  · have hpre : ∀ y ∈ pre, y.nameGet le m ≠ rhs.nameGet le m := by
      rw [hds, List.pairwise_append] at hdist
      intro y hy hname
      exact hne (hname.symm.trans (hdist.2.2 y hy x List.mem_cons_self (hname.trans hx.symm)))
    have hxact : x.isInert = false := hact x (by rw [hds]; simp)
    refine ⟨x.assign m rhs, ?_, by rw [assign_eq hxact, hrhs.active], nameGet_assign hm hxact hrhs,
      content_assign_iff hm hrhs.sound⟩
    rw [addDatum_eq, addFound, if_neg (by simp [hd]), find_append hds hpre hx]
    dsimp only
    rw [if_pos (List.length_pos_of_ne_nil hne), hds, List.modify_eq_set_getElem?]
    simp

/-- The effect of `Erase`. -/
theorem eraseEffect_eraseFound (name : List UInt8) :
    EraseEffect le m d (d.eraseFound (d.find le m name)).2 name := by
  refine ⟨fun hnone => ?_, fun pre x post hds hpre hx => ?_⟩
  · have hfind : d.find le m name = none := by
      rw [find, List.findIdx?_eq_none_iff]
      intro x hx
      exact decide_eq_false (hnone x hx)
    rw [hfind]
    rfl
  · rw [find_append hds hpre hx, eraseFound]
    dsimp only
    rw [hds, List.eraseIdx_append_of_length_le le_rfl, Nat.sub_self, List.eraseIdx_cons_zero]

theorem effect_apply (hm : m.Plentiful) (hd : d.isInert = false)
    (hact : ∀ x ∈ d.datums, x.isInert = false)
    (hdist : d.datums.Pairwise fun x y => x.nameGet le m = y.nameGet le m → x.nameGet le m = [])
    {op : DatumOp} (hop : op.OnMap m) : op.Effect le m d := by
  cases op with
  | add name => exact addEffect_addDatum hm hd (addable_construct hm name) hact hdist
  | addDatum rhs => exact addEffect_addDatum hm hd hop hact hdist
  | eraseName name => exact eraseEffect_eraseFound name
  | clear => exact (datums_clear le hm hd).2
  | select name =>
      change (d.selectFound (d.find le m name)).2.datums.map still = d.datums.map still
      rw [selectFound, if_neg (by simp [hd])]
  | rewind => rfl
  | next => exact map_still_advance d false
  | recurse => exact map_still_advance d true
  | _ => exact hop.elim

end Datum

open Datum

/-- **The sub-data are an ordered map over the names**, after every series of additions, erasures and
moves of the cursor in which no inert sub-datum is in the way of what is added. -/
theorem datum_isMap (le : Bool) (m : MemPools) (hm : m.Plentiful) (d : Datum)
    (hd : d.isInert = false) (hnil : d.datums = []) (ops : List DatumOp) (hrun : MapRun le m d ops) :
    IsMap le m ops (d.applyAll le m ops) := by
  have hempty : List.Forall₂ (ChildOf le m) d.datums [] := by
    rw [hnil]
    exact .nil
  obtain ⟨hact, hchildren⟩ := children_applyAll hm hd hempty ops hrun
  have hdist := KeyedList.forall₂_distinct ChildOf.key hchildren (KeyedList.distinct_run [] _)
  refine ⟨hdist, fun name hname rhs hlast => ?_, fun name hname hlast => ?_, fun op hop => ?_⟩
  · rw [lastAdded, ← KeyedList.lookup_run hname] at hlast
    obtain ⟨i, x, hfind, hx, hchild⟩ := KeyedList.forall₂_lookup ChildOf.key hchildren hlast
    refine ⟨i, x, ?_, hx, hchild.active, hchild.name, hchild.equal⟩
    rw [getFound, if_neg (by simp [hact]), find, hfind]
    rfl
  · rw [lastAdded, ← KeyedList.lookup_run hname, KeyedList.lookup_eq_none_iff] at hlast
    have hfind := (KeyedList.findIdx?_eq_none_iff ChildOf.key hchildren).2 hlast
    rw [getFound, if_neg (by simp [hact]), find, hfind]
    rfl
  · refine effect_apply hm hact (fun x hx => ?_) hdist hop
    obtain ⟨e, -, hchild⟩ := KeyedList.exists_of_mem hchildren hx
    exact hchild.active

/-- A datum with the name `"a"` and a sub-datum with the name `"b"`. -/
def activeHolder : Datum := (construct exactPools [97] false).add true exactPools [98]

/-- A datum with the name `"a"` and two sub-data. -/
def widerHolder : Datum := ((construct exactPools [97] false).add true exactPools [99]).add true exactPools [98]

/-- What can be added can still be added with another sub-datum. -/
theorem addable_add (hm : m.Plentiful) {d : Datum} (h : d.Addable m) (name : List UInt8) :
    (d.add le m name).Addable m := by
  have hsame : ∀ rhs name found, (d.addFound m rhs name found).isInert = d.isInert ∧
      (d.addFound m rhs name found).attribs = d.attribs := by
    intro rhs name found
    rw [addFound, if_neg (by simp [h.active])]
    cases found with
    | none => exact ⟨rfl, rfl⟩
    | some k =>
        dsimp only
        split_ifs <;> exact ⟨rfl, rfl⟩
  obtain ⟨hinert, hattribs⟩ := hsame (construct m name false) ((construct m name false).nameGet le m)
    (d.find le m ((construct m name false).nameGet le m))
  refine ⟨hinert.trans h.active, sound_addFound hm h.sound (sound_construct hm name false) _ _, ?_⟩
  rw [add, addDatum_eq, hattribs]
  exact h.named

/-- `"a"` is added with a sub-datum, and then with two others; what is there by then takes them on.  A datum
in between is erased. -/
theorem datum_isMap_pair :
    let ops := [DatumOp.add [98], .addDatum activeHolder, .addDatum widerHolder, .recurse,
      .eraseName [98], .add [100]]
    MapRun true exactPools fresh ops ∧
      IsMap true exactPools ops (fresh.applyAll true exactPools ops) := by
  intro ops
  have hrun : MapRun true exactPools fresh ops := by
    have hadd := addable_construct plentiful_exactPools [97]
    refine ⟨trivial, (by decide : (0 : UInt8) ∉ [98]), addable_add plentiful_exactPools hadd [98], ?_,
      addable_add plentiful_exactPools (addable_add plentiful_exactPools hadd [99]) [98], ?_, trivial,
      trivial, trivial, trivial, trivial, (by decide : (0 : UInt8) ∉ [100]), trivial⟩
    · intro x hx hname _
      obtain rfl := List.mem_singleton.1 hx
      exact absurd hname (by decide +kernel)
    · intro x hx hname _
      rcases List.mem_cons.1 hx with rfl | hx
      · exact absurd hname (by decide +kernel)
      · obtain rfl := List.mem_singleton.1 hx
        exact (takesOn_active rfl _).2 ⟨(takesOn_active rfl _).2 trivial, trivial⟩
  exact ⟨hrun, datum_isMap true exactPools plentiful_exactPools fresh rfl rfl ops hrun⟩

/-- A datum with the name `"a"` and a copy of the inert datum. -/
def inertHolder : Datum :=
  (construct exactPools [97] false).addDatum true exactPools (World.initial exactPools).inertDatum

/-- A datum whose name is a blob of five octets, behind which there are octets of another blob. -/
def blobNamed : Datum :=
  (fresh.attrWrite true exactPools .name (.bufSetRaw (some [97, 97, 97, 97, 97, 97]))).attrWrite true
    exactPools .name (.bufSetRaw (some [98, 98, 98, 98, 98]))

/-- Equal data have sub-data with equal names. -/
theorem names_of_content_eq {le : Bool} {d e : Datum} (h : d.content le = e.content le) :
    (d.datums.map fun x => (x.attribs .name).map fun v => v.value le) =
      e.datums.map fun x => (x.attribs .name).map fun v => v.value le := by
  have hname : ∀ ds : List Datum, (ds.map fun x => (x.attribs .name).map fun v => v.value le) =
      (contents le ds).map fun t => match t with | .node _ attribs _ => attribs .name := by
    intro ds
    rw [contents_eq, List.map_map]
    exact List.map_congr_left fun x _ => by rw [Function.comp_apply, content_eq]
  rw [content_eq, content_eq e] at h
  rw [hname, hname, (Content.node.inj h).2.2]

/-- Three data that are not what was last added.  `"a"` is added with an inert sub-datum, and then with
an active one: the inert sub-datum stays.  A datum whose name is a blob is not found under its name, and
a name is cut at its first zero. -/
theorem datum_isMap_inert :
    (inertHolder.isInert = false ∧ activeHolder.isInert = false ∧ blobNamed.isInert = false) ∧
      (let d := fresh.applyAll true exactPools [.addDatum inertHolder, .addDatum activeHolder];
        d.getFound (d.find true exactPools (activeHolder.nameGet true exactPools)) = some [0] ∧
          ∃ x, d.datums[0]? = some x ∧ x.content true ≠ activeHolder.content true) ∧
      (let d := fresh.applyAll true exactPools [.addDatum blobNamed];
        blobNamed.nameGet true exactPools ≠ [] ∧
          d.getFound (d.find true exactPools (blobNamed.nameGet true exactPools)) = none) ∧
      (let d := fresh.applyAll true exactPools [.add [97, 0, 98]];
        d.getFound (d.find true exactPools [97, 0, 98]) = none) := by
  refine ⟨⟨by decide +kernel, by decide +kernel, by decide +kernel⟩, ⟨by decide +kernel, ?_⟩,
    ⟨by decide +kernel, by decide +kernel⟩, by decide +kernel⟩
  refine ⟨_, rfl, fun hcontent => ?_⟩
  exact absurd (names_of_content_eq hcontent) (by decide +kernel)

end CodePort
