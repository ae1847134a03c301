/-
The datum class.

A `Datum` is a tree: attributes, each a variant, and sub-data, with a cursor to the current one.
A reference to a datum inside a tree is the path that leads to it, and the reference to the inert
datum, which is outside every tree, is `none`.

Main definitions:

* `CodePort.Datum` — the class, with its accessors and manipulators;
* `CodePort.Datum.at`, `modifyAt` — reading and writing through a reference;
* `CodePort.Tree`, `CodePort.Datum.tree` — what a datum holds: the value of every attribute and the
  sub-data in order.

Main results:

* `CodePort.Datum.modifyAt_append`, `modifyAt_congr` — writing through a longer reference, and
  through one whose target is known;
* `CodePort.Datum.clear_of_nameless` — clearing a datum without a name leaves a new one;
* `CodePort.Datum.modifyAt_addChild` — a write to a new sub-datum;
* `CodePort.Datum.tree_induction`, `assign_induction` — induction over a tree, and over an assignment.
-/

import CodePort.Variant
import Mathlib.Data.List.Forall2
import Mathlib.Logic.Function.Basic

set_option relaxedAutoImplicit false
set_option autoImplicit false

namespace CodePort

/-- The attribute types. -/
inductive Attrib
  | none | name | val | min | max | deflt | units | info | choices
  deriving DecidableEq, Repr

/-- The attribute types in the order of the enumeration, which is that of the attribute map. -/
def Attrib.all : List Attrib :=
  [.none, .name, .val, .min, .max, .deflt, .units, .info, .choices]

theorem Attrib.mem_all (a : Attrib) : a ∈ Attrib.all := by cases a <;> simp [Attrib.all]

/-- The datum class. -/
structure Datum where
  /-- Indicates an inert instance that won't allow state change. -/
  isInert : Bool
  /-- True to indicate that the current datum is a reference to itself. -/
  self : Bool
  /-- The datum value attribute elements. -/
  attribs : Attrib → Option Variant
  /-- The index of the current datum; `none` is the end of the list. -/
  iterData : Option ℕ
  /-- Storage for the sub-data. -/
  datums : List Datum

/-- A reference to a datum in a tree; `none` refers to the global inert datum. -/
abbrev DatumRef := Option (List ℕ)

/-- The global inert variant used for an invalid reference, as it is initialized. -/
def inertValue : Variant := ⟨.inert, Buffer.empty⟩

namespace Datum

/-! ### Accessors -/

/-- Return an attribute. -/
def attr (d : Datum) (type : Attrib) : Variant := (d.attribs type).getD inertValue

/-- Return the datum name. -/
def nameGet (le : Bool) (m : MemPools) (d : Datum) : List UInt8 := (d.attr .name).strGet le m

/-- Return a reference to the current datum. -/
def get (d : Datum) : DatumRef := if d.self then some [] else d.iterData.map fun i => [i]

/-- Find a datum with the specified name. -/
def find (le : Bool) (m : MemPools) (d : Datum) (name : List UInt8) : Option ℕ :=
  d.datums.findIdx? fun x => x.nameGet le m = name

/-! ### Manipulators -/

/-- Set an attribute. -/
def attrSet (m : MemPools) (d : Datum) (type : Attrib) (var : Variant) : Datum :=
  if d.isInert then d
  else
    -- the map constructs a missing attribute before the assignment
    let old := (d.attribs type).getD (Variant.construct m false)
    { d with attribs := Function.update d.attribs type (some (old.assign m var)) }

/-- Set an attribute to a string, whether the datum is inert or not. -/
def attrStrSet (m : MemPools) (d : Datum) (type : Attrib) (str : List UInt8) : Datum :=
  let old := (d.attribs type).getD (Variant.construct m false)
  { d with attribs := Function.update d.attribs type (some (old.strSet m str)) }

/-- Delete an attribute. -/
def attrDel (d : Datum) (type : Attrib) : Datum :=
  if d.isInert then d else { d with attribs := Function.update d.attribs type none }

/-- Set the datum name. -/
def nameSet (m : MemPools) (d : Datum) (name : List UInt8) : Datum :=
  if d.isInert then d
  else if 0 < name.length then d.attrStrSet m .name name
  else d.attrDel .name

/-- The iterator to the first sub-datum. -/
def begin (ds : List Datum) : Option ℕ := if ds = [] then none else some 0

/-- Rewinds to the first datum. -/
def rewind (d : Datum) : Bool × Datum :=
  ((begin d.datums).isSome, { d with self := true, iterData := begin d.datums })

/-- The constructor. -/
def construct (m : MemPools) (name : List UInt8) (inert : Bool) : Datum :=
  let d : Datum :=
    { isInert := inert, self := true, attribs := fun _ => none, iterData := none, datums := [] }
  -- set name manually if inert
  let d := if inert then d.attrStrSet m .name name else d
  (d.nameSet m name).rewind.2

/-- A new datum without a name. -/
def fresh : Datum :=
  { isInert := false, self := true, attribs := fun _ => none, iterData := none, datums := [] }

mutual

/-- The assignment operator. -/
def assign (m : MemPools) : Datum → Datum → Datum
  | d, ⟨inert, _, attribs, _, datums⟩ =>
      if d.isInert then d
      else
        { isInert := inert
          self := true
          attribs := fun t => (attribs t).map (Variant.copy m)
          iterData := begin datums
          datums := assignDatums m d.datums datums }

/-- The assignment of the list of sub-data: what is there is assigned, the rest is copied. -/
def assignDatums (m : MemPools) : List Datum → List Datum → List Datum
  | _, [] => []
  | [], r :: rs =>
      -- the copy constructor assigns to a new datum
      assign m fresh r :: assignDatums m [] rs
  | d :: ds, r :: rs => assign m d r :: assignDatums m ds rs

end

/-- The copy constructor. -/
def copy (m : MemPools) (rhs : Datum) : Datum :=
  assign m fresh rhs

/-- Clears the datum's contents. -/
def clear (le : Bool) (m : MemPools) (d : Datum) : Datum :=
  if d.isInert then d else d.assign m (construct m (d.nameGet le m) false)

/-- Adds an existing datum to the collection. -/
def addDatum (le : Bool) (m : MemPools) (d rhs : Datum) : Datum :=
  if d.isInert then d
  else
    let added : Datum :=
      { d with self := false, iterData := some d.datums.length, datums := d.datums ++ [rhs.copy m] }
    -- if it already exists just assign the new value otherwise add it to the collection
    match d.find le m (rhs.nameGet le m) with
    | none => added
    | some k =>
        if 0 < (rhs.nameGet le m).length then
          { d with
            self := false
            iterData := some k
            datums := d.datums.modify k fun x => x.assign m rhs }
        else added

/-- Adds a named datum to the collection. -/
def add (le : Bool) (m : MemPools) (d : Datum) (name : List UInt8) : Datum :=
  d.addDatum le m (construct m name false)

/-! ### References -/

/-- The datum that a path leads to. -/
def «at» : Datum → List ℕ → Option Datum
  | d, [] => some d
  | d, i :: p => d.datums[i]?.bind fun x => x.at p

/-- Change the datum that a path leads to. -/
def modifyAt (f : Datum → Datum) : List ℕ → Datum → Datum
  | [], d => f d
  | i :: p, d => { d with datums := d.datums.modify i (modifyAt f p) }

theorem at_append (d : Datum) (p q : List ℕ) : d.at (p ++ q) = (d.at p).bind fun x => x.at q := by
  induction p generalizing d with
  | nil => rfl
  | cons i p ih =>
      rw [List.cons_append, Datum.at, Datum.at]
      cases d.datums[i]? with
      | none => rfl
      | some x => exact ih x

theorem at_modifyAt {d x : Datum} {p : List ℕ} (f : Datum → Datum) (h : d.at p = some x) :
    (modifyAt f p d).at p = some (f x) := by
  induction p generalizing d with
  | nil =>
      rw [Datum.at, Option.some_inj] at h
      rw [h, modifyAt, Datum.at]
  | cons i p ih =>
      rw [Datum.at, Option.bind_eq_some_iff] at h
      obtain ⟨c, hc, hx⟩ := h
      rw [modifyAt, Datum.at, List.getElem?_modify_eq, hc]
      exact ih hx

/-- A write through a reference into the target of another reference. -/
theorem modifyAt_append (f : Datum → Datum) (p q : List ℕ) (d : Datum) :
    modifyAt f (p ++ q) d = modifyAt (modifyAt f q) p d := by
  induction p generalizing d with
  | nil => rfl
  | cons i p ih => rw [List.cons_append, modifyAt, modifyAt, funext fun x => ih x]

/-- Two writes through one reference. -/
theorem modifyAt_modifyAt (f g : Datum → Datum) (p : List ℕ) (d : Datum) :
    modifyAt g p (modifyAt f p d) = modifyAt (fun x => g (f x)) p d := by
  induction p generalizing d with
  | nil => rfl
  | cons i p ih =>
      rw [modifyAt, modifyAt, modifyAt, List.modify_modify_eq]
      congr 2
      funext x
      exact ih x

theorem modifyAt_id (p : List ℕ) (d : Datum) : modifyAt (fun x => x) p d = d := by
  induction p generalizing d with
  | nil => rfl
  | cons i p ih =>
      rw [modifyAt, funext fun x => ih x]
      change { d with datums := d.datums.modify i id } = d
      rw [List.modify_id]
      cases d
      rfl

/-- A write depends on what it does to its target only. -/
theorem modifyAt_congr {d x : Datum} {p : List ℕ} {f g : Datum → Datum} (h : d.at p = some x)
    (hfg : f x = g x) : modifyAt f p d = modifyAt g p d := by
  induction p generalizing d with
  | nil =>
      rw [Datum.at, Option.some_inj] at h
      rw [h, modifyAt, modifyAt, hfg]
  | cons i p ih =>
      rw [Datum.at, Option.bind_eq_some_iff] at h
      obtain ⟨c, hc, hx⟩ := h
      rw [modifyAt, modifyAt]
      congr 1
      apply List.ext_getElem?
      intro j
      rw [List.getElem?_modify, List.getElem?_modify]
      by_cases hj : i = j
      · subst hj
        simp [hc, ih hx]
      · simp [hj]

/-- Writing what is there changes nothing. -/
theorem modifyAt_eq_self {d x : Datum} {p : List ℕ} {f : Datum → Datum} (h : d.at p = some x)
    (hf : f x = x) : modifyAt f p d = d := by
  rw [modifyAt_congr (g := fun y => y) h hf]
  exact modifyAt_id p d

/-! ### New data -/

theorem construct_nil (m : MemPools) : construct m [] false = fresh := by
  simp only [construct, nameSet, attrDel, rewind, begin, fresh, Bool.false_eq_true, if_false,
    List.length_nil, lt_irrefl, if_true]
  congr 1
  funext t
  by_cases ht : t = .name
  · rw [ht, Function.update_self]
  · rw [Function.update_of_ne ht]

theorem assign_fresh (m : MemPools) {d : Datum} (h : d.isInert = false) :
    d.assign m fresh = fresh := by
  simp [fresh, assign, h, assignDatums, begin]

/-- **Clearing a datum without a name** leaves a new one. -/
theorem clear_of_nameless {le : Bool} {m : MemPools} {d : Datum} (h : d.isInert = false)
    (hname : d.nameGet le m = []) : d.clear le m = fresh := by
  rw [clear, h, hname, construct_nil, assign_fresh m h]
  rfl

/-- Append a sub-datum and make it the current one. -/
def addChild (c d : Datum) : Datum :=
  { d with self := false, iterData := some d.datums.length, datums := d.datums ++ [c] }

/-- **Adding a datum without a name** appends a new one, whatever the names of the others are. -/
theorem add_nil (le : Bool) (m : MemPools) {d : Datum} (h : d.isInert = false) :
    d.add le m [] = addChild fresh d := by
  have hname : fresh.nameGet le m = [] := rfl
  have hcopy : fresh.copy m = fresh := assign_fresh m rfl
  rw [add, construct_nil, addDatum, if_neg (by simp [h]), hcopy]
  cases d.find le m (fresh.nameGet le m) with
  | none => rfl
  | some k => simp [hname, addChild]

/-- **A write to a new sub-datum** adds the sub-datum as it is after the write. -/
theorem modifyAt_addChild {d x c : Datum} {p : List ℕ} (f : Datum → Datum) (h : d.at p = some x) :
    modifyAt f (p ++ [x.datums.length]) (modifyAt (addChild c) p d) =
      modifyAt (addChild (f c)) p d := by
  have hlast : (x.datums ++ [c]).modify x.datums.length f = x.datums ++ [f c] := by
    rw [List.modify_eq_set_getElem?]
    simp
  rw [modifyAt_append, modifyAt_modifyAt]
  apply modifyAt_congr h
  simp only [addChild, modifyAt]
  rw [← hlast]

/-- The new sub-datum. -/
theorem at_addChild {d x c : Datum} {p : List ℕ} (h : d.at p = some x) :
    (modifyAt (addChild c) p d).at (p ++ [x.datums.length]) = some c := by
  rw [at_append, at_modifyAt _ h, Option.bind_some]
  simp [Datum.at, addChild]

/-! ### Induction -/

mutual

/-- **Induction over a tree**: what holds of a datum if it holds of its sub-data holds of every datum. -/
@[elab_as_elim]
theorem tree_induction {P : Datum → Prop} (h : ∀ d : Datum, (∀ x ∈ d.datums, P x) → P d) :
    ∀ d : Datum, P d
  | ⟨inert, self, attribs, iterData, datums⟩ =>
      h ⟨inert, self, attribs, iterData, datums⟩ (list_induction h datums)

theorem list_induction {P : Datum → Prop} (h : ∀ d : Datum, (∀ x ∈ d.datums, P x) → P d) :
    ∀ ds : List Datum, ∀ x ∈ ds, P x
  | [] => by simp
  | d :: ds => by
      intro x hx
      rcases List.mem_cons.1 hx with heq | hx
      · rw [heq]
        exact tree_induction h d
      · exact list_induction h ds x hx

end

/-! ### Assigning -/

theorem assign_inert {m : MemPools} {d : Datum} (h : d.isInert = true) (rhs : Datum) :
    d.assign m rhs = d := by
  cases rhs
  rw [assign, if_pos h]

/-- An assignment to an active datum. -/
theorem assign_eq {m : MemPools} {d : Datum} (h : d.isInert = false) (rhs : Datum) :
    d.assign m rhs =
      { isInert := rhs.isInert
        self := true
        attribs := fun t => (rhs.attribs t).map (Variant.copy m)
        iterData := begin rhs.datums
        datums := assignDatums m d.datums rhs.datums } := by
  cases rhs
  rw [assign, if_neg (by simp [h])]

theorem forall_of_forall₂ {S : Datum → Prop} {ds rs : List Datum}
    (h : List.Forall₂ (fun x _ => S x) ds rs) : ∀ x ∈ ds, S x := by
  induction h with
  | nil => exact fun _ hx => absurd hx List.not_mem_nil
  | cons hx _ ih => exact List.forall_mem_cons.2 ⟨hx, ih⟩

theorem forall₂_assignDatums {m : MemPools} {P : Datum → Prop} {R : Datum → Datum → Prop}
    (hfresh : P fresh) {rs : List Datum} (h : ∀ r ∈ rs, ∀ d, P d → R (d.assign m r) r) :
    ∀ {ds : List Datum}, (∀ x ∈ ds, P x) → List.Forall₂ R (assignDatums m ds rs) rs := by
  induction rs with
  | nil =>
      intro ds _
      rw [assignDatums]
      exact .nil
  | cons r rs ih =>
      intro ds hds
      obtain ⟨hr, hrs⟩ := List.forall_mem_cons.1 h
      cases ds with
      | nil =>
          rw [assignDatums]
          exact .cons (hr fresh hfresh) (ih hrs hds)
      | cons d ds =>
          obtain ⟨hd, hds⟩ := List.forall_mem_cons.1 hds
          rw [assignDatums]
          exact .cons (hr d hd) (ih hrs hds)

/-- **Induction over an assignment**: what holds of the result and what is assigned, if it holds of the
sub-data, holds all the way down. -/
theorem assign_induction {m : MemPools} {P Q : Datum → Prop} {R : Datum → Datum → Prop}
    (hP : ∀ d, P d → ∀ x ∈ d.datums, P x) (hQ : ∀ d, Q d → ∀ x ∈ d.datums, Q x) (hfresh : P fresh)
    (step : ∀ d rhs, P d → Q rhs →
      List.Forall₂ R (assignDatums m d.datums rhs.datums) rhs.datums → R (d.assign m rhs) rhs)
    {d rhs : Datum} (hd : P d) (hrhs : Q rhs) : R (d.assign m rhs) rhs := by
  induction rhs using tree_induction generalizing d with
  | h rhs ih =>
      refine step d rhs hd hrhs (forall₂_assignDatums hfresh (fun r hr x hx => ?_) (hP d hd))
      exact ih r hr hx (hQ rhs hrhs r hr)

end Datum

/-! ### What a datum holds -/

/-- The values of a datum and its sub-data. -/
inductive Tree
  | node (attribs : Attrib → Option Value) (datums : List Tree)

namespace Datum

mutual

/-- What a datum holds. -/
def tree (le : Bool) : Datum → Tree
  | mk _ _ a _ ds => .node (fun t => (a t).map fun v => v.value le) (trees le ds)

/-- What a list of data holds. -/
def trees (le : Bool) : List Datum → List Tree
  | [] => []
  | d :: ds => tree le d :: trees le ds

end

theorem tree_eq (le : Bool) (d : Datum) :
    d.tree le = .node (fun t => (d.attribs t).map fun v => v.value le) (trees le d.datums) := by
  cases d
  rfl

end Datum

end CodePort
