/-
The public operations of the datum class.

`Attr` returns a reference to one inert variant whenever an attribute is missing, and `AttrSet`
returns a reference to the same variant when the datum is inert.  So an operation is a function of
this shared variant too: it can read it, in every comparison of names, and it can write it.

Main definitions:

* `CodePort.VariantOp`, `CodePort.Variant.apply` — everything that can be done to a variant;
* `CodePort.Datum.attrOr`, `nameOr`, `findOr` — the accessors, with the shared variant;
* `CodePort.Datum.advance`, `select`, `erase` — the operations that move the cursor;
* `CodePort.DatumOp`, `CodePort.Datum.apply` — everything that can be done to a datum.

Main results:

* `CodePort.Datum.attr_eq`, `find_eq`, `addDatum_eq` — as long as the shared variant is what it was
  initialized to, these are the functions of a datum alone.
-/

import CodePort.Datum

set_option relaxedAutoImplicit false
set_option autoImplicit false

namespace CodePort

/-! ### Variants -/

/-- The setters, the assignment and `Clear`. -/
inductive VariantOp
  | uint8Set (val : ℕ)
  | int8Set (val : ℕ)
  | uint16Set (val : ℕ)
  | int16Set (val : ℕ)
  | uint32Set (val : ℕ)
  | int32Set (val : ℕ)
  | uint64Set (val : ℕ)
  | int64Set (val : ℕ)
  | float32Set (val : ℕ)
  | float64Set (val : ℕ)
  | boolSet (val : Bool)
  | strSet (str : List UInt8)
  | bufSet (buf : Buffer)
  | bufSetRaw (pBuf : Option (List UInt8))
  | assign (rhs : Variant)
  | clear

/-- Do something to a variant. -/
def Variant.apply (le : Bool) (m : MemPools) (v : Variant) : VariantOp → Variant
  | .uint8Set val => v.uint8Set le m val
  | .int8Set val => v.int8Set le m val
  | .uint16Set val => v.uint16Set le m val
  | .int16Set val => v.int16Set le m val
  | .uint32Set val => v.uint32Set le m val
  | .int32Set val => v.int32Set le m val
  | .uint64Set val => v.uint64Set le m val
  | .int64Set val => v.int64Set le m val
  | .float32Set val => v.float32Set le m val
  | .float64Set val => v.float64Set le m val
  | .boolSet val => v.boolSet m val
  | .strSet str => v.strSet m str
  | .bufSet buf => v.bufSet m buf
  | .bufSetRaw pBuf => v.bufSetRaw m pBuf
  | .assign rhs => v.assign m rhs
  | .clear => v.clear m

namespace Datum

/-! ### Accessors with the shared variant -/

/-- Return an attribute; `g` is the shared variant. -/
def attrOr (g : Variant) (d : Datum) (type : Attrib) : Variant := (d.attribs type).getD g

/-- Return the datum name. -/
def nameOr (g : Variant) (le : Bool) (m : MemPools) (d : Datum) : List UInt8 :=
  (d.attrOr g .name).strGet le m

/-- Find a datum with the specified name. -/
def findOr (g : Variant) (le : Bool) (m : MemPools) (d : Datum) (name : List UInt8) : Option ℕ :=
  d.datums.findIdx? fun x => x.nameOr g le m = name

theorem attr_eq (d : Datum) (type : Attrib) : d.attr type = d.attrOr inertValue type := rfl

theorem find_eq (le : Bool) (m : MemPools) (d : Datum) (name : List UInt8) :
    d.find le m name = d.findOr inertValue le m name := rfl

/-! ### Manipulators -/

/-- Set an attribute to a string. -/
def textSet (m : MemPools) (d : Datum) (type : Attrib) (str : List UInt8) : Datum :=
  if d.isInert then d else d.attrStrSet m type str

def unitsSet (m : MemPools) (d : Datum) (units : List UInt8) : Datum := d.textSet m .units units
def infoSet (m : MemPools) (d : Datum) (info : List UInt8) : Datum := d.textSet m .info info
def choicesSet (m : MemPools) (d : Datum) (choices : List UInt8) : Datum :=
  d.textSet m .choices choices

/-- A write to the attribute of an active datum that `AttrSet` returns a reference to. -/
def attrWrite (le : Bool) (m : MemPools) (d : Datum) (type : Attrib) (op : VariantOp) : Datum :=
  -- the map constructs a missing attribute
  let old := (d.attribs type).getD (Variant.construct m false)
  { d with attribs := Function.update d.attribs type (some (old.apply le m op)) }

/-- Add an existing datum with a name, when the search for the name has found a sub-datum or none. -/
def addFound (m : MemPools) (d rhs : Datum) (name : List UInt8) (found : Option ℕ) : Datum :=
  if d.isInert then d
  else
    let added : Datum :=
      { d with self := false, iterData := some d.datums.length, datums := d.datums ++ [rhs.copy m] }
    -- if it already exists just assign the new value otherwise add it to the collection
    match found with
    | none => added
    | some k =>
        if 0 < name.length then
          { d with
            self := false
            iterData := some k
            datums := d.datums.modify k fun x => x.assign m rhs }
        else added

theorem addDatum_eq (le : Bool) (m : MemPools) (d rhs : Datum) :
    d.addDatum le m rhs =
      d.addFound m rhs (rhs.nameGet le m) (d.find le m (rhs.nameGet le m)) := rfl

/-! ### The cursor -/

/-- Make the datum that the search has found the current one. -/
def selectFound (d : Datum) (found : Option ℕ) : Bool × Datum :=
  if d.isInert then (false, d)
  else (found.isSome, { d with self := if found.isSome then false else d.self, iterData := found })

/-- Rewind the sub-datum at the iterator, if it is valid. -/
def rewindAt (iter : Option ℕ) (ds : List Datum) : List Datum :=
  match iter with
  | none => ds
  | some i => ds.modify i fun x => x.rewind.2

/-- The iterator after the one at an index. -/
def following (ds : List Datum) (i : ℕ) : Option ℕ := if i + 1 < ds.length then some (i + 1) else none

mutual

/-- Advance the current datum pointer. -/
def advance : Datum → Bool → Bool × Datum
  | ⟨inert, self, attribs, iterData, datums⟩, recurse =>
      if inert then (false, ⟨inert, self, attribs, iterData, datums⟩)
      else if self then
        -- if current datum was self, negate that
        let iter := begin datums
        (iter.isSome, ⟨inert, false, attribs, iter, rewindAt iter datums⟩)
      else
        match iterData with
        | none => (false, ⟨inert, false, attribs, none, datums⟩)
        | some i =>
            let r := if recurse then advanceAt datums i else (false, datums)
            if r.1 then (true, ⟨inert, false, attribs, some i, r.2⟩)
            else
              -- reached end node of branch, so advance this level
              let iter := following r.2 i
              (iter.isSome, ⟨inert, false, attribs, iter, rewindAt iter r.2⟩)

/-- Advance the current datum pointer of the sub-datum at an index. -/
def advanceAt : List Datum → ℕ → Bool × List Datum
  | [], _ => (false, [])
  | d :: ds, 0 => ((advance d true).1, (advance d true).2 :: ds)
  | d :: ds, i + 1 => ((advanceAt ds i).1, d :: (advanceAt ds i).2)

end

/-- Removes the active datum.  The iterator becomes invalid, so it is forced to the end. -/
def erase (d : Datum) : Bool × Datum :=
  match d.iterData with
  | none => (false, d)
  | some i => (true, { d with datums := d.datums.eraseIdx i, iterData := none })

/-- Removes the datum that the search has found. -/
def eraseFound (d : Datum) (found : Option ℕ) : Bool × Datum :=
  match found with
  | none => (false, d)
  | some i => (true, { d with datums := d.datums.eraseIdx i, iterData := none })

end Datum

/-! ### Everything that can be done to a datum -/

/-- The public operations that change a datum, or something through it. -/
inductive DatumOp
  | nameSet (name : List UInt8)
  | attrSet (type : Attrib) (var : Variant)
  | attrDel (type : Attrib)
  | unitsSet (units : List UInt8)
  | infoSet (info : List UInt8)
  | choicesSet (choices : List UInt8)
  /-- A write through the reference that `AttrSet`, `ValSet`, `MinSet`, `MaxSet` or `DefSet`
  returns. -/
  | write (type : Attrib) (op : VariantOp)
  /-- A converting assignment. -/
  | convert (op : VariantOp)
  | assign (rhs : Datum)
  | clear
  | addDatum (rhs : Datum)
  | add (name : List UInt8)
  | select (name : List UInt8)
  | rewind
  | next
  | recurse
  | erase
  | eraseName (name : List UInt8)

/-- Do something to a datum, when `g` is the shared variant: the shared variant and the datum
afterwards. -/
def Datum.apply (le : Bool) (m : MemPools) (g : Variant) (d : Datum) : DatumOp → Variant × Datum
  | .nameSet name => (g, d.nameSet m name)
  | .attrSet type var => (g, d.attrSet m type var)
  | .attrDel type => (g, d.attrDel type)
  | .unitsSet units => (g, d.unitsSet m units)
  | .infoSet info => (g, d.infoSet m info)
  | .choicesSet choices => (g, d.choicesSet m choices)
  | .write type op => if d.isInert then (g.apply le m op, d) else (g, d.attrWrite le m type op)
  | .convert op => (g, if d.isInert then d else d.attrWrite le m .val op)
  | .assign rhs => (g, d.assign m rhs)
  | .clear => (g, if d.isInert then d else d.assign m (construct m (d.nameOr g le m) false))
  | .addDatum rhs =>
      (g, d.addFound m rhs (rhs.nameOr g le m) (d.findOr g le m (rhs.nameOr g le m)))
  | .add name =>
      let rhs := construct m name false
      (g, d.addFound m rhs (rhs.nameOr g le m) (d.findOr g le m (rhs.nameOr g le m)))
  | .select name => (g, (d.selectFound (d.findOr g le m name)).2)
  | .rewind => (g, d.rewind.2)
  | .next => (g, (d.advance false).2)
  | .recurse => (g, (d.advance true).2)
  | .erase => (g, d.erase.2)
  | .eraseName name => (g, (d.eraseFound (d.findOr g le m name)).2)

end CodePort
