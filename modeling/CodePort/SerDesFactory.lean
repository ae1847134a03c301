/-
The serializer factory.

The factory keeps a pool of serializers under every name.  It hands out the serializers of a pool,
but never the last one, takes them back, and asks the first of every pool in turn whether a stream is
in its format.

Main definitions:

* `CodePort.SerDes` — the serializers, with `nameGet`, `createInstance`, `checkEncoding`, `decode`;
* `CodePort.SerDesFactory` — the pools, with `serDesGet`, `serDesPut`, `detectEncoding`;
* `CodePort.Datum.decodeAs` — the decoder of a datum, by the name of an encoding;
* `CodePort.SerDesFactory.Stocked` — a pool for every serializer, none of them empty.

Main results:

* `CodePort.SerDesFactory.stocked_run` — **the pools stay stocked**, whatever is taken and returned;
* `CodePort.SerDes.decode_of_reading` — a stream is decoded in the same way after it has been read.

The tag that heads an XML stream is looked for with a function that never finds it.
-/

import CodePort.NativeReading
import CodePort.SerDesIdl
import CodePort.StepSystem

set_option relaxedAutoImplicit false
set_option autoImplicit false

namespace CodePort

open BlockStore

/-! ### Names -/

def serDesAuto : List UInt8 := ascii "Auto"
def serDesNative : List UInt8 := ascii "Native"
def serDesXml : List UInt8 := ascii "Xml"
def serDesIdl : List UInt8 := ascii "Idl"

variable {β : Type} [BlockStore β]

/-! ### The XML decoder -/

namespace SerDesXml

/-- The function that trims a tag does not find any. -/
def tagTrim (line : List UInt8) : Bool × List UInt8 := (false, line)

/-- Find the XML header. -/
def decodeIdent (s : StreamBase β) : Option (Bool × StreamBase β) :=
  s.findLine fun line => (tagTrim line).1

def decodeVersion : Bool := false

/-- Decodes a stream to a datum, state by state. -/
def decode (le : Bool) (m : MemPools) (s : StreamBase β) (dat : Datum) :
    Option (Bool × Datum × StreamBase β) := do
  let dat := dat.clear le m
  let (rv, s) ← decodeIdent (s.seek 0).2
  let rv := rv && decodeVersion
  pure (rv, if rv then dat else dat.clear le m, s)

end SerDesXml

/-! ### Serializers -/

/-- A serializer; the one for IDL text keeps what an encoding has changed. -/
inductive SerDes
  | native
  | xml
  | idl (ser : SerDesIdl)
  deriving DecidableEq

namespace SerDes

/-- Return the serializer name. -/
def nameGet : SerDes → List UInt8
  | .native => serDesNative
  | .xml => serDesXml
  | .idl _ => serDesIdl

/-- Create a serializer of the same kind. -/
def createInstance : SerDes → SerDes
  | .native => .native
  | .xml => .xml
  | .idl _ => .idl SerDesIdl.construct

/-- Check if the encoding is in the format of the serializer. -/
def checkEncoding (sd : SerDes) (s : StreamBase β) : Option (Bool × StreamBase β) :=
  let r := s.seek 0
  if r.1 then
    match sd with
    | .native =>
        let ident := (SerDesNative.decodeIdent : Extract β Unit).run r.2
        some (ident.1.isSome, ident.2)
    | .xml => SerDesXml.decodeIdent r.2
    | .idl _ => SerDesIdl.decodeIdent r.2
  else some (false, r.2)

/-- Decodes a stream to a datum. -/
def decode (le : Bool) (m : MemPools) (tags : SerDesIdl.TagOrder) (sd : SerDes) (s : StreamBase β)
    (dat : Datum) (check : Bool) : Option (Bool × Datum × StreamBase β) :=
  match sd with
  | .native => SerDesNative.decode le m s dat check
  | .xml => SerDesXml.decode le m s dat
  | .idl _ => SerDesIdl.decode le m tags s dat check

end SerDes

/-- **A stream is decoded in the same way after it has been read.** -/
theorem SerDes.decode_of_reading [LawfulBlockStore β] (le : Bool) (m : MemPools)
    (tags : SerDesIdl.TagOrder) (sd : SerDes) {s t : StreamBase β} (h : s.Reading t) (hs : s.Wf)
    (hb : s.blks ≠ []) (dat : Datum) (check : Bool) :
    sd.decode le m tags t dat check = sd.decode le m tags s dat check := by
  have hseek := h.seek_zero hs hb
  cases sd with
  | native => rw [decode, decode, SerDesNative.decode, SerDesNative.decode, hseek]
  | xml => rw [decode, decode, SerDesXml.decode, SerDesXml.decode, hseek]
  | idl ser => rw [decode, decode, SerDesIdl.decode, SerDesIdl.decode, hseek]

/-! ### The factory -/

/-- The serializer factory: the pools, in the order of their names. -/
structure SerDesFactory where
  pools : List (List UInt8 × List SerDes)

namespace SerDesFactory

/-- `m_Pools[name].push_back(sd)`. -/
def poolPush (name : List UInt8) (sd : SerDes) :
    List (List UInt8 × List SerDes) → List (List UInt8 × List SerDes)
  | [] => [(name, [sd])]
  | (key, pool) :: pools =>
      if key = name then (key, pool ++ [sd]) :: pools
      else if name < key then (name, [sd]) :: (key, pool) :: pools
      else (key, pool) :: poolPush name sd pools

/-- Return an encoder. -/
def serDesPut (fac : SerDesFactory) (sd : Option SerDes) : Bool × SerDesFactory :=
  match sd with
  | some sd => (true, ⟨poolPush sd.nameGet sd fac.pools⟩)
  | none => (false, fac)

/-- The constructor. -/
def construct : SerDesFactory :=
  let fac := (serDesPut ⟨[]⟩ (some .native)).2
  let fac := (fac.serDesPut (some .xml)).2
  (fac.serDesPut (some (.idl SerDesIdl.construct))).2

/-- Take an encoder out of a pool. -/
def poolTake : List SerDes → Option SerDes × List SerDes
  | [] => (none, [])
  -- the last one stays, so that more can be made
  | [sd] => (some sd.createInstance, [sd])
  | sd :: pool => (some sd, pool)

/-- The search of `SerDesGet` through the pools. -/
def poolGet (enc : List UInt8) :
    List (List UInt8 × List SerDes) → Option SerDes × List (List UInt8 × List SerDes)
  | [] => (none, [])
  | (key, pool) :: pools =>
      if key = enc then ((poolTake pool).1, (key, (poolTake pool).2) :: pools)
      else ((poolGet enc pools).1, (key, pool) :: (poolGet enc pools).2)

/-- Acquire an encoder. -/
def serDesGet (fac : SerDesFactory) (enc : List UInt8) : Option SerDes × SerDesFactory :=
  ((poolGet enc fac.pools).1, ⟨(poolGet enc fac.pools).2⟩)

/-- The loop of `DetectEncoding`. -/
def detectLoop : List (List UInt8 × List SerDes) → StreamBase β →
    Option (List UInt8 × StreamBase β)
  | [], s => some ([], s)
  | (_, []) :: pools, s => detectLoop pools s
  | (name, sd :: _) :: pools, s => do
      let (ok, s) ← sd.checkEncoding s
      if ok then some (name, s) else detectLoop pools s

/-- Detect the encoding of a serialized stream. -/
def detectEncoding (fac : SerDesFactory) (s : StreamBase β) : Option (List UInt8 × StreamBase β) :=
  detectLoop fac.pools s

end SerDesFactory

/-- Decodes the collection from a stream, by the name of an encoding. -/
def Datum.decodeAs (le : Bool) (m : MemPools) (tags : SerDesIdl.TagOrder) (fac : SerDesFactory)
    (dat : Datum) (check : Bool) (enc : List UInt8) (s : StreamBase β) :
    Option (Bool × Datum × SerDesFactory × StreamBase β) :=
  if dat.isInert then some (false, dat, fac, s)
  else do
    let (encoder, s) ← if enc = serDesAuto then fac.detectEncoding s else pure (enc, s)
    if encoder = [] then pure (false, dat, fac, s)
    else
      match fac.serDesGet encoder with
      | (none, fac) => pure (false, dat, fac, s)
      | (some sd, fac) => do
          let (rv, dat, s) ← sd.decode le m tags s dat check
          pure (rv, dat, (fac.serDesPut (some sd)).2, s)

/-! ### Stocked pools -/

namespace SerDesFactory

/-- What a caller does with the factory. -/
inductive FactoryOp
  | serDesGet (enc : List UInt8)
  | serDesPut (sd : Option SerDes)

/-- A call. -/
def factoryStep (fac : SerDesFactory) : FactoryOp → Option (Option SerDes × SerDesFactory)
  | .serDesGet enc => some (fac.serDesGet enc)
  | .serDesPut sd => some (none, (fac.serDesPut sd).2)

/-- A pool that is not empty and has serializers of one name only. -/
structure PoolOf (name : List UInt8) (pool : List SerDes) : Prop where
  ne_nil : pool ≠ []
  nameGet_eq : ∀ sd ∈ pool, sd.nameGet = name

/-- There is a pool for every serializer. -/
def Stocked (fac : SerDesFactory) : Prop :=
  ∃ idl native xml, PoolOf serDesIdl idl ∧ PoolOf serDesNative native ∧ PoolOf serDesXml xml ∧
    fac.pools = [(serDesIdl, idl), (serDesNative, native), (serDesXml, xml)]

theorem stocked_construct : construct.Stocked := by
  refine ⟨[.idl SerDesIdl.construct], [.native], [.xml], ⟨nofun, ?_⟩, ⟨nofun, ?_⟩, ⟨nofun, ?_⟩,
    by decide⟩ <;> exact fun sd hsd => List.mem_singleton.1 hsd ▸ rfl

theorem PoolOf.push {name : List UInt8} {sd : SerDes} {pool : List SerDes} (h : PoolOf name pool)
    (hsd : sd.nameGet = name) : PoolOf name (pool ++ [sd]) := by
  refine ⟨by simp, fun x hx => ?_⟩
  rcases List.mem_append.1 hx with hx | hx
  · exact h.nameGet_eq x hx
  · rw [List.mem_singleton.1 hx, hsd]

theorem PoolOf.take {name : List UInt8} {pool : List SerDes} (h : PoolOf name pool) :
    PoolOf name (poolTake pool).2 := by
  match pool with
  | [] => exact h
  | [_] => exact h
  | _ :: x :: pool => exact ⟨nofun, fun y hy => h.nameGet_eq y (List.mem_cons_of_mem _ hy)⟩

/-- A call leaves the pools stocked. -/
theorem Stocked.step {fac fac' : SerDesFactory} {o : FactoryOp} {a : Option SerDes}
    (h : fac.Stocked) (hstep : fac.factoryStep o = some (a, fac')) : fac'.Stocked := by
  obtain ⟨idl, native, xml, hidl, hnative, hxml, hpools⟩ := h
  cases o with
  | serDesGet enc =>
      obtain ⟨-, rfl⟩ := Prod.mk.inj (Option.some.inj hstep)
      simp only [hpools, poolGet]
      split_ifs
      · exact ⟨_, _, _, hidl.take, hnative, hxml, rfl⟩
      · exact ⟨_, _, _, hidl, hnative.take, hxml, rfl⟩
      · exact ⟨_, _, _, hidl, hnative, hxml.take, rfl⟩
      · exact ⟨_, _, _, hidl, hnative, hxml, rfl⟩
  | serDesPut sd =>
      obtain ⟨-, rfl⟩ := Prod.mk.inj (Option.some.inj hstep)
      cases sd with
      | none => exact ⟨_, _, _, hidl, hnative, hxml, hpools⟩
      | some sd =>
          simp only [serDesPut, hpools]
          cases sd with
          | native => exact ⟨_, _, _, hidl, hnative.push rfl, hxml, rfl⟩
          | xml => exact ⟨_, _, _, hidl, hnative, hxml.push rfl, rfl⟩
          | idl ser => exact ⟨_, _, _, hidl.push rfl, hnative, hxml, rfl⟩

/-- The serializers that are asked first. -/
theorem Stocked.heads {fac : SerDesFactory} (h : fac.Stocked) :
    ∃ ser idl native pools, fac.pools =
      (serDesIdl, .idl ser :: idl) :: (serDesNative, .native :: native) :: pools := by
  obtain ⟨idl, native, xml, hidl, hnative, -, hpools⟩ := h
  obtain ⟨sd, idl, rfl⟩ := List.exists_cons_of_ne_nil hidl.ne_nil
  obtain ⟨sd', native, rfl⟩ := List.exists_cons_of_ne_nil hnative.ne_nil
  have hsd := hidl.nameGet_eq sd List.mem_cons_self
  have hsd' := hnative.nameGet_eq sd' List.mem_cons_self
  cases sd with
  | idl ser =>
      cases sd' with
      | native => exact ⟨ser, idl, native, _, hpools⟩
      | xml => exact absurd hsd' (by decide)
      | idl ser' => exact absurd (show serDesIdl = serDesNative from hsd') (by decide)
  | native => exact absurd hsd (by decide)
  | xml => exact absurd hsd (by decide)

/-- A pool that is not empty has a serializer to hand out. -/
theorem PoolOf.exists_take {name : List UInt8} {pool : List SerDes} (h : PoolOf name pool) :
    ∃ sd, (poolTake pool).1 = some sd := by
  match pool with
  | [] => exact absurd rfl h.ne_nil
  | [sd] => exact ⟨_, rfl⟩
  | sd :: _ :: _ => exact ⟨sd, rfl⟩

/-- Stocked pools hand out a serializer of each name. -/
theorem Stocked.serDesGet {fac : SerDesFactory} (h : fac.Stocked) {name : List UInt8}
    (hname : name = serDesIdl ∨ name = serDesNative) :
    ∃ sd fac', fac.serDesGet name = (some sd, fac') := by
  obtain ⟨idl, native, xml, hidl, hnative, -, hpools⟩ := h
  rw [SerDesFactory.serDesGet, hpools]
  rcases hname with rfl | rfl
  · obtain ⟨sd, hsd⟩ := hidl.exists_take
    exact ⟨sd, _, Prod.ext hsd rfl⟩
  · obtain ⟨sd, hsd⟩ := hnative.exists_take
    exact ⟨sd, _, Prod.ext hsd rfl⟩

/-- **The pools stay stocked**, whatever is taken and returned. -/
theorem stocked_run {ops : List FactoryOp} {fac : SerDesFactory} {as : List (Option SerDes)}
    (h : StepSystem.run factoryStep ops construct = some (as, fac)) : fac.Stocked :=
  StepSystem.run_invariant Stocked.step stocked_construct h

end SerDesFactory

end CodePort
