/-
What a datum becomes when a package is decoded into it.

An attribute that is given several values keeps its variant and with it, as long as it is of a good
size, its memory block.  So what the memory of an attribute holds depends on all the values that the
octets have given it.  This file reads a package as a tree of such histories and shows that the
decoder builds the datum that the tree describes.

Main definitions:

* `CodePort.History` — for every attribute the values it has been given, and the sub-data;
* `CodePort.SerDesNative.Outline` — a history that grows, and the place where it grows;
* `CodePort.SerDesNative.packageHistory` — the history that a package describes;
* `CodePort.Variant.after` — a variant after some values have been stored in it;
* `CodePort.Records` — a datum is what a history describes.

Main results:

* `CodePort.SerDesNative.Matches.step` — an element does to the datum what it does to the history;
* `CodePort.SerDesNative.decode_records` — **the decoder builds what the package describes.**
-/

import CodePort.NativeElements

set_option relaxedAutoImplicit false
set_option autoImplicit false

namespace CodePort

open BlockStore PrefixParser

/-! ### Histories -/

/-- For every attribute the values that it has been given, the last one first, and the sub-data. -/
inductive History
  | node (attribs : Attrib → List Value) (datums : List History)

namespace History

def attribs : History → Attrib → List Value
  | .node attribs _ => attribs

def datums : History → List History
  | .node _ datums => datums

/-- Nothing has happened yet. -/
def blank : History := .node (fun _ => []) []

/-- An attribute is given a value. -/
def record (a : Attrib) (x : Value) : History → History
  | .node attribs datums => .node (Function.update attribs a (x :: attribs a)) datums

/-- A sub-datum is added. -/
def addChild : History → History
  | .node attribs datums => .node attribs (datums ++ [blank])

/-- What a path leads to. -/
def «at» : History → List ℕ → Option History
  | h, [] => some h
  | h, i :: p => h.datums[i]?.bind fun x => x.at p

/-- Change what a path leads to. -/
def modifyAt (g : History → History) : List ℕ → History → History
  | [], h => g h
  | i :: p, h => .node h.attribs (h.datums.modify i (modifyAt g p))

end History

namespace SerDesNative

/-- A history that grows, and the way back from the place where it grows. -/
structure Outline where
  root : History
  /-- The path to the current place, the last step first. -/
  cur : List ℕ
  /-- The next datum is the root. -/
  rootDatum : Bool

namespace Outline

def start : Outline := ⟨.blank, [], true⟩

/-- The number of sub-data at the current place. -/
def width (o : Outline) : ℕ := ((o.root.at o.cur.reverse).map fun h => h.datums.length).getD 0

/-- An element of a package. -/
def step (o : Outline) : Element → Outline
  | .dat =>
      if o.rootDatum then { o with rootDatum := false }
      else
        { o with
          root := o.root.modifyAt History.addChild o.cur.reverse
          cur := o.width :: o.cur }
  | .datEnd => { o with cur := o.cur.tail }
  | .mark => o
  | .attrib a x => { o with root := o.root.modifyAt (History.record a x) o.cur.reverse }

end Outline

/-- The history that a package describes, as far as it is read. -/
def packageHistory (r : List UInt8) : History :=
  ((packageElements r).1.foldl Outline.step Outline.start).root

end SerDesNative

/-! ### Variants with a history -/

/-- A variant after some values have been stored in it, the last one first.  A new variant is made
for the first value, if there is none. -/
def Variant.after (le : Bool) (m : MemPools) (start : Option Variant) : List Value → Option Variant
  | [] => start
  | x :: xs =>
      let old := (after le m start xs).getD (Variant.construct m false)
      some ⟨x.type, (old.buf.copyIn m (x.storage le)).2⟩

mutual

/-- The datum is what the history describes, when its attributes were `start` at the beginning. -/
def Records (le : Bool) (m : MemPools) :
    (Attrib → Option Variant) → Datum → History → Prop
  | start, ⟨isInert, _, attribs, _, datums⟩, h =>
      isInert = false ∧ (∀ a, attribs a = Variant.after le m (start a) (h.attribs a)) ∧
        (∀ a v, attribs a = some v → v.type ≠ .inert) ∧
          (∀ a x, x ∈ h.attribs a → a ≠ .none ∧ x.Proper) ∧ AllRecords le m datums h.datums

/-- So are all the data of a list. -/
def AllRecords (le : Bool) (m : MemPools) : List Datum → List History → Prop
  | [], hs => hs = []
  | d :: ds, hs => ∃ h hs', hs = h :: hs' ∧ Records le m (fun _ => none) d h ∧ AllRecords le m ds hs'

end

variable {le : Bool} {m : MemPools} {start : Attrib → Option Variant} {d x : Datum} {h : History}

theorem records_iff : Records le m start d h ↔ d.isInert = false ∧
    (∀ a, d.attribs a = Variant.after le m (start a) (h.attribs a)) ∧
      (∀ a v, d.attribs a = some v → v.type ≠ .inert) ∧
        (∀ a x, x ∈ h.attribs a → a ≠ .none ∧ x.Proper) ∧ AllRecords le m d.datums h.datums := by
  cases d
  exact Iff.rfl

theorem AllRecords.length_eq {ds : List Datum} {hs : List History} (hall : AllRecords le m ds hs) :
    hs.length = ds.length := by
  induction ds generalizing hs with
  | nil =>
      obtain rfl : hs = [] := hall
      rfl
  | cons d ds ih =>
      obtain ⟨h, hs', rfl, -, htail⟩ := hall
      rw [List.length_cons, List.length_cons, ih htail]

/-- Every sub-datum is what its history describes. -/
theorem AllRecords.getElem? {ds : List Datum} {hs : List History} (hall : AllRecords le m ds hs)
    {i : ℕ} {x : Datum} (hx : ds[i]? = some x) :
    ∃ h, hs[i]? = some h ∧ Records le m (fun _ => none) x h := by
  induction ds generalizing hs i with
  | nil => exact absurd hx (by simp)
  | cons d ds ih =>
      obtain ⟨h, hs', rfl, hhead, htail⟩ := hall
      cases i with
      | zero =>
          obtain rfl := Option.some.inj hx
          exact ⟨h, rfl, hhead⟩
      | succ i => exact ih htail hx

theorem AllRecords.append {ds : List Datum} {hs : List History} (hall : AllRecords le m ds hs)
    (hx : Records le m (fun _ => none) x h) : AllRecords le m (ds ++ [x]) (hs ++ [h]) := by
  induction ds generalizing hs with
  | nil =>
      obtain rfl : hs = [] := hall
      exact ⟨h, [], rfl, hx, rfl⟩
  | cons d ds ih =>
      obtain ⟨h', hs', rfl, hhead, htail⟩ := hall
      exact ⟨h', hs' ++ [h], rfl, hhead, ih htail⟩

theorem AllRecords.modify {ds : List Datum} {hs : List History} (hall : AllRecords le m ds hs)
    {i : ℕ} {f : Datum → Datum} {g : History → History}
    (hfg : ∀ x h, ds[i]? = some x → Records le m (fun _ => none) x h →
      Records le m (fun _ => none) (f x) (g h)) :
    AllRecords le m (ds.modify i f) (hs.modify i g) := by
  induction ds generalizing hs i with
  | nil =>
      obtain rfl : hs = [] := hall
      rw [List.modify_nil, List.modify_nil]
      rfl
  | cons d ds ih =>
      obtain ⟨h, hs', rfl, hhead, htail⟩ := hall
      cases i with
      | zero => exact ⟨g h, hs', rfl, hfg d h rfl hhead, htail⟩
      | succ i => exact ⟨h, hs'.modify i g, rfl, hhead, ih htail fun x h hx => hfg x h hx⟩

/-- Every history describes a sub-datum. -/
theorem AllRecords.exists_getElem? {ds : List Datum} {hs : List History}
    (hall : AllRecords le m ds hs) {i : ℕ} (hh : hs[i]? = some h) :
    ∃ x, ds[i]? = some x ∧ Records le m (fun _ => none) x h := by
  have hlt : i < ds.length := by
    rw [← hall.length_eq]
    exact (List.getElem?_eq_some_iff.1 hh).1
  obtain ⟨h', hh', hrec⟩ := hall.getElem? (List.getElem?_eq_getElem hlt)
  obtain rfl := Option.some.inj (hh.symm.trans hh')
  exact ⟨_, List.getElem?_eq_getElem hlt, hrec⟩

/-- What the attributes at a path were at the beginning: only the root has had any. -/
def startAt (start : Attrib → Option Variant) : List ℕ → Attrib → Option Variant
  | [] => start
  | _ :: _ => fun _ => none

theorem startAt_none (p : List ℕ) : startAt (fun _ => none) p = fun _ => none := by
  cases p <;> rfl

/-- What a path leads to is what its history describes. -/
theorem Records.at (hrec : Records le m start d h) {p : List ℕ} (hx : d.at p = some x) :
    ∃ h', h.at p = some h' ∧ Records le m (startAt start p) x h' := by
  induction p generalizing start d h with
  | nil =>
      obtain rfl := Option.some.inj hx
      exact ⟨h, rfl, hrec⟩
  | cons i p ih =>
      obtain ⟨c, hc, hx⟩ := Option.bind_eq_some_iff.1 hx
      obtain ⟨-, -, -, -, hall⟩ := records_iff.1 hrec
      obtain ⟨h', hh', hrec'⟩ := hall.getElem? hc
      obtain ⟨h'', hat, hrec''⟩ := ih hrec' hx
      rw [startAt_none] at hrec''
      exact ⟨h'', by rw [History.at, hh', Option.bind_some, hat], hrec''⟩

/-- What a path leads to in the history describes what it leads to in the datum. -/
theorem Records.exists_at (hrec : Records le m start d h) {p : List ℕ} {h' : History}
    (hh : h.at p = some h') : ∃ x, d.at p = some x ∧ Records le m (startAt start p) x h' := by
  induction p generalizing start d h with
  | nil =>
      obtain rfl := Option.some.inj hh
      exact ⟨d, rfl, hrec⟩
  | cons i p ih =>
      obtain ⟨c, hc, hh⟩ := Option.bind_eq_some_iff.1 hh
      obtain ⟨-, -, -, -, hall⟩ := records_iff.1 hrec
      obtain ⟨x, hx, hrec'⟩ := hall.exists_getElem? hc
      obtain ⟨y, hy, hrec''⟩ := ih hrec' hh
      rw [startAt_none] at hrec''
      exact ⟨y, by rw [Datum.at, hx, Option.bind_some, hy], hrec''⟩

/-- **A change at a path** of both leaves a datum that the history describes. -/
theorem Records.modifyAt (hrec : Records le m start d h) {p : List ℕ} {f : Datum → Datum}
    {g : History → History}
    (hfg : ∀ start' x h', d.at p = some x → Records le m start' x h' →
      Records le m start' (f x) (g h')) :
    Records le m start (Datum.modifyAt f p d) (h.modifyAt g p) := by
  induction p generalizing start d h with
  | nil => exact hfg start d h rfl hrec
  | cons i p ih =>
      obtain ⟨hact, hattribs, hinert, hproper, hall⟩ := records_iff.1 hrec
      refine records_iff.2 ⟨hact, hattribs, hinert, hproper, hall.modify fun c h' hc hrec' => ?_⟩
      refine ih hrec' fun start' x h'' hx => hfg start' x h'' ?_
      rw [Datum.at, hc, Option.bind_some, hx]

namespace SerDesNative

/-! ### The decoder follows the outline -/

variable {β : Type} [BlockStore β] [LawfulBlockStore β]

/-- The stack of references that leads to a place. -/
def stackOf : List ℕ → List DatumRef
  | [] => [some []]
  | i :: q => some (i :: q).reverse :: stackOf q

theorem stackOf_eq (q : List ℕ) : ∃ rs, stackOf q = some q.reverse :: rs := by
  cases q with
  | nil => exact ⟨[], rfl⟩
  | cons i q => exact ⟨stackOf q, rfl⟩

/-- The variables of the decoder are what the outline describes. -/
structure Matches (le : Bool) (m : MemPools) (start : Attrib → Option Variant)
    (st : DecodeState β) (o : Outline) : Prop where
  records : Records le m start st.root o.root
  pDat_eq : st.pDat = some o.cur.reverse
  datStack_eq : st.datStack = stackOf o.cur
  rootDatum_eq : st.rootDatum = o.rootDatum
  exists_at : ∃ x, st.root.at o.cur.reverse = some x
  var_ne_inert : st.var.type ≠ .inert

/-- **A value that is stored** is the next one in the history. -/
theorem attribs_attrSet (hm : m.Plentiful) {a : Attrib} {y : Value} {var : Variant} (ha : a ≠ .none)
    (hvar : var.Stores le y) (hy : y.Proper) (hrec : Records le m start x h) :
    Records le m start (x.attrSet m a var) (h.record a y) := by
  obtain ⟨hact, hattribs, hinert, hproper, hall⟩ := records_iff.1 hrec
  obtain ⟨hist, hs⟩ := h
  have hold : ((x.attribs a).getD (Variant.construct m false)).type ≠ .inert := by
    cases hv : x.attribs a with
    | none => exact (Variant.holds_construct hm le).not_inert
    | some v => exact hinert a v hv
  have hnew : ((x.attribs a).getD (Variant.construct m false)).assign m var =
      ⟨y.type, ((((x.attribs a).getD (Variant.construct m false)).buf).copyIn m (y.storage le)).2⟩ := by
    rw [Variant.assign, if_neg hold, hvar.type_eq, Buffer.assign, hvar.data_eq]
  have hset : x.attrSet m a var = { x with
      attribs := Function.update x.attribs a
        (some (((x.attribs a).getD (Variant.construct m false)).assign m var)) } := by
    rw [Datum.attrSet, if_neg (by simp [hact])]
  rw [hset, hnew]
  refine records_iff.2 ⟨hact, fun b => ?_, fun b v hv => ?_, fun b z hz => ?_, hall⟩
  · by_cases hb : b = a
    · subst hb
      have hb' : Variant.after le m (start b) (hist b) = x.attribs b := (hattribs b).symm
      simp only [History.record, History.attribs, Function.update_self, Variant.after, hb']
    · simp only [History.record, History.attribs, Function.update_of_ne hb]
      exact hattribs b
  · dsimp only at hv
    by_cases hb : b = a
    · subst hb
      rw [Function.update_self] at hv
      exact Option.some.inj hv ▸ hy.type_ne.1
    · rw [Function.update_of_ne hb] at hv
      exact hinert b v hv
  · simp only [History.record, History.attribs] at hz
    by_cases hb : b = a
    · subst hb
      rw [Function.update_self, List.mem_cons] at hz
      rcases hz with rfl | hz
      · exact ⟨ha, hy⟩
      · exact hproper b z hz
    · rw [Function.update_of_ne hb] at hz
      exact hproper b z hz

/-- A new datum has no history. -/
theorem records_fresh : Records le m (fun _ => none) Datum.fresh .blank :=
  ⟨rfl, fun _ => rfl, fun _ _ hv => (by cases hv), fun _ _ hx => (by cases hx), rfl⟩

theorem records_addChild (hrec : Records le m start x h) :
    Records le m start (Datum.addChild Datum.fresh x) h.addChild := by
  obtain ⟨hact, hattribs, hinert, hproper, hall⟩ := records_iff.1 hrec
  obtain ⟨hist, hs⟩ := h
  exact records_iff.2 ⟨hact, hattribs, hinert, hproper, hall.append records_fresh⟩

/-- What has been written to is still there. -/
theorem exists_at_modifyAt {d : Datum} {p : List ℕ} {f : Datum → Datum}
    (h : ∃ x, d.at p = some x) : ∃ x, (Datum.modifyAt f p d).at p = some x := by
  obtain ⟨x, hx⟩ := h
  exact ⟨f x, Datum.at_modifyAt f hx⟩

omit [BlockStore β] [LawfulBlockStore β] in
/-- **An element does to the datum what it does to the history.** -/
theorem Matches.step (hm : m.Plentiful) {e : Element} {st st' : DecodeState β} {o : Outline}
    (happ : Applied le m e st st') (h : Matches le m start st o) :
    Matches le m start st' (o.step e) := by
  obtain ⟨x, hx⟩ := h.exists_at
  obtain ⟨hx', hat, hrec⟩ := h.records.at hx
  cases happ with
  | mark => exact h
  | dat =>
      by_cases hroot : o.rootDatum = true
      · have hdat : decodeDat le m st = { st with rootDatum := false } := by
          rw [decodeDat, if_pos (h.rootDatum_eq.trans hroot)]
        have hstep : o.step .dat = { o with rootDatum := false } := if_pos hroot
        rw [hdat, hstep]
        exact ⟨h.records, h.pDat_eq, h.datStack_eq, rfl, ⟨x, hx⟩, h.var_ne_inert⟩
      · obtain ⟨hact, -, -, -, hall⟩ := records_iff.1 hrec
        have hwidth : o.width = x.datums.length := by
          rw [Outline.width, hat, Option.map_some, Option.getD_some, hall.length_eq]
        have hmod : Datum.modifyAt (fun d => d.add le m []) o.cur.reverse st.root =
            Datum.modifyAt (Datum.addChild Datum.fresh) o.cur.reverse st.root :=
          Datum.modifyAt_congr hx (Datum.add_nil le m hact)
        have hget : (Datum.modifyAt (Datum.addChild Datum.fresh) o.cur.reverse st.root).at
            o.cur.reverse = some (Datum.addChild Datum.fresh x) := Datum.at_modifyAt _ hx
        have hcur : (o.width :: o.cur).reverse = o.cur.reverse ++ [x.datums.length] := by
          rw [List.reverse_cons, hwidth]
        have hdat : decodeDat le m st =
            { stream := st.stream
              root := Datum.modifyAt (Datum.addChild Datum.fresh) o.cur.reverse st.root
              datStack := some (o.width :: o.cur).reverse :: st.datStack
              pDat := some (o.width :: o.cur).reverse
              rootDatum := st.rootDatum
              var := st.var } := by
          rw [decodeDat, if_neg (by rw [h.rootDatum_eq]; exact hroot), hcur]
          simp only [h.pDat_eq, DecodeState.modifyRef, hmod, DecodeState.getRef,
            Option.bind_eq_bind, Option.bind_some, hget]
          rfl
        have hstep : o.step .dat = { o with
            root := o.root.modifyAt History.addChild o.cur.reverse, cur := o.width :: o.cur } :=
          if_neg hroot
        rw [hdat, hstep]
        refine ⟨?_, rfl, ?_, h.rootDatum_eq, ?_, h.var_ne_inert⟩
        · exact h.records.modifyAt fun _ _ _ _ hrec' => records_addChild hrec'
        · exact congrArg (some (o.width :: o.cur).reverse :: ·) h.datStack_eq
        · exact ⟨Datum.fresh, by rw [hcur]; exact Datum.at_addChild hx⟩
  | datEnd =>
      obtain ⟨root, cur, rootDatum⟩ := o
      cases cur with
      | nil =>
          have hend : decodeDatEnd st = st := by
            rw [decodeDatEnd, h.datStack_eq]
            rfl
          rw [hend]
          exact h
      | cons i q =>
          obtain ⟨rs, hrs⟩ := stackOf_eq q
          have hend : decodeDatEnd st = { st with datStack := stackOf q, pDat := some q.reverse } := by
            have hstack : st.datStack = some (i :: q).reverse :: some q.reverse :: rs := by
              rw [h.datStack_eq, ← hrs]
              rfl
            rw [decodeDatEnd, hstack, hrs]
          rw [hend]
          refine ⟨h.records, rfl, rfl, h.rootDatum_eq, ?_, h.var_ne_inert⟩
          have hlong : st.root.at (q.reverse ++ [i]) = some x := by
            rw [← List.reverse_cons]
            exact hx
          rw [Datum.at_append] at hlong
          obtain ⟨y, hy, -⟩ := Option.bind_eq_some_iff.1 hlong
          exact ⟨y, hy⟩
  | attrib _ ha hy hvar =>
      rename_i a y var
      have hstore := hvar hm h.var_ne_inert
      have hmod : (({ st with var := var } : DecodeState β).modifyRef st.pDat
          fun d => d.attrSet m a var) =
          { st with
            var := var
            root := Datum.modifyAt (fun d => d.attrSet m a var) o.cur.reverse st.root } := by
        rw [h.pDat_eq]
        rfl
      rw [hmod]
      refine ⟨?_, h.pDat_eq, h.datStack_eq, h.rootDatum_eq, exists_at_modifyAt ⟨x, hx⟩, ?_⟩
      · exact h.records.modifyAt fun _ _ _ _ hrec' => attribs_attrSet hm ha hstore hy hrec'
      · exact hstore.type_eq ▸ hy.type_ne.1

omit [BlockStore β] [LawfulBlockStore β] in
/-- Where the stream stands does not matter. -/
theorem Matches.stream {st : DecodeState β} {o : Outline} (h : Matches le m start st o)
    (s : StreamBase β) : Matches le m start { st with stream := s } o :=
  ⟨h.records, h.pDat_eq, h.datStack_eq, h.rootDatum_eq, h.exists_at, h.var_ne_inert⟩

omit [BlockStore β] [LawfulBlockStore β] in
/-- **A sequence of elements** does to the datum what it does to the history. -/
theorem AppliedAll.matches (hm : m.Plentiful) {es : List Element} {st st' : DecodeState β}
    {o : Outline} (happ : AppliedAll le m es st st') (h : Matches le m start st o) :
    Matches le m start st' (es.foldl Outline.step o) := by
  induction happ generalizing o with
  | nil st s => exact h.stream s
  | cons s hhead htail ih => exact ih ((h.stream s).step hm hhead)

end SerDesNative

/-! ### Decoding into a datum -/

/-- The attributes of a cleared datum: at most the name. -/
def Datum.nameOnly (m : MemPools) (name : List UInt8) : Attrib → Option Variant :=
  Function.update (fun _ => none) .name
    (if name = [] then none
    else some (Variant.copy m (Variant.strSet m (Variant.construct m false) name)))

/-- Without a name there are no attributes. -/
theorem Datum.nameOnly_nil (m : MemPools) : Datum.nameOnly m [] = fun _ => none := by
  rw [nameOnly, if_pos rfl]
  exact Function.update_eq_self (f := fun _ : Attrib => (none : Option Variant)) _

theorem Datum.nameOnly_of_ne (m : MemPools) (name : List UInt8) {a : Attrib} (h : a ≠ .name) :
    Datum.nameOnly m name a = none := by
  rw [nameOnly, Function.update_of_ne h]

/-- Assigning a new datum leaves its name only. -/
theorem Datum.assign_construct (hact : d.isInert = false) (name : List UInt8) :
    d.assign m (construct m name false) = ⟨false, true, Datum.nameOnly m name, none, []⟩ := by
  by_cases hname : name = []
  · rw [hname, construct_nil, assign_fresh m hact, fresh, nameOnly_nil]
  · have hlen : 0 < name.length := List.length_pos_iff.2 hname
    have hmap : ∀ v : Variant, (fun t => (Function.update (fun _ : Attrib => none) .name
        (some v) t).map (Variant.copy m)) =
        Function.update (fun _ => none) .name (some (Variant.copy m v)) := by
      intro v
      funext t
      by_cases ht : t = .name
      · subst ht
        rw [Function.update_self, Function.update_self, Option.map_some]
      · rw [Function.update_of_ne ht, Function.update_of_ne ht, Option.map_none]
    simp only [construct, nameSet, rewind, assign, attrStrSet, Bool.false_eq_true, if_false,
      hact, if_pos hlen, Option.getD_none, hmap, begin, assignDatums, nameOnly, if_neg hname,
      if_true]

/-- Clearing leaves the name only. -/
theorem Datum.clear_eq (hact : d.isInert = false) : d.clear le m =
    ⟨false, true, Datum.nameOnly m (d.nameGet le m), none, []⟩ := by
  rw [Datum.clear, if_neg (by simp [hact]), assign_construct hact]

namespace SerDesNative

variable {β : Type} [BlockStore β] [LawfulBlockStore β]

/-- **The states of decoding build what the package describes**, on top of the name that clearing the
datum has left. -/
theorem execDecodeStates_records (hm : m.Plentiful) {s : StreamBase β} {f : FlatStream UInt8}
    (hs : s.Represents f) (name : List UInt8) {check : Bool} {r : Bool × Datum × StreamBase β}
    (h : execDecodeStates le m (s.seek 0).2 ⟨false, true, Datum.nameOnly m name, none, []⟩ check =
      some r) :
    Records le m (Datum.nameOnly m name) r.2.1 (packageHistory f.content) := by
  obtain ⟨st', done, happ, -, -, hdec, -⟩ := execDecodeStates_elements (m := m) le hs
    ⟨false, true, Datum.nameOnly m name, none, []⟩ check
  obtain ⟨-, hroot⟩ := hdec r h
  have hstart : Matches le m (Datum.nameOnly m name)
      (DecodeState.initial m ⟨false, true, Datum.nameOnly m name, none, []⟩ s) Outline.start := by
    refine ⟨?_, rfl, rfl, rfl, ⟨_, rfl⟩, (Variant.holds_construct hm le).not_inert⟩
    refine records_iff.2 ⟨rfl, fun _ => rfl, fun a v hv => ?_, fun _ _ hx => (by cases hx), rfl⟩
    rw [DecodeState.initial] at hv
    dsimp only at hv
    by_cases ha : a = .name
    · rw [ha, Datum.nameOnly, Function.update_self] at hv
      split_ifs at hv
      obtain rfl := Option.some.inj hv
      exact fun hc => by cases hc
    · rw [Datum.nameOnly_of_ne m _ ha] at hv
      cases hv
  rw [hroot]
  exact ((happ (.inr hm)).matches hm hstart).records

/-- **The decoder builds what the package describes**, on top of what clearing the datum has left,
and clears it if it fails. -/
theorem decode_records (hm : m.Plentiful) {s : StreamBase β} {f : FlatStream UInt8}
    (hs : s.Represents f) {dat : Datum} (hact : dat.isInert = false) {check : Bool}
    {r : Bool × Datum × StreamBase β} (h : dat.decode le m check s = some r) :
    ∃ root, Records le m (Datum.nameOnly m (dat.nameGet le m)) root (packageHistory f.content) ∧
      r.2.1 = if r.1 then root else root.clear le m := by
  rw [Datum.decode, if_neg (by simp [hact]), decode, Datum.clear_eq hact] at h
  obtain ⟨q, hq, rfl⟩ := Option.map_eq_some_iff.1 h
  exact ⟨q.2.1, execDecodeStates_records hm hs _ hq, rfl⟩

end SerDesNative

end CodePort
