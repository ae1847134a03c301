/-
Decoding into a datum that has a name.

A package is decoded into a datum after the datum has been cleared, and clearing keeps the name.  So
what is decoded is the tree that was encoded, except that a root without a name takes the name that
the datum had before.

Main definitions:

* `CodePort.Tree.named` — a tree whose root has a name at least by default.

Main results:

* `CodePort.Records.tree_eq` — data with one history hold the same;
* `CodePort.Records.tree_named` — what a name from before adds;
* `CodePort.native_decode_named` — **what is encoded is decoded into any datum**, up to the name.
-/

import CodePort.NativeResult

set_option relaxedAutoImplicit false
set_option autoImplicit false

namespace CodePort

open SerDesNative

variable {le : Bool} {m : MemPools}

/-! ### Data with one history -/

/-- Variants that store the same value hold the same. -/
theorem Variant.Stores.value_congr {v u : Variant} {x : Value} (hv : v.Stores le x) (hu : u.Stores le x)
    (hx : x.Proper) : u.value le = v.value le :=
  ((hv.encodable hx).wf.congr (hu.type_eq.trans hv.type_eq.symm) (hu.data_eq.trans hv.data_eq.symm)).2 le

/-- An attribute that has been stored holds the same, whatever was there before. -/
theorem Variant.value_after (hm : m.Plentiful) {start start' : Option Variant} {xs : List Value}
    (hne : xs ≠ []) (hx : ∀ x ∈ xs, x.Proper) :
    (Variant.after le m start xs).map (fun v => v.value le) =
      (Variant.after le m start' xs).map fun v => v.value le := by
  obtain ⟨x, xs, rfl⟩ := List.exists_cons_of_ne_nil hne
  obtain ⟨v, hv, hstores⟩ := Variant.stores_after le hm start x xs
  obtain ⟨u, hu, hstores'⟩ := Variant.stores_after le hm start' x xs
  rw [hv, hu, Option.map_some, Option.map_some,
    hstores'.value_congr hstores (hx x List.mem_cons_self)]

mutual

/-- **Data with one history hold the same**, when nothing was there before. -/
theorem Records.tree_eq (hm : m.Plentiful) : ∀ (d : Datum) {d' : Datum} {h : History},
    Records le m (fun _ => none) d h → Records le m (fun _ => none) d' h → d'.tree le = d.tree le
  | ⟨_, _, attribs, _, datums⟩, d', h, hrec, hrec' => by
      obtain ⟨-, hattribs, -, -, hall⟩ := hrec
      obtain ⟨-, hattribs', -, -, hall'⟩ := records_iff.1 hrec'
      have hsame : d'.attribs = attribs := funext fun a => (hattribs' a).trans (hattribs a).symm
      rw [Datum.tree_eq, hsame, AllRecords.trees_eq hm datums hall hall']
      rfl

theorem AllRecords.trees_eq (hm : m.Plentiful) : ∀ (ds : List Datum) {ds' : List Datum}
    {hs : List History}, AllRecords le m ds hs → AllRecords le m ds' hs →
      Datum.trees le ds' = Datum.trees le ds
  | [], ds', hs, hall, hall' => by
      obtain rfl : hs = [] := hall
      cases ds' with
      | nil => rfl
      | cons d' ds' =>
          obtain ⟨h, hs', hc, -⟩ := hall'
          cases hc
  | d :: ds, ds', hs, hall, hall' => by
      obtain ⟨h, hs', rfl, hhead, htail⟩ := hall
      cases ds' with
      | nil => cases hall'
      | cons d' ds' =>
          obtain ⟨h', hs'', hc, hhead', htail'⟩ := hall'
          obtain ⟨rfl, rfl⟩ := List.cons.inj hc
          rw [Datum.trees, Datum.trees, Records.tree_eq hm d hhead hhead',
            AllRecords.trees_eq hm ds htail htail']

end

/-! ### A name from before -/

/-- The tree, whose root takes the name if it has none. -/
def Tree.named (name : List UInt8) : Tree → Tree
  | .node attribs datums =>
      .node (fun a => (attribs a).or (if a = .name ∧ name ≠ [] then some (.text name) else none)) datums

/-- What the name that clearing has left holds. -/
theorem Datum.value_nameOnly (le : Bool) (hm : m.Plentiful) {name : List UInt8} (hname : 0 ∉ name)
    (a : Attrib) : (Datum.nameOnly m name a).map (fun v => v.value le) =
      if a = .name ∧ name ≠ [] then some (.text name) else none := by
  cases hv : Datum.nameOnly m name a with
  | none =>
      by_cases ha : a = .name
      · rw [ha, Datum.nameOnly, Function.update_self] at hv
        split_ifs at hv with hnil
        rw [if_neg fun hc => hc.2 hnil]
        rfl
      · rw [if_neg fun hc => ha hc.1]
        rfl
  | some v =>
      obtain ⟨hholds, -, ha, hne⟩ := Datum.nameOnly_wf le hm hv
      rw [if_pos ⟨ha, hne⟩, Option.map_some, hholds.value_eq, cStr_of_notMem hname]

/-- **A name from before** is what a root without a name of its own gets. -/
theorem Records.tree_named (hm : m.Plentiful) {name : List UInt8} (hname : 0 ∉ name) {d d' : Datum}
    {h : History} (hrec : Records le m (fun _ => none) d h)
    (hrec' : Records le m (Datum.nameOnly m name) d' h) : d'.tree le = (d.tree le).named name := by
  obtain ⟨-, hattribs, -, hproper, hall⟩ := records_iff.1 hrec
  obtain ⟨-, hattribs', -, -, hall'⟩ := records_iff.1 hrec'
  rw [Datum.tree_eq, Datum.tree_eq, Tree.named, AllRecords.trees_eq hm d.datums hall hall']
  congr 1
  funext a
  rw [hattribs, hattribs']
  by_cases hnil : h.attribs a = []
  · rw [hnil, Variant.after, Variant.after, Option.map_none, Option.none_or,
      Datum.value_nameOnly le hm hname]
  · have hx : ∀ x ∈ h.attribs a, x.Proper := fun x hx => (hproper a x hx).2
    rw [Variant.value_after hm hnil hx]
    obtain ⟨x, xs, hxs⟩ := List.exists_cons_of_ne_nil hnil
    rw [hxs]
    rfl

/-! ### Decoding -/

variable {γ : Type} [BlockStore γ] [LawfulBlockStore γ]

/-- A package is decoded into a new datum. -/
theorem native_decode_fresh (le le' : Bool) (hm : m.Plentiful) {dat : Datum} (hdat : dat.Encodable)
    {t : StreamBase γ} {g : FlatStream UInt8} (ht : t.Represents g)
    (hg : g.content = packageOctets le dat) :
    ∃ d' t', Datum.fresh.decode le' m false t = some (true, d', t') ∧ d'.tree le' = dat.tree le := by
  have hrest : (t.seek 0).2.HasRest (packageOctets le dat) :=
    ⟨_, (ht.seek 0).2, by rw [g.rest_seek_zero, hg]⟩
  obtain ⟨t₁, ht₁, hrest₁⟩ := reads_header Datum.datumVersion hrest
  obtain ⟨d', t', hdec, htree, -⟩ := decodeElement_spec le le' hm hdat hrest₁
  refine ⟨d', t', ?_, htree⟩
  rw [Datum.decode, if_neg (by rintro ⟨⟩), SerDesNative.decode, SerDesNative.execDecodeStates]
  have hclear : Datum.fresh.clear le' m = Datum.fresh := Datum.clear_of_nameless rfl rfl
  simp only [hclear, ht₁, hdec]
  rfl

/-- **What is encoded is decoded into any datum**: the tree is the same, and a root without a name
keeps the name that the datum had. -/
theorem native_decode_named (le le' : Bool) (hm : m.Plentiful) {dat : Datum} (hdat : dat.Encodable)
    {t : StreamBase γ} {g : FlatStream UInt8} (ht : t.Represents g)
    (hg : g.content = packageOctets le dat) {dst : Datum} (hact : dst.isInert = false) :
    ∃ dst' t', dst.decode le' m false t = some (true, dst', t') ∧
      dst'.tree le' = (dat.tree le).named (dst.nameGet le' m) := by
  obtain ⟨d', t', hfresh, htree⟩ := native_decode_fresh le le' hm hdat ht hg
  obtain ⟨root, hrec, hroot⟩ := decode_records hm ht rfl hfresh
  obtain rfl : d' = root := hroot
  obtain ⟨dst', t'', hdec⟩ := decode_done le' hm ht dst hact
  rw [hg, packageElements_packageOctets le hdat] at hdec
  obtain ⟨root', hrec', hroot'⟩ := decode_records hm ht hact hdec
  obtain rfl : dst' = root' := hroot'
  refine ⟨dst', t'', hdec, ?_⟩
  have hnil : Datum.fresh.nameGet le' m = [] := rfl
  rw [hnil, Datum.nameOnly_nil] at hrec
  have hname : 0 ∉ dst.nameGet le' m := zero_notMem_strGet le' m _
  rw [hrec.tree_named hm hname hrec', htree]

end CodePort
