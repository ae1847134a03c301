/-
What the entries of a map hold.

Every entry of a map holds a list of things, and all of them together are the contents of the map.
This file says how the contents change when an entry is replaced or removed.

Main definitions:

* `MapContents.contents` — what the entries of a map hold.

Main results:

* `MapContents.contents_insert` — **a new entry** adds what it holds to what the other entries hold;
* `MapContents.contents_of_lookup` — an entry that is there holds its part of the contents.
-/

import Mathlib.Data.List.AList

set_option relaxedAutoImplicit false
set_option autoImplicit false

namespace MapContents

variable {κ β α : Type*} (f : β → List α)

/-- What the entries of a map hold. -/
def contents (m : AList fun _ : κ => β) : List α := m.entries.flatMap fun e => f e.2

@[simp] theorem contents_empty : contents f (∅ : AList fun _ : κ => β) = [] := rfl

variable [DecidableEq κ]

/-- **A new entry** adds what it holds to what the other entries hold. -/
theorem contents_insert (m : AList fun _ : κ => β) (k : κ) (v : β) :
    contents f (m.insert k v) = f v ++ contents f (m.erase k) := by
  rw [contents, AList.entries_insert, List.flatMap_cons]
  rfl

/-- Removing an entry that is not there changes nothing. -/
theorem contents_erase_of_lookup_none {m : AList fun _ : κ => β} {k : κ} (h : m.lookup k = none) :
    contents f (m.erase k) = contents f m := by
  have hk : k ∉ m.entries.keys := fun hc => AList.lookup_eq_none.1 h (AList.mem_keys.2 hc)
  have hentries : (m.erase k).entries = m.entries := List.kerase_of_notMem_keys hk
  rw [contents, hentries, contents]

/-- **An entry that is there** holds its part of the contents. -/
theorem contents_of_lookup {m : AList fun _ : κ => β} {k : κ} {v : β} (h : m.lookup k = some v) :
    (contents f m).Perm (f v ++ contents f (m.erase k)) := by
  have hmem : (⟨k, v⟩ : Sigma fun _ : κ => β) ∈ m.entries := AList.mem_lookup_iff.1 h
  have hkey : k ∈ m.entries.keys := List.mem_map_of_mem (f := Sigma.fst) hmem
  obtain ⟨w, l₁, l₂, -, hentries, hkerase⟩ := List.exists_of_kerase hkey
  have hw : w = v := by
    have hlookup : m.lookup k = some w := by
      refine AList.mem_lookup_iff.2 ?_
      rw [hentries]
      exact List.mem_append_right _ List.mem_cons_self
    exact Option.some.inj (hlookup.symm.trans h)
  have hrest : (m.erase k).entries = l₁ ++ l₂ := hkerase
  rw [contents, contents, hentries, hrest, hw, List.flatMap_append, List.flatMap_append,
    List.flatMap_cons, ← List.append_assoc, ← List.append_assoc]
  exact List.Perm.append_right _ List.perm_append_comm

/-- The same, for an entry that is created when it is not there. -/
theorem contents_of_getD (m : AList fun _ : κ => β) (k : κ) {b : β} (hb : f b = []) :
    (contents f m).Perm (f ((m.lookup k).getD b) ++ contents f (m.erase k)) := by
  cases h : m.lookup k with
  | none => rw [Option.getD_none, hb, contents_erase_of_lookup_none f h, List.nil_append]
  | some v => exact contents_of_lookup f h

end MapContents
