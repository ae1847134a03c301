/-
Dereferencing the relative components of a path.

`NormalizePath` splits a path at the separator and keeps a list of its components: an empty component and
"." are left out, ".." takes the last one off the list, if there is one, and any other component is added.

Main definitions:

* `CodePort.pushElement`, `elementsOf` — one component, and all components of a path;
* `CodePort.addElements`, `normalizePath` — the loop that writes the result, and the function;
* `CodePort.IsComponent` — the components that stay.

Main results:

* `CodePort.normalizePath_eq` — the result of the function;
* `CodePort.elementsOf_append` — the components of a composed path;
* `CodePort.elementsOf_joined` — **the components of a normal path are those it is joined of**;
* `CodePort.normalizePath_canonical` — **a normalised path is canonical**, and paths may be normalised
  before they are composed.
-/

import CodePort.Tokenize

set_option relaxedAutoImplicit false
set_option autoImplicit false

namespace CodePort

/-- The path separator "/", as a character. -/
def pathSepChar : UInt8 := 47

/-- `PathSep`. -/
def pathSep : List UInt8 := [pathSepChar]

/-- What `NormalizePath` does with one element. -/
def pushElement (elementList : List (List UInt8)) (e : List UInt8) : List (List UInt8) :=
  if e = [46] ∨ e = [] then elementList
  else if e = [46, 46] then
    if elementList ≠ [] then elementList.dropLast else elementList
  else elementList ++ [e]

/-- The loop that adds the elements to the result. -/
def addElements (result : List UInt8) : List (List UInt8) → List UInt8
  | [] => result
  | front :: elementList => addElements (result ++ pathSep ++ front) elementList

/-- Dereference relative components in a path. -/
def normalizePath (path : List UInt8) : Option (List UInt8) :=
  (tokenize path pathSep).map fun elements => addElements [] (elements.foldl pushElement [])

/-- A component that stays. -/
structure IsComponent (e : List UInt8) : Prop where
  ne_nil : e ≠ []
  ne_dot : e ≠ [46]
  ne_dots : e ≠ [46, 46]
  no_sep : pathSepChar ∉ e

/-- The elements that are left of a path. -/
def elementsOf (path : List UInt8) : List (List UInt8) :=
  (path.splitOn pathSepChar).foldl pushElement []

/-- The elements, each preceded by the separator. -/
def joined (elementList : List (List UInt8)) : List UInt8 := elementList.flatMap (pathSep ++ ·)

/-- "/a/./b//../c/.." -/
example : elementsOf [47, 97, 47, 46, 47, 98, 47, 47, 46, 46, 47, 99, 47, 46, 46] = [[97]] := by decide

/-! ### One element -/

theorem pushElement_nil (elementList : List (List UInt8)) : pushElement elementList [] = elementList := by
  rw [pushElement, if_pos (.inr rfl)]

/-- A component that stays is added. -/
theorem IsComponent.push {e : List UInt8} (h : IsComponent e) (elementList : List (List UInt8)) :
    pushElement elementList e = elementList ++ [e] := by
  rw [pushElement, if_neg (by simp [h.ne_dot, h.ne_nil]), if_neg h.ne_dots]

/-- Only components that stay are in the list. -/
theorem isComponent_pushElement {elementList : List (List UInt8)} {e : List UInt8}
    (h : ∀ f ∈ elementList, IsComponent f) (he : pathSepChar ∉ e) :
    ∀ f ∈ pushElement elementList e, IsComponent f := by
  intro f hf
  rw [pushElement] at hf
  split_ifs at hf with hskip hdots hne
  · exact h f hf
  · exact h f (List.mem_of_mem_dropLast hf)
  · exact h f hf
  · rcases List.mem_append.1 hf with hf | hf
    · exact h f hf
    · obtain rfl := List.mem_singleton.1 hf
      obtain ⟨hdot, hnil⟩ := not_or.1 hskip
      exact ⟨hnil, hdot, hdots, he⟩

/-! ### All elements -/

/-- There is no separator in a field. -/
theorem not_mem_of_mem_splitOn {c : UInt8} (l : List UInt8) : ∀ f ∈ l.splitOn c, c ∉ f := by
  induction l with
  | nil =>
      rw [List.splitOn_nil, List.forall_mem_singleton]
      exact List.not_mem_nil
  | cons a l ih =>
      rw [List.splitOn_cons_eq_if_modifyHead]
      split_ifs with ha
      · exact List.forall_mem_cons.2 ⟨List.not_mem_nil, ih⟩
      · cases hfields : l.splitOn c with
        | nil => exact absurd hfields (List.splitOn_ne_nil c l)
        | cons f fields =>
            rw [hfields] at ih
            obtain ⟨hf, hrest⟩ := List.forall_mem_cons.1 ih
            refine List.forall_mem_cons.2 ⟨?_, hrest⟩
            rw [List.mem_cons, not_or]
            exact ⟨fun heq => ha (by rw [heq, beq_self_eq_true]), hf⟩

/-- A first field, and each of the others preceded by the separator. -/
theorem intercalate_eq_joined (elementList : List (List UInt8)) :
    ∀ front, pathSep.intercalate (front :: elementList) = front ++ joined elementList := by
  induction elementList with
  | nil =>
      intro front
      rw [List.intercalate_singleton, joined, List.flatMap_nil, List.append_nil]
  | cons e elementList ih =>
      intro front
      have hjoined : joined (e :: elementList) = pathSep ++ e ++ joined elementList := by
        rw [joined, List.flatMap_cons, joined]
      rw [List.intercalate_cons_cons, ih e, hjoined]
      simp only [List.append_assoc]

theorem isComponent_foldl {elements : List (List UInt8)} (h : ∀ e ∈ elements, pathSepChar ∉ e) :
    ∀ elementList : List (List UInt8), (∀ f ∈ elementList, IsComponent f) →
      ∀ f ∈ elements.foldl pushElement elementList, IsComponent f := by
  induction elements with
  | nil => exact fun _ hall => hall
  | cons e elements ih =>
      intro elementList hall
      obtain ⟨he, hrest⟩ := List.forall_mem_cons.1 h
      exact ih hrest _ (isComponent_pushElement hall he)

/-- Components that stay are added one after the other. -/
theorem foldl_of_isComponent {elements : List (List UInt8)} (h : ∀ e ∈ elements, IsComponent e) :
    ∀ elementList : List (List UInt8),
      elements.foldl pushElement elementList = elementList ++ elements := by
  induction elements with
  | nil =>
      intro elementList
      rw [List.foldl_nil, List.append_nil]
  | cons e elements ih =>
      intro elementList
      obtain ⟨he, hrest⟩ := List.forall_mem_cons.1 h
      rw [List.foldl_cons, he.push, ih hrest, List.append_assoc, List.singleton_append]

/-- The elements of a path that are left are components that stay. -/
theorem isComponent_of_mem {path e : List UInt8} (he : e ∈ elementsOf path) : IsComponent e :=
  isComponent_foldl (not_mem_of_mem_splitOn path) [] (by simp) e he

/-- **The elements of a composed path**: those behind the separator act on those in front of it. -/
theorem elementsOf_append (p q : List UInt8) :
    elementsOf (p ++ pathSep ++ q) = (q.splitOn pathSepChar).foldl pushElement (elementsOf p) := by
  have hsplit : p ++ pathSep ++ q = p ++ pathSepChar :: q := by
    rw [List.append_assoc, pathSep, List.singleton_append]
  rw [elementsOf, hsplit, List.splitOn_append_cons_self, List.foldl_append, elementsOf]

/-- **The elements of a normal path are those it is joined of.** -/
theorem elementsOf_joined {elementList : List (List UInt8)} (h : ∀ e ∈ elementList, IsComponent e) :
    elementsOf (joined elementList) = elementList := by
  have hsplit : (joined elementList).splitOn pathSepChar = [] :: elementList := by
    have hsep : ∀ e ∈ [] :: elementList, pathSepChar ∉ e :=
      List.forall_mem_cons.2 ⟨List.not_mem_nil, fun e he => (h e he).no_sep⟩
    have hfields := List.splitOn_intercalate pathSepChar hsep (List.cons_ne_nil _ _)
    rwa [← pathSep, intercalate_eq_joined, List.nil_append] at hfields
  rw [elementsOf, hsplit, List.foldl_cons, pushElement_nil, foldl_of_isComponent h, List.nil_append]

/-! ### The function -/

theorem addElements_eq (elementList : List (List UInt8)) :
    ∀ result, addElements result elementList = result ++ joined elementList := by
  induction elementList with
  | nil =>
      intro result
      rw [addElements, joined, List.flatMap_nil, List.append_nil]
  | cons front elementList ih =>
      intro result
      rw [addElements, ih, joined, joined, List.flatMap_cons]
      simp only [List.append_assoc]

/-- **The result of `NormalizePath`**: a last empty element makes no difference. -/
theorem normalizePath_eq (path : List UInt8) : normalizePath path = some (joined (elementsOf path)) := by
  obtain ⟨tokens, htokens, hsplit⟩ := splitOn_of_tokenize path pathSepChar
  have hfold : tokens.foldl pushElement [] = elementsOf path := by
    rcases hsplit with hsplit | hsplit
    · rw [elementsOf, hsplit]
    · rw [elementsOf, hsplit, List.foldl_append, List.foldl_cons, List.foldl_nil, pushElement_nil]
  rw [normalizePath, pathSep, htokens, Option.map_some, addElements_eq, List.nil_append, hfold]

/-- **A normalised path is canonical**: it is a sequence of components that stay, each preceded by the
separator; normalising it again changes nothing; and in a composed path the first part may be normalised
before. -/
theorem normalizePath_canonical (p q : List UInt8) :
    (∃ elements : List (List UInt8), normalizePath p = some (elements.flatMap (pathSep ++ ·)) ∧
      ∀ e ∈ elements, IsComponent e) ∧
    (normalizePath p).bind normalizePath = normalizePath p ∧
    (normalizePath p).bind (fun r => normalizePath (r ++ pathSep ++ q)) =
      normalizePath (p ++ pathSep ++ q) := by
  have hagain : elementsOf (joined (elementsOf p)) = elementsOf p :=
    elementsOf_joined fun _ he => isComponent_of_mem he
  refine ⟨⟨elementsOf p, normalizePath_eq p, fun _ he => isComponent_of_mem he⟩, ?_, ?_⟩
  · rw [normalizePath_eq p, Option.bind_some, normalizePath_eq, hagain]
  · rw [normalizePath_eq p, Option.bind_some, normalizePath_eq, normalizePath_eq, elementsOf_append,
      elementsOf_append, hagain]

end CodePort
