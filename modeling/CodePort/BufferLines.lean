/-
Breaking a text buffer into lines.

`BufferToLines` walks over a buffer with a pointer and a count of the octets that are left.  A line ends
with a line feed, a carriage return or a zero; a line feed and a carriage return in either order are one
ending, which takes a look at the octet behind the pointer.

Main definitions:

* `CodePort.linesLoop`, `bufferToLines` — the loop and the function; a read outside the buffer has no
  outcome, which is `none`;
* `CodePort.joinLines` — a text in which every line is followed by a terminator.

Main results:

* `CodePort.linesLoop_isSome` — nothing is read outside the buffer;
* `CodePort.linesLoop_line` — what the loop does with one line and its terminator;
* `CodePort.bufferToLines_joinLines` — **the lines of a joined text are found again**, and every buffer
  is read inside its size.
-/

import CodePort.Util

set_option relaxedAutoImplicit false
set_option autoImplicit false

namespace CodePort

/-! ### The function -/

/-- A line ending, or a zero. -/
def endsLine (ch : UInt8) : Bool := ch = 10 || ch = 13 || ch = 0

/-- The octets that are copied to a line. -/
def lineAt (buf : List UInt8) (start lineLen : ℕ) : Option (List UInt8) :=
  if start + lineLen ≤ buf.length then some ((buf.drop start).take lineLen) else none

/-- Is it a conjugate line ending?  The second character is looked at behind the first of a pair
only. -/
def conjugate (buf : List UInt8) (ptr : ℕ) (ch : UInt8) : Option Bool :=
  if ch = 10 then (buf[ptr + 1]?).map fun c => decide (c = 13)
  else if ch = 13 then (buf[ptr + 1]?).map fun c => decide (c = 10)
  else some false

/-- The lines after a line ending has been found: an empty line does not end with a zero. -/
def addLine (buf : List UInt8) (start ptr : ℕ) (ch : UInt8) (linesOut : List (List UInt8)) :
    Option (List (List UInt8)) :=
  if ptr - start ≠ 0 then (lineAt buf start (ptr - start)).map fun line => linesOut ++ [line]
  else some (if ch ≠ 0 then linesOut ++ [[]] else linesOut)

/-- The loop of `BufferToLines`. -/
def linesLoop (buf : List UInt8) :
    ℕ → ℕ → ℕ → List (List UInt8) → Option (List (List UInt8))
  | 0, _, _, linesOut => some linesOut
  | count + 1, ptr, start, linesOut => do
      let ch ← buf[ptr]?
      if endsLine ch then
        let linesOut ← addLine buf start ptr ch linesOut
        match count with
        | 0 => linesLoop buf 0 (ptr + 1) (ptr + 1) linesOut
        | count + 1 =>
            if ← conjugate buf ptr ch then
              -- skip over the second character
              linesLoop buf count (ptr + 2) (ptr + 2) linesOut
            else linesLoop buf (count + 1) (ptr + 1) (ptr + 1) linesOut
      else if count = 0 then
        -- buffer end reached without a line ending
        let line ← lineAt buf start (ptr - start + 1)
        linesLoop buf count (ptr + 1) start (linesOut ++ [line])
      else linesLoop buf count (ptr + 1) start linesOut

/-- Break a text buffer into a vector of lines. -/
def bufferToLines (bufferIn : Option (List UInt8)) : Option (List (List UInt8)) :=
  match bufferIn with
  | none => some []
  | some buf => linesLoop buf buf.length 0 0 []

/-- The terminators of a line. -/
def lineTerminators : List (List UInt8) := [[10], [13], [13, 10], [10, 13]]

/-- The text in which every line is followed by a terminator. -/
def joinLines (term : List UInt8) (lines : List (List UInt8)) : List UInt8 :=
  lines.flatMap (· ++ term)

/-- Without a line ending and without a zero. -/
def Unbroken (line : List UInt8) : Prop := ∀ c ∈ line, endsLine c = false

/-- LF CR, LF CR, LF, LF, and a line without an ending. -/
example : bufferToLines (some [97, 10, 13, 10, 13, 10, 10, 98]) = some [[97], [], [], [], [98]] := by
  decide

/-! ### Reading inside the buffer -/

theorem addLine_isSome {buf : List UInt8} {start ptr : ℕ} (hstart : start ≤ ptr)
    (hptr : ptr ≤ buf.length) (ch : UInt8) (linesOut : List (List UInt8)) :
    ∃ r, addLine buf start ptr ch linesOut = some r := by
  rw [addLine]
  split_ifs
  · exact ⟨_, by rw [lineAt, if_pos (by omega), Option.map_some]⟩
  · exact ⟨_, rfl⟩
  · exact ⟨_, rfl⟩

theorem conjugate_isSome {buf : List UInt8} {ptr : ℕ} (hptr : ptr + 1 < buf.length) (ch : UInt8) :
    ∃ r, conjugate buf ptr ch = some r := by
  rw [conjugate, List.getElem?_eq_getElem hptr]
  split_ifs <;> exact ⟨_, rfl⟩

/-- **Nothing is read outside the buffer** while the count is that of the octets behind the pointer. -/
theorem linesLoop_isSome (buf : List UInt8) (count : ℕ) : ∀ (ptr start : ℕ)
    (linesOut : List (List UInt8)), ptr + count = buf.length → start ≤ ptr →
    ∃ r, linesLoop buf count ptr start linesOut = some r := by
  induction count using Nat.strong_induction_on with
  | _ count ih =>
      intro ptr start linesOut hcount hstart
      match count with
      | 0 => exact ⟨_, rfl⟩
      | count + 1 =>
          have hptr : ptr < buf.length := by omega
          rw [linesLoop.eq_def]
          simp only [List.getElem?_eq_getElem hptr, Option.bind_eq_bind, Option.bind_some]
          split_ifs with hends hlast
          · obtain ⟨linesOut', hadd⟩ := addLine_isSome hstart hptr.le buf[ptr] linesOut
            rw [hadd, Option.bind_some]
            match count with
            | 0 => exact ⟨_, rfl⟩
            | count + 1 =>
                have hnext : ptr + 1 < buf.length := by omega
                obtain ⟨conj, hconj⟩ := conjugate_isSome hnext buf[ptr]
                simp only [hconj, Option.bind_some]
                split_ifs
                · exact ih count (by omega) _ _ _ (by omega) le_rfl
                · exact ih (count + 1) (by omega) _ _ _ (by omega) le_rfl
          · rw [lineAt, if_pos (by omega), Option.bind_some]
            exact ih count (by omega) _ _ _ (by omega) (by omega)
          · exact ih count (by omega) _ _ _ (by omega) (by omega)

/-! ### One line -/

/-- The characters of a line are passed over. -/
theorem linesLoop_oneLine {buf post : List UInt8} {c : UInt8} {start : ℕ}
    {linesOut : List (List UInt8)} : ∀ (line pre : List UInt8), Unbroken line →
      buf = pre ++ (line ++ c :: post) →
      linesLoop buf (line.length + (post.length + 1)) pre.length start linesOut =
        linesLoop buf (post.length + 1) (pre.length + line.length) start linesOut := by
  intro line
  induction line with
  | nil =>
      intro pre _ _
      rw [List.length_nil, Nat.zero_add]
      rfl
  | cons ch line ih =>
      intro pre hline hbuf
      have hch : buf[pre.length]? = some ch := by
        rw [hbuf, List.getElem?_append_right le_rfl, Nat.sub_self, List.cons_append,
          List.getElem?_cons_zero]
      have hends : endsLine ch = false := hline ch List.mem_cons_self
      have hrest := ih (pre ++ [ch]) (fun d hd => hline d (List.mem_cons_of_mem _ hd))
        (by rw [hbuf, List.append_assoc, List.cons_append, List.singleton_append])
      rw [List.length_append, List.length_singleton] at hrest
      rw [List.length_cons, show line.length + 1 + (post.length + 1) =
        line.length + (post.length + 1) + 1 by omega, linesLoop.eq_def]
      simp only [hch, Option.bind_eq_bind, Option.bind_some, hends, Bool.false_eq_true, if_false]
      rw [if_neg (by omega), hrest, Nat.add_assoc, Nat.add_comm 1]

/-- The line in front of the pointer is added. -/
theorem addLine_eq {buf pre line post : List UInt8} {ch : UInt8} (hch : ch ≠ 0)
    (hbuf : buf = pre ++ (line ++ post)) (linesOut : List (List UInt8)) :
    addLine buf pre.length (pre.length + line.length) ch linesOut = some (linesOut ++ [line]) := by
  rw [addLine, Nat.add_sub_cancel_left]
  split_ifs with hlen
  · rw [lineAt, if_pos (by rw [hbuf]; simp), hbuf, List.drop_left, List.take_left, Option.map_some]
  · rw [List.length_eq_zero_iff.1 (not_not.1 hlen)]

/-- The look-ahead recognises the terminators of two characters. -/
theorem conjugate_eq {buf pre post : List UInt8} {ch d : UInt8} (hbuf : buf = pre ++ ch :: d :: post) :
    conjugate buf pre.length ch = some (decide ([ch, d] ∈ lineTerminators)) := by
  have hd : buf[pre.length + 1]? = some d := by
    rw [hbuf, List.getElem?_append_right (Nat.le_add_right _ _), Nat.add_sub_cancel_left]
    rfl
  rw [conjugate, hd]
  by_cases h10 : ch = 10
  · subst h10
    simp [lineTerminators]
  · by_cases h13 : ch = 13
    · subst h13
      simp [lineTerminators]
    · simp [lineTerminators, h10, h13]

theorem lineTerminators_cases {term : List UInt8} (h : term ∈ lineTerminators) :
    ∃ ch, endsLine ch = true ∧ ch ≠ 0 ∧ (term = [ch] ∨ ∃ d, term = [ch, d]) := by
  simp only [lineTerminators, List.mem_cons, List.not_mem_nil, or_false] at h
  rcases h with rfl | rfl | rfl | rfl
  · exact ⟨10, rfl, by decide, .inl rfl⟩
  · exact ⟨13, rfl, by decide, .inl rfl⟩
  · exact ⟨13, rfl, by decide, .inr ⟨10, rfl⟩⟩
  · exact ⟨10, rfl, by decide, .inr ⟨13, rfl⟩⟩

/-- **What the loop does with one line and its terminator**, when the text that follows does not make a
pair of a single one. -/
theorem linesLoop_line {buf pre line term post : List UInt8} {linesOut : List (List UInt8)}
    (hterm : term ∈ lineTerminators) (hline : Unbroken line)
    (hpost : ∀ c ∈ post.head?, term ++ [c] ∉ lineTerminators)
    (hbuf : buf = pre ++ (line ++ (term ++ post))) :
    linesLoop buf (line.length + (term.length + post.length)) pre.length pre.length linesOut =
      linesLoop buf post.length (pre.length + line.length + term.length)
        (pre.length + line.length + term.length) (linesOut ++ [line]) := by
  obtain ⟨ch, hends, hch, hshape⟩ := lineTerminators_cases hterm
  have hadd := addLine_eq hch hbuf linesOut
  have hread : ∀ tail : List UInt8, buf = pre ++ (line ++ ch :: tail) →
      buf[pre.length + line.length]? = some ch := by
    intro tail htail
    rw [htail, ← List.append_assoc, ← List.length_append, List.getElem?_append_right le_rfl,
      Nat.sub_self]
    rfl
  rcases hshape with rfl | ⟨d, rfl⟩
  · -- a single terminator
    have htext : buf = pre ++ (line ++ ch :: post) := hbuf
    rw [List.length_singleton, Nat.add_comm 1, linesLoop_oneLine line pre hline htext,
      linesLoop.eq_def]
    simp only [hread post htext, Option.bind_eq_bind, Option.bind_some, hends, if_true, hadd]
    cases post with
    | nil => rfl
    | cons d post =>
        have hconj : conjugate buf (pre.length + line.length) ch = some false := by
          have hpair := conjugate_eq (htext.trans (List.append_assoc pre line _).symm)
          rw [List.length_append, decide_eq_false (show [ch, d] ∉ _ from hpost d rfl)] at hpair
          exact hpair
        simp only [List.length_cons, hconj, Option.bind_some, Bool.false_eq_true, if_false]
  · -- a pair
    have htext : buf = pre ++ (line ++ ch :: d :: post) := hbuf
    have hconj : conjugate buf (pre.length + line.length) ch = some true := by
      have hpair := conjugate_eq (htext.trans (List.append_assoc pre line _).symm)
      rw [List.length_append, decide_eq_true hterm] at hpair
      exact hpair
    have hcount : [ch, d].length + post.length = (d :: post).length + 1 := by
      simp only [List.length_cons, List.length_nil]
      omega
    rw [hcount, linesLoop_oneLine line pre hline htext, linesLoop.eq_def]
    simp only [hread _ htext, Option.bind_eq_bind, Option.bind_some, hends, if_true, hadd,
      List.length_cons, hconj]
    rfl

/-! ### A joined text -/

theorem joinLines_cons (term line : List UInt8) (lines : List (List UInt8)) :
    joinLines term (line :: lines) = line ++ (term ++ joinLines term lines) := by
  rw [joinLines, List.flatMap_cons, List.append_assoc, joinLines]

/-- The text that follows a line does not make a pair of its terminator. -/
theorem head_joinLines {term : List UInt8} {lines : List (List UInt8)} (hterm : term ∈ lineTerminators)
    (hlines : ∀ line ∈ lines, Unbroken line) :
    ∀ c ∈ (joinLines term lines).head?, term ++ [c] ∉ lineTerminators := by
  intro c hc hpair
  cases lines with
  | nil => simp [joinLines] at hc
  | cons line lines =>
      have hall : (lineTerminators.all fun t => t.all endsLine) = true := by decide
      have hends : ∀ t ∈ lineTerminators, ∀ x ∈ t, endsLine x = true := by
        intro t ht
        exact List.all_eq_true.1 (List.all_eq_true.1 hall t ht)
      rw [joinLines_cons] at hc
      cases line with
      | nil =>
          -- the line is empty, so its terminator follows
          simp only [lineTerminators, List.mem_cons, List.not_mem_nil, or_false] at hterm
          rcases hterm with rfl | rfl | rfl | rfl <;> obtain rfl := Option.some.inj hc <;>
            exact absurd hpair (by decide)
      | cons x line =>
          obtain rfl := Option.some.inj hc
          have hx := hlines (x :: line) List.mem_cons_self x List.mem_cons_self
          rw [hends _ hpair x (by simp)] at hx
          exact absurd hx (by decide)

/-- **The loop finds the lines of a joined text again.** -/
theorem linesLoop_joinLines {buf term : List UInt8} (hterm : term ∈ lineTerminators) :
    ∀ (lines : List (List UInt8)) (pre : List UInt8) (linesOut : List (List UInt8)),
      (∀ line ∈ lines, Unbroken line) → buf = pre ++ joinLines term lines →
      linesLoop buf (joinLines term lines).length pre.length pre.length linesOut =
        some (linesOut ++ lines) := by
  intro lines
  induction lines with
  | nil =>
      intro pre linesOut _ _
      rw [List.append_nil]
      rfl
  | cons line lines ih =>
      intro pre linesOut hlines hbuf
      have hrest : ∀ l ∈ lines, Unbroken l := fun l hl => hlines l (List.mem_cons_of_mem _ hl)
      rw [joinLines_cons] at hbuf
      have hnext := ih (pre ++ line ++ term) (linesOut ++ [line]) hrest
        (by rw [hbuf]; simp only [List.append_assoc])
      rw [joinLines_cons, List.length_append, List.length_append,
        linesLoop_line hterm (hlines line List.mem_cons_self) (head_joinLines hterm hrest) hbuf]
      rw [List.length_append, List.length_append, List.append_assoc] at hnext
      exact hnext

/-- **`BufferToLines` inverts the joining of lines**, whatever the terminator, and reads every buffer
inside its size. -/
theorem bufferToLines_joinLines (lines : List (List UInt8)) (term : List UInt8)
    (hterm : term ∈ lineTerminators) (hlines : ∀ line ∈ lines, Unbroken line)
    (bufferIn : Option (List UInt8)) :
    bufferToLines (some (joinLines term lines)) = some lines ∧
      ∃ linesOut, bufferToLines bufferIn = some linesOut := by
  constructor
  · exact linesLoop_joinLines hterm lines [] [] hlines rfl
  · cases bufferIn with
    | none => exact ⟨_, rfl⟩
    | some buf => exact linesLoop_isSome buf buf.length 0 0 [] (Nat.zero_add _) le_rfl

theorem bufferToLines_joinLines_crlf :
    bufferToLines (some [97, 13, 10, 13, 10]) = some [[97], []] ∧
      ∃ linesOut, bufferToLines (some [10, 0]) = some linesOut :=
  bufferToLines_joinLines [[97], []] [13, 10] (by decide)
    (List.forall_mem_cons.2 ⟨List.forall_mem_singleton.2 rfl, List.forall_mem_singleton.2
      (List.forall_mem_nil _)⟩) (some [10, 0])

end CodePort
