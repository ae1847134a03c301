/-
Lines of a stream.

`ReadLine` takes octets from a stream up to a terminator, or up to the end of the stream, and leaves
out the zeros among them.

Main definitions:

* `CodePort.StreamBase.readLine` — the function of that name;
* `CodePort.StreamBase.findLine` — the loop that looks for a line;
* `CodePort.lineOf` — the line that some octets are read as;
* `CodePort.StartsLine`, `LaterLine` — the first line, or another one, is of some kind;
* `CodePort.StreamBase.ReadsNext` — each read of an octet takes the first one of what is left.

Main results:

* `CodePort.StreamBase.HasRest.readLine` — a line that ends with the terminator;
* `CodePort.StreamBase.HasRest.readLine_end` — the last line;
* `CodePort.StreamBase.HasRest.findLine` — **the loop finds a line when there is one**;
* `CodePort.StreamBase.notMem_readLine` — a line has no terminator in it;
* `CodePort.StreamBase.reading_readLine`, `reading_findLine` — reading a line only reads.
-/

import CodePort.NativeReading

set_option relaxedAutoImplicit false
set_option autoImplicit false

namespace CodePort

open BlockStore SerDesNative

variable {β : Type} [BlockStore β]

namespace StreamBase

/-- The loop of `ReadLine`. -/
def readLineLoop (term : UInt8) (discardTerm : Bool) (line : List UInt8) (s : StreamBase β) :
    Option (Bool × List UInt8 × StreamBase β) :=
  match StreamBase.readOctet.run s with
  | (none, s) => some (false, line, s)
  | (some ch, s) =>
      if ch = term then some (true, if discardTerm then line else line ++ [ch], s)
      else s |>.readLineLoop term discardTerm (if ch = 0 then line else line ++ [ch])
partial_fixpoint

/-- Read until the terminator or the end.  The result is what the function returns, and the line. -/
def readLine (s : StreamBase β) (term : UInt8) (discardTerm : Bool) :
    Option (Bool × List UInt8 × StreamBase β) :=
  (readLineLoop term discardTerm [] s).map fun r => (r.1 || decide (0 < r.2.1.length), r.2)

/-- The loop over the lines of a stream that looks for a line of some kind. -/
def findLine (p : List UInt8 → Bool) (s : StreamBase β) : Option (Bool × StreamBase β) := do
  let (ok, line, s) ← s.readLine 10 true
  if ok then
    if p line then some (true, s) else s |>.findLine p
  else some (false, s)
partial_fixpoint

end StreamBase

/-- The line that some octets are read as. -/
def lineOf (l : List UInt8) : List UInt8 := l.filter (· ≠ 0)

theorem lineOf_append (l l' : List UInt8) : lineOf (l ++ l') = lineOf l ++ lineOf l' :=
  List.filter_append l l'

theorem lineOf_of_notMem {l : List UInt8} (h : 0 ∉ l) : lineOf l = l := by
  refine List.filter_eq_self.2 fun c hc => ?_
  rw [decide_eq_true_eq]
  rintro rfl
  exact h hc

/-- The first line is of some kind. -/
def StartsLine (p : List UInt8 → Bool) (l : List UInt8) : Prop :=
  p (lineOf (l.takeWhile (· ≠ 10))) = true

/-- A line but the first is of some kind. -/
def LaterLine (p : List UInt8 → Bool) (l : List UInt8) : Prop :=
  ∃ a b, l = a ++ 10 :: b ∧ StartsLine p b

theorem takeWhile_of_notMem {l : List UInt8} (hl : 10 ∉ l) :
    l.takeWhile (· ≠ 10) = l := by
  refine List.takeWhile_eq_self_iff.2 fun c hc => decide_eq_true ?_
  rintro rfl
  exact hl hc

theorem takeWhile_append_newLine {l : List UInt8} (hl : 10 ∉ l) (r : List UInt8) :
    (l ++ 10 :: r).takeWhile (· ≠ 10) = l := by
  rw [List.takeWhile_append, takeWhile_of_notMem hl, if_pos rfl, List.takeWhile_cons_of_neg (by simp),
    List.append_nil]

/-- Behind the first line there are the later lines. -/
theorem laterLine_append_newLine (p : List UInt8 → Bool) {l : List UInt8} (hl : 10 ∉ l)
    (r : List UInt8) : LaterLine p (l ++ 10 :: r) ↔ StartsLine p r ∨ LaterLine p r := by
  constructor
  · rintro ⟨a, b, heq, hb⟩
    rcases List.append_eq_append_iff.1 heq with ⟨a', rfl, hr⟩ | ⟨c', hc, hr⟩
    · cases a' with
      | nil =>
          obtain rfl := (List.cons.inj hr).2
          exact .inl hb
      | cons x a' => exact .inr ⟨a', b, (List.cons.inj hr).2, hb⟩
    · cases c' with
      | nil =>
          obtain rfl := (List.cons.inj hr).2
          exact .inl hb
      | cons x c' =>
          obtain rfl := (List.cons.inj hr).1
          exact absurd (by rw [hc]; simp) hl
  · rintro (hr | ⟨a, b, rfl, hb⟩)
    · exact ⟨l, r, rfl, hr⟩
    · exact ⟨l ++ 10 :: a, b, by rw [List.append_assoc, List.cons_append], hb⟩

theorem not_laterLine_of_notMem (p : List UInt8 → Bool) {l : List UInt8} (hl : 10 ∉ l) :
    ¬ LaterLine p l := by
  rintro ⟨a, b, rfl, -⟩
  exact hl (by simp)

namespace StreamBase

/-- Each read of an octet takes the first one of what is left, where the relation says what is left of
a stream. -/
def ReadsNext (R : StreamBase β → List UInt8 → Prop) : Prop :=
  ∀ ⦃s l⦄, R s l →
    ∃ s', (StreamBase.readOctet : Extract β UInt8).run s = (l.head?, s') ∧ R s' l.tail

/-- The loop goes on behind an octet that is not the terminator. -/
theorem readLineLoop_cons {R : StreamBase β → List UInt8 → Prop} (hR : ReadsNext R) {term ch : UInt8}
    (hne : ch ≠ term) (discardTerm : Bool) (line : List UInt8) {l : List UInt8} {s : StreamBase β}
    (h : R s (ch :: l)) :
    ∃ s', readLineLoop term discardTerm line s =
      readLineLoop term discardTerm (line ++ lineOf [ch]) s' ∧ R s' l := by
  obtain ⟨s', hs', hrest⟩ := hR h
  refine ⟨s', ?_, hrest⟩
  rw [readLineLoop, hs']
  simp only [List.head?_cons, if_neg hne]
  by_cases h0 : ch = 0 <;> simp [lineOf, h0]

/-- The loop up to a terminator. -/
theorem readLineLoop_term {R : StreamBase β → List UInt8 → Prop} (hR : ReadsNext R) {term : UInt8}
    (discardTerm : Bool) {l : List UInt8} (hl : term ∉ l) :
    ∀ (line : List UInt8) {r : List UInt8} {s : StreamBase β}, R s (l ++ term :: r) →
      ∃ s', readLineLoop term discardTerm line s =
          some (true, line ++ lineOf l ++ (if discardTerm then [] else [term]), s') ∧ R s' r := by
  induction l with
  | nil =>
      intro line r s h
      obtain ⟨s', hs', hrest⟩ := hR h
      refine ⟨s', ?_, hrest⟩
      rw [readLineLoop, hs']
      cases discardTerm <;> simp [lineOf]
  | cons ch l ih =>
      intro line r s h
      obtain ⟨hne, hl⟩ := not_or.1 (mt List.mem_cons.2 hl)
      obtain ⟨s₁, hs₁, hrest₁⟩ := readLineLoop_cons hR (Ne.symm hne) discardTerm line h
      obtain ⟨s', hs', hrest⟩ := ih hl (line ++ lineOf [ch]) hrest₁
      have hline : lineOf (ch :: l) = lineOf [ch] ++ lineOf l := lineOf_append [ch] l
      exact ⟨s', by rw [hs₁, hs', hline, List.append_assoc line], hrest⟩

/-- The loop up to the end. -/
theorem readLineLoop_end {R : StreamBase β → List UInt8 → Prop} (hR : ReadsNext R) {term : UInt8}
    (discardTerm : Bool) {l : List UInt8} (hl : term ∉ l) :
    ∀ (line : List UInt8) {s : StreamBase β}, R s l →
      ∃ s', readLineLoop term discardTerm line s = some (false, line ++ lineOf l, s') ∧ R s' [] := by
  induction l with
  | nil =>
      intro line s h
      obtain ⟨s', hs', hrest⟩ := hR h
      refine ⟨s', ?_, hrest⟩
      rw [readLineLoop, hs']
      simp [lineOf]
  | cons ch l ih =>
      intro line s h
      obtain ⟨hne, hl⟩ := not_or.1 (mt List.mem_cons.2 hl)
      obtain ⟨s₁, hs₁, hrest₁⟩ := readLineLoop_cons hR (Ne.symm hne) discardTerm line h
      obtain ⟨s', hs', hrest⟩ := ih hl (line ++ lineOf [ch]) hrest₁
      have hline : lineOf (ch :: l) = lineOf [ch] ++ lineOf l := lineOf_append [ch] l
      exact ⟨s', by rw [hs₁, hs', hline, List.append_assoc line], hrest⟩

variable [LawfulBlockStore β]

/-- The streams that a flat stream describes are read octet by octet. -/
theorem readsNext_hasRest : ReadsNext (HasRest : StreamBase β → List UInt8 → Prop) :=
  fun _ _ h => run_octetExtract h

/-- **A line that ends with the terminator.** -/
theorem HasRest.readLine {s : StreamBase β} {term : UInt8} {l r : List UInt8} (hl : term ∉ l)
    (h : s.HasRest (l ++ term :: r)) :
    ∃ s', s.readLine term true = some (true, lineOf l, s') ∧ s'.HasRest r := by
  obtain ⟨s', hs', hrest⟩ := readLineLoop_term readsNext_hasRest true hl [] h
  refine ⟨s', ?_, hrest⟩
  rw [StreamBase.readLine, hs']
  simp

/-- **The last line.** -/
theorem HasRest.readLine_end {s : StreamBase β} {term : UInt8} {l : List UInt8} (hl : term ∉ l)
    (h : s.HasRest l) :
    ∃ s', s.readLine term true = some (decide (lineOf l ≠ []), lineOf l, s') ∧ s'.HasRest [] := by
  obtain ⟨s', hs', hrest⟩ := readLineLoop_end readsNext_hasRest true hl [] h
  refine ⟨s', ?_, hrest⟩
  rw [StreamBase.readLine, hs']
  simp [List.length_pos_iff]

/-- **The loop finds a line of the kind when there is one**, and always ends. -/
theorem HasRest.findLine {p : List UInt8 → Bool} (hp : p [] = false) {l : List UInt8}
    {s : StreamBase β} (h : s.HasRest l) :
    ∃ ok s', s.findLine p = some (ok, s') ∧ (ok = true ↔ StartsLine p l ∨ LaterLine p l) := by
  have hend : ∀ {t : StreamBase β}, t.HasRest [] → ∃ t', t.findLine p = some (false, t') := by
    intro t ht
    obtain ⟨t', ht', -⟩ := ht.readLine_end (List.not_mem_nil : (10 : UInt8) ∉ [])
    refine ⟨t', ?_⟩
    rw [StreamBase.findLine, ht']
    rfl
  induction hn : l.length using Nat.strong_induction_on generalizing l s with
  | _ n ih =>
      by_cases hmem : 10 ∈ l
      · -- a line and its end, then what follows
        obtain ⟨a, r, rfl, ha⟩ := List.eq_append_cons_of_mem hmem
        obtain ⟨s₁, hs₁, hrest⟩ := h.readLine ha
        have hstart : StartsLine p (a ++ 10 :: r) ↔ p (lineOf a) = true := by
          rw [StartsLine, takeWhile_append_newLine ha]
        rw [hstart, laterLine_append_newLine p ha, StreamBase.findLine, hs₁]
        by_cases hpa : p (lineOf a) = true
        · exact ⟨true, s₁, by simp [hpa], by simp [hpa]⟩
        · obtain ⟨ok, s', hs', hok⟩ := ih r.length (by rw [← hn]; simp; omega) hrest rfl
          refine ⟨ok, s', by simpa [hpa] using hs', ?_⟩
          rw [hok]
          simp [hpa]
      · -- the last line
        obtain ⟨s₁, hs₁, hrest⟩ := h.readLine_end hmem
        have hstart : StartsLine p l ↔ p (lineOf l) = true := by
          rw [StartsLine, takeWhile_of_notMem hmem]
        rw [hstart, or_iff_left (not_laterLine_of_notMem p hmem), StreamBase.findLine, hs₁]
        by_cases hl : lineOf l = []
        · exact ⟨false, s₁, by simp [hl], by simp [hl, hp]⟩
        · by_cases hpl : p (lineOf l) = true
          · exact ⟨true, s₁, by simp [hl, hpl], by simp [hpl]⟩
          · obtain ⟨s', hs'⟩ := hend hrest
            exact ⟨false, s', by simpa [hl, hpl] using hs', by simp [hpl]⟩

omit [LawfulBlockStore β] in
/-- A line has no terminator in it. -/
theorem notMem_readLine {s : StreamBase β} {term : UInt8} {r : Bool × List UInt8 × StreamBase β}
    (hrun : s.readLine term true = some r) : term ∉ r.2.1 := by
  obtain ⟨r', hr', rfl⟩ := Option.map_eq_some_iff.1 hrun
  refine readLineLoop.partial_correctness term true
    (fun line _ r => term ∉ line → term ∉ r.2.1) ?_ [] s r' hr' List.not_mem_nil
  intro loop ih line s r hrun hline
  have hsnoc : ∀ ch, ch ≠ term → term ∉ line ++ [ch] := by
    intro ch hne hmem
    rcases List.mem_append.1 hmem with hmem | hmem
    · exact hline hmem
    · exact hne (List.mem_singleton.1 hmem).symm
  rcases hoctet : (StreamBase.readOctet : Extract β UInt8).run s with ⟨_ | ch, s₁⟩
  · rw [hoctet] at hrun
    obtain rfl := Option.some.inj hrun
    exact hline
  · rw [hoctet] at hrun
    simp only [if_true] at hrun
    split_ifs at hrun with hch h0
    · obtain rfl := Option.some.inj hrun
      exact hline
    · exact ih _ _ r hrun hline
    · exact ih _ _ r hrun (hsnoc ch hch)

/-- The loop only reads. -/
theorem reading_readLineLoop {term : UInt8} {discardTerm : Bool} {line : List UInt8}
    {s : StreamBase β} {r : Bool × List UInt8 × StreamBase β}
    (hrun : readLineLoop term discardTerm line s = some r) (h : s.Wf) : s.Reading r.2.2 := by
  refine readLineLoop.partial_correctness term discardTerm
    (fun _ s r => s.Wf → s.Reading r.2.2) ?_ line s r hrun h
  intro loop ih line s r hrun h
  have hread : s.Reading ((StreamBase.readOctet : Extract β UInt8).run s).2 := keeps_octetExtract h
  rcases hoctet : (StreamBase.readOctet : Extract β UInt8).run s with ⟨_ | ch, s₁⟩
  · rw [hoctet] at hread hrun
    obtain rfl := Option.some.inj hrun
    exact hread
  · rw [hoctet] at hread hrun
    dsimp only at hrun
    split_ifs at hrun
    · obtain rfl := Option.some.inj hrun
      exact hread
    · obtain rfl := Option.some.inj hrun
      exact hread
    · exact hread.trans (ih _ _ r hrun hread.wf)
    · exact hread.trans (ih _ _ r hrun hread.wf)

/-- **Reading a line only reads.** -/
theorem reading_readLine {s : StreamBase β} {term : UInt8} {discardTerm : Bool}
    {r : Bool × List UInt8 × StreamBase β} (hrun : s.readLine term discardTerm = some r)
    (h : s.Wf) : s.Reading r.2.2 := by
  obtain ⟨r', hr', rfl⟩ := Option.map_eq_some_iff.1 hrun
  have hread := reading_readLineLoop hr' h
  exact hread

/-- **Looking for a line only reads.** -/
theorem reading_findLine {p : List UInt8 → Bool} {s : StreamBase β} {r : Bool × StreamBase β}
    (hrun : s.findLine p = some r) (h : s.Wf) : s.Reading r.2 := by
  refine findLine.partial_correctness p (fun s r => s.Wf → s.Reading r.2) ?_ s r hrun h
  intro loop ih s r hrun h
  obtain ⟨⟨ok, line, s₁⟩, hline, hrun⟩ := Option.bind_eq_some_iff.1 hrun
  have hread := reading_readLine hline h
  dsimp only at hrun
  split_ifs at hrun
  · obtain rfl := Option.some.inj hrun
    exact hread
  · exact hread.trans (ih s₁ r hrun hread.wf)
  · obtain rfl := Option.some.inj hrun
    exact hread

end StreamBase

end CodePort
