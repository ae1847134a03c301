/-
Splitting a string at a delimiter.

`Tokenize` cuts the text in front of the first delimiter off and goes on behind the delimiter, until
nothing is left.  A delimiter at the end of the string is the end of its last token, and no empty token
follows it.

Main definitions:

* `CodePort.TokenizeState.tokenizeLoop`, `tokenize` — the loop and the function; a loop that does not end has no
  outcome, which is `none`.

Main results:

* `CodePort.tokenizeLoop_spec` — what the loop adds to the tokens;
* `CodePort.tokenize_splits` — **the tokens joined with the delimiter are the string again**, with or
  without one more delimiter, and none of them contains it;
* `CodePort.splitOn_of_tokenize` — for a delimiter of one character, the tokens are the fields of the
  string, without an empty last one.
-/

import CodePort.Replacement
import Mathlib.Data.List.Infix

set_option relaxedAutoImplicit false
set_option autoImplicit false

namespace CodePort

open Replacement

/-- The variables of the loop of `Tokenize`. -/
structure TokenizeState where
  remains : List UInt8
  tokensOut : List (List UInt8)

/-- The loop of `Tokenize`. -/
def TokenizeState.tokenizeLoop (delim : List UInt8) (st : TokenizeState) :
    Option (List (List UInt8)) :=
  if st.remains.length ≠ 0 then
    match find st.remains delim with
    | some n =>
        { remains := st.remains.drop (n + delim.length)
          tokensOut := st.tokensOut ++ [st.remains.take n] : TokenizeState } |>.tokenizeLoop delim
    -- the remaining string is the last token
    | none =>
        { remains := []
          tokensOut := st.tokensOut ++ [st.remains] : TokenizeState } |>.tokenizeLoop delim
  else some st.tokensOut
partial_fixpoint

/-- Tokenize a string into a vector of strings. -/
def tokenize (stringIn delim : List UInt8) : Option (List (List UInt8)) :=
  TokenizeState.tokenizeLoop delim { remains := stringIn, tokensOut := [] }

theorem tokenizeLoop_nil (delim : List UInt8) (tokensOut : List (List UInt8)) :
    TokenizeState.tokenizeLoop delim ⟨[], tokensOut⟩ = some tokensOut := by
  rw [TokenizeState.tokenizeLoop, if_neg (by simp)]

theorem tokenizeLoop_found {delim remains : List UInt8} {n : ℕ} (hne : remains ≠ [])
    (hn : find remains delim = some n) (tokensOut : List (List UInt8)) :
    TokenizeState.tokenizeLoop delim ⟨remains, tokensOut⟩ =
      TokenizeState.tokenizeLoop delim
        ⟨remains.drop (n + delim.length), tokensOut ++ [remains.take n]⟩ := by
  rw [TokenizeState.tokenizeLoop, if_pos (mt List.length_eq_zero_iff.1 hne), hn]

theorem tokenizeLoop_last {delim remains : List UInt8} (hne : remains ≠ [])
    (hn : find remains delim = none) (tokensOut : List (List UInt8)) :
    TokenizeState.tokenizeLoop delim ⟨remains, tokensOut⟩ = some (tokensOut ++ [remains]) := by
  rw [TokenizeState.tokenizeLoop, if_pos (mt List.length_eq_zero_iff.1 hne), hn]
  exact tokenizeLoop_nil _ _

/-- The tokens of a string: they do not contain the delimiter, and with it between them, or behind each
of them, they are the string. -/
structure Splits (stringIn delim : List UInt8) (tokens : List (List UInt8)) : Prop where
  clean : ∀ token ∈ tokens, ¬ delim <:+: token
  joined : stringIn = delim.intercalate tokens ∨ stringIn = delim.intercalate tokens ++ delim
  nil_iff : tokens = [] ↔ stringIn = []

/-- One more token, and the delimiter behind it. -/
theorem Splits.cons {delim token remains : List UInt8} {tokens : List (List UInt8)}
    (h : Splits remains delim tokens) (hdelim : delim ≠ []) (htoken : ¬ delim <:+: token) :
    Splits (token ++ delim ++ remains) delim (token :: tokens) where
  clean := List.forall_mem_cons.2 ⟨htoken, h.clean⟩
  joined := by
    by_cases htokens : tokens = []
    · -- the string ends with the delimiter
      obtain rfl := h.nil_iff.1 htokens
      right
      rw [htokens, List.intercalate_singleton, List.append_nil]
    · rw [List.intercalate_cons_of_ne_nil htokens]
      rcases h.joined with hjoin | hjoin
      · left
        conv_lhs => rw [hjoin]
      · right
        conv_lhs => rw [hjoin]
        simp only [List.append_assoc]
  nil_iff := by simp [hdelim]

/-- **What the loop adds to the tokens**, by induction on the length of the remaining string. -/
theorem tokenizeLoop_spec {delim : List UInt8} (hdelim : delim ≠ []) (remains : List UInt8) :
    ∀ tokensOut, ∃ tokens,
      TokenizeState.tokenizeLoop delim ⟨remains, tokensOut⟩ = some (tokensOut ++ tokens) ∧
        Splits remains delim tokens := by
  induction hlen : remains.length using Nat.strong_induction_on generalizing remains with
  | _ len ih =>
      intro tokensOut
      by_cases hne : remains = []
      · subst hne
        refine ⟨[], by rw [tokenizeLoop_nil, List.append_nil], by simp, .inl rfl, by simp⟩
      · cases hn : find remains delim with
        | none =>
            refine ⟨[remains], tokenizeLoop_last hne hn tokensOut, ?_, ?_, by simp [hne]⟩
            · rw [List.forall_mem_singleton]
              exact find_eq_none_iff.1 hn
            · exact .inl List.intercalate_singleton.symm
        | some n =>
            have hshort : (remains.drop (n + delim.length)).length < len := by
              have hfits := find_lt hn
              have hpos := List.length_pos_iff.2 hdelim
              rw [List.length_drop]
              omega
            obtain ⟨tokens, hloop, hsplits⟩ := ih _ hshort _ rfl (tokensOut ++ [remains.take n])
            refine ⟨remains.take n :: tokens, ?_, ?_⟩
            · rw [tokenizeLoop_found hne hn, hloop, List.append_assoc, List.singleton_append]
            · have hstep := hsplits.cons hdelim (not_infix_take hdelim hn)
              rwa [← find_split hn] at hstep

/-- **`Tokenize` splits exactly at the delimiter**: it ends, no token contains the delimiter, the tokens
joined with it are the string or all of it but a last delimiter, and only the empty string has none. -/
theorem tokenize_splits (stringIn delim : List UInt8) (hdelim : delim ≠ []) :
    ∃ tokens, tokenize stringIn delim = some tokens ∧
      (∀ token ∈ tokens, ¬ delim <:+: token) ∧
      (stringIn = delim.intercalate tokens ∨ stringIn = delim.intercalate tokens ++ delim) ∧
      (tokens = [] ↔ stringIn = []) := by
  obtain ⟨tokens, hloop, hsplits⟩ := tokenizeLoop_spec hdelim stringIn []
  exact ⟨tokens, hloop, hsplits.clean, hsplits.joined, hsplits.nil_iff⟩

/-- The delimiter "::" in the string "a:::::", where it overlaps itself. -/
theorem tokenize_splits_overlap :
    ∃ tokens, tokenize [97, 58, 58, 58, 58, 58] [58, 58] = some tokens ∧
      (∀ token ∈ tokens, ¬ [58, 58] <:+: token) ∧
      ([97, 58, 58, 58, 58, 58] = [58, 58].intercalate tokens ∨
        [97, 58, 58, 58, 58, 58] = [58, 58].intercalate tokens ++ [58, 58]) ∧
      (tokens = [] ↔ ([97, 58, 58, 58, 58, 58] : List UInt8) = []) :=
  tokenize_splits [97, 58, 58, 58, 58, 58] [58, 58] (by decide)

/-! ### A delimiter of one character -/

/-- A character is contained in the strings that contain it as a word. -/
theorem singleton_infix_iff {c : UInt8} {l : List UInt8} : [c] <:+: l ↔ c ∈ l := by
  constructor
  · intro h
    exact h.subset (List.mem_singleton_self c)
  · intro h
    obtain ⟨x, y, rfl⟩ := List.append_of_mem h
    exact ⟨x, y, by simp⟩

/-- **For a delimiter of one character the tokens are the fields of the string**, without an empty last
one. -/
theorem splitOn_of_tokenize (stringIn : List UInt8) (c : UInt8) :
    ∃ tokens, tokenize stringIn [c] = some tokens ∧
      (stringIn.splitOn c = tokens ∨ stringIn.splitOn c = tokens ++ [[]]) := by
  obtain ⟨tokens, hloop, hsplits⟩ := tokenizeLoop_spec (List.cons_ne_nil c []) stringIn []
  refine ⟨tokens, hloop, ?_⟩
  have hclean : ∀ token ∈ tokens, c ∉ token := fun token ht =>
    mt singleton_infix_iff.2 (hsplits.clean token ht)
  by_cases htokens : tokens = []
  · obtain rfl := hsplits.nil_iff.1 htokens
    right
    rw [htokens, List.splitOn_nil, List.nil_append]
  · rcases hsplits.joined with hjoin | hjoin
    · left
      rw [hjoin, List.splitOn_intercalate c hclean htokens]
    · right
      -- one more delimiter is one more field
      have hmore : [c].intercalate tokens ++ [c] = [c].intercalate tokens ++ c :: [] := rfl
      rw [hjoin, hmore, List.splitOn_append_cons_self, List.splitOn_intercalate c hclean htokens,
        List.splitOn_nil]

end CodePort
