import EventLint.Line
import EventLint.Token.Trivia
import Mathlib.Data.List.Induction

/-!
# What trivia is

`Trivia.Only before cs` says, without reference to the scan, that `cs` is made of blanks, comments
and directive lines when it stands after `before`. Main statement: the scan skips only such text.
-/

namespace EventLint.Trivia

open Text

/-! ## 1. Freshness -/

/-- Only blanks stand between the last line break and the end of `before`. -/
def AtLineStart (before : Text) : Prop :=
  ∀ c ∈ lastLine before, isBlank c = true

theorem freshAfter_append (fresh : Bool) (a b : Text) :
    freshAfter fresh (a ++ b) = freshAfter (freshAfter fresh a) b := by
  unfold freshAfter
  rw [List.foldl_append]

theorem freshAfter_concat (fresh : Bool) (a : Text) (c : Char) :
    freshAfter fresh (a ++ [c]) = (c = '\n' || (freshAfter fresh a && isBlank c)) := by
  rw [freshAfter_append]
  rfl

theorem lastLine_concat (before : Text) (c : Char) :
    lastLine (before ++ [c]) = if c = '\n' then [] else lastLine before ++ [c] := by
  unfold lastLine
  rw [List.reverse_append, List.reverse_singleton, List.singleton_append, List.takeWhile_cons]
  by_cases h : c = '\n'
  · rw [if_pos h, if_neg (by simp [h]), List.reverse_nil]
  · rw [if_neg h, if_pos (by simp [h]), List.reverse_cons]

/-- The flag that the scan carries along says what it should of the text already read. -/
theorem freshAfter_iff (before : Text) : freshAfter true before = true ↔ AtLineStart before := by
  induction before using List.reverseRecOn with
  | nil => simp [freshAfter, AtLineStart, lastLine]
  | append_singleton before c ih =>
    rw [freshAfter_concat, AtLineStart, lastLine_concat]
    by_cases h : c = '\n'
    · simp [h]
    · rw [if_neg h]
      simp only [h, decide_false, Bool.false_or, Bool.and_eq_true, ih, AtLineStart, List.mem_append,
        List.mem_singleton]
      constructor
      · rintro ⟨hb, hc⟩ d (hd | rfl)
        · exact hb d hd
        · exact hc
      · intro hb
        exact ⟨fun d hd => hb d (Or.inl hd), hb c (Or.inr rfl)⟩

/-- A line on which something other than a blank stands is not fresh any more. -/
theorem freshAfter_eq_false (fresh : Bool) (a body : Text) (c : Char) (hc : isBlank c = false)
    (hb : '\n' ∉ body) : freshAfter fresh (a ++ c :: body) = false := by
  induction body using List.reverseRecOn with
  | nil =>
    rw [freshAfter_concat, hc, Bool.and_false, Bool.or_false, decide_eq_false_iff_not]
    rintro rfl
    exact absurd hc (by decide)
  | append_singleton body d ih =>
    rw [List.mem_append, not_or, List.mem_singleton] at hb
    rw [← List.cons_append, ← List.append_assoc, freshAfter_concat, ih hb.1, Bool.false_and,
      Bool.or_false, decide_eq_false_iff_not]
    exact fun hd => hb.2 hd.symm

/-! ## 2. Trivia -/

/-- The text ends, or a line break follows. -/
def EndsLine (rest : Text) : Prop :=
  rest = [] ∨ rest.head? = some '\n'

/-- Blanks, comments and directive lines, standing after `before`. -/
inductive Only : Text → Text → Prop where
  | nil (before : Text) : Only before []
  | blank {before rest : Text} {c : Char} (hc : isBlank c = true)
      (hr : Only (before ++ [c]) rest) : Only before (c :: rest)
  /-- From `//` to the end of the line. -/
  | lineComment {before body rest : Text} (hb : '\n' ∉ body) (he : EndsLine rest)
      (hr : Only (before ++ ('/' :: '/' :: body)) rest) :
      Only before ('/' :: '/' :: body ++ rest)
  /-- Through the first closing mark. -/
  | blockComment {before body rest : Text} (hb : ¬ ['*', '/'] <:+: body)
      (hr : Only (before ++ ('/' :: '*' :: body ++ ['*', '/'])) rest) :
      Only before ('/' :: '*' :: body ++ ['*', '/'] ++ rest)
  /-- A comment that is never closed takes the rest of the text. -/
  | openComment {before body : Text} (hb : ¬ ['*', '/'] <:+: body) :
      Only before ('/' :: '*' :: body)
  /-- From a `#` that only blanks precede to the end of its line. -/
  | directive {before body rest : Text} (hs : AtLineStart before) (hb : '\n' ∉ body)
      (he : EndsLine rest) (hr : Only (before ++ '#' :: body) rest) :
      Only before ('#' :: body ++ rest)

/-! ## 3. Extents of the parts -/

theorem take_lineExtent (cs : Text) : '\n' ∉ cs.take (lineExtent cs) := by
  induction cs with
  | nil => simp
  | cons c cs ih =>
    unfold lineExtent
    split
    · simp
    · rename_i hc
      rw [Nat.add_comm, List.take_succ_cons, List.mem_cons, not_or]
      exact ⟨fun h => hc h.symm, ih⟩

theorem drop_lineExtent (cs : Text) : EndsLine (cs.drop (lineExtent cs)) := by
  induction cs with
  | nil => exact Or.inl rfl
  | cons c cs ih =>
    unfold lineExtent
    split
    · rename_i hc
      exact Or.inr (by rw [hc]; rfl)
    · rw [Nat.add_comm, List.drop_succ_cons]
      exact ih

/-- A block comment either ends at its first closing mark or has none. -/
theorem commentExtent_cases (cs : Text) :
    (∃ body rest, cs = body ++ ['*', '/'] ++ rest ∧ ¬ ['*', '/'] <:+: body ∧
      commentExtent cs = body.length + 2) ∨
    (¬ ['*', '/'] <:+: cs ∧ commentExtent cs = cs.length) := by
  induction cs with
  | nil => exact Or.inr ⟨by simp, rfl⟩
  | cons c cs ih =>
    unfold commentExtent
    split
    · rename_i h
      rw [Bool.and_eq_true, decide_eq_true_eq, decide_eq_true_eq] at h
      obtain ⟨rest, rfl⟩ := List.head?_eq_some_iff.1 h.2
      exact Or.inl ⟨[], rest, by rw [h.1]; rfl, by simp, rfl⟩
    · rename_i h
      -- a mark that starts here is excluded, so one in `c :: body` lies in `body`
      have key : ∀ body, body <+: cs → ¬ ['*', '/'] <:+: body → ¬ ['*', '/'] <:+: c :: body := by
        rintro body ⟨t, ht⟩ hb hi
        rcases List.infix_cons_iff.1 hi with hp | hi
        · apply h
          obtain ⟨u, hu⟩ := hp
          rw [List.cons_append, List.cons_append, List.nil_append, List.cons.injEq] at hu
          rw [← ht, ← hu.1, ← hu.2]
          rfl
        · exact hb hi
      rcases ih with ⟨body, rest, hcs, hb, hn⟩ | ⟨hb, hn⟩
      · refine Or.inl ⟨c :: body, rest, by rw [hcs]; rfl, ?_, ?_⟩
        · exact key body ⟨['*', '/'] ++ rest, by rw [hcs, List.append_assoc]⟩ hb
        · rw [hn, List.length_cons]
          omega
      · refine Or.inr ⟨key cs (List.prefix_refl cs) hb, ?_⟩
        rw [hn, List.length_cons]
        omega

/-! ## 4. The scan skips trivia only -/

theorem EndsLine.take {rest : Text} (h : EndsLine rest) (k : Nat) : EndsLine (rest.take k) := by
  rcases h with rfl | h
  · exact Or.inl List.take_nil
  · cases k with
    | zero => exact Or.inl rfl
    | succ k =>
      obtain ⟨rest, rfl⟩ := List.head?_eq_some_iff.1 h
      exact Or.inr rfl

/-- What a scan takes after a first character: `n` characters, then `k` of the rest. -/
theorem take_one_add_add (c : Char) (cs : Text) (n k : Nat) :
    (c :: cs).take (1 + n + k) = c :: cs.take n ++ (cs.drop n).take k := by
  rw [show 1 + n + k = n + k + 1 by omega, List.take_succ_cons, List.take_add, List.cons_append]

theorem only_take_extent (before cs : Text) :
    Only before (cs.take (extent (freshAfter true before) cs)) := by
  generalize hf : freshAfter true before = fresh
  -- on the calls of the extent; `before` grows by what each of them takes
  fun_induction extent fresh cs generalizing before with
  | case1 => exact Only.nil before
  | case2 fresh c rest hc ih =>
    rw [Nat.add_comm, List.take_succ_cons]
    apply Only.blank hc
    apply ih
    rw [freshAfter_concat, hf, hc, Bool.and_true, Bool.or_comm]
  | case3 fresh c rest _ hc n ih =>
    rw [Bool.and_eq_true, decide_eq_true_eq, decide_eq_true_eq] at hc
    obtain ⟨rest, rfl⟩ := List.head?_eq_some_iff.1 hc.2
    -- a line comment, up to the end of its line
    have hn : n = lineExtent rest + 1 := by
      rw [Nat.add_comm]
      rfl
    have hb := take_lineExtent rest
    rw [hn, List.drop_succ_cons] at ih
    rw [take_one_add_add, hc.1, hn, List.take_succ_cons, List.drop_succ_cons]
    apply Only.lineComment hb ((drop_lineExtent rest).take _)
    apply ih
    exact freshAfter_eq_false true before ('/' :: rest.take (lineExtent rest)) '/' (by decide)
      (by rw [List.mem_cons, not_or]; exact ⟨by decide, hb⟩)
  | case4 fresh c rest _ _ hc n ih =>
    rw [Bool.and_eq_true, decide_eq_true_eq, decide_eq_true_eq] at hc
    obtain ⟨rest, rfl⟩ := List.head?_eq_some_iff.1 hc.2
    -- a block comment, closed or open to the end of the text
    have hn : n = commentExtent rest + 1 := Nat.add_comm 1 _
    rw [take_one_add_add, hc.1, hn, List.take_succ_cons]
    rw [hn] at ih
    rcases commentExtent_cases rest with ⟨body, tail, rfl, hb, hm⟩ | ⟨hb, hm⟩
    · have ht : (body ++ ['*', '/'] ++ tail).take (body.length + 2) = body ++ ['*', '/'] := by
        rw [List.take_append_of_le_length (by simp), List.take_of_length_le (by simp)]
      rw [hm, ht]
      rw [hm] at ih
      apply Only.blockComment hb
      apply ih
      rw [show before ++ ('/' :: '*' :: body ++ ['*', '/']) =
        (before ++ '/' :: '*' :: body ++ ['*']) ++ '/' :: [] by simp]
      exact freshAfter_eq_false _ _ _ _ (by decide) (by simp)
    · rw [hm, List.take_length, List.drop_of_length_le (by simp), List.take_nil, List.append_nil]
      exact Only.openComment hb
  | case5 fresh c rest _ _ _ hc n ih =>
    rw [Bool.and_eq_true, decide_eq_true_eq] at hc
    have hb := take_lineExtent rest
    rw [take_one_add_add, hc.1]
    -- a directive, at the start of a line
    apply Only.directive ((freshAfter_iff before).1 (hf.trans hc.2)) hb
    · exact (drop_lineExtent rest).take _
    · exact ih _ (freshAfter_eq_false true before _ '#' (by decide) hb)
  | case6 => exact Only.nil before

end EventLint.Trivia
