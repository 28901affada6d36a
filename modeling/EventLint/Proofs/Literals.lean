import EventLint.Proofs.Rescan

/-!
# Written literals

A verbatim string is written with its double quotes doubled, an ordinary string or a character with
backslashes, and a raw string as it is, between enough double quotes. Main statements: a literal is
scanned as one token, exactly as it is written. The exception is a verbatim string whose content
starts with a double quote: the three double quotes in a row open a raw string.
-/

namespace EventLint

namespace Literal

/-! ## 1. Verbatim strings -/

/-- A text with each double quote doubled. -/
def doubled : Text → Text
  | [] => []
  | c :: cs => if c = '"' then '"' :: '"' :: doubled cs else c :: doubled cs

/-- The verbatim string with this content. -/
def verbatim (content : Text) : Text :=
  '@' :: '"' :: (doubled content ++ ['"'])

/-- A verbatim string ends with the double quote that was not doubled. -/
theorem verbatimExtent_doubled (content : Text) {rest : Text} (h : rest.head? ≠ some '"') :
    verbatimExtent (doubled content ++ '"' :: rest) = (doubled content).length + 1 := by
  induction content with
  | nil =>
    -- one more double quote would be read as a doubled one
    cases rest with
    | nil => rfl
    | cons d rest =>
      have hd : d ≠ '"' := fun hd => h (congrArg some hd)
      simp [doubled, verbatimExtent, hd]
  | cons c cs ih =>
    by_cases hc : c = '"'
    · rw [doubled, if_pos hc, List.cons_append, List.cons_append, verbatimExtent, ih,
        List.length_cons, List.length_cons]
      omega
    · rw [doubled, if_neg hc, List.cons_append, verbatimExtent, if_neg hc, ih, List.length_cons]
      · omega
      · exact fun _ hq => absurd hq hc

/-! ## 2. Raw strings -/

/-- What follows the `n` double quotes that open a raw string: everything through the first `n`
double quotes in a row, or all of the text. -/
structure ClosesRaw (n : Nat) (body rest : Text) : Prop where
  closed : List.replicate n '"' <:+ body ∨ rest = []
  first : ∀ p, p <+: body → List.replicate n '"' <:+ p → p = body

/-- A run of double quotes at the end of a text does not reach over another character. -/
theorem suffix_of_suffix_cons {n : Nat} {a p : Text} {c : Char} (hc : c ≠ '"')
    (h : List.replicate n '"' <:+ a ++ c :: p) : List.replicate n '"' <:+ p := by
  have hmem : c ∉ List.replicate n '"' := fun hm => hc (List.eq_of_mem_replicate hm)
  rcases List.suffix_or_suffix_of_suffix h (List.suffix_append a (c :: p)) with hs | hs
  · rcases List.suffix_cons_iff.1 hs with he | hs
    · exact absurd (he ▸ List.mem_cons_self) hmem
    · exact hs
  · exact absurd (hs.subset List.mem_cons_self) hmem

/-- Fewer than `n` double quotes do not end with `n` of them. -/
theorem not_suffix_replicate {n seen : Nat} (h : seen < n) :
    ¬ List.replicate n '"' <:+ List.replicate seen '"' ++ [] := by
  intro hs
  have hle := hs.length_le
  rw [List.append_nil, List.length_replicate, List.length_replicate] at hle
  omega

/-- The scan of a raw string after `seen` double quotes stops where it first has seen `n`. -/
theorem rawExtent_spec {n seen : Nat} (cs : Text) (h : seen < n) :
    (List.replicate n '"' <:+ List.replicate seen '"' ++ cs.take (rawExtent n seen cs) ∨
        cs.drop (rawExtent n seen cs) = []) ∧
      ∀ p, p <+: cs.take (rawExtent n seen cs) →
        List.replicate n '"' <:+ List.replicate seen '"' ++ p →
          p = cs.take (rawExtent n seen cs) := by
  -- the quotes seen so far stand in front of what is still to read
  induction cs generalizing seen with
  | nil => exact ⟨Or.inr rfl, fun p hp _ => List.prefix_nil.1 hp⟩
  | cons c cs ih =>
    by_cases hc : c = '"'
    · subst hc
      have hseen : ∀ x : Text,
          List.replicate (seen + 1) '"' ++ x = List.replicate seen '"' ++ '"' :: x := fun x => by
        rw [List.replicate_succ', List.append_assoc, List.singleton_append]
      by_cases hlast : seen + 1 = n
      · rw [rawExtent, if_pos rfl, if_pos hlast, List.take_succ_cons, List.take_zero]
        refine ⟨Or.inl ⟨[], ?_⟩, fun p hp hend => ?_⟩
        · rw [← hseen, List.nil_append, List.append_nil, hlast]
        · rcases List.prefix_cons_iff.1 hp with rfl | ⟨q, rfl, hq⟩
          · exact absurd hend (not_suffix_replicate h)
          · rw [List.prefix_nil.1 hq]
      · obtain ⟨hclosed, hfirst⟩ := ih (show seen + 1 < n by omega)
        rw [rawExtent, if_pos rfl, if_neg hlast, Nat.add_comm 1, List.take_succ_cons,
          List.drop_succ_cons]
        rw [hseen] at hclosed
        refine ⟨hclosed, fun p hp hend => ?_⟩
        rcases List.prefix_cons_iff.1 hp with rfl | ⟨q, rfl, hq⟩
        · exact absurd hend (not_suffix_replicate h)
        · rw [← hfirst q hq (by rwa [hseen])]
    · -- another character: the count starts again
      obtain ⟨hclosed, hfirst⟩ := ih (show 0 < n by omega)
      rw [rawExtent, if_neg hc, Nat.add_comm 1, List.take_succ_cons, List.drop_succ_cons]
      refine ⟨hclosed.imp_left fun hs => ?_, fun p hp hend => ?_⟩
      · exact hs.trans ((List.suffix_cons c _).trans (List.suffix_append _ _))
      · rcases List.prefix_cons_iff.1 hp with rfl | ⟨q, rfl, hq⟩
        · exact absurd hend (not_suffix_replicate h)
        · rw [← hfirst q hq (suffix_of_suffix_cons hc hend)]

theorem closesRaw_rawExtent {n : Nat} (cs : Text) (h : 0 < n) :
    ClosesRaw n (cs.take (rawExtent n 0 cs)) (cs.drop (rawExtent n 0 cs)) :=
  ⟨(rawExtent_spec cs h).1, (rawExtent_spec cs h).2⟩

theorem take_quotes (cs : Text) : cs.take (quotes cs) = List.replicate (quotes cs) '"' := by
  have hall : ∀ c ∈ cs.takeWhile (· = '"'), c = '"' := fun c hc =>
    of_decide_eq_true (List.all_eq_true.1 List.all_takeWhile c hc)
  rw [quotes, ← List.prefix_iff_eq_take.1 (List.takeWhile_prefix _)]
  exact List.eq_replicate_iff.2 ⟨rfl, hall⟩

theorem head?_drop_quotes (cs : Text) : (cs.drop (quotes cs)).head? ≠ some '"' := by
  induction cs with
  | nil => simp
  | cons c cs ih =>
    by_cases hc : c = '"'
    · simpa [quotes, hc] using ih
    · simp [quotes, hc]

/-- The raw string with this content between `n` double quotes on each side. -/
def raw (n : Nat) (content : Text) : Text :=
  List.replicate n '"' ++ content ++ List.replicate n '"'

/-- A raw string is closed by the double quotes after its content, if the content neither holds as
many in a row nor ends with one. -/
theorem ClosesRaw.eq_append {n : Nat} {body after content rest : Text} (h : ClosesRaw n body after)
    (hsplit : body ++ after = content ++ List.replicate n '"' ++ rest)
    (hlast : content.getLast? ≠ some '"') (hrun : ¬ List.replicate n '"' <:+: content) :
    body = content ++ List.replicate n '"' := by
  have hbody : body <+: content ++ List.replicate n '"' ++ rest := hsplit ▸ List.prefix_append _ _
  rcases List.prefix_or_prefix_of_prefix hbody (List.prefix_append _ rest) with hle | hge
  · obtain ⟨more, hmore⟩ := hle
    rcases h.closed with hclosed | hafter
    · rcases List.append_eq_append_iff.1 hmore with ⟨between, hcontent, -⟩ | ⟨close, hbody, hquotes⟩
      · -- closed within the content: there would be a run of quotes in it
        obtain ⟨front, hfront⟩ := hclosed
        exact absurd ⟨front, between, by rw [hfront, hcontent]⟩ hrun
      · -- closed too early: the content would end with a quote
        have hclose : List.replicate n '"' <:+ close := by
          rw [hbody] at hclosed
          cases content using List.reverseRecOn with
          | nil => exact hclosed
          | append_singleton content d =>
            rw [List.getLast?_concat] at hlast
            rw [List.append_assoc] at hclosed
            exact suffix_of_suffix_cons (fun hd => hlast (congrArg some hd)) hclosed
        rw [hbody, hclose.eq_of_length_le]
        rw [hquotes]
        exact (List.prefix_append close more).length_le
    · -- the text ends with the raw string
      rw [hafter, List.append_nil] at hsplit
      have hlen := congrArg List.length hmore
      rw [hsplit] at hlen ⊢
      simp only [List.length_append] at hlen
      rw [List.eq_nil_of_length_eq_zero (show rest.length = 0 by omega), List.append_nil]
  · exact (h.first _ hge (List.suffix_append _ _)).symm

theorem rawExtent_append {n : Nat} {content : Text} (rest : Text) (hn : 0 < n)
    (hlast : content.getLast? ≠ some '"') (hrun : ¬ List.replicate n '"' <:+: content) :
    rawExtent n 0 (content ++ List.replicate n '"' ++ rest) = content.length + n := by
  have hbody := (closesRaw_rawExtent (content ++ List.replicate n '"' ++ rest) hn).eq_append
    (List.take_append_drop _ _) hlast hrun
  have hlen := congrArg List.length hbody
  rw [List.length_take_of_le (by rw [rawExtent_eq]; exact run_le _ _), List.length_append,
    List.length_replicate] at hlen
  exact hlen

theorem quotes_replicate_append (n : Nat) {cs : Text} (h : cs.head? ≠ some '"') :
    quotes (List.replicate n '"' ++ cs) = n := by
  have hall : quotes (List.replicate n '"') = (List.replicate n '"').length := by
    simp [quotes]
  rw [quotes_append, if_pos hall, quotes_eq_zero h, List.length_replicate, Nat.add_zero]

/-! ## 3. Backslashes -/

/-- A text in which a backslash and a letter stand for each backslash, quote and line break. -/
def escaped (quote : Char) (letter : Char → Char) : Text → Text
  | [] => []
  | c :: cs =>
    if c = '\\' || c = quote || c = '\n' then '\\' :: letter c :: escaped quote letter cs
    else c :: escaped quote letter cs

/-- The literal with this content between two quotes. -/
def quoted (quote : Char) (letter : Char → Char) (content : Text) : Text :=
  quote :: (escaped quote letter content ++ [quote])

/-- A literal ends with the quote that was not escaped. -/
theorem escapedExtent_escaped {quote : Char} (letter : Char → Char) (content rest : Text)
    (hq : quote ≠ '\\') :
    escapedExtent quote (escaped quote letter content ++ quote :: rest) =
      (escaped quote letter content).length + 1 := by
  have hplain : ∀ c cs, c ≠ '\\' → escapedExtent quote (c :: cs) =
      if c = quote || c = '\n' then 1 else 1 + escapedExtent quote cs := by
    intro c cs hc
    rw [escapedExtent]
    · exact fun h => absurd h hc
    · exact fun _ _ h => absurd h hc
  induction content with
  | nil => rw [escaped, List.nil_append, hplain _ _ hq, decide_eq_true rfl]; rfl
  | cons c cs ih =>
    by_cases hc : (c = '\\' || c = quote || c = '\n') = true
    · -- the letter after the backslash is passed over, whatever it is
      rw [escaped, if_pos hc, List.cons_append, List.cons_append, escapedExtent, ih,
        List.length_cons, List.length_cons]
      omega
    · rw [escaped, if_neg hc, List.cons_append]
      simp only [Bool.or_eq_true, decide_eq_true_eq, not_or] at hc
      rw [hplain _ _ hc.1.1, if_neg (by simp [hc.1.2, hc.2]), ih, List.length_cons]
      omega

theorem quotes_escaped_le (letter : Char → Char) (content : Text) {rest : Text}
    (h : rest.head? ≠ some '"') : quotes (escaped '"' letter content ++ '"' :: rest) ≤ 1 := by
  cases content with
  | nil => exact Nat.le_of_eq (quotes_replicate_append 1 h)
  | cons c cs =>
    rw [quotes_eq_zero]
    · exact Nat.zero_le 1
    · rw [escaped]
      split
      · exact fun he => absurd (Option.some.inj he) (by decide)
      · rename_i hc
        simp only [Bool.or_eq_true, decide_eq_true_eq, not_or] at hc
        exact fun he => hc.1.2 (Option.some.inj he)

/-! ## 4. The first token -/

theorem quotes_doubled_le {content rest : Text} (hc : content.head? ≠ some '"')
    (h : rest.head? ≠ some '"') : quotes (doubled content ++ '"' :: rest) ≤ 1 := by
  cases content with
  | nil => exact Nat.le_of_eq (quotes_replicate_append 1 h)
  | cons c cs =>
    have hne : c ≠ '"' := fun he => hc (congrArg some he)
    rw [doubled, if_neg hne, quotes_eq_zero]
    · omega
    · exact fun he => hne (Option.some.inj he)

theorem le_quotes_doubled {content rest : Text} (hc : content.head? = some '"') :
    2 ≤ quotes (doubled content ++ '"' :: rest) := by
  obtain ⟨cs, rfl⟩ := List.head?_eq_some_iff.1 hc
  simp [doubled, quotes]

end Literal

namespace Token

open Literal

/-- A string with the mark `@` is one token. -/
theorem lexeme_at (body : Text) :
    lexeme '@' ('"' :: body) = (.stringLiteral, 1 + stringExtent ['@'] body) := by
  rfl

/-- The first token of a text that starts with `@` and a double quote. -/
theorem scan_at (body : Text) :
    ∃ more, scan ('@' :: '"' :: body) =
      ⟨.stringLiteral, [], '@' :: '"' :: body.take (stringExtent ['@'] body), 0⟩ :: more := by
  have hlen : (body.take (stringExtent ['@'] body)).length = stringExtent ['@'] body :=
    List.length_take_of_le (stringExtent_le _ _)
  have hscan := @scanFrom_of_lexeme true 0 [] ('"' :: body.take (stringExtent ['@'] body))
    (body.drop (stringExtent ['@'] body)) '@' .stringLiteral
    (Trivia.extent_of_item?_eq_none rfl)
    (by rw [List.cons_append, List.take_append_drop, lexeme_at, List.length_cons, hlen,
      Nat.add_comm])
  rw [List.cons_append, List.take_append_drop] at hscan
  exact ⟨_, hscan⟩

/-- The first token of a text that starts with a verbatim string is this string, if its content does
not start with a double quote. If it does, the token is what the raw string takes that opens with
all double quotes after the mark. -/
theorem scan_verbatim (content : Text) {rest : Text} (h : rest.head? ≠ some '"') :
    ∃ text more, scan (verbatim content ++ rest) = ⟨.stringLiteral, [], text, 0⟩ :: more ∧
      (content.head? ≠ some '"' → text = verbatim content) ∧
      (content.head? = some '"' → ∃ n body after, 3 ≤ n ∧
        text = '@' :: (List.replicate n '"' ++ body) ∧ verbatim content ++ rest = text ++ after ∧
        (body ++ after).head? ≠ some '"' ∧ ClosesRaw n body after) := by
  have htext : verbatim content ++ rest = '@' :: '"' :: (doubled content ++ '"' :: rest) := by
    simp [verbatim]
  obtain ⟨more, hscan⟩ := scan_at (doubled content ++ '"' :: rest)
  refine ⟨_, more, htext ▸ hscan, fun hc => ?_, fun hc => ?_⟩
  · -- two quotes in a row at most: no raw string opens
    have hextent : stringExtent ['@'] (doubled content ++ '"' :: rest) =
        (doubled content).length + 1 := by
      have hq := quotes_doubled_le hc h
      rw [stringExtent_eq, if_neg (by omega), ← verbatimExtent_doubled content h,
        verbatimExtent_eq]
      rfl
    rw [hextent, verbatim, List.take_length_add_append, List.take_succ_cons, List.take_zero]
  · -- the quote of the content is doubled, so at least three follow the mark
    generalize hbody : doubled content ++ '"' :: rest = cs at hscan htext ⊢
    have hq : 2 ≤ quotes cs := hbody ▸ le_quotes_doubled hc
    have hextent : stringExtent ['@'] cs =
        quotes cs + rawExtent (quotes cs + 1) 0 (cs.drop (quotes cs)) := by
      rw [stringExtent_eq, if_pos hq, rawExtent_eq]
    refine ⟨quotes cs + 1, _, _, by omega, ?_, ?_, ?_,
      closesRaw_rawExtent (cs.drop (quotes cs)) (Nat.succ_pos _)⟩
    · rw [hextent, List.take_add, take_quotes, List.replicate_succ, List.cons_append]
    · rw [htext, hextent, List.drop_drop, List.cons_append, List.cons_append,
        List.take_append_drop]
    · rw [List.take_append_drop]
      exact head?_drop_quotes cs

/-- Doubled quotes inside and at the end, and after them a text that goes on with quotes. -/
theorem scan_verbatim_path :
    let content := "c:\\a \"b\"".toList
    let rest := " + \"x\";".toList
    content.head? ≠ some '"' ∧ rest.head? ≠ some '"' ∧
      ∃ text more, scan (verbatim content ++ rest) = ⟨.stringLiteral, [], text, 0⟩ :: more ∧
        text = verbatim content := by
  intro content rest
  have hrest : rest.head? ≠ some '"' := by decide
  obtain ⟨text, more, hscan, hplain, -⟩ := scan_verbatim content hrest
  have hcontent : content.head? ≠ some '"' := by decide
  exact ⟨hcontent, hrest, text, more, hscan, hplain hcontent⟩

/-- Three double quotes after the mark are not taken for a quote in the content. -/
theorem scan_verbatim_leadingQuote :
    scan (verbatim "\"x".toList ++ ";".toList) =
      [⟨.stringLiteral, [], verbatim "\"x".toList ++ ";".toList, 0⟩] := by
  decide +kernel

/-- The literal is the first token of a text, and the other tokens are those of what follows it. -/
def IsFirst (k : TokenKind) (literal rest : Text) : Prop :=
  scan (literal ++ rest) =
    ⟨k, [], literal, 0⟩ :: scanFrom false (Text.byteSize literal) rest

/-- A literal that ends with its quote `q` is the first token if it is one lexeme. -/
theorem isFirst_of_lexeme {c q : Char} {u rest : Text} {k : TokenKind}
    (hitem : Trivia.item? true c (u ++ [q] ++ rest) = none) (hq : Text.isBlank q = false)
    (hl : lexeme c (u ++ [q] ++ rest) = (k, u.length + 1)) : IsFirst k (c :: (u ++ [q])) rest := by
  have hscan := @scanFrom_of_lexeme true 0 [] (u ++ [q]) rest c k
    (Trivia.extent_of_item?_eq_none hitem) (by rw [hl, List.length_append, List.length_singleton])
  -- the quote is no blank, so the rest does not start a line
  have hfresh : Trivia.freshAfter true ([] ++ c :: (u ++ [q])) = false :=
    Trivia.freshAfter_eq_false true (c :: u) [] q hq List.not_mem_nil
  rw [hfresh, Nat.zero_add, Nat.zero_add] at hscan
  exact hscan

theorem lexeme_quote (body : Text) :
    lexeme '"' body = (.stringLiteral, stringExtent [] body) := by
  rw [← Nat.zero_add (stringExtent [] body)]
  rfl

theorem lexeme_apostrophe (body : Text) :
    lexeme '\'' body = (.charLiteral, escapedExtent '\'' body) := by
  rfl

theorem isFirst_quoted (letter : Char → Char) (content : Text) {rest : Text}
    (h : rest.head? ≠ some '"') : IsFirst .stringLiteral (quoted '"' letter content) rest := by
  refine isFirst_of_lexeme rfl (by decide) ?_
  have hquotes := quotes_escaped_le letter content h
  rw [List.append_assoc, List.singleton_append, lexeme_quote, stringExtent_eq,
    if_neg (by omega), ← escapedExtent_escaped letter content rest (by decide), escapedExtent_eq]
  rfl

theorem isFirst_raw {n : Nat} {content : Text} (rest : Text) (hn : 3 ≤ n) (hne : content ≠ [])
    (hfirst : content.head? ≠ some '"') (hlast : content.getLast? ≠ some '"')
    (hrun : ¬ List.replicate n '"' <:+: content) : IsFirst .stringLiteral (raw n content) rest := by
  obtain ⟨m, rfl⟩ : ∃ m, n = m + 1 := ⟨n - 1, by omega⟩
  -- the first and the last quote taken off
  have hraw : raw (m + 1) content = '"' :: (List.replicate m '"' ++ content ++
      List.replicate m '"' ++ ['"']) := by
    rw [raw, List.append_assoc _ (List.replicate m '"'), ← List.replicate_succ']
    rfl
  have hbody : List.replicate m '"' ++ content ++ List.replicate m '"' ++ ['"'] ++ rest =
      List.replicate m '"' ++ (content ++ List.replicate (m + 1) '"' ++ rest) := by
    rw [List.append_assoc _ (List.replicate m '"'), ← List.replicate_succ']
    simp only [List.append_assoc]
  have hquotes : quotes (List.replicate m '"' ++
      (content ++ List.replicate (m + 1) '"' ++ rest)) = m := by
    refine quotes_replicate_append m ?_
    cases content with
    | nil => exact absurd rfl hne
    | cons c cs => exact hfirst
  rw [hraw]
  refine isFirst_of_lexeme rfl (by decide) ?_
  rw [hbody, lexeme_quote, stringExtent_eq, hquotes, if_pos (by omega),
    List.drop_left' (List.length_replicate), ← rawExtent_eq,
    rawExtent_append rest (Nat.succ_pos m) hlast hrun]
  simp only [List.length_append, List.length_replicate]
  congr 1
  omega

theorem isFirst_character (letter : Char → Char) (content rest : Text) :
    IsFirst .charLiteral (quoted '\'' letter content) rest := by
  refine isFirst_of_lexeme rfl (by decide) ?_
  rw [List.append_assoc, List.singleton_append, lexeme_apostrophe,
    escapedExtent_escaped letter content rest (by decide)]

/-- Every string and every character is one token, exactly as it is written, whatever stands in it:
with its quotes escaped, or raw between more quotes than it has in a row. -/
theorem scan_literal (content rest : Text) (letter : Char → Char) :
    (rest.head? ≠ some '"' → IsFirst .stringLiteral (quoted '"' letter content) rest) ∧
    (∀ n, 3 ≤ n → content ≠ [] → content.head? ≠ some '"' → content.getLast? ≠ some '"' →
      ¬ List.replicate n '"' <:+: content → IsFirst .stringLiteral (raw n content) rest) ∧
    IsFirst .charLiteral (quoted '\'' letter content) rest :=
  ⟨fun h => isFirst_quoted letter content h,
    fun _ hn hne hfirst hlast hrun => isFirst_raw rest hn hne hfirst hlast hrun,
    isFirst_character letter content rest⟩

/-- A brace, a comment mark, a keyword, two double quotes in a row, a backslash and a line break, in
front of a text that goes on with a quote where it may. -/
theorem scan_literal_marks :
    let content := "\x7d // class \"\" \\ '\n;".toList
    let letter := fun c => if c = '\n' then 'n' else c
    quoted '"' letter content = "\"\x7d // class \\\"\\\" \\\\ '\\n;\"".toList ∧
      (";".toList.head? ≠ some '"' ∧
        IsFirst .stringLiteral (quoted '"' letter content) ";".toList) ∧
      (3 ≤ 3 ∧ content ≠ [] ∧ content.head? ≠ some '"' ∧ content.getLast? ≠ some '"' ∧
        ¬ List.replicate 3 '"' <:+: content ∧
        IsFirst .stringLiteral (raw 3 content) "\"\"".toList) ∧
      IsFirst .charLiteral (quoted '\'' letter content) "'".toList := by
  intro content letter
  have hrest : ";".toList.head? ≠ some '"' := by decide
  have hne : content ≠ [] := by decide
  have hfirst : content.head? ≠ some '"' := by decide
  have hlast : content.getLast? ≠ some '"' := by decide
  have hrun : ¬ List.replicate 3 '"' <:+: content := fun h =>
    absurd (h.sublist.count_le '"') (by decide)
  refine ⟨by decide, ⟨hrest, (scan_literal content _ letter).1 hrest⟩,
    ⟨by decide, hne, hfirst, hlast, hrun, ?_⟩, (scan_literal content _ letter).2.2⟩
  exact (scan_literal content _ letter).2.1 3 (by decide) hne hfirst hlast hrun

end Token

end EventLint
