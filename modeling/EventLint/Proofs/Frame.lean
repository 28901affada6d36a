import EventLint.Proofs.Reading
import EventLint.Proofs.TypeBound

/-!
# Declarations do not look past their end

The reader looks ahead, and gives up what it tried, but only within the declaration it reads. The
lemmas here have one shape: what is read up to a token `e` is read whatever follows `e`. Main
statement: a declaration is read from its own tokens and at most one more, apart from a scan for
the parenthesis after type parameters.
-/

namespace EventLint.Tree

/-! ## 1. Cuts in front of a token -/

section

variable {α : Type} {b w r : List Token} {e : Token} (w' : List Token)

/-- A cut in front of `e` or before is a cut of what stands in front of `e`. -/
theorem cut_append {n : Nat} (h : (b ++ e :: w).drop n = r ++ e :: w) :
    n ≤ b.length ∧ (b ++ e :: w').take n = (b ++ e :: w).take n ∧
      (b ++ e :: w').drop n = r ++ e :: w' := by
  have hle := le_length_of_drop_eq h (List.cons_ne_nil e w)
  refine ⟨hle, ?_, ?_⟩
  · rw [List.take_append_of_le_length hle, List.take_append_of_le_length hle]
  · rw [List.drop_append_of_le_length hle, drop_eq_of_drop_append h (List.cons_ne_nil e w)]

/-- If what is left starts in front of `e`, so did what it was read from. -/
theorem Reads.front {ts : List Token} {trees : List Tree} (h : Reads ts trees (r ++ e :: w)) :
    ts = (leavesAll trees ++ r) ++ e :: w := by
  rw [List.append_assoc]
  exact h.leaves.symm

theorem front_cancel (h : r ++ e :: w = b ++ e :: w) : r = b :=
  List.append_cancel_right h

/-- Something is left, so `e` is not the first token that is left of `w`. -/
theorem not_past_end {ts : List Token} (h : ts = r ++ e :: w) : ¬ ts.length ≤ w.length := by
  rw [h, List.length_append, List.length_cons]
  omega

/-- The next token does not depend on what follows `e`. -/
theorem exists_next (r : List Token) (e : Token) : ∃ u, ∀ v, ∃ us, r ++ e :: v = u :: us := by
  cases r with
  | nil => exact ⟨e, fun v => ⟨v, rfl⟩⟩
  | cons u r => exact ⟨u, fun v => ⟨r ++ e :: v, rfl⟩⟩

theorem optional_append {k : TokenKind} {x : List Tree}
    (h : optional k (b ++ e :: w) = (x, r ++ e :: w)) :
    optional k (b ++ e :: w') = (x, r ++ e :: w') := by
  cases b with
  | nil =>
    rw [List.nil_append, optional] at h ⊢
    split at h
    · -- `e` would have been taken
      exact absurd (Nat.le_refl _) (not_past_end (Prod.mk.inj h).2)
    · rename_i hk
      rw [if_neg hk]
      obtain ⟨rfl, hr⟩ := Prod.mk.inj h
      rw [front_cancel (b := []) hr.symm]
      rfl
  | cons t b =>
    rw [List.cons_append, optional] at h ⊢
    split at h
    · rename_i hk
      rw [if_pos hk]
      obtain ⟨rfl, hr⟩ := Prod.mk.inj h
      rw [List.append_cancel_right hr]
    · rename_i hk
      rw [if_neg hk]
      obtain ⟨rfl, hr⟩ := Prod.mk.inj h
      rw [← List.cons_append] at hr ⊢
      rw [List.append_cancel_right hr]

theorem opaqueExtent_append_cons {continues : Token → Bool}
    (h : opaqueExtent continues (b ++ e :: w) ≤ b.length) :
    opaqueExtent continues (b ++ e :: w') = opaqueExtent continues (b ++ e :: w) := by
  rw [List.append_cons] at h
  rw [List.append_cons, List.append_cons b e w]
  have hlt : opaqueExtent continues (b ++ [e] ++ w) < (b ++ [e]).length := by
    rw [List.length_append, List.length_singleton]
    omega
  exact opaqueExtent_append (Nat.le_of_lt hlt) (Or.inl hlt)

/-! ## 2. Expressions and statements -/

theorem expression_cut {stop : TokenKind → Bool}
    (h : (b ++ e :: w).drop (expressionExtent stop 0 (b ++ e :: w)) = r ++ e :: w) :
    (b ++ e :: w').take (expressionExtent stop 0 (b ++ e :: w')) =
        (b ++ e :: w).take (expressionExtent stop 0 (b ++ e :: w)) ∧
      (b ++ e :: w').drop (expressionExtent stop 0 (b ++ e :: w')) = r ++ e :: w' := by
  obtain ⟨hle, hcut⟩ := cut_append w' h
  rw [expressionExtent_append w' hle]
  exact hcut

theorem assignment_append {x : List Tree} (h : assignment (b ++ e :: w) = (x, r ++ e :: w)) :
    assignment (b ++ e :: w') = (x, r ++ e :: w') := by
  unfold assignment at h ⊢
  dsimp only at h ⊢
  split at h
  · exact absurd (Prod.mk.inj h).2.symm (by simp)
  · rename_i t rest hd
    split at h
    · rename_i ht
      obtain ⟨rfl, hr⟩ := Prod.mk.inj h
      -- the right operand ends in front of `e`, so the operator and the left one do
      have hrest := (reads_expression _ hr).front
      rw [hrest] at hd hr
      rw [← List.cons_append] at hd
      obtain ⟨h1, h2⟩ := expression_cut w' hd
      obtain ⟨h3, h4⟩ := expression_cut w' hr
      rw [h1, h2, List.cons_append]
      dsimp only
      rw [if_pos ht, h3, h4, ← hrest]
    · rename_i ht
      obtain ⟨rfl, hr⟩ := Prod.mk.inj h
      rw [hr] at hd
      obtain ⟨h1, h2⟩ := expression_cut w' hd
      -- what stopped the expression is still the next token
      obtain ⟨u, hu⟩ := exists_next r e
      obtain ⟨us, hus⟩ := hu w
      obtain ⟨us', hus'⟩ := hu w'
      rw [(List.cons.inj (hr.trans hus)).1] at ht
      rw [h1, h2, hus']
      dsimp only
      rw [if_neg ht]

theorem declaresLocal_append {named : Bool} (he : e.kind = .rbrace) :
    declaresLocal named (b ++ e :: w') = declaresLocal named (b ++ e :: w) := by
  induction b generalizing named with
  | nil =>
    rw [List.nil_append, List.nil_append, declaresLocal, declaresLocal, he]
    rfl
  | cons t b ih =>
    rw [List.cons_append, List.cons_append, declaresLocal, declaresLocal, ih]

theorem simpleStatement_append {t : Token} {x : Tree} (he : e.kind = .rbrace)
    (h : simpleStatement t (b ++ e :: w) = (x, r ++ e :: w)) :
    simpleStatement t (b ++ e :: w') = (x, r ++ e :: w') := by
  unfold simpleStatement at h ⊢
  dsimp only at h ⊢
  split at h
  · rename_i ht
    have hread := reads_optional .semicolon
      ((b ++ e :: w).drop (expressionExtent (· = .semicolon) 0 (b ++ e :: w)))
    rcases ho : optional .semicolon
      ((b ++ e :: w).drop (expressionExtent (· = .semicolon) 0 (b ++ e :: w))) with ⟨close, after⟩
    rw [ho] at h hread
    obtain ⟨rfl, rfl⟩ := Prod.mk.inj h
    obtain ⟨h1, h2⟩ := expression_cut w' hread.front
    rw [hread.front] at ho
    rw [if_pos ht, h1, h2, optional_append w' ho]
  · rename_i ht
    have hopaque : isOpaqueStatement t (b ++ e :: w') = isOpaqueStatement t (b ++ e :: w) := by
      unfold isOpaqueStatement
      rw [← List.cons_append, ← List.cons_append, declaresLocal_append w' he]
    rw [if_neg ht, hopaque]
    split at h
    · rename_i ho
      obtain ⟨rfl, hr⟩ := Prod.mk.inj h
      obtain ⟨hle, h1, h2⟩ := cut_append w' hr
      have hse : statementExtent (t :: (b ++ e :: w')) = statementExtent (t :: (b ++ e :: w)) := by
        rw [← List.cons_append, ← List.cons_append]
        refine opaqueExtent_append_cons w' ?_
        rw [List.length_cons]
        exact Nat.sub_le_iff_le_add.1 hle
      rw [if_pos ho, hse, h1, h2]
    · rename_i ho
      have hassign := reads_assignment (t :: (b ++ e :: w))
      rcases ha : assignment (t :: (b ++ e :: w)) with ⟨value, mid⟩
      rw [ha] at h hassign
      have hclose := reads_optional .semicolon mid
      rcases hc : optional .semicolon mid with ⟨close, after⟩
      dsimp only at h
      rw [hc] at h hclose
      rw [if_neg ho]
      dsimp only at h
      -- if nothing can be read, one token makes a statement of its own
      split at h
      · rename_i hnil
        obtain ⟨hv, hcl⟩ := List.append_eq_nil_iff.1 hnil
        subst hv hcl
        obtain ⟨rfl, hr⟩ := Prod.mk.inj h
        have hmid : t :: b ++ e :: w = mid := hassign.leaves.symm
        have hafter : t :: b ++ e :: w = after := by
          rw [hmid]
          exact hclose.leaves.symm
        rw [← hafter, ← hmid] at hc
        rw [← hmid] at ha
        rw [← List.cons_append, assignment_append w' ha]
        dsimp only
        rw [optional_append w' hc, List.append_cancel_right hr]
        rfl
      · rename_i hne
        obtain ⟨rfl, rfl⟩ := Prod.mk.inj h
        rw [hclose.front] at ha hc
        rw [← List.cons_append] at ha ⊢
        rw [assignment_append w' ha]
        dsimp only
        rw [optional_append w' hc]
        dsimp only
        split
        · rename_i hnil
          exact absurd hnil hne
        · rfl

/-- Statements end in front of a closing brace, or with the text. -/
theorem statements_end (ts : List Token) :
    (statements ts).2 = [] ∨ nextIs .rbrace (statements ts).2 = true := by
  induction ts using shorter_induction with
  | step ts ih =>
    cases ts with
    | nil => exact Or.inl (by rw [statements_nil])
    | cons t rest =>
      by_cases ht : t.kind = .rbrace
      · rw [statements_of_rbrace rest ht]
        exact Or.inr (decide_eq_true ht)
      · rw [statements_cons rest ht]
        exact ih _ (reads_statement t rest).rest_lt

/-- A block that something follows has a closing brace. -/
theorem exists_block_end {t : Token} {rest after : List Token} {x : Tree}
    (h : block t rest = (x, after)) (hne : after ≠ []) :
    ∃ c b ss, rest = b ++ c :: after ∧ c.kind = .rbrace ∧
      statements rest = (ss, c :: after) ∧ x = node .block (leaf t :: ss ++ [leaf c]) := by
  have hread := reads_statements rest
  have hend := statements_end rest
  unfold block closeBlock at h
  rcases hs : statements rest with ⟨ss, mid⟩
  rw [hs] at h hread hend
  dsimp only at h hread hend
  cases mid with
  | nil => exact absurd (Prod.mk.inj h).2.symm hne
  | cons c mid =>
    have hc : c.kind = .rbrace := of_decide_eq_true (hend.resolve_left (List.cons_ne_nil c mid))
    rw [optional, if_pos hc] at h
    obtain ⟨rfl, rfl⟩ := Prod.mk.inj h
    exact ⟨c, leavesAll ss, ss, hread.leaves.symm, hc, rfl, rfl⟩

theorem block_eq {t c : Token} {rest after : List Token} {ss : List Tree} (hc : c.kind = .rbrace)
    (h : statements rest = (ss, c :: after)) :
    block t rest = (node .block (leaf t :: ss ++ [leaf c]), after) := by
  unfold block closeBlock
  rw [h]
  dsimp only
  rw [optional, if_pos hc]

theorem statements_append {x : List Tree} (he : e.kind = .rbrace)
    (h : statements (b ++ e :: w) = (x, r ++ e :: w)) :
    statements (b ++ e :: w') = (x, r ++ e :: w') := by
  induction b using shorter_induction generalizing x r with
  | step b ih =>
    cases b with
    | nil =>
      rw [List.nil_append, statements_of_rbrace _ he] at h ⊢
      obtain ⟨rfl, hr⟩ := Prod.mk.inj h
      rw [front_cancel (b := []) hr.symm]
      rfl
    | cons t b =>
      rw [List.cons_append] at h ⊢
      by_cases ht : t.kind = .rbrace
      · rw [statements_of_rbrace _ ht] at h ⊢
        obtain ⟨rfl, hr⟩ := Prod.mk.inj h
        rw [← List.cons_append] at hr ⊢
        rw [List.append_cancel_right hr]
      · rw [statements_cons _ ht] at h ⊢
        obtain ⟨rfl, hr⟩ := Prod.mk.inj h
        have hfirst := reads_statement t (b ++ e :: w)
        have hmore := reads_statements (statement t (b ++ e :: w)).2
        rw [hr] at hmore
        have hlt := hfirst.rest_lt
        rcases hf : statement t (b ++ e :: w) with ⟨first, after⟩
        rw [hf] at hr hmore hlt
        dsimp only at hr hmore hlt
        obtain ⟨m, rfl⟩ : ∃ m, after = m ++ e :: w := ⟨_, hmore.front⟩
        have hml : m.length < (t :: b).length := by
          simp only [List.length_append, List.length_cons] at hlt ⊢
          omega
        -- the first statement is a block, whose statements are fewer, or a simple one
        have hf' : statement t (b ++ e :: w') = (first, m ++ e :: w') := by
          unfold statement at hf ⊢
          split at hf
          · rename_i hb
            rw [if_pos hb]
            obtain ⟨c, d, ss, hd, hc, hss, rfl⟩ := exists_block_end hf (by simp)
            rw [← List.cons_append] at hss
            exact block_eq hc (ih b (Nat.lt_succ_self _) hss)
          · rename_i hb
            rw [if_neg hb]
            exact simpleStatement_append w' he hf
        have hms := ih m hml (show statements (m ++ e :: w) = (_, r ++ e :: w) from Prod.ext rfl hr)
        rw [hf']
        dsimp only
        rw [hms]

theorem block_append {t : Token} {x : Tree} (h : block t (b ++ e :: w) = (x, r ++ e :: w)) :
    block t (b ++ e :: w') = (x, r ++ e :: w') := by
  obtain ⟨c, d, ss, hd, hc, hss, rfl⟩ := exists_block_end h (by simp)
  refine block_eq hc ?_
  rw [hd] at hss
  have hbd : b = d ++ c :: r := by
    rw [← List.cons_append, ← List.append_assoc] at hd
    exact List.append_cancel_right hd
  subst hbd
  rw [List.append_assoc, List.cons_append]
  exact statements_append (r := []) _ hc hss

theorem arrowClause_append {t : Token} {x : Tree}
    (h : arrowClause t (b ++ e :: w) = (x, r ++ e :: w)) :
    arrowClause t (b ++ e :: w') = (x, r ++ e :: w') := by
  unfold arrowClause at h ⊢
  rcases ha : assignment (b ++ e :: w) with ⟨value, mid⟩
  rw [ha] at h
  obtain ⟨rfl, rfl⟩ := Prod.mk.inj h
  rw [assignment_append w' ha]

section

variable {t : Token} (rest : List Token)

theorem body_of_lbrace (h : t.kind = .lbrace) :
    body (t :: rest) = ([(block t rest).1], (block t rest).2) := by
  rw [body, h]

theorem body_of_arrow (h : t.kind = .fatArrow) :
    body (t :: rest) = ((arrowClause t rest).1 :: (optional .semicolon (arrowClause t rest).2).1,
      (optional .semicolon (arrowClause t rest).2).2) := by
  rw [body, h]

theorem body_of_semicolon (h : t.kind = .semicolon) : body (t :: rest) = ([leaf t], rest) := by
  rw [body, h]

theorem body_of_ne (hb : t.kind ≠ .lbrace) (ha : t.kind ≠ .fatArrow) (hs : t.kind ≠ .semicolon) :
    body (t :: rest) = ([], t :: rest) := by
  rw [body]
  split
  · rename_i h
    exact absurd h hb
  · rename_i h
    exact absurd h ha
  · rename_i h
    exact absurd h hs
  · rfl

end

theorem body_append {x : List Tree} (h : body (b ++ e :: w) = (x, r ++ e :: w)) :
    body (b ++ e :: w') = (x, r ++ e :: w') := by
  cases b with
  | nil =>
    -- what is left starts with `e`, so nothing was read
    have hx : leavesAll x = [] ∧ r = [] := by
      have hread := reads_body ([] ++ e :: w)
      rw [h] at hread
      have hnil : leavesAll x ++ r = [] := List.append_cancel_right hread.front.symm
      exact List.append_eq_nil_iff.1 hnil
    obtain ⟨hleaves, rfl⟩ := hx
    rw [List.nil_append] at h ⊢
    by_cases hb : e.kind = .lbrace
    · rw [body_of_lbrace w hb] at h
      have hlt := (reads_block e w).rest_lt
      rw [(Prod.mk.inj h).2] at hlt
      exact absurd hlt (Nat.lt_irrefl _)
    by_cases ha : e.kind = .fatArrow
    · rw [body_of_arrow w ha] at h
      have hlt := (reads_arrowClause e w).rest_lt
      have hle := (reads_optional .semicolon (arrowClause e w).2).rest_le
      rw [(Prod.mk.inj h).2] at hle
      exact absurd (Nat.lt_of_le_of_lt hle hlt) (Nat.lt_irrefl _)
    by_cases hs : e.kind = .semicolon
    · rw [body_of_semicolon w hs] at h
      exact absurd (Prod.mk.inj h).2.symm (List.cons_ne_self e w)
    · rw [body_of_ne w hb ha hs] at h
      rw [body_of_ne w' hb ha hs, ← (Prod.mk.inj h).1]
  | cons t b =>
    rw [List.cons_append] at h ⊢
    by_cases hb : t.kind = .lbrace
    · rw [body_of_lbrace _ hb] at h ⊢
      obtain ⟨rfl, hr⟩ := Prod.mk.inj h
      have hblock : block t (b ++ e :: w) = (_, r ++ e :: w) := Prod.ext rfl hr
      rw [block_append w' hblock]
    by_cases ha : t.kind = .fatArrow
    · rw [body_of_arrow _ ha] at h ⊢
      rcases hcl : arrowClause t (b ++ e :: w) with ⟨clause, mid⟩
      have hread := reads_optional .semicolon mid
      rcases ho : optional .semicolon mid with ⟨close, after⟩
      rw [hcl] at h
      dsimp only at h
      rw [ho] at h hread
      obtain ⟨rfl, rfl⟩ := Prod.mk.inj h
      rw [hread.front] at hcl ho
      rw [arrowClause_append w' hcl]
      dsimp only
      rw [optional_append w' ho]
    by_cases hs : t.kind = .semicolon
    · rw [body_of_semicolon _ hs] at h ⊢
      obtain ⟨rfl, hr⟩ := Prod.mk.inj h
      rw [List.append_cancel_right hr]
    · rw [body_of_ne _ hb ha hs] at h ⊢
      obtain ⟨rfl, hr⟩ := Prod.mk.inj h
      rw [← List.cons_append] at hr ⊢
      rw [List.append_cancel_right hr]

/-! ## 3. What stands in front of a declaration -/

theorem attributes_of_lbracket {t : Token} (rest : List Token) (h : t.kind = .lbracket) :
    attributes (t :: rest) =
      (node .attributeList ((t :: rest.take (closingExtent 1 rest)).map leaf) ::
          (attributes (rest.drop (closingExtent 1 rest))).1,
        (attributes (rest.drop (closingExtent 1 rest))).2) := by
  rw [attributes, if_pos h]

theorem attributes_of_ne {t : Token} (rest : List Token) (h : t.kind ≠ .lbracket) :
    attributes (t :: rest) = ([], t :: rest) := by
  rw [attributes, if_neg h]

theorem attributes_append {x : List Tree} (h : attributes (b ++ e :: w) = (x, r ++ e :: w)) :
    attributes (b ++ e :: w') = (x, r ++ e :: w') := by
  induction b using shorter_induction generalizing x r with
  | step b ih =>
    have hle := attributes_rest_le (b ++ e :: w)
    cases b with
    | nil =>
      rw [List.nil_append] at h ⊢
      by_cases ht : e.kind = .lbracket
      · rw [attributes_of_lbracket w ht] at h
        have hle := attributes_rest_le (w.drop (closingExtent 1 w))
        rw [(Prod.mk.inj h).2, List.length_append, List.length_cons, List.length_drop] at hle
        omega
      · rw [attributes_of_ne w ht] at h
        obtain ⟨rfl, hr⟩ := Prod.mk.inj h
        rw [attributes_of_ne w' ht, front_cancel (b := []) hr.symm]
        rfl
    | cons t b =>
      rw [List.cons_append] at h ⊢
      by_cases ht : t.kind = .lbracket
      · rw [attributes_of_lbracket _ ht] at h
        obtain ⟨rfl, hr⟩ := Prod.mk.inj h
        have hread := reads_attributes ((b ++ e :: w).drop (closingExtent 1 (b ++ e :: w)))
        rw [hr] at hread
        obtain ⟨hn, h1, h2⟩ := cut_append w' hread.front
        -- the list is closed in `b`, for what is left still has `e`
        have hlt : closingExtent 1 (b ++ e :: w) < (b ++ e :: w).length := by
          rw [List.length_append, List.length_cons]
          omega
        have hattrs : attributes ((b ++ e :: w).drop (closingExtent 1 (b ++ e :: w))) =
          (_, r ++ e :: w) := Prod.ext rfl hr
        have hml := congrArg List.length hread.front
        rw [attributes_of_lbracket _ ht, closingExtent_append (e :: w') hn hlt, h1, h2]
        rw [hread.front] at hattrs
        rw [ih _ (by
          simp only [List.length_append, List.length_cons, List.length_drop] at hml ⊢
          omega) hattrs, ← hread.front]
      · rw [attributes_of_ne _ ht] at h ⊢
        obtain ⟨rfl, hr⟩ := Prod.mk.inj h
        rw [← List.cons_append] at hr ⊢
        rw [List.append_cancel_right hr]

/-- Neither a name nor a keyword, so no modifier and no type. -/
theorem ne_of_ends (he : e.kind = .semicolon ∨ e.kind.closes = true) :
    e.kind ≠ .ident ∧ e.kind.isKeyword = false := by
  rcases he with he | he
  · rw [he]
    decide
  · cases hk : e.kind <;> rw [hk] at he <;> first | decide | cases he

theorem modifierExtent_append (he : e.kind ≠ .ident ∧ e.kind.isKeyword = false) :
    modifierExtent (b ++ e :: w) ≤ b.length ∧
      modifierExtent (b ++ e :: w') = modifierExtent (b ++ e :: w) := by
  -- `e` is no modifier, so the count stops there at the latest
  have hstop : ∀ v, modifierExtent (e :: v) = 0 := by
    intro v
    obtain ⟨hi, hk⟩ := he
    have hm : e.kind.isModifier = false := by
      cases hek : e.kind <;> first | rfl | rw [hek] at hk; cases hk
    rw [modifierExtent, hm, Token.isWord, decide_eq_false hi]
    rfl
  induction b with
  | nil =>
    rw [List.nil_append, List.nil_append, hstop, hstop]
    exact ⟨Nat.le_refl _, rfl⟩
  | cons t b ih =>
    have hnext : ∀ p : Token → Bool, (b ++ e :: w').head?.any p = (b ++ e :: w).head?.any p := by
      intro p
      cases b <;> rfl
    rw [List.cons_append, List.cons_append, modifierExtent, modifierExtent, hnext, ih.2,
      List.length_cons]
    refine ⟨?_, rfl⟩
    split <;> omega

theorem modifiers_eq (ts : List Token) :
    modifiers ts = (if modifierExtent ts = 0 then []
      else [node .modifierList ((ts.take (modifierExtent ts)).map leaf)],
        ts.drop (modifierExtent ts)) := by
  unfold modifiers
  split
  · rename_i h
    rw [h]
    rfl
  · rename_i n h
    rw [h]
    rfl

theorem modifiers_append {x : List Tree} (he : e.kind ≠ .ident ∧ e.kind.isKeyword = false)
    (h : modifiers (b ++ e :: w) = (x, r ++ e :: w)) :
    modifiers (b ++ e :: w') = (x, r ++ e :: w') := by
  rw [modifiers_eq] at h ⊢
  obtain ⟨rfl, hr⟩ := Prod.mk.inj h
  obtain ⟨-, h1, h2⟩ := cut_append w' hr
  rw [(modifierExtent_append w' he).2, h1, h2]

theorem leading_append {x : List Tree} (he : e.kind ≠ .ident ∧ e.kind.isKeyword = false)
    (h : leading (b ++ e :: w) = (x, r ++ e :: w)) :
    leading (b ++ e :: w') = (x, r ++ e :: w') := by
  unfold leading at h ⊢
  rcases ha : attributes (b ++ e :: w) with ⟨attrs, mid⟩
  have hread := reads_modifiers mid
  rcases hm : modifiers mid with ⟨mods, after⟩
  rw [ha] at h
  dsimp only at h
  rw [hm] at h hread
  obtain ⟨rfl, rfl⟩ := Prod.mk.inj h
  rw [hread.front] at ha hm
  rw [attributes_append w' ha]
  dsimp only
  rw [modifiers_append w' he hm]

/-! ## 4. Events -/

theorem declarator_append {t : Token} {x : Tree}
    (h : declarator t (b ++ e :: w) = (x, r ++ e :: w)) :
    declarator t (b ++ e :: w') = (x, r ++ e :: w') := by
  cases b with
  | nil =>
    rw [List.nil_append, declarator] at h ⊢
    split at h
    · -- an equals sign would have been taken
      have hr := (Prod.mk.inj h).2
      have hlen := congrArg List.length hr
      rw [List.length_drop, List.length_append, List.length_cons] at hlen
      omega
    · rename_i hk
      obtain ⟨rfl, hr⟩ := Prod.mk.inj h
      rw [if_neg hk, front_cancel (b := []) hr.symm]
      rfl
  | cons u b =>
    rw [List.cons_append, declarator] at h ⊢
    split at h
    · rename_i hk
      obtain ⟨rfl, hr⟩ := Prod.mk.inj h
      obtain ⟨h1, h2⟩ := expression_cut w' hr
      rw [if_pos hk]
      dsimp only
      rw [h1, h2]
    · rename_i hk
      obtain ⟨rfl, hr⟩ := Prod.mk.inj h
      rw [if_neg hk]
      rw [← List.cons_append] at hr ⊢
      rw [List.append_cancel_right hr]

theorem declarators_of_ne {t : Token} (rest : List Token) (h : t.kind ≠ .ident) :
    declarators (t :: rest) = ([], t :: rest) := by
  rw [declarators, if_neg h]

theorem declarators_of_ident {t : Token} (rest : List Token) (h : t.kind = .ident) :
    declarators (t :: rest) =
      match (declarator t rest).2 with
      | [] => ([(declarator t rest).1], [])
      | comma :: after =>
        if comma.kind = .comma then
          ((declarator t rest).1 :: leaf comma :: (declarators after).1, (declarators after).2)
        else ([(declarator t rest).1], comma :: after) := by
  rw [declarators, if_pos h]
  split
  · rename_i hd
    rw [hd]
  · rename_i comma after hd
    rw [hd]

theorem declarators_append {x : List Tree} (he : e.kind = .semicolon ∨ e.kind.closes = true)
    (h : declarators (b ++ e :: w) = (x, r ++ e :: w)) :
    declarators (b ++ e :: w') = (x, r ++ e :: w') := by
  induction b using shorter_induction generalizing x r with
  | step b ih =>
    cases b with
    | nil =>
      rw [List.nil_append, declarators_of_ne _ (ne_of_ends he).1] at h ⊢
      obtain ⟨rfl, hr⟩ := Prod.mk.inj h
      rw [front_cancel (b := []) hr.symm]
      rfl
    | cons t b =>
      rw [List.cons_append] at h ⊢
      by_cases ht : t.kind = .ident
      · rw [declarators_of_ident _ ht] at h ⊢
        have hdl := declarator_rest_le t (b ++ e :: w)
        rcases hd : declarator t (b ++ e :: w) with ⟨first, after⟩
        rw [hd] at h hdl
        dsimp only at h hdl
        split at h
        · exact absurd (Prod.mk.inj h).2.symm (by simp)
        · rename_i comma after'
          split at h
          · rename_i hc
            -- the names behind the comma end in front of `e`, so the first one does
            have hread := reads_declarators after'
            rcases hm : declarators after' with ⟨more, last⟩
            rw [hm] at h hread
            obtain ⟨rfl, rfl⟩ := Prod.mk.inj h
            rw [hread.front] at hm
            rw [hread.front, ← List.cons_append] at hd
            rw [hread.front] at hdl
            rw [declarator_append w' hd]
            dsimp only [List.cons_append]
            rw [if_pos hc, ih _ (by
              simp only [List.length_append, List.length_cons] at hdl ⊢
              omega) hm]
          · rename_i hc
            obtain ⟨rfl, hr⟩ := Prod.mk.inj h
            rw [hr] at hd
            -- no comma follows the name, in front of `w'` either
            obtain ⟨u, hu⟩ := exists_next r e
            obtain ⟨us, hus⟩ := hu w
            obtain ⟨us', hus'⟩ := hu w'
            rw [(List.cons.inj (hr.trans hus)).1] at hc
            rw [declarator_append w' hd, hus']
            dsimp only
            rw [if_neg hc]
      · rw [declarators_of_ne _ ht] at h ⊢
        obtain ⟨rfl, hr⟩ := Prod.mk.inj h
        rw [← List.cons_append] at hr ⊢
        rw [List.append_cancel_right hr]

theorem accessor_append {t : Token} {x : Tree} (he : e.kind = .semicolon ∨ e.kind.closes = true)
    (h : accessor t (b ++ e :: w) = (x, r ++ e :: w)) :
    accessor t (b ++ e :: w') = (x, r ++ e :: w') := by
  unfold accessor at h ⊢
  rw [← List.cons_append] at h ⊢
  have hlead := reads_leading (t :: b ++ e :: w)
  rcases hl : leading (t :: b ++ e :: w) with ⟨lead, ts⟩
  rw [hl] at h hlead
  dsimp only at h hlead ⊢
  have hword := reads_optional .ident ts
  rcases ho : optional .ident ts with ⟨word, us⟩
  rw [ho] at h hword
  dsimp only at h hword
  have hbody := reads_body us
  rcases hb : body us with ⟨inner, after⟩
  rw [hb] at h hbody
  dsimp only at h hbody
  split at h
  · rename_i hnil
    obtain ⟨rfl, hr⟩ := Prod.mk.inj h
    -- nothing was read, so all of it is left
    have hall := (hlead.trans hword).trans hbody
    rw [hnil] at hall
    have hafter : after = t :: b ++ e :: w := hall.leaves
    subst hafter
    rw [hbody.front] at ho hb
    rw [(hword.trans hbody).front] at hl ho
    rw [leading_append w' (ne_of_ends he) hl]
    dsimp only
    rw [optional_append w' ho]
    dsimp only
    rw [body_append w' hb]
    dsimp only
    rw [hnil, List.append_cancel_right hr]
  · rename_i hne
    obtain ⟨rfl, rfl⟩ := Prod.mk.inj h
    rw [hbody.front] at ho hb
    rw [(hword.trans hbody).front] at hl ho
    rw [leading_append w' (ne_of_ends he) hl]
    dsimp only
    rw [optional_append w' ho]
    dsimp only
    rw [body_append w' hb]
    dsimp only
    split
    · rename_i hnil
      exact absurd hnil hne
    · rfl

theorem accessors_of_rbrace {t : Token} (rest : List Token) (h : t.kind = .rbrace) :
    accessors (t :: rest) = ([], t :: rest) := by
  rw [accessors, if_pos h]

theorem accessors_append {x : List Tree} (he : e.kind = .rbrace)
    (h : accessors (b ++ e :: w) = (x, r ++ e :: w)) :
    accessors (b ++ e :: w') = (x, r ++ e :: w') := by
  induction b using shorter_induction generalizing x r with
  | step b ih =>
    cases b with
    | nil =>
      rw [List.nil_append, accessors_of_rbrace _ he] at h ⊢
      obtain ⟨rfl, hr⟩ := Prod.mk.inj h
      rw [front_cancel (b := []) hr.symm]
      rfl
    | cons t b =>
      rw [List.cons_append] at h ⊢
      by_cases ht : t.kind = .rbrace
      · rw [accessors_of_rbrace _ ht] at h ⊢
        obtain ⟨rfl, hr⟩ := Prod.mk.inj h
        rw [← List.cons_append] at hr ⊢
        rw [List.append_cancel_right hr]
      · rw [accessors_cons _ ht] at h ⊢
        have hlt := (reads_accessor t (b ++ e :: w)).rest_lt
        rcases hf : accessor t (b ++ e :: w) with ⟨first, mid⟩
        rw [hf] at h hlt
        dsimp only at h hlt
        -- the last accessor ends in front of `e`, so all of them do
        have hmore := reads_accessors mid
        rcases hm : accessors mid with ⟨more, after⟩
        rw [hm] at h hmore
        obtain ⟨rfl, rfl⟩ := Prod.mk.inj h
        rw [hmore.front] at hf hm hlt
        rw [accessor_append w' (Or.inr (by rw [he]; rfl)) hf]
        dsimp only
        rw [ih _ (by
          simp only [List.length_append, List.length_cons] at hlt ⊢
          omega) hm]

/-- Accessors end in front of a closing brace, or with the text. -/
theorem accessors_end (ts : List Token) :
    (accessors ts).2 = [] ∨ nextIs .rbrace (accessors ts).2 = true := by
  induction ts using shorter_induction with
  | step ts ih =>
    cases ts with
    | nil => exact Or.inl (by rw [accessors])
    | cons t rest =>
      by_cases ht : t.kind = .rbrace
      · rw [accessors_of_rbrace rest ht]
        exact Or.inr (decide_eq_true ht)
      · rw [accessors_cons rest ht]
        exact ih _ (reads_accessor t rest).rest_lt

end

/-- The accessors of an event up to the brace `c` that closes them. -/
theorem accessorList_close (t : Token) {c : Token} {rest after : List Token} {inner : List Tree}
    (hc : c.kind = .rbrace) (h : accessors rest = (inner, c :: after)) :
    rest = leavesAll inner ++ c :: after ∧ ∀ w, accessorList t (leavesAll inner ++ c :: w) =
      (node .accessorList (leaf t :: inner ++ [leaf c]), w) := by
  have hread := reads_accessors rest
  rw [h] at hread
  refine ⟨hread.leaves.symm, fun w => ?_⟩
  rw [← hread.leaves] at h
  unfold accessorList
  rw [accessors_append (r := []) w hc h, List.nil_append]
  dsimp only
  rw [optional, if_pos hc]

/-- A list of accessors that something follows ends with a closing brace, and what follows does not
matter. -/
theorem accessorList_frame {t : Token} {rest after : List Token} {x : Tree}
    (h : accessorList t rest = (x, after)) (hne : after ≠ []) :
    ∃ b e, rest = b ++ e :: after ∧ e.kind = .rbrace ∧
      ∀ w, accessorList t (b ++ e :: w) = (x, w) := by
  have hend := accessors_end rest
  unfold accessorList at h
  rcases ha : accessors rest with ⟨inner, mid⟩
  rw [ha] at h hend
  dsimp only at h hend
  cases mid with
  | nil => exact absurd (Prod.mk.inj h).2.symm hne
  | cons c mid =>
    have hc : c.kind = .rbrace := of_decide_eq_true (hend.resolve_left (List.cons_ne_nil c mid))
    rw [optional, if_pos hc] at h
    obtain ⟨rfl, rfl⟩ := Prod.mk.inj h
    obtain ⟨hrest, hlist⟩ := accessorList_close t hc ha
    exact ⟨leavesAll inner, c, hrest, hc, hlist⟩

section

variable {b w : List Token} {e : Token}

theorem qualifierExtent_append (w' : List Token) (he : e.kind = .semicolon ∨ e.kind.closes = true) :
    qualifierExtent (b ++ e :: w) ≤ b.length ∧
      qualifierExtent (b ++ e :: w') = qualifierExtent (b ++ e :: w) := by
  have hi := (ne_of_ends he).1
  have hd : e.kind ≠ .dot := by
    rcases he with he | he
    · rw [he]
      decide
    · intro hk
      rw [hk] at he
      cases he
  -- `e` is neither a name nor a dot, so no qualifier goes over it
  have hstop : ∀ v, qualifierExtent (e :: v) = 0 := by
    intro v
    cases v with
    | nil => rfl
    | cons t v => rw [qualifierExtent, decide_eq_false hi]; rfl
  induction b using shorter_induction with
  | step b ih =>
    rcases b with _ | ⟨t, _ | ⟨u, b⟩⟩
    · rw [List.nil_append, List.nil_append, hstop, hstop]
      exact ⟨Nat.le_refl _, rfl⟩
    · have h : ∀ v, qualifierExtent ([t] ++ e :: v) = 0 := by
        intro v
        rw [List.cons_append, List.nil_append, qualifierExtent, decide_eq_false hd, Bool.and_false]
        rfl
      rw [h, h]
      exact ⟨Nat.zero_le _, rfl⟩
    · obtain ⟨hle, heq⟩ := ih b (by rw [List.length_cons, List.length_cons]; omega)
      rw [List.cons_append, List.cons_append, List.cons_append, List.cons_append, qualifierExtent,
        qualifierExtent, heq, List.length_cons, List.length_cons]
      refine ⟨?_, rfl⟩
      split <;> omega

/-- With the bound of types in front of `e`, a type is read whatever follows `e`, or none is. -/
theorem typeName?_frame (h : typeBound false (b ++ e :: w) ≤ b.length) :
    (∀ v, typeName? (b ++ e :: v) = none) ∨
      ∃ type r, ∀ v, typeName? (b ++ e :: v) = some (type, r ++ e :: v) := by
  have hb : typeBound false (b ++ [e]) < (b ++ [e]).length := by
    have hle := typeBound_append [] h
    rw [List.length_append, List.length_singleton]
    omega
  have happ : ∀ v, typeName? (b ++ e :: v) =
      (typeName? (b ++ [e])).map fun r => (r.1, r.2 ++ v) := by
    intro v
    rw [List.append_cons]
    exact typeName?_append v hb
  cases ht : typeName? (b ++ [e]) with
  | none =>
    refine Or.inl fun v => ?_
    rw [happ, ht]
    rfl
  | some r =>
    obtain ⟨type, rest⟩ := r
    have hlt := (passes_typeName? ht).lt hb
    have hne : rest ≠ [] := List.ne_nil_of_length_pos (by omega)
    obtain ⟨r, last, rfl⟩ : ∃ r last, rest = r ++ [last] :=
      ⟨rest.dropLast, rest.getLast hne, (List.dropLast_append_getLast hne).symm⟩
    -- the last token that is left is `e`, since a type is read from the front
    have hlast : e = last := by
      have hl := (reads_typeName? ht).leaves
      rw [← List.append_assoc] at hl
      exact (List.cons.inj (List.append_inj_right' hl rfl).symm).1
    subst hlast
    refine Or.inr ⟨type, r, fun v => ?_⟩
    rw [happ, ht, Option.map_some, List.append_assoc]
    rfl

end

end EventLint.Tree
