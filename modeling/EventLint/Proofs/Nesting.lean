import EventLint.Proofs.Grammar
import EventLint.Proofs.Ending

/-!
# Nested brackets

Tokens whose brackets nest are read as one group by every part of the reader that looks for the end
of a group: runs of tokens, expressions, parameters and the statements of a block.
-/

namespace EventLint

namespace Grammar

/-! ## 1. Nested lists -/

theorem Pairs.opens {o c : TokenKind} (h : Pairs o c) : o.opens = true := by
  rcases h with ⟨rfl, -⟩ | ⟨rfl, -⟩ | ⟨rfl, -⟩ <;> rfl

theorem Pairs.closes {o c : TokenKind} (h : Pairs o c) : c.closes = true := by
  rcases h with ⟨-, rfl⟩ | ⟨-, rfl⟩ | ⟨-, rfl⟩ <;> rfl

theorem Pairs.eq_of_ne_lbrace {o c : TokenKind} (h : Pairs o c) (hb : o ≠ .lbrace) :
    o = .lparen ∨ o = .lbracket := by
  rcases h with ⟨h, -⟩ | ⟨h, -⟩ | ⟨h, -⟩
  · exact Or.inl h
  · exact Or.inr h
  · exact absurd h hb

namespace Nested

section

variable {α β : Type} {kind : α → TokenKind} {xs ys : List α}

theorem append (hx : Nested kind xs) (hy : Nested kind ys) : Nested kind (xs ++ ys) := by
  induction hx with
  | nil => exact hy
  | plain ho hc _ ih => exact .plain ho hc ih
  | group hp hi _ _ ih =>
    rw [List.append_assoc, List.cons_append]
    exact .group hp hi ih

theorem singleton {x : α} (ho : (kind x).opens = false) (hc : (kind x).closes = false) :
    Nested kind [x] :=
  .plain ho hc .nil

/-- What nests does so whatever else is known of its tokens. -/
theorem of_map {f : β → α} {us : List β} (h : Nested kind (us.map f)) :
    Nested (kind ∘ f) us := by
  generalize hxs : us.map f = xs at h
  induction h generalizing us with
  | nil =>
    rw [List.map_eq_nil_iff.1 hxs]
    exact .nil
  | plain ho hc _ ih =>
    obtain ⟨u, us, rfl, rfl, rfl⟩ := List.map_eq_cons_iff.1 hxs
    exact .plain ho hc (ih rfl)
  | group hp _ _ ihi ih =>
    obtain ⟨a, b, rfl, ha, hb⟩ := List.map_eq_append_iff.1 hxs
    obtain ⟨o, inner, rfl, rfl, rfl⟩ := List.map_eq_cons_iff.1 ha
    obtain ⟨c, us, rfl, rfl, rfl⟩ := List.map_eq_cons_iff.1 hb
    exact .group hp (ihi rfl) (ih rfl)

end

theorem tail {α : Type} {kind : α → TokenKind} {x : α} {xs : List α} (h : Nested kind (x :: xs))
    (hx : (kind x).opens = false) : Nested kind xs := by
  generalize hz : x :: xs = z at h
  cases h with
  | nil => cases hz
  | plain _ _ h =>
    obtain ⟨-, rfl⟩ := List.cons.inj hz
    exact h
  | group hp _ _ =>
    obtain ⟨rfl, -⟩ := List.cons.inj hz
    rw [hp.opens] at hx
    cases hx

theorem not_closes {α : Type} {kind : α → TokenKind} {x : α} {xs : List α}
    (h : Nested kind (x :: xs)) : (kind x).closes = false := by
  generalize hz : x :: xs = z at h
  cases h with
  | nil => cases hz
  | plain _ hc _ =>
    obtain ⟨rfl, -⟩ := List.cons.inj hz
    exact hc
  | group hp _ _ =>
    obtain ⟨rfl, -⟩ := List.cons.inj hz
    rcases hp with ⟨h, -⟩ | ⟨h, -⟩ | ⟨h, -⟩ <;> rw [h] <;> rfl

/-- The tokens of nested lexemes nest. -/
theorem tokens {ts : List Token} {xs : List Lexeme} (h : ts.map Token.bare = xs)
    (hxs : Nested Prod.fst xs) : Nested Token.kind ts := by
  subst h
  have h : Nested (Prod.fst ∘ Token.bare) ts := of_map hxs
  exact h

end Nested

end Grammar

namespace Tree

open Grammar

section

variable {b w : List Token} {e t : Token}

/-! ## 2. Extents -/

theorem closingExtent_nested (h : Nested Token.kind b) (d : Nat) (w : List Token) :
    closingExtent (d + 1) (b ++ w) = b.length + closingExtent (d + 1) w := by
  induction h generalizing d w with
  | nil => rw [List.nil_append, List.length_nil, Nat.zero_add]
  | plain ho hc _ ih =>
    rw [List.cons_append, closingExtent, ho, hc, List.length_cons]
    simp only [Bool.false_eq_true, if_false]
    rw [ih]
    omega
  | @group o c inner xs hp _ _ ihi ih =>
    -- the group raises the depth by one and its closing bracket lowers it again
    have hopens : ¬ c.kind.opens = true := by
      intro h
      rcases TokenKind.eq_of_closes hp.closes with hk | hk | hk <;> rw [hk] at h <;> cases h
    rw [List.cons_append, List.cons_append, List.append_assoc, List.cons_append, closingExtent,
      if_pos hp.opens, ihi, closingExtent, if_neg hopens, if_pos hp.closes, ih]
    simp only [List.length_append, List.length_cons]
    omega

theorem closingExtent_group (h : Nested Token.kind b) (he : e.kind.closes = true)
    (w : List Token) : closingExtent 1 (b ++ e :: w) = b.length + 1 := by
  have hopens : ¬ e.kind.opens = true := by
    intro ho
    rcases TokenKind.eq_of_closes he with hk | hk | hk <;> rw [hk] at ho <;> cases ho
  rw [closingExtent_nested h, closingExtent, if_neg hopens, if_pos he]
  cases w <;> rfl

theorem drop_group (c : List Token) (e : Token) (w : List Token) :
    (c ++ e :: w).drop (c.length + 1) = w := by
  rw [List.append_cons]
  exact List.drop_left' (by simp)

theorem drop_past_group (o c : Token) (inner xs : List Token) (n : Nat) :
    (o :: inner ++ c :: xs).drop (1 + (inner.length + 1) + n) = xs.drop n := by
  rw [← List.drop_drop, List.cons_append, Nat.add_comm 1, List.drop_succ_cons, drop_group]

/-- An expression among nested tokens ends between groups. -/
theorem expressionExtent_nested (h : Nested Token.kind b) (he : e.kind.closes = true)
    (stop : TokenKind → Bool) :
    ∃ n, n ≤ b.length ∧ Nested Token.kind (b.drop n) ∧
      ∀ w, expressionExtent stop 0 (b ++ e :: w) = n := by
  -- along the nesting; at depth zero a group is passed over as a whole
  induction h with
  | nil =>
    refine ⟨0, Nat.le_refl _, .nil, fun w => ?_⟩
    rw [List.nil_append, expressionExtent, if_pos ⟨rfl, Or.inr he⟩]
  | @plain t c ho hc hcs ih =>
    by_cases hs : stop t.kind = true
    · refine ⟨0, Nat.zero_le _, .plain ho hc hcs, fun w => ?_⟩
      rw [List.cons_append, expressionExtent, if_pos ⟨rfl, Or.inl hs⟩]
    · obtain ⟨n, hn, hdrop, hext⟩ := ih
      refine ⟨n + 1, Nat.succ_le_succ hn, hdrop, fun w => ?_⟩
      have hgo : ¬ ((0 : Nat) = 0 ∧ (stop t.kind = true ∨ t.kind.closes = true)) := by
        rw [hc]
        simp [hs]
      rw [List.cons_append, expressionExtent, if_neg hgo, ho, hc]
      simp only [Bool.false_eq_true, if_false]
      rw [hext, Nat.add_comm]
  | @group o c inner xs hp hi hxs ihi ih =>
    by_cases hs : stop o.kind = true
    · refine ⟨0, Nat.zero_le _, .group hp hi hxs, fun w => ?_⟩
      rw [List.cons_append, List.cons_append, expressionExtent, if_pos ⟨rfl, Or.inl hs⟩]
    · obtain ⟨n, hn, hdrop, hext⟩ := ih
      have hclosed : o.kind.closes = false := by
        rcases hp with ⟨h, -⟩ | ⟨h, -⟩ | ⟨h, -⟩ <;> rw [h] <;> rfl
      have hgo : ¬ ((0 : Nat) = 0 ∧ (stop o.kind = true ∨ o.kind.closes = true)) := by
        rw [hclosed]
        simp [hs]
      refine ⟨1 + (inner.length + 1) + n, ?_, ?_, fun w => ?_⟩
      · simp only [List.length_append, List.length_cons]
        omega
      · rwa [drop_past_group]
      · rw [List.cons_append, List.cons_append, List.append_assoc, List.cons_append,
          expressionExtent, if_neg hgo, if_pos hp.opens, expressionExtent_eq_closing,
          closingExtent_group hi hp.closes, drop_group, hext]
        omega

theorem isPlain_of_ne_semicolon {k : TokenKind} (ho : k.opens = false) (hc : k.closes = false)
    (hs : k ≠ .semicolon) : k.isPlain = true := by
  revert ho hc hs
  cases k <;> simp [TokenKind.isPlain, TokenKind.opens, TokenKind.closes]

section

variable {o c : Token} {inner : List Token} (continues : Token → Bool)

/-- A run goes on behind a group in parentheses or brackets. -/
theorem opaqueExtent_brackets (hi : Nested Token.kind inner) (hp : Pairs o.kind c.kind)
    (ho : o.kind ≠ .lbrace) (w : List Token) :
    opaqueExtent continues (o :: (inner ++ c :: w)) =
      1 + (inner.length + 1) + opaqueExtent continues w := by
  rw [opaqueExtent_of_group _ _ (hp.eq_of_ne_lbrace ho), closingExtent_group hi hp.closes,
    drop_group]

/-- After braces it ends, takes a semicolon or goes on. -/
theorem opaqueExtent_braces (hi : Nested Token.kind inner) (hp : Pairs o.kind c.kind)
    (ho : o.kind = .lbrace) (w : List Token) :
    opaqueExtent continues (o :: (inner ++ c :: w)) =
      if nextIs .semicolon w then 1 + (inner.length + 1) + 1
      else if w.head?.any continues then 1 + (inner.length + 1) + opaqueExtent continues w
      else 1 + (inner.length + 1) := by
  rw [opaqueExtent_of_lbrace _ _ ho, closingExtent_group hi hp.closes, drop_group]

end

/-- A run of tokens among nested tokens ends between groups, in front of the closing brace at the
latest. -/
theorem opaqueExtent_nested (h : Nested Token.kind b) (he : e.kind = .rbrace)
    (continues : Token → Bool) (hcont : continues e = false) :
    ∃ n, n ≤ b.length ∧ (b ≠ [] → 0 < n) ∧ Nested Token.kind (b.drop n) ∧
      ∀ w, opaqueExtent continues (b ++ e :: w) = n := by
  induction h with
  | nil => exact ⟨0, Nat.le_refl _, fun h => absurd rfl h, .nil, fun w =>
      opaqueExtent_of_rbrace _ _ he⟩
  | @plain t c ho hc hcs ih =>
    by_cases hs : t.kind = .semicolon
    · refine ⟨1, by simp, fun _ => Nat.zero_lt_one, hcs, fun w => ?_⟩
      exact opaqueExtent_of_semicolon _ _ hs
    · obtain ⟨n, hn, -, hdrop, hext⟩ := ih
      refine ⟨n + 1, Nat.succ_le_succ hn, fun _ => Nat.succ_pos n, hdrop, fun w => ?_⟩
      rw [List.cons_append, opaqueExtent_of_plain _ _ (isPlain_of_ne_semicolon ho hc hs), hext,
        Nat.add_comm]
  | @group o c inner xs hp hi hxs ihi ih =>
    obtain ⟨n, hn, hpos, hdrop, hext⟩ := ih
    have hall : ∀ w, o :: inner ++ c :: xs ++ e :: w = o :: (inner ++ c :: (xs ++ e :: w)) := by
      intro w
      simp
    have htotal : (o :: inner ++ c :: xs).length = 1 + (inner.length + 1) + xs.length := by
      simp only [List.length_append, List.length_cons]
      omega
    -- behind the group the run takes `m` more tokens
    have hends : ∀ m, m ≤ xs.length → Nested Token.kind (xs.drop m) →
        (∀ w, opaqueExtent continues (o :: (inner ++ c :: (xs ++ e :: w))) =
          1 + (inner.length + 1) + m) →
        ∃ n, n ≤ (o :: inner ++ c :: xs).length ∧ (o :: inner ++ c :: xs ≠ [] → 0 < n) ∧
          Nested Token.kind ((o :: inner ++ c :: xs).drop n) ∧
          ∀ w, opaqueExtent continues (o :: inner ++ c :: xs ++ e :: w) = n := by
      intro m hm hrest hrun
      refine ⟨1 + (inner.length + 1) + m, by omega, fun _ => by omega, ?_, fun w => ?_⟩
      · rwa [drop_past_group]
      · rw [hall, hrun]
    by_cases hb : o.kind = .lbrace
    · have hrun := opaqueExtent_braces continues hi hp hb
      cases xs with
      | nil =>
        refine hends 0 (Nat.le_refl _) .nil fun w => ?_
        rw [hrun, List.nil_append, if_neg (by simp [nextIs, he]), if_neg (by simp [hcont])]
        rfl
      | cons u us =>
        by_cases hu : u.kind = .semicolon
        · refine hends 1 (by simp) (hxs.tail (by rw [hu]; rfl)) fun w => ?_
          rw [hrun, if_pos (by simp [nextIs, hu])]
        · by_cases hc : continues u = true
          · refine hends n hn hdrop fun w => ?_
            rw [hrun, if_neg (by simp [nextIs, hu]), if_pos (by simp [hc]), hext]
          · refine hends 0 (Nat.zero_le _) hxs fun w => ?_
            rw [hrun, if_neg (by simp [nextIs, hu]), if_neg (by simp [hc])]
            rfl
    · refine hends n hn hdrop fun w => ?_
      rw [opaqueExtent_brackets continues hi hp hb, hext]

/-- A run goes through nested tokens without a semicolon and without braces. -/
theorem opaqueExtent_quiet {continues : Token → Bool} (h : Nested Token.kind b)
    (hq : ∀ t ∈ b, t.kind ≠ .semicolon ∧ t.kind ≠ .lbrace) (w : List Token) :
    opaqueExtent continues (b ++ w) = b.length + opaqueExtent continues w := by
  induction h generalizing w with
  | nil => rw [List.nil_append, List.length_nil, Nat.zero_add]
  | @plain t c ho hc _ ih =>
    have hplain := isPlain_of_ne_semicolon ho hc (hq t List.mem_cons_self).1
    rw [List.cons_append, opaqueExtent_of_plain _ _ hplain,
      ih fun u hu => hq u (List.mem_cons_of_mem _ hu), List.length_cons]
    omega
  | @group o c inner xs hp hi _ _ ih =>
    rw [List.append_assoc, List.cons_append, List.cons_append,
      opaqueExtent_brackets _ hi hp (hq o (by simp)).2, ih fun u hu => hq u (by simp [hu])]
    simp only [List.length_append, List.length_cons]
    omega

/-! ## 3. Parameters and statements -/

theorem encloses_nested (h : Nested Token.kind b) (he : e.kind.closes = true) : Encloses b e := by
  obtain ⟨n, hn, hdrop, hext⟩ := expressionExtent_nested h he fun _ => false
  refine ⟨he, fun w => ?_⟩
  have hend := expressionExtent_end (fun _ => false) 0 (b ++ e :: w)
  rw [enclosedExtent, hext]
  rw [hext, List.drop_append_of_le_length hn] at hend
  -- the run stops at a closing bracket, which is none of `b`
  cases hd : b.drop n with
  | nil => exact Nat.le_antisymm hn (List.drop_eq_nil_iff.1 hd)
  | cons u us =>
    rw [hd] at hend hdrop
    obtain ⟨c, v, hc, hk⟩ := hend.resolve_left (by simp)
    obtain ⟨rfl, -⟩ := List.cons.inj hc
    rcases hk with hk | hk
    · cases hk
    · rw [hdrop.not_closes] at hk
      cases hk

/-- The parameters of a method take what stands in their parentheses. -/
theorem parameterList_enclosed (h : Encloses b e) (he : e.kind = .rparen) (opening : Token)
    (w : List Token) : ∃ cs, parameterList opening (b ++ e :: w) = (node .parameterList cs, w) := by
  obtain ⟨x, hx⟩ := h.parameters
  unfold parameterList
  rw [hx]
  dsimp only
  rw [optional, if_pos he]
  exact ⟨_, rfl⟩

theorem optional_nested (h : Nested Token.kind b) (he : e.kind = .rbrace) (w : List Token) :
    ∃ m, m.length ≤ b.length ∧ Nested Token.kind m ∧
      (optional .semicolon (b ++ e :: w)).2 = m ++ e :: w := by
  cases b with
  | nil =>
    refine ⟨[], Nat.le_refl _, .nil, ?_⟩
    rw [List.nil_append, optional, if_neg (by rw [he]; decide)]
  | cons t c =>
    by_cases ht : t.kind = .semicolon
    · refine ⟨c, Nat.le_succ _, h.tail (by rw [ht]; rfl), ?_⟩
      rw [List.cons_append, optional, if_pos ht]
    · refine ⟨t :: c, Nat.le_refl _, h, ?_⟩
      rw [List.cons_append, optional, if_neg ht]

theorem assignment_nested (h : Nested Token.kind b) (he : e.kind = .rbrace) (w : List Token) :
    ∃ m, m.length ≤ b.length ∧ Nested Token.kind m ∧
      (assignment (b ++ e :: w)).2 = m ++ e :: w := by
  have hcl : e.kind.closes = true := by
    rw [he]
    rfl
  obtain ⟨n, hn, hdrop, hext⟩ := expressionExtent_nested h hcl
    fun k => k = .semicolon || k.isAssignment
  unfold assignment
  rw [hext]
  dsimp only
  rw [List.drop_append_of_le_length hn]
  cases hd : b.drop n with
  | nil =>
    refine ⟨[], Nat.zero_le _, .nil, ?_⟩
    rw [List.nil_append]
    dsimp only
    rw [if_neg (by rw [he]; decide)]
  | cons u us =>
    rw [hd] at hdrop
    have hlen := congrArg List.length hd
    rw [List.length_drop, List.length_cons] at hlen
    rw [List.cons_append]
    dsimp only
    by_cases hu : u.kind.isAssignment = true
    · have hus : Nested Token.kind us := hdrop.tail (by
        revert hu
        cases u.kind <;> simp [TokenKind.isAssignment, TokenKind.opens])
      -- the right operand, up to the semicolon
      obtain ⟨m, hm, hrest, hext'⟩ := expressionExtent_nested hus hcl (· = .semicolon)
      refine ⟨us.drop m, by rw [List.length_drop]; omega, hrest, ?_⟩
      rw [if_pos hu, hext', List.drop_append_of_le_length hm]
    · refine ⟨u :: us, by rw [List.length_cons]; omega, hdrop, ?_⟩
      rw [if_neg hu, List.cons_append]

/-- A statement that is no block ends between groups. -/
theorem simpleStatement_nested (h : Nested Token.kind (t :: b)) (he : e.kind = .rbrace)
    (w : List Token) :
    ∃ m, m.length ≤ b.length ∧ Nested Token.kind m ∧
      (simpleStatement t (b ++ e :: w)).2 = m ++ e :: w := by
  have hlt := (reads_simpleStatement t (b ++ e :: w)).rest_lt
  unfold simpleStatement at hlt ⊢
  by_cases hret : t.kind = .keyword .returnKw
  · rw [if_pos hret]
    obtain ⟨n, hn, hdrop, hext⟩ := expressionExtent_nested (h.tail (by rw [hret]; rfl))
      (show e.kind.closes = true by rw [he]; rfl) (· = .semicolon)
    obtain ⟨m, hm, hnest, hopt⟩ := optional_nested hdrop he w
    refine ⟨m, Nat.le_trans hm (by rw [List.length_drop]; omega), hnest, ?_⟩
    rw [hext]
    dsimp only
    rw [List.drop_append_of_le_length hn]
    exact hopt
  rw [if_neg hret] at hlt ⊢
  by_cases hop : isOpaqueStatement t (b ++ e :: w) = true
  · rw [if_pos hop]
    obtain ⟨n, hn, hpos, hdrop, hext⟩ := opaqueExtent_nested h he
      (fun t => t.kind = .dot || t.isWord ["while"]) (by simp [Token.isWord, he])
    obtain ⟨n, rfl⟩ := Nat.exists_eq_succ_of_ne_zero (Nat.ne_of_gt (hpos (List.cons_ne_nil t b)))
    rw [List.drop_succ_cons] at hdrop
    refine ⟨b.drop n, by rw [List.length_drop]; omega, hdrop, ?_⟩
    rw [← List.cons_append, statementExtent, hext, Nat.succ_sub_one]
    dsimp only
    rw [List.drop_append_of_le_length (Nat.le_of_succ_le_succ hn)]
  · rw [if_neg hop] at hlt ⊢
    obtain ⟨n, hn, hnest, hassign⟩ := assignment_nested h he w
    obtain ⟨m, hm, hnest', hopt⟩ := optional_nested hnest he w
    rw [List.cons_append] at hassign
    dsimp only at hlt ⊢
    rw [hassign] at hlt ⊢
    split
    · -- an expression is empty only in front of a semicolon or a closing bracket
      rename_i hnil
      obtain ⟨hvalue, hclose⟩ := List.append_eq_nil_iff.1 hnil
      have hleaves := (reads_assignment (t :: (b ++ e :: w))).leaves
      have hend := assignment_end (t :: (b ++ e :: w))
      rw [hvalue, hassign, leavesAll, List.nil_append] at hleaves
      rw [hassign, hleaves] at hend
      obtain ⟨u, v, hu, hk⟩ := hend.resolve_left (List.cons_ne_nil _ _)
      obtain ⟨rfl, -⟩ := List.cons.inj hu
      rcases hk with hk | hk
      · rw [hleaves, optional, if_pos hk] at hclose
        cases hclose
      · rw [h.not_closes] at hk
        cases hk
    · rename_i hne
      refine ⟨m, ?_, hnest', hopt⟩
      split at hlt
      · rename_i hnil
        exact absurd hnil hne
      · rw [hopt] at hlt
        simp only [List.length_append, List.length_cons] at hlt
        omega

/-- The statements of a block take what stands in its braces. -/
theorem statements_nested (h : Nested Token.kind b) (he : e.kind = .rbrace) (w : List Token) :
    (statements (b ++ e :: w)).2 = e :: w := by
  induction b using shorter_induction generalizing e w with
  | step b ih =>
    cases b with
    | nil => rw [List.nil_append, statements_of_rbrace _ he]
    | cons t c =>
      have ht : t.kind ≠ .rbrace := by
        intro hk
        have hc := h.not_closes
        rw [hk] at hc
        cases hc
      obtain ⟨m, hm, hnest, hrest⟩ : ∃ m, m.length ≤ c.length ∧ Nested Token.kind m ∧
          (statement t (c ++ e :: w)).2 = m ++ e :: w := by
        unfold statement
        split
        · -- a block inside: its statements are fewer
          rename_i hb
          generalize hz : t :: c = z at h
          cases h with
          | nil => cases hz
          | plain ho _ _ =>
            obtain ⟨rfl, -⟩ := List.cons.inj hz
            rw [hb] at ho
            cases ho
          | @group o d inner xs hp hi hxs =>
            rw [List.cons_append] at hz
            obtain ⟨rfl, rfl⟩ := List.cons.inj hz
            have hd : d.kind = .rbrace := by
              rcases hp with ⟨h, -⟩ | ⟨h, -⟩ | ⟨-, h⟩
              · rw [hb] at h
                cases h
              · rw [hb] at h
                cases h
              · exact h
            refine ⟨xs, by grind, hxs, ?_⟩
            rw [List.append_assoc, List.cons_append]
            have hin := ih inner (by grind) hi hd (xs ++ e :: w)
            rw [block_eq hd (Prod.ext rfl hin)]
        · exact simpleStatement_nested h he w
      rw [List.cons_append, statements_cons _ ht]
      dsimp only
      rw [hrest]
      exact ih m (Nat.lt_succ_of_le hm) hnest he w

theorem block_nested {opening : Token} (h : Nested Token.kind b) (he : e.kind = .rbrace)
    (w : List Token) : (block opening (b ++ e :: w)).2 = w := by
  rw [block_eq he (Prod.ext rfl (statements_nested h he w))]

end

end Tree

end EventLint
