import EventLint.Proofs.Types
import EventLint.Tree.Declaration

/-!
# What decides how far a run of tokens reaches

A run that ends inside `b` ends there whatever follows `b`. Main statements: one such lemma for each
function that counts tokens, and the bracket that closes what surrounds a list of tokens
(`enclosedExtent`), which no type, attribute or expression goes past.
-/

namespace EventLint

/-- A run of tokens goes past such a token, one at a time. -/
def TokenKind.isPlain : TokenKind → Bool
  | semicolon | rbrace | lparen | lbracket | lbrace => false
  | _ => true

theorem TokenKind.eq_of_closes {k : TokenKind} (h : k.closes = true) :
    k = .rbrace ∨ k = .rparen ∨ k = .rbracket := by
  cases k <;> first | decide | cases h

namespace Tree

/-! ## 1. Lists with a common front -/

/-- What is left after `n` tokens tells that these stand in front. -/
theorem le_length_of_drop_eq {n : Nat} {b w r : List Token} (h : (b ++ w).drop n = r ++ w)
    (hw : w ≠ []) : n ≤ b.length := by
  have hlen := congrArg List.length h
  have hpos := List.length_pos_of_ne_nil hw
  simp only [List.length_drop, List.length_append] at hlen
  omega

theorem drop_eq_of_drop_append {n : Nat} {b w r : List Token} (h : (b ++ w).drop n = r ++ w)
    (hw : w ≠ []) : b.drop n = r := by
  rw [List.drop_append_of_le_length (le_length_of_drop_eq h hw)] at h
  exact List.append_cancel_right h

theorem nextIs_append {k : TokenKind} {b : List Token} (w w' : List Token) (hb : b ≠ []) :
    nextIs k (b ++ w') = nextIs k (b ++ w) := by
  obtain ⟨t, b, rfl⟩ := List.exists_cons_of_ne_nil hb
  rfl

theorem optional_of_nextIs {k : TokenKind} {ts : List Token} (h : nextIs k ts = false) :
    optional k ts = ([], ts) := by
  cases ts with
  | nil => rfl
  | cons t ts => rw [optional, if_neg (of_decide_eq_false h)]

/-! ## 2. Brackets -/

/-- A group that is closed inside `b` ends there. -/
theorem closingExtent_append {d : Nat} {b w : List Token} (w' : List Token)
    (h : closingExtent d (b ++ w) ≤ b.length)
    (hw : closingExtent d (b ++ w) < (b ++ w).length) :
    closingExtent d (b ++ w') = closingExtent d (b ++ w) := by
  induction b generalizing d with
  | nil =>
    cases d with
    | zero => cases w <;> cases w' <;> rfl
    | succ d =>
      cases w with
      | nil => exact absurd hw (Nat.lt_irrefl 0)
      | cons t w =>
        rw [List.nil_append, closingExtent, List.length_nil] at h
        omega
  | cons t b ih =>
    cases d with
    | zero => rfl
    | succ d =>
      rw [List.cons_append, closingExtent, List.length_cons] at h hw
      rw [List.cons_append, List.cons_append, closingExtent, closingExtent,
        ih (by omega) (by omega)]

/-- The tokens of a closed group are closed whatever follows them. -/
theorem closingExtent_take_append {ts : List Token} (h : closingExtent 1 ts < ts.length)
    (w : List Token) :
    closingExtent 1 (ts.take (closingExtent 1 ts) ++ w) =
      (ts.take (closingExtent 1 ts)).length := by
  have hlen : (ts.take (closingExtent 1 ts)).length = closingExtent 1 ts :=
    List.length_take_of_le (Nat.le_of_lt h)
  have hsplit := List.take_append_drop (closingExtent 1 ts) ts
  have hclose := closingExtent_append (d := 1) (b := ts.take (closingExtent 1 ts))
    (w := ts.drop (closingExtent 1 ts)) w (Nat.le_of_eq (by rw [hsplit, hlen]))
    (by rwa [hsplit])
  rw [hclose, hsplit, hlen]

theorem closingExtent_le (d : Nat) (ts : List Token) : closingExtent d ts ≤ ts.length := by
  induction ts generalizing d with
  | nil => cases d <;> exact Nat.le_refl 0
  | cons t ts ih =>
    cases d with
    | zero => exact Nat.zero_le _
    | succ d =>
      have hle := ih (if t.kind.opens then d + 2 else if t.kind.closes then d else d + 1)
      rw [closingExtent, List.length_cons]
      omega

theorem expressionExtent_le (stop : TokenKind → Bool) (d : Nat) (ts : List Token) :
    expressionExtent stop d ts ≤ ts.length := by
  induction ts generalizing d with
  | nil => exact Nat.le_refl 0
  | cons t ts ih =>
    rw [expressionExtent, List.length_cons]
    split
    · exact Nat.zero_le _
    · have hle := ih (if t.kind.opens then d + 1 else if t.kind.closes then d - 1 else d)
      omega

/-- An expression that stops at `e` or before stops there whatever follows `e`. -/
theorem expressionExtent_append {stop : TokenKind → Bool} {d : Nat} {b w : List Token} {e : Token}
    (w' : List Token) (h : expressionExtent stop d (b ++ e :: w) ≤ b.length) :
    expressionExtent stop d (b ++ e :: w') = expressionExtent stop d (b ++ e :: w) := by
  induction b generalizing d with
  | nil =>
    rw [List.nil_append, expressionExtent] at h
    rw [List.nil_append, List.nil_append, expressionExtent, expressionExtent]
    split at h
    · rename_i hs
      rw [if_pos hs, if_pos hs]
    · rw [List.length_nil] at h
      omega
  | cons t b ih =>
    rw [List.cons_append, expressionExtent, List.length_cons] at h
    rw [List.cons_append, List.cons_append, expressionExtent, expressionExtent]
    split
    · rfl
    · rename_i hs
      rw [if_neg hs] at h
      rw [ih (by omega)]

/-- How many tokens stand before the bracket that closes what surrounds them. -/
def enclosedExtent (ts : List Token) : Nat :=
  expressionExtent (fun _ => false) 0 ts

/-- Open brackets are closed first. -/
theorem expressionExtent_eq_closing (stop : TokenKind → Bool) (d : Nat) (ts : List Token) :
    expressionExtent stop d ts =
      closingExtent d ts + expressionExtent stop 0 (ts.drop (closingExtent d ts)) := by
  induction ts generalizing d with
  | nil => cases d <;> rfl
  | cons t ts ih =>
    cases d with
    | zero => rw [closingExtent, List.drop_zero, Nat.zero_add]
    | succ d =>
      rw [expressionExtent, if_neg (fun h => absurd h.1 (Nat.succ_ne_zero d)), closingExtent, ih,
        Nat.add_sub_cancel, Nat.add_comm 1 (closingExtent _ ts), List.drop_succ_cons,
        show d + 1 + 1 = d + 2 from rfl]
      omega

/-- The bracket that ends an expression is still to come where the expression was stopped. -/
theorem enclosedExtent_expression (stop : TokenKind → Bool) (d : Nat) (ts : List Token) :
    expressionExtent (fun _ => false) d ts =
      expressionExtent stop d ts + enclosedExtent (ts.drop (expressionExtent stop d ts)) := by
  induction ts generalizing d with
  | nil => rfl
  | cons t ts ih =>
    by_cases hs : d = 0 ∧ (stop t.kind = true ∨ t.kind.closes = true)
    · rw [expressionExtent, expressionExtent, if_pos hs, List.drop_zero, Nat.zero_add, hs.1]
      rfl
    · have hn : ¬ (d = 0 ∧ (false = true ∨ t.kind.closes = true)) := fun h =>
        hs ⟨h.1, Or.inr (h.2.resolve_left Bool.false_ne_true)⟩
      rw [expressionExtent, expressionExtent, if_neg hs, if_neg hn, ih,
        Nat.add_comm 1 (expressionExtent stop _ ts), List.drop_succ_cons]
      omega

theorem enclosedExtent_of_closes {t : Token} (ts : List Token) (h : t.kind.closes = true) :
    enclosedExtent (t :: ts) = 0 := by
  rw [enclosedExtent, expressionExtent, if_pos ⟨rfl, Or.inr h⟩]

theorem enclosedExtent_of_opens {t : Token} (ts : List Token) (h : t.kind.opens = true) :
    enclosedExtent (t :: ts) =
      1 + closingExtent 1 ts + enclosedExtent (ts.drop (closingExtent 1 ts)) := by
  have hc : t.kind.closes = false := by
    revert h
    cases t.kind <;> intro h <;> first | rfl | cases h
  rw [enclosedExtent, expressionExtent, if_neg (by rw [hc]; simp), if_pos h,
    expressionExtent_eq_closing, Nat.add_assoc]
  rfl

theorem enclosedExtent_of_plain {t : Token} (ts : List Token) (ho : t.kind.opens = false)
    (hc : t.kind.closes = false) : enclosedExtent (t :: ts) = 1 + enclosedExtent ts := by
  rw [enclosedExtent, expressionExtent, if_neg (by rw [hc]; simp), ho, hc]
  rfl

/-! ## 3. Members and statements kept as they are -/

section

variable (continues : Token → Bool) {t : Token} (rest : List Token)

theorem opaqueExtent_of_semicolon (h : t.kind = .semicolon) :
    opaqueExtent continues (t :: rest) = 1 := by
  rw [opaqueExtent, h]

theorem opaqueExtent_of_rbrace (h : t.kind = .rbrace) :
    opaqueExtent continues (t :: rest) = 0 := by
  rw [opaqueExtent, h]

theorem opaqueExtent_of_group (h : t.kind = .lparen ∨ t.kind = .lbracket) :
    opaqueExtent continues (t :: rest) =
      1 + closingExtent 1 rest + opaqueExtent continues (rest.drop (closingExtent 1 rest)) := by
  rw [opaqueExtent]
  rcases h with h | h <;> rw [h]

theorem opaqueExtent_of_plain (h : t.kind.isPlain = true) :
    opaqueExtent continues (t :: rest) = 1 + opaqueExtent continues rest := by
  rw [opaqueExtent]
  split
  all_goals first | rfl | rename_i hk; rw [hk] at h; cases h

theorem opaqueExtent_of_lbrace (h : t.kind = .lbrace) :
    opaqueExtent continues (t :: rest) =
      if nextIs .semicolon (rest.drop (closingExtent 1 rest)) then 1 + closingExtent 1 rest + 1
      else if (rest.drop (closingExtent 1 rest)).head?.any continues then
        1 + closingExtent 1 rest + opaqueExtent continues (rest.drop (closingExtent 1 rest))
      else 1 + closingExtent 1 rest := by
  rw [opaqueExtent, h]

end

/-- The kinds of token that a run treats differently. -/
theorem kind_cases (k : TokenKind) :
    k = .semicolon ∨ k = .rbrace ∨ (k = .lparen ∨ k = .lbracket) ∨ k = .lbrace ∨
      k.isPlain = true := by
  cases k <;> simp [TokenKind.isPlain]

/-- Neither list of tokens goes on with a run that ended, or both do so alike. -/
structure SameNext (continues : Token → Bool) (w w' : List Token) : Prop where
  ne : w ≠ []
  semicolon : nextIs .semicolon w' = nextIs .semicolon w
  rbrace : nextIs .rbrace w' = nextIs .rbrace w
  continues : w'.head?.any continues = w.head?.any continues

theorem opaqueExtent_eq_zero {continues : Token → Bool} {w : List Token} (hw : w ≠ []) :
    opaqueExtent continues w = 0 ↔ nextIs .rbrace w = true := by
  obtain ⟨t, w, rfl⟩ := List.exists_cons_of_ne_nil hw
  have hnext : nextIs .rbrace (t :: w) = true ↔ t.kind = .rbrace := decide_eq_true_iff
  rw [hnext]
  rcases kind_cases t.kind with hk | hk | hk | hk | hk
  · rw [opaqueExtent_of_semicolon _ _ hk, hk]
    decide
  · rw [opaqueExtent_of_rbrace _ _ hk, hk]
    decide
  · rw [opaqueExtent_of_group _ _ hk]
    rcases hk with hk | hk <;> rw [hk] <;> simp
  · rw [opaqueExtent_of_lbrace _ _ hk, hk]
    split
    · simp
    · split <;> simp
  · rw [opaqueExtent_of_plain _ _ hk]
    refine ⟨fun h => by omega, fun h => ?_⟩
    rw [h] at hk
    cases hk

/-- A group that is closed in `b`, with something behind it, is closed there whatever
follows `b`. -/
theorem drop_closingExtent_append {b w : List Token} (w' : List Token)
    (h : closingExtent 1 (b ++ w) ≤ b.length) (hw : closingExtent 1 (b ++ w) < b.length ∨ w ≠ []) :
    closingExtent 1 (b ++ w') = closingExtent 1 (b ++ w) ∧
      (b ++ w).drop (closingExtent 1 (b ++ w)) = b.drop (closingExtent 1 (b ++ w)) ++ w ∧
      (b ++ w').drop (closingExtent 1 (b ++ w)) = b.drop (closingExtent 1 (b ++ w)) ++ w' := by
  have hlt : closingExtent 1 (b ++ w) < (b ++ w).length := by
    rw [List.length_append]
    rcases hw with hw | hw
    · omega
    · have := List.length_pos_of_ne_nil hw
      omega
  exact ⟨closingExtent_append w' h hlt, List.drop_append_of_le_length h,
    List.drop_append_of_le_length h⟩

/-- The token behind `r` is in `r` or the first of what follows. -/
theorem SameNext.append {continues : Token → Bool} {r w w' : List Token}
    (h : r = [] → SameNext continues w w') :
    nextIs .semicolon (r ++ w') = nextIs .semicolon (r ++ w) ∧
      (r ++ w').head?.any continues = (r ++ w).head?.any continues := by
  by_cases hr : r = []
  · rw [hr]
    exact ⟨(h hr).semicolon, (h hr).continues⟩
  · refine ⟨nextIs_append w w' hr, ?_⟩
    rw [List.head?_append_of_ne_nil _ hr, List.head?_append_of_ne_nil _ hr]

/-- A run that ends inside `b` ends there whatever follows `b`, and one that ends with `b` does so
if nothing goes on with it. -/
theorem opaqueExtent_append {continues : Token → Bool} {b w w' : List Token}
    (h : opaqueExtent continues (b ++ w) ≤ b.length)
    (hw : opaqueExtent continues (b ++ w) < b.length ∨ SameNext continues w w') :
    opaqueExtent continues (b ++ w') = opaqueExtent continues (b ++ w) := by
  induction b using shorter_induction with
  | step b ih =>
    cases b with
    | nil =>
      have hs := hw.resolve_left (Nat.not_lt_zero _)
      have h0 : opaqueExtent continues w = 0 := Nat.le_zero.1 h
      have hr := (opaqueExtent_eq_zero hs.ne).1 h0
      have hne' : w' ≠ [] := by
        rintro rfl
        rw [← hs.rbrace] at hr
        cases hr
      rw [List.nil_append, List.nil_append, h0, opaqueExtent_eq_zero hne', hs.rbrace, hr]
    | cons t b =>
      rw [List.cons_append, List.length_cons] at h hw
      rw [List.cons_append, List.cons_append]
      -- a group that opens with `t` is closed in `b`
      have hgroup (hle : 1 + closingExtent 1 (b ++ w) ≤ opaqueExtent continues (t :: (b ++ w))) :=
        drop_closingExtent_append (b := b) (w := w) w' (by omega)
          (hw.imp (fun hw => by omega) SameNext.ne)
      -- and what is left of `b` behind `n` of its tokens is shorter
      have hmore : ∀ n, 1 + n + opaqueExtent continues (b.drop n ++ w) ≤ b.length + 1 →
          (1 + n + opaqueExtent continues (b.drop n ++ w) < b.length + 1 ∨
            SameNext continues w w') →
          opaqueExtent continues (b.drop n ++ w') = opaqueExtent continues (b.drop n ++ w) := by
        intro n hle hlt
        apply ih
        · rw [List.length_drop, List.length_cons]
          omega
        · rw [List.length_drop]
          omega
        · rw [List.length_drop]
          exact hlt.imp_left fun hlt => by omega
      rcases kind_cases t.kind with hk | hk | hk | hk | hk
      · rw [opaqueExtent_of_semicolon _ _ hk, opaqueExtent_of_semicolon _ _ hk]
      · rw [opaqueExtent_of_rbrace _ _ hk, opaqueExtent_of_rbrace _ _ hk]
      · rw [opaqueExtent_of_group _ (b ++ w) hk] at h hw hgroup
        obtain ⟨he, hd, hd'⟩ := hgroup (Nat.le_add_right _ _)
        rw [hd] at h hw
        rw [opaqueExtent_of_group _ _ hk, opaqueExtent_of_group _ _ hk, he, hd, hd',
          hmore _ h hw]
      · rw [opaqueExtent_of_lbrace _ (b ++ w) hk] at h hw hgroup
        obtain ⟨he, hd, hd'⟩ := hgroup (by split <;> [omega; split <;> omega])
        rw [hd] at h hw
        rw [opaqueExtent_of_lbrace _ _ hk, opaqueExtent_of_lbrace _ _ hk, he, hd, hd']
        -- the token behind the closing brace decides
        have hs : b.drop (closingExtent 1 (b ++ w)) = [] → SameNext continues w w' := by
          intro hr
          rw [List.drop_eq_nil_iff] at hr
          refine hw.resolve_left fun hw => ?_
          split at hw
          · omega
          · split at hw <;> omega
        rw [(SameNext.append hs).1, (SameNext.append hs).2]
        split
        · rfl
        · rename_i hs
          rw [if_neg hs] at h hw
          split
          · rename_i hc
            rw [if_pos hc] at h hw
            rw [hmore _ h hw]
          · rfl
      · rw [opaqueExtent_of_plain _ (b ++ w) hk] at h hw
        rw [opaqueExtent_of_plain _ _ hk, opaqueExtent_of_plain _ _ hk]
        exact congrArg (1 + ·) (hmore 0 (by rwa [List.drop_zero]) (by rwa [List.drop_zero]))

/-- The last token of a closed group closes a bracket. -/
theorem closingExtent_end {d : Nat} {ts : List Token}
    (h : closingExtent (d + 1) ts < ts.length) :
    ∃ b e, ts.take (closingExtent (d + 1) ts) = b ++ [e] ∧ e.kind.closes = true := by
  induction ts generalizing d with
  | nil => exact absurd h (Nat.lt_irrefl 0)
  | cons t ts ih =>
    rw [closingExtent, List.length_cons] at h
    rw [closingExtent, Nat.add_comm 1, List.take_succ_cons]
    generalize hd : (if t.kind.opens then d + 2 else if t.kind.closes then d else d + 1) = d' at h ⊢
    cases d' with
    | zero =>
      refine ⟨[], t, by cases ts <;> rfl, ?_⟩
      split at hd
      · cases hd
      · split at hd
        · assumption
        · cases hd
    | succ d' =>
      have hlt : closingExtent (d' + 1) ts < ts.length := by omega
      obtain ⟨b, e, he, hc⟩ := ih hlt
      exact ⟨t :: b, e, by rw [he, List.cons_append], hc⟩

/-- A run ends with a semicolon or a bracket, in front of a closing brace, or with the text. -/
theorem opaqueExtent_end (continues : Token → Bool) (ts : List Token) :
    ts.drop (opaqueExtent continues ts) = [] ∨
      nextIs .rbrace (ts.drop (opaqueExtent continues ts)) = true ∨
      ∃ b e, ts.take (opaqueExtent continues ts) = b ++ [e] ∧
        (e.kind = .semicolon ∨ e.kind.closes = true) := by
  induction ts using shorter_induction with
  | step ts ih =>
    cases ts with
    | nil => exact Or.inl List.drop_nil
    | cons t ts =>
      -- what the rest of the run ends with, the whole run ends with
      have hmore : ∀ n, n ≤ ts.length → opaqueExtent continues (t :: ts) =
            1 + n + opaqueExtent continues (ts.drop n) →
          (t :: ts).drop (opaqueExtent continues (t :: ts)) = [] ∨
            nextIs .rbrace ((t :: ts).drop (opaqueExtent continues (t :: ts))) = true ∨
            ∃ b e, (t :: ts).take (opaqueExtent continues (t :: ts)) = b ++ [e] ∧
              (e.kind = .semicolon ∨ e.kind.closes = true) := by
        intro n hn he
        rw [he, show 1 + n + opaqueExtent continues (ts.drop n) =
          n + opaqueExtent continues (ts.drop n) + 1 by omega, List.drop_succ_cons,
          List.take_succ_cons, ← List.drop_drop, List.take_add]
        rcases ih (ts.drop n) (by rw [List.length_drop, List.length_cons]; omega) with h | h | h
        · exact Or.inl h
        · exact Or.inr (Or.inl h)
        · obtain ⟨b, e, hb, hk⟩ := h
          refine Or.inr (Or.inr ⟨t :: (ts.take n ++ b), e, ?_, hk⟩)
          rw [hb, List.cons_append, List.append_assoc]
      rcases kind_cases t.kind with hk | hk | hk | hk | hk
      · rw [opaqueExtent_of_semicolon _ _ hk]
        exact Or.inr (Or.inr ⟨[], t, rfl, Or.inl hk⟩)
      · rw [opaqueExtent_of_rbrace _ _ hk]
        exact Or.inr (Or.inl (decide_eq_true hk))
      · exact hmore _ (closingExtent_le 1 ts) (opaqueExtent_of_group _ _ hk)
      · have he := opaqueExtent_of_lbrace continues ts hk
        split at he
        · rename_i hs
          obtain ⟨u, us, hu⟩ : ∃ u us, ts.drop (closingExtent 1 ts) = u :: us := by
            cases hd : ts.drop (closingExtent 1 ts) with
            | nil =>
              rw [hd] at hs
              cases hs
            | cons u us => exact ⟨u, us, rfl⟩
          rw [hu] at hs
          refine Or.inr (Or.inr ⟨t :: ts.take (closingExtent 1 ts), u, ?_,
            Or.inl (of_decide_eq_true hs)⟩)
          rw [he, show 1 + closingExtent 1 ts + 1 = closingExtent 1 ts + 1 + 1 by omega,
            List.take_succ_cons, List.take_add, hu]
          rfl
        · split at he
          · exact hmore _ (closingExtent_le 1 ts) he
          · rw [he, Nat.add_comm 1, List.drop_succ_cons, List.take_succ_cons]
            by_cases hlt : closingExtent 1 ts < ts.length
            · obtain ⟨b, e, hb, hc⟩ := closingExtent_end hlt
              exact Or.inr (Or.inr ⟨t :: b, e, by rw [hb, List.cons_append], Or.inr hc⟩)
            · exact Or.inl (List.drop_eq_nil_of_le (by omega))
      · have he := opaqueExtent_of_plain continues ts hk
        exact hmore 0 (Nat.zero_le _) (by rw [he, List.drop_zero])

/-! ## 4. Headers of types -/

section

variable {t : Token} (rest : List Token)

theorem headerExtent_of_stop (h : t.kind = .lbrace ∨ t.kind = .semicolon ∨ t.kind = .rbrace) :
    headerExtent (t :: rest) = 0 := by
  rw [headerExtent]
  rcases h with h | h | h <;> rw [h]

theorem headerExtent_of_group (h : t.kind = .lparen ∨ t.kind = .lbracket) :
    headerExtent (t :: rest) =
      1 + closingExtent 1 rest + headerExtent (rest.drop (closingExtent 1 rest)) := by
  rw [headerExtent]
  rcases h with h | h <;> rw [h]

theorem headerExtent_of_plain (h : t.kind.isPlain = true) :
    headerExtent (t :: rest) = 1 + headerExtent rest := by
  rw [headerExtent]
  split
  all_goals first | rfl | rename_i hk; rw [hk] at h; cases h

end

theorem headerExtent_append {b w : List Token} {e : Token} (w' : List Token)
    (h : headerExtent (b ++ e :: w) ≤ b.length) :
    headerExtent (b ++ e :: w') = headerExtent (b ++ e :: w) := by
  induction b using shorter_induction with
  | step b ih =>
    cases b with
    | nil =>
      rw [List.nil_append] at h ⊢
      -- `e` itself must stop the header, since that is not longer than `b`
      rcases kind_cases e.kind with hk | hk | hk | hk | hk
      · rw [headerExtent_of_stop _ (Or.inr (Or.inl hk)),
          List.nil_append, headerExtent_of_stop _ (Or.inr (Or.inl hk))]
      · rw [headerExtent_of_stop _ (Or.inr (Or.inr hk)),
          List.nil_append, headerExtent_of_stop _ (Or.inr (Or.inr hk))]
      · rw [headerExtent_of_group _ hk, List.length_nil] at h
        omega
      · rw [headerExtent_of_stop _ (Or.inl hk), List.nil_append, headerExtent_of_stop _ (Or.inl hk)]
      · rw [headerExtent_of_plain _ hk, List.length_nil] at h
        omega
    | cons t b =>
      rw [List.cons_append, List.length_cons] at h
      rw [List.cons_append, List.cons_append]
      rcases kind_cases t.kind with hk | hk | hk | hk | hk
      · rw [headerExtent_of_stop _ (Or.inr (Or.inl hk)),
          headerExtent_of_stop _ (Or.inr (Or.inl hk))]
      · rw [headerExtent_of_stop _ (Or.inr (Or.inr hk)),
          headerExtent_of_stop _ (Or.inr (Or.inr hk))]
      · rw [headerExtent_of_group _ hk] at h
        have hle : closingExtent 1 (b ++ e :: w) ≤ b.length := by omega
        have hlt : closingExtent 1 (b ++ e :: w) < (b ++ e :: w).length := by
          rw [List.length_append, List.length_cons]
          omega
        rw [List.drop_append_of_le_length hle] at h
        rw [headerExtent_of_group _ hk, headerExtent_of_group _ hk,
          closingExtent_append (e :: w') hle hlt, List.drop_append_of_le_length hle,
          List.drop_append_of_le_length hle, ih]
        · rw [List.length_drop, List.length_cons]
          omega
        · rw [List.length_drop]
          omega
      · rw [headerExtent_of_stop _ (Or.inl hk), headerExtent_of_stop _ (Or.inl hk)]
      · rw [headerExtent_of_plain _ hk] at h
        rw [headerExtent_of_plain _ hk, headerExtent_of_plain _ hk,
          ih b (Nat.lt_succ_self _) (by omega)]

end Tree

end EventLint
