import EventLint.Event.Backing
import EventLint.Proofs.Changes
import EventLint.Proofs.CompleteEvent
import EventLint.Proofs.EventReading

/-!
# Statements that add the value

A statement of an accessor adds the value to a field if its tree is an assignment of the right
shape: the kinds of both sides and the operator between them decide. Main statement: that is the
case exactly if the tokens of the statement are `x += value` or `this.x += value`, with a semicolon
or without one.
-/

namespace EventLint

/-! ## 1. Tokens with one spelling -/

/-- A keyword is spelled as its kind says, and so is a mark that is always written the same way. -/
structure Token.Spelled (t : Token) : Prop where
  keyword : ∀ k, t.kind = .keyword k → t.bare = Grammar.keyword k
  mark : Grammar.sign t.kind ≠ [] → t.bare = Grammar.mark t.kind

namespace Token

open Grammar

theorem sign_punctuationKind (c : Char) :
    sign (punctuationKind c) ≠ [] → [c] = sign (punctuationKind c) := by
  fun_cases punctuationKind c
  all_goals first
    | exact fun h => absurd rfl h
    | subst_vars; exact fun _ => rfl

theorem sign_symbol {c : Char} {cs : Text} {k : TokenKind} {m : Nat}
    (h : symbol c cs = (k, m)) (hk : sign k ≠ []) : c :: cs.take m = sign k := by
  unfold symbol at h
  split at h
  · rename_i written kind hf
    obtain ⟨rfl, rfl⟩ := Prod.mk.inj h
    -- the table of operators agrees with `sign`
    have hall : ∀ e ∈ operators, sign e.2 ≠ [] → e.1.toList = sign e.2 := by decide
    have hsign := hall _ (List.mem_of_find?_eq_some hf) hk
    have hpre := List.find?_some hf
    dsimp only at hsign hpre
    rw [hsign, List.isPrefixOf_iff_prefix, List.prefix_iff_eq_take] at hpre
    obtain ⟨d, ds, hd⟩ := List.exists_cons_of_ne_nil hk
    rw [hd, List.length_cons, List.take_succ_cons] at hpre
    rw [hsign, hd, List.length_cons, Nat.add_sub_cancel]
    exact hpre.symm
  · obtain ⟨rfl, rfl⟩ := Prod.mk.inj h
    exact sign_punctuationKind c hk

theorem sign_lexeme {c : Char} {cs : Text} {k : TokenKind} {m : Nat}
    (h : lexeme c cs = (k, m)) (hk : sign k ≠ []) : c :: cs.take m = sign k := by
  have hword : ∀ w, sign (wordKind w) = [] := by
    intro w
    unfold wordKind
    split <;> rfl
  -- words and literals have no sign, so only the last case is left
  rw [lexeme_eq] at h
  repeat' split at h
  all_goals first
    | exact sign_symbol h hk
    | exact absurd (show sign k = [] from (Prod.mk.inj h).1 ▸ rfl) hk
    | exact absurd (show sign k = [] from (Prod.mk.inj h).1 ▸ hword _) hk

/-- Every token of a text is spelled as its kind says. -/
theorem spelled_of_mem_scan {text : Text} {t : Token} (ht : t ∈ scan text) : t.Spelled where
  keyword k hk := Prod.ext hk (text_of_keyword ht hk)
  mark hk := by
    obtain ⟨c, u, w, htext, hl⟩ := exists_lexeme rfl ht
    have hsign := sign_lexeme hl hk
    rw [List.take_left, ← htext] at hsign
    exact Prod.ext rfl hsign

end Token

namespace Tree

/-! ## 2. Where an expression stops -/

/-- No token of an expression that stands outside brackets is one that `stop` accepts. -/
theorem stop_eq_false_of_take {stop : TokenKind → Bool} {depth : Nat} {ts a b : List Token}
    {t : Token} (h : ts.take (expressionExtent stop depth ts) = a ++ t :: b)
    (ho : openBrackets depth a = 0) : stop t.kind = false := by
  -- by induction on what stands in front of `t`; both counts of brackets take the same steps
  induction a generalizing ts depth with
  | nil =>
    cases ts with
    | nil => cases h
    | cons u ts =>
      rw [expressionExtent] at h
      split at h
      · cases h
      · rename_i hgo
        rw [Nat.add_comm, List.take_succ_cons] at h
        obtain ⟨rfl, -⟩ := List.cons.inj h
        exact Bool.eq_false_iff.2 fun hs => hgo ⟨ho, Or.inl hs⟩
  | cons v a ih =>
    cases ts with
    | nil => cases h
    | cons u ts =>
      rw [expressionExtent] at h
      split at h
      · cases h
      · rw [Nat.add_comm, List.take_succ_cons] at h
        obtain ⟨rfl, htail⟩ := List.cons.inj h
        exact ih htail ho

/-- No token that `stop` accepts stands in front of the first opening bracket. -/
def Free (stop : TokenKind → Bool) (us : List Token) : Prop :=
  ∀ a t b, us = a ++ t :: b → (∀ u ∈ a, u.kind.opens = false) → stop t.kind = false

theorem openBrackets_of_forall_not_opens {a : List Token} (h : ∀ u ∈ a, u.kind.opens = false) :
    openBrackets 0 a = 0 := by
  induction a with
  | nil => rfl
  | cons u a ih =>
    rw [openBrackets, h u List.mem_cons_self, if_neg Bool.false_ne_true, Nat.zero_sub, ite_self]
    exact ih fun v hv => h v (List.mem_cons_of_mem u hv)

/-- An expression goes on up to the first stop outside brackets. -/
theorem free_take (stop : TokenKind → Bool) (ts : List Token) :
    Free stop (ts.take (expressionExtent stop 0 ts)) :=
  fun _ _ _ h hopens => stop_eq_false_of_take h (openBrackets_of_forall_not_opens hopens)

/-- What stands up to a semicolon is one expression without an assignment operator, or it is
divided by one. -/
theorem assignment_cases (ts : List Token) :
    (∃ us, (assignment ts).1 = expression us ∧ Free TokenKind.isAssignment us) ∨
      ∃ left op right,
        (assignment ts).1 =
          [node .assignmentExpression (expression left ++ leaf op :: expression right)] ∧
        op.kind.isAssignment = true ∧ Free (· = .semicolon) right := by
  -- the left operand stops at a semicolon and at an operator
  have hfree : Free TokenKind.isAssignment
      (ts.take (expressionExtent (fun k => k = .semicolon || k.isAssignment) 0 ts)) :=
    fun a t b h ho => (Bool.or_eq_false_iff.1 (free_take _ ts a t b h ho)).2
  unfold assignment
  dsimp only
  split
  · exact Or.inl ⟨_, rfl, hfree⟩
  · rename_i t rest hd
    split
    · rename_i ht
      exact Or.inr ⟨_, t, _, rfl, ht, free_take _ rest⟩
    · exact Or.inl ⟨_, rfl, hfree⟩

/-- There is at most one expression. -/
theorem assignment_eq (ts : List Token) :
    (assignment ts).1 = [] ∨ ∃ k cs, (assignment ts).1 = [node k cs] := by
  rcases assignment_cases ts with ⟨us, h, -⟩ | ⟨left, op, right, h, -⟩
  · cases us with
    | nil => exact Or.inl h
    | cons t us => exact Or.inr ⟨_, _, h⟩
  · exact Or.inr ⟨_, _, h⟩

theorem leavesAll_expression (us : List Token) : leavesAll (expression us) = us := by
  cases us with
  | nil => rfl
  | cons t us => rw [expression, leavesAll, leavesAll, leaves, leavesAll_map_leaf, List.append_nil]

end Tree

namespace Backing

open Tree Token Grammar

/-! ## 3. The two sides of an assignment -/

theorem isValue_expression (us : List Token) :
    isValue (node (expressionKind us) (us.map leaf)) = true ↔
      ∃ v, us = [v] ∧ v.bare = word "value" := by
  have htext : (node (expressionKind us) (us.map leaf)).text = joined us := by
    rw [Tree.text, leaves, leavesAll_map_leaf]
  rw [isValue, htext, Bool.and_eq_true, decide_eq_true_eq, isOf, decide_eq_true_eq, nodeKind?,
    Option.some.injEq]
  rcases us with _ | ⟨v, _ | ⟨u, us⟩⟩
  · simp [expressionKind]
  · simp [expressionKind, joined, Token.bare, word]
  · simp only [expressionKind]
    split <;> simp

/-- The tokens are `x`, or `this.x`. -/
def IsTarget (x : Text) (us : List Token) : Prop :=
  (∃ y, us = [y] ∧ y.kind = .ident ∧ y.text = x) ∨
    ∃ t d y, us = [t, d, y] ∧ t.kind = .keyword .thisKw ∧ d.kind = .dot ∧ y.kind = .ident ∧
      y.text = x

theorem assignedName?_expression (us : List Token) (x : Text) :
    assignedName? (node (expressionKind us) (us.map leaf)) = some x ↔ IsTarget x us := by
  unfold assignedName? IsTarget
  rw [nodeKind?, leaves, leavesAll_map_leaf]
  rcases us with _ | ⟨t, _ | ⟨d, _ | ⟨y, _ | ⟨z, us⟩⟩⟩⟩
  · simp [expressionKind]
  · by_cases ht : t.kind = .ident <;> simp [expressionKind, ht]
  · simp [expressionKind, isMemberTail]
  · by_cases ht : t.kind = .keyword .thisKw <;> by_cases hi : t.kind = .ident <;>
      by_cases hd : d.kind = .dot <;> by_cases hy : y.kind = .ident <;>
        simp_all [expressionKind, isMemberTail]
  · simp only [expressionKind]
    split <;> simp_all

/-! ## 4. Adding the value -/

/-- The tokens are `x += value` or `this.x += value`. -/
def Adds (x : Text) (ls : List Lexeme) : Prop :=
  ∃ front, (front = [] ∨ front = [keyword .thisKw, mark .dot]) ∧
    ls = front ++ [(.ident, x), mark .plusEq, word "value"]

/-- The same with a semicolon at the end or without one. -/
def AddsValue (x : Text) (ls : List Lexeme) : Prop :=
  ∃ init close, Adds x init ∧ (close = [] ∨ close = [mark .semicolon]) ∧ ls = init ++ close

theorem Adds.addsValue {x : Text} {ls : List Lexeme} (h : Adds x ls) : AddsValue x ls :=
  ⟨ls, [], h, Or.inl rfl, (List.append_nil ls).symm⟩

/-- Lists that are divided at the only element with a property are divided alike. -/
theorem divided_inj {α : Type} {p : α → Bool} {a b a' b' : List α} {x x' : α}
    (h : a ++ x :: b = a' ++ x' :: b') (hx : p x = true) (ha : ∀ y ∈ a', p y = false)
    (hb : ∀ y ∈ b', p y = false) : a = a' ∧ x = x' ∧ b = b' := by
  induction a generalizing a' with
  | nil =>
    cases a' with
    | nil => exact ⟨rfl, List.cons.inj h⟩
    | cons y a' =>
      -- `x` would stand in front of `x'`
      rw [(List.cons.inj h).1, ha y List.mem_cons_self] at hx
      cases hx
  | cons u a ih =>
    cases a' with
    | nil =>
      -- `x` would stand behind `x'`
      have hmem : x ∈ b' := by
        rw [← (List.cons.inj h).2]
        exact List.mem_append_right a List.mem_cons_self
      rw [hb x hmem] at hx
      cases hx
    | cons y a' =>
      obtain ⟨rfl, htail⟩ := List.cons.inj h
      obtain ⟨rfl, hrest⟩ := ih htail fun z hz => ha z (List.mem_cons_of_mem _ hz)
      exact ⟨rfl, hrest⟩

section

variable {x : Text} {left right : List Token} {op : Token}

/-- The tokens of an addition are divided at its operator. -/
theorem sides_of_addsValue (hop : op.kind.isAssignment = true) (hr : Free (· = .semicolon) right)
    (h : AddsValue x (left.map bare ++ op.bare :: right.map bare)) :
    IsTarget x left ∧ op.kind = .plusEq ∧ ∃ v, right = [v] ∧ v.bare = word "value" := by
  obtain ⟨_, close, ⟨front, hfront, rfl⟩, hclose, h⟩ := h
  rw [show front ++ [(.ident, x), mark .plusEq, word "value"] ++ close =
    front ++ [(.ident, x)] ++ mark .plusEq :: word "value" :: close by simp] at h
  -- the operator is the only assignment among the tokens of an addition
  obtain ⟨hleft, hmid, hright⟩ := divided_inj (p := fun l => l.1.isAssignment) h hop
    (by rcases hfront with rfl | rfl <;> simp [keyword, mark, TokenKind.isAssignment])
    (by rcases hclose with rfl | rfl <;> simp [word, mark, TokenKind.isAssignment])
  refine ⟨?_, congrArg Prod.fst hmid, ?_⟩
  · rcases hfront with rfl | rfl
    · obtain ⟨y, us, rfl, hy, hx, hnil⟩ := exists_of_spells_cons hleft
      rw [List.map_eq_nil_iff.1 hnil]
      exact Or.inl ⟨y, rfl, hy, hx⟩
    · obtain ⟨t, us, rfl, ht, hleft⟩ := exists_keyword hleft
      obtain ⟨d, us, rfl, hd, hleft⟩ := exists_mark hleft
      obtain ⟨y, us, rfl, hy, hx, hnil⟩ := exists_of_spells_cons hleft
      rw [List.map_eq_nil_iff.1 hnil]
      exact Or.inr ⟨t, d, y, rfl, ht, hd, hy, hx⟩
  · obtain ⟨v, us, rfl, hv, hvalue, hrest⟩ := exists_of_spells_cons hright
    rcases hclose with rfl | rfl
    · rw [List.map_eq_nil_iff.1 hrest]
      exact ⟨v, rfl, Prod.ext hv hvalue⟩
    · -- a semicolon would have ended the right side
      obtain ⟨c, us, rfl, hc, -⟩ := exists_mark hrest
      have hstop := hr [v] c us rfl fun u hu => by
        rw [List.mem_singleton.1 hu, hv]
        rfl
      exact absurd hc (of_decide_eq_false hstop)

theorem adds_of_sides (hs : ∀ t ∈ left ++ op :: right, t.Spelled) (hl : IsTarget x left)
    (ho : op.kind = .plusEq) (hr : ∃ v, right = [v] ∧ v.bare = word "value") :
    Adds x (left.map bare ++ op.bare :: right.map bare) := by
  obtain ⟨v, rfl, hv⟩ := hr
  have hmark : ∀ t ∈ left ++ op :: [v], ∀ k, t.kind = k → sign k ≠ [] → t.bare = mark k := by
    rintro t ht _ rfl hne
    exact (hs t ht).mark hne
  have hop := hmark op (by simp) _ ho (by decide)
  rw [List.map_singleton, hv, hop]
  rcases hl with ⟨y, rfl, hy, rfl⟩ | ⟨t, d, y, rfl, ht, hd, hy, rfl⟩
  · refine ⟨[], Or.inl rfl, ?_⟩
    rw [List.map_singleton, bare, hy]
    rfl
  · refine ⟨_, Or.inr rfl, ?_⟩
    rw [List.map_cons, List.map_cons, List.map_singleton, (hs t (by simp)).keyword _ ht,
      hmark d (by simp) _ hd (by decide), bare, hy]
    rfl

/-- An assignment adds the value if its sides and its operator are as they should be. -/
theorem ofStatement?_assignment (hop : op.kind.isAssignment = true) :
    ofStatement? (.ofExpression
        (node .assignmentExpression (expression left ++ leaf op :: expression right))) = some x ↔
      IsTarget x left ∧ op.kind = .plusEq ∧ ∃ v, right = [v] ∧ v.bare = word "value" := by
  rcases left with _ | ⟨t, ts⟩
  · -- without a left side it is no assignment
    have hother : ofStatement? (.ofExpression
        (node .assignmentExpression (expression [] ++ leaf op :: expression right))) = none := by
      cases right <;> rfl
    rw [hother]
    simp [IsTarget]
  rcases right with _ | ⟨v, vs⟩
  · have hother : ofStatement? (.ofExpression
        (node .assignmentExpression (expression (t :: ts) ++ leaf op :: expression []))) = none :=
      rfl
    rw [hother]
    simp
  rw [expression, expression, List.singleton_append, ofExpression_assignment hop,
    ← isValue_expression, ← assignedName?_expression]
  by_cases ho : op.kind = .plusEq
  · rw [ho, ofStatement?]
    split <;> simp_all
  · have hother : ∀ l r, ofStatement? (.assignment l op.kind r) = none := by
      intro l r
      rw [ofStatement?]
      exact fun _ _ h => ho (Statement.assignment.inj h).2.1
    rw [hother]
    simp [ho]

end

/-- Tokens without an assignment operator outside brackets do not add the value. -/
theorem not_addsValue_of_free {x : Text} {us : List Token} (h : Free TokenKind.isAssignment us) :
    ¬ AddsValue x (us.map bare) := by
  rintro ⟨_, close, ⟨front, hfront, rfl⟩, -, hus⟩
  rw [show front ++ [(.ident, x), mark .plusEq, word "value"] ++ close =
    front ++ [(.ident, x)] ++ mark .plusEq :: word "value" :: close by simp] at hus
  obtain ⟨a, us, rfl, ha, hus⟩ := exists_of_spells_append hus
  obtain ⟨t, us, rfl, ht, -⟩ := exists_mark hus
  -- no bracket stands in front of the operator, so the expression would have stopped there
  have hopens : ∀ u ∈ a, u.kind.opens = false := by
    intro u hu
    have hmem : u.bare ∈ front ++ [(.ident, x)] := ha ▸ List.mem_map_of_mem hu
    have hall : ∀ l ∈ front ++ [(TokenKind.ident, x)], l.1.opens = false := by
      rcases hfront with rfl | rfl <;> simp [keyword, mark, TokenKind.opens]
    exact hall _ hmem
  have hstop := h a t us rfl hopens
  rw [ht] at hstop
  cases hstop

theorem expressionKind_ne_assignment (us : List Token) :
    expressionKind us ≠ .assignmentExpression := by
  fun_cases expressionKind us <;> decide

/-- What an expression adds the value to can be read off its tokens, and they do not end with a
semicolon. -/
theorem ofStatement?_expression {ts : List Token} {e : Tree} (x : Text)
    (he : e ∈ (assignment ts).1) (hs : ∀ t ∈ e.leaves, t.Spelled) :
    (ofStatement? (.ofExpression e) = some x → Adds x e.lexemes) ∧
      (AddsValue x e.lexemes → ofStatement? (.ofExpression e) = some x) := by
  rcases assignment_cases ts with ⟨us, hus, hfree⟩ | ⟨left, op, right, hus, hop, hfree⟩
  · -- no operator divides the expression
    rw [hus] at he
    cases us with
    | nil => cases he
    | cons t us =>
      obtain rfl := List.mem_singleton.1 he
      have hlex : (node (expressionKind (t :: us)) ((t :: us).map leaf)).lexemes =
          (t :: us).map bare := by
        rw [Tree.lexemes, leaves, leavesAll_map_leaf]
      have hother : ofStatement? (.ofExpression
          (node (expressionKind (t :: us)) ((t :: us).map leaf))) = none := by
        rw [Statement.ofExpression, if_neg]
        · rfl
        · rw [isOf, nodeKind?, decide_eq_true_eq, Option.some.injEq]
          exact expressionKind_ne_assignment _
      rw [hother, hlex]
      exact ⟨fun h => (by cases h), fun h => absurd h (not_addsValue_of_free hfree)⟩
  · rw [hus] at he
    obtain rfl := List.mem_singleton.1 he
    have hleaves :
        (node .assignmentExpression (expression left ++ leaf op :: expression right)).leaves =
          left ++ op :: right := by
      rw [leaves, leavesAll_append, leavesAll, leaves, leavesAll_expression, leavesAll_expression,
        List.singleton_append]
    rw [Tree.lexemes, hleaves, List.map_append, List.map_cons, ofStatement?_assignment hop]
    rw [hleaves] at hs
    exact ⟨fun h => adds_of_sides hs h.1 h.2.1 h.2.2, sides_of_addsValue hop hfree⟩

end Backing

namespace Tree

/-! ## 5. Statements -/

theorem optional_cases (k : TokenKind) (ts : List Token) :
    (optional k ts).1 = [] ∨ ∃ c, (optional k ts).1 = [leaf c] ∧ c.kind = k := by
  cases ts with
  | nil => exact Or.inl rfl
  | cons t ts =>
    rw [optional]
    split
    · rename_i ht
      exact Or.inr ⟨t, rfl, ht⟩
    · exact Or.inl rfl

theorem exists_of_mem_statements {ts : List Token} {s : Tree} (h : s ∈ (statements ts).1) :
    ∃ t rest, s = (statement t rest).1 := by
  induction ts using shorter_induction with
  | step ts ih =>
    cases ts with
    | nil =>
      rw [statements_nil] at h
      cases h
    | cons t rest =>
      by_cases ht : t.kind = .rbrace
      · rw [statements_of_rbrace rest ht] at h
        cases h
      · rw [statements_cons rest ht] at h
        rcases List.mem_cons.1 h with rfl | h
        · exact ⟨t, rest, rfl⟩
        · exact ih _ (reads_statement t rest).rest_lt h

/-- An expression statement is an expression with its semicolon, if it has one, or a single
token. -/
theorem expressionStatement_cases {t : Token} {rest : List Token}
    (h : (statement t rest).1.isOf .expressionStatement = true) :
    (∃ e ∈ (assignment (t :: rest)).1, (statement t rest).1 = node .expressionStatement [e] ∨
      ∃ c, c.kind = .semicolon ∧ (statement t rest).1 = node .expressionStatement [e, leaf c]) ∨
      ∃ c, (statement t rest).1 = node .expressionStatement [leaf c] := by
  unfold statement at h ⊢
  split at h
  · cases h
  · rename_i hb
    rw [if_neg hb]
    unfold simpleStatement at h ⊢
    dsimp only at h ⊢
    split at h
    · cases h
    · rename_i hret
      rw [if_neg hret]
      split at h
      · cases h
      · rename_i hop
        rw [if_neg hop]
        -- with or without an expression, and with or without a semicolon
        rcases assignment_eq (t :: rest) with hv | ⟨k, cs, hv⟩ <;>
          rcases optional_cases .semicolon (assignment (t :: rest)).2 with hc | ⟨c, hc, hk⟩ <;>
            rw [hv, hc]
        · exact Or.inr ⟨t, rfl⟩
        · exact Or.inr ⟨c, rfl⟩
        · exact Or.inl ⟨node k cs, List.mem_singleton_self _, Or.inl rfl⟩
        · exact Or.inl ⟨node k cs, List.mem_singleton_self _, Or.inr ⟨c, hk, rfl⟩⟩

theorem isNode_of_mem_assignment {ts : List Token} {e : Tree} (h : e ∈ (assignment ts).1) :
    e.isNode = true := by
  rcases assignment_eq ts with hv | ⟨k, cs, hv⟩ <;> rw [hv] at h
  · cases h
  · rw [List.mem_singleton.1 h]
    rfl

end Tree

namespace Backing

open Tree Token Grammar

theorem AddsValue.length {x : Text} {ls : List Lexeme} (h : AddsValue x ls) : 3 ≤ ls.length := by
  obtain ⟨_, close, ⟨front, -, rfl⟩, -, rfl⟩ := h
  simp only [List.length_append, List.length_cons]
  omega

/-- A semicolon at the end does not matter. -/
theorem AddsValue.of_semicolon {x : Text} {ls : List Lexeme}
    (h : AddsValue x (ls ++ [mark .semicolon])) : AddsValue x ls := by
  obtain ⟨init, close, hinit, rfl | rfl, h⟩ := h
  · -- the value stands last, and no semicolon
    obtain ⟨front, -, rfl⟩ := hinit
    have hlast := congrArg List.getLast? h
    rw [List.append_nil, List.getLast?_append, List.getLast?_append] at hlast
    cases hlast
  · rw [List.append_cancel_right h]
    exact hinit.addsValue

/-- What a statement adds the value to can be read off its tokens. -/
theorem ofStatement?_statement {ts : List Token} {s : Tree} (x : Text) (h : s ∈ (statements ts).1)
    (hk : s.isOf .expressionStatement = true) (hs : ∀ t ∈ s.leaves, t.Spelled) :
    ofStatement? (.ofTree s) = some x ↔ AddsValue x s.lexemes := by
  obtain ⟨t, rest, rfl⟩ := exists_of_mem_statements h
  rw [Statement.ofTree, if_pos hk]
  rcases expressionStatement_cases hk with ⟨e, he, hparts⟩ | ⟨c, hc⟩
  · have hnode := isNode_of_mem_assignment he
    rcases hparts with hparts | ⟨c, hc, hparts⟩ <;> rw [hparts] at hs ⊢
    · have hleaves : (node .expressionStatement [e]).leaves = e.leaves := by
        rw [leaves, leavesAll, leavesAll, List.append_nil]
      have hnodes : (node .expressionStatement [e]).childNodes = [e] :=
        List.filter_cons_of_pos hnode
      rw [hleaves] at hs
      obtain ⟨hadds, hfound⟩ := ofStatement?_expression x he hs
      rw [hnodes, Tree.lexemes, hleaves]
      exact ⟨fun h => (hadds h).addsValue, hfound⟩
    · have hleaves : (node .expressionStatement [e, leaf c]).leaves = e.leaves ++ [c] := by
        rw [leaves, leavesAll, leavesAll, leavesAll, leaves, List.append_nil]
      have hnodes : (node .expressionStatement [e, leaf c]).childNodes = [e] :=
        List.filter_cons_of_pos hnode
      rw [hleaves] at hs
      obtain ⟨hadds, hfound⟩ := ofStatement?_expression x he fun t ht =>
        hs t (List.mem_append_left _ ht)
      have hsemi : c.bare = mark .semicolon := by
        have hmark := (hs c (by simp)).mark
        rw [hc] at hmark
        exact hmark (by decide)
      rw [hnodes, Tree.lexemes, hleaves, List.map_append, List.map_singleton, hsemi]
      exact ⟨fun h => ⟨_, _, hadds h, Or.inr rfl, rfl⟩, fun h => hfound h.of_semicolon⟩
  · -- one token is too few
    rw [hc]
    constructor
    · intro h
      cases h
    · intro h
      have hlen := h.length
      rw [Tree.lexemes, leaves, leavesAll, leavesAll, leaves] at hlen
      exact absurd hlen (by simp)

end Backing

end EventLint
