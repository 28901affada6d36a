import EventLint.Proofs.Ending
import EventLint.Token.Scan

/-!
# Loops over tokens

The readers are recursive functions, which end by construction: they cut a count off at zero and
give up where a part takes no token. A loop over tokens has neither guard: it fails where a count
falls below zero, and goes on forever where it takes nothing. Main statement: on every list of
tokens the loops end without failing, and give what the readers give.
-/

namespace EventLint

/-! ## 1. Loops that may fail or never end -/

namespace Loop

/-- What one turn of a loop leads to. -/
inductive Turn (σ ρ : Type) where
  /-- The loop ends. -/
  | stop (result : ρ)
  /-- Another turn follows. -/
  | next (state : σ)
  /-- A count would fall below zero. -/
  | fault

/-- The loop ends with this result, after finitely many turns none of which fails. -/
inductive Ends {σ ρ : Type} (turn : σ → Turn σ ρ) : σ → ρ → Prop where
  | stop {s : σ} {r : ρ} (h : turn s = .stop r) : Ends turn s r
  | next {s s' : σ} {r : ρ} (h : turn s = .next s') (hr : Ends turn s' r) : Ends turn s r

section

variable {σ ρ : Type} {turn : σ → Turn σ ρ} {s s' : σ} {r r' : ρ}

theorem ends_iff_of_stop (h : turn s = .stop r) : Ends turn s r' ↔ r' = r := by
  refine ⟨fun hends => ?_, fun hr => .stop (hr ▸ h)⟩
  cases hends with
  | stop hstop =>
    rw [hstop] at h
    cases h
    rfl
  | next hnext =>
    rw [hnext] at h
    cases h

theorem ends_iff_of_next (h : turn s = .next s') : Ends turn s r ↔ Ends turn s' r := by
  refine ⟨fun hends => ?_, .next h⟩
  cases hends with
  | stop hstop =>
    rw [hstop] at h
    cases h
  | next hnext hrest =>
    rw [hnext] at h
    cases h
    exact hrest

/-- A loop that stays where it is does not end. -/
theorem not_ends_of_stuck (h : turn s = .next s) : ¬ Ends turn s r := by
  intro hends
  induction hends with
  | stop hstop =>
    rw [hstop] at h
    cases h
  | next hnext _ ih =>
    rw [hnext] at h
    cases h
    exact ih hnext

end

/-- Goes on with a count lowered by one. -/
def lowered {σ ρ : Type} (depth : Nat) (go : Nat → Turn σ ρ) : Turn σ ρ :=
  match depth with
  | 0 => .fault
  | depth + 1 => go depth

end Loop

namespace Tree

open Loop

/-! ## 2. Counting loops -/

/-- Takes tokens until as many angle brackets are closed as were opened. -/
def angleTurn : Nat × List Token → Turn (Nat × List Token) (List Token)
  | (_, []) => .stop []
  | (depth, t :: ts) =>
    let go depth := if depth = 0 then .stop ts else .next (depth, ts)
    if t.kind = .lt then go (depth + 1)
    else if t.kind = .gt then lowered depth go
    else go depth

/-- Takes tokens until a stop or a closing bracket stands outside brackets. -/
def expressionTurn (stop : TokenKind → Bool) :
    Nat × List Token → Turn (Nat × List Token) (List Token)
  | (_, []) => .stop []
  | (depth, t :: ts) =>
    if depth = 0 ∧ (stop t.kind ∨ t.kind.closes) then .stop (t :: ts)
    else if t.kind.opens then .next (depth + 1, ts)
    else if t.kind.closes then lowered depth fun depth => .next (depth, ts)
    else .next (depth, ts)

/-- Looks for an assignment operator outside brackets, in front of a semicolon or a closing
bracket. -/
def lookaheadTurn : Nat × List Token → Turn (Nat × List Token) Bool
  | (_, []) => .stop false
  | (depth, t :: ts) =>
    if t.kind.opens then .next (depth + 1, ts)
    else if t.kind.closes then
      if depth = 0 then .stop false else lowered depth fun depth => .next (depth, ts)
    else if depth = 0 ∧ t.kind = .semicolon then .stop false
    else if depth = 0 ∧ t.kind.isAssignment then .stop true
    else .next (depth, ts)

theorem ends_angleTurn_succ (depth : Nat) (ts : List Token) :
    Ends angleTurn (depth + 1, ts) (ts.drop (angleExtent (depth + 1) ts)) := by
  induction ts generalizing depth with
  | nil => exact .stop rfl
  | cons t ts ih =>
    rw [angleExtent, Nat.add_comm 1, List.drop_succ_cons]
    by_cases hlt : t.kind = .lt
    · rw [if_pos hlt]
      exact .next (by simp [angleTurn, hlt]) (ih (depth + 1))
    rw [if_neg hlt]
    by_cases hgt : t.kind = .gt
    · rw [if_pos hgt]
      cases depth with
      | zero =>
        -- the last bracket is closed
        refine .stop ?_
        cases ts <;> simp [angleTurn, lowered, hgt, angleExtent]
      | succ depth => exact .next (by simp [angleTurn, lowered, hgt]) (ih depth)
    · rw [if_neg hgt]
      exact .next (by simp [angleTurn, hlt, hgt]) (ih depth)

/-- Behind an opening angle bracket the search ends, and a parenthesis found there is what starts
the parameters of a method. -/
theorem ends_angleTurn {ts : List Token} (h : nextIs .lt ts = true) :
    ∃ left, Ends angleTurn (0, ts) left ∧ opensParameters ts = nextIs .lparen left := by
  cases ts with
  | nil => cases h
  | cons t ts =>
    have hlt : t.kind = .lt := of_decide_eq_true h
    refine ⟨ts.drop (angleExtent 1 ts), .next ?_ (ends_angleTurn_succ 0 ts), ?_⟩
    · simp [angleTurn, hlt]
    · rw [opensParameters, if_pos h, List.tail_cons, Nat.add_comm 1, List.drop_succ_cons]

theorem ends_expressionTurn (stop : TokenKind → Bool) (depth : Nat) (ts : List Token) :
    Ends (expressionTurn stop) (depth, ts) (ts.drop (expressionExtent stop depth ts)) := by
  induction ts generalizing depth with
  | nil => exact .stop rfl
  | cons t ts ih =>
    rw [expressionExtent]
    split
    · rename_i hstop
      exact .stop (if_pos hstop)
    rename_i hgo
    rw [Nat.add_comm 1, List.drop_succ_cons]
    refine .next ?_ (ih _)
    rw [expressionTurn, if_neg hgo]
    by_cases hopens : t.kind.opens = true
    · rw [if_pos hopens, if_pos hopens]
    rw [if_neg hopens, if_neg hopens]
    by_cases hcloses : t.kind.closes = true
    · -- a bracket that is closed here was opened before
      cases depth with
      | zero => exact absurd ⟨rfl, Or.inr hcloses⟩ hgo
      | succ depth => rw [if_pos hcloses, if_pos hcloses, lowered, Nat.add_sub_cancel]
    · rw [if_neg hcloses, if_neg hcloses]

/-- What the search for an assignment operator finds is the token that divides the expression. -/
theorem ends_lookaheadTurn_extent (depth : Nat) (ts : List Token) :
    Ends lookaheadTurn (depth, ts)
      ((ts.drop (expressionExtent (fun k => k = .semicolon || k.isAssignment) depth ts)).head?.any
        (·.kind.isAssignment)) := by
  induction ts generalizing depth with
  | nil => exact .stop rfl
  | cons t ts ih =>
    rw [expressionExtent]
    split
    · rename_i hend
      obtain ⟨rfl, hend⟩ := hend
      refine .stop ?_
      rw [List.drop_zero, List.head?_cons, Option.any_some, lookaheadTurn]
      -- no kind is both an operator and a semicolon or a bracket, so the order of the tests is free
      cases hk : t.kind <;>
        simp_all [TokenKind.opens, TokenKind.closes, TokenKind.isAssignment]
    rename_i hgo
    rw [Nat.add_comm 1, List.drop_succ_cons]
    refine .next ?_ (ih _)
    rw [lookaheadTurn]
    by_cases hopens : t.kind.opens = true
    · rw [if_pos hopens, if_pos hopens]
    rw [if_neg hopens, if_neg hopens]
    by_cases hcloses : t.kind.closes = true
    · cases depth with
      | zero => exact absurd ⟨rfl, Or.inr hcloses⟩ hgo
      | succ depth =>
        rw [if_pos hcloses, if_pos hcloses, if_neg (Nat.succ_ne_zero depth), lowered,
          Nat.add_sub_cancel]
    · have hsemicolon : ¬ (depth = 0 ∧ t.kind = .semicolon) := fun h => hgo ⟨h.1, by simp [h.2]⟩
      have hassign : ¬ (depth = 0 ∧ t.kind.isAssignment = true) := fun h =>
        hgo ⟨h.1, by simp [h.2]⟩
      rw [if_neg hcloses, if_neg hcloses, if_neg hsemicolon, if_neg hassign]

theorem isOf_expression (ts : List Token) :
    (expression ts).any (isOf .assignmentExpression) = false := by
  have hkind : expressionKind ts ≠ .assignmentExpression := by
    unfold expressionKind
    split
    · decide
    · split <;> decide
    · split <;> decide
  cases ts with
  | nil => rfl
  | cons t ts => simp [expression, isOf, nodeKind?, hkind]

/-- The search answers whether the reader makes an assignment. -/
theorem ends_lookaheadTurn (ts : List Token) :
    Ends lookaheadTurn (0, ts) ((assignment ts).1.any (isOf .assignmentExpression)) := by
  have hends := ends_lookaheadTurn_extent 0 ts
  rw [assignment]
  dsimp only
  split
  · rename_i hdrop
    rw [hdrop] at hends
    rwa [isOf_expression]
  · rename_i t rest hdrop
    rw [hdrop] at hends
    split
    · rename_i hassign
      rwa [List.head?_cons, Option.any_some, hassign] at hends
    · rename_i hassign
      rw [isOf_expression]
      rwa [List.head?_cons, Option.any_some, Bool.eq_false_iff.2 hassign] at hends

/-! ## 3. The loop up to a parenthesis -/

/-- Takes the next token. At the end of the tokens nothing happens. -/
def bump : List Token × List Token → List Token × List Token
  | (taken, []) => (taken, [])
  | (taken, t :: ts) => (taken ++ [t], ts)

/-- Takes tokens until a parenthesis follows. -/
def parenTurn (s : List Token × List Token) :
    Turn (List Token × List Token) (List Token × List Token) :=
  if nextIs .lparen s.2 then .stop s else .next (bump s)

/-- The loop ends exactly if there is a parenthesis to end at. -/
theorem ends_parenTurn_iff {taken ts : List Token} {r : List Token × List Token} :
    Ends parenTurn (taken, ts) r ↔
      (∃ t ∈ ts, t.kind = .lparen) ∧
        r = (taken ++ ts.takeWhile (·.kind ≠ .lparen), ts.dropWhile (·.kind ≠ .lparen)) := by
  induction ts generalizing taken with
  | nil =>
    -- nothing is left to take, and the loop turns on the spot
    refine iff_of_false (not_ends_of_stuck rfl) ?_
    rintro ⟨⟨t, ht, -⟩, -⟩
    cases ht
  | cons t ts ih =>
    by_cases ht : t.kind = .lparen
    · have hstop : parenTurn (taken, t :: ts) = .stop (taken, t :: ts) :=
        if_pos (decide_eq_true ht)
      rw [ends_iff_of_stop hstop, List.takeWhile_cons_of_neg (by simpa using ht),
        List.dropWhile_cons_of_neg (by simpa using ht), List.append_nil]
      exact (and_iff_right ⟨t, List.mem_cons_self, ht⟩).symm
    · have hnext : parenTurn (taken, t :: ts) = .next (taken ++ [t], ts) :=
        if_neg fun h => ht (of_decide_eq_true h)
      rw [ends_iff_of_next hnext, ih, List.takeWhile_cons_of_pos (by simpa using ht),
        List.dropWhile_cons_of_pos (by simpa using ht), List.append_assoc, List.singleton_append]
      simp [ht]

/-- Type parameters in front of a parenthesis are what the loop takes. -/
theorem ends_parenTurn {ts : List Token} (hlt : nextIs .lt ts = true)
    (hparen : ∃ t ∈ ts, t.kind = .lparen) :
    ∃ taken left, Ends parenTurn ([], ts) (taken, left) ∧
      typeParameters ts = ([node .typeParameterList (taken.map leaf)], left) := by
  refine ⟨_, _, ends_parenTurn_iff.2 ⟨hparen, rfl⟩, ?_⟩
  rw [typeParameters, if_pos hlt, List.nil_append]

/-! ## 4. Loops over declarations, accessors and statements -/

/-- Reads parts from the front, up to a token that ends their list. -/
def readingTurn (ends : TokenKind → Bool) (read : Token → List Token → Tree × List Token) :
    List Tree × List Token → Turn (List Tree × List Token) (List Tree × List Token)
  | (trees, []) => .stop (trees, [])
  | (trees, t :: rest) =>
    if ends t.kind then .stop (trees, t :: rest)
    else .next (trees ++ [(read t rest).1], (read t rest).2)

theorem suffix_of_leaves {tree : Tree} {t : Token} {rest after : List Token}
    (hne : tree.leaves ≠ []) (h : leavesAll [tree] ++ after = t :: rest) : after <:+ rest := by
  obtain ⟨u, us, hu⟩ := List.exists_cons_of_ne_nil hne
  rw [leavesAll, leavesAll, List.append_nil, hu, List.cons_append] at h
  exact ⟨us, (List.cons.inj h).2⟩

/-- A part that is read from the front takes a token at least. -/
theorem Reads.advances {tree : Tree} {t : Token} {rest after : List Token}
    (h : Reads (t :: rest) [tree] after) : after <:+ rest :=
  suffix_of_leaves (leaves_ne_nil (h.parts tree (List.mem_singleton_self _))) h.leaves

theorem Declares.advances {tree : Tree} {t : Token} {rest after : List Token}
    (h : Declares (t :: rest) [tree] after) : after <:+ rest :=
  suffix_of_leaves (h.declarations tree (List.mem_singleton_self _)).leaves_ne_nil h.leaves

/-- A loop whose every turn takes a token ends, with what a recursion of the same steps gives. -/
theorem ends_readingTurn {ends : TokenKind → Bool} {read : Token → List Token → Tree × List Token}
    {readAll : List Token → List Tree × List Token}
    (hadvances : ∀ t rest, (read t rest).2 <:+ rest) (hnil : readAll [] = ([], []))
    (hend : ∀ t rest, ends t.kind = true → readAll (t :: rest) = ([], t :: rest))
    (hnext : ∀ t rest, ends t.kind = false → readAll (t :: rest) =
      ((read t rest).1 :: (readAll (read t rest).2).1, (readAll (read t rest).2).2))
    (trees : List Tree) (ts : List Token) :
    Ends (readingTurn ends read) (trees, ts) (trees ++ (readAll ts).1, (readAll ts).2) := by
  -- on the number of tokens: a part may take more than one
  induction ts using shorter_induction generalizing trees with
  | step ts ih =>
    cases ts with
    | nil =>
      rw [hnil, List.append_nil]
      exact .stop rfl
    | cons t rest =>
      cases he : ends t.kind with
      | true =>
        rw [hend t rest he, List.append_nil]
        exact .stop (if_pos he)
      | false =>
        have hturn : readingTurn ends read (trees, t :: rest) =
            .next (trees ++ [(read t rest).1], (read t rest).2) :=
          if_neg (by rw [he]; exact Bool.false_ne_true)
        have hrest := ih _ (Nat.lt_succ_of_le (hadvances t rest).length_le)
          (trees ++ [(read t rest).1])
        rw [List.append_assoc, List.singleton_append] at hrest
        rw [hnext t rest he]
        exact .next hturn hrest

theorem ends_declarations (scope : Scope) (ts : List Token) :
    Ends (readingTurn scope.endsAt (declaration scope)) ([], ts) (declarations scope ts) :=
  ends_readingTurn (fun t rest => (declares_declaration scope t rest).advances)
    (declarations_nil scope) (fun _ rest h => declarations_of_endsAt rest h)
    (fun _ rest h => declarations_cons rest h) [] ts

theorem ends_accessors (ts : List Token) :
    Ends (readingTurn (· = .rbrace) accessor) ([], ts) (accessors ts) :=
  ends_readingTurn (fun t rest => (reads_accessor t rest).advances) (by rw [accessors])
    (fun t rest h => by rw [accessors, if_pos (of_decide_eq_true h)])
    (fun _ rest h => accessors_cons rest (of_decide_eq_false h)) [] ts

theorem ends_statements (ts : List Token) :
    Ends (readingTurn (· = .rbrace) statement) ([], ts) (statements ts) :=
  ends_readingTurn (fun t rest => (reads_statement t rest).advances) statements_nil
    (fun _ rest h => statements_of_rbrace rest (of_decide_eq_true h))
    (fun _ rest h => statements_cons rest (of_decide_eq_false h)) [] ts

/-! ## 5. All loops -/

/-- A method is read from `ts` and type parameters follow its name; `after` is what stands behind
the name. -/
def ReachesTypeParameters (ts after : List Token) : Prop :=
  ∃ type rest name, typeName? ts = some (type, rest) ∧
    rest.drop (qualifierExtent rest) = name :: after ∧ name.kind = .ident ∧
    opensParameters after = true ∧ nextIs .lt after = true

/-- The loops over the tokens `ts` end without failing and give what the readers give. -/
structure SafeLoops (ts : List Token) : Prop where
  /-- Type parameters are taken up to a parenthesis, and there is one. -/
  typeParameters : ∀ after, ReachesTypeParameters ts after →
    (∃ t ∈ after, t.kind = .lparen) ∧
      ∃ taken left, Ends parenTurn ([], after) (taken, left) ∧
        typeParameters after = ([node .typeParameterList (taken.map leaf)], left)
  /-- Whether a method has them was decided by counting angle brackets. -/
  angles : nextIs .lt ts = true →
    ∃ left, Ends angleTurn (0, ts) left ∧ opensParameters ts = nextIs .lparen left
  /-- An expression is cut off where the count of its brackets says. -/
  expression : ∀ stop, Ends (expressionTurn stop) (0, ts) (ts.drop (expressionExtent stop 0 ts))
  /-- An assignment is one where the search in front of it finds an operator. -/
  lookahead : Ends lookaheadTurn (0, ts) ((assignment ts).1.any (isOf .assignmentExpression))
  /-- Each part that a loop reads takes a token at least. -/
  advances : ∀ t rest, ts = t :: rest →
    (∀ scope, (declaration scope t rest).2 <:+ rest) ∧ (accessor t rest).2 <:+ rest ∧
      (statement t rest).2 <:+ rest
  declarations : ∀ scope,
    Ends (readingTurn scope.endsAt (declaration scope)) ([], ts) (declarations scope ts)
  accessors : Ends (readingTurn (· = .rbrace) accessor) ([], ts) (accessors ts)
  statements : Ends (readingTurn (· = .rbrace) statement) ([], ts) (statements ts)
  /-- A file is read to its end, and every token has its place in the tree. -/
  consumed : ∃ trees,
    Ends (readingTurn Scope.file.endsAt (declaration .file)) ([], ts) (trees, []) ∧
    ofTokens ts = node .compilationUnit trees ∧ (ofTokens ts).leaves = ts

/-- On every list of tokens the loops end without failing, and give what the readers give. -/
theorem safeLoops (ts : List Token) : SafeLoops ts where
  typeParameters after := by
    rintro ⟨-, -, -, -, -, -, hopens, hlt⟩
    exact ⟨exists_lparen hopens, ends_parenTurn hlt (exists_lparen hopens)⟩
  angles := ends_angleTurn
  expression stop := ends_expressionTurn stop 0 ts
  lookahead := ends_lookaheadTurn ts
  advances := by
    rintro t rest -
    exact ⟨fun scope => (declares_declaration scope t rest).advances,
      (reads_accessor t rest).advances, (reads_statement t rest).advances⟩
  declarations scope := ends_declarations scope ts
  accessors := ends_accessors ts
  statements := ends_statements ts
  consumed := by
    have hends := ends_declarations .file ts
    rw [← Prod.eta (declarations .file ts), declarations_file_rest] at hends
    exact ⟨_, hends, rfl, leaves_ofTokens ts⟩

/-- Type parameters with brackets inside each other, behind a qualified name. -/
theorem safeLoops_nestedAngles :
    let ts := Token.scan "void I.M<A<B>, C>(A x)".toList
    let after := ts.drop 4
    ReachesTypeParameters ts after ∧ (∃ t ∈ after, t.kind = .lparen) ∧
      ∃ taken left, Ends parenTurn ([], after) (taken, left) ∧ taken.length = 8 := by
  intro ts after
  have hreaches : ReachesTypeParameters ts after := by
    have htype : (typeName? ts).map Prod.snd = some (ts.drop 1) := by decide +kernel
    obtain ⟨⟨type, rest⟩, htype, hrest⟩ := Option.map_eq_some_iff.1 htype
    obtain rfl : rest = ts.drop 1 := hrest
    exact ⟨type, _, ⟨.ident, [], ['M'], 7⟩, htype, by decide +kernel, rfl, by decide +kernel,
      by decide +kernel⟩
  obtain ⟨hparen, taken, left, hends, -⟩ := (safeLoops ts).typeParameters after hreaches
  refine ⟨hreaches, hparen, taken, left, hends, ?_⟩
  rw [(Prod.mk.inj (ends_parenTurn_iff.1 hends).2).1]
  decide +kernel

end Tree

end EventLint
