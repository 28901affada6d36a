import EventLint.Proofs.Loops
import EventLint.Proofs.Readers

/-!
# Assignments are divided at their operator

Whether an expression is an assignment is found out by a search ahead of it that takes nothing. The
loops that take the expression count brackets on their own, and the token behind the left operand
is taken for the operator without a second look. Main statement: in every text the search and the
loops agree, so that this token is the first assignment operator outside brackets, and an expression
that stands by itself without being an assignment has none.
-/

namespace EventLint

/-- The node is an expression that can stand by itself. -/
def NodeKind.isExpression : NodeKind → Bool
  | assignmentExpression | expression | identifierName | memberAccessExpression => true
  | _ => false

namespace Tree

open Loop

/-! ## 1. Tokens outside brackets -/

/-- The token stands in `ts` outside brackets: those in front of it are closed again. -/
def Outside (ts : List Token) (t : Token) : Prop :=
  ∃ before after, ts = before ++ t :: after ∧ openBrackets 0 before = 0

/-- No assignment operator stands outside brackets. -/
def Unassigned (ts : List Token) : Prop :=
  ∀ t, Outside ts t → t.kind.isAssignment = false

/-- What the left operand of an assignment ends at. -/
def endsOperand (k : TokenKind) : Bool :=
  k = .semicolon || k.isAssignment

/-- An expression that something follows has closed its brackets. -/
theorem openBrackets_take {stop : TokenKind → Bool} {depth : Nat} {ts rest : List Token} {t : Token}
    (h : ts.drop (expressionExtent stop depth ts) = t :: rest) :
    openBrackets depth (ts.take (expressionExtent stop depth ts)) = 0 := by
  induction ts generalizing depth with
  | nil => cases h
  | cons u ts ih =>
    rw [expressionExtent] at h ⊢
    split at h
    · rename_i hstop
      rw [if_pos hstop]
      exact hstop.1
    · rename_i hgo
      rw [if_neg hgo]
      rw [Nat.add_comm, List.drop_succ_cons] at h
      rw [Nat.add_comm, List.take_succ_cons]
      exact ih h

theorem unassigned_operand (ts : List Token) :
    Unassigned (ts.take (expressionExtent endsOperand 0 ts)) := by
  rintro t ⟨before, after, h, ho⟩
  exact (Bool.or_eq_false_iff.1 (stop_eq_false_of_take h ho)).2

/-- Where no operator follows, the loop for the left operand takes the whole expression. -/
theorem expressionExtent_eq_operand {depth : Nat} {ts : List Token}
    (h : (ts.drop (expressionExtent endsOperand depth ts)).head?.any (·.kind.isAssignment) =
      false) :
    expressionExtent (· = .semicolon) depth ts = expressionExtent endsOperand depth ts := by
  induction ts generalizing depth with
  | nil => rfl
  | cons t ts ih =>
    rw [expressionExtent, expressionExtent]
    rw [expressionExtent] at h
    split at h
    · -- the loop for the operand stops at `t`, which is no operator: the other stops there too
      rename_i hend
      have hplain : t.kind.isAssignment = false := h
      have hstop : depth = 0 ∧ (decide (t.kind = .semicolon) = true ∨ t.kind.closes = true) := by
        rwa [endsOperand, hplain, Bool.or_false] at hend
      rw [if_pos hend, if_pos hstop]
    · rename_i hgo
      have hnext : ¬ (depth = 0 ∧ (decide (t.kind = .semicolon) = true ∨ t.kind.closes = true)) :=
        fun hs => hgo ⟨hs.1, hs.2.imp_left fun hk => by rw [endsOperand, hk, Bool.true_or]⟩
      rw [Nat.add_comm, List.drop_succ_cons] at h
      rw [if_neg hgo, if_neg hnext, ih h]

/-! ## 2. One expression -/

section

variable {ts : List Token}

theorem assignment_of_plain
    (h : (ts.drop (expressionExtent endsOperand 0 ts)).head?.any (·.kind.isAssignment) = false) :
    assignment ts = (expression (ts.take (expressionExtent endsOperand 0 ts)),
      ts.drop (expressionExtent endsOperand 0 ts)) := by
  unfold endsOperand at h ⊢
  rw [assignment]
  dsimp only
  split
  · rename_i hd
    rw [hd]
  · rename_i t rest hd
    have hplain : ¬ t.kind.isAssignment = true := by
      rw [hd] at h
      exact Bool.eq_false_iff.1 h
    rw [if_neg hplain, hd]

theorem assignment_of_operator {op : Token} {rest : List Token}
    (hd : ts.drop (expressionExtent endsOperand 0 ts) = op :: rest)
    (hop : op.kind.isAssignment = true) :
    assignment ts =
      ([node .assignmentExpression (expression (ts.take (expressionExtent endsOperand 0 ts)) ++
          leaf op :: expression (rest.take (expressionExtent (· = .semicolon) 0 rest)))],
        rest.drop (expressionExtent (· = .semicolon) 0 rest)) := by
  unfold endsOperand at hd ⊢
  rw [assignment]
  dsimp only
  rw [hd]
  dsimp only
  rw [if_pos hop]

end

/-- The node `e` is an assignment in front of `after`: an operator with at most one operand on each
side, where the loops that take the operands end in front of the operator and behind all. -/
structure Assigns (e : Tree) (after : List Token) (left : List Tree) (op : Token)
    (right : List Tree) : Prop where
  children : e.children = left ++ leaf op :: right
  tokens : e.childTokens = [op]
  operator : op.kind.isAssignment = true
  left_le : left.length ≤ 1
  right_le : right.length ≤ 1
  closed : openBrackets 0 (leavesAll left) = 0
  unassigned : Unassigned (leavesAll left)
  left_ends : Ends (expressionTurn endsOperand) (0, e.leaves ++ after)
    (op :: (leavesAll right ++ after))
  right_ends : Ends (expressionTurn (· = .semicolon)) (0, leavesAll right ++ after) after

/-- The node `e` is an expression in front of `after`, and the search for an operator ahead of it
agrees with the loops that take it. -/
structure IsValue (e : Tree) (after : List Token) : Prop where
  kind : e.nodeKind?.any NodeKind.isExpression = true
  lookahead : Ends lookaheadTurn (0, e.leaves ++ after) (e.isOf .assignmentExpression)
  assigns : e.isOf .assignmentExpression = true → ∃ left op right, Assigns e after left op right
  /-- Without an operator all of it is taken as one expression. -/
  plain_ends : e.isOf .assignmentExpression = false →
    Ends (expressionTurn (· = .semicolon)) (0, e.leaves ++ after) after
  plain_iff : e.isOf .assignmentExpression = false ↔ Unassigned e.leaves

theorem Assigns.outside {e : Tree} {after : List Token} {left right : List Tree} {op : Token}
    (h : Assigns e after left op right) : Outside e.leaves op := by
  refine ⟨leavesAll left, leavesAll right, ?_, h.closed⟩
  cases e with
  | leaf t => cases h.tokens
  | node k cs =>
    rw [leaves, show cs = _ from h.children, leavesAll_append, leavesAll, leaves,
      List.singleton_append]

theorem length_expression_le (us : List Token) : (expression us).length ≤ 1 := by
  cases us with
  | nil => exact Nat.zero_le 1
  | cons u us => exact Nat.le_refl 1

theorem filterMap_token?_expression (us : List Token) : (expression us).filterMap token? = [] := by
  cases us <;> rfl

/-- An expression that is read on its own leaves what the loops leave. -/
theorem isValue_of_plain {ts : List Token} {e : Tree}
    (h : (ts.drop (expressionExtent endsOperand 0 ts)).head?.any (·.kind.isAssignment) = false)
    (he : e ∈ (assignment ts).1) : IsValue e (assignment ts).2 := by
  have hread := (reads_assignment ts).leaves
  have hlook := ends_lookaheadTurn ts
  have hends := ends_expressionTurn (· = .semicolon) 0 ts
  have hfree := unassigned_operand ts
  rw [expressionExtent_eq_operand h] at hends
  rw [assignment_of_plain h] at he hread hlook ⊢
  dsimp only at he hread hlook ⊢
  -- both loops took the same tokens, from here on called `us`
  generalize ts.take (expressionExtent endsOperand 0 ts) = us at he hread hlook hfree
  cases us with
  | nil => cases he
  | cons u us =>
    obtain rfl := List.mem_singleton.1 he
    have hplain : isOf .assignmentExpression
        (node (expressionKind (u :: us)) ((u :: us).map leaf)) = false :=
      decide_eq_false fun hk => Backing.expressionKind_ne_assignment _ (Option.some.inj hk)
    have hleaves : (node (expressionKind (u :: us)) ((u :: us).map leaf)).leaves = u :: us := by
      rw [leaves, leavesAll_map_leaf]
    rw [leavesAll_expression] at hread
    rw [isOf_expression] at hlook
    constructor
    · show (expressionKind (u :: us)).isExpression = true
      fun_cases expressionKind (u :: us) <;> rfl
    · rwa [hleaves, hread, hplain]
    · intro hassigns
      rw [hplain] at hassigns
      cases hassigns
    · intro _
      rwa [hleaves, hread]
    · rw [hleaves]
      exact iff_of_true hplain hfree

/-- An expression that an operator divides is taken by two loops, with the operator between. -/
theorem isValue_of_operator {ts rest : List Token} {e : Tree} {op : Token}
    (hd : ts.drop (expressionExtent endsOperand 0 ts) = op :: rest)
    (hop : op.kind.isAssignment = true) (he : e ∈ (assignment ts).1) :
    IsValue e (assignment ts).2 := by
  have hread := (reads_assignment ts).leaves
  have hlook := ends_lookaheadTurn ts
  have hleft := ends_expressionTurn endsOperand 0 ts
  have hright := ends_expressionTurn (· = .semicolon) 0 rest
  have hfree := unassigned_operand ts
  have hclosed := openBrackets_take hd
  have hrest := List.take_append_drop (expressionExtent (· = .semicolon) 0 rest) rest
  rw [hd] at hleft
  rw [assignment_of_operator hd hop] at he hread hlook ⊢
  obtain rfl := List.mem_singleton.1 he
  dsimp only at hread hlook ⊢
  rw [leavesAll, leavesAll, List.append_nil] at hread
  -- from here on `us` is the left operand and `vs` the right one
  generalize ts.take (expressionExtent endsOperand 0 ts) = us at hread hlook hfree hclosed ⊢
  generalize rest.take (expressionExtent (· = .semicolon) 0 rest) = vs at hread hlook hrest ⊢
  have hassigns : Assigns (node .assignmentExpression (expression us ++ leaf op :: expression vs))
      (rest.drop (expressionExtent (· = .semicolon) 0 rest)) (expression us) op
      (expression vs) := by
    constructor
    · rfl
    · rw [childTokens, children, List.filterMap_append, filterMap_token?_expression,
        List.filterMap_cons_some (show token? (leaf op) = some op from rfl),
        filterMap_token?_expression, List.nil_append]
    · exact hop
    · exact length_expression_le us
    · exact length_expression_le vs
    · rwa [leavesAll_expression]
    · rwa [leavesAll_expression]
    · rwa [hread, leavesAll_expression, hrest]
    · rwa [leavesAll_expression, hrest]
  constructor
  · rfl
  · rwa [hread]
  · exact fun _ => ⟨_, op, _, hassigns⟩
  · intro hplain
    cases hplain
  · refine iff_of_false (fun hplain => by cases hplain) fun hnone => ?_
    rw [hnone op hassigns.outside] at hop
    cases hop

theorem isValue_of_mem {ts : List Token} {e : Tree} (he : e ∈ (assignment ts).1) :
    IsValue e (assignment ts).2 := by
  cases hd : ts.drop (expressionExtent endsOperand 0 ts) with
  | nil => exact isValue_of_plain (by rw [hd]; rfl) he
  | cons t rest =>
    cases ht : t.kind.isAssignment with
    | true => exact isValue_of_operator hd ht he
    | false => exact isValue_of_plain (by rw [hd]; exact ht) he

/-! ## 3. Expressions of a text -/

/-- The expression `e` stands among the tokens, and the search and the loops agree on it. -/
def ValueAmong (ts : List Token) (e : Tree) : Prop :=
  ∃ before after, ts = before ++ (e.leaves ++ after) ∧ IsValue e after

theorem valueAmong_of_mem {ts us : List Token} {e : Tree} (hs : us <:+ ts)
    (he : e ∈ (assignment us).1) : ValueAmong ts e := by
  obtain ⟨before, rfl⟩ := hs
  refine ⟨before, (assignment us).2, ?_, isValue_of_mem he⟩
  have hread := (reads_assignment us).leaves
  rcases assignment_eq us with hnil | ⟨k, cs, hone⟩
  · rw [hnil] at he
    cases he
  · rw [hone] at he hread
    obtain rfl := List.mem_singleton.1 he
    rw [leavesAll, leavesAll, List.append_nil] at hread
    rw [hread]

theorem isOf_statement (t : Token) (rest : List Token) :
    (statement t rest).1.isOf .assignmentExpression = false ∧
      (statement t rest).1.isOf .arrowExpressionClause = false := by
  unfold statement
  split
  · exact ⟨rfl, rfl⟩
  · unfold simpleStatement
    dsimp only
    split
    · exact ⟨rfl, rfl⟩
    · split
      · exact ⟨rfl, rfl⟩
      · split <;> exact ⟨rfl, rfl⟩

theorem childNodes_statement {t : Token} {rest : List Token}
    (hk : (statement t rest).1.isOf .expressionStatement = true) :
    (statement t rest).1.childNodes = [] ∨
      ∃ e ∈ (assignment (t :: rest)).1, (statement t rest).1.childNodes = [e] := by
  rcases expressionStatement_cases hk with ⟨e, he, hone | ⟨c, -, hone⟩⟩ | ⟨c, hone⟩
  · refine Or.inr ⟨e, he, ?_⟩
    rw [hone]
    exact List.filter_cons_of_pos (isNode_of_mem_assignment he)
  · refine Or.inr ⟨e, he, ?_⟩
    rw [hone]
    exact List.filter_cons_of_pos (isNode_of_mem_assignment he)
  · rw [hone]
    exact Or.inl rfl

/-- The node is an expression statement, or an arrow with its expression. -/
def isFrame (n : Tree) : Bool :=
  n.isOf .expressionStatement || n.isOf .arrowExpressionClause

section

variable {ts : List Token} {n : Tree}

theorem bearsValue_of_isFrame (h : n.isFrame = true) :
    n.nodeKind?.any NodeKind.bearsValue = true := by
  rcases Bool.or_eq_true_iff.1 h with hk | hk <;> rw [of_decide_eq_true hk] <;> rfl

theorem isFrame_of_isExpression (h : n.nodeKind?.any NodeKind.isExpression = true) :
    n.isFrame = false := by
  refine Bool.eq_false_iff.2 fun hframe => ?_
  rcases Bool.or_eq_true_iff.1 hframe with hk | hk <;> rw [of_decide_eq_true hk] at h <;> cases h

theorem Made.mem_assignment (h : Made ts n) (hk : n.isOf .assignmentExpression = true) :
    n ∈ (assignment ts).1 := by
  cases h with
  | value he => exact he
  | statement t rest =>
    rw [(isOf_statement t rest).1] at hk
    cases hk
  | arrow t rest => cases hk

/-- A node that surrounds an expression has no other child node. -/
theorem Made.childNodes (h : Made ts n) (hk : n.isFrame = true) :
    n.childNodes.length ≤ 1 ∧ ∀ e ∈ n.childNodes, ∃ us, us <:+ ts ∧ e ∈ (assignment us).1 := by
  cases h with
  | value he =>
    rw [isFrame_of_isExpression (isValue_of_mem he).kind] at hk
    cases hk
  | statement t rest =>
    rw [isFrame, (isOf_statement t rest).2, Bool.or_false] at hk
    rcases childNodes_statement hk with hnodes | ⟨e, he, hnodes⟩ <;> rw [hnodes]
    · exact ⟨Nat.zero_le 1, List.forall_mem_nil _⟩
    · exact ⟨Nat.le_refl 1, List.forall_mem_singleton.2 ⟨_, List.suffix_rfl, he⟩⟩
  | arrow t rest =>
    have hnodes : (arrowClause t rest).1.childNodes = (assignment rest).1 :=
      List.filter_eq_self.2 fun e he => isNode_of_mem_assignment he
    rw [hnodes]
    refine ⟨?_, fun e he => ⟨rest, List.suffix_cons t rest, he⟩⟩
    rcases assignment_eq rest with h | ⟨k, cs, h⟩ <;> rw [h]
    · exact Nat.zero_le 1
    · exact Nat.le_refl 1

end

end Tree

namespace Document

open Tree

/-- In every text, assignments are divided at the first assignment operator outside brackets, and
an expression that makes up a statement, or stands behind an arrow, is an assignment exactly if it
has one. -/
theorem ofText_assignments (text : Text) :
    (∀ n ∈ (ofText text).root.preorder, n.isOf .assignmentExpression = true →
      ValueAmong (Token.scan text) n) ∧
    ∀ n ∈ (ofText text).root.preorder, n.isFrame = true →
      n.childNodes.length ≤ 1 ∧ ∀ e ∈ n.childNodes, ValueAmong (Token.scan text) e := by
  constructor
  · intro n hn hk
    have hkind : n.nodeKind? = some .assignmentExpression := of_decide_eq_true hk
    obtain ⟨us, hus, hmade⟩ := exists_made hn (by rw [hkind]; rfl)
    exact valueAmong_of_mem hus (hmade.mem_assignment hk)
  · intro n hn hk
    obtain ⟨us, hus, hmade⟩ := exists_made hn (bearsValue_of_isFrame hk)
    obtain ⟨hle, hvalue⟩ := hmade.childNodes hk
    refine ⟨hle, fun e he => ?_⟩
    obtain ⟨vs, hvs, he⟩ := hvalue e he
    exact valueAmong_of_mem (hvs.trans hus) he

/-- An assignment with others in the brackets of both operands, and an expression behind an arrow
that has one in its brackets only. -/
theorem ofText_assignments_bracketed :
    let text := ("class C \x7b event A E \x7b add \x7b a[i = 0] += f(b = value); \x7d " ++
      "remove => g(c = value); \x7d \x7d").toList
    (∃ n ∈ (ofText text).root.preorder, n.isOf .assignmentExpression = true ∧
      n.childTokens.map Token.kind = [.plusEq] ∧ ValueAmong (Token.scan text) n) ∧
    ∃ n ∈ (ofText text).root.preorder, n.isFrame = true ∧ ∃ e ∈ n.childNodes,
      e.leaves.any (·.kind = .eq) = true ∧ e.isOf .assignmentExpression = false ∧
        ValueAmong (Token.scan text) e := by
  intro text
  have hassigns : ((ofText text).root.preorder.find? (isOf .assignmentExpression)).any
      (fun n => n.childTokens.map Token.kind = [.plusEq]) = true := by
    decide +kernel
  have harrow : ((ofText text).root.preorder.find? (isOf .arrowExpressionClause)).any
      (fun n => n.childNodes.any fun e =>
        e.leaves.any (·.kind = .eq) && !e.isOf .assignmentExpression) = true := by
    decide +kernel
  obtain ⟨n, hn, htokens⟩ := (Option.any_eq_true _ _).1 hassigns
  obtain ⟨m, hm, he⟩ := (Option.any_eq_true _ _).1 harrow
  obtain ⟨e, hmem, he⟩ := List.any_eq_true.1 he
  obtain ⟨heq, hplain⟩ := Bool.and_eq_true_iff.1 he
  have hframe : m.isFrame = true := Bool.or_eq_true_iff.2 (Or.inr (List.find?_some hm))
  have hmem' := List.mem_of_find?_eq_some hn
  have hmem'' := List.mem_of_find?_eq_some hm
  exact ⟨⟨n, hmem', List.find?_some hn, of_decide_eq_true htokens,
      (ofText_assignments text).1 n hmem' (List.find?_some hn)⟩,
    m, hmem'', hframe, e, hmem, heq, by simpa using hplain,
      ((ofText_assignments text).2 m hmem'' hframe).2 e hmem⟩

end Document

end EventLint
