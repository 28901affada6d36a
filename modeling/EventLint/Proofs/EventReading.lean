import EventLint.Proofs.EventPlace
import EventLint.Proofs.MemberReading

/-!
# Events are read back

The tokens of an event are read as one member, and what the member says is what was written: the
name, the type, the modifiers, and the names declared together or the statements of both accessors.
-/

namespace EventLint

/-! ## 1. What an event says -/

/-- The tokens of a tree apart from where they stand. -/
def Tree.lexemes (t : Tree) : List Lexeme :=
  t.leaves.map Token.bare

/-- One side of an assignment: what it is and how it is written. -/
structure Operand where
  kind : Option NodeKind
  lexemes : List Lexeme
deriving DecidableEq, Repr

def Operand.ofTree (t : Tree) : Operand :=
  ⟨t.nodeKind?, t.lexemes⟩

/-- A statement of an accessor, without its tree. -/
inductive StatementView where
  | assignment (left : Operand) (op : TokenKind) (right : Operand)
  | other (lexemes : List Lexeme)
deriving DecidableEq, Repr

def Statement.view : Statement → StatementView
  | .assignment left op right => .assignment (.ofTree left) op (.ofTree right)
  | .other node => .other node.lexemes

def Accessor.view (a : Accessor) : List StatementView :=
  a.statements.map Statement.view

inductive ShapeView where
  | fieldLike (declarators : List Text)
  | accessorLike (add remove : Option (List StatementView))
deriving DecidableEq, Repr

def EventShape.view : EventShape → ShapeView
  | .fieldLike declarators => .fieldLike (declarators.map Tree.text)
  | .accessorLike add remove => .accessorLike (add.map Accessor.view) (remove.map Accessor.view)

/-- An event, without its trees and without the places of its tokens. -/
structure EventView where
  name : Text
  elementType : ElementType
  modifiers : List Lexeme
  shape : ShapeView
deriving DecidableEq, Repr

def Event.view (e : Event) : EventView :=
  ⟨e.name, e.elementType, e.modifiers.map Token.bare, e.shape.view⟩

namespace Grammar

open EventLint.Tree Token

def Assign.view (a : Assign) : StatementView :=
  .assignment
    ⟨some (if a.qualified then .memberAccessExpression else .identifierName), a.left⟩ a.op.kind
    ⟨some .identifierName, [a.value.lexeme]⟩

def Stmt.view : Stmt → StatementView
  | assign a => a.view
  | call name arguments => .other (call name arguments).expression

def Body.view : Body → List StatementView
  | block statements => statements.map Stmt.view
  | arrow a => [a.view]

/-- A type with one argument is named by what stands in front of its first angle bracket. -/
def TypeName.elementType (type : TypeName) : ElementType :=
  match type.argument? with
  | some argument =>
    .generic (print (type.lexemes.takeWhile (·.1 ≠ .lt))) (print argument.lexemes)
  | none => .other (print type.lexemes)

def EventTail.view (name : Ident) : EventTail → ShapeView
  | names more => .fieldLike ((name :: more).map Ident.text)
  | accessors add remove => .accessorLike (some add.view) (some remove.view)

def EventMember.view (e : EventMember) : EventView :=
  ⟨e.name.text, e.type.elementType, e.modifiers.lexemes, e.tail.view e.name⟩

/-! ## 2. Statements -/

theorem ofExpression_assignment {k k' : NodeKind} {cs cs' : List Tree} {o : Token}
    (ho : o.kind.isAssignment = true) :
    Statement.ofExpression (node .assignmentExpression [node k cs, leaf o, node k' cs']) =
      .assignment (node k cs) o.kind (node k' cs') := by
  have hnodes : (node .assignmentExpression [node k cs, leaf o, node k' cs']).childNodes =
      [node k cs, node k' cs'] := rfl
  have htokens : (node .assignmentExpression [node k cs, leaf o, node k' cs']).childTokens = [o] :=
    rfl
  simp [Statement.ofExpression, isOf, nodeKind?, hnodes, htokens, ho]

/-- The left side of an assignment is a name, or a name after `this` and a point. -/
theorem left_cases {a : Assign} {us : List Token} (h : us.map bare = a.left) :
    (a.qualified = false ∧ ∃ x, us = [x] ∧ x.kind = .ident ∧ x.text = a.target.text) ∨
      (a.qualified = true ∧ ∃ t d x, us = [t, d, x] ∧ t.kind = .keyword .thisKw ∧
        d.kind = .dot ∧ x.kind = .ident) := by
  rw [Assign.left] at h
  cases hq : a.qualified with
  | false =>
    rw [hq, if_neg Bool.false_ne_true] at h
    obtain ⟨x, vs, rfl, hx, ht, h⟩ := exists_ident h
    rw [List.map_eq_nil_iff.1 h]
    exact Or.inl ⟨rfl, x, rfl, hx, ht⟩
  | true =>
    rw [hq, if_pos rfl] at h
    obtain ⟨t, vs, rfl, ht, h⟩ := exists_keyword h
    obtain ⟨d, vs, rfl, hd, h⟩ := exists_mark h
    obtain ⟨x, vs, rfl, hx, -, h⟩ := exists_ident h
    rw [List.map_eq_nil_iff.1 h]
    exact Or.inr ⟨rfl, t, d, x, rfl, ht, hd, hx⟩

theorem expression_left {a : Assign} {us : List Token} (h : us.map bare = a.left) :
    expression us =
      [node (if a.qualified then .memberAccessExpression else .identifierName) (us.map leaf)] := by
  rcases left_cases h with ⟨hq, x, rfl, hx, -⟩ | ⟨hq, t, d, x, rfl, ht, hd, hx⟩
  · simp [expression, expressionKind, hq, hx]
  · simp [expression, expressionKind, isMemberTail, hq, ht, hd, hx]

theorem expressionExtent_of_plain {stop : TokenKind → Bool} {t : Token} (ts : List Token)
    (hs : stop t.kind = false) (ho : t.kind.opens = false) (hc : t.kind.closes = false) :
    expressionExtent stop 0 (t :: ts) = expressionExtent stop 0 ts + 1 := by
  rw [expressionExtent, if_neg (by simp [hs, hc]), ho, hc, Nat.add_comm]
  rfl

theorem expressionExtent_of_stop {stop : TokenKind → Bool} {t : Token} (ts : List Token)
    (hs : stop t.kind = true) : expressionExtent stop 0 (t :: ts) = 0 := by
  rw [expressionExtent, if_pos ⟨rfl, Or.inl hs⟩]

theorem expressionExtent_left {a : Assign} {us w : List Token} {o : Token}
    (h : us.map bare = a.left) (ho : o.kind.isAssignment = true) :
    expressionExtent (fun k => decide (k = .semicolon) || k.isAssignment) 0 (us ++ o :: w) =
      us.length := by
  have hstop : expressionExtent (fun k => decide (k = .semicolon) || k.isAssignment) 0 (o :: w) =
      0 :=
    expressionExtent_of_stop w (by rw [ho, Bool.or_true])
  rcases left_cases h with ⟨-, x, rfl, hx, -⟩ | ⟨-, t, d, x, rfl, ht, hd, hx⟩
  · rw [List.singleton_append, expressionExtent_of_plain _ (by rw [hx]; rfl) (by rw [hx]; rfl)
      (by rw [hx]; rfl), hstop]
    rfl
  · rw [List.cons_append, List.cons_append, List.singleton_append,
      expressionExtent_of_plain _ (by rw [ht]; rfl) (by rw [ht]; rfl) (by rw [ht]; rfl),
      expressionExtent_of_plain _ (by rw [hd]; rfl) (by rw [hd]; rfl) (by rw [hd]; rfl),
      expressionExtent_of_plain _ (by rw [hx]; rfl) (by rw [hx]; rfl) (by rw [hx]; rfl), hstop]
    rfl

theorem isOpaqueStatement_left {a : Assign} {us w : List Token} {t o : Token}
    (h : (t :: us).map bare = a.left) (ho : o.kind.isAssignment = true) :
    isOpaqueStatement t (us ++ o :: w) = false := by
  rcases left_cases h with ⟨-, x, hus, hx, hxt⟩ | ⟨-, t', d, x, hus, ht, hd, hx⟩
  · obtain ⟨rfl, rfl⟩ := List.cons.inj hus
    have hword := Ident.isWord_eq_false hxt (by decide : controlWords ⊆ contextualWords)
    simp [isOpaqueStatement, declaresLocal, hx, ho, hword]
  · obtain ⟨rfl, rfl⟩ := List.cons.inj hus
    simp [isOpaqueStatement, declaresLocal, ht, hd, hx, ho, isWord]

/-- An assignment in front of a semicolon. -/
theorem assignment_read (a : Assign) {ts : List Token} (rest : List Token) {c : Token}
    (h : ts.map bare = a.lexemes) (hc : c.kind = .semicolon) :
    ∃ tree, assignment (ts ++ c :: rest) = ([tree], c :: rest) ∧ tree.isNode = true ∧
      (Statement.ofExpression tree).view = a.view := by
  obtain ⟨us, vs, rfl, hu, h⟩ := exists_of_spells_append h
  obtain ⟨o, vs, rfl, ho, h⟩ := exists_mark h
  obtain ⟨v, vs, rfl, hv, hvt, h⟩ := exists_ident h
  rw [List.map_eq_nil_iff.1 h]
  have hop : o.kind.isAssignment = true := by
    rw [ho]
    cases a.op <;> rfl
  -- the right side is one name, since the semicolon ends it
  have hright : expressionExtent (fun k => decide (k = .semicolon)) 0 (v :: c :: rest) = 1 := by
    simp [expressionExtent, hv, hc, TokenKind.closes, TokenKind.opens]
  have hvalue : expression [v] = [node .identifierName [leaf v]] := by
    simp [expression, expressionKind, hv]
  refine ⟨node .assignmentExpression [node (if a.qualified then .memberAccessExpression
    else .identifierName) (us.map leaf), leaf o, node .identifierName [leaf v]], ?_, rfl, ?_⟩
  · have hall : us ++ [o, v] ++ c :: rest = us ++ o :: v :: c :: rest := by
      simp
    rw [hall, assignment]
    dsimp only
    rw [expressionExtent_left hu hop, List.take_left, List.drop_left]
    dsimp only
    rw [if_pos hop, hright, expression_left hu, List.take_succ_cons, List.take_zero, hvalue]
    rfl
  · have hbare : v.bare = a.value.lexeme := Prod.ext hv hvt
    rw [ofExpression_assignment hop, ho, Assign.view]
    simp only [Statement.view, Operand.ofTree, Tree.lexemes, nodeKind?, leaves, leavesAll_map_leaf,
      leavesAll, hu, List.append_nil, List.map_cons, List.map_nil, hbare]

theorem expression_call {name o : Token} {us : List Token} (ho : o.kind = .lparen) :
    expression (name :: o :: us) = [node .expression ((name :: o :: us).map leaf)] := by
  cases us <;> simp [expression, expressionKind, isMemberTail, ho]

/-- A call in front of a semicolon. -/
theorem assignment_call {ts : List Token} (rest : List Token) {name o e c : Token}
    (hn : name.kind = .ident)
    (ho : o.kind = .lparen) (hts : Nested Token.kind ts) (he : e.kind = .rparen)
    (hc : c.kind = .semicolon) :
    assignment (name :: o :: (ts ++ e :: c :: rest)) =
      ([node .expression ((name :: o :: (ts ++ [e])).map leaf)], c :: rest) := by
  -- the name, the group as a whole, and then the semicolon
  have hext : expressionExtent (fun k => decide (k = .semicolon) || k.isAssignment) 0
      (name :: o :: (ts ++ e :: c :: rest)) = (name :: o :: (ts ++ [e])).length := by
    rw [expressionExtent_of_plain _ (by rw [hn]; rfl) (by rw [hn]; rfl) (by rw [hn]; rfl),
      expressionExtent, if_neg (by rw [ho]; decide), if_pos (by rw [ho]; rfl),
      expressionExtent_eq_closing, closingExtent_group hts (by rw [he]; rfl), drop_group,
      expressionExtent_of_stop _ (by rw [hc]; rfl)]
    simp only [List.length_cons, List.length_append, List.length_nil]
    omega
  have hall : name :: o :: (ts ++ e :: c :: rest) = (name :: o :: (ts ++ [e])) ++ c :: rest := by
    simp
  rw [hall] at hext
  rw [hall, assignment]
  dsimp only
  rw [hext, List.take_left, List.drop_left]
  dsimp only
  rw [if_neg (by rw [hc]; decide), expression_call ho]

theorem isOpaqueStatement_call {i : Ident} {name o : Token} {w : List Token}
    (hn : name.kind = .ident) (ht : name.text = i.text) (ho : o.kind = .lparen) :
    isOpaqueStatement name (o :: w) = false := by
  have hword : name.isWord controlWords = false := Ident.isWord_eq_false ht (by decide)
  simp [isOpaqueStatement, declaresLocal, hn, ho, hword]

/-- A statement that is neither kept as it is nor a `return`. -/
theorem simpleStatement_of_expression {t c : Token} {us rest : List Token} {tree : Tree}
    (hr : t.kind ≠ .keyword .returnKw) (ho : isOpaqueStatement t us = false)
    (h : assignment (t :: us) = ([tree], c :: rest)) (hc : c.kind = .semicolon) :
    simpleStatement t us = (node .expressionStatement [tree, leaf c], rest) := by
  rw [simpleStatement, if_neg hr, ho, if_neg Bool.false_ne_true, h]
  dsimp only
  rw [Tree.optional, if_pos hc]
  rfl

theorem ofTree_expressionStatement {tree : Tree} {c : Token} (h : tree.isNode = true) :
    Statement.ofTree (node .expressionStatement [tree, leaf c]) = .ofExpression tree := by
  cases tree with
  | leaf t => cases h
  | node k cs => rfl

/-- A statement is read up to its semicolon, as what it is. -/
theorem simpleStatement_read (s : Stmt) {ts : List Token} (rest : List Token)
    (h : ts.map bare = s.lexemes) :
    ∃ t us tree, ts = t :: us ∧ t.kind ≠ .rbrace ∧ t.kind ≠ .lbrace ∧
      simpleStatement t (us ++ rest) = (tree, rest) ∧ tree.isNode = true ∧
      (Statement.ofTree tree).view = s.view := by
  obtain ⟨us, vs, rfl, hu, h⟩ := exists_of_spells_append h
  obtain ⟨c, vs, rfl, hc, h⟩ := exists_mark h
  rw [List.map_eq_nil_iff.1 h]
  cases s with
  | assign a =>
    obtain ⟨tree, hread, hnode, hview⟩ : ∃ tree,
        assignment (us ++ c :: rest) = ([tree], c :: rest) ∧ tree.isNode = true ∧
          (Statement.ofExpression tree).view = a.view :=
      assignment_read a rest hu hc
    obtain ⟨left, vs, rfl, hl, hv⟩ := exists_of_spells_append hu
    obtain ⟨o, vs, rfl, ho, -⟩ := exists_mark hv
    have hop : o.kind.isAssignment = true := by
      rw [ho]
      cases a.op <;> rfl
    -- neither a name nor `this` opens a block or a statement that is passed over
    obtain ⟨t, left, rfl, ht⟩ : ∃ t left', left = t :: left' ∧
        (t.kind = .ident ∨ t.kind = .keyword .thisKw) := by
      rcases left_cases hl with ⟨-, x, rfl, hx, -⟩ | ⟨-, t, d, x, rfl, ht, -, -⟩
      · exact ⟨x, [], rfl, Or.inl hx⟩
      · exact ⟨t, [d, x], rfl, Or.inr ht⟩
    have hall : (t :: left ++ o :: vs) ++ c :: rest = t :: (left ++ o :: (vs ++ c :: rest)) := by
      simp
    rw [hall] at hread
    refine ⟨t, left ++ o :: vs ++ [c], node .expressionStatement [tree, leaf c], rfl, ?_, ?_, ?_,
      rfl, ?_⟩
    · rcases ht with ht | ht <;> rw [ht] <;> decide
    · rcases ht with ht | ht <;> rw [ht] <;> decide
    · have hstmt := simpleStatement_of_expression (by rcases ht with ht | ht <;> rw [ht] <;> decide)
        (isOpaqueStatement_left hl hop) hread hc
      simpa using hstmt
    · rw [ofTree_expressionStatement hnode, hview, Stmt.view]
  | call i arguments =>
    have hall := hu
    obtain ⟨name, vs, rfl, hn, ht, hu⟩ := exists_ident hu
    obtain ⟨o, vs, rfl, ho, hu⟩ := exists_mark hu
    obtain ⟨ts, vs, rfl, hts, hu⟩ := exists_of_spells_append hu
    obtain ⟨e, vs, rfl, he, hu⟩ := exists_mark hu
    rw [List.map_eq_nil_iff.1 hu] at hall ⊢
    -- the arguments are nested, so the parenthesis that closes them is the last one
    have hcall := assignment_call rest hn ho (arguments.nested.tokens hts) he hc
    have hstmt := simpleStatement_of_expression (by rw [hn]; decide)
      (isOpaqueStatement_call hn ht ho) hcall hc
    refine ⟨name, o :: (ts ++ [e]) ++ [c], _, rfl, by rw [hn]; decide, by rw [hn]; decide,
      by simpa using hstmt, rfl, ?_⟩
    rw [ofTree_expressionStatement rfl, Stmt.view, ← hall]
    simp [Statement.ofExpression, isOf, nodeKind?, Statement.view, Tree.lexemes, leaves,
      leavesAll, leavesAll_append]

/-- The statements of a block, up to its closing brace. -/
theorem statements_read (ss : List Stmt) {ts : List Token} (rest : List Token) {c : Token}
    (h : ts.map bare = ss.flatMap Stmt.lexemes) (hc : c.kind = .rbrace) :
    ∃ trees, statements (ts ++ c :: rest) = (trees, c :: rest) ∧
      (∀ tree ∈ trees, tree.isNode = true) ∧
      trees.map (fun tree => (Statement.ofTree tree).view) = ss.map Stmt.view := by
  induction ss generalizing ts with
  | nil =>
    rw [List.map_eq_nil_iff.1 h]
    exact ⟨[], statements_of_rbrace rest hc, List.forall_mem_nil _, rfl⟩
  | cons s ss ih =>
    obtain ⟨us, vs, rfl, hu, hv⟩ := exists_of_spells_append h
    obtain ⟨t, us, tree, rfl, hr, hl, hread, hnode, hview⟩ :=
      simpleStatement_read s (vs ++ c :: rest) hu
    obtain ⟨trees, hmore, hnodes, hviews⟩ := ih hv
    have hfirst : statement t (us ++ (vs ++ c :: rest)) = (tree, vs ++ c :: rest) := by
      rw [statement, if_neg hl, hread]
    refine ⟨tree :: trees, ?_, ?_, ?_⟩
    · rw [List.append_assoc, List.cons_append, statements_cons _ hr, hfirst]
      dsimp only
      rw [hmore]
    · exact fun n hn => (List.mem_cons.1 hn).elim (fun he => he ▸ hnode) (hnodes n)
    · rw [List.map_cons, List.map_cons, hview, hviews]

/-- A body is read to its end. After its keyword it makes an accessor with its statements. -/
theorem body_read (b : Body) {ts : List Token} (rest : List Token) (h : ts.map bare = b.lexemes) :
    ∃ parts, body (ts ++ rest) = (parts, rest) ∧ ∀ kind keyword,
      (Accessor.mk kind (node .accessorDeclaration (leaf keyword :: parts))).view = b.view := by
  cases b with
  | block ss =>
    obtain ⟨o, us, rfl, ho, h⟩ := exists_mark h
    obtain ⟨us, vs, rfl, hu, h⟩ := exists_of_spells_append h
    obtain ⟨c, vs, rfl, hc, h⟩ := exists_mark h
    rw [List.map_eq_nil_iff.1 h]
    obtain ⟨trees, hread, hnodes, hviews⟩ := statements_read ss rest hu hc
    refine ⟨[node .block (leaf o :: trees ++ [leaf c])], ?_, fun kind keyword => ?_⟩
    · rw [List.cons_append, List.append_assoc, List.singleton_append, body_of_lbrace _ ho, block,
        hread, closeBlock]
      simp [Tree.optional, hc]
    · -- the braces are tokens, so the child nodes of the block are its statements
      have hkeep : (leaf o :: trees ++ [leaf c]).filter isNode = trees := by
        rw [List.cons_append, List.filter_cons_of_neg (by simp [isNode]), List.filter_append,
          List.filter_eq_self.2 hnodes]
        simp [isNode]
      have hblock : (node .accessorDeclaration
          [leaf keyword, node .block (leaf o :: trees ++ [leaf c])]).childNode? .block =
            some (node .block (leaf o :: trees ++ [leaf c])) := rfl
      rw [Accessor.view, Accessor.statements, hblock]
      dsimp only
      rw [childNodes, children, hkeep, List.map_map]
      exact hviews
  | arrow a =>
    obtain ⟨o, us, rfl, ho, h⟩ := exists_mark h
    obtain ⟨us, vs, rfl, hu, h⟩ := exists_of_spells_append h
    obtain ⟨c, vs, rfl, hc, h⟩ := exists_mark h
    rw [List.map_eq_nil_iff.1 h]
    obtain ⟨tree, hread, hnode, hview⟩ := assignment_read a rest hu hc
    refine ⟨[node .arrowExpressionClause [leaf o, tree], leaf c], ?_, fun kind keyword => ?_⟩
    · rw [List.cons_append, List.append_assoc, List.singleton_append, body]
      simp [ho, arrowClause, hread, Tree.optional, hc]
    · have hkeep : [leaf o, tree].filter isNode = [tree] := by
        rw [List.filter_cons_of_neg (by simp [isNode]), List.filter_cons_of_pos hnode]
        rfl
      have hblock : (node .accessorDeclaration [leaf keyword,
          node .arrowExpressionClause [leaf o, tree], leaf c]).childNode? .block = none := rfl
      have hclause : (node .accessorDeclaration [leaf keyword,
          node .arrowExpressionClause [leaf o, tree], leaf c]).childNode? .arrowExpressionClause =
            some (node .arrowExpressionClause [leaf o, tree]) := rfl
      rw [Accessor.view, Accessor.statements, hblock]
      dsimp only
      rw [hclause]
      dsimp only
      rw [childNodes, children, hkeep]
      exact congrArg (fun s => [s]) hview

/-! ## 3. Accessors and names -/

theorem accessor_read (kind : AccessorKind) (b : Body) {t : Token} {ts : List Token}
    (rest : List Token)
    (ht : t.bare = word kind.keyword) (h : ts.map bare = b.lexemes) :
    ∃ parts, accessor t (ts ++ rest) = (node .accessorDeclaration (leaf t :: parts), rest) ∧
      (Accessor.mk kind (node .accessorDeclaration (leaf t :: parts))).view = b.view := by
  have hk : t.kind = .ident := congrArg Prod.fst ht
  have htext : t.text = kind.keyword.toList := congrArg Prod.snd ht
  -- an accessor may have modifiers, and its keyword is none of them
  have hmod : isModifierToken t = false := by
    rw [isModifierToken, Token.isWord, hk, htext]
    cases kind <;> decide
  have hlead : Tree.leading (t :: (ts ++ rest)) = ([], t :: (ts ++ rest)) :=
    leading_read (show ([] : List Token).map bare = Modifiers.lexemes ⟨[], rfl, List.nodup_nil⟩
      from rfl) hmod (by rw [hk]; decide)
  obtain ⟨parts, hbody, hview⟩ := body_read b rest h
  refine ⟨parts, ?_, hview kind t⟩
  rw [accessor, hlead]
  simp [Tree.optional, hk, hbody]

theorem childToken?_cons {k : NodeKind} {t : Token} {cs : List Tree} (ht : t.kind = .ident) :
    (node k (leaf t :: cs)).childToken? .ident = some t := by
  simp [childToken?, childTokens, children, token?, ht]

/-- Both accessors are found under their keywords. -/
theorem accessorList_read (add remove : Body) (o : Token) {ts : List Token} (rest : List Token)
    (h : ts.map bare = word "add" :: (add.lexemes ++ word "remove" :: (remove.lexemes ++
      [mark .rbrace]))) :
    ∃ list a r, accessorList o (ts ++ rest) = (list, rest) ∧ list.isOf .accessorList = true ∧
      Event.accessorOf? list .add = some a ∧ Event.accessorOf? list .remove = some r ∧
      a.view = add.view ∧ r.view = remove.view := by
  obtain ⟨t, us, rfl, hk, ht, h⟩ := exists_of_spells_cons h
  obtain ⟨us, vs, rfl, hadd, h⟩ := exists_of_spells_append h
  obtain ⟨t', vs, rfl, hk', ht', h⟩ := exists_of_spells_cons h
  obtain ⟨vs, ws, rfl, hremove, h⟩ := exists_of_spells_append h
  obtain ⟨c, ws, rfl, hc, h⟩ := exists_mark h
  rw [List.map_eq_nil_iff.1 h]
  obtain ⟨parts, hread, hview⟩ := accessor_read .add add
    (t' :: (vs ++ c :: rest)) (Prod.ext hk ht) hadd
  obtain ⟨parts', hread', hview'⟩ := accessor_read .remove remove
    (c :: rest) (Prod.ext hk' ht') hremove
  let a := node .accessorDeclaration (leaf t :: parts)
  let r := node .accessorDeclaration (leaf t' :: parts')
  have hall : accessors (t :: (us ++ t' :: (vs ++ c :: rest))) = ([a, r], c :: rest) := by
    rw [accessors_cons _ (by rw [hk]; decide), hread]
    dsimp only
    rw [accessors_cons _ (by rw [hk']; decide), hread']
    dsimp only
    rw [accessors_of_rbrace _ hc]
  refine ⟨node .accessorList [leaf o, a, r, leaf c], ⟨.add, a⟩, ⟨.remove, r⟩, ?_, rfl, ?_, ?_,
    hview, hview'⟩
  · have hsplit : t :: (us ++ t' :: (vs ++ [c])) ++ rest =
        t :: (us ++ t' :: (vs ++ c :: rest)) := by
      simp
    rw [hsplit, accessorList, hall]
    simp [Tree.optional, hc]
  · have hnodes : (node .accessorList [leaf o, a, r, leaf c]).childNodes = [a, r] := rfl
    have hword : t.text = AccessorKind.add.keyword.toList := ht
    simp [Event.accessorOf?, hnodes, a, isOf, nodeKind?, childToken?_cons hk, hword]
  · have hnodes : (node .accessorList [leaf o, a, r, leaf c]).childNodes = [a, r] := rfl
    -- the search for `remove` goes past the first accessor
    have hword : t.text ≠ AccessorKind.remove.keyword.toList := by
      rw [show t.text = "add".toList from ht]
      decide
    have hword' : t'.text = AccessorKind.remove.keyword.toList := ht'
    simp [Event.accessorOf?, hnodes, a, r, isOf, nodeKind?, childToken?_cons hk,
      childToken?_cons hk', hword, hword']

/-- Names with commas between them, up to a semicolon. -/
theorem declarators_read (more : List Ident) {t c : Token} {us : List Token} (rest : List Token)
    (ht : t.kind = .ident) (h : us.map bare = more.flatMap fun i => [mark .comma, i.lexeme])
    (hc : c.kind = .semicolon) :
    ∃ trees, declarators (t :: (us ++ c :: rest)) = (trees, c :: rest) ∧
      ∃ names, trees.filter isNode = (t :: names).map (fun u => node .variableDeclarator [leaf u]) ∧
        names.map Token.text = more.map Ident.text := by
  -- no name here has a value
  have hone : ∀ {u : Token} {vs : List Token}, u.kind ≠ .eq →
      declarator t (u :: vs) = (node .variableDeclarator [leaf t], u :: vs) := by
    intro u vs hu
    rw [declarator, if_neg hu]
  induction more generalizing t us with
  | nil =>
    rw [List.map_eq_nil_iff.1 h, List.nil_append]
    refine ⟨[node .variableDeclarator [leaf t]], ?_, [], rfl, rfl⟩
    rw [declarators_of_ident _ ht, hone (by rw [hc]; decide)]
    dsimp only
    rw [if_neg (by rw [hc]; decide)]
  | cons i more ih =>
    rw [List.flatMap_cons] at h
    obtain ⟨comma, us, rfl, hcomma, h⟩ := exists_mark h
    obtain ⟨u, us, rfl, hu, hut, h⟩ := exists_ident h
    obtain ⟨trees, hread, names, hfilter, hnames⟩ := ih hu h fun hv => by
      rw [declarator, if_neg hv]
    refine ⟨node .variableDeclarator [leaf t] :: leaf comma :: trees, ?_, u :: names, ?_, ?_⟩
    · rw [declarators_of_ident _ ht, List.cons_append, List.cons_append,
        hone (by rw [hcomma]; decide)]
      dsimp only
      rw [if_pos hcomma, hread]
    · rw [List.filter_cons_of_pos rfl, List.filter_cons_of_neg (by simp [isNode]), hfilter]
      rfl
    · rw [List.map_cons, List.map_cons, hnames, hut]

/-! ## 4. Events -/

/-- The modifiers in front of an event say nothing else of it. -/
theorem ofTree?_modifierList {kind : NodeKind} {k : Token} {cs : List Tree} (m : List Token)
    (hcs : ∀ c ∈ cs, c.isOf .modifierList = false) :
    Event.ofTree? (node kind (modifierList m ++ leaf k :: cs)) =
      (Event.ofTree? (node kind (leaf k :: cs))).map fun e =>
        { e with node := node kind (modifierList m ++ leaf k :: cs), modifiers := m } :=
  ofTree?_front m (List.forall_mem_nil _) hcs

/-- The member `n` says what was written of the event `e`. -/
structure EventMember.Recovered (e : EventMember) (n : Tree) (event : Event) : Prop where
  ofTree : Event.ofTree? n = some event
  leaves : n.leaves.map bare = e.lexemes
  /-- The name stands right after the type. -/
  name : ∃ front back, n.leaves = front ++ event.nameToken :: back ∧
    front.map bare = e.modifiers.lexemes ++ keyword .eventKw :: e.type.lexemes
  text : event.name = e.name.text
  modifiers : event.modifiers.map bare = e.modifiers.lexemes
  /-- The modifiers stand in front of everything else. -/
  first : event.modifiers <+: n.leaves
  shape : event.shape.view = e.tail.view e.name
  /-- The type stands behind the keyword, and its only argument is that of the tree. -/
  type : ∃ tree front back, event.elementType = .ofTree tree ∧
    n.leaves = front ++ tree.leaves ++ back ∧ front ≠ [] ∧ tree.leaves.map bare = e.type.lexemes ∧
    Option.Rel SpellsArgument (ElementType.singleArgument? tree) e.type.argument?

theorem accessorHead?_eq_none {name next : Token} {w : List Token}
    (hk : next.kind = .comma ∨ next.kind = .semicolon) :
    accessorHead? (name :: next :: w) = none := by
  have hdot : next.kind ≠ .dot := by
    rcases hk with hk | hk <;> rw [hk] <;> decide
  rw [accessorHead?, qualifierExtent_name hdot, List.drop_zero]
  dsimp only
  rw [if_neg]
  rcases hk with hk | hk <;> simp [hk]

theorem accessorHead?_eq_some {name next : Token} {w : List Token} (hn : name.kind = .ident)
    (hk : next.kind = .lbrace) :
    accessorHead? (name :: next :: w) = some (name, next, w) := by
  rw [accessorHead?, qualifierExtent_name (by rw [hk]; decide), List.drop_zero]
  simp [hn, hk]

/-- What an event says of its type, its name and its modifiers, read off its parts. -/
theorem recovered_of_parts {e : EventMember} {n : Tree} {event : Event} {m ty tail : List Token}
    {k name : Token} {tree : Tree} (hof : Event.ofTree? n = some event)
    (hleaves : n.leaves = m ++ k :: (ty ++ name :: tail)) (hm : m.map bare = e.modifiers.lexemes)
    (hk : k.bare = keyword .eventKw) (hty : ty.map bare = e.type.lexemes)
    (hname : name.bare = e.name.lexeme) (htail : tail.map bare = e.tail.lexemes)
    (htree : tree.leaves = ty)
    (harg : Option.Rel SpellsArgument (ElementType.singleArgument? tree) e.type.argument?)
    (hn : event.nameToken = name) (htype : event.elementType = .ofTree tree)
    (hmods : event.modifiers = m) (hshape : event.shape.view = e.tail.view e.name) :
    e.Recovered n event where
  ofTree := hof
  leaves := by
    rw [hleaves, EventMember.lexemes, ← hm, ← hk, ← hty, ← hname, ← htail]
    simp
  name := by
    refine ⟨m ++ k :: ty, tail, ?_, ?_⟩
    · rw [hleaves, hn]
      simp
    · rw [← hm, ← hk, ← hty]
      simp
  text := by
    rw [Event.name, hn]
    exact congrArg Prod.snd hname
  modifiers := by rw [hmods, hm]
  first := by
    rw [hmods, hleaves]
    exact List.prefix_append m _
  shape := hshape
  type := by
    refine ⟨tree, m ++ [k], name :: tail, htype, ?_, by simp, by rw [htree, hty], harg⟩
    rw [hleaves, htree]
    simp

/-- An event declared like a field. -/
theorem event_names (more : List Ident) {type : TypeName} {i : Ident} {m ty us rest : List Token}
    {k name : Token} (hty : ty.map bare = type.lexemes) (hn : name.bare = i.lexeme)
    (hu : us.map bare = (EventTail.names more).lexemes) :
    ∃ n event tree, Tree.event (modifierList m) k (ty ++ name :: (us ++ rest)) = (n, rest) ∧
      tree.leaves = ty ∧
      Option.Rel SpellsArgument (ElementType.singleArgument? tree) type.argument? ∧
      Event.ofTree? n = some event ∧ event.nameToken = name ∧ event.elementType = .ofTree tree ∧
      event.modifiers = m ∧ event.shape.view = (EventTail.names more).view i := by
  have hk : name.kind = .ident := congrArg Prod.fst hn
  obtain ⟨us, vs, rfl, hus, hvs⟩ := exists_of_spells_append hu
  obtain ⟨c, vs, rfl, hc, hvs⟩ := exists_mark hvs
  rw [List.map_eq_nil_iff.1 hvs, List.append_assoc, List.singleton_append]
  obtain ⟨tree, htree, harg⟩ := typeName?_head (w := us ++ c :: rest) hty hk
  obtain ⟨trees, hread, names, hfilter, hnames⟩ := declarators_read more rest hk hus hc
  -- a comma or a semicolon follows the name, so no accessors are looked for
  have hhead : accessorHead? (name :: (us ++ c :: rest)) = none := by
    cases more with
    | nil =>
      rw [List.map_eq_nil_iff.1 hus]
      exact accessorHead?_eq_none (Or.inr hc)
    | cons j more =>
      obtain ⟨comma, us, rfl, hcomma, -⟩ := exists_mark hus
      exact accessorHead?_eq_none (Or.inl hcomma)
  have htypenode := isTypeNode_typeName? htree
  have hnode : tree.isNode = true := isNode_of_typeName? htree
  let declaration := node .variableDeclaration (tree :: trees)
  let n := node .eventFieldDeclaration (modifierList m ++ leaf k :: [declaration, leaf c])
  have hnodes : declaration.childNodes =
      tree :: (name :: names).map fun u => node .variableDeclarator [leaf u] := by
    rw [childNodes, children, List.filter_cons_of_pos hnode, hfilter]
  -- the type is no declarator, so the first declarator has the name of the event
  have hdeclarators : declaration.childNodes.filter (isOf .variableDeclarator) =
      (name :: names).map fun u => node .variableDeclarator [leaf u] := by
    rw [hnodes, List.filter_cons_of_neg (by rw [isOf_of_isTypeNode htypenode rfl]; decide)]
    refine List.filter_eq_self.2 fun c hc => ?_
    obtain ⟨u, -, rfl⟩ := List.mem_map.1 hc
    rfl
  have htype : Event.typeOf? declaration = some tree := by
    rw [Event.typeOf?, hnodes]
    exact List.find?_cons_of_pos htypenode
  refine ⟨n, ⟨n, name, .ofTree tree, m, .fieldLike ((name :: names).map fun u =>
    node .variableDeclarator [leaf u])⟩, tree, ?_, leaves_of_typeName? htree, harg, ?_, rfl, rfl,
    rfl, ?_⟩
  · rw [event_eq, htree]
    dsimp only
    rw [hhead]
    dsimp only
    rw [fieldEvent, hread]
    dsimp only
    rw [if_pos (show nextIs .semicolon (c :: rest) = true from decide_eq_true hc), Tree.optional,
      if_pos hc]
    rfl
  · have hfirst : (node .variableDeclarator [leaf name]).childToken? .ident = some name :=
      childToken?_cons hk
    have hdeclaration : (node .eventFieldDeclaration [leaf k, declaration, leaf c]).childNode?
        .variableDeclaration = some declaration := rfl
    rw [ofTree?_modifierList m (by simp [declaration, isOf, nodeKind?])]
    show (Event.ofField? (node .eventFieldDeclaration [leaf k, declaration, leaf c])).map _ = _
    simp only [Event.ofField?, Option.bind_eq_bind, hdeclaration, Option.bind_some, htype,
      hdeclarators, List.map_cons, List.head?_cons, hfirst, Option.pure_def, Option.map_some]
    rfl
  · have htext : ∀ u : Token, (node .variableDeclarator [leaf u]).text = u.text := fun u => by
      simp [Tree.text, leaves, leavesAll, joined]
    simp only [EventShape.view, EventTail.view, List.map_cons, List.map_map, htext, ← hnames,
      Function.comp_def, show name.text = i.text from congrArg Prod.snd hn]

/-- An event with accessors. -/
theorem event_accessors (add remove : Body) {type : TypeName} {i : Ident}
    {m ty us rest : List Token} {k name : Token} (hkey : k.kind = .keyword .eventKw)
    (hty : ty.map bare = type.lexemes) (hn : name.bare = i.lexeme)
    (hu : us.map bare = (EventTail.accessors add remove).lexemes) :
    ∃ n event tree, Tree.event (modifierList m) k (ty ++ name :: (us ++ rest)) = (n, rest) ∧
      tree.leaves = ty ∧
      Option.Rel SpellsArgument (ElementType.singleArgument? tree) type.argument? ∧
      Event.ofTree? n = some event ∧ event.nameToken = name ∧ event.elementType = .ofTree tree ∧
      event.modifiers = m ∧ event.shape.view = (EventTail.accessors add remove).view i := by
  have hk : name.kind = .ident := congrArg Prod.fst hn
  obtain ⟨o, us, rfl, ho, hus⟩ := exists_mark hu
  obtain ⟨list, a, r, hlist, hkind, ha, hr, hviewa, hviewr⟩ :=
    accessorList_read add remove o rest hus
  obtain ⟨tree, htree, harg⟩ := typeName?_head (w := o :: (us ++ rest)) hty hk
  have htypenode := isTypeNode_typeName? htree
  obtain ⟨kind, cs, rfl⟩ : ∃ kind cs, tree = node kind cs := by
    cases tree with
    | leaf t => cases htypenode
    | node kind cs => exact ⟨kind, cs, rfl⟩
  obtain ⟨inner, rfl⟩ : ∃ inner, list = node .accessorList inner := by
    cases list with
    | leaf t => cases hkind
    | node kind inner =>
      obtain rfl : kind = .accessorList := Option.some.inj (of_decide_eq_true hkind)
      exact ⟨inner, rfl⟩
  let n := node .eventDeclaration
    (modifierList m ++ leaf k :: [node kind cs, leaf name, node .accessorList inner])
  -- no part behind the keyword is a list of modifiers
  have hmods : Event.modifiersOf n = m := by
    refine modifiersOf_eq .eventDeclaration m k (List.forall_mem_nil _) fun c hc => ?_
    simp only [List.mem_cons, List.not_mem_nil, or_false] at hc
    rcases hc with rfl | rfl | rfl
    · exact isOf_of_isTypeNode htypenode rfl
    · rfl
    · rfl
  have hof := @ofTree?_accessors (modifierList m) [] cs inner k name kind
    (isLead_of_attributes m (List.forall_mem_nil _)) hkey htypenode (Or.inl rfl) hk
  dsimp only at hof
  rw [ha, hr] at hof
  refine ⟨n, _, node kind cs, ?_, leaves_of_typeName? htree, harg, hof, rfl, rfl, hmods, ?_⟩
  · rw [List.cons_append, event_eq, htree]
    dsimp only
    rw [accessorHead?_eq_some hk ho]
    dsimp only
    rw [hlist, qualifierExtent_name (by rw [ho]; decide)]
    simp [n, qualifier]
  · simp only [EventShape.view, EventTail.view, Option.map_some, hviewa, hviewr]

/-- The tokens of an event are read as one member, which says what was written. -/
theorem event_read (e : EventMember) (s : Scope) {ts : List Token} (rest : List Token)
    (h : ts.map bare = e.lexemes) :
    ∃ n event, opening? s (ts ++ rest) = some (.whole n rest) ∧ n.leaves = ts ∧
      e.Recovered n event := by
  obtain ⟨m, vs, rfl, hm, h⟩ := exists_of_spells_append h
  obtain ⟨k, vs, rfl, hk, hkt, h⟩ := exists_of_spells_cons h
  obtain ⟨ty, vs, rfl, hty, h⟩ := exists_of_spells_append h
  obtain ⟨name, us, rfl, hn, hnt, hu⟩ := exists_ident h
  have hk : k.kind = .keyword .eventKw := hk
  have hname : name.bare = e.name.lexeme := Prod.ext hn hnt
  obtain ⟨n, event, tree, hread, htree, harg, hof, hfields⟩ : ∃ n event tree,
      Tree.event (modifierList m) k (ty ++ name :: (us ++ rest)) = (n, rest) ∧ tree.leaves = ty ∧
      Option.Rel SpellsArgument (ElementType.singleArgument? tree) e.type.argument? ∧
      Event.ofTree? n = some event ∧ event.nameToken = name ∧ event.elementType = .ofTree tree ∧
      event.modifiers = m ∧ event.shape.view = e.tail.view e.name := by
    cases htail : e.tail with
    | names more => exact event_names more hty hname (by rw [hu, htail])
    | accessors add remove => exact event_accessors add remove hk hty hname (by rw [hu, htail])
  have hmod : isModifierToken k = false := by
    rw [isModifierToken, Token.isWord, hk]
    rfl
  have hall : m ++ k :: (ty ++ name :: us) ++ rest = m ++ k :: (ty ++ name :: (us ++ rest)) := by
    simp
  have hopen : opening? s (m ++ k :: (ty ++ name :: us) ++ rest) = some (.whole n rest) := by
    rw [hall, opening?_of_member (opensMember_read s hm (by rw [hk]; decide) (by rw [hk]; decide)
      (by rw [hk]; decide)), leading_read hm hmod (by rw [hk]; decide), member, if_pos hk, hread]
  -- a member that is read whole has just the tokens in front of the rest
  have hleaves : n.leaves = m ++ k :: (ty ++ name :: us) := by
    have hwhole := (opening?_whole hopen).declares.leaves
    rw [leavesAll, leavesAll, List.append_nil] at hwhole
    exact List.append_cancel_right hwhole
  exact ⟨n, event, hopen, hleaves, recovered_of_parts hof hleaves hm (Prod.ext hk hkt) hty hname hu
    htree harg hfields.1 hfields.2.1 hfields.2.2.1 hfields.2.2.2⟩

end Grammar

end EventLint
