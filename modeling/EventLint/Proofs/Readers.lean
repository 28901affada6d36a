import EventLint.Proofs.Addition
import EventLint.Proofs.MethodNodes

/-!
# Which reader made a node

Assignments, expression statements and arrows with their expression are made in one place of the
reader each. Main statement: such a node of a tree, however deep, was made there from tokens that
reach to the end of the text.
-/

namespace EventLint

/-- The node is an assignment, or it surrounds an expression that stands by itself. -/
def NodeKind.bearsValue : NodeKind → Bool
  | assignmentExpression | expressionStatement | arrowExpressionClause => true
  | _ => false

namespace Tree

/-! ## 1. Nodes and their readers -/

/-- The node was read from the front of the tokens: as an expression up to a semicolon, as a
statement, or as an arrow with the expression behind it. -/
inductive Made : List Token → Tree → Prop where
  | value {ts : List Token} {e : Tree} (h : e ∈ (assignment ts).1) : Made ts e
  | statement (t : Token) (rest : List Token) : Made (t :: rest) (statement t rest).1
  | arrow (t : Token) (rest : List Token) : Made (t :: rest) (arrowClause t rest).1

/-- Every node in the trees that bears a value was made from the last tokens of `ts`. -/
def Traced (ts : List Token) (trees : List Tree) : Prop :=
  ∀ n ∈ preorderAll trees, n.nodeKind?.any NodeKind.bearsValue = true →
    ∃ us, us <:+ ts ∧ Made us n

namespace Traced

variable {ts us : List Token} {a b cs : List Tree} {c : Tree} {k : NodeKind}

theorem nil : Traced ts [] :=
  fun _ hn => absurd hn List.not_mem_nil

theorem mono (h : Traced us a) (hs : us <:+ ts) : Traced ts a := by
  intro n hn hk
  obtain ⟨vs, hvs, hmade⟩ := h n hn hk
  exact ⟨vs, hvs.trans hs, hmade⟩

theorem append (ha : Traced ts a) (hb : Traced ts b) : Traced ts (a ++ b) := by
  intro n hn
  rw [preorderAll_append] at hn
  exact (List.mem_append.1 hn).elim (ha n) (hb n)

theorem cons (hc : Traced ts [c]) (hcs : Traced ts cs) : Traced ts (c :: cs) :=
  append hc hcs

theorem leaf (t : Token) : Traced ts [leaf t] :=
  fun _ hn => absurd hn List.not_mem_nil

theorem leaves (us : List Token) : Traced ts (us.map Tree.leaf) := by
  induction us with
  | nil => exact nil
  | cons u us ih => exact cons (leaf u) ih

/-- A node is traced with its children if it bears no value itself. -/
theorem node (hk : k.bearsValue = false) (h : Traced ts cs) : Traced ts [node k cs] := by
  intro n hn hkind
  rcases List.mem_cons.1 hn with rfl | hn
  · rw [nodeKind?, Option.any_some, hk] at hkind
    cases hkind
  · exact h n (by simpa [preorderAll] using hn) hkind

/-- A node that bears a value has to be made from all of the tokens. -/
theorem made (hm : Made ts (Tree.node k cs)) (h : Traced ts cs) : Traced ts [Tree.node k cs] := by
  intro n hn hkind
  rcases List.mem_cons.1 hn with rfl | hn
  · exact ⟨ts, List.suffix_rfl, hm⟩
  · exact h n (by simpa [preorderAll] using hn) hkind

end Traced

/-! ## 2. Parts that bear no value -/

section

variable {ts : List Token}

theorem traced_optional (k : TokenKind) (us : List Token) : Traced ts (optional k us).1 := by
  rcases optional_cases k us with h | ⟨c, h, -⟩ <;> rw [h]
  · exact .nil
  · exact .leaf c

theorem traced_attributes (us : List Token) : Traced ts (attributes us).1 := by
  fun_induction attributes us with
  | case1 => exact .nil
  | case2 t rest _ n more after he ih =>
    rw [he] at ih
    exact .cons (.node rfl (.leaves _)) ih
  | case3 => exact .nil

theorem traced_leading (us : List Token) : Traced ts (leading us).1 := by
  have hmodifiers : Traced ts (modifiers (attributes us).2).1 := by
    unfold modifiers
    split
    · exact .nil
    · exact .node rfl (.leaves _)
  exact .append (traced_attributes us) hmodifiers

theorem traced_qualifier (n : Nat) (us : List Token) : Traced ts (qualifier n us) := by
  unfold qualifier
  split
  · exact .nil
  · exact .node rfl (.leaves _)

theorem traced_typeMarks {type : Tree} (us : List Token) (h : Traced ts [type]) :
    Traced ts [(typeMarks type us).1] := by
  fun_induction typeMarks type us with
  | case1 => exact h
  | case2 type t rest _ ih => exact ih (.node rfl (.cons h (.leaf t)))
  | case3 type t rest _ _ n ih => exact ih (.node rfl (.cons h (.leaves _)))
  | case4 => exact h

/-- Types bear no value, along the calls of the four functions that read them. -/
theorem typeSteps_traced : TypeSteps (fun _ type _ => Traced ts [type])
    (fun owner _ name _ => Traced ts [owner] → Traced ts [name])
    (fun _ _ name _ => Traced ts [name]) (fun _ args _ => Traced ts args) where
  named _ hfirst hname := traced_typeMarks _ (hname hfirst)
  tuple _ hname := traced_typeMarks _ (hname (.node rfl (.leaves _)))
  stop _ _ h := h
  join _ _ hnext hname h := hname (.node rfl (.cons h (.cons (.leaf _) hnext)))
  plain name _ := .node rfl (.leaf name)
  generic _ hargs := .node rfl (.cons (.leaf _) (.node rfl (.cons (.leaf _) hargs)))
  last _ htype := .cons htype (.leaf _)
  more _ htype hargs := .cons htype (.cons (.leaf _) hargs)

theorem traced_typeName? {us rest : List Token} {type : Tree}
    (h : typeName? us = some (type, rest)) : Traced ts [type] :=
  typeSteps_traced.typeName? h

theorem traced_expression (us : List Token) : Traced ts (expression us) := by
  cases us with
  | nil => exact .nil
  | cons u us =>
    have hk : (expressionKind (u :: us)).bearsValue = false := by
      fun_cases expressionKind (u :: us) <;> rfl
    exact .node hk (.leaves _)

theorem traced_declarators (us : List Token) : Traced ts (declarators us).1 := by
  have hname : ∀ name us, Traced ts [(declarator name us).1] := by
    intro name us
    unfold declarator
    split
    · exact .node rfl (.leaf name)
    · rename_i u rest
      split
      · exact .node rfl (.cons (.leaf name) (.cons (.leaf u) (traced_expression _)))
      · exact .node rfl (.leaf name)
  fun_induction declarators us with
  | case1 => exact .nil
  | case2 t rest ht _ hd => exact hname t rest
  | case3 t rest ht _ comma after hd hc more after' hm ih =>
    rw [hm] at ih
    exact .cons (hname t rest) (.cons (.leaf comma) ih)
  | case4 t rest ht _ comma after hd hc => exact hname t rest
  | case5 => exact .nil

theorem traced_parameter (us : List Token) : Traced ts (parameter us).1 := by
  have htyped : ∀ us, Traced ts (typedName us).1 := by
    intro us
    unfold typedName
    split
    · rename_i type name rest h
      split
      · exact .cons (traced_typeName? h) (.leaf name)
      · exact .nil
    · exact .nil
  unfold parameter
  dsimp only
  split
  · exact .nil
  · exact .node rfl (.append (.append (.append (traced_attributes us) (.leaves _)) (htyped _))
      (traced_expression _))

theorem traced_parameters (us : List Token) : Traced ts (parameters us).1 := by
  fun_induction parameters us with
  | case1 => exact .nil
  | case2 us _ first hf =>
    have h : Traced ts (parameter us).1 := traced_parameter us
    rwa [hf] at h
  | case3 us _ first comma after hc more after' hm hf ih =>
    have h : Traced ts (parameter us).1 := traced_parameter us
    rw [hf] at h
    rw [hm] at ih
    exact .append h (.cons (.leaf comma) ih)
  | case4 us _ first comma after hc hf =>
    have h : Traced ts (parameter us).1 := traced_parameter us
    rwa [hf] at h

theorem traced_parameterList (t : Token) (us : List Token) :
    Traced ts [(parameterList t us).1] :=
  .node rfl (.append (.cons (.leaf t) (traced_parameters us)) (traced_optional _ _))

theorem traced_typeParameters (us : List Token) : Traced ts (typeParameters us).1 := by
  unfold typeParameters
  split
  · exact .node rfl (.leaves _)
  · exact .nil

end

/-! ## 3. Bodies -/

theorem traced_assignment (ts : List Token) : Traced ts (assignment ts).1 := by
  rcases assignment_cases ts with ⟨us, h, -⟩ | ⟨left, op, right, h, -⟩
  · rw [h]
    exact traced_expression us
  · have hmade : Made ts (node .assignmentExpression
        (expression left ++ leaf op :: expression right)) :=
      .value (by rw [h]; exact List.mem_singleton_self _)
    rw [h]
    exact .made hmade
      (.append (traced_expression left) (.cons (.leaf op) (traced_expression right)))

theorem simpleStatement_children (t : Token) (rest : List Token) :
    ∃ k cs, (simpleStatement t rest).1 = node k cs ∧ Traced (t :: rest) cs := by
  unfold simpleStatement
  dsimp only
  split
  · exact ⟨_, _, rfl, .append (.cons (.leaf t) (traced_expression _)) (traced_optional _ _)⟩
  · split
    · exact ⟨_, _, rfl, .leaves _⟩
    · split
      · exact ⟨_, _, rfl, .leaf t⟩
      · exact ⟨_, _, rfl, .append (traced_assignment (t :: rest)) (traced_optional _ _)⟩

theorem traced_block_of {t : Token} {rest : List Token} (h : Traced rest (statements rest).1) :
    Traced (t :: rest) [(block t rest).1] :=
  .node rfl (.append (.cons (.leaf t) (h.mono (List.suffix_cons t rest))) (traced_optional _ _))

theorem traced_statement_of {t : Token} {rest : List Token}
    (h : Traced rest (statements rest).1) : Traced (t :: rest) [(statement t rest).1] := by
  -- a block only surrounds statements; any other statement may be one that bears a value
  by_cases ht : t.kind = .lbrace
  · rw [statement, if_pos ht]
    exact traced_block_of h
  · obtain ⟨k, cs, hnode, hcs⟩ := simpleStatement_children t rest
    have hmade := Made.statement t rest
    rw [statement, if_neg ht, hnode] at hmade
    rw [statement, if_neg ht, hnode]
    exact .made hmade hcs

theorem traced_statements (ts : List Token) : Traced ts (statements ts).1 := by
  induction ts using shorter_induction with
  | step ts ih =>
    cases ts with
    | nil =>
      rw [statements_nil]
      exact .nil
    | cons t rest =>
      by_cases ht : t.kind = .rbrace
      · rw [statements_of_rbrace rest ht]
        exact .nil
      · have hread := reads_statement t rest
        rw [statements_cons rest ht]
        exact .cons (traced_statement_of (ih rest (Nat.lt_succ_self _)))
          ((ih _ hread.rest_lt).mono ⟨_, hread.leaves⟩)

theorem traced_body (ts : List Token) : Traced ts (body ts).1 := by
  unfold body
  split
  · exact .nil
  · rename_i t rest
    split
    · exact traced_block_of (traced_statements rest)
    · have hclause : Traced (t :: rest) [(arrowClause t rest).1] :=
        .made (.arrow t rest)
          (.cons (.leaf t) ((traced_assignment rest).mono (List.suffix_cons t rest)))
      exact .cons hclause (traced_optional _ _)
    · exact .leaf t
    · exact .nil

/-! ## 4. Members -/

theorem traced_accessor (t : Token) (rest : List Token) :
    Traced (t :: rest) [(accessor t rest).1] := by
  have hread := (reads_leading (t :: rest)).trans (reads_optional .ident _)
  unfold accessor
  dsimp only
  split
  · exact .node rfl (.leaf t)
  · exact .node rfl (.append (.append (traced_leading _) (traced_optional _ _))
      ((traced_body _).mono ⟨_, hread.leaves⟩))

theorem traced_accessors (ts : List Token) : Traced ts (accessors ts).1 := by
  induction ts using shorter_induction with
  | step ts ih =>
    cases ts with
    | nil =>
      rw [accessors]
      exact .nil
    | cons t rest =>
      by_cases ht : t.kind = .rbrace
      · rw [accessors_of_rbrace rest ht]
        exact .nil
      · have hread := reads_accessor t rest
        rw [accessors_cons rest ht]
        exact .cons (traced_accessor t rest) ((ih _ hread.rest_lt).mono ⟨_, hread.leaves⟩)

theorem traced_accessorList (t : Token) (rest : List Token) :
    Traced rest [(accessorList t rest).1] :=
  .node rfl (.append (.cons (.leaf t) (traced_accessors rest)) (traced_optional _ _))

theorem traced_event {lead : List Tree} (keyword : Token) (ts : List Token)
    (hlead : Traced ts lead) : Traced ts [(event lead keyword ts).1] := by
  rw [event_eq]
  split
  · exact .node rfl (.append hlead (.cons (.leaf keyword) (.leaves _)))
  · rename_i type rest ht
    have htype : Traced ts [type] := traced_typeName? ht
    have hrest : rest <:+ ts := ⟨_, (reads_typeName? ht).leaves⟩
    split
    · rename_i name opening after hhead
      -- accessors are read behind the name and the brace
      have hafter : after <:+ rest := by
        obtain ⟨hdrop, -, -⟩ := accessorHead?_eq_some.1 hhead
        have hcut : (name :: opening :: after) <:+ rest := hdrop ▸ List.drop_suffix _ _
        exact ((List.suffix_cons opening after).trans (List.suffix_cons name _)).trans hcut
      exact .node rfl (.append (.append hlead (.cons (.leaf keyword)
        (.cons htype (traced_qualifier _ _))))
        (.cons (.leaf name) ((traced_accessorList opening after).mono (hafter.trans hrest))))
    · rw [fieldEvent_eq]
      exact .node rfl (.append hlead (.cons (.leaf keyword)
        (.cons (.node rfl (.cons htype (traced_declarators rest))) (.leaves _))))

theorem traced_methodRest (ts : List Token) : Traced ts (methodRest ts).1 := by
  unfold methodRest
  split
  · exact .nil
  · rename_i opening rest
    have hread := (reads_parameterList opening rest).trans
      (reads_takeWhile isConstraintToken (parameterList opening rest).2)
    exact .append (.cons (traced_parameterList opening rest) (.leaves _))
      ((traced_body _).mono ⟨_, hread.leaves⟩)

theorem traced_method? {ts rest : List Token} {parts : List Tree}
    (h : method? ts = some (parts, rest)) : Traced ts parts := by
  unfold method? at h
  split at h
  · cases h
  · rename_i type after ht
    dsimp only at h
    split at h
    · cases h
    · rename_i name after' hd
      split at h
      · obtain ⟨rfl, -⟩ := Prod.mk.inj (Option.some.inj h)
        have hq := reads_qualifier (qualifierExtent_le after)
        rw [hd] at hq
        have hread := ((reads_typeName? ht).trans hq).trans (reads_typeParameters after').cons
        exact .append
          (.append (.cons (traced_typeName? ht) (traced_qualifier _ _))
            (.cons (.leaf name) (traced_typeParameters after')))
          ((traced_methodRest _).mono ⟨_, hread.leaves⟩)
      · cases h

/-! ## 5. Declarations -/

/-- What the start of a declaration holds is traced. -/
def Opening.Traced (ts : List Token) : Opening → Prop
  | .whole tree _ => Tree.Traced ts [tree]
  | .container _ parts _ _ => Tree.Traced ts parts

theorem bearsValue_of_isTypeDeclaration {k : NodeKind} (h : k.isTypeDeclaration = true) :
    k.bearsValue = false := by
  cases k <;> first | rfl | cases h

theorem bearsValue_of_isContainer {k : NodeKind} (h : k.isContainer = true) :
    k.bearsValue = false := by
  cases k <;> first | rfl | cases h

theorem traced_openNamespace (keyword : Token) (us ts : List Token) :
    (openNamespace keyword us).Traced ts := by
  have hname : Traced ts (leaf keyword :: (us.takeWhile isNamePart).map leaf) :=
    .cons (.leaf keyword) (.leaves _)
  unfold openNamespace
  dsimp only
  split
  · exact .node rfl hname
  · split
    · exact .append hname (.leaf _)
    · split
      · exact .append hname (.leaf _)
      · exact .node rfl hname

theorem traced_openType {kind : NodeKind} {lead : List Tree} {ts : List Token} (keyword : Token)
    (us : List Token) (hk : kind.isTypeDeclaration = true) (hlead : Traced ts lead) :
    (openType kind lead keyword us).Traced ts := by
  have hhead : Traced ts (lead ++ leaf keyword :: (us.take (headerExtent us)).map leaf) :=
    .append hlead (.cons (.leaf keyword) (.leaves _))
  have hvalue := bearsValue_of_isTypeDeclaration hk
  unfold openType
  dsimp only
  split
  · exact .node hvalue hhead
  · split
    · exact .node hvalue (.append hhead (traced_optional _ _))
    · split
      · exact .node hvalue (.append (.append hhead (.leaves _)) (traced_optional _ _))
      · exact .append hhead (.leaf _)

theorem traced_openMember (t : Token) (rest : List Token) :
    (openMember t rest).Traced (t :: rest) := by
  have hlead : ∀ ts, Traced ts (leading (t :: rest)).1 := fun ts => traced_leading _
  have hread := (reads_leading (t :: rest)).leaves
  unfold openMember
  dsimp only
  split
  · exact .node rfl (hlead _)
  · rename_i first after hd
    rw [hd] at hread
    have hfirst : (first :: after) <:+ t :: rest := ⟨_, hread⟩
    split
    · exact (traced_event first after (hlead _)).mono
        ((List.suffix_cons first after).trans hfirst)
    · split
      · rename_i kind hk
        exact traced_openType first after (typeKind?_isTypeDeclaration hk) (hlead _)
      · split
        · rename_i parts after' hm
          exact .node rfl (.append (hlead _) ((traced_method? hm).mono hfirst))
        · exact .node rfl (.append (hlead _) (.leaves _))

theorem traced_openDeclaration (scope : Scope) (t : Token) (rest : List Token) :
    (openDeclaration scope t rest).Traced (t :: rest) := by
  unfold openDeclaration
  split
  · exact .node rfl (.leaves _)
  · split
    · exact traced_openNamespace t rest _
    · split
      · exact .node rfl (.leaf t)
      · exact traced_openMember t rest

theorem traced_closeContainer {kind : NodeKind} {parts : List Tree} {ts : List Token}
    {inner : List Tree × List Token} (scope : Scope) (hk : kind.isContainer = true)
    (hparts : Traced ts parts) (hinner : Traced ts inner.1) :
    Traced ts [(closeContainer kind parts scope inner).1] := by
  have hbody := hparts.append hinner
  have hvalue := bearsValue_of_isContainer hk
  cases scope with
  | file => exact .node hvalue hbody
  | namespaceBody => exact .node hvalue (hbody.append (traced_optional _ _))
  | typeBody =>
    exact .node hvalue ((hbody.append (traced_optional _ _)).append (traced_optional _ _))

theorem traced_declarations (scope : Scope) (ts : List Token) :
    Traced ts (declarations scope ts).1 := by
  induction ts using shorter_induction generalizing scope with
  | step ts ih =>
    cases ts with
    | nil =>
      rw [declarations_nil]
      exact .nil
    | cons t rest =>
      cases he : scope.endsAt t.kind with
      | true =>
        rw [declarations_of_endsAt rest he]
        exact .nil
      | false =>
        have hdeclares := declares_declaration scope t rest
        have hfirst : Traced (t :: rest) [(declaration scope t rest).1] := by
          have htraced := traced_openDeclaration scope t rest
          have hreads := reads_openDeclaration scope t rest
          unfold declaration
          split
          · rename_i tree after ho
            rwa [ho] at htraced
          · rename_i kind parts inner after ho
            rw [ho] at htraced hreads
            have hlt := Nat.lt_succ_of_le (openDeclaration_rest_le ho)
            -- the members were read from what the opening left, so from the end of the text
            exact traced_closeContainer inner hreads.2.2 htraced
              ((ih after hlt inner).mono ⟨_, hreads.1.leaves⟩)
        rw [declarations_cons rest he]
        exact .cons hfirst ((ih _ hdeclares.rest_lt scope).mono ⟨_, hdeclares.leaves⟩)

/-- A node that bears a value was made by its reader from tokens at the end of the text. -/
theorem exists_made {ts : List Token} {n : Tree} (hn : n ∈ (ofTokens ts).preorder)
    (hk : n.nodeKind?.any NodeKind.bearsValue = true) : ∃ us, us <:+ ts ∧ Made us n := by
  rcases List.mem_cons.1 hn with rfl | hn
  · cases hk
  · exact traced_declarations .file ts n hn hk

end Tree

end EventLint
