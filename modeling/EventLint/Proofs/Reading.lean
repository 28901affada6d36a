import EventLint.Proofs.Types
import EventLint.Tree.Declaration

/-!
# Reading keeps every token

`Tree.Reads ts trees rest` says that `trees` were read from the front of `ts` and that `rest` is
left: their leaves and the rest are the tokens again, in order. Every part of the reader satisfies
it, whatever it tried and gave up on the way.
-/

namespace EventLint

/-- The node is a part of a declaration, never a declaration itself. -/
def NodeKind.isPart : NodeKind → Bool
  | compilationUnit | usingDirective | namespaceDeclaration | classDeclaration | structDeclaration
  | recordDeclaration | interfaceDeclaration | enumDeclaration | eventFieldDeclaration
  | eventDeclaration | methodDeclaration | otherMember | errorNode => false
  | _ => true

/-- The node is a declaration that may have others inside. -/
def NodeKind.isContainer : NodeKind → Bool
  | namespaceDeclaration | classDeclaration | structDeclaration | recordDeclaration
  | interfaceDeclaration => true
  | _ => false

namespace Tree

/-! ## 1. What was read -/

/-- A name is one identifier, and a member access goes on with points and identifiers. -/
structure WellNamed (k : NodeKind) (cs : List Tree) : Prop where
  name : k = .identifierName → ∃ t, cs = [leaf t] ∧ t.kind = .ident
  access : k = .memberAccessExpression → ∃ t ts, cs = (t :: ts).map leaf ∧ isMemberTail ts = true

/-- A token, or a part of a declaration in which no node is empty and names are made of
identifiers. -/
inductive IsPart : Tree → Prop where
  | leaf (t : Token) : IsPart (leaf t)
  | node {k : NodeKind} {cs : List Tree} (hk : k.isPart = true) (hname : WellNamed k cs)
      (hne : cs ≠ []) (hcs : ∀ c ∈ cs, IsPart c) : IsPart (node k cs)

/-- The parts `trees` were read from the front of `ts`, and `rest` is left. -/
structure Reads (ts : List Token) (trees : List Tree) (rest : List Token) : Prop where
  leaves : leavesAll trees ++ rest = ts
  parts : ∀ t ∈ trees, IsPart t

namespace Reads

variable {ts mid rest : List Token} {a b cs : List Tree}

theorem nil : Reads ts [] ts :=
  ⟨rfl, by simp⟩

theorem leaf {t : Token} : Reads (t :: ts) [leaf t] ts :=
  ⟨rfl, by simpa using IsPart.leaf t⟩

theorem trans (ha : Reads ts a mid) (hb : Reads mid b rest) : Reads ts (a ++ b) rest where
  leaves := by rw [leavesAll_append, List.append_assoc, hb.leaves, ha.leaves]
  parts t ht := (List.mem_append.1 ht).elim (ha.parts t) (hb.parts t)

theorem cons {t : Token} (h : Reads ts cs rest) : Reads (t :: ts) (Tree.leaf t :: cs) rest :=
  leaf.trans h

theorem take (n : Nat) : Reads ts ((ts.take n).map Tree.leaf) (ts.drop n) where
  leaves := by rw [leavesAll_map_leaf, List.take_append_drop]
  parts t ht := by
    obtain ⟨u, -, rfl⟩ := List.mem_map.1 ht
    exact IsPart.leaf u

/-- What was read becomes one node. -/
theorem node_of {k : NodeKind} (h : Reads ts cs rest) (hk : k.isPart = true)
    (hname : WellNamed k cs) (hne : cs ≠ []) : Reads ts [Tree.node k cs] rest where
  leaves := by rw [leavesAll, leavesAll, List.append_nil, Tree.leaves, h.leaves]
  parts t ht := by
    rw [List.mem_singleton.1 ht]
    exact IsPart.node hk hname hne h.parts

/-- What was read becomes one node that is no name. -/
theorem node {k : NodeKind} (h : Reads ts cs rest)
    (hk : (k.isPart && k ≠ .identifierName && k ≠ .memberAccessExpression) = true) (hne : cs ≠ []) :
    Reads ts [Tree.node k cs] rest := by
  simp only [Bool.and_eq_true, decide_eq_true_eq] at hk
  obtain ⟨⟨hpart, hname⟩, haccess⟩ := hk
  exact h.node_of hpart ⟨fun hk => absurd hk hname, fun hk => absurd hk haccess⟩ hne

theorem name {t : Token} (ht : t.kind = .ident) :
    Reads (t :: ts) [Tree.node .identifierName [Tree.leaf t]] ts :=
  leaf.node_of rfl ⟨fun _ => ⟨t, rfl, ht⟩, fun hk => by cases hk⟩ (List.cons_ne_nil _ _)

theorem rest_le (h : Reads ts cs rest) : rest.length ≤ ts.length := by
  rw [← h.leaves, List.length_append]
  exact Nat.le_add_left _ _

end Reads

theorem leaves_ne_nil {t : Tree} (h : IsPart t) : t.leaves ≠ [] := by
  induction h with
  | leaf t => exact List.cons_ne_nil _ _
  | @node k cs hk hname hne hcs ih =>
    obtain ⟨c, cs, rfl⟩ := List.exists_cons_of_ne_nil hne
    rw [leaves, leavesAll]
    exact List.append_ne_nil_of_left_ne_nil (ih c List.mem_cons_self) _

/-! ## 2. Groups of tokens -/

theorem reads_optional (k : TokenKind) (ts : List Token) :
    Reads ts (optional k ts).1 (optional k ts).2 := by
  unfold optional
  split
  · exact Reads.nil
  · split
    · exact Reads.leaf
    · exact Reads.nil

theorem reads_takeWhile (p : Token → Bool) (ts : List Token) :
    Reads ts ((ts.takeWhile p).map leaf) (ts.dropWhile p) where
  leaves := by rw [leavesAll_map_leaf, List.takeWhile_append_dropWhile]
  parts t ht := by
    obtain ⟨u, -, rfl⟩ := List.mem_map.1 ht
    exact IsPart.leaf u

theorem reads_attributes (ts : List Token) : Reads ts (attributes ts).1 (attributes ts).2 := by
  fun_induction attributes ts with
  | case1 => exact Reads.nil
  | case2 t rest _ n more after he ih =>
    rw [he] at ih
    exact ((Reads.take n).cons.node rfl (List.cons_ne_nil _ _)).trans ih
  | case3 => exact Reads.nil

theorem modifierExtent_le (ts : List Token) : modifierExtent ts ≤ ts.length := by
  induction ts with
  | nil => exact Nat.le_refl 0
  | cons t ts ih =>
    unfold modifierExtent
    split
    · rw [List.length_cons]
      omega
    · exact Nat.zero_le _

theorem reads_modifiers (ts : List Token) : Reads ts (modifiers ts).1 (modifiers ts).2 := by
  unfold modifiers
  split
  · exact Reads.nil
  · rename_i n hn
    apply (Reads.take (n + 1)).node rfl
    have hle := modifierExtent_le ts
    rw [hn] at hle
    rw [Ne, List.map_eq_nil_iff, List.take_eq_nil_iff, not_or]
    exact ⟨Nat.succ_ne_zero n, List.ne_nil_of_length_pos (by omega)⟩

theorem reads_leading (ts : List Token) : Reads ts (leading ts).1 (leading ts).2 :=
  (reads_attributes ts).trans (reads_modifiers _)

theorem qualifierExtent_le (ts : List Token) : qualifierExtent ts ≤ ts.length := by
  fun_induction qualifierExtent ts with
  | case1 a b ts _ ih =>
    rw [List.length_cons, List.length_cons]
    omega
  | case2 => exact Nat.zero_le _
  | case3 => exact Nat.zero_le _

theorem reads_qualifier {n : Nat} {ts : List Token} (hn : n ≤ ts.length) :
    Reads ts (qualifier n ts) (ts.drop n) := by
  unfold qualifier
  split
  · rename_i h
    rw [h]
    exact Reads.nil
  · rename_i h
    apply (Reads.take n).node rfl
    rw [Ne, List.map_eq_nil_iff, List.take_eq_nil_iff, not_or]
    exact ⟨h, List.ne_nil_of_length_pos (by omega)⟩

/-! ## 3. Types -/

theorem reads_typeMarks {ts us : List Token} {type : Tree} (h : Reads ts [type] us) :
    Reads ts [(typeMarks type us).1] (typeMarks type us).2 := by
  fun_induction typeMarks type us with
  | case1 => exact h
  | case2 type t rest _ ih => exact ih ((h.trans Reads.leaf).node rfl (List.cons_ne_nil _ _))
  | case3 type t rest _ _ n ih =>
    exact ih ((h.trans (Reads.take n).cons).node rfl (List.cons_ne_nil _ _))
  | case4 => exact h

theorem reads_tupleOf (t : Token) (rest : List Token) :
    Reads (t :: rest) [tupleOf t rest] (rest.drop (closingExtent 1 rest)) :=
  (Reads.take (closingExtent 1 rest)).cons.node rfl (List.cons_ne_nil _ _)

/-- Each of the four functions that read types reads from the front: a name that goes on with its
owner, from where the owner starts. -/
theorem typeSteps_reads : TypeSteps (fun ts type rest => Reads ts [type] rest)
    (fun owner ts name rest => ∀ us, Reads us [owner] ts → Reads us [name] rest)
    (fun first ts name rest => first.kind = .ident → Reads (first :: ts) [name] rest) Reads where
  named hi hfirst hname := reads_typeMarks (hname _ (hfirst hi))
  tuple _ hname := reads_typeMarks (hname _ (reads_tupleOf _ _))
  stop _ _ _ h := h
  join _ hi hnext hname us h := by
    refine hname us ?_
    exact ((h.trans Reads.leaf).trans (hnext hi)).node rfl (List.cons_ne_nil _ _)
  plain _ _ hi := Reads.name hi
  generic _ hargs _ :=
    (hargs.cons.node rfl (List.cons_ne_nil _ _)).cons.node rfl (List.cons_ne_nil _ _)
  last _ htype := htype.trans Reads.leaf
  more _ htype hargs := htype.trans hargs.cons

theorem reads_typeName? {ts rest : List Token} {type : Tree}
    (h : typeName? ts = some (type, rest)) : Reads ts [type] rest :=
  typeSteps_reads.typeName? h

/-! ## 4. Statements -/

theorem wellNamed_expressionKind (ts : List Token) :
    WellNamed (expressionKind ts) (ts.map leaf) := by
  unfold expressionKind
  split
  · exact ⟨fun h => (by cases h), fun h => (by cases h)⟩
  · rename_i t
    split
    · rename_i ht
      exact ⟨fun _ => ⟨t, rfl, ht⟩, fun h => (by cases h)⟩
    · exact ⟨fun h => (by cases h), fun h => (by cases h)⟩
  · rename_i t ts _
    split
    · rename_i hk
      exact ⟨fun h => (by cases h), fun _ => ⟨t, ts, rfl, (Bool.and_eq_true_iff.1 hk).2⟩⟩
    · exact ⟨fun h => (by cases h), fun h => (by cases h)⟩

theorem reads_expression {ts rest : List Token} (n : Nat) (h : ts.drop n = rest) :
    Reads ts (expression (ts.take n)) rest := by
  subst h
  cases ht : ts.take n with
  | nil =>
    refine ⟨?_, by simp [expression]⟩
    have := List.take_append_drop n ts
    rwa [ht] at this
  | cons t us =>
    have h : Reads ts ((ts.take n).map leaf) (ts.drop n) := Reads.take n
    rw [ht] at h
    exact h.node_of (by unfold expressionKind; split <;> (try split) <;> rfl)
      (wellNamed_expressionKind (t :: us)) (List.cons_ne_nil _ _)

theorem reads_assignment (ts : List Token) : Reads ts (assignment ts).1 (assignment ts).2 := by
  unfold assignment
  dsimp only
  split
  · rename_i hd
    exact reads_expression _ hd
  · rename_i t rest hd
    split
    · exact ((reads_expression _ hd).trans (reads_expression _ rfl).cons).node rfl (by simp)
    · exact reads_expression _ hd

theorem reads_simpleStatement (t : Token) (rest : List Token) :
    Reads (t :: rest) [(simpleStatement t rest).1] (simpleStatement t rest).2 := by
  unfold simpleStatement
  split
  · exact ((reads_expression _ rfl).trans (reads_optional .semicolon _)).cons.node rfl
      (List.cons_ne_nil _ _)
  · split
    · exact (Reads.take _).cons.node rfl (List.cons_ne_nil _ _)
    · have h := (reads_assignment (t :: rest)).trans (reads_optional .semicolon _)
      dsimp only
      split
      · exact Reads.leaf.node rfl (List.cons_ne_nil _ _)
      · rename_i parts hne
        exact h.node rfl hne

/-- A tree that stands for all of what was read leaves less than was there. -/
theorem Reads.rest_lt {ts rest : List Token} {tree : Tree} (h : Reads ts [tree] rest) :
    rest.length < ts.length := by
  have hne := leaves_ne_nil (h.parts tree (List.mem_singleton_self _))
  have hlen := congrArg List.length h.leaves
  rw [leavesAll, leavesAll, List.append_nil, List.length_append] at hlen
  have := List.length_pos_of_ne_nil hne
  omega

theorem reads_closeBlock {t : Token} {rest : List Token} {inner : List Tree × List Token}
    (h : Reads rest inner.1 inner.2) :
    Reads (t :: rest) [(closeBlock t inner).1] (closeBlock t inner).2 :=
  (h.trans (reads_optional .rbrace _)).cons.node rfl (List.cons_ne_nil _ _)

/-- The statement that starts with `t`: a block or a simple one. -/
def statement (t : Token) (rest : List Token) : Tree × List Token :=
  if t.kind = .lbrace then block t rest else simpleStatement t rest

theorem reads_statement_of {t : Token} {rest : List Token}
    (h : Reads rest (statements rest).1 (statements rest).2) :
    Reads (t :: rest) [(statement t rest).1] (statement t rest).2 := by
  unfold statement
  split
  · exact reads_closeBlock h
  · exact reads_simpleStatement t rest

theorem reads_statements (ts : List Token) : Reads ts (statements ts).1 (statements ts).2 := by
  fun_induction statements ts with
  | case1 => exact Reads.nil
  | case2 => exact Reads.nil
  | case3 t rest hr first after hf hle more after' hm ih ih' =>
    have h := reads_statement_of (t := t) ih
    rw [show statement t rest = (first, after) from hf] at h
    rw [hm] at ih'
    exact h.trans ih'
  | case4 t rest hr first after hf hle ih =>
    have h := reads_statement_of (t := t) ih
    rw [show statement t rest = (first, after) from hf] at h
    exact h

theorem reads_statement (t : Token) (rest : List Token) :
    Reads (t :: rest) [(statement t rest).1] (statement t rest).2 :=
  reads_statement_of (reads_statements rest)

theorem statements_nil : statements [] = ([], []) := by
  rw [statements]

theorem statements_of_rbrace {t : Token} (rest : List Token) (h : t.kind = .rbrace) :
    statements (t :: rest) = ([], t :: rest) := by
  rw [statements, if_pos h]

theorem statements_cons {t : Token} (rest : List Token) (h : t.kind ≠ .rbrace) :
    statements (t :: rest) =
      ((statement t rest).1 :: (statements (statement t rest).2).1,
        (statements (statement t rest).2).2) := by
  have hlt := (reads_statement t rest).rest_lt
  rw [List.length_cons] at hlt
  rw [statements, if_neg h]
  change (if (statement t rest).2.length ≤ rest.length then _ else _) = _
  rw [if_pos (by omega)]
  rfl

theorem reads_block (t : Token) (rest : List Token) :
    Reads (t :: rest) [(block t rest).1] (block t rest).2 :=
  reads_closeBlock (reads_statements rest)

theorem reads_arrowClause (t : Token) (rest : List Token) :
    Reads (t :: rest) [(arrowClause t rest).1] (arrowClause t rest).2 :=
  (reads_assignment rest).cons.node rfl (List.cons_ne_nil _ _)

theorem reads_body (ts : List Token) : Reads ts (body ts).1 (body ts).2 := by
  unfold body
  split
  · exact Reads.nil
  · split
    · exact reads_block _ _
    · exact (reads_arrowClause _ _).trans (reads_optional .semicolon _)
    · exact Reads.leaf
    · exact Reads.nil

/-! ## 5. Events and methods -/

theorem reads_declarator (name : Token) (ts : List Token) :
    Reads (name :: ts) [(declarator name ts).1] (declarator name ts).2 := by
  unfold declarator
  split
  · exact Reads.leaf.node rfl (List.cons_ne_nil _ _)
  · split
    · exact (reads_expression _ rfl).cons.cons.node rfl (List.cons_ne_nil _ _)
    · exact Reads.leaf.node rfl (List.cons_ne_nil _ _)

theorem reads_declarators (ts : List Token) : Reads ts (declarators ts).1 (declarators ts).2 := by
  fun_induction declarators ts with
  | case1 => exact Reads.nil
  | case2 t rest ht _ hd =>
    have h := reads_declarator t rest
    rwa [hd] at h
  | case3 t rest ht _ comma after hd hc more after' hm ih =>
    have h := reads_declarator t rest
    rw [hd] at h
    rw [hm] at ih
    exact h.trans ih.cons
  | case4 t rest ht _ comma after hd hc =>
    have h := reads_declarator t rest
    rwa [hd] at h
  | case5 => exact Reads.nil

theorem reads_accessor (t : Token) (rest : List Token) :
    Reads (t :: rest) [(accessor t rest).1] (accessor t rest).2 := by
  have h := ((reads_leading (t :: rest)).trans (reads_optional .ident _)).trans (reads_body _)
  unfold accessor
  dsimp only
  split
  · exact Reads.leaf.node rfl (List.cons_ne_nil _ _)
  · rename_i hne
    exact h.node rfl hne

theorem reads_accessors (ts : List Token) : Reads ts (accessors ts).1 (accessors ts).2 := by
  fun_induction accessors ts with
  | case1 => exact Reads.nil
  | case2 => exact Reads.nil
  | case3 t rest hr first after hf hle more after' hm ih =>
    have h := reads_accessor t rest
    rw [hf] at h
    rw [hm] at ih
    exact h.trans ih
  | case4 t rest hr first after hf hle =>
    have h := reads_accessor t rest
    rwa [hf] at h

theorem accessors_cons {t : Token} (rest : List Token) (h : t.kind ≠ .rbrace) :
    accessors (t :: rest) =
      ((accessor t rest).1 :: (accessors (accessor t rest).2).1,
        (accessors (accessor t rest).2).2) := by
  have hlt := (reads_accessor t rest).rest_lt
  rw [List.length_cons] at hlt
  rw [accessors, if_neg h]
  rcases ha : accessor t rest with ⟨first, after⟩
  rw [ha] at hlt
  dsimp only at hlt ⊢
  rw [if_pos (by omega)]

theorem reads_accessorList (t : Token) (rest : List Token) :
    Reads (t :: rest) [(accessorList t rest).1] (accessorList t rest).2 :=
  ((reads_accessors rest).trans (reads_optional .rbrace _)).cons.node rfl (List.cons_ne_nil _ _)

theorem reads_typedName (ts : List Token) : Reads ts (typedName ts).1 (typedName ts).2 := by
  unfold typedName
  split
  · rename_i type name rest h
    split
    · exact (reads_typeName? h).trans Reads.leaf
    · exact Reads.nil
  · exact Reads.nil

theorem reads_parameter (ts : List Token) : Reads ts (parameter ts).1 (parameter ts).2 := by
  have hlead := (reads_attributes ts).trans
    (Reads.take (parameterModifierExtent (attributes ts).2))
  have hnamed := hlead.trans (reads_typedName _)
  have hall := hnamed.trans (reads_expression (expressionExtent (· = .comma) 0
    (typedName ((attributes ts).2.drop (parameterModifierExtent (attributes ts).2))).2) rfl)
  unfold parameter
  dsimp only
  split
  · rename_i hnil
    rwa [hnil] at hall
  · rename_i hne
    exact hall.node rfl hne

theorem reads_parameters (ts : List Token) : Reads ts (parameters ts).1 (parameters ts).2 := by
  fun_induction parameters ts with
  | case1 => exact Reads.nil
  | case2 ts _ first hf =>
    have h := reads_parameter ts
    rwa [hf] at h
  | case3 ts _ first comma after hc more after' hm hf ih =>
    have h := reads_parameter ts
    rw [hf] at h
    rw [hm] at ih
    exact h.trans ih.cons
  | case4 ts _ first comma after hc hf =>
    have h := reads_parameter ts
    rwa [hf] at h

theorem reads_parameterList (t : Token) (rest : List Token) :
    Reads (t :: rest) [(parameterList t rest).1] (parameterList t rest).2 :=
  ((reads_parameters rest).trans (reads_optional .rparen _)).cons.node rfl (List.cons_ne_nil _ _)

theorem reads_typeParameters (ts : List Token) :
    Reads ts (typeParameters ts).1 (typeParameters ts).2 := by
  unfold typeParameters
  split
  · rename_i h
    cases ts with
    | nil => cases h
    | cons t ts =>
      have ht : t.kind = .lt := of_decide_eq_true h
      -- the node is not empty, as its first token opens no parameters
      have hp : (decide (t.kind ≠ .lparen)) = true := by
        rw [ht]
        decide
      have hd := reads_takeWhile (fun u : Token => decide (u.kind ≠ .lparen)) (t :: ts)
      refine hd.node rfl ?_
      rw [List.takeWhile_cons, if_pos hp]
      exact List.cons_ne_nil _ _
  · exact Reads.nil

theorem reads_methodRest (ts : List Token) : Reads ts (methodRest ts).1 (methodRest ts).2 := by
  unfold methodRest
  split
  · exact Reads.nil
  · exact ((reads_parameterList _ _).trans (reads_takeWhile _ _)).trans (reads_body _)

theorem reads_method? {ts rest : List Token} {parts : List Tree}
    (h : method? ts = some (parts, rest)) : Reads ts parts rest ∧ parts ≠ [] := by
  unfold method? at h
  split at h
  · cases h
  · rename_i type after ht
    dsimp only at h
    split at h
    · cases h
    · rename_i name after' hd
      split at h
      · obtain ⟨rfl, rfl⟩ := Prod.mk.inj (Option.some.inj h)
        have hq := reads_qualifier (qualifierExtent_le after)
        rw [hd] at hq
        have hname := ((reads_typeName? ht).trans hq).trans (reads_typeParameters after').cons
        exact ⟨hname.trans (reads_methodRest _), by simp⟩
      · cases h

/-! ## 6. Declarations -/

/-- A declaration: its own parts, and other declarations among them only if it can hold some. -/
inductive IsDeclaration : Tree → Prop where
  | flat {k : NodeKind} {cs : List Tree} (hk : k.isPart = false) (hne : cs ≠ [])
      (hcs : ∀ c ∈ cs, IsPart c) : IsDeclaration (node k cs)
  | nest {k : NodeKind} {cs : List Tree} (hk : k.isContainer = true) (hne : cs ≠ [])
      (hcs : ∀ c ∈ cs, ¬ IsPart c → IsDeclaration c) : IsDeclaration (node k cs)

/-- The declarations `trees` were read from the front of `ts`, and `rest` is left. -/
structure Declares (ts : List Token) (trees : List Tree) (rest : List Token) : Prop where
  leaves : leavesAll trees ++ rest = ts
  declarations : ∀ t ∈ trees, IsDeclaration t

/-- A declaration without others inside was read from the front of `ts`, and `rest` is left. -/
inductive Whole (ts : List Token) : Tree → List Token → Prop where
  | of {k : NodeKind} {cs : List Tree} {rest : List Token} (hk : k.isPart = false) (hne : cs ≠ [])
      (h : Reads ts cs rest) : Whole ts (node k cs) rest

theorem Reads.whole {ts rest : List Token} {cs : List Tree} {k : NodeKind} (h : Reads ts cs rest)
    (hk : k.isPart = false) (hne : cs ≠ []) : Whole ts (Tree.node k cs) rest :=
  .of hk hne h

theorem Whole.declares {ts rest : List Token} {tree : Tree} (h : Whole ts tree rest) :
    Declares ts [tree] rest := by
  obtain ⟨hk, hne, h⟩ := h
  refine ⟨?_, fun t ht => ?_⟩
  · rw [leavesAll, leavesAll, List.append_nil, Tree.leaves, h.leaves]
  · rw [List.mem_singleton.1 ht]
    exact IsDeclaration.flat hk hne h.parts

theorem whole_event {lead : List Tree} {ts us : List Token} {keyword : Token}
    (hl : Reads ts lead (keyword :: us)) :
    Whole ts (event lead keyword us).1 (event lead keyword us).2 := by
  unfold event
  split
  · exact (hl.trans (Reads.take _).cons).whole rfl (by simp)
  · rename_i type rest ht
    have hfields : ∀ close after, Reads (declarators rest).2 close after →
        Whole ts (node .eventFieldDeclaration (lead ++ leaf keyword ::
          node .variableDeclaration (type :: (declarators rest).1) :: close)) after := by
      intro close after hc
      have hdecl := ((reads_typeName? ht).trans (reads_declarators rest)).node
        (k := .variableDeclaration) rfl (List.cons_ne_nil _ _)
      exact (hl.trans (hdecl.trans hc).cons).whole rfl (by simp)
    -- without a semicolon the rest of the member is taken as it is
    have hclose : ∀ after, Reads after
        (if nextIs .semicolon after then optional .semicolon after
          else ((after.take (memberExtent after)).map leaf, after.drop (memberExtent after))).1
        (if nextIs .semicolon after then optional .semicolon after
          else ((after.take (memberExtent after)).map leaf,
            after.drop (memberExtent after))).2 := by
      intro after
      split
      · exact reads_optional .semicolon after
      · exact Reads.take _
    dsimp only
    split
    · rename_i name opening after hd
      split
      · have hq := reads_qualifier (qualifierExtent_le rest)
        rw [hd] at hq
        have hlist := (reads_accessorList opening after).cons (t := name)
        have hname := hl.trans ((reads_typeName? ht).trans hq).cons
        exact (hname.trans hlist).whole rfl (by simp)
      · exact hfields _ _ (hclose _)
    · exact hfields _ _ (hclose _)

/-- What the start of a declaration reads. -/
def Opening.Reads (ts : List Token) : Opening → Prop
  | .whole tree rest => Whole ts tree rest
  | .container kind parts _ rest => Tree.Reads ts parts rest ∧ parts ≠ [] ∧ kind.isContainer = true

theorem reads_openNamespace (keyword : Token) (ts : List Token) :
    (openNamespace keyword ts).Reads (keyword :: ts) := by
  have hname := (reads_takeWhile isNamePart ts).cons (t := keyword)
  unfold openNamespace
  dsimp only
  split
  · rename_i hd
    rw [hd] at hname
    exact hname.whole rfl (List.cons_ne_nil _ _)
  · rename_i t rest hd
    rw [hd] at hname
    split
    · exact ⟨hname.trans Reads.leaf, List.cons_ne_nil _ _, rfl⟩
    · split
      · exact ⟨hname.trans Reads.leaf, List.cons_ne_nil _ _, rfl⟩
      · exact hname.whole rfl (List.cons_ne_nil _ _)

theorem reads_openType {kind : NodeKind} {lead : List Tree} {keyword : Token} {ts us : List Token}
    (hk : kind.isTypeDeclaration = true) (hl : Reads us lead (keyword :: ts)) :
    (openType kind lead keyword ts).Reads us := by
  -- a declaration of a type stands for itself and is no part of another member
  have hpart : kind.isPart = false := by
    cases kind <;> first | rfl | cases hk
  have hhead := hl.trans (Reads.take (headerExtent ts)).cons
  have hne : ∀ parts,
      lead ++ leaf keyword :: (ts.take (headerExtent ts)).map leaf ++ parts ≠ [] := by
    simp
  unfold openType
  dsimp only
  split
  · rename_i hd
    rw [hd] at hhead
    exact hhead.whole hpart (by simp)
  · rename_i t rest hd
    rw [hd] at hhead
    split
    · exact (hhead.trans (reads_optional .semicolon _)).whole hpart (hne _)
    · split
      · have hbody := (hhead.trans (Reads.take (closingExtent 1 rest)).cons).trans
          (reads_optional .semicolon _)
        exact hbody.whole hpart (by simp)
      · rename_i henum
        refine ⟨hhead.trans Reads.leaf, hne _, ?_⟩
        cases kind <;> first | rfl | exact absurd rfl henum | cases hk

theorem typeKind?_isTypeDeclaration {t : Token} {rest : List Token} {kind : NodeKind}
    (h : typeKind? t rest = some kind) : kind.isTypeDeclaration = true := by
  unfold typeKind? at h
  split at h
  all_goals try split at h
  all_goals cases h
  all_goals rfl

theorem reads_openMember (t : Token) (rest : List Token) :
    (openMember t rest).Reads (t :: rest) := by
  have hl := reads_leading (t :: rest)
  unfold openMember
  dsimp only
  split
  · rename_i hd
    rw [hd] at hl
    -- nothing but attributes and modifiers up to the end of the text
    refine hl.whole rfl fun hnil => ?_
    have hleaves := hl.leaves
    rw [hnil] at hleaves
    cases hleaves
  · rename_i first after hd
    rw [hd] at hl
    split
    · exact whole_event hl
    · split
      · rename_i kind hk
        exact reads_openType (typeKind?_isTypeDeclaration hk) hl
      · split
        · rename_i parts after' hm
          obtain ⟨hparts, hne⟩ := reads_method? hm
          exact (hl.trans hparts).whole rfl (List.append_ne_nil_of_right_ne_nil _ hne)
        · refine (hl.trans (Reads.take _)).whole rfl ?_
          -- without anything in front of it, a member takes one token at least
          cases hlead : (leading (t :: rest)).1 with
          | nil => simp
          | cons c cs => exact List.cons_ne_nil _ _

theorem reads_openDeclaration (scope : Scope) (t : Token) (rest : List Token) :
    (openDeclaration scope t rest).Reads (t :: rest) := by
  unfold openDeclaration
  split
  · exact (Reads.take _).cons.whole rfl (List.cons_ne_nil _ _)
  · split
    · exact reads_openNamespace t rest
    · split
      · exact Reads.leaf.whole rfl (List.cons_ne_nil _ _)
      · exact reads_openMember t rest

/-- Tokens, parts and declarations inside a container, in the order they were read. -/
theorem declares_nest {ts mid after rest : List Token} {kind : NodeKind}
    {parts inner close : List Tree} (hk : kind.isContainer = true) (hne : parts ≠ [])
    (hp : Reads ts parts mid) (hi : Declares mid inner after) (hc : Reads after close rest) :
    Declares ts [node kind (parts ++ inner ++ close)] rest where
  leaves := by
    rw [leavesAll, leavesAll, List.append_nil, Tree.leaves, leavesAll_append, leavesAll_append,
      List.append_assoc, hc.leaves, List.append_assoc, hi.leaves, hp.leaves]
  declarations t ht := by
    rw [List.mem_singleton.1 ht]
    refine IsDeclaration.nest hk (by simp [hne]) fun c hc' hpart => ?_
    rcases List.mem_append.1 hc' with h | h
    · rcases List.mem_append.1 h with h | h
      · exact absurd (hp.parts c h) hpart
      · exact hi.declarations c h
    · exact absurd (hc.parts c h) hpart

theorem declares_closeContainer {ts mid : List Token} {kind : NodeKind} {parts : List Tree}
    {inner : List Tree × List Token} (scope : Scope) (hk : kind.isContainer = true)
    (hne : parts ≠ []) (hp : Reads ts parts mid) (hi : Declares mid inner.1 inner.2) :
    Declares ts [(closeContainer kind parts scope inner).1]
      (closeContainer kind parts scope inner).2 := by
  cases scope with
  | file =>
    have h := declares_nest hk hne hp hi Reads.nil
    rwa [List.append_nil] at h
  | namespaceBody => exact declares_nest hk hne hp hi (reads_optional .rbrace _)
  | typeBody =>
    have h := declares_nest hk hne hp hi
      ((reads_optional .rbrace _).trans (reads_optional .semicolon _))
    rwa [← List.append_assoc] at h

/-- The declaration that starts with `t`, with everything inside it. -/
def declaration (scope : Scope) (t : Token) (rest : List Token) : Tree × List Token :=
  match openDeclaration scope t rest with
  | .whole tree after => (tree, after)
  | .container kind parts inner after =>
    closeContainer kind parts inner (declarations inner after)

theorem IsDeclaration.leaves_ne_nil {t : Tree} (h : IsDeclaration t) : t.leaves ≠ [] := by
  induction h with
  | @flat k cs hk hne hcs =>
    obtain ⟨c, cs, rfl⟩ := List.exists_cons_of_ne_nil hne
    rw [leaves, leavesAll]
    exact List.append_ne_nil_of_left_ne_nil (Tree.leaves_ne_nil (hcs c List.mem_cons_self)) _
  | @nest k cs hk hne hcs ih =>
    obtain ⟨c, cs, rfl⟩ := List.exists_cons_of_ne_nil hne
    rw [leaves, leavesAll]
    refine List.append_ne_nil_of_left_ne_nil ?_ _
    by_cases hp : IsPart c
    · exact Tree.leaves_ne_nil hp
    · exact ih c List.mem_cons_self hp

theorem Declares.rest_lt {ts rest : List Token} {tree : Tree} (h : Declares ts [tree] rest) :
    rest.length < ts.length := by
  have hne := (h.declarations tree (List.mem_singleton_self _)).leaves_ne_nil
  have hlen := congrArg List.length h.leaves
  rw [leavesAll, leavesAll, List.append_nil, List.length_append] at hlen
  have := List.length_pos_of_ne_nil hne
  omega

theorem Declares.cons {ts mid rest : List Token} {tree : Tree} {trees : List Tree}
    (h : Declares ts [tree] mid) (hs : Declares mid trees rest) :
    Declares ts (tree :: trees) rest where
  leaves := by
    rw [leavesAll, List.append_assoc, hs.leaves]
    have := h.leaves
    rwa [leavesAll, leavesAll, List.append_nil] at this
  declarations t ht := by
    rcases List.mem_cons.1 ht with rfl | ht
    · exact h.declarations t (List.mem_singleton_self _)
    · exact hs.declarations t ht

theorem declares_declaration_of {scope : Scope} {t : Token} {rest : List Token}
    (ih : ∀ kind parts inner after,
      openDeclaration scope t rest = .container kind parts inner after →
      Declares after (declarations inner after).1 (declarations inner after).2) :
    Declares (t :: rest) [(declaration scope t rest).1] (declaration scope t rest).2 := by
  have h := reads_openDeclaration scope t rest
  unfold declaration
  split
  · rename_i tree after ho
    rw [ho] at h
    exact h.declares
  · rename_i kind parts inner after ho
    rw [ho] at h
    exact declares_closeContainer inner h.2.2 h.2.1 h.1 (ih kind parts inner after ho)

theorem declaration_eq {scope : Scope} {t : Token} {rest : List Token} {r : Tree × List Token}
    (h : (match _h : openDeclaration scope t rest with
      | .whole tree after => (tree, after)
      | .container kind parts inner after =>
        closeContainer kind parts inner (declarations inner after)) = r) :
    declaration scope t rest = r := by
  rw [← h]
  unfold declaration
  generalize openDeclaration scope t rest = opening
  cases opening <;> rfl

theorem declares_declarations (scope : Scope) (ts : List Token) :
    Declares ts (declarations scope ts).1 (declarations scope ts).2 := by
  fun_induction declarations scope ts with
  | case1 => exact ⟨rfl, by simp⟩
  | case2 => exact ⟨rfl, by simp⟩
  | case3 scope t rest he first after hf hle more after' hm ih ih' =>
    have h := declares_declaration_of ih
    rw [declaration_eq hf] at h
    rw [hm] at ih'
    exact h.cons ih'
  | case4 scope t rest he first after hf hle ih =>
    have h := declares_declaration_of ih
    rwa [declaration_eq hf] at h

theorem declares_declaration (scope : Scope) (t : Token) (rest : List Token) :
    Declares (t :: rest) [(declaration scope t rest).1] (declaration scope t rest).2 :=
  declares_declaration_of fun _ _ inner after _ => declares_declarations inner after

theorem declarations_nil (scope : Scope) : declarations scope [] = ([], []) := by
  rw [declarations]

theorem declarations_of_endsAt {scope : Scope} {t : Token} (rest : List Token)
    (h : scope.endsAt t.kind = true) : declarations scope (t :: rest) = ([], t :: rest) := by
  rw [declarations, if_pos h]

/-- Every declaration takes a token at least, so the reader goes on to the end of the scope. -/
theorem declarations_cons {scope : Scope} {t : Token} (rest : List Token)
    (h : scope.endsAt t.kind = false) :
    declarations scope (t :: rest) =
      ((declaration scope t rest).1 :: (declarations scope (declaration scope t rest).2).1,
        (declarations scope (declaration scope t rest).2).2) := by
  have hlt := (declares_declaration scope t rest).rest_lt
  rw [List.length_cons] at hlt
  rw [declarations, if_neg (by rw [h]; decide)]
  split
  rename_i first after hf
  rw [declaration_eq hf] at hlt ⊢
  dsimp only at hlt ⊢
  rw [if_pos (by omega)]

theorem declarations_file_rest (ts : List Token) : (declarations .file ts).2 = [] := by
  induction ts using shorter_induction with
  | step ts ih =>
    cases ts with
    | nil => rw [declarations_nil]
    | cons t rest =>
      rw [declarations_cons rest rfl]
      exact ih _ (declares_declaration .file t rest).rest_lt

/-- The leaves of a tree are the tokens it was made from: none is lost, repeated or moved. -/
theorem leaves_ofTokens (ts : List Token) : (ofTokens ts).leaves = ts := by
  have h := (declares_declarations .file ts).leaves
  rw [declarations_file_rest, List.append_nil] at h
  exact h

end Tree

end EventLint
