import EventLint.Proofs.Addition
import EventLint.Proofs.CompleteEvent

/-!
# The backing field is spelled out

Main statement: the backing field of an event with accessors is the field of the first statement of
its `add` accessor whose tokens are `x += value` or `this.x += value`, and none is found only if
there is no such accessor or no such statement.
-/

namespace EventLint

namespace Backing

open Tree Token

/-! ## 1. Accessors -/

/-- The expression statements of a block, not those of inner blocks, or the expression after an
arrow. -/
def sitesOf (body : Tree) : List Tree :=
  if body.isOf .block then body.childNodes.filter (isOf .expressionStatement)
  else if body.isOf .arrowExpressionClause then body.childNodes
  else []

/-- Where an accessor may add the value to a field. -/
def sites (accessor : Tree) : List Tree :=
  accessor.childNodes.flatMap sitesOf

theorem mem_leaves_of_mem_sites {a s : Tree} {t : Token} (hs : s ∈ sites a) (ht : t ∈ s.leaves) :
    t ∈ a.leaves := by
  obtain ⟨c, hc, hs⟩ := List.mem_flatMap.1 hs
  have hchild : s ∈ c.childNodes := by
    unfold sitesOf at hs
    split at hs
    · exact List.mem_of_mem_filter hs
    · split at hs
      · exact hs
      · cases hs
  exact mem_leaves_of_mem_children (List.mem_of_mem_filter hc)
    (mem_leaves_of_mem_children (List.mem_of_mem_filter hchild) ht)

end Backing

namespace Tree

/-- The word `w` is the keyword of the accessor. -/
def hasKeyword (w : String) (accessor : Tree) : Bool :=
  accessor.childTokens.any fun t => t.bare = Grammar.word w

/-- A body is a block or an arrow with its expression, or it is empty. -/
def IsBody (main : List Tree) : Prop :=
  main = [] ∨ (∃ t rest, main = [(block t rest).1]) ∨ ∃ t rest, main = [(arrowClause t rest).1]

theorem body_cases (ts : List Token) :
    ∃ main, ∃ close : List Token, (body ts).1 = main ++ close.map leaf ∧ IsBody main ∧
      ∀ c ∈ close, c.kind = .semicolon := by
  cases ts with
  | nil => exact ⟨[], [], rfl, Or.inl rfl, List.forall_mem_nil _⟩
  | cons t rest =>
    by_cases hb : t.kind = .lbrace
    · rw [body_of_lbrace rest hb]
      exact ⟨_, [], (List.append_nil _).symm, Or.inr (Or.inl ⟨t, rest, rfl⟩), List.forall_mem_nil _⟩
    by_cases ha : t.kind = .fatArrow
    · rw [body_of_arrow rest ha]
      rcases optional_cases .semicolon (arrowClause t rest).2 with hc | ⟨c, hc, hk⟩
      · exact ⟨[_], [], by rw [hc]; rfl, Or.inr (Or.inr ⟨t, rest, rfl⟩), List.forall_mem_nil _⟩
      · exact ⟨[_], [c], by rw [hc]; rfl, Or.inr (Or.inr ⟨t, rest, rfl⟩), by simpa using hk⟩
    by_cases hs : t.kind = .semicolon
    · rw [body_of_semicolon rest hs]
      exact ⟨[], [t], rfl, Or.inl rfl, by simpa using hs⟩
    · rw [body_of_ne rest hb ha hs]
      exact ⟨[], [], rfl, Or.inl rfl, List.forall_mem_nil _⟩

/-- The parts of an accessor: attributes and modifiers, its first token, its body, and a
semicolon. -/
structure AccessorParts (a : Tree) where
  lead : List Tree
  first : List Token
  main : List Tree
  close : List Token
  node_eq : a = node .accessorDeclaration (lead ++ (first.map leaf ++ (main ++ close.map leaf)))
  isLead : IsLead lead
  first_le : first.length ≤ 1
  isBody : IsBody main
  semicolons : ∀ c ∈ close, c.kind = .semicolon

theorem exists_accessorParts (t : Token) (rest : List Token) :
    Nonempty (AccessorParts (accessor t rest).1) := by
  obtain ⟨mods, after, -, hleading, -⟩ := exists_leading (t :: rest)
  have hlead : IsLead ((attributes (t :: rest)).1 ++ modifierList mods) :=
    isLead_of_attributes mods fun c hc => isOf_of_mem_attributes hc
  obtain ⟨main, close, hbody, hmain, hclose⟩ := body_cases (optional .ident after).2
  have hfirst : ∃ first : List Token, (optional .ident after).1 = first.map leaf ∧
      first.length ≤ 1 := by
    rcases optional_cases .ident after with h | ⟨c, h, -⟩
    · exact ⟨[], h, Nat.zero_le _⟩
    · exact ⟨[c], h, Nat.le_refl _⟩
  obtain ⟨first, hopt, hle⟩ := hfirst
  unfold accessor
  rw [hleading]
  dsimp only
  split
  · -- nothing is read, and the accessor is a single token
    exact ⟨⟨[], [t], [], [], rfl, List.forall_mem_nil _, Nat.le_refl _, Or.inl rfl,
      List.forall_mem_nil _⟩⟩
  · exact ⟨{
      lead := _, first := first, main := main, close := close
      node_eq := by rw [hopt, hbody, List.append_assoc]
      isLead := hlead, first_le := hle, isBody := hmain, semicolons := hclose }⟩

theorem find?_map_leaf (k : NodeKind) (ts : List Token) : (ts.map leaf).find? (isOf k) = none := by
  refine List.find?_eq_none.2 fun c hc => ?_
  obtain ⟨t, -, rfl⟩ := List.mem_map.1 hc
  exact Bool.false_ne_true

theorem filter_map_leaf (ts : List Token) : (ts.map leaf).filter isNode = [] := by
  refine List.filter_eq_nil_iff.2 fun c hc => ?_
  obtain ⟨t, -, rfl⟩ := List.mem_map.1 hc
  exact Bool.false_ne_true

theorem filterMap_token?_map_leaf (ts : List Token) : (ts.map leaf).filterMap token? = ts := by
  rw [List.filterMap_map, show token? ∘ leaf = some from rfl, List.filterMap_some]

/-- The nodes between two brackets, of which the second may be missing. -/
theorem childNodes_enclosed (kind : NodeKind) (t : Token) (inner : List Tree) (k : TokenKind)
    (ts : List Token) :
    (node kind (leaf t :: inner ++ (optional k ts).1)).childNodes = inner.filter isNode := by
  have hclose : (optional k ts).1.filter isNode = [] := by
    rcases optional_cases k ts with hc | ⟨c, hc, -⟩ <;> rw [hc] <;> rfl
  have hopen : ¬ (leaf t).isNode = true := Bool.false_ne_true
  rw [childNodes, children, List.cons_append, List.filter_cons_of_neg hopen, List.filter_append,
    hclose, List.append_nil]

theorem mem_statements_of_mem_block {t : Token} {rest : List Token} {s : Tree}
    (h : s ∈ (block t rest).1.childNodes) : s ∈ (statements rest).1 := by
  rw [show (block t rest).1.childNodes = (statements rest).1.filter isNode from
    childNodes_enclosed ..] at h
  exact List.mem_of_mem_filter h

theorem childNodes_accessorList (t : Token) (rest : List Token) :
    (accessorList t rest).1.childNodes = (accessors rest).1 :=
  (childNodes_enclosed ..).trans
    (List.filter_eq_self.2 fun _ ha => isNode_of_mem_accessors ha)

theorem IsBody.isNode {main : List Tree} (h : IsBody main) : ∀ c ∈ main, c.isNode = true := by
  rcases h with rfl | ⟨t, rest, rfl⟩ | ⟨t, rest, rfl⟩
  · exact List.forall_mem_nil _
  · exact List.forall_mem_singleton.2 rfl
  · exact List.forall_mem_singleton.2 rfl

namespace AccessorParts

open Token Backing

variable {a : Tree}

theorem childNode?_eq (p : AccessorParts a) {k : NodeKind} (ha : k ≠ .attributeList)
    (hm : k ≠ .modifierList) : a.childNode? k = p.main.find? (isOf k) := by
  conv_lhs => rw [p.node_eq]
  rw [p.isLead.childNode? _ _ ha hm, Tree.childNode?, children, List.find?_append,
    List.find?_append, find?_map_leaf, find?_map_leaf, Option.none_or, Option.or_none]

theorem childTokens_eq (p : AccessorParts a) : a.childTokens = p.first ++ p.close := by
  conv_lhs => rw [p.node_eq]
  rw [p.isLead.childTokens, Tree.childTokens, children, List.filterMap_append,
    List.filterMap_append, filterMap_token?_map_leaf, filterMap_token?_map_leaf,
    filterMap_token?_eq_nil p.isBody.isNode, List.nil_append]

theorem sites_eq (p : AccessorParts a) : sites a = p.main.flatMap sitesOf := by
  have hlead : (p.lead.filter isNode).flatMap sitesOf = [] := by
    refine List.flatMap_eq_nil_iff.2 fun c hc => ?_
    unfold sitesOf isOf
    rcases p.isLead c (List.mem_of_mem_filter hc) with h | h <;> rw [h] <;> rfl
  conv_lhs => rw [sites, childNodes, p.node_eq]
  rw [children, List.filter_append, List.filter_append, List.filter_append, filter_map_leaf,
    filter_map_leaf, List.filter_eq_self.2 p.isBody.isNode, List.nil_append, List.append_nil,
    List.flatMap_append, hlead, List.nil_append]

/-- Only the first token of an accessor can be its keyword. -/
theorem hasKeyword_eq (p : AccessorParts a) (w : String) :
    (a.isOf .accessorDeclaration && (a.childToken? .ident).any fun t => t.text = w.toList) =
      a.hasKeyword w := by
  have hof : a.isOf .accessorDeclaration = true := by
    rw [p.node_eq]
    rfl
  have hclose : ∀ c ∈ p.close, c.kind ≠ .ident := fun c hc h => by
    rw [p.semicolons c hc] at h
    cases h
  have hnone : p.close.find? (·.kind = .ident) = none := by
    simpa using hclose
  have hno : (p.close.any fun t => t.bare = Grammar.word w) = false := by
    rw [List.any_eq_false]
    intro c hc h
    exact hclose c hc (congrArg Prod.fst (of_decide_eq_true h))
  -- what is left to compare is the first token, if there is one
  rw [hof, Bool.true_and, childToken?, hasKeyword, p.childTokens_eq, List.find?_append, hnone,
    Option.or_none, List.any_append, hno, Bool.or_false]
  rcases hfirst : p.first with _ | ⟨t, _ | ⟨u, us⟩⟩
  · rfl
  · by_cases ht : t.kind = .ident <;> simp [ht, Token.bare, Grammar.word]
  · have hle := p.first_le
    rw [hfirst] at hle
    exact absurd hle (by simp)

/-- Statements that are no expressions add nothing. -/
theorem findSome?_statements (ss : List Tree) :
    (ss.map Statement.ofTree).findSome? ofStatement? =
      (ss.filter (isOf .expressionStatement)).findSome? fun s => ofStatement? (.ofTree s) := by
  induction ss with
  | nil => rfl
  | cons s ss ih =>
    rw [List.map_cons, List.findSome?_cons]
    cases hs : s.isOf .expressionStatement with
    | true => rw [List.filter_cons_of_pos hs, List.findSome?_cons, ih]
    | false =>
      have hother : ofStatement? (.ofTree s) = none := by
        rw [Statement.ofTree, hs, if_neg Bool.false_ne_true]
        rfl
      rw [hother, List.filter_cons_of_neg (by rw [hs]; decide), ih]

/-- The search for a backing field goes through the sites of the accessor. -/
theorem exists_search (p : AccessorParts a) (kind : AccessorKind)
    (hs : ∀ t ∈ a.leaves, t.Spelled) :
    ∃ search : Tree → Option Text,
      (Accessor.mk kind a).statements.findSome? ofStatement? = (sites a).findSome? search ∧
      ∀ s ∈ sites a, ∀ x, search s = some x ↔ AddsValue x s.lexemes := by
  have hspelled : ∀ s ∈ sites a, ∀ t ∈ s.leaves, t.Spelled := fun s hmem t ht =>
    hs t (mem_leaves_of_mem_sites hmem ht)
  have hblock := p.childNode?_eq (show NodeKind.block ≠ _ by decide) (by decide)
  have harrow := p.childNode?_eq (show NodeKind.arrowExpressionClause ≠ _ by decide) (by decide)
  rw [p.sites_eq] at hspelled ⊢
  unfold Accessor.statements
  rw [hblock, harrow]
  rcases p.isBody with hmain | ⟨t, rest, hmain⟩ | ⟨t, rest, hmain⟩ <;> rw [hmain] at hspelled ⊢
  · exact ⟨fun _ => none, rfl, fun s hs => absurd hs List.not_mem_nil⟩
  · -- the statements of the block
    rw [List.flatMap_singleton] at hspelled ⊢
    refine ⟨fun s => ofStatement? (.ofTree s), findSome?_statements _, fun s hmem x => ?_⟩
    obtain ⟨hchild, hk⟩ := List.mem_filter.1 hmem
    exact ofStatement?_statement x (mem_statements_of_mem_block hchild) hk (hspelled s hmem)
  · -- the one expression behind the arrow
    have hnodes : (arrowClause t rest).1.childNodes = (assignment rest).1 :=
      List.filter_eq_self.2 fun e he => isNode_of_mem_assignment he
    have hsites : [(arrowClause t rest).1].flatMap sitesOf = (assignment rest).1 :=
      (List.flatMap_singleton ..).trans hnodes
    rw [hsites] at hspelled ⊢
    refine ⟨fun e => ofStatement? (.ofExpression e), ?_, fun e he x => ?_⟩
    · show (((arrowClause t rest).1.childNodes.take 1).map Statement.ofExpression).findSome? _ = _
      rw [hnodes]
      rcases assignment_eq rest with h | ⟨k, cs, h⟩ <;> rw [h] <;> rfl
    · obtain ⟨hadds, hfound⟩ := ofStatement?_expression x he (hspelled e he)
      exact ⟨fun h => (hadds h).addsValue, hfound⟩

end AccessorParts

/-! ## 2. Events -/

theorem exists_of_mem_accessors {ts : List Token} {a : Tree} (h : a ∈ (accessors ts).1) :
    Nonempty (AccessorParts a) := by
  obtain ⟨t, rest, rfl⟩ := exists_accessor h
  exact exists_accessorParts t rest

/-- What an event with accessors is made of, from its keyword on. -/
theorem event_accessorList {lead parts : List Tree} {keyword : Token} {ts after : List Token}
    (h : event lead keyword ts = (node .eventDeclaration (lead ++ leaf keyword :: parts), after)) :
    ∃ type qualifier name inner,
      parts = type :: (qualifier ++ [leaf name, node .accessorList inner]) ∧
      type.isTypeNode = true ∧
      (qualifier = [] ∨ ∃ cs, qualifier = [node .explicitInterfaceSpecifier cs]) ∧
      name.kind = .ident ∧
      ∃ opening rest, (accessorList opening rest).1 = node .accessorList inner := by
  rw [event_eq] at h
  split at h
  · cases (Tree.node.inj (Prod.mk.inj h).1).1
  · rename_i type rest hty
    split at h
    · -- the only branch that makes this kind of node
      rename_i name opening after' hhead
      have hparts := (Tree.node.inj (Prod.mk.inj h).1).2
      rw [List.append_assoc, List.cons_append, List.cons_append] at hparts
      refine ⟨type, qualifier (qualifierExtent rest) rest, name, _,
        (List.cons.inj (List.append_cancel_left hparts)).2.symm, isTypeNode_typeName? hty, ?_,
        (Tree.accessorHead?_eq_some.1 hhead).2.1, opening, after', rfl⟩
      unfold qualifier
      split
      · exact Or.inl rfl
      · exact Or.inr ⟨_, rfl⟩
    · unfold fieldEvent at h
      dsimp only at h
      split at h <;> cases (Tree.node.inj (Prod.mk.inj h).1).1

section

variable {lead q cs inner : List Tree} {keyword name : Token} {k : NodeKind}

theorem filter_accessorList (hlead : IsLead lead) (hk : k.isType = true)
    (hq : q = [] ∨ ∃ ds, q = [node .explicitInterfaceSpecifier ds]) :
    (lead ++ leaf keyword :: node k cs :: (q ++ [leaf name, node .accessorList inner])).filter
      (isOf .accessorList) = [node .accessorList inner] := by
  have hne : k ≠ .accessorList := by
    rintro rfl
    cases hk
  have hnone : lead.filter (isOf .accessorList) = [] := by
    refine List.filter_eq_nil_iff.2 fun c hc => ?_
    rcases hlead c hc with h | h <;> rw [isOf, h] <;> decide
  rw [List.filter_append, hnone]
  rcases hq with rfl | ⟨ds, rfl⟩ <;> simp [isOf, nodeKind?, hne]

end

/-- The parts of an event with accessors: attributes and modifiers, its keyword, its type, a
qualifier if there is one, its name and the list of its accessors. -/
structure AccessorMember (n : Tree) where
  lead : List Tree
  keyword : Token
  typeKind : NodeKind
  typeParts : List Tree
  qualifier : List Tree
  name : Token
  inner : List Tree
  node_eq : n = node .eventDeclaration (lead ++ leaf keyword :: node typeKind typeParts ::
    (qualifier ++ [leaf name, node .accessorList inner]))
  isLead : IsLead lead
  isKeyword : keyword.kind = .keyword .eventKw
  isType : typeKind.isType = true
  isQualifier : qualifier = [] ∨ ∃ cs, qualifier = [node .explicitInterfaceSpecifier cs]
  isName : name.kind = .ident
  isList : ∃ opening rest, (accessorList opening rest).1 = node .accessorList inner

theorem exists_accessorMember {ts : List Token} {n : Tree} (hn : n ∈ (ofTokens ts).preorder)
    (hk : n.isOf .eventDeclaration = true) : Nonempty (AccessorMember n) := by
  obtain ⟨before, behind, -, ⟨p⟩⟩ := exists_place hn (by rw [of_decide_eq_true hk]; rfl)
  have hevent := p.children ((attributes p.member).1 ++ modifierList p.mods)
  rw [p.kind_eq hk] at hevent
  obtain ⟨type, q, name, inner, hparts, htype, hq, hname, hlist⟩ := event_accessorList hevent
  have heq := p.node_eq
  rw [p.kind_eq hk, hparts] at heq
  cases type with
  | leaf t => cases htype
  | node k cs =>
    exact ⟨⟨_, _, k, cs, q, name, inner, heq, p.isLead, p.isKeyword, htype, hq, hname, hlist⟩⟩

/-- Every event with accessors is read, and it has one list of them. -/
theorem exists_accessorEvent {ts : List Token} {n : Tree} (hn : n ∈ (ofTokens ts).preorder)
    (hk : n.isOf .eventDeclaration = true) :
    ∃ e list, Event.ofTree? n = some e ∧ n.children.filter (isOf .accessorList) = [list] ∧
      e.shape = .accessorLike (Event.accessorOf? list .add) (Event.accessorOf? list .remove) ∧
      ∀ a ∈ list.childNodes, Nonempty (AccessorParts a) := by
  obtain ⟨p⟩ := exists_accessorMember hn hk
  obtain ⟨opening, rest, hlist⟩ := p.isList
  rw [p.node_eq]
  refine ⟨_, _, ofTree?_accessors p.isLead p.isKeyword p.isType p.isQualifier p.isName,
    filter_accessorList p.isLead p.isType p.isQualifier, rfl, fun a ha => ?_⟩
  rw [← hlist, childNodes_accessorList] at ha
  exact exists_of_mem_accessors ha

end Tree

namespace Backing

open Tree Token

/-! ## 3. The search -/

/-- The first element of a list with a property. -/
def First {α : Type} (p : α → Prop) (xs : List α) (x : α) : Prop :=
  ∃ before after, xs = before ++ x :: after ∧ p x ∧ ∀ y ∈ before, ¬ p y

theorem First.mem {α : Type} {p : α → Prop} {xs : List α} {x : α} (h : First p xs x) : x ∈ xs := by
  obtain ⟨before, after, rfl, -⟩ := h
  exact List.mem_append_right before List.mem_cons_self

theorem first_of_find? {α : Type} {p : α → Bool} {xs : List α} {x : α} :
    xs.find? p = some x ↔ First (p · = true) xs x := by
  rw [List.find?_eq_some_iff_append]
  constructor
  · rintro ⟨hx, before, after, rfl, hbefore⟩
    exact ⟨before, after, rfl, hx, by simpa using hbefore⟩
  · rintro ⟨before, after, rfl, hx, hbefore⟩
    exact ⟨hx, before, after, rfl, by simpa using hbefore⟩

section

variable {α β : Type} {search : α → Option β} {P : β → α → Prop} {xs : List α}

theorem search_eq_none (h : ∀ s ∈ xs, ∀ x, search s = some x ↔ P x s) {s : α} (hs : s ∈ xs) :
    search s = none ↔ ∀ x, ¬ P x s := by
  rw [Option.eq_none_iff_forall_ne_some]
  exact forall_congr' fun x => not_congr (h s hs x)

/-- A search stops at the first element that gives a result. -/
theorem first_of_findSome? (h : ∀ s ∈ xs, ∀ x, search s = some x ↔ P x s) {x : β} :
    xs.findSome? search = some x ↔ ∃ s, First (fun s => ∃ y, P y s) xs s ∧ P x s := by
  rw [List.findSome?_eq_some_iff]
  constructor
  · rintro ⟨before, s, after, rfl, hs, hbefore⟩
    have hp : P x s := (h s (by simp) x).1 hs
    have hskip : ∀ r ∈ before, ¬ ∃ y, P y r := fun r hr =>
      not_exists.2 ((search_eq_none h (List.mem_append_left _ hr)).1 (hbefore r hr))
    exact ⟨s, ⟨before, after, rfl, ⟨x, hp⟩, hskip⟩, hp⟩
  · rintro ⟨s, ⟨before, after, rfl, -, hskip⟩, hp⟩
    have hbefore : ∀ r ∈ before, search r = none := fun r hr =>
      (search_eq_none h (List.mem_append_left _ hr)).2 (not_exists.1 (hskip r hr))
    exact ⟨before, s, after, rfl, (h s (by simp) x).2 hp, hbefore⟩

theorem findSome?_eq_none (h : ∀ s ∈ xs, ∀ x, search s = some x ↔ P x s) :
    xs.findSome? search = none ↔ ∀ s ∈ xs, ∀ x, ¬ P x s := by
  rw [List.findSome?_eq_none_iff]
  exact forall₂_congr fun s hs => search_eq_none h hs

end

/-- How the backing field of an event comes from the tokens of its accessors. -/
structure Resolves (e : Event) (accessors : List Tree) : Prop where
  missing : e.backing = .error (.missingAddAccessor e.name) ↔
    ∀ a ∈ accessors, a.hasKeyword "add" = false
  /-- Of the first `add` accessor, the first statement that adds the value names the field. -/
  found : ∀ x, e.backing = .ok x ↔ ∃ add, First (hasKeyword "add" · = true) accessors add ∧
    ∃ s, First (fun s => ∃ y, AddsValue y s.lexemes) (sites add) s ∧ AddsValue x s.lexemes
  unassigned : e.backing = .error (.noBackingAssignment e.name) ↔
    ∃ add, First (hasKeyword "add" · = true) accessors add ∧
      ∀ s ∈ sites add, ∀ x, ¬ AddsValue x s.lexemes

theorem accessorOf?_eq {list : Tree} (h : ∀ a ∈ list.childNodes, Nonempty (AccessorParts a))
    (kind : AccessorKind) :
    Event.accessorOf? list kind =
      (list.childNodes.find? (hasKeyword kind.keyword)).map (⟨kind, ·⟩) := by
  have hcongr : ∀ a ∈ list.childNodes, (a.isOf .accessorDeclaration &&
      (a.childToken? .ident).any fun t => t.text = kind.keyword.toList) =
        a.hasKeyword kind.keyword := fun a ha =>
    (h a ha).elim fun p => p.hasKeyword_eq _
  rw [Event.accessorOf?, ← List.head?_filter, List.filter_congr hcongr, List.head?_filter]

section

variable {e : Event} {list : Tree} {remove : Option Accessor}

theorem backing_of_add {add : Accessor} (h : e.shape = .accessorLike (some add) remove) :
    e.backing = (add.statements.findSome? ofStatement?).elim
      (.error (.noBackingAssignment e.name)) .ok := by
  cases hfind : add.statements.findSome? ofStatement? <;> simp [Event.backing, h, hfind]

/-- Without an `add` accessor there is nothing to look at. -/
theorem resolves_of_missing (hshape : e.shape = .accessorLike none remove)
    (h : list.childNodes.find? (hasKeyword "add") = none) : Resolves e list.childNodes := by
  have hback : e.backing = .error (.missingAddAccessor e.name) := by
    rw [Event.backing, hshape]
  have hno : ∀ a ∈ list.childNodes, a.hasKeyword "add" = false := by
    simpa using h
  have hfirst : ∀ add, ¬ First (hasKeyword "add" · = true) list.childNodes add := by
    intro add hadd
    rw [first_of_find?.2 hadd] at h
    cases h
  constructor
  · exact ⟨fun _ => hno, fun _ => hback⟩
  · intro x
    rw [hback]
    exact ⟨fun h => (by cases h), fun ⟨add, h, _⟩ => absurd h (hfirst add)⟩
  · rw [hback]
    exact ⟨fun h => (by cases h), fun ⟨add, h, _⟩ => absurd h (hfirst add)⟩

/-- With an `add` accessor the sites of the first one are searched. -/
theorem resolves_of_search {add : Tree} {search : Tree → Option Text}
    (hshape : e.shape = .accessorLike (some ⟨.add, add⟩) remove)
    (h : list.childNodes.find? (hasKeyword "add") = some add)
    (hsearch : (Accessor.mk .add add).statements.findSome? ofStatement? =
      (sites add).findSome? search)
    (hsite : ∀ s ∈ sites add, ∀ x, search s = some x ↔ AddsValue x s.lexemes) :
    Resolves e list.childNodes := by
  have hback : e.backing =
      ((sites add).findSome? search).elim (.error (.noBackingAssignment e.name)) .ok := by
    rw [backing_of_add hshape, hsearch]
  -- the accessor is determined, so that what holds of the first one holds of this one
  have hfirst := first_of_find?.1 h
  have honly : ∀ Q : Tree → Prop,
      (∃ a, First (hasKeyword "add" · = true) list.childNodes a ∧ Q a) ↔ Q add := by
    intro Q
    constructor
    · rintro ⟨a, ha, hQ⟩
      rwa [← Option.some.inj ((first_of_find?.2 ha).symm.trans h)]
    · exact fun hQ => ⟨add, hfirst, hQ⟩
  constructor
  · -- there is an accessor, so none is missing
    constructor
    · intro hmissing
      rw [hback] at hmissing
      cases hfind : (sites add).findSome? search <;> rw [hfind] at hmissing <;> cases hmissing
    · intro hno
      have hadd := List.find?_some h
      rw [hno add hfirst.mem] at hadd
      cases hadd
  · intro x
    rw [honly, ← first_of_findSome? hsite, hback]
    cases (sites add).findSome? search <;> simp
  · rw [honly, ← findSome?_eq_none hsite, hback]
    cases (sites add).findSome? search <;> simp

end

theorem resolves_of_shape {e : Event} {list : Tree} {remove : Option Accessor}
    (hshape : e.shape = .accessorLike (Event.accessorOf? list .add) remove)
    (hparts : ∀ a ∈ list.childNodes, Nonempty (AccessorParts a))
    (hs : ∀ t ∈ list.leaves, t.Spelled) : Resolves e list.childNodes := by
  rw [accessorOf?_eq hparts, show AccessorKind.add.keyword = "add" from rfl] at hshape
  cases hfind : list.childNodes.find? (hasKeyword "add") with
  | none =>
    rw [hfind] at hshape
    exact resolves_of_missing hshape hfind
  | some add =>
    rw [hfind] at hshape
    have hmem := List.mem_of_find?_eq_some hfind
    obtain ⟨p⟩ := hparts add hmem
    obtain ⟨search, hsearch, hsite⟩ := p.exists_search .add fun t ht =>
      hs t (mem_leaves_of_mem_children (List.mem_of_mem_filter hmem) ht)
    exact resolves_of_search hshape hfind hsearch hsite

end Backing

namespace Document

open Tree Backing

/-- In every text, the backing field of an event with accessors is what its tokens say. -/
theorem backing_ofText {text : Text} {n : Tree} (hn : n ∈ (ofText text).root.preorder)
    (hk : n.isOf .eventDeclaration = true) :
    ∃ e list, Event.ofTree? n = some e ∧ n.children.filter (isOf .accessorList) = [list] ∧
      Resolves e list.childNodes := by
  obtain ⟨e, list, he, hlist, hshape, hparts⟩ := exists_accessorEvent hn hk
  have hmem : list ∈ n.children := by
    have hself : list ∈ n.children.filter (isOf .accessorList) := by
      rw [hlist]
      exact List.mem_singleton_self list
    exact List.mem_of_mem_filter hself
  have hspelled : ∀ t ∈ list.leaves, t.Spelled := fun t ht =>
    Token.spelled_of_mem_scan (mem_scan_of_mem_leaves hn (mem_leaves_of_mem_children hmem ht))
  exact ⟨e, list, he, hlist, resolves_of_shape hshape hparts hspelled⟩

/-- An `add` accessor behind a `remove` accessor, with another operand, an inner block, a condition
and a longer chain in front of the statement that counts, and another one behind it. -/
theorem backing_ofText_first :
    let d := ofText ("class C \x7b event A E \x7b remove \x7b no += value; \x7d " ++
      "add \x7b log += other; \x7b no += value; \x7d if (b) \x7b no += value; \x7d " ++
      "this.a.b += value; this.first += value; second += value; \x7d \x7d \x7d").toList
    ∃ n ∈ d.root.preorder, n.isOf .eventDeclaration = true ∧
      ∃ e list, Event.ofTree? n = some e ∧ n.children.filter (isOf .accessorList) = [list] ∧
        Resolves e list.childNodes ∧ e.backing = .ok "first".toList := by
  intro d
  have hfound : ((d.root.preorder.find? (isOf .eventDeclaration)).bind Event.ofTree?).any
      (fun e => e.backing = .ok "first".toList) = true := by
    decide +kernel
  obtain ⟨e, he, hback⟩ := (Option.any_eq_true _ _).1 hfound
  obtain ⟨n, hn, he⟩ := Option.bind_eq_some_iff.1 he
  have hk := List.find?_some hn
  have hmem := List.mem_of_find?_eq_some hn
  obtain ⟨e', list, he', hlist, hresolves⟩ := backing_ofText hmem hk
  obtain rfl := Option.some.inj (he.symm.trans he')
  exact ⟨n, hmem, hk, e, list, he, hlist, hresolves, of_decide_eq_true hback⟩

end Document

end EventLint
