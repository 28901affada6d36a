import EventLint.Proofs.BackingField
import EventLint.Proofs.RaiseText

/-!
# Where the name of an event stands

An event is read from its member by looking for the first child of each kind. Main statement: in
every text this finds the name where it belongs. For an event with accessors it is the identifier in
front of them, whatever qualifies it, and for one declared like a field it is the identifier behind
the type; without one the member declares no event. No event stands inside another.
-/

namespace EventLint

namespace Tree

open Token Grammar

/-! ## 1. Events with accessors -/

/-- The identifier `name` stands right in front of the only list of accessors of `n`, and in no
qualifier. -/
structure NamesAccessors (n : Tree) (name : Token) : Prop where
  isName : name.kind = .ident
  place : ∃ front list, n.children = front ++ [leaf name, list] ∧
    n.children.filter (isOf .accessorList) = [list]
  unqualified : ∀ q ∈ n.preorder, q.isOf .explicitInterfaceSpecifier = true → name ∉ q.leaves

/-- A token between other children occurs in none of them. -/
theorem not_mem_leaves_of_nodup {k j : NodeKind} {front back : List Tree} {t : Token} {q : Tree}
    (hnodup : (node k (front ++ leaf t :: back)).leaves.Nodup)
    (hq : q ∈ (node k (front ++ leaf t :: back)).preorder) (hj : q.isOf j = true) (hne : k ≠ j) :
    t ∉ q.leaves := by
  intro ht
  rw [leaves, leavesAll_append, leavesAll, leaves, List.singleton_append] at hnodup
  obtain ⟨-, hback, hfront⟩ := List.nodup_append.1 hnodup
  rcases List.mem_cons.1 hq with rfl | hq
  · exact hne (Option.some.inj (of_decide_eq_true hj))
  · -- the child that `q` is in holds `t` too, and stands in front of it or behind it
    obtain ⟨c, hc, hq⟩ := exists_of_mem_preorderAll hq
    have htc : t ∈ c.leaves := by
      obtain ⟨a, b, hab⟩ := leaves_infix c hq
      rw [hab]
      exact List.mem_append_left b (List.mem_append_right a ht)
    rcases List.mem_append.1 hc with hc | hc
    · exact hfront t (leaves_subset_leavesAll hc htc) t List.mem_cons_self rfl
    · rcases List.mem_cons.1 hc with rfl | hc
      · cases hq
      · exact (List.nodup_cons.1 hback).1 (leaves_subset_leavesAll hc htc)

theorem AccessorMember.namesAccessors {n : Tree} (p : AccessorMember n) (hnodup : n.leaves.Nodup) :
    NamesAccessors n p.name := by
  have heq : n = node .eventDeclaration
      ((p.lead ++ leaf p.keyword :: node p.typeKind p.typeParts :: p.qualifier) ++
        leaf p.name :: [node .accessorList p.inner]) := by
    conv_lhs => rw [p.node_eq]
    simp
  refine ⟨p.isName, ⟨_, node .accessorList p.inner, congrArg children heq, ?_⟩, fun q hq hk => ?_⟩
  · rw [congrArg children p.node_eq]
    exact filter_accessorList p.isLead p.isType p.isQualifier
  · rw [heq] at hnodup hq
    exact not_mem_leaves_of_nodup hnodup hq hk (by decide)

theorem AccessorMember.exists_event {n : Tree} (p : AccessorMember n) :
    ∃ e, Event.ofTree? n = some e ∧ e.nameToken = p.name := by
  rw [congrArg Event.ofTree? p.node_eq]
  exact ⟨_, ofTree?_accessors p.isLead p.isKeyword p.isType p.isQualifier p.isName, rfl⟩

/-! ## 2. Events declared like fields -/

/-- The type that the names of the member are declared with. -/
def fieldType? (n : Tree) : Option Tree :=
  (n.childNode? .variableDeclaration).bind fun declaration => declaration.children.head?

/-- Among the tokens, what stands right behind the type of the member decides: an identifier is the
name of the event, and without one there is no event. -/
def NamedBehindType (ts : List Token) (n : Tree) : Prop :=
  ∃ type before after, n.fieldType? = some type ∧ type.isTypeNode = true ∧
    ts = before ++ (type.leaves ++ after) ∧
    (Event.ofTree? n).map Event.nameToken = after.head?.filter (·.kind = .ident)

/-- An event declared like a field, from its keyword on. -/
theorem event_variableDeclaration {lead parts : List Tree} {keyword : Token} {ts after : List Token}
    (h : event lead keyword ts =
      (node .eventFieldDeclaration (lead ++ leaf keyword :: parts), after)) :
    ∃ type rest close, typeName? ts = some (type, rest) ∧
      parts = node .variableDeclaration (type :: (declarators rest).1) :: close := by
  rw [event_eq] at h
  split at h
  · cases (Tree.node.inj (Prod.mk.inj h).1).1
  · rename_i type rest htype
    split at h
    · cases (Tree.node.inj (Prod.mk.inj h).1).1
    · rw [fieldEvent_eq] at h
      have hparts := List.append_cancel_left (Tree.node.inj (Prod.mk.inj h).1).2
      exact ⟨type, rest, _, htype, (List.cons.inj hparts).2.symm⟩

theorem declarator_eq (name : Token) (ts : List Token) :
    ∃ cs, (declarator name ts).1 = node .variableDeclarator (leaf name :: cs) := by
  unfold declarator
  split
  · exact ⟨_, rfl⟩
  · split <;> exact ⟨_, rfl⟩

/-- The first of the declared names is the first token, if that is an identifier. -/
theorem name_declarators (ts : List Token) :
    ((((declarators ts).1.filter isNode).filter (isOf .variableDeclarator)).head?.bind fun first =>
      first.childToken? .ident) = ts.head?.filter (·.kind = .ident) := by
  cases ts with
  | nil =>
    rw [declarators]
    rfl
  | cons t rest =>
    by_cases ht : t.kind = .ident
    · obtain ⟨cs, hcs⟩ := declarator_eq t rest
      -- the first declarator starts with the first token
      have hname : ∃ more, (declarators (t :: rest)).1 =
          node .variableDeclarator (leaf t :: cs) :: more := by
        rw [declarators_of_ident rest ht, hcs]
        split
        · exact ⟨_, rfl⟩
        · split <;> exact ⟨_, rfl⟩
      obtain ⟨more, hmore⟩ := hname
      rw [hmore, List.filter_cons_of_pos rfl, List.filter_cons_of_pos rfl, List.head?_cons,
        Option.bind_some, childToken?_cons ht, List.head?_cons, Option.filter_some,
        if_pos (decide_eq_true ht)]
    · rw [declarators_of_ne rest ht, List.head?_cons, Option.filter_some,
        if_neg (by rw [decide_eq_true_eq]; exact ht)]
      rfl

theorem nameToken_fields {lead close : List Tree} {keyword : Token} {type : Tree}
    (hlead : IsLead lead) (htype : type.isTypeNode = true) (ts : List Token) :
    (Event.ofTree? (node .eventFieldDeclaration (lead ++ leaf keyword ::
        node .variableDeclaration (type :: (declarators ts).1) :: close))).map Event.nameToken =
      ts.head?.filter (·.kind = .ident) := by
  let declaration := node .variableDeclaration (type :: (declarators ts).1)
  let n := node .eventFieldDeclaration (lead ++ leaf keyword :: declaration :: close)
  have hdeclaration : n.childNode? .variableDeclaration = some declaration :=
    hlead.childNode? _ _ (by decide) (by decide)
  have htypeOf : Event.typeOf? declaration = some type := typeOf?_cons htype _ _
  have hnames : declaration.childNodes.filter (isOf .variableDeclarator) =
      ((declarators ts).1.filter isNode).filter (isOf .variableDeclarator) := by
    rw [childNodes, children, List.filter_cons_of_pos (isNode_of_isTypeNode htype),
      List.filter_cons_of_neg (by rw [isOf_of_isTypeNode htype rfl]; exact Bool.false_ne_true)]
  show (Event.ofField? n).map Event.nameToken = _
  rw [← name_declarators]
  simp only [Event.ofField?, Option.bind_eq_bind, hdeclaration, Option.bind_some, htypeOf, hnames,
    Option.map_bind, Function.comp_def, Option.pure_def, Option.map_some, Option.bind_fun_some]

theorem namedBehindType_ofTokens {ts : List Token} {n : Tree} (hn : n ∈ (ofTokens ts).preorder)
    (hk : n.isOf .eventFieldDeclaration = true) : NamedBehindType ts n := by
  -- the place of the member gives the call that read it, from which its children follow
  obtain ⟨before, behind, -, ⟨p⟩⟩ := exists_place hn (by rw [of_decide_eq_true hk]; rfl)
  have hevent := p.children ((attributes p.member).1 ++ modifierList p.mods)
  rw [p.kind_eq hk] at hevent
  obtain ⟨type, rest, close, htype, hparts⟩ := event_variableDeclaration hevent
  have heq := p.node_eq
  rw [p.kind_eq hk, hparts] at heq
  refine ⟨type, p.toKeyword ++ [p.keyword], rest, ?_, isTypeNode_typeName? htype, ?_, ?_⟩
  · rw [heq, fieldType?, p.isLead.childNode? _ _ (by decide) (by decide)]
    rfl
  · have hread := (reads_typeName? htype).leaves
    rw [leavesAll, leavesAll, List.append_nil] at hread
    rw [hread, List.append_assoc, List.singleton_append]
    exact p.tokens_eq
  · rw [heq]
    exact nameToken_fields p.isLead (isTypeNode_typeName? htype) rest

end Tree

namespace Document

open Tree

/-- In every text the name of an event stands in front of its accessors or behind its type, and no
event stands inside another. -/
theorem ofText_namesEvents {text : Text} {n : Tree} (hn : n ∈ (ofText text).root.preorder) :
    (n.isOf .eventDeclaration = true →
      ∃ e, Event.ofTree? n = some e ∧ NamesAccessors n e.nameToken) ∧
    (n.isOf .eventFieldDeclaration = true → NamedBehindType (Token.scan text) n) ∧
    (n.nodeKind?.any NodeKind.isEvent = true →
      ∀ m ∈ preorderAll n.children, m.nodeKind?.any NodeKind.isEvent = false) := by
  refine ⟨fun hk => ?_, namedBehindType_ofTokens hn, fun hk m hm => ?_⟩
  · obtain ⟨p⟩ := exists_accessorMember hn hk
    obtain ⟨e, he, hname⟩ := p.exists_event
    refine ⟨e, he, ?_⟩
    rw [hname]
    exact p.namesAccessors (inOrder_of_mem hn).nodup
  · cases n with
    | leaf t => cases hk
    | node k cs => exact not_isEvent_of_mem hn hk rfl hm

/-- A qualified event with accessors, and a member with a type but no name. -/
theorem ofText_namesEvents_qualified :
    let text := ("class C \x7b [A] virtual event X.Y<Z> I.J.Changed \x7b add => f(); \x7d " ++
      "event (T a, U b)? = 1; \x7d").toList
    (∃ n ∈ (ofText text).root.preorder, n.isOf .eventDeclaration = true ∧
      (∃ e, Event.ofTree? n = some e ∧ e.name = "Changed".toList ∧
        NamesAccessors n e.nameToken) ∧
      ∀ m ∈ preorderAll n.children, m.nodeKind?.any NodeKind.isEvent = false) ∧
    ∃ n ∈ (ofText text).root.preorder, n.isOf .eventFieldDeclaration = true ∧
      (Event.ofTree? n).isNone = true ∧ NamedBehindType (Token.scan text) n := by
  intro text
  have haccessors : ((ofText text).root.preorder.find? (isOf .eventDeclaration)).any
      (fun n => (Event.ofTree? n).all fun e => e.name = "Changed".toList) = true := by
    decide +kernel
  have hfields : ((ofText text).root.preorder.find? (isOf .eventFieldDeclaration)).any
      (fun n => (Event.ofTree? n).isNone) = true := by
    decide +kernel
  obtain ⟨n, hn, hname⟩ := (Option.any_eq_true _ _).1 haccessors
  obtain ⟨m, hm, hnone⟩ := (Option.any_eq_true _ _).1 hfields
  have hk : n.isOf .eventDeclaration = true := List.find?_some hn
  have hmem := List.mem_of_find?_eq_some hn
  have hmem' := List.mem_of_find?_eq_some hm
  obtain ⟨e, he, hnames⟩ := (ofText_namesEvents hmem).1 hk
  rw [he, Option.all_some, decide_eq_true_eq] at hname
  exact ⟨⟨n, hmem, hk, ⟨e, he, hname, hnames⟩,
      (ofText_namesEvents hmem).2.2 (by rw [of_decide_eq_true hk]; rfl)⟩,
    m, hmem', List.find?_some hm, hnone, (ofText_namesEvents hmem').2.1 (List.find?_some hm)⟩

end Document

end EventLint
