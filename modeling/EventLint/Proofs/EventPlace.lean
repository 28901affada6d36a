import EventLint.Proofs.Removal
import EventLint.Proofs.Reported
import EventLint.Proofs.Siblings

/-!
# Where an event stands

The tokens of a text around an event: what the reader has met before it comes to the event, the
attributes and modifiers of the event, its keyword, and the rest. Main statement: without one of its
modifiers the reader still comes to the event, and has met the same events before it.
-/

namespace EventLint.Tree

open Token

/-! ## 1. Modifiers among tokens -/

theorem angleOpens_congr {ts us : List Token} (h : ts.map Token.kind = us.map Token.kind)
    (depth : Nat) : angleOpens depth ts = angleOpens depth us := by
  induction ts generalizing us depth with
  | nil =>
    rw [List.map_nil, eq_comm, List.map_eq_nil_iff] at h
    rw [h]
  | cons t ts ih =>
    obtain ⟨u, us, rfl, hk, hks⟩ := List.map_eq_cons_iff.1 h.symm
    cases depth with
    | zero =>
      rw [angleOpens_zero, angleOpens_zero]
      exact congrArg (fun k => decide (k = TokenKind.lparen)) hk.symm
    | succ depth => rw [angleOpens_succ, angleOpens_succ, hk, ih hks.symm]

/-- A word is no bracket. -/
theorem ne_bracket_of_word {k : TokenKind} (h : k = .ident ∨ k.isKeyword = true) :
    k ≠ .lparen ∧ k ≠ .lt ∧ k ≠ .gt := by
  rcases h with rfl | h
  · decide
  · refine ⟨?_, ?_, ?_⟩ <;> rintro rfl <;> cases h

/-- A word between words does not matter to angle brackets left open. -/
theorem angleOpens_delete {v n : Token} {z : List Token}
    (hv : v.kind = .ident ∨ v.kind.isKeyword = true) (hn : n.kind ≠ .lparen) (a : List Token)
    (depth : Nat) : angleOpens depth (a ++ n :: z) = angleOpens depth (a ++ v :: n :: z) := by
  obtain ⟨hparen, hlt, hgt⟩ := ne_bracket_of_word hv
  induction a generalizing depth with
  | nil =>
    cases depth with
    | zero =>
      rw [angleOpens_zero, angleOpens_zero]
      exact (decide_eq_false hn).trans (decide_eq_false hparen).symm
    | succ depth =>
      rw [List.nil_append, List.nil_append, angleOpens_succ depth v, if_neg hlt, if_neg hgt]
  | cons t a ih =>
    cases depth with
    | zero => rw [angleOpens_zero, angleOpens_zero]; rfl
    | succ depth => rw [List.cons_append, List.cons_append, angleOpens_succ, angleOpens_succ, ih]

theorem kind_eq_of_bare {ts us : List Token} (h : ts.map bare = us.map bare) :
    ts.map Token.kind = us.map Token.kind := by
  have hk := congrArg (List.map Prod.fst) h
  rwa [List.map_map, List.map_map] at hk

/-- A modifier is spelled with letters only. -/
theorem isPlainWord_of_isModifierToken {text : Text} {m : Token} (hm : m ∈ scan text)
    (h : isModifierToken m = true) : Text.isPlainWord m.text = true := by
  rcases Bool.or_eq_true_iff.1 h with h | h
  · refine isPlainWord_of_keyword hm ?_
    cases hk : m.kind <;> rw [hk] at h <;> first | rfl | cases h
  · simp only [isWord, Bool.and_eq_true, List.any_eq_true, decide_eq_true_eq] at h
    obtain ⟨-, w, hw, hmw⟩ := h
    rw [← hmw]
    have hplain : (contextualModifiers.all fun w => Text.isPlainWord w.toList) = true := by decide
    exact List.all_eq_true.1 hplain w hw

theorem isModifierToken_congr {t u : Token} (h : t.bare = u.bare) :
    isModifierToken t = isModifierToken u := by
  obtain ⟨hk, ht⟩ := Prod.mk.inj h
  rw [isModifierToken, isModifierToken, isWord, isWord, hk, ht]

/-- The modifiers of a member are searched for the first of a kind. -/
theorem token?_eq_find? (n : Tree) (k : TokenKind) :
    Modifier.token? n k = (Event.modifiersOf n).find? (·.kind = k) := by
  rw [Modifier.token?, Event.modifiersOf]
  cases n.childNode? .modifierList with
  | none => rfl
  | some list => rfl

/-! ## 2. What stands in front of the keyword -/

/-- The trees are attributes and modifiers. -/
def IsLead (lead : List Tree) : Prop :=
  ∀ c ∈ lead, c.nodeKind? = some .attributeList ∨ c.nodeKind? = some .modifierList

theorem isLead_of_attributes {attrs : List Tree} (mods : List Token)
    (h : ∀ c ∈ attrs, c.isOf .attributeList = true) : IsLead (attrs ++ modifierList mods) := by
  intro c hc
  rcases List.mem_append.1 hc with hc | hc
  · exact Or.inl (of_decide_eq_true (h c hc))
  · rw [modifierList] at hc
    split at hc
    · cases hc
    · rw [List.mem_singleton.1 hc]
      exact Or.inr rfl

section

variable {lead : List Tree} (kind : NodeKind) (cs : List Tree)

/-- No search for another part stops at an attribute list or a modifier list. -/
theorem IsLead.childNode? (h : IsLead lead) {k : NodeKind} (ha : k ≠ .attributeList)
    (hm : k ≠ .modifierList) :
    (node kind (lead ++ cs)).childNode? k = (node kind cs).childNode? k := by
  have hnone : lead.find? (isOf k) = none := by
    refine List.find?_eq_none.2 fun c hc hof => ?_
    rcases h c hc with h | h <;> rw [isOf, h, decide_eq_true_eq, Option.some.injEq] at hof
    · exact ha hof.symm
    · exact hm hof.symm
  rw [Tree.childNode?, Tree.childNode?, children, children, List.find?_append, hnone,
    Option.none_or]

theorem IsLead.childTokens (h : IsLead lead) :
    (node kind (lead ++ cs)).childTokens = (node kind cs).childTokens := by
  have hnone : lead.filterMap token? = [] := by
    refine List.filterMap_eq_nil_iff.2 fun c hc => ?_
    cases c with
    | leaf t => simpa [nodeKind?] using h _ hc
    | node k cs => rfl
  rw [Tree.childTokens, Tree.childTokens, children, children, List.filterMap_append, hnone,
    List.nil_append]

theorem IsLead.typeOf? (h : IsLead lead) :
    Event.typeOf? (node kind (lead ++ cs)) = Event.typeOf? (node kind cs) := by
  have hnone : (lead.filter isNode).find? (fun t => t.nodeKind?.any NodeKind.isType) = none := by
    refine List.find?_eq_none.2 fun c hc => ?_
    rcases h c (List.mem_of_mem_filter hc) with h | h <;> rw [h] <;> decide
  rw [Event.typeOf?, Event.typeOf?, childNodes, childNodes, children, children,
    List.filter_append, List.find?_append, hnone, Option.none_or]

end

/-- An event with accessors is read from its parts. -/
theorem ofTree?_accessors {lead q cs inner : List Tree} {keyword name : Token} {k : NodeKind}
    (hlead : IsLead lead) (hkey : keyword.kind = .keyword .eventKw) (hk : k.isType = true)
    (hq : q = [] ∨ ∃ ds, q = [node .explicitInterfaceSpecifier ds]) (hname : name.kind = .ident) :
    let list := node .accessorList inner
    let n := node .eventDeclaration (lead ++ leaf keyword :: node k cs :: (q ++ [leaf name, list]))
    Event.ofTree? n = some {
      node := n
      nameToken := name
      elementType := .ofTree (node k cs)
      modifiers := Event.modifiersOf n
      shape := .accessorLike (Event.accessorOf? list .add) (Event.accessorOf? list .remove) } := by
  intro list n
  have hne : k ≠ .accessorList := by
    rintro rfl
    cases hk
  have htype : Event.typeOf? n = some (node k cs) := by
    rw [hlead.typeOf?]
    simp [Event.typeOf?, childNodes, children, isNode, nodeKind?, hk]
  -- the keyword and the name are the only tokens right below the member
  have htoken : n.childToken? .ident = some name := by
    rw [childToken?, hlead.childTokens]
    rcases hq with rfl | ⟨ds, rfl⟩ <;> simp [childTokens, children, token?, hkey, hname, list]
  have hlist : n.childNode? .accessorList = some list := by
    rw [hlead.childNode? _ _ (by decide) (by decide)]
    rcases hq with rfl | ⟨ds, rfl⟩ <;>
      simp [Tree.childNode?, children, isOf, nodeKind?, hne, list]
  show Event.ofAccessors? n = _
  rw [Event.ofAccessors?, htype, htoken, hlist]
  rfl

/-- The attributes and modifiers of an event say nothing but its modifiers. -/
theorem ofTree?_front {kind : NodeKind} {attrs cs : List Tree} {k : Token} (mods : List Token)
    (hattrs : ∀ c ∈ attrs, c.isOf .attributeList = true)
    (hcs : ∀ c ∈ cs, c.isOf .modifierList = false) :
    Event.ofTree? (node kind (attrs ++ modifierList mods ++ leaf k :: cs)) =
      (Event.ofTree? (node kind (leaf k :: cs))).map fun e =>
        { e with
          node := node kind (attrs ++ modifierList mods ++ leaf k :: cs)
          modifiers := mods } := by
  have hmods := modifiersOf_eq kind mods k hattrs hcs
  have hlead := isLead_of_attributes mods hattrs
  rw [← List.append_assoc] at hmods
  -- each search that makes up an event passes over the lead
  generalize attrs ++ modifierList mods = lead at hmods hlead ⊢
  unfold Event.ofTree?
  rw [nodeKind?, nodeKind?]
  split
  · simp only [Event.ofField?, hlead.childNode? kind (leaf k :: cs)
      (show NodeKind.variableDeclaration ≠ _ by decide) (by decide), hmods,
      Option.bind_eq_bind, Option.map_bind, Function.comp_def, Option.pure_def, Option.map_some]
  · simp only [Event.ofAccessors?, hlead.childNode? kind (leaf k :: cs)
      (show NodeKind.accessorList ≠ _ by decide) (by decide), hmods, hlead.typeOf?, childToken?,
      hlead.childTokens, Option.bind_eq_bind, Option.map_bind, Function.comp_def, Option.pure_def,
      Option.map_some]
  · rfl

/-! ## 3. An event among tokens -/

/-- Where an event stands: the events `before` come first, `member` are the tokens from the event
`n` on, and the events `behind` follow it. -/
structure EventPlace (ts : List Token) (before : List Tree) (n : Tree) (behind : List Tree) where
  level : Level
  outer : List Level
  met : List (Bool × Tree)
  front : List Token
  member : List Token
  mods : List Token
  keyword : Token
  rest : List Token
  kind : NodeKind
  parts : List Tree
  after : List Token
  tokens : ts = front ++ member
  run : Front [.file] met (level :: outer) member front
  modifiers : (attributes member).2 = mods ++ keyword :: rest
  isModifier : ∀ m ∈ mods, isModifierToken m = true
  isKeyword : keyword.kind = .keyword .eventKw
  isEvent : kind.isEvent = true
  plain : ∀ c ∈ parts, c.isOf .modifierList = false
  children : ∀ lead, event lead keyword rest = (node kind (lead ++ leaf keyword :: parts), after)
  node_eq : n = node kind ((attributes member).1 ++ modifierList mods ++ leaf keyword :: parts)
  before_eq : met.map Prod.snd = before
  behind_eq : (taggedFrom (level :: outer) after).map Prod.snd = behind
  tagged : (ofTokens ts).taggedEvents false =
    met ++ (level.hidden, n) :: taggedFrom (level :: outer) after
  siblings : ∃ parent ∈ (ofTokens ts).preorder, ∃ left right,
    parent.children = left ++ (n :: (declarations level.scope after).1 ++ right)

theorem exists_eventPlace {ts : List Token} {before behind : List Tree} {n : Tree}
    (h : (ofTokens ts).eventNodes = before ++ n :: behind) :
    Nonempty (EventPlace ts before n behind) := by
  have hevent : n.nodeKind?.any NodeKind.isEvent = true :=
    (mem_preorder_of_mem_eventNodes _ (by rw [h]; simp)).2
  obtain ⟨met, hidden, more, htagged, hbefore, hbehind⟩ := exists_tagged h
  rw [← taggedFrom_file] at htagged
  -- the run to the event, then the event's own front
  obtain ⟨l, ls, r, after, hrun, rfl, hends, hopen⟩ := exists_run htagged
  obtain ⟨lead, keyword, us, hl, hk, he⟩ := opening?_event hopen hevent
  obtain ⟨front, hts, hfront⟩ := hrun.front (startsMember_of_leading hl (by rw [hk]; rfl))
  obtain ⟨kind, cs, after', hcs, hchildren⟩ := event_children keyword us
  rw [hchildren] at he
  obtain ⟨rfl, rfl⟩ := Prod.mk.inj he
  obtain ⟨mods, rest, hattrs, hlead, hmods⟩ := exists_leading r
  rw [hl] at hlead
  obtain ⟨rfl, rfl⟩ := Prod.mk.inj hlead
  obtain rfl : more = taggedFrom (l :: ls) after' := by
    rw [hrun.taggedFrom_eq, taggedFrom_of_whole ls hends hopen, taggedEvents,
      if_pos (show kind.isEvent = true from hevent), List.singleton_append] at htagged
    exact (List.cons.inj (List.append_cancel_left htagged)).2.symm
  exact ⟨{
    level := l, outer := ls, met := met, front := front, member := r, mods := mods,
    keyword := keyword, rest := us, kind := kind, parts := cs, after := after', tokens := hts,
    run := hfront, modifiers := hattrs, isModifier := hmods, isKeyword := hk, isEvent := hevent,
    plain := hcs, children := hchildren, node_eq := rfl, before_eq := hbefore,
    behind_eq := hbehind, tagged := (taggedFrom_file ts).symm.trans htagged,
    siblings := hrun.exists_siblings hends hopen }⟩

/-- Every event of a tree has its place. -/
theorem exists_place {ts : List Token} {n : Tree} (hn : n ∈ (ofTokens ts).preorder)
    (he : n.nodeKind?.any NodeKind.isEvent = true) :
    ∃ before behind, (ofTokens ts).eventNodes = before ++ n :: behind ∧
      Nonempty (EventPlace ts before n behind) := by
  obtain ⟨before, behind, h⟩ :=
    List.append_of_mem (mem_eventNodes_of_mem_preorder _ (flatEvents_ofTokens ts) hn he)
  exact ⟨before, behind, h, exists_eventPlace h⟩

/-- No token occurs twice in a text. -/
theorem scan_cons_inj {text : Text} {a a' c c' : List Token} {t : Token}
    (h : scan text = a ++ t :: c) (h' : scan text = a' ++ t :: c') : a = a' ∧ c = c' := by
  have hnodup := (scan_inPlace text).inOrder.nodup
  rw [h] at hnodup
  obtain ⟨-, hright, hleft⟩ := List.nodup_append.1 hnodup
  obtain ⟨ha, -, hc⟩ := (List.append_cons_inj_of_notMem
    (fun hmem => hleft t hmem t List.mem_cons_self rfl) (List.nodup_cons.1 hright).1).1
      (h.symm.trans h')
  exact ⟨ha, hc⟩

namespace EventPlace

variable {ts : List Token} {before behind : List Tree} {n : Tree}

theorem isLead (p : EventPlace ts before n behind) :
    IsLead ((attributes p.member).1 ++ modifierList p.mods) :=
  isLead_of_attributes p.mods fun _ hc => isOf_of_mem_attributes hc

theorem kind_eq (p : EventPlace ts before n behind) {k : NodeKind} (h : n.isOf k = true) :
    p.kind = k := by
  have hkind : n.nodeKind? = some k := of_decide_eq_true h
  rw [p.node_eq] at hkind
  exact Option.some.inj hkind

theorem attributes_ne_nil (p : EventPlace ts before n behind) : (attributes p.member).2 ≠ [] := by
  rw [p.modifiers]
  simp

theorem member_eq (p : EventPlace ts before n behind) :
    p.member = leavesAll (attributes p.member).1 ++ (p.mods ++ p.keyword :: p.rest) := by
  rw [← p.modifiers]
  exact (reads_attributes p.member).leaves.symm

/-- The tokens in front of the keyword of the event. -/
def toKeyword (p : EventPlace ts before n behind) : List Token :=
  p.front ++ (leavesAll (attributes p.member).1 ++ p.mods)

theorem tokens_eq (p : EventPlace ts before n behind) :
    ts = p.toKeyword ++ p.keyword :: p.rest := by
  conv_lhs => rw [p.tokens, p.member_eq]
  simp only [toKeyword, List.append_assoc]

theorem modifiersOf_eq (p : EventPlace ts before n behind) : Event.modifiersOf n = p.mods := by
  conv_lhs => rw [p.node_eq, List.append_assoc]
  exact Tree.modifiersOf_eq p.kind p.mods p.keyword (fun c hc => isOf_of_mem_attributes hc) p.plain

theorem leaves_eq (p : EventPlace ts before n behind) :
    n.leaves =
      leavesAll (attributes p.member).1 ++ (p.mods ++ p.keyword :: leavesAll p.parts) := by
  have hmods : leavesAll (modifierList p.mods) = p.mods := by
    unfold modifierList
    split
    · rename_i hnil
      rw [hnil, leavesAll]
    · rw [leavesAll, leavesAll, leaves, leavesAll_map_leaf, List.append_nil]
  conv_lhs => rw [p.node_eq, leaves, leavesAll_append, leavesAll_append, hmods, leavesAll, leaves]
  rw [List.append_assoc, List.singleton_append]

/-- The first token of the event is the first of its member. -/
theorem head?_leaves (p : EventPlace ts before n behind) : n.leaves.head? = p.member.head? := by
  conv_rhs => rw [p.member_eq]
  rw [p.leaves_eq, List.head?_append, List.head?_append, List.head?_append, List.head?_append]
  rfl

theorem keyword_mem (p : EventPlace ts before n behind) : p.keyword ∈ n.leaves := by
  rw [p.leaves_eq]
  simp

/-- The attributes and modifiers of an event are read from its tokens up to the keyword. -/
theorem mods_eq {ms mods rest : List Token} {k : Token} (p : EventPlace ts before n behind)
    (hne : (attributes ms).2 ≠ []) (hmods : ∀ m ∈ mods, isModifierToken m = true)
    (hk : k.kind = .keyword .eventKw)
    (h : p.member = leavesAll (attributes ms).1 ++ (mods ++ k :: rest)) :
    (attributes p.member).1 = (attributes ms).1 ∧ p.mods = mods ∧ p.keyword = k ∧
      p.rest = rest := by
  have hlast : ∀ x : Token, x.kind = .keyword .eventKw → isModifierToken x = false := by
    intro x hx
    rw [isModifierToken, isWord, hx]
    rfl
  have hread := attributes_front hne hmods hk rest
  rw [← h] at hread
  have hrest : p.mods ++ p.keyword :: p.rest = mods ++ k :: rest := by
    rw [← p.modifiers, hread]
  -- the modifiers are what stands in front of the first word that is none
  have htake : ∀ (ms : List Token) (x : Token) (xs : List Token),
      (∀ m ∈ ms, isModifierToken m = true) → x.kind = .keyword .eventKw →
        (ms ++ x :: xs).takeWhile isModifierToken = ms := by
    intro ms x xs hms hx
    rw [List.takeWhile_append_of_pos hms, List.takeWhile_cons_of_neg (by rw [hlast x hx]; decide),
      List.append_nil]
  have hsame := congrArg (List.takeWhile isModifierToken) hrest
  rw [htake _ _ _ p.isModifier p.isKeyword, htake _ _ _ hmods hk] at hsame
  rw [hsame] at hrest
  obtain ⟨hkey, hrest⟩ := List.cons.inj (List.append_cancel_left hrest)
  exact ⟨by rw [hread], hsame, hkey, hrest⟩

/-- An event starts where its member does. -/
theorem exists_first (p : EventPlace ts before n behind) :
    ∃ t us, p.member = t :: us ∧ ∀ eof, (n.span eof).start = t.start := by
  have hne : n.leaves ≠ [] := List.ne_nil_of_mem p.keyword_mem
  have hhead := p.head?_leaves
  cases hmember : p.member with
  | nil =>
    rw [hmember] at hhead
    exact absurd (List.head?_eq_none_iff.1 hhead) hne
  | cons t us =>
    rw [hmember] at hhead
    refine ⟨t, us, rfl, fun eof => ?_⟩
    rw [span_of_leaves eof hhead (List.getLast?_eq_some_getLast hne)]

/-- An event is known by where it starts. -/
theorem front_eq {text : Text} {front member : List Token} {t : Token}
    (p : EventPlace (scan text) before n behind) (h : scan text = front ++ t :: member)
    (hs : ((Document.ofText text).spanOf n).start = t.start) :
    p.front = front ∧ p.member = t :: member := by
  obtain ⟨u, us, hu, hstart⟩ := p.exists_first
  have hscan := p.tokens
  rw [hu] at hscan
  have ho := (scan_inPlace text).inOrder
  obtain rfl : u = t := ho.eq_of_start_eq (by rw [hscan]; simp) (by rw [h]; simp)
    ((hstart _).symm.trans hs)
  obtain ⟨hfront, hrest⟩ := scan_cons_inj h hscan
  exact ⟨hfront.symm, by rw [hu, hrest]⟩

/-- An event of another text with the same tokens up to the keyword has the same modifiers. -/
theorem mods_eq_of_start {text text' : Text} {before' behind' : List Tree} {n' : Tree}
    {rest : List Token} (p : EventPlace (scan text) before n behind)
    (p' : EventPlace (scan text') before' n' behind')
    (hscan : scan text' = p.toKeyword ++ p.keyword :: rest)
    (hs : ((Document.ofText text').spanOf n').start = ((Document.ofText text).spanOf n).start) :
    p'.front = p.front ∧ (attributes p'.member).1 = (attributes p.member).1 ∧ p'.mods = p.mods ∧
      p'.keyword = p.keyword ∧ p'.rest = rest := by
  obtain ⟨t, us, ht, hstart⟩ := p.exists_first
  -- both members start with the same token
  obtain ⟨us', hus'⟩ : ∃ us', leavesAll (attributes p.member).1 ++ (p.mods ++ p.keyword :: rest) =
      t :: us' := by
    have hhead : (leavesAll (attributes p.member).1 ++ (p.mods ++ p.keyword :: rest)).head? =
        some t := by
      have h := congrArg List.head? (p.member_eq.symm.trans ht)
      simpa only [List.head?_append, List.head?_cons] using h
    exact List.head?_eq_some_iff.1 hhead
  rw [toKeyword, List.append_assoc, List.append_assoc, hus'] at hscan
  obtain ⟨hfront, hmember⟩ := p'.front_eq hscan (hs.trans (hstart _))
  exact ⟨hfront, p'.mods_eq p.attributes_ne_nil p.isModifier p.isKeyword
    (hmember.trans hus'.symm)⟩

/-- What stands in front of a modifier, or of the keyword, ends with a word or a mark. -/
theorem isClean (p : EventPlace ts before n behind) {m : List Token} (hm : ∀ t ∈ m, t ∈ p.mods) :
    ∀ t ∈ (p.front ++ (leavesAll (attributes p.member).1 ++ m)).getLast?,
      t.kind.isClean = true := by
  intro t ht
  rw [List.getLast?_append, List.getLast?_append] at ht
  -- the last modifier, else the last attribute, else what stands in front of the event
  cases hlast : m.getLast? with
  | some x =>
    rw [hlast, Option.some_or, Option.some_or] at ht
    obtain rfl := Option.some.inj ht
    exact isClean_of_word (isModifierToken_word
      (p.isModifier x (hm x (List.mem_of_getLast? hlast))))
  | none =>
    rw [hlast, Option.none_or] at ht
    cases hattr : (leavesAll (attributes p.member).1).getLast? with
    | some x =>
      rw [hattr, Option.some_or] at ht
      obtain rfl := Option.some.inj ht
      have hcloses := closes_of_attributes p.attributes_ne_nil hattr
      rcases TokenKind.eq_of_closes hcloses with h | h | h <;> rw [h] <;> rfl
    | none =>
      rw [hattr, Option.none_or] at ht
      exact p.run.stopped.isClean t ht

end EventPlace

/-! ## 4. One modifier less -/

/-- The place of an event, and in it the first modifier of a kind. -/
structure ModifierPlace (ts : List Token) (before : List Tree) (n : Tree) (behind : List Tree)
    (k : TokenKind) (v : Token) extends EventPlace ts before n behind where
  /-- The modifiers in front of `v` and those behind it. -/
  prior : List Token
  later : List Token
  mods_eq : mods = prior ++ v :: later
  isKind : v.kind = k
  isFirst : ∀ m ∈ prior, m.kind ≠ k

theorem exists_modifierPlace {ts : List Token} {before behind : List Tree} {n : Tree}
    {k : TokenKind} {v : Token} (h : (ofTokens ts).eventNodes = before ++ n :: behind)
    (hv : Modifier.token? n k = some v) : Nonempty (ModifierPlace ts before n behind k v) := by
  obtain ⟨p⟩ := exists_eventPlace h
  rw [token?_eq_find?, p.modifiersOf_eq] at hv
  obtain ⟨hk, prior, later, hmods, hfirst⟩ := List.find?_eq_some_iff_append.1 hv
  exact ⟨{ p with
    prior := prior, later := later, mods_eq := hmods, isKind := of_decide_eq_true hk,
    isFirst := fun m hm => by simpa using hfirst m hm }⟩

namespace ModifierPlace

variable {ts : List Token} {before behind : List Tree} {n : Tree} {k : TokenKind} {v : Token}

theorem isModifier_v (p : ModifierPlace ts before n behind k v) : isModifierToken v = true :=
  p.isModifier v (by rw [p.mods_eq]; simp)

theorem isModifier_others (p : ModifierPlace ts before n behind k v) :
    ∀ m ∈ p.prior ++ p.later, isModifierToken m = true := by
  intro m hm
  refine p.isModifier m ?_
  rw [p.mods_eq]
  exact (List.mem_append.1 hm).elim (List.mem_append_left _) fun h =>
    List.mem_append_right _ (List.mem_cons_of_mem v h)

theorem member_eq (p : ModifierPlace ts before n behind k v) :
    p.member = leavesAll (attributes p.member).1 ++
      (p.prior ++ v :: (p.later ++ p.keyword :: p.rest)) := by
  conv_lhs => rw [p.toEventPlace.member_eq, p.mods_eq]
  simp only [List.append_assoc, List.cons_append]

theorem tokens_eq (p : ModifierPlace ts before n behind k v) :
    ts = p.front ++ (leavesAll (attributes p.member).1 ++ p.prior) ++
      v :: (p.later ++ p.keyword :: p.rest) := by
  conv_lhs => rw [p.tokens, p.member_eq]
  simp only [List.append_assoc]

/-- The token after the modifier is another modifier or the keyword of the event. -/
theorem exists_next (p : ModifierPlace ts before n behind k v) :
    ∃ next post, p.later ++ p.keyword :: p.rest = next :: post ∧
      (isModifierToken next = true ∨ next.kind.isKeyword = true) := by
  cases hl : p.later with
  | nil => exact ⟨p.keyword, p.rest, rfl, Or.inr (by rw [p.isKeyword]; rfl)⟩
  | cons m b =>
    exact ⟨m, b ++ p.keyword :: p.rest, rfl, Or.inl (p.isModifier_others m (by simp [hl]))⟩

/-- The token in front of the modifier is a word or a mark. -/
theorem isClean_front (p : ModifierPlace ts before n behind k v) :
    ∀ t ∈ (p.front ++ (leavesAll (attributes p.member).1 ++ p.prior)).getLast?,
      t.kind.isClean = true :=
  p.isClean fun t ht => by rw [p.mods_eq]; exact List.mem_append_left _ ht

/-- The reader comes to the event without the word, wherever the tokens behind it stand. -/
theorem resume (p : ModifierPlace ts before n behind k v) {later rest : List Token} {w : Token}
    (hlater : later.map bare = p.later.map bare) (hw : w.bare = p.keyword.bare)
    (hrest : rest.map bare = p.rest.map bare) :
    ∃ i mods, p.prior ++ later = i ++ mods ∧ (∀ t ∈ i, t.kind = .ident) ∧
      (∀ m ∈ mods, isModifierToken m = true) ∧
      Run [.file] (p.front ++ (leavesAll (attributes p.member).1 ++ p.prior) ++
        (later ++ w :: rest)) p.met (p.level :: p.outer)
          (leavesAll (attributes p.member).1 ++ (mods ++ w :: rest)) := by
  have hmods : ∀ m ∈ p.prior ++ later, isModifierToken m = true := by
    intro m hm
    rcases List.mem_append.1 hm with hm | hm
    · exact p.isModifier_others m (List.mem_append_left _ hm)
    · have hmem : m.bare ∈ p.later.map bare := hlater ▸ List.mem_map_of_mem hm
      obtain ⟨x, hx, hxm⟩ := List.mem_map.1 hmem
      rw [← isModifierToken_congr hxm]
      exact p.isModifier_others x (List.mem_append_right _ hx)
  -- angle brackets that are open further in front may reach past the word
  have hangle : AngleLike p.member
      (leavesAll (attributes p.member).1 ++ (p.prior ++ later ++ w :: rest)) := by
    intro depth
    obtain ⟨next, post, hpost, hnext⟩ := p.exists_next
    have hparen : next.kind ≠ .lparen := by
      intro hp
      rw [isModifierToken, isWord, hp] at hnext
      simp [TokenKind.isModifier, TokenKind.isKeyword] at hnext
    conv_rhs => rw [p.member_eq, hpost, ← List.append_assoc]
    rw [← angleOpens_delete (isModifierToken_word p.isModifier_v) hparen, ← hpost]
    refine angleOpens_congr (kind_eq_of_bare ?_) _
    simp only [List.map_append, List.map_cons, List.append_assoc, hlater, hw, hrest]
  obtain ⟨i, mods, hsplit, hi, -, hresume⟩ :=
    p.run.resume_event hmods ((congrArg Prod.fst hw).trans p.isKeyword) hangle
  refine ⟨i, mods, hsplit, hi, fun m hm => hmods m (hsplit ▸ List.mem_append_right i hm), ?_⟩
  simpa only [List.append_assoc] using hresume

end ModifierPlace

/-- In a text, the modifier and the token behind it are words. -/
theorem exists_words {text : Text} {before behind : List Tree} {n : Tree} {k : TokenKind}
    {v : Token} (p : ModifierPlace (scan text) before n behind k v) :
    ∃ next post, p.later ++ p.keyword :: p.rest = next :: post ∧
      scan text = p.front ++ (leavesAll (attributes p.member).1 ++ p.prior) ++ v :: next :: post ∧
      Text.isPlainWord v.text = true ∧ Text.isPlainWord next.text = true := by
  obtain ⟨next, post, hpost, hnext⟩ := p.exists_next
  have hscan := p.tokens_eq
  rw [hpost] at hscan
  have hv : v ∈ scan text := by rw [hscan]; simp
  have hmem : next ∈ scan text := by rw [hscan]; simp
  exact ⟨next, post, hpost, hscan, isPlainWord_of_isModifierToken hv p.isModifier_v,
    hnext.elim (isPlainWord_of_isModifierToken hmem) (isPlainWord_of_keyword hmem)⟩

end EventLint.Tree
