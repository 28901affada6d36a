import EventLint.Fix.Action
import EventLint.Proofs.Nodes
import EventLint.Proofs.Run

/-!
# Event members

What an event member looks like in the list of tokens, and how it is found again: by a byte of it,
since no event stands inside another.
-/

namespace EventLint

namespace Tree

/-! ## 1. The kinds of types -/

/-- The tree is a node for a type. -/
def isTypeNode (t : Tree) : Bool :=
  t.nodeKind?.any NodeKind.isType

theorem isTypeNode_typeMarks {type : Tree} (ts : List Token) (h : type.isTypeNode = true) :
    (typeMarks type ts).1.isTypeNode = true := by
  fun_induction typeMarks type ts with
  | case1 => exact h
  | case2 type t rest _ ih => exact ih rfl
  | case3 type t rest _ _ n ih => exact ih rfl
  | case4 => exact h

theorem isTypeNode_simpleName (name : Token) (ts : List Token) :
    (simpleName name ts).1.isTypeNode = true := by
  cases ts with
  | nil => rw [simpleName]; rfl
  | cons t ts =>
    rw [simpleName]
    split
    · split <;> rfl
    · rfl

theorem isTypeNode_qualified {left : Option (Tree × Token)} {name : Tree}
    (h : name.isTypeNode = true) : (qualified left name).isTypeNode = true := by
  cases left with
  | none => exact h
  | some p => rfl

theorem isTypeNode_nameChain (left : Option (Tree × Token)) (first : Token) (ts : List Token) :
    (nameChain left first ts).1.isTypeNode = true := by
  induction ts using shorter_induction generalizing left first with
  | step ts ih =>
    rw [nameChain]
    have hs := isTypeNode_simpleName first ts
    generalize simpleName first ts = p at hs ⊢
    rcases p with ⟨name, rest⟩
    dsimp only at hs ⊢
    split
    · split
      · rename_i h
        exact ih _ h.2.2 _ _
      · exact isTypeNode_qualified hs
    · exact isTypeNode_qualified hs

theorem isTypeNode_typeName? {ts rest : List Token} {type : Tree}
    (h : typeName? ts = some (type, rest)) : type.isTypeNode = true := by
  cases ts with
  | nil =>
    rw [typeName?_nil] at h
    cases h
  | cons t ts =>
    -- marks make a type of a type, so the name or the tuple in front of them decides
    have hmarks : ∀ name us, isTypeNode name = true → some (typeMarks name us) = some (type, rest) →
        type.isTypeNode = true := by
      intro name us hn he
      have hm := isTypeNode_typeMarks us hn
      rwa [Option.some.inj he] at hm
    by_cases hi : t.kind = .ident
    · rw [typeName?_of_ident ts hi] at h
      exact hmarks _ _ (isTypeNode_nameChain none t ts) h
    · by_cases hp : t.kind = .lparen
      · rw [typeName?_of_lparen ts hp] at h
        refine hmarks _ _ ?_ h
        unfold nameTail
        split
        · split
          · exact isTypeNode_nameChain _ _ _
          · rfl
        · rfl
      · rw [typeName?_of_ne ts hi hp] at h
        cases h

theorem isOf_of_isTypeNode {type : Tree} {k : NodeKind} (h : type.isTypeNode = true)
    (hk : k.isType = false) : type.isOf k = false := by
  refine Bool.eq_false_iff.2 fun hof => ?_
  rw [isTypeNode, of_decide_eq_true hof, Option.any_some, hk] at h
  cases h

/-! ## 2. Attributes and modifiers -/

/-- A word of a modifier list. -/
def isModifierToken (t : Token) : Bool :=
  t.kind.isModifier || t.isWord contextualModifiers

theorem isModifierToken_word {t : Token} (h : isModifierToken t = true) :
    t.kind = .ident ∨ t.kind.isKeyword = true := by
  simp only [isModifierToken, Token.isWord, Bool.or_eq_true, Bool.and_eq_true,
    decide_eq_true_eq] at h
  rcases h with h | h
  · refine Or.inr ?_
    cases hk : t.kind <;> rw [hk] at h <;> first | rfl | cases h
  · exact Or.inl h.1

theorem isClean_of_word {k : TokenKind} (h : k = .ident ∨ k.isKeyword = true) :
    k.isClean = true := by
  cases k <;> first | rfl | simp [TokenKind.isKeyword] at h

theorem isModifierToken_of_mem {ts : List Token} {m : Token}
    (h : m ∈ ts.take (modifierExtent ts)) : isModifierToken m = true := by
  induction ts with
  | nil => cases h
  | cons t ts ih =>
    rw [modifierExtent] at h
    split at h
    · rename_i ht
      rw [Nat.add_comm 1, List.take_succ_cons] at h
      rcases List.mem_cons.1 h with rfl | h
      · rw [isModifierToken]
        rcases Bool.or_eq_true_iff.1 ht with ht | ht
        · rw [ht, Bool.true_or]
        · rw [(Bool.and_eq_true_iff.1 ht).1, Bool.or_true]
      · exact ih h
    · cases h

theorem isOf_of_mem_attributes {ts : List Token} {c : Tree} (h : c ∈ (attributes ts).1) :
    c.isOf .attributeList = true := by
  induction ts using shorter_induction with
  | step ts ih =>
    cases ts with
    | nil => simp [attributes] at h
    | cons t ts =>
      by_cases ht : t.kind = .lbracket
      · rw [attributes_of_lbracket ts ht] at h
        rcases List.mem_cons.1 h with rfl | h
        · rfl
        · exact ih _ (by rw [List.length_drop, List.length_cons]; omega) h
      · rw [attributes_of_ne ts ht] at h
        cases h

/-- Attribute lists start with a bracket. -/
theorem first_of_attributes (ts : List Token) : (attributes ts).1 = [] ∨
    ∃ t us, leavesAll (attributes ts).1 = t :: us ∧ t.kind = .lbracket := by
  cases ts with
  | nil => exact Or.inl (by rw [attributes])
  | cons t ts =>
    by_cases ht : t.kind = .lbracket
    · rw [attributes_of_lbracket ts ht, leavesAll, leaves, leavesAll_map_leaf]
      exact Or.inr ⟨t, _, rfl, ht⟩
    · exact Or.inl (by rw [attributes_of_ne ts ht])

theorem closingExtent_lt_of_attributes {ts : List Token}
    (h : (attributes (ts.drop (closingExtent 1 ts))).2 ≠ []) : closingExtent 1 ts < ts.length := by
  refine Nat.lt_of_not_le fun hle => h ?_
  rw [List.drop_eq_nil_of_le hle, attributes]

/-- Attribute lists that something follows are closed. -/
theorem closes_of_attributes {ts : List Token} {u : Token} (hne : (attributes ts).2 ≠ [])
    (hu : (leavesAll (attributes ts).1).getLast? = some u) : u.kind.closes = true := by
  induction ts using shorter_induction with
  | step ts ih =>
    cases ts with
    | nil => simp [attributes, leavesAll] at hu
    | cons t ts =>
      by_cases ht : t.kind = .lbracket
      · rw [attributes_of_lbracket ts ht] at hne hu
        obtain ⟨b, e, hb, he⟩ := closingExtent_end (closingExtent_lt_of_attributes hne)
        rw [leavesAll, leaves, leavesAll_map_leaf, hb, List.getLast?_append] at hu
        cases hmore : (leavesAll (attributes (ts.drop (closingExtent 1 ts))).1).getLast? with
        | none =>
          rw [hmore, Option.none_or, ← List.cons_append, List.getLast?_concat] at hu
          rwa [← Option.some.inj hu]
        | some x =>
          rw [hmore, Option.some_or] at hu
          rw [hu] at hmore
          exact ih _ (by rw [List.length_drop, List.length_cons]; omega) hne hmore
      · rw [attributes_of_ne ts ht] at hu
        cases hu

/-- The modifiers as one list, if there are any. -/
def modifierList (mods : List Token) : List Tree :=
  if mods = [] then [] else [node .modifierList (mods.map leaf)]

/-- Attributes, modifiers and the rest, as three runs of the tokens. -/
theorem exists_leading (ts : List Token) :
    ∃ mods rest, (attributes ts).2 = mods ++ rest ∧
      leading ts = ((attributes ts).1 ++ modifierList mods, rest) ∧
      ∀ m ∈ mods, isModifierToken m = true := by
  refine ⟨_, _, (List.take_append_drop (modifierExtent (attributes ts).2) _).symm, ?_,
    fun m hm => isModifierToken_of_mem hm⟩
  rw [leading]
  dsimp only
  rw [modifiers_eq, modifierList]
  by_cases h0 : modifierExtent (attributes ts).2 = 0
  · rw [if_pos h0, h0, List.take_zero, if_pos rfl]
  · rw [if_neg h0, if_neg]
    intro hnil
    rcases List.take_eq_nil_iff.1 hnil with h | h
    · exact h0 h
    · rw [h] at h0
      exact h0 rfl

/-- Attribute lists are read the same in front of everything but another one. -/
theorem attributes_leaves {ts : List Token} {u : Token} (hne : (attributes ts).2 ≠ [])
    (hu : u.kind ≠ .lbracket) (us : List Token) :
    attributes (leavesAll (attributes ts).1 ++ u :: us) = ((attributes ts).1, u :: us) := by
  induction ts using shorter_induction with
  | step ts ih =>
    cases ts with
    | nil =>
      rw [attributes] at hne
      exact absurd rfl hne
    | cons t rest =>
      by_cases ht : t.kind = .lbracket
      · rw [attributes_of_lbracket rest ht] at hne ⊢
        have hmore := ih _ (by rw [List.length_drop, List.length_cons]; omega) hne
        have hlt := closingExtent_lt_of_attributes hne
        generalize (attributes (rest.drop (closingExtent 1 rest))).1 = attrs at hmore
        -- the bracket of the first list is closed within its own tokens
        have hclose := closingExtent_take_append hlt (leavesAll attrs ++ u :: us)
        rw [leavesAll, leaves, leavesAll_map_leaf, List.append_assoc, List.cons_append,
          attributes_of_lbracket _ ht, hclose, List.take_left, List.drop_left, hmore]
      · rw [attributes_of_ne rest ht, leavesAll, List.nil_append]
        exact attributes_of_ne us hu

theorem modifierExtent_eq {mods : List Token} {k : Token}
    (h : ∀ m ∈ mods, isModifierToken m = true) (hk : k.kind = .keyword .eventKw)
    (us : List Token) : modifierExtent (mods ++ k :: us) = mods.length := by
  induction mods with
  | nil => simp [modifierExtent, Token.isWord, hk, TokenKind.isModifier, Keyword.isModifier]
  | cons m mods ih =>
    have hnext :
        ((mods ++ k :: us).head?.any fun t => t.kind = .ident || t.kind.isKeyword) = true := by
      cases mods with
      | nil => simp [hk, TokenKind.isKeyword]
      | cons t mods =>
        rcases isModifierToken_word (h t (by simp)) with ht | ht <;> simp [ht]
    have hm := h m List.mem_cons_self
    rw [isModifierToken] at hm
    rw [List.cons_append, modifierExtent, hnext, Bool.and_true, if_pos hm,
      ih fun t ht => h t (List.mem_cons_of_mem m ht), List.length_cons, Nat.add_comm]

/-- The attributes of an event member are read again with other modifiers. -/
theorem attributes_front {ts mods : List Token} {k : Token} (hne : (attributes ts).2 ≠ [])
    (h : ∀ m ∈ mods, isModifierToken m = true) (hk : k.kind = .keyword .eventKw)
    (us : List Token) :
    attributes (leavesAll (attributes ts).1 ++ (mods ++ k :: us)) =
      ((attributes ts).1, mods ++ k :: us) := by
  cases mods with
  | nil => exact attributes_leaves hne (by rw [hk]; decide) us
  | cons m mods =>
    refine attributes_leaves hne (fun hm => ?_) _
    have hword := isModifierToken_word (h m List.mem_cons_self)
    rw [hm] at hword
    simp [TokenKind.isKeyword] at hword

/-- The front of an event member is read again with other modifiers. -/
theorem leading_eq {ts mods : List Token} {k : Token} (hne : (attributes ts).2 ≠ [])
    (h : ∀ m ∈ mods, isModifierToken m = true) (hk : k.kind = .keyword .eventKw)
    (us : List Token) :
    leading (leavesAll (attributes ts).1 ++ (mods ++ k :: us)) =
      ((attributes ts).1 ++ modifierList mods, k :: us) := by
  rw [leading]
  dsimp only
  rw [attributes_front hne h hk us, modifiers_eq, modifierList, modifierExtent_eq h hk us,
    List.take_left, List.drop_left]
  by_cases hnil : mods = []
  · subst hnil
    simp
  · rw [if_neg hnil, if_neg (by rwa [List.length_eq_zero_iff])]

/-- Modifiers start with words that could be part of a name, as far as a keyword. -/
theorem exists_start {mods : List Token} {k : Token}
    (h : ∀ m ∈ mods, isModifierToken m = true) (hk : k.kind = .keyword .eventKw) (us : List Token) :
    ∃ w first rest, mods ++ k :: us = w ++ first :: rest ∧ Start w first ∧
      ∀ i w', w = i ++ w' →
        ∃ mods', mods = i ++ mods' ∧ w' ++ first :: rest = mods' ++ k :: us := by
  induction mods with
  | nil =>
    refine ⟨[], k, us, rfl, ⟨List.forall_mem_nil _, Or.inr (by rw [hk]; rfl)⟩, fun i w' hw => ?_⟩
    obtain ⟨rfl, rfl⟩ := List.append_eq_nil_iff.1 hw.symm
    exact ⟨[], rfl, rfl⟩
  | cons m mods ih =>
    obtain ⟨w, first, rest, heq, hs, hsplit⟩ := ih fun t ht => h t (List.mem_cons_of_mem m ht)
    -- a contextual modifier is an identifier for the name of a namespace, a keyword ends it
    rcases isModifierToken_word (h m List.mem_cons_self) with hm | hm
    · refine ⟨m :: w, first, rest, by rw [List.cons_append, heq]; rfl,
        ⟨List.forall_mem_cons.2 ⟨hm, hs.words⟩, hs.first⟩, fun i w' hw => ?_⟩
      cases i with
      | nil =>
        exact ⟨m :: mods, rfl, by rw [← show m :: w = w' from hw, List.cons_append, ← heq]; rfl⟩
      | cons t i =>
        obtain ⟨rfl, hi⟩ := List.cons.inj hw
        obtain ⟨mods', rfl, hrest⟩ := hsplit i w' hi
        exact ⟨mods', rfl, hrest⟩
    · refine ⟨[], m, mods ++ k :: us, rfl, ⟨List.forall_mem_nil _, Or.inr hm⟩, fun i w' hw => ?_⟩
      obtain ⟨rfl, rfl⟩ := List.append_eq_nil_iff.1 hw.symm
      exact ⟨m :: mods, rfl, rfl⟩

theorem startsMember_of_leading {ts us : List Token} {lead : List Tree} {first : Token}
    (h : leading ts = (lead, first :: us)) (hk : first.kind.isKeyword = true) :
    startsMember ts = true := by
  have hword : ∀ {t : Token} {rest}, t.kind = .ident ∨ t.kind.isKeyword = true →
      startsMember (t :: rest) = true := by
    intro t rest ht
    simp only [startsMember, List.head?_cons, Option.any_some, Bool.or_eq_true, decide_eq_true_eq,
      or_assoc]
    exact Or.inr ht
  obtain ⟨mods, rest, hm, hl, hmods⟩ := exists_leading ts
  rw [h] at hl
  obtain ⟨-, rfl⟩ := Prod.mk.inj hl
  cases ts with
  | nil =>
    rw [attributes] at hm
    simp at hm
  | cons t rest =>
    -- the first token opens an attribute list, is a modifier or is `first`
    by_cases ht : t.kind = .lbracket
    · rw [startsMember, List.head?_cons, Option.any_some, ht]
      rfl
    · rw [attributes_of_ne rest ht] at hm
      cases mods with
      | nil =>
        obtain ⟨rfl, rfl⟩ := List.cons.inj hm
        exact hword (Or.inr hk)
      | cons m mods =>
        obtain ⟨rfl, rfl⟩ := List.cons.inj hm
        exact hword (isModifierToken_word (hmods t List.mem_cons_self))

/-! ## 3. Event members among tokens -/

theorem nodeKind?_openType {kind : NodeKind} {lead : List Tree} {keyword : Token}
    {ts after : List Token} {n : Tree} (h : openType kind lead keyword ts = .whole n after) :
    n.nodeKind? = some kind := by
  unfold openType at h
  dsimp only at h
  split at h
  · obtain ⟨rfl, -⟩ := Opening.whole.inj h
    rfl
  · split at h
    · obtain ⟨rfl, -⟩ := Opening.whole.inj h
      rfl
    · split at h
      · obtain ⟨rfl, -⟩ := Opening.whole.inj h
        rfl
      · cases h

/-- Events and methods are read behind attributes and modifiers. -/
def isMemberKind (k : NodeKind) : Bool :=
  k.isEvent || k = .methodDeclaration

theorem isMemberKind_of_isTypeDeclaration {k : NodeKind} (h : k.isTypeDeclaration = true) :
    isMemberKind k = false := by
  cases k <;> first | rfl | cases h

/-- An event or a method is read by the reader of members, and declares no type. -/
theorem member_of_opening? {s : Scope} {ts after : List Token} {n : Tree}
    (ho : opening? s ts = some (.whole n after)) (hk : n.nodeKind?.any isMemberKind = true) :
    ∃ lead first us, leading ts = (lead, first :: us) ∧
      (first.kind = .keyword .eventKw ∧ event lead first us = (n, after) ∨
        typeKind? first us = none ∧ ∃ parts, method? (first :: us) = some (parts, after) ∧
          n = node .methodDeclaration (lead ++ parts)) := by
  cases ts with
  | nil => cases ho
  | cons t rest =>
    -- the kind of the node tells that only the reader of members can have made it
    rcases opening_cases s t rest with hu | hn | hr | hm
    · rw [opening?_of_using hu] at ho
      obtain ⟨rfl, -⟩ := Opening.whole.inj (Option.some.inj ho)
      cases hk
    · rw [opening?_of_namespace rest hn] at ho
      unfold openNamespace at ho
      dsimp only at ho
      split at ho
      · obtain ⟨rfl, -⟩ := Opening.whole.inj (Option.some.inj ho)
        cases hk
      · split at ho
        · cases ho
        · split at ho
          · cases ho
          · obtain ⟨rfl, -⟩ := Opening.whole.inj (Option.some.inj ho)
            cases hk
    · rw [opening?_of_rbrace rest hr] at ho
      obtain ⟨rfl, -⟩ := Opening.whole.inj (Option.some.inj ho)
      cases hk
    · rw [opening?_of_member hm] at ho
      have ho := Option.some.inj ho
      unfold member at ho
      split at ho
      · obtain ⟨rfl, -⟩ := Opening.whole.inj ho
        cases hk
      · rename_i first us hus
        refine ⟨_, first, us, Prod.ext rfl hus, ?_⟩
        split at ho
        · rename_i hf
          obtain ⟨hn, ha⟩ := Opening.whole.inj ho
          exact Or.inl ⟨hf, Prod.ext hn ha⟩
        · split at ho
          · rename_i kind htk
            rw [nodeKind?_openType ho, Option.any_some,
              isMemberKind_of_isTypeDeclaration (typeKind?_isTypeDeclaration htk)] at hk
            cases hk
          · rename_i htk
            split at ho
            · rename_i parts rest hparts
              obtain ⟨rfl, rfl⟩ := Opening.whole.inj ho
              exact Or.inr ⟨htk, parts, hus ▸ hparts, rfl⟩
            · obtain ⟨rfl, -⟩ := Opening.whole.inj ho
              cases hk

/-- An event member is read by the reader of events. -/
theorem opening?_event {s : Scope} {ts after : List Token} {n : Tree}
    (ho : opening? s ts = some (.whole n after)) (hk : n.nodeKind?.any NodeKind.isEvent = true) :
    ∃ lead keyword us, leading ts = (lead, keyword :: us) ∧
      keyword.kind = .keyword .eventKw ∧ event lead keyword us = (n, after) := by
  obtain ⟨k, hn, hevent⟩ := (Option.any_eq_true _ _).1 hk
  have hmember : n.nodeKind?.any isMemberKind = true := by
    rw [hn, Option.any_some, isMemberKind, hevent, Bool.true_or]
  obtain ⟨lead, first, us, hlead, hread | ⟨-, parts, -, rfl⟩⟩ := member_of_opening? ho hmember
  · exact ⟨lead, first, us, hlead, hread⟩
  · cases hk

/-- The children of an event member: attributes and modifiers, the keyword, and what follows, which
does not depend on them. -/
theorem event_children (keyword : Token) (us : List Token) :
    ∃ k cs after, (∀ c ∈ cs, c.isOf .modifierList = false) ∧
      ∀ lead, event lead keyword us = (node k (lead ++ leaf keyword :: cs), after) := by
  have hleaf : ∀ (xs : List Token), ∀ c ∈ xs.map leaf, c.isOf .modifierList = false := by
    intro xs c hc
    obtain ⟨x, -, rfl⟩ := List.mem_map.1 hc
    rfl
  -- no type, a type and accessors, a type and names
  simp only [event_eq]
  split
  · exact ⟨_, _, _, hleaf _, fun _ => rfl⟩
  · rename_i type rest ht
    have htype : type.isOf .modifierList = false := by
      have hn := isTypeNode_typeName? ht
      cases type with
      | leaf t => rfl
      | node k cs => cases k <;> first | rfl | cases hn
    split
    · rename_i name opening after' hd
      refine ⟨.eventDeclaration, type :: qualifier (qualifierExtent rest) rest ++
        [leaf name, (accessorList opening after').1], (accessorList opening after').2,
        fun c hc => ?_, fun _ => by simp⟩
      rcases List.mem_append.1 hc with hc | hc
      · rcases List.mem_cons.1 hc with rfl | hc
        · exact htype
        · unfold qualifier at hc
          split at hc
          · cases hc
          · rw [List.mem_singleton.1 hc]
            rfl
      · rcases List.mem_cons.1 hc with rfl | hc
        · rfl
        · rw [List.mem_singleton.1 hc]
          rfl
    · simp only [fieldEvent]
      split <;> refine ⟨_, _, _, fun c hc => ?_, fun _ => rfl⟩ <;>
        rcases List.mem_cons.1 hc with rfl | hc
      · rfl
      · unfold optional at hc
        split at hc
        · cases hc
        · split at hc
          · rw [List.mem_singleton.1 hc]
            rfl
          · cases hc
      · rfl
      · exact hleaf _ c hc

theorem childTokens_map_leaf (k : NodeKind) (ts : List Token) :
    (node k (ts.map leaf)).childTokens = ts := by
  rw [childTokens, children, List.filterMap_map]
  exact List.filterMap_some

/-- An event member opens with an attribute, a modifier or its keyword. -/
theorem opensMember_event {t : Token} (s : Scope) (us : List Token)
    (h : t.kind = .lbracket ∨ isModifierToken t = true ∨ t.kind = .keyword .eventKw) :
    opensMember s (t :: us) = true := by
  have hkind : t.kind ≠ .keyword .usingKw ∧ t.kind ≠ .keyword .namespaceKw ∧ t.kind ≠ .rbrace := by
    refine ⟨?_, ?_, ?_⟩ <;> intro hk <;>
      simp [isModifierToken, Token.isWord, hk, TokenKind.isModifier, Keyword.isModifier] at h
  simp [opensMember, hkind]

section

variable {ls ls' : List Level} {out : List (Bool × Tree)} {cs : List Tree}
  {r a ts mods us after : List Token} {k : Token} {kind : NodeKind}

/-- An event member is read where its front is put together from attributes and modifiers. -/
theorem opening?_of_event (s : Scope) (hne : (attributes ts).2 ≠ [])
    (hmods : ∀ m ∈ mods, isModifierToken m = true) (hk : k.kind = .keyword .eventKw)
    (hevent : ∀ lead, event lead k us = (node kind (lead ++ leaf k :: cs), after)) :
    s.ends (leavesAll (attributes ts).1 ++ (mods ++ k :: us)) = false ∧
      opening? s (leavesAll (attributes ts).1 ++ (mods ++ k :: us)) = some (.whole
        (node kind ((attributes ts).1 ++ modifierList mods ++ leaf k :: cs)) after) := by
  have hlead := leading_eq hne hmods hk us
  -- whatever comes first starts a member in every scope
  obtain ⟨t, vs, htv, ht⟩ : ∃ t vs, leavesAll (attributes ts).1 ++ (mods ++ k :: us) = t :: vs ∧
      (t.kind = .lbracket ∨ isModifierToken t = true ∨ t.kind = .keyword .eventKw) := by
    rcases first_of_attributes ts with hnil | ⟨t, vs, hcons, ht⟩
    · rw [hnil, leavesAll, List.nil_append]
      cases mods with
      | nil => exact ⟨k, us, rfl, Or.inr (Or.inr hk)⟩
      | cons m mods => exact ⟨m, _, rfl, Or.inr (Or.inl (hmods m List.mem_cons_self))⟩
    · exact ⟨t, _, by rw [hcons]; rfl, Or.inl ht⟩
  have hr : t.kind ≠ .rbrace := by
    intro hr
    simp [isModifierToken, Token.isWord, hr, TokenKind.isModifier] at ht
  rw [htv] at hlead ⊢
  refine ⟨by simp [Scope.ends, Scope.endsAt, hr], ?_⟩
  rw [opening?_of_member (opensMember_event s vs ht), hlead]
  simp [member, hk, hevent]

theorem taggedFrom_event (l : Level) (ls : List Level) (hne : (attributes ts).2 ≠ [])
    (hmods : ∀ m ∈ mods, isModifierToken m = true) (hk : k.kind = .keyword .eventKw)
    (hevent : ∀ lead, event lead k us = (node kind (lead ++ leaf k :: cs), after))
    (hkind : kind.isEvent = true) :
    taggedFrom (l :: ls) (leavesAll (attributes ts).1 ++ (mods ++ k :: us)) =
      (l.hidden, node kind ((attributes ts).1 ++ modifierList mods ++ leaf k :: cs)) ::
        taggedFrom (l :: ls) after := by
  obtain ⟨hends, hopen⟩ := opening?_of_event l.scope hne hmods hk hevent
  rw [taggedFrom_of_whole ls hends hopen, taggedEvents, if_pos hkind, List.singleton_append]

/-- The machine comes to an event member with other modifiers than the one that was read. The name
of a namespace may take words from its front. -/
theorem Front.resume_event (hf : Front ls out ls' r a)
    (hmods : ∀ m ∈ mods, isModifierToken m = true) (hk : k.kind = .keyword .eventKw)
    (hw : AngleLike r (leavesAll (attributes ts).1 ++ (mods ++ k :: us))) :
    ∃ i mods', mods = i ++ mods' ∧ (∀ t ∈ i, t.kind = .ident) ∧
      (r.head? = (leavesAll (attributes ts).1 ++ (mods ++ k :: us)).head? → i = []) ∧
      Run ls (a ++ (leavesAll (attributes ts).1 ++ (mods ++ k :: us))) out ls'
        (leavesAll (attributes ts).1 ++ (mods' ++ k :: us)) := by
  -- an attribute list shields the modifiers from a name in front of the member
  rcases first_of_attributes ts with hnil | ⟨t, vs, hcons, ht⟩
  · obtain ⟨w, first, rest, hsplit, hs, hmore⟩ := exists_start hmods hk us
    rw [hnil, leavesAll, List.nil_append, hsplit] at hw
    obtain ⟨i, w', rfl, hsame, hresume⟩ := hf.resume w first rest hs hw
    obtain ⟨mods', rfl, hrest⟩ := hmore i w' rfl
    refine ⟨i, mods', rfl, fun t ht => hs.words t (List.mem_append_left _ ht), ?_, ?_⟩
    · rwa [hnil, leavesAll, List.nil_append, hsplit]
    rw [hnil, leavesAll, List.nil_append, List.nil_append, hsplit, ← hrest]
    exact hresume
  · rw [hcons] at hw ⊢
    obtain ⟨i, w', hi, -, hresume⟩ := hf.resume [] t _ ⟨List.forall_mem_nil _, Or.inl ht⟩ hw
    obtain ⟨rfl, rfl⟩ := List.append_eq_nil_iff.1 hi.symm
    exact ⟨[], mods, rfl, List.forall_mem_nil _, fun _ => rfl, hresume⟩

end

/-! ## 4. What an event says -/

section

variable {t n : Tree} {u : Token}

theorem kind_of_childToken? {k : TokenKind} (h : t.childToken? k = some u) : u.kind = k := by
  have hfound := List.find?_some h
  exact of_decide_eq_true hfound

theorem mem_leaves_of_mem_childTokens (h : u ∈ t.childTokens) : u ∈ t.leaves := by
  cases t with
  | leaf t => cases h
  | node kind cs =>
    obtain ⟨c, hc, htok⟩ := List.mem_filterMap.1 h
    cases c with
    | leaf x =>
      obtain rfl := Option.some.inj htok
      exact leaves_subset_leavesAll hc List.mem_cons_self
    | node k cs => cases htok

theorem mem_leaves_of_childToken? {k : TokenKind} (h : t.childToken? k = some u) :
    u ∈ t.leaves :=
  mem_leaves_of_mem_childTokens (List.mem_of_find?_eq_some h)

theorem mem_leaves_of_mem_childNodes {c : Tree} (hc : c ∈ t.childNodes) (hu : u ∈ c.leaves) :
    u ∈ t.leaves := by
  cases t with
  | leaf t => cases hc
  | node kind cs => exact leaves_subset_leavesAll (List.mem_of_mem_filter hc) hu

theorem mem_leaves_of_childNode? {k : NodeKind} {c : Tree} (hc : t.childNode? k = some c)
    (hu : u ∈ c.leaves) : u ∈ t.leaves := by
  cases t with
  | leaf t => cases hc
  | node kind cs => exact leaves_subset_leavesAll (List.mem_of_find?_eq_some hc) hu

end

end Tree

namespace Event

open EventLint.Tree

/-- What an event keeps of the node it was made from. -/
structure Views (e : Event) (n : Tree) : Prop where
  node : e.node = n
  kind : n.nodeKind? = some (Rule.ofShape e.shape).nodeKind
  name : e.nameToken ∈ n.leaves
  isName : e.nameToken.kind = .ident
  modifiers : e.modifiers = modifiersOf n

theorem views_of_ofTree? {n : Tree} {e : Event} (h : ofTree? n = some e) : e.Views n := by
  unfold ofTree? at h
  split at h
  · rename_i hk
    simp only [ofField?, Option.bind_eq_bind, Option.bind_eq_some_iff, Option.pure_def,
      Option.some.injEq] at h
    obtain ⟨declaration, hd, type, -, first, hf, name, hname, rfl⟩ := h
    refine ⟨rfl, hk, ?_, kind_of_childToken? hname, rfl⟩
    have hmem := List.mem_of_mem_filter (List.mem_of_mem_head? hf)
    exact mem_leaves_of_childNode? hd
      (mem_leaves_of_mem_childNodes hmem (mem_leaves_of_childToken? hname))
  · rename_i hk
    simp only [ofAccessors?, Option.bind_eq_bind, Option.bind_eq_some_iff, Option.pure_def,
      Option.some.injEq] at h
    obtain ⟨type, -, name, hname, list, -, rfl⟩ := h
    exact ⟨rfl, hk, mem_leaves_of_childToken? hname, kind_of_childToken? hname, rfl⟩
  · cases h

theorem Views.modifier? {n : Tree} {e : Event} (h : e.Views n) (k : TokenKind) :
    e.modifier? k = Modifier.token? n k := by
  rw [Event.modifier?, h.modifiers, modifiersOf, Modifier.token?]
  cases n.childNode? .modifierList <;> rfl

end Event

namespace Tree

/-! ## 5. Events of a tree -/

mutual

theorem mem_preorder_of_mem_eventNodes (t : Tree) {n : Tree} (h : n ∈ t.eventNodes) :
    n ∈ t.preorder ∧ n.nodeKind?.any NodeKind.isEvent = true := by
  cases t with
  | leaf t => cases h
  | node k cs =>
    rw [eventNodes] at h
    split at h
    · rename_i hk
      rw [List.mem_singleton.1 h]
      exact ⟨List.mem_cons_self, hk⟩
    · obtain ⟨hn, hk⟩ := mem_preorderAll_of_mem_eventNodesAll cs h
      exact ⟨List.mem_cons_of_mem _ hn, hk⟩

theorem mem_preorderAll_of_mem_eventNodesAll (cs : List Tree) {n : Tree}
    (h : n ∈ eventNodesAll cs) : n ∈ preorderAll cs ∧ n.nodeKind?.any NodeKind.isEvent = true := by
  cases cs with
  | nil => cases h
  | cons c cs =>
    rw [preorderAll]
    rcases List.mem_append.1 h with h | h
    · obtain ⟨hn, hk⟩ := mem_preorder_of_mem_eventNodes c h
      exact ⟨List.mem_append_left _ hn, hk⟩
    · obtain ⟨hn, hk⟩ := mem_preorderAll_of_mem_eventNodesAll cs h
      exact ⟨List.mem_append_right _ hn, hk⟩

end

mutual

/-- The leaves of the events are leaves of the tree, in the same order. -/
theorem leaves_eventNodes_sublist (t : Tree) :
    (t.eventNodes.flatMap leaves).Sublist t.leaves := by
  cases t with
  | leaf t => exact List.nil_sublist _
  | node k cs =>
    rw [eventNodes]
    split
    · rw [List.flatMap_singleton]
    · exact leaves_eventNodesAll_sublist cs

theorem leaves_eventNodesAll_sublist (cs : List Tree) :
    ((eventNodesAll cs).flatMap leaves).Sublist (leavesAll cs) := by
  cases cs with
  | nil => exact List.nil_sublist _
  | cons c cs =>
    rw [eventNodesAll, List.flatMap_append, leavesAll]
    exact (leaves_eventNodes_sublist c).append (leaves_eventNodesAll_sublist cs)

end

mutual

/-- The virtual events are made from some of the event members, in the same order. -/
theorem virtualEvents_sublist (t : Tree) :
    (t.virtualEvents.map Event.node).Sublist t.eventNodes := by
  cases t with
  | leaf t => exact List.nil_sublist _
  | node k cs =>
    rw [virtualEvents, eventNodes]
    split
    · cases he : (Event.ofTree? (node k cs)).filter Event.isVirtual with
      | none => exact List.nil_sublist _
      | some e =>
        obtain ⟨he, -⟩ := Option.filter_eq_some_iff.1 he
        rw [Option.toList_some, List.map_singleton, (Event.views_of_ofTree? he).node]
    · split
      · exact List.nil_sublist _
      · exact virtualEventsAll_sublist cs

theorem virtualEventsAll_sublist (cs : List Tree) :
    ((virtualEventsAll cs).map Event.node).Sublist (eventNodesAll cs) := by
  cases cs with
  | nil => exact List.nil_sublist _
  | cons c cs =>
    rw [virtualEventsAll, List.map_append, eventNodesAll]
    exact (virtualEvents_sublist c).append (virtualEventsAll_sublist cs)

end

mutual

theorem ofTree?_of_mem_virtualEvents (t : Tree) {e : Event} (h : e ∈ t.virtualEvents) :
    Event.ofTree? e.node = some e ∧ e.isVirtual = true := by
  cases t with
  | leaf t => cases h
  | node k cs =>
    rw [virtualEvents] at h
    split at h
    · obtain ⟨he, hv⟩ := Option.filter_eq_some_iff.1 (Option.mem_toList.1 h)
      rw [(Event.views_of_ofTree? he).node]
      exact ⟨he, hv⟩
    · split at h
      · cases h
      · exact ofTree?_of_mem_virtualEventsAll cs h

theorem ofTree?_of_mem_virtualEventsAll (cs : List Tree) {e : Event}
    (h : e ∈ virtualEventsAll cs) : Event.ofTree? e.node = some e ∧ e.isVirtual = true := by
  cases cs with
  | nil => cases h
  | cons c cs =>
    rcases List.mem_append.1 h with h | h
    · exact ofTree?_of_mem_virtualEvents c h
    · exact ofTree?_of_mem_virtualEventsAll cs h

end

theorem virtualEventsAll_append (a b : List Tree) :
    virtualEventsAll (a ++ b) = virtualEventsAll a ++ virtualEventsAll b := by
  induction a with
  | nil => rfl
  | cons c a ih => rw [List.cons_append, virtualEventsAll, virtualEventsAll, ih, List.append_assoc]

theorem virtualEvents_eq_nil {t : Tree} (h : t.eventNodes = []) : t.virtualEvents = [] := by
  have hsub := virtualEvents_sublist t
  rw [h] at hsub
  exact List.map_eq_nil_iff.1 (List.sublist_nil.1 hsub)

theorem virtualEventsAll_eq_nil {cs : List Tree} (h : ∀ c ∈ cs, IsPart c) :
    virtualEventsAll cs = [] := by
  have hsub := virtualEventsAll_sublist cs
  rw [eventNodesAll_eq_nil fun c hc => (h c hc).eventNodes] at hsub
  exact List.map_eq_nil_iff.1 (List.sublist_nil.1 hsub)

theorem virtualEvents_closeContainer {kind : NodeKind} {parts : List Tree} (s : Scope)
    (inner : List Tree × List Token) (hk : kind.isContainer = true)
    (hi : kind ≠ .interfaceDeclaration) (hp : ∀ c ∈ parts, IsPart c) :
    (closeContainer kind parts s inner).1.virtualEvents = virtualEventsAll inner.1 := by
  have hoptional : ∀ k ts, virtualEventsAll (optional k ts).1 = [] := fun k ts =>
    virtualEventsAll_eq_nil (reads_optional k ts).parts
  cases s <;>
    simp only [closeContainer, virtualEvents, isEvent_of_isContainer hk, Bool.false_eq_true,
      if_false, hi, virtualEventsAll_append, virtualEventsAll_eq_nil hp, hoptional,
      List.nil_append, List.append_nil]

/-- The virtual events that are still to come where `scopes` are open, the innermost first. -/
def virtualFrom : List Scope → List Token → List Event
  | [], _ => []
  | s :: ss, ts =>
    virtualEventsAll (declarations s ts).1 ++ virtualFrom ss (afterClose s (declarations s ts).2)

theorem virtualFrom_file (ts : List Token) :
    virtualFrom [.file] ts = (ofTokens ts).virtualEvents := by
  rw [virtualFrom, virtualFrom, List.append_nil, ofTokens, virtualEvents]
  rfl

section

variable {s inner : Scope} {ts after : List Token} {tree : Tree} {kind : NodeKind}
  {parts : List Tree}

theorem virtualFrom_of_ends (ss : List Scope) (h : s.ends ts = true) :
    virtualFrom (s :: ss) ts = virtualFrom ss (afterClose s ts) := by
  rw [virtualFrom, declarations_of_ends h]
  rfl

theorem virtualFrom_of_whole (ss : List Scope) (he : s.ends ts = false)
    (h : opening? s ts = some (.whole tree after)) :
    virtualFrom (s :: ss) ts = tree.virtualEvents ++ virtualFrom (s :: ss) after := by
  rw [virtualFrom, declarations_of_whole he h, virtualEventsAll, virtualFrom, List.append_assoc]

theorem virtualFrom_of_container (ss : List Scope) (he : s.ends ts = false)
    (h : opening? s ts = some (.container kind parts inner after))
    (hi : kind ≠ .interfaceDeclaration) :
    virtualFrom (s :: ss) ts = virtualFrom (inner :: s :: ss) after := by
  obtain ⟨hr, hk, -⟩ := opening?_container h
  rw [virtualFrom, declarations_of_container he h, virtualEventsAll,
    virtualEvents_closeContainer inner _ hk hi hr.parts, virtualFrom, virtualFrom,
    List.append_assoc]

end

/-! ## 6. Nodes inside nodes -/

theorem IsPart.of_mem_preorder {t n : Tree} (h : IsPart t) (hn : n ∈ t.preorder) : IsPart n := by
  induction h with
  | leaf t => cases hn
  | @node k cs hk hname hne hcs ih =>
    rcases List.mem_cons.1 hn with rfl | hn
    · exact IsPart.node hk hname hne hcs
    · obtain ⟨c, hc, hn⟩ := exists_of_mem_preorderAll hn
      exact ih c hc hn

theorem IsDeclaration.of_mem_preorder {t n : Tree} (h : IsDeclaration t) (hn : n ∈ t.preorder) :
    IsPart n ∨ IsDeclaration n := by
  induction h with
  | @flat k cs hk hne hcs =>
    rcases List.mem_cons.1 hn with rfl | hn
    · exact Or.inr (.flat hk hne hcs)
    · obtain ⟨c, hc, hn⟩ := exists_of_mem_preorderAll hn
      exact Or.inl ((hcs c hc).of_mem_preorder hn)
  | @nest k cs hk hne hcs ih =>
    rcases List.mem_cons.1 hn with rfl | hn
    · exact Or.inr (.nest hk hne hcs)
    · obtain ⟨c, hc, hn⟩ := exists_of_mem_preorderAll hn
      by_cases hp : IsPart c
      · exact Or.inl (hp.of_mem_preorder hn)
      · exact ih c hc hp hn

theorem IsPart.not_isEvent {t : Tree} (h : IsPart t) :
    t.nodeKind?.any NodeKind.isEvent = false := by
  cases h with
  | leaf t => rfl
  | node hk _ _ _ => exact isEvent_of_isPart hk

/-- A node of a source file is the file itself, a part of a declaration or a declaration. -/
theorem mem_preorder_ofTokens {ts : List Token} {n : Tree} (hn : n ∈ (ofTokens ts).preorder) :
    n = ofTokens ts ∨ IsPart n ∨ IsDeclaration n := by
  rcases List.mem_cons.1 hn with rfl | hn
  · exact Or.inl rfl
  · obtain ⟨c, hc, hn⟩ := exists_of_mem_preorderAll hn
    exact Or.inr (((declares_declarations .file ts).declarations c hc).of_mem_preorder hn)

/-- No event stands inside another. -/
theorem not_isEvent_of_mem {ts : List Token} {n m : Tree} {k : NodeKind} {cs : List Tree}
    (hn : n ∈ (ofTokens ts).preorder) (he : n.nodeKind?.any NodeKind.isEvent = true)
    (hcs : n = node k cs) (hm : m ∈ preorderAll cs) :
    m.nodeKind?.any NodeKind.isEvent = false := by
  rcases mem_preorder_ofTokens hn with rfl | hp | hd
  · cases he
  · rw [hp.not_isEvent] at he
    cases he
  · subst hcs
    cases hd with
    | flat _ _ hparts =>
      obtain ⟨c, hc, hm⟩ := exists_of_mem_preorderAll hm
      exact ((hparts c hc).of_mem_preorder hm).not_isEvent
    | nest hk _ _ =>
      rw [nodeKind?, Option.any_some, isEvent_of_isContainer hk] at he
      cases he

theorem filled_ofTokens {ts : List Token} (h : ts ≠ []) : (ofTokens ts).Filled := by
  intro n hn
  rcases mem_preorder_ofTokens hn with rfl | hp | hd
  · rwa [leaves_ofTokens]
  · exact leaves_ne_nil hp
  · exact hd.leaves_ne_nil

end Tree

namespace Document

open EventLint.Tree Token

theorem inOrder_ofText (text : Text) : InOrder (ofText text).root.leaves := by
  rw [ofText, leaves_ofTokens]
  exact (scan_inPlace text).inOrder

theorem inOrder_of_mem {text : Text} {n : Tree} (hn : n ∈ (ofText text).root.preorder) :
    InOrder n.leaves := by
  obtain ⟨a, b, hab⟩ := leaves_infix _ hn
  have ho := inOrder_ofText text
  rw [hab] at ho
  exact ho.infix

/-- The tokens of a node are tokens of the text. -/
theorem mem_scan_of_mem_leaves {text : Text} {n : Tree} {t : Token}
    (hn : n ∈ (ofText text).root.preorder) (ht : t ∈ n.leaves) : t ∈ Token.scan text := by
  obtain ⟨a, b, hab⟩ := leaves_infix _ hn
  rw [show (ofText text).root.leaves = Token.scan text from leaves_ofTokens _] at hab
  rw [hab]
  exact List.mem_append_left _ (List.mem_append_right _ ht)

/-- An event is found by any byte of it. -/
theorem ancestor?_event {text : Text} {n : Tree} {offset : Nat} {accepts : Tree → Bool}
    (hn : n ∈ (ofText text).root.preorder) (he : n.nodeKind?.any NodeKind.isEvent = true)
    (ho : ((ofText text).spanOf n).contains offset = true) (hyes : accepts n = true)
    (hno : ∀ m : Tree, m.nodeKind?.any NodeKind.isEvent = false → accepts m = false) :
    (ofText text).ancestor? offset accepts = some n := by
  have hleaves : n.leaves ≠ [] := by
    rcases mem_preorder_ofTokens hn with rfl | hp | hd
    · cases he
    · exact leaves_ne_nil hp
    · exact hd.leaves_ne_nil
  have hts : Token.scan text ≠ [] := by
    intro hnil
    obtain ⟨a, b, hab⟩ := leaves_infix _ hn
    rw [show (ofText text).root.leaves = _ from leaves_ofTokens _, hnil] at hab
    simp at hab
    exact hleaves hab.2.1
  have hroot := contains_of_mem (inOrder_ofText text) hn hleaves ho
  obtain ⟨above, hpath⟩ := pathDown_eq _ (inOrder_ofText text) (filled_ofTokens hts) hn ho
  have htouch : (((ofText text).root.span (ofText text).eof).touches offset) = true := by
    rw [contains_iff] at hroot
    rw [Span.touches, Bool.and_eq_true, decide_eq_true_eq, decide_eq_true_eq]
    exact ⟨hroot.1, Nat.le_of_lt hroot.2⟩
  rw [ancestor?, coveringPath, Tree.coveringPath, if_pos htouch, hpath, List.reverse_append,
    List.find?_append]
  cases hnode : n with
  | leaf t =>
    rw [hnode] at he
    cases he
  | node k cs =>
    -- below the event nothing is accepted
    have hbelow : (pathAmong (ofText text).eof offset cs).reverse.find? accepts = none := by
      refine List.find?_eq_none.2 fun m hm hacc => ?_
      rw [hno m (not_isEvent_of_mem hn he hnode (pathAmong_subset cs (List.mem_reverse.1 hm)))]
        at hacc
      cases hacc
    rw [pathDown, List.reverse_cons, List.find?_append, hbelow, Option.none_or, ← hnode,
      List.find?_cons_of_pos hyes, Option.some_or]

end Document

end EventLint
