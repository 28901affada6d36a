import EventLint.Analysis
import EventLint.Proofs.FirstLine
import EventLint.Proofs.Nesting

/-!
# Attributes of the whole file

An attribute list in front of a file belongs to no declaration, but is read as a part of the first
one. Main statement: it changes no finding, unless the first declaration is a `using` directive or
a namespace: then what a member without structure would take is not looked into. A directive and a
namespace without braces lose nothing by that, and one with braces loses all its findings.
-/

namespace EventLint

namespace Tree

open Grammar

/-! ## 1. One more child in front -/

/-- The tree with one more child in front. -/
def front (t a : Tree) : Tree :=
  match t with
  | leaf u => leaf u
  | node k cs => node k (a :: cs)

def Opening.front (o : Opening) (a : Tree) : Opening :=
  match o with
  | .whole tree rest => .whole (tree.front a) rest
  | .container kind parts scope rest => .container kind (a :: parts) scope rest

theorem openType_front (a : Tree) (kind : NodeKind) (lead : List Tree) (keyword : Token)
    (ts : List Token) :
    openType kind (a :: lead) keyword ts = (openType kind lead keyword ts).front a := by
  unfold openType
  dsimp only
  split
  · rfl
  · split
    · rfl
    · split <;> rfl

/-- A member is read as if its first attribute list were not there. -/
theorem member_front (a : Tree) {lead : List Tree} {ts : List Token}
    (h : lead.isEmpty = true → nextIs .rbrace ts = false) :
    member (a :: lead) ts = (member lead ts).front a := by
  cases ts with
  | nil => rfl
  | cons first rest =>
    unfold member
    dsimp only
    split
    · obtain ⟨k, cs, after, -, hevent⟩ := event_children first rest
      rw [hevent, hevent]
      rfl
    split
    · exact openType_front a _ lead first rest
    split
    · rfl
    · -- without anything in front one token at least is taken, which only a brace makes differ
      have hpos : lead.isEmpty = true → memberExtent (first :: rest) ≠ 0 := fun hl h0 => by
        rw [memberExtent, opaqueExtent_eq_zero (List.cons_ne_nil _ _), h hl] at h0
        cases h0
      rw [otherExtent_of_pos hpos, otherExtent_of_pos fun hl => by cases hl]
      rfl

theorem closeContainer_front (a : Tree) (kind : NodeKind) (parts : List Tree) (scope : Scope)
    (inner : List Tree × List Token) :
    closeContainer kind (a :: parts) scope inner =
      ((closeContainer kind parts scope inner).1.front a,
        (closeContainer kind parts scope inner).2) := by
  cases scope <;> rfl

/-- The tokens that stand in one attribute list. -/
def attributeList (ts : List Token) : Tree :=
  node .attributeList (ts.map leaf)

theorem virtualEventsAll_map_leaf (ts : List Token) : virtualEventsAll (ts.map leaf) = [] := by
  induction ts with
  | nil => rfl
  | cons t ts ih => rw [List.map_cons, virtualEventsAll, ih]; rfl

theorem virtualEvents_attributeList (ts : List Token) : (attributeList ts).virtualEvents = [] :=
  virtualEventsAll_map_leaf ts

/-- What an event says does not depend on its attributes. -/
theorem sight_ofTree?_front (as : List Token) (t : Tree) :
    (Event.ofTree? (t.front (attributeList as))).map Event.sight =
      (Event.ofTree? t).map Event.sight := by
  cases t with
  | leaf u => rfl
  | node k cs =>
    -- no part of an event is looked for among attribute lists
    have hnode : ∀ k', k' ≠ .attributeList → (node k (attributeList as :: cs)).childNode? k' =
        (node k cs).childNode? k' := fun k' hk =>
      List.find?_cons_of_neg (by simpa [isOf, attributeList, nodeKind?] using Ne.symm hk)
    have htoken : ∀ k', (node k (attributeList as :: cs)).childToken? k' =
        (node k cs).childToken? k' := fun _ => rfl
    have htype : Event.typeOf? (node k (attributeList as :: cs)) = Event.typeOf? (node k cs) := rfl
    have hmodifiers : Event.modifiersOf (node k (attributeList as :: cs)) =
        Event.modifiersOf (node k cs) := by
      rw [Event.modifiersOf, Event.modifiersOf, hnode _ (by decide)]
    unfold Event.ofTree?
    dsimp only [front, nodeKind?]
    split
    · simp only [Event.ofField?, Option.bind_eq_bind, hnode .variableDeclaration (by decide),
        hmodifiers, Option.map_bind, Function.comp_def, Option.pure_def, Option.map_some]
      rfl
    · simp only [Event.ofAccessors?, Option.bind_eq_bind, hnode .accessorList (by decide),
        hmodifiers, htoken, htype, Option.map_bind, Function.comp_def, Option.pure_def,
        Option.map_some]
      rfl
    · rfl

/-- An attribute list has no marks and hides none. -/
theorem marks_front (as : List Token) (t : Tree) :
    (t.front (attributeList as)).marks = t.marks := by
  cases t with
  | leaf u => rfl
  | node k cs =>
    have hsight := sight_ofTree?_front as (node k cs)
    cases hk : k.isEvent with
    | true =>
      rw [front] at hsight ⊢
      rw [marks_event hk, marks_event hk, hsight]
    | false =>
      rw [front, marks, marks, virtualEvents, virtualEvents, hk, if_neg Bool.false_ne_true,
        if_neg Bool.false_ne_true, virtualEventsAll, virtualEvents_attributeList, List.nil_append]

/-! ## 2. An attribute list in front of a file -/

theorem virtualEvents_ofTokens (ts : List Token) :
    (ofTokens ts).virtualEvents = virtualEventsAll (declarations .file ts).1 := by
  rw [ofTokens, virtualEvents]
  rfl

theorem marks_ofTokens_cons (t : Token) (rest : List Token) :
    (ofTokens (t :: rest)).marks =
      (declaration .file t rest).1.marks ++ (ofTokens (declaration .file t rest).2).marks := by
  rw [marks, marks, marks, virtualEvents_ofTokens, virtualEvents_ofTokens,
    declarations_cons rest rfl, virtualEventsAll, List.map_append]

theorem declaration_of_whole {t : Token} {rest after : List Token} {tree : Tree}
    (h : opening? .file (t :: rest) = some (.whole tree after)) :
    declaration .file t rest = (tree, after) := by
  rw [declaration, Option.some.inj h]

theorem declaration_of_front {t u : Token} {rest more : List Token} {o : Opening} {a : Tree}
    (ht : opening? .file (t :: rest) = some o)
    (hu : opening? .file (u :: more) = some (o.front a)) :
    declaration .file u more =
      ((declaration .file t rest).1.front a, (declaration .file t rest).2) := by
  rw [declaration, declaration, Option.some.inj ht, Option.some.inj hu]
  cases o with
  | whole tree after => rfl
  | container kind parts inner after => exact closeContainer_front a kind parts inner _

/-- How many tokens of a file an attribute list in front of it hides: a directive or a namespace
that it stands before is taken for a member without structure. -/
def hiddenExtent : List Token → Nat
  | [] => 0
  | t :: rest =>
    if t.kind = .keyword .usingKw && !nextIs .lparen rest || t.kind = .keyword .namespaceKw then
      memberExtent (t :: rest)
    else 0

theorem hiddenExtent_of_using {t : Token} {rest : List Token} (ht : t.kind = .keyword .usingKw)
    (hnext : nextIs .lparen rest = false) :
    hiddenExtent (t :: rest) = memberExtent (t :: rest) := by
  rw [hiddenExtent, if_pos]
  simp [ht, hnext]

theorem hiddenExtent_of_namespace {t : Token} (ht : t.kind = .keyword .namespaceKw)
    (rest : List Token) : hiddenExtent (t :: rest) = memberExtent (t :: rest) := by
  rw [hiddenExtent, if_pos]
  simp [ht]

theorem hiddenExtent_of_member {t : Token} {rest : List Token}
    (husing : t.kind = .keyword .usingKw → nextIs .lparen rest = true)
    (hnamespace : t.kind ≠ .keyword .namespaceKw) : hiddenExtent (t :: rest) = 0 := by
  rw [hiddenExtent, if_neg]
  simpa [hnamespace] using husing

/-- No member with structure starts with the keyword of a directive or a namespace, with a closing
brace or with a token that means nothing. -/
theorem member_of_other {t : Token} (rest : List Token) (lead : List Tree)
    (h : t.kind ∈ [.keyword .usingKw, .keyword .namespaceKw, .rbrace, .error]) :
    leading (t :: rest) = ([], t :: rest) ∧
      member lead (t :: rest) =
        .whole (node .otherMember
            (lead ++ ((t :: rest).take (otherExtent lead (t :: rest))).map leaf))
          ((t :: rest).drop (otherExtent lead (t :: rest))) := by
  simp only [List.mem_cons, List.not_mem_nil, or_false] at h
  -- no modifier, no type and no method starts with any of the four
  have hmodifier : modifierExtent (t :: rest) = 0 := by
    rcases h with h | h | h | h <;> simp [modifierExtent, Token.isWord, h, TokenKind.isModifier,
      Keyword.isModifier]
  have htype : typeKind? t rest = none := by
    rcases h with h | h | h | h <;> simp [typeKind?, Token.isWord, h]
  have hmethod : method? (t :: rest) = none := by
    rcases h with h | h | h | h <;> rw [method?, typeName?, if_neg, if_neg] <;> rw [h] <;> decide
  constructor
  · rw [leading, attributes_of_ne rest (by rcases h with h | h | h | h <;> rw [h] <;> decide)]
    dsimp only
    rw [modifiers_eq, hmodifier]
    rfl
  · rw [member, if_neg (by rcases h with h | h | h | h <;> rw [h] <;> decide), htype]
    dsimp only
    rw [hmethod]

theorem marks_otherMember (as ts : List Token) :
    (node .otherMember (attributeList as :: ts.map leaf)).marks = [] := by
  rw [marks, virtualEvents, if_neg (by decide), if_neg (by decide), virtualEventsAll,
    virtualEvents_attributeList, virtualEventsAll_map_leaf]
  rfl

section

variable {o e : Token} {b : List Token} (ho : o.kind = .lbracket) (hb : Nested Token.kind b)
  (he : e.kind.closes = true)

include ho hb he

theorem leading_attribute (us : List Token) :
    leading (o :: (b ++ e :: us)) =
      (attributeList (o :: (b ++ [e])) :: (leading us).1, (leading us).2) := by
  rw [leading, leading, attributes_of_lbracket _ ho, closingExtent_group hb he, List.append_cons,
    List.take_left' (by simp), List.drop_left' (by simp)]
  rfl

theorem opening?_attribute (us : List Token) :
    opening? .file (o :: (b ++ e :: us)) =
      some (member (attributeList (o :: (b ++ [e])) :: (leading us).1) (leading us).2) := by
  rw [opening?_of_member (by rw [opensMember, ho]; rfl), leading_attribute ho hb he]

/-- An attribute list in front of a file adds no mark, and removes only those of the tokens that it
hides. -/
theorem marks_attribute (us : List Token) :
    (ofTokens (o :: (b ++ e :: us))).marks = (ofTokens (us.drop (hiddenExtent us))).marks := by
  have hopening := opening?_attribute ho hb he us
  rw [marks_ofTokens_cons]
  cases us with
  | nil =>
    have hleading : leading [] = ([], []) := by rw [leading, attributes]; rfl
    rw [hleading] at hopening
    rw [declaration_of_whole hopening]
    exact congrArg (· ++ _) (marks_otherMember _ [])
  | cons t rest =>
    have hcases : (t.kind = .keyword .usingKw ∧ nextIs .lparen rest = false ∨
        t.kind = .keyword .namespaceKw ∨ t.kind = .rbrace) ∨
        opensMember .file (t :: rest) = true := by
      have h := opening_cases .file t rest
      simp only [Bool.and_eq_true, decide_eq_true_eq, Bool.not_eq_true'] at h
      tauto
    rcases hcases with hother | hmember
    · -- what a member without structure takes is lost, and a closing brace is not taken
      have hhidden : hiddenExtent (t :: rest) = memberExtent (t :: rest) := by
        rcases hother with ⟨h, hnext⟩ | h | h
        · exact hiddenExtent_of_using h hnext
        · exact hiddenExtent_of_namespace h rest
        · simp [hiddenExtent, h, memberExtent, opaqueExtent_of_rbrace]
      obtain ⟨hleading, hwhole⟩ := @member_of_other t rest [attributeList (o :: (b ++ [e]))]
        (by rcases hother with ⟨h, -⟩ | h | h <;> rw [h] <;> decide)
      rw [otherExtent_of_pos fun hl => by cases hl] at hwhole
      rw [hleading, hwhole, List.singleton_append] at hopening
      rw [declaration_of_whole hopening, marks_otherMember, List.nil_append, hhidden]
    · -- the declaration is a member, with or without the attribute list
      obtain ⟨⟨husing, hnamespace⟩, hbrace⟩ : ((t.kind = .keyword .usingKw →
          nextIs .lparen rest = true) ∧ t.kind ≠ .keyword .namespaceKw) ∧ t.kind ≠ .rbrace := by
        simpa [opensMember, imp_iff_not_or] using hmember
      have hnext : (leading (t :: rest)).1.isEmpty = true →
          nextIs .rbrace (leading (t :: rest)).2 = false := by
        intro hempty
        have hreads := (reads_leading (t :: rest)).leaves
        rw [List.isEmpty_iff.1 hempty, leavesAll, List.nil_append] at hreads
        rw [hreads]
        exact decide_eq_false hbrace
      rw [member_front _ hnext] at hopening
      rw [declaration_of_front (opening?_of_member hmember) hopening, marks_front,
        hiddenExtent_of_member husing hnamespace, List.drop_zero, marks_ofTokens_cons]

end

/-! ## 3. What an attribute list hides -/

theorem hiddenExtent_map (f : Relabelling) (ts : List Token) :
    hiddenExtent (ts.map f.apply) = hiddenExtent ts := by
  cases ts with
  | nil => rfl
  | cons t ts =>
    have hextent := memberExtent_map f (t :: ts)
    rw [List.map_cons] at hextent ⊢
    simp only [hiddenExtent, f.kind_apply, nextIs_map, hextent]

theorem nested_of_name {c : List Token} (hc : ∀ u ∈ c, isNamePart u = true) :
    Nested Token.kind c ∧ ∀ u ∈ c, u.kind ≠ .semicolon ∧ u.kind ≠ .lbrace := by
  have hpart : ∀ u ∈ c, u.kind = .ident ∨ u.kind = .dot ∨ u.kind = .colonColon := fun u hu => by
    simpa [isNamePart, or_assoc] using hc u hu
  constructor
  · clear hc
    induction c with
    | nil => exact .nil
    | cons u c ih =>
      have hmore := ih fun v hv => hpart v (List.mem_cons_of_mem u hv)
      rcases hpart u List.mem_cons_self with h | h | h <;>
        exact .plain (by rw [h]; rfl) (by rw [h]; rfl) hmore
  · intro u hu
    rcases hpart u hu with h | h | h <;> rw [h] <;> decide

/-- What a directive or a namespace up to a semicolon takes as a member. -/
theorem drop_memberExtent {t e : Token} {b : List Token} (ht : t.kind.isPlain = true)
    (hb : Nested Token.kind b) (hquiet : ∀ u ∈ b, u.kind ≠ .semicolon ∧ u.kind ≠ .lbrace)
    (he : e.kind = .semicolon) (rest : List Token) :
    (t :: (b ++ e :: rest)).drop (memberExtent (t :: (b ++ e :: rest))) = rest := by
  rw [memberExtent, opaqueExtent_of_plain _ _ ht, opaqueExtent_quiet hb hquiet,
    opaqueExtent_of_semicolon _ _ he, Nat.add_comm 1, List.drop_succ_cons, drop_group]

/-- What a declaration with braces takes as a member. -/
theorem drop_memberExtent_braces {o e : Token} {header b rest : List Token}
    (hheader : Nested Token.kind header)
    (hquiet : ∀ u ∈ header, u.kind ≠ .semicolon ∧ u.kind ≠ .lbrace) (ho : o.kind = .lbrace)
    (hb : Nested Token.kind b) (he : e.kind = .rbrace)
    (hrest : rest.head?.all fun u => u.kind ≠ .semicolon && u.kind ≠ .eq) :
    (header ++ o :: (b ++ e :: rest)).drop (memberExtent (header ++ o :: (b ++ e :: rest))) =
      rest := by
  have hsemicolon : nextIs .semicolon rest = false := by
    cases rest <;> simp_all [nextIs]
  have heq : rest.head?.any (·.kind = .eq) = false := by
    cases rest <;> simp_all
  rw [memberExtent, opaqueExtent_quiet hheader hquiet, opaqueExtent_of_lbrace _ _ ho,
    closingExtent_group hb (by rw [he]; rfl), drop_group, hsemicolon, heq,
    if_neg Bool.false_ne_true, if_neg Bool.false_ne_true, List.drop_length_add_append,
    Nat.add_comm 1, List.drop_succ_cons, drop_group]

theorem throughSemicolon_quiet {e : Token} {b : List Token}
    (hquiet : ∀ u ∈ b, u.kind ≠ .semicolon ∧ u.kind ≠ .lbrace) (he : e.kind = .semicolon)
    (rest : List Token) : throughSemicolon (b ++ e :: rest) = b.length + 1 := by
  induction b with
  | nil => rw [List.nil_append, throughSemicolon, if_pos he, List.length_nil]
  | cons u b ih =>
    rw [List.cons_append, throughSemicolon, if_neg (hquiet u List.mem_cons_self).1,
      ih fun v hv => hquiet v (List.mem_cons_of_mem u hv), List.length_cons, Nat.add_comm]

/-- A file that an attribute list in front of it hides nothing of: it starts with a member, a
directive or a namespace without braces. -/
inductive Spared : List Token → Prop where
  | empty : Spared []
  | member {t : Token} {rest : List Token}
      (husing : t.kind = .keyword .usingKw → nextIs .lparen rest = true)
      (hnamespace : t.kind ≠ .keyword .namespaceKw) : Spared (t :: rest)
  | directive {t e : Token} {b : List Token} (ht : t.kind = .keyword .usingKw)
      (hb : Nested Token.kind b) (hquiet : ∀ u ∈ b, u.kind ≠ .semicolon ∧ u.kind ≠ .lbrace)
      (he : e.kind = .semicolon) (rest : List Token) : Spared (t :: (b ++ e :: rest))
  | fileNamespace {t e : Token} {c : List Token} (ht : t.kind = .keyword .namespaceKw)
      (hc : ∀ u ∈ c, isNamePart u = true) (he : e.kind = .semicolon) (rest : List Token) :
      Spared (t :: (c ++ e :: rest))

theorem marks_map_leaf {k : NodeKind} (hk : k.isEvent = false) (ts : List Token) :
    (node k (ts.map leaf)).marks = [] := by
  rw [marks, virtualEvents, hk, if_neg Bool.false_ne_true, virtualEventsAll_map_leaf]
  split <;> rfl

/-- What is found in these files is found behind an attribute list too. -/
theorem Spared.marks_drop {ts : List Token} (h : Spared ts) :
    (ofTokens (ts.drop (hiddenExtent ts))).marks = (ofTokens ts).marks := by
  cases h with
  | empty => rfl
  | member husing hnamespace => rw [hiddenExtent_of_member husing hnamespace, List.drop_zero]
  | @directive t e b ht hb hquiet he rest =>
    cases hnext : nextIs .lparen (b ++ e :: rest) with
    | true => rw [hiddenExtent_of_member (fun _ => hnext) (by rw [ht]; decide), List.drop_zero]
    | false =>
      have hopening : opening? .file (t :: (b ++ e :: rest)) = _ :=
        opening?_of_using (by simp [ht, hnext])
      rw [hiddenExtent_of_using ht hnext, drop_memberExtent (by rw [ht]; rfl) hb hquiet he,
        marks_ofTokens_cons, declaration_of_whole hopening, throughSemicolon_quiet hquiet he,
        marks_map_leaf rfl, List.nil_append, drop_group]
  | @fileNamespace t e c ht hc he rest =>
    -- the declarations behind the semicolon are read up to the end, inside the namespace or not
    obtain ⟨hb, hquiet⟩ := nested_of_name hc
    have hopening := @opening?_of_namespace .file t (c ++ e :: rest) ht
    rw [openNamespace_append hc (by rw [isNamePart, he]; rfl), if_pos he] at hopening
    have hdeclaration : declaration .file t (c ++ e :: rest) =
        (node .namespaceDeclaration ((t :: (c ++ [e])).map leaf ++ (declarations .file rest).1),
          []) := by
      rw [declaration, Option.some.inj hopening]
      dsimp only [closeContainer]
      rw [declarations_file_rest]
      simp
    rw [hiddenExtent_of_namespace ht, drop_memberExtent (by rw [ht]; rfl) hb hquiet he,
      marks_ofTokens_cons, hdeclaration, marks, marks, marks, virtualEvents, if_neg (by decide),
      if_neg (by decide), virtualEventsAll_append, virtualEventsAll_map_leaf, List.nil_append,
      virtualEvents_ofTokens, virtualEvents_ofTokens, declarations_nil]
    exact (List.append_nil _).symm

/-- A file that starts with a namespace with braces, behind which `rest` stands. -/
inductive BracedNamespace : List Token → List Token → Prop where
  | mk {t o e : Token} {c b rest : List Token} (ht : t.kind = .keyword .namespaceKw)
      (hc : ∀ u ∈ c, isNamePart u = true) (ho : o.kind = .lbrace) (hb : Nested Token.kind b)
      (he : e.kind = .rbrace)
      (hrest : rest.head?.all fun u => u.kind ≠ .semicolon && u.kind ≠ .eq) :
      BracedNamespace (t :: (c ++ o :: (b ++ e :: rest))) rest

/-- The namespace is hidden as a whole. -/
theorem BracedNamespace.drop_hiddenExtent {ts rest : List Token} (h : BracedNamespace ts rest) :
    ts.drop (hiddenExtent ts) = rest := by
  obtain ⟨ht, hc, ho, hb, he, hrest⟩ := h
  obtain ⟨hname, hquiet⟩ := nested_of_name hc
  rw [hiddenExtent_of_namespace ht]
  have hheader := Nested.plain (by rw [ht]; rfl) (by rw [ht]; rfl) hname
  refine drop_memberExtent_braces hheader (List.forall_mem_cons.2 ⟨?_, hquiet⟩) ho hb he hrest
  rw [ht]
  decide

end Tree

/-! ## 4. The text in front of a file -/

namespace Token

open Grammar Text

/-- The line with an attribute of the whole file. -/
def globalAttribute (name : Text) : Text :=
  "[assembly: ".toList ++ name ++ "]".toList

/-- The tokens of that line with the blanks in front of them. -/
def globalPieces (name : Text) : List Piece :=
  [([], .lbracket, "[".toList), ([], .ident, "assembly".toList), ([], .colon, ":".toList),
    ([' '], .ident, name), ([], .rbracket, "]".toList)]

theorem spread_globalPieces (name z : Text) :
    spread (globalPieces name) z = globalAttribute name ++ z := by
  show _ = "[assembly: ".toList ++ name ++ "]".toList ++ z
  simp [globalPieces, spread]

section

variable {name : Text} (hname : scan name = [⟨.ident, [], name, 0⟩])

include hname

theorem notMem_globalAttribute {c : Char} (hword : isWordPart c = false)
    (hc : c ∉ "@[: ]".toList) : c ∉ globalAttribute name := by
  have hmem : (⟨.ident, [], name, 0⟩ : Token) ∈ scan name := hname ▸ List.mem_singleton_self _
  obtain ⟨d, u, rfl, hu, hd⟩ := exists_ident hmem rfl
  have hfixed : ∀ e ∈ "[assembly: ]".toList, isWordPart e = true ∨ e ∈ "@[: ]".toList := by
    intro e he
    have hall : "[assembly: ]".toList.all
        (fun e => isWordPart e || "@[: ]".toList.contains e) = true := by decide +kernel
    exact (Bool.or_eq_true_iff.1 (List.all_eq_true.1 hall e he)).imp_right List.contains_iff_mem.1
  -- the fixed characters around the name, the name and the `@` in front of it
  have hchars : ∀ e ∈ globalAttribute (d :: u), isWordPart e = true ∨ e ∈ "@[: ]".toList := by
    intro e he
    rcases List.mem_append.1 he with he | he
    · rcases List.mem_append.1 he with he | he
      · exact hfixed e (List.mem_append_left "]".toList he)
      · rcases List.mem_cons.1 he with rfl | he
        · rcases hd with ⟨rfl, -⟩ | ⟨hd, -⟩
          · exact Or.inr (by decide)
          · rw [isWordPart, isAlphanumeric, ← Bool.or_assoc, hd, Bool.true_or]
            exact Or.inl rfl
        · exact Or.inl (hu e he)
    · exact hfixed e (List.mem_append_right "[assembly: ".toList he)
  intro hmem
  rcases hchars c hmem with h | h
  · rw [hword] at h
    cases h
  · exact hc h

/-- The attribute is read as one list of tokens in brackets. -/
theorem scan_globalAttribute (source : Text) :
    ∃ o b e us, scan (globalAttribute name ++ '\n' :: source) = o :: (b ++ e :: us) ∧
      o.kind = .lbracket ∧ Nested Token.kind b ∧ e.kind.closes = true ∧
      us.map (Relabelling.moved 0).apply =
        (scan source).map (Relabelling.moved (Text.byteSize (globalAttribute name) + 1)).apply := by
  have hmem : (⟨.ident, [], name, 0⟩ : Token) ∈ scan name := hname ▸ List.mem_singleton_self _
  have hchain : Chain (globalPieces name) ('\n' :: source) := by
    refine ⟨by simp, ⟨'[', [], rfl, rfl, by simp, rfl⟩, by simp, stands_word (by decide) ?_,
      by simp, ⟨':', [], rfl, rfl, by simp, rfl⟩, ?_, stands_ident hmem rfl ?_, by simp,
      ⟨']', [], rfl, rfl, by simp, rfl⟩, trivial⟩
    · intro d hd
      rw [← Option.some.inj hd]
      decide
    · intro d hd
      rw [List.mem_singleton.1 hd]
      decide
    · intro d hd
      rw [← Option.some.inj hd]
      decide
  obtain ⟨ts, offset, hscan, hbare, hsource, -⟩ :=
    scanFrom_spread hchain (List.cons_ne_nil _ _) true 0
  -- where the rest starts follows from the text of the attribute
  have hrest := scanFrom_rest (hsource ▸ hscan)
  rw [spread_globalPieces] at hsource
  rw [← List.append_cancel_right hsource, Nat.zero_add] at hrest
  obtain ⟨o, ts, rfl, ho, hbare⟩ := List.map_eq_cons_iff.1 hbare
  obtain ⟨a, ts, rfl, ha, hbare⟩ := List.map_eq_cons_iff.1 hbare
  obtain ⟨c, ts, rfl, hc, hbare⟩ := List.map_eq_cons_iff.1 hbare
  obtain ⟨x, ts, rfl, hx, hbare⟩ := List.map_eq_cons_iff.1 hbare
  obtain ⟨e, ts, rfl, he, hbare⟩ := List.map_eq_cons_iff.1 hbare
  obtain rfl := List.map_eq_nil_iff.1 hbare
  have hkind : ∀ {t : Token} {k : TokenKind} {w : Text}, t.bare = (k, w) → t.kind = k :=
    fun h => congrArg Prod.fst h
  refine ⟨o, [a, c, x], e, scanFrom false offset ('\n' :: source), ?_, hkind ho, ?_, ?_, ?_⟩
  · rw [scan, ← spread_globalPieces, hscan]
    rfl
  · exact .plain (by rw [hkind ha]; rfl) (by rw [hkind ha]; rfl) <|
      .plain (by rw [hkind hc]; rfl) (by rw [hkind hc]; rfl) <|
      .singleton (by rw [hkind hx]; rfl) (by rw [hkind hx]; rfl)
  · rw [hkind he]
    rfl
  · rw [← hrest, scanFrom_newline]

end

end Token

/-! ## 5. Findings behind an attribute -/

namespace Document

open EventLint.Tree Token Grammar

/-- Rule and event of each diagnostic of a text. -/
def summary (settings : Settings) (file : String) (text : Text) : List (String × Text) :=
  (Analysis.ofText settings file text).diagnostics.map fun d => (d.rule.id, d.eventName)

/-- Behind an attribute of the whole file everything is reported that is not hidden. That is all,
unless the file starts with a namespace with braces, of which nothing is reported. -/
theorem summary_globalAttribute (settings : Settings) (file : String) {name : Text}
    (hname : scan name = [⟨.ident, [], name, 0⟩]) (source : Text) :
    let found := summary settings file (globalAttribute name ++ '\n' :: source)
    let ts := scan source
    found = reported settings source (ofTokens (ts.drop (hiddenExtent ts))).marks ∧
      (Spared ts → found = summary settings file source) ∧
      ∀ rest, BracedNamespace ts rest →
        found = reported settings source (ofTokens rest).marks := by
  intro found ts
  obtain ⟨o, b, e, us, hscan, ho, hb, he, hmoved⟩ := scan_globalAttribute hname source
  have hsummary : ∀ text, summary settings file text =
      reported settings text (ofTokens (scan text)).marks := reported_marks settings file
  -- the tokens behind the attribute differ from those of the file only in where they stand
  have hhidden : hiddenExtent us = hiddenExtent ts := by
    rw [← hiddenExtent_map (.moved 0), hmoved, hiddenExtent_map]
  have hline : '\n' ∉ globalAttribute name :=
    notMem_globalAttribute hname (by decide) (by decide)
  have hcomment : ¬ "//".toList <:+: globalAttribute name := fun h =>
    notMem_globalAttribute hname (c := '/') (by decide) (by decide) (h.subset (by decide))
  have hfound : found = reported settings source (ofTokens (ts.drop (hiddenExtent ts))).marks := by
    have hdrop : (us.drop (hiddenExtent ts)).map (Relabelling.moved 0).apply =
        (ts.drop (hiddenExtent ts)).map
          (Relabelling.moved (Text.byteSize (globalAttribute name) + 1)).apply := by
      rw [List.map_drop, hmoved, List.map_drop]
    rw [show found = _ from hsummary _, hscan, marks_attribute ho hb he, hhidden,
      marks_of_moved hdrop, reported_line hline hcomment]
  refine ⟨hfound, fun h => ?_, fun rest h => ?_⟩
  · rw [hfound, h.marks_drop, hsummary]
  · rw [hfound, h.drop_hiddenExtent]

theorem summary_globalAttribute_using :
    let name := "Guid".toList
    let source := "using N;\nclass C \x7b virtual event A<B> X; \x7d".toList
    let braced := "namespace N \x7b event A X; \x7d".toList
    scan name = [⟨.ident, [], name, 0⟩] ∧ Spared (scan source) ∧ BracedNamespace (scan braced) [] ∧
      summary {} "C.cs" (globalAttribute name ++ '\n' :: source) = [("EVS-V001", "X".toList)] ∧
      summary {} "C.cs" (globalAttribute name ++ '\n' :: braced) = [] := by
  intro name source braced
  have hname : scan name = [⟨.ident, [], name, 0⟩] := by decide +kernel
  have hsource : scan source = ⟨.keyword .usingKw, [], "using".toList, 0⟩ ::
      ([⟨.ident, [' '], "N".toList, 6⟩] ++ ⟨.semicolon, [], ";".toList, 7⟩ ::
        (scan source).drop 3) := by
    decide +kernel
  have hbraced : scan braced = ⟨.keyword .namespaceKw, [], "namespace".toList, 0⟩ ::
      ([⟨.ident, [' '], "N".toList, 10⟩] ++ ⟨.lbrace, [' '], "\x7b".toList, 12⟩ ::
        ([⟨.keyword .eventKw, [' '], "event".toList, 14⟩, ⟨.ident, [' '], "A".toList, 20⟩,
          ⟨.ident, [' '], "X".toList, 22⟩, ⟨.semicolon, [], ";".toList, 23⟩] ++
        [⟨.rbrace, [' '], "\x7d".toList, 25⟩])) := by
    decide +kernel
  have hspared : Spared (scan source) := by
    rw [hsource]
    exact .directive rfl (.singleton rfl rfl) (by simp) rfl _
  have hhidden : BracedNamespace (scan braced) [] := by
    rw [hbraced]
    exact .mk rfl (by simp [isNamePart]) rfl
      (.plain rfl rfl (.plain rfl rfl (.plain rfl rfl (.singleton rfl rfl)))) rfl rfl
  refine ⟨hname, hspared, hhidden, ?_, ?_⟩
  · rw [(summary_globalAttribute {} "C.cs" hname source).2.1 hspared]
    decide +kernel
  · rw [(summary_globalAttribute {} "C.cs" hname braced).2.2 [] hhidden]
    decide +kernel

/-- An event in a namespace with braces is found only if no attribute stands in front. -/
theorem summary_globalAttribute_braces :
    let source := "namespace N \x7b class C \x7b virtual event A<B> X; \x7d \x7d".toList
    summary {} "C.cs" source = [("EVS-V001", "X".toList)] ∧
      summary {} "C.cs" (globalAttribute "Guid".toList ++ '\n' :: source) = [] := by
  decide +kernel

end Document

end EventLint
