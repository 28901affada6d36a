import EventLint.Proofs.TypeReading

/-!
# Members are read back

Fields, properties and methods are read as one member each, whatever their braces hold, and the
fronts of namespaces and types are read up to their opening brace.
-/

namespace EventLint

namespace Grammar

open EventLint.Tree Token

/-! ## 1. The lexemes of a type -/

/-- The kinds of token in a type. -/
def typeKinds : List TokenKind :=
  [.ident, .lt, .gt, .comma, .dot, .question, .lbracket, .rbracket]

/-- Lexemes that a type may consist of. -/
structure Typelike (xs : List Lexeme) : Prop where
  nested : Nested Prod.fst xs
  kinds : ∀ x ∈ xs, x.1 ∈ typeKinds
  /-- All but names are marks. -/
  spelled : ∀ x ∈ xs, x.1 = .ident ∨ x = mark x.1

namespace Typelike

theorem nil : Typelike [] :=
  ⟨.nil, List.forall_mem_nil _, List.forall_mem_nil _⟩

theorem append {xs ys : List Lexeme} (hx : Typelike xs) (hy : Typelike ys) : Typelike (xs ++ ys) :=
  ⟨hx.nested.append hy.nested, fun x h => (List.mem_append.1 h).elim (hx.kinds x) (hy.kinds x),
    fun x h => (List.mem_append.1 h).elim (hx.spelled x) (hy.spelled x)⟩

theorem name {xs : List Lexeme} (hx : Typelike xs) (i : Ident) : Typelike (i.lexeme :: xs) :=
  ⟨.plain rfl rfl hx.nested,
    fun y hy => (List.mem_cons.1 hy).elim (fun h => h ▸ List.mem_cons_self) (hx.kinds y),
    fun y hy => (List.mem_cons.1 hy).elim (fun h => h ▸ Or.inl rfl) (hx.spelled y)⟩

theorem mark {k : TokenKind} {xs : List Lexeme} (hx : Typelike xs) (hk : k ∈ typeKinds)
    (ho : k.opens = false) (hc : k.closes = false) : Typelike (Grammar.mark k :: xs) :=
  ⟨.plain ho hc hx.nested,
    fun y hy => (List.mem_cons.1 hy).elim (fun h => h ▸ hk) (hx.kinds y),
    fun y hy => (List.mem_cons.1 hy).elim (fun h => h ▸ Or.inr rfl) (hx.spelled y)⟩

theorem marks (ms : List TypeMark) : Typelike (ms.flatMap TypeMark.lexemes) := by
  induction ms with
  | nil => exact nil
  | cons m ms ih =>
    rw [List.flatMap_cons]
    refine append ?_ ih
    cases m with
    | nullable => exact nil.mark (by decide) rfl rfl
    | array =>
      refine ⟨.group (Or.inr (Or.inl ⟨rfl, rfl⟩)) .nil .nil, ?_, ?_⟩ <;> decide

end Typelike

mutual

theorem typelike_simpleName (s : SimpleName) : Typelike s.lexemes := by
  cases s with
  | mk name arguments =>
    cases arguments with
    | nil =>
      rw [SimpleName.lexemes]
      exact Typelike.nil.name name
    | cons a more =>
      rw [SimpleName.lexemes]
      exact (((typelike_typeName a).append (typelike_argumentsTail more)).mark (by decide) rfl
        rfl).name name

theorem typelike_argumentsTail (more : List TypeName) : Typelike (argumentsTail more) := by
  cases more with
  | nil =>
    rw [argumentsTail]
    exact Typelike.nil.mark (by decide) rfl rfl
  | cons a more =>
    rw [argumentsTail]
    exact ((typelike_typeName a).append (typelike_argumentsTail more)).mark (by decide) rfl rfl

theorem typelike_namesTail (more : List SimpleName) : Typelike (namesTail more) := by
  cases more with
  | nil =>
    rw [namesTail]
    exact Typelike.nil
  | cons s more =>
    rw [namesTail]
    exact ((typelike_simpleName s).append (typelike_namesTail more)).mark (by decide) rfl rfl

theorem typelike_typeName (type : TypeName) : Typelike type.lexemes := by
  cases type with
  | mk first more marks =>
    rw [TypeName.lexemes]
    exact ((typelike_simpleName first).append (typelike_namesTail more)).append (.marks marks)

end

/-- A type starts with an ordinary identifier. -/
theorem exists_first_of_type {type : TypeName} {ts : List Token}
    (h : ts.map bare = type.lexemes) :
    ∃ (i : Ident) (t : Token) (us : List Token), ts = t :: us ∧ t.kind = .ident ∧
      t.text = i.text := by
  rcases type with ⟨⟨name, _ | ⟨a, arguments⟩⟩, more, marks⟩ <;>
    rw [TypeName.lexemes, SimpleName.lexemes] at h
  · obtain ⟨t, us, rfl, hk, ht, -⟩ := exists_ident h
    exact ⟨name, t, us, rfl, hk, ht⟩
  · obtain ⟨t, us, rfl, hk, ht, -⟩ := exists_ident h
    exact ⟨name, t, us, rfl, hk, ht⟩

/-! ## 2. Names and modifiers -/

/-- An ordinary identifier is none of the words that mean something else somewhere. -/
theorem Ident.isWord_eq_false {i : Ident} {t : Token} {words : List String} (ht : t.text = i.text)
    (hw : words ⊆ contextualWords) : t.isWord words = false := by
  rw [Token.isWord, ht, Bool.and_eq_false_iff]
  refine Or.inr (Bool.eq_false_iff.2 fun hany => ?_)
  obtain ⟨w, hmem, heq⟩ := List.any_eq_true.1 hany
  have hord := i.ordinary
  rw [List.any_eq_true.2 ⟨w, hw hmem, heq⟩] at hord
  cases hord

theorem Ident.not_isModifierToken {i : Ident} {t : Token} (hk : t.kind = .ident)
    (ht : t.text = i.text) : isModifierToken t = false := by
  rw [isModifierToken, hk, Ident.isWord_eq_false ht (by decide)]
  rfl

theorem isModifier_of_spells {mods : Modifiers} {m : List Token} (h : m.map bare = mods.lexemes) :
    ∀ t ∈ m, t.kind.isModifier = true := by
  intro t ht
  have hb : t.bare ∈ mods.words.map keyword := by
    rw [← Modifiers.lexemes, ← h]
    exact List.mem_map_of_mem ht
  obtain ⟨k, hk, hkey⟩ := List.mem_map.1 hb
  have hkind : t.kind = .keyword k := (congrArg Prod.fst hkey).symm
  rw [hkind]
  exact List.all_eq_true.1 mods.modifies k hk

theorem modifierExtent_modifiers {m : List Token} (hm : ∀ t ∈ m, t.kind.isModifier = true)
    (rest : List Token) : modifierExtent (m ++ rest) = m.length + modifierExtent rest := by
  induction m with
  | nil => rw [List.nil_append, List.length_nil, Nat.zero_add]
  | cons t m ih =>
    rw [List.cons_append, modifierExtent, hm t List.mem_cons_self, Bool.true_or, if_pos rfl,
      ih fun u hu => hm u (List.mem_cons_of_mem _ hu), List.length_cons]
    omega

theorem leading_of_extent {m rest : List Token} (hm : modifierExtent (m ++ rest) = m.length)
    (hb : nextIs .lbracket (m ++ rest) = false) :
    Tree.leading (m ++ rest) = (modifierList m, rest) := by
  have hattrs : attributes (m ++ rest) = ([], m ++ rest) := by
    cases hs : m ++ rest with
    | nil => rw [attributes]
    | cons t us =>
      rw [hs] at hb
      exact attributes_of_ne us (of_decide_eq_false hb)
  rw [Tree.leading, hattrs]
  dsimp only
  rw [modifiers_eq, hm, List.take_left, List.drop_left, modifierList]
  cases m <;> rfl

/-- The modifiers that stand first are read if none follows. -/
theorem leading_of_modifiers {m rest : List Token} (hm : ∀ t ∈ m, t.kind.isModifier = true)
    (hrest : modifierExtent rest = 0) (hb : nextIs .lbracket rest = false) :
    Tree.leading (m ++ rest) = (modifierList m, rest) := by
  refine leading_of_extent (by rw [modifierExtent_modifiers hm, hrest, Nat.add_zero]) ?_
  cases m with
  | nil => exact hb
  | cons t m =>
    refine decide_eq_false fun hk => ?_
    have ht := hm t List.mem_cons_self
    rw [hk] at ht
    cases ht

/-- Modifiers are read up to the first token that is none. -/
theorem leading_read {mods : Modifiers} {m rest : List Token} {first : Token}
    (h : m.map bare = mods.lexemes) (hf : isModifierToken first = false)
    (hb : first.kind ≠ .lbracket) :
    Tree.leading (m ++ first :: rest) = (modifierList m, first :: rest) := by
  obtain ⟨hk, hw⟩ := Bool.or_eq_false_iff.1 hf
  refine leading_of_modifiers (isModifier_of_spells h) ?_ (decide_eq_false hb)
  rw [modifierExtent, hk, hw]
  rfl

/-- A token that starts a member, or its modifiers. -/
theorem opensMember_read {mods : Modifiers} {m rest : List Token} {first : Token} (s : Scope)
    (h : m.map bare = mods.lexemes) (hu : first.kind ≠ .keyword .usingKw)
    (hn : first.kind ≠ .keyword .namespaceKw) (hr : first.kind ≠ .rbrace) :
    opensMember s (m ++ first :: rest) = true := by
  have hopens : ∀ {t : Token} {us : List Token}, t.kind ≠ .keyword .usingKw →
      t.kind ≠ .keyword .namespaceKw → t.kind ≠ .rbrace → opensMember s (t :: us) = true := by
    intro t us h1 h2 h3
    simp [opensMember, h1, h2, h3]
  cases m with
  | nil => exact hopens hu hn hr
  | cons t m =>
    have ht := isModifier_of_spells h t List.mem_cons_self
    refine hopens ?_ ?_ ?_ <;> intro hk <;> rw [hk] at ht <;> cases ht

/-! ## 3. Fields, properties and methods -/

/-- What follows a member does not go on with it. -/
def endsMember (ts : List Token) : Bool :=
  ts.head?.all fun t => t.kind = .ident || t.kind.isKeyword || t.kind = .rbrace

theorem nextIs_of_endsMember {ts : List Token} {k : TokenKind} (h : endsMember ts = true)
    (hk : k = .semicolon ∨ k = .eq) : nextIs k ts = false := by
  cases ts with
  | nil => rfl
  | cons t ts =>
    rw [endsMember, List.head?_cons, Option.all_some] at h
    refine decide_eq_false fun ht => ?_
    rw [ht] at h
    rcases hk with rfl | rfl <;> cases h

/-- A type and a name, as they are read at the front of a member. -/
theorem typeName?_head {type : TypeName} {ts w : List Token} {name : Token}
    (h : ts.map bare = type.lexemes) (hn : name.kind = .ident) :
    ∃ tree, typeName? (ts ++ name :: w) = some (tree, name :: w) ∧
      Option.Rel SpellsArgument (ElementType.singleArgument? tree) type.argument? :=
  typeName?_read type h (by rw [endsType, List.head?_cons, Option.all_some, hn]; rfl)

theorem qualifierExtent_name {name next : Token} {rest : List Token} (h : next.kind ≠ .dot) :
    qualifierExtent (name :: next :: rest) = 0 := by
  rw [qualifierExtent, if_neg]
  simp [h]

/-- A run through the type, the name and what follows them. -/
theorem memberExtent_head {type : TypeName} {ts w : List Token} {name : Token}
    (h : ts.map bare = type.lexemes) (hn : name.kind = .ident) :
    memberExtent (ts ++ name :: w) = (ts ++ [name]).length + memberExtent w := by
  have htype := typelike_typeName type
  have hnest : Nested Token.kind (ts ++ [name]) :=
    (Nested.tokens h htype.nested).append (.singleton (by rw [hn]; rfl) (by rw [hn]; rfl))
  rw [List.append_cons]
  refine opaqueExtent_quiet hnest (fun t ht => ?_) w
  rcases List.mem_append.1 ht with ht | ht
  · have hk : t.kind ∈ typeKinds := htype.kinds t.bare (by rw [← h]; exact List.mem_map_of_mem ht)
    constructor <;> intro he <;> rw [he] at hk <;> exact absurd hk (by decide)
  · rw [List.mem_singleton.1 ht, hn]
    decide

theorem method?_none {type : TypeName} {ts rest : List Token} {name next : Token}
    (h : ts.map bare = type.lexemes) (hn : name.kind = .ident)
    (hk : next.kind = .semicolon ∨ next.kind = .lbrace) :
    method? (ts ++ name :: next :: rest) = none := by
  obtain ⟨tree, htree, -⟩ := typeName?_head (w := next :: rest) h hn
  have hdot : next.kind ≠ .dot := by
    rcases hk with hk | hk <;> rw [hk] <;> decide
  have hparams : opensParameters (next :: rest) = false := by
    rw [opensParameters_eq]
    rcases hk with hk | hk <;> rw [hk] <;> rfl
  rw [method?_eq, htree]
  dsimp only
  rw [methodHead?, qualifierExtent_name hdot, List.drop_zero]
  dsimp only
  rw [hparams, Bool.and_false]
  rfl

/-- A type, a name, parameters and a block form a method, whatever they contain. -/
theorem method?_of_type {type : Tree} {ts params inner rest : List Token} {name o c b e : Token}
    (h : typeName? (ts ++ name :: o :: (params ++ c :: b :: (inner ++ e :: rest))) =
      some (type, name :: o :: (params ++ c :: b :: (inner ++ e :: rest))))
    (hn : name.kind = .ident) (ho : o.kind = .lparen) (hp : Encloses params c)
    (hc : c.kind = .rparen) (hb : b.kind = .lbrace) (hi : Nested Token.kind inner)
    (he : e.kind = .rbrace) :
    ∃ list block, method? (ts ++ name :: o :: (params ++ c :: b :: (inner ++ e :: rest))) =
      some ([type, leaf name, node .parameterList list, node .block block], rest) := by
  obtain ⟨list, hlist⟩ := parameterList_enclosed hp hc o (b :: (inner ++ e :: rest))
  generalize hw : params ++ c :: b :: (inner ++ e :: rest) = w at h hlist ⊢
  have hdot : o.kind ≠ .dot := by
    rw [ho]
    decide
  have hopens : opensParameters (o :: w) = true := by
    rw [opensParameters_eq, if_neg (by rw [ho]; decide), ho]
    rfl
  have hparams : typeParameters (o :: w) = ([], o :: w) := by
    rw [typeParameters, if_neg (by simp [nextIs, ho])]
  -- what the body contains does not matter, it is nested
  obtain ⟨block, hbody⟩ : ∃ block, body (b :: (inner ++ e :: rest)) =
      ([node .block block], rest) := by
    have hblock : (Tree.block b (inner ++ e :: rest)).2 = rest := block_nested hi he rest
    rw [body_of_lbrace _ hb]
    exact ⟨_, Prod.ext rfl hblock⟩
  have hrest : methodRest (o :: w) = ([node .parameterList list, node .block block], rest) := by
    have hstop : isConstraintToken b = false := by
      rw [isConstraintToken, hb]
      rfl
    rw [methodRest]
    dsimp only
    rw [hlist]
    dsimp only
    rw [List.dropWhile_cons_of_neg (by rw [hstop]; decide),
      List.takeWhile_cons_of_neg (by rw [hstop]; decide), hbody]
    rfl
  have hhead : methodHead? (name :: o :: w) = some (name, o :: w) :=
    methodHead?_eq_some.2 ⟨by rw [qualifierExtent_name hdot, List.drop_zero], hn, hopens⟩
  refine ⟨list, block, ?_⟩
  rw [method?_eq, h]
  dsimp only
  rw [hhead]
  dsimp only
  rw [hparams, hrest, qualifierExtent_name hdot]
  rfl

theorem method?_read {type : TypeName} {ts params inner rest : List Token}
    {name o c b e : Token} (h : ts.map bare = type.lexemes) (hn : name.kind = .ident)
    (ho : o.kind = .lparen) (hp : Nested Token.kind params) (hc : c.kind = .rparen)
    (hb : b.kind = .lbrace) (hi : Nested Token.kind inner) (he : e.kind = .rbrace) :
    ∃ parts, method? (ts ++ name :: o :: (params ++ c :: b :: (inner ++ e :: rest))) =
      some (parts, rest) := by
  obtain ⟨tree, htree, -⟩ := typeName?_head h hn
  obtain ⟨list, block, hmethod⟩ :=
    method?_of_type htree hn ho (encloses_nested hp (by rw [hc]; rfl)) hc hb hi he
  exact ⟨_, hmethod⟩

/-- A member that starts with an ordinary identifier declares no event and no type. -/
theorem member_of_ident {i : Ident} {t : Token} {lead : List Tree} {us : List Token}
    (hk : t.kind = .ident) (ht : t.text = i.text) :
    member lead (t :: us) =
      match method? (t :: us) with
      | some (parts, after) => .whole (node .methodDeclaration (lead ++ parts)) after
      | none =>
        .whole (node .otherMember
          (lead ++ ((t :: us).take (otherExtent lead (t :: us))).map leaf))
          ((t :: us).drop (otherExtent lead (t :: us))) := by
  have hkind : typeKind? t us = none := by
    unfold typeKind?
    rw [hk]
    dsimp only
    rw [Ident.isWord_eq_false ht (by decide)]
    rfl
  cases hm : method? (t :: us) <;> simp [member, hk, hkind, hm]

/-- The tree declares no event. -/
def Silent (n : Tree) : Prop :=
  n.nodeKind?.any NodeKind.isEvent = false

/-- A member with a type and a name that is read as a run of tokens. -/
theorem member_other {type : TypeName} {lead : List Tree} {ts w rest : List Token}
    {name next : Token} (h : ts.map bare = type.lexemes) (hn : name.kind = .ident)
    (hk : next.kind = .semicolon ∨ next.kind = .lbrace)
    (hext : memberExtent (next :: (w ++ rest)) = (next :: w).length) :
    ∃ n, member lead (ts ++ name :: next :: (w ++ rest)) = .whole n rest ∧ Silent n := by
  have hmethod : method? (ts ++ name :: next :: (w ++ rest)) = none := method?_none h hn hk
  have hsplit : ts ++ name :: next :: (w ++ rest) = (ts ++ name :: next :: w) ++ rest := by
    simp
  have hlen : memberExtent (ts ++ name :: next :: (w ++ rest)) =
      (ts ++ name :: next :: w).length := by
    rw [memberExtent_head h hn, hext]
    simp only [List.length_append, List.length_cons, List.length_nil]
    omega
  have hother : otherExtent lead (ts ++ name :: next :: (w ++ rest)) =
      (ts ++ name :: next :: w).length := by
    rw [otherExtent_of_pos (fun _ => by rw [hlen]; simp), hlen]
  obtain ⟨i, t, us, rfl, ht, htext⟩ := exists_first_of_type h
  refine ⟨node .otherMember (lead ++ (t :: us ++ name :: next :: w).map leaf), ?_, rfl⟩
  rw [List.cons_append, member_of_ident ht htext, ← List.cons_append, hmethod]
  dsimp only
  rw [hother, hsplit, List.take_left, List.drop_left]

theorem member_method {type : TypeName} {lead : List Tree} {ts params inner rest : List Token}
    {name o c b e : Token} (h : ts.map bare = type.lexemes) (hn : name.kind = .ident)
    (ho : o.kind = .lparen) (hp : Nested Token.kind params) (hc : c.kind = .rparen)
    (hb : b.kind = .lbrace) (hi : Nested Token.kind inner) (he : e.kind = .rbrace) :
    ∃ n, member lead (ts ++ name :: o :: (params ++ c :: b :: (inner ++ e :: rest))) =
      .whole n rest ∧ Silent n := by
  obtain ⟨parts, hmethod⟩ : ∃ parts,
      method? (ts ++ name :: o :: (params ++ c :: b :: (inner ++ e :: rest))) =
        some (parts, rest) :=
    method?_read h hn ho hp hc hb hi he
  obtain ⟨i, t, us, rfl, ht, htext⟩ := exists_first_of_type h
  refine ⟨node .methodDeclaration (lead ++ parts), ?_, rfl⟩
  rw [List.cons_append, member_of_ident ht htext, ← List.cons_append, hmethod]

/-- The tokens of a braced group. -/
theorem exists_braced {b : Balanced} {ts : List Token} (h : ts.map bare = braced b) :
    ∃ o inner e, ts = o :: (inner ++ [e]) ∧ o.kind = .lbrace ∧ Nested Token.kind inner ∧
      e.kind = .rbrace := by
  obtain ⟨o, us, rfl, ho, h⟩ := exists_mark h
  obtain ⟨inner, last, rfl, hi, h⟩ := exists_of_spells_append h
  obtain ⟨e, vs, rfl, he, h⟩ := exists_mark h
  rw [List.map_eq_nil_iff.1 h]
  exact ⟨o, inner, e, rfl, ho, .tokens hi b.nested, he⟩

/-- A field, property or method, after its modifiers. -/
theorem member_plain (tail : PlainTail) {type : TypeName} {lead : List Tree}
    {ts us rest : List Token} {name : Token} (h : ts.map bare = type.lexemes)
    (hn : name.kind = .ident) (hu : us.map bare = tail.lexemes) (hr : endsMember rest = true) :
    ∃ n, member lead (ts ++ name :: (us ++ rest)) = .whole n rest ∧ Silent n := by
  cases tail with
  | field =>
    obtain ⟨c, vs, rfl, hc, hvs⟩ := exists_mark hu
    rw [List.map_eq_nil_iff.1 hvs]
    exact member_other (w := []) h hn (Or.inl hc) (opaqueExtent_of_semicolon _ _ hc)
  | property b =>
    obtain ⟨o, inner, e, rfl, ho, hi, he⟩ := exists_braced hu
    refine member_other (w := inner ++ [e]) h hn (Or.inr ho) ?_
    -- neither a semicolon nor an initializer follows the braces
    have hstop : rest.head?.any (fun t => decide (t.kind = .eq)) = false :=
      nextIs_of_endsMember hr (Or.inr rfl)
    rw [memberExtent, opaqueExtent_of_lbrace _ _ ho, List.append_assoc, List.singleton_append,
      closingExtent_group hi (by rw [he]; rfl), drop_group,
      if_neg (by rw [nextIs_of_endsMember hr (Or.inl rfl)]; decide), if_neg (by rw [hstop]; decide)]
    simp only [List.length_append, List.length_cons, List.length_nil]
    omega
  | method parameters b =>
    obtain ⟨o, vs, rfl, ho, hu⟩ := exists_mark hu
    obtain ⟨params, vs, rfl, hp, hu⟩ := exists_of_spells_append hu
    obtain ⟨c, vs, rfl, hc, hu⟩ := exists_mark hu
    obtain ⟨b, inner, e, rfl, hb, hi, he⟩ := exists_braced hu
    simp only [List.cons_append, List.append_assoc, List.nil_append]
    exact member_method h hn ho (.tokens hp parameters.nested) hc hb hi he

theorem plain_read (p : PlainMember) (s : Scope) {ts rest : List Token}
    (h : ts.map bare = p.lexemes) (hr : endsMember rest = true) :
    ∃ n, opening? s (ts ++ rest) = some (.whole n rest) ∧ Silent n := by
  obtain ⟨m, vs, rfl, hm, h⟩ := exists_of_spells_append h
  obtain ⟨us, vs, rfl, hu, h⟩ := exists_of_spells_append h
  obtain ⟨name, tail, rfl, hn, -, htail⟩ := exists_ident h
  obtain ⟨n, hread, hsilent⟩ : ∃ n,
      member (modifierList m) (us ++ name :: (tail ++ rest)) = .whole n rest ∧ Silent n :=
    member_plain p.tail hu hn htail hr
  refine ⟨n, ?_, hsilent⟩
  obtain ⟨i, t, us, rfl, hk, ht⟩ := exists_first_of_type hu
  have hall : m ++ (t :: us ++ name :: tail) ++ rest =
      m ++ t :: (us ++ name :: (tail ++ rest)) := by
    simp
  rw [hall, opening?_of_member (opensMember_read s hm (by rw [hk]; decide) (by rw [hk]; decide)
    (by rw [hk]; decide)),
    leading_read hm (Ident.not_isModifierToken hk ht) (by rw [hk]; decide)]
  exact congrArg some hread

/-! ## 4. Namespaces and types -/

theorem headerExtent_name {name o : Token} (hn : name.kind = .ident) (ho : o.kind = .lbrace)
    (w : List Token) : headerExtent (name :: o :: w) = 1 := by
  simp [headerExtent, hn, ho]

theorem typeHead_read {mods : Modifiers} {isStruct : Bool} {name : Ident} (s : Scope)
    {ts : List Token} (h : ts.map bare = typeHead mods isStruct name) (rest : List Token) :
    ∃ kind parts, opening? s (ts ++ rest) = some (.container kind parts .typeBody rest) ∧
      kind ≠ .interfaceDeclaration := by
  obtain ⟨m, vs, rfl, hm, h⟩ := exists_of_spells_append h
  obtain ⟨t, vs, rfl, hk, h⟩ := exists_keyword h
  obtain ⟨i, vs, rfl, hi, -, h⟩ := exists_ident h
  obtain ⟨o, vs, rfl, ho, h⟩ := exists_mark h
  rw [List.map_eq_nil_iff.1 h]
  have hmod : isModifierToken t = false := by
    rw [isModifierToken, Token.isWord, hk]
    cases isStruct <;> rfl
  obtain ⟨kind, hkind, hne, hclass⟩ : ∃ kind, typeKind? t (i :: o :: rest) = some kind ∧
      kind ≠ .enumDeclaration ∧ kind ≠ .interfaceDeclaration := by
    unfold typeKind?
    rw [hk]
    cases isStruct
    · exact ⟨.classDeclaration, rfl, by decide, by decide⟩
    · exact ⟨.structDeclaration, rfl, by decide, by decide⟩
  have hopens : opensMember s (m ++ t :: i :: o :: rest) = true := by
    refine opensMember_read s hm ?_ ?_ ?_ <;> rw [hk] <;> cases isStruct <;> decide
  have hall : m ++ [t, i, o] ++ rest = m ++ t :: i :: o :: rest := by
    simp
  refine ⟨kind, modifierList m ++ leaf t :: [leaf i] ++ [leaf o], ?_, hclass⟩
  rw [hall, opening?_of_member hopens,
    leading_read hm hmod (by rw [hk]; cases isStruct <;> decide)]
  -- the header is the name alone, up to the brace
  have hopen : openType kind (modifierList m) t ([i] ++ o :: rest) =
      .container kind (modifierList m ++ leaf t :: [leaf i] ++ [leaf o]) .typeBody rest := by
    rw [openType_eq (fun w => headerExtent_name hi ho w), if_neg (by simp [ho]), if_neg hne]
    rfl
  rw [member, if_neg (by rw [hk]; cases isStruct <;> decide), hkind]
  exact congrArg some hopen

theorem scopeHead_read {name : Ident} (s : Scope) {ts : List Token}
    (h : ts.map bare = scopeHead name) (rest : List Token) :
    ∃ parts, opening? s (ts ++ rest) =
      some (.container .namespaceDeclaration parts .namespaceBody rest) := by
  obtain ⟨t, vs, rfl, hk, h⟩ := exists_keyword h
  obtain ⟨i, vs, rfl, hi, -, h⟩ := exists_ident h
  obtain ⟨o, vs, rfl, ho, h⟩ := exists_mark h
  rw [List.map_eq_nil_iff.1 h]
  have hname : ∀ u ∈ [i], isNamePart u = true := by
    intro u hu
    rw [List.mem_singleton.1 hu, isNamePart, hi]
    rfl
  refine ⟨leaf t :: [leaf i] ++ [leaf o], ?_⟩
  have hopen := openNamespace_append (t := t) hname (e := o) (by rw [isNamePart, ho]; rfl) rest
  rw [if_neg (by rw [ho]; decide), if_pos ho] at hopen
  exact (opening?_of_namespace _ hk).trans (congrArg some hopen)

end Grammar

end EventLint
