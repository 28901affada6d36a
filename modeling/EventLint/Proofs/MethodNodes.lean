import EventLint.Proofs.RaiseReading

/-!
# Where no method is read

A method stands among its tokens behind attributes and modifiers. Main statement: the text of a
raise method is nowhere read as a method if the type of its argument is a word that opens a
declaration.
-/

namespace EventLint.Tree

open Token Grammar Text

/-! ## 1. Declarations of a file -/

theorem suffix_afterClose (s : Scope) (ts : List Token) : afterClose s ts <:+ ts := by
  cases s with
  | file => exact List.suffix_rfl
  | namespaceBody => exact ⟨_, (reads_optional .rbrace ts).leaves⟩
  | typeBody =>
    have hbrace : (optional .rbrace ts).2 <:+ ts := ⟨_, (reads_optional .rbrace ts).leaves⟩
    exact List.IsSuffix.trans ⟨_, (reads_optional .semicolon _).leaves⟩ hbrace

section

variable {n : Tree} {k : NodeKind}

theorem IsPart.not_mem_preorder {c : Tree} (h : IsPart c) (hk : n.nodeKind? = some k)
    (hpart : k.isPart = false) : n ∉ c.preorder := by
  intro hn
  cases h.of_mem_preorder hn with
  | leaf t => cases hk
  | node hp =>
    obtain rfl := Option.some.inj hk
    rw [hpart] at hp
    cases hp

theorem not_mem_preorderAll {cs : List Tree} (h : ∀ c ∈ cs, IsPart c) (hk : n.nodeKind? = some k)
    (hpart : k.isPart = false) : n ∉ preorderAll cs := by
  intro hn
  obtain ⟨c, hc, hn⟩ := exists_of_mem_preorderAll hn
  exact (h c hc).not_mem_preorder hk hpart hn

theorem preorderAll_append (a b : List Tree) :
    preorderAll (a ++ b) = preorderAll a ++ preorderAll b := by
  induction a with
  | nil => rfl
  | cons c a ih => rw [List.cons_append, preorderAll, preorderAll, ih, List.append_assoc]

/-- What is no container and no part stands among the declarations inside. -/
theorem mem_of_mem_closeContainer {kind : NodeKind} {parts : List Tree} {s : Scope}
    {inner : List Tree × List Token} (hkind : kind.isContainer = true)
    (hparts : ∀ c ∈ parts, IsPart c) (hk : n.nodeKind? = some k) (hpart : k.isPart = false)
    (hcontainer : k.isContainer = false)
    (hn : n ∈ (closeContainer kind parts s inner).1.preorder) : n ∈ preorderAll inner.1 := by
  have hself : ∀ cs, n ≠ node kind cs := by
    rintro cs rfl
    obtain rfl := Option.some.inj hk
    rw [hkind] at hcontainer
    cases hcontainer
  have hfront := not_mem_preorderAll hparts hk hpart
  have hclose : ∀ k ts, n ∉ preorderAll (optional k ts).1 :=
    fun k ts => not_mem_preorderAll (reads_optional k ts).parts hk hpart
  cases s <;>
    simpa only [closeContainer, preorder, preorderAll_append, List.mem_cons, List.mem_append, hself,
      hfront, hclose, false_or, or_false] using hn

/-- A declaration without others inside is read as a whole from tokens of the file. -/
theorem exists_opening_of_mem {s : Scope} {ts : List Token} (hk : n.nodeKind? = some k)
    (hpart : k.isPart = false) (hcontainer : k.isContainer = false)
    (hn : n ∈ preorderAll (declarations s ts).1) :
    ∃ s' us rest, us <:+ ts ∧ opening? s' us = some (.whole n rest) := by
  induction ts using shorter_induction generalizing s with
  | step ts ih =>
    cases he : s.ends ts with
    | true =>
      rw [declarations_of_ends he] at hn
      cases hn
    | false =>
      obtain ⟨opening, ho⟩ := exists_opening he
      cases opening with
      | whole tree after =>
        have hw := opening?_whole ho
        rw [declarations_of_whole he ho, preorderAll] at hn
        rcases List.mem_append.1 hn with hn | hn
        · obtain rfl : n = tree := by
            obtain ⟨-, -, hreads⟩ := hw
            exact (List.mem_cons.1 hn).resolve_right
              (not_mem_preorderAll hreads.parts hk hpart)
          exact ⟨s, ts, after, List.suffix_rfl, ho⟩
        · obtain ⟨s', us, rest, hus, hopening⟩ := ih after hw.declares.rest_lt hn
          exact ⟨s', us, rest, hus.trans ⟨_, hw.declares.leaves⟩, hopening⟩
      | container kind parts inner after =>
        obtain ⟨hreads, hkind, hlt⟩ := opening?_container ho
        have hafter : after <:+ ts := ⟨_, hreads.leaves⟩
        rw [declarations_of_container he ho, preorderAll] at hn
        rcases List.mem_append.1 hn with hn | hn
        · obtain ⟨s', us, rest, hus, hopening⟩ := ih after hlt
            (mem_of_mem_closeContainer hkind hreads.parts hk hpart hcontainer hn)
          exact ⟨s', us, rest, hus.trans hafter, hopening⟩
        · -- behind the container
          have hclosed : afterClose inner (declarations inner after).2 <:+ after :=
            (suffix_afterClose inner _).trans ⟨_, (declares_declarations inner after).leaves⟩
          obtain ⟨s', us, rest, hus, hopening⟩ := ih _ (Nat.lt_of_le_of_lt hclosed.length_le hlt) hn
          exact ⟨s', us, rest, hus.trans (hclosed.trans hafter), hopening⟩

end

/-! ## 2. Methods -/

theorem isOf_event (lead : List Tree) (keyword : Token) (ts : List Token) :
    (event lead keyword ts).1.isOf .methodDeclaration = false := by
  rw [event_eq]
  split
  · rfl
  · split
    · rfl
    · unfold fieldEvent
      dsimp only
      split <;> rfl

/-- A method is read behind its attributes and modifiers, and declares no type. -/
theorem opening?_method {s : Scope} {ts after : List Token} {n : Tree}
    (ho : opening? s ts = some (.whole n after)) (hk : n.isOf .methodDeclaration = true) :
    ∃ first us parts, (leading ts).2 = first :: us ∧ typeKind? first us = none ∧
      method? (first :: us) = some (parts, after) := by
  have hmethod : n.nodeKind? = some .methodDeclaration := of_decide_eq_true hk
  obtain ⟨lead, first, us, hlead, ⟨-, hread⟩ | ⟨htype, parts, hparts, -⟩⟩ :=
    member_of_opening? ho (by rw [hmethod]; rfl)
  · have hevent := isOf_event lead first us
    rw [hread, hk] at hevent
    cases hevent
  · exact ⟨first, us, parts, by rw [hlead], htype, hparts⟩

/-- A name in front of a parenthesis is a type, with no name behind it. -/
theorem method?_of_lparen {name o : Token} {us : List Token} (hname : name.kind = .ident)
    (ho : o.kind = .lparen) : method? (name :: o :: us) = none := by
  have hends : endsName (o :: us) = true := by
    rw [endsName, List.head?_cons, Option.all_some, ho]
    rfl
  have hlt : nextIs .lt (o :: us) = false := by
    refine decide_eq_false ?_
    rw [ho]
    decide
  have hmarks : ∀ type, typeMarks type (o :: us) = (type, o :: us) := by
    intro type
    rw [typeMarks, ho]
    rfl
  -- the name alone is read as a type, and the parenthesis stands where a name should
  have htype : typeName? (name :: o :: us) = some (node .identifierName [leaf name], o :: us) := by
    rw [typeName?_of_ident _ hname, nameChain_eq, simpleName_of_ne hlt]
    dsimp only
    rw [nameTail_of_endsName hends, hmarks]
    rfl
  have hqualifier : qualifierExtent (o :: us) = 0 := by
    cases us with
    | nil => rfl
    | cons u us =>
      rw [qualifierExtent, ho]
      rfl
  rw [method?, htype]
  dsimp only
  rw [hqualifier, List.drop_zero]
  dsimp only
  rw [ho]
  rfl

/-! ## 3. The tokens of a text -/

theorem joined_append {a : List Token} (ha : a ≠ []) (b : List Token) :
    joined (a ++ b) = joined a ++ source b := by
  cases a with
  | nil => exact absurd rfl ha
  | cons t a =>
    show t.text ++ source (a ++ b) = t.text ++ source a ++ source b
    rw [source_append, List.append_assoc]

theorem eq_nil_of_joined {a b : List Token} (ha : a ≠ []) (hb : ∀ t ∈ b, t.text ≠ [])
    (h : joined (a ++ b) = joined a) : b = [] := by
  rw [joined_append ha] at h
  cases b with
  | nil => rfl
  | cons t b =>
    have hnil := List.append_right_eq_self.1 h
    rw [source_cons, List.append_assoc] at hnil
    have htext := (List.append_eq_nil_iff.1 (List.append_eq_nil_iff.1 hnil).2).1
    exact absurd htext (hb t List.mem_cons_self)

/-- The same text in front of the same tokens. -/
theorem eq_of_joined {a b c d : List Token} (h : a ++ b = c ++ d) (ha : a ≠ []) (hc : c ≠ [])
    (htext : ∀ t ∈ a ++ b, t.text ≠ []) (hjoined : joined a = joined c) : a = c := by
  rcases List.append_eq_append_iff.1 h with ⟨e, rfl, rfl⟩ | ⟨e, rfl, rfl⟩
  · have hnil := eq_nil_of_joined ha (fun t ht => htext t (by simp [ht])) hjoined.symm
    rw [hnil, List.append_nil]
  · have hnil := eq_nil_of_joined hc (fun t ht => htext t (by simp [ht])) hjoined
    rw [hnil, List.append_nil]

section

variable {text indent newline : Text} {m : RaiseMethod}

/-- Tokens with the text of a raise method show that method. -/
theorem bare_of_joined {a gs b : List Token} {xs : List Lexeme} (hscan : scan text = a ++ (gs ++ b))
    (hgs : gs ≠ []) (hm : m.Spelled xs) (hindent : ∀ c ∈ indent, isBlank c = true)
    (hnewline : ∀ c ∈ newline, isBlank c = true)
    (hjoined : joined gs = (m.render indent newline).drop indent.length) :
    gs.map bare = m.lexemes xs := by
  obtain ⟨rest, hmid⟩ := exists_scanFrom hscan
  have htext : ∀ t ∈ gs ++ b, t.text ≠ [] := by
    intro t ht
    exact (scan_inPlace text).text_ne_nil (by rw [hscan]; exact List.mem_append_right a ht)
  obtain ⟨t, gs, rfl⟩ := List.exists_cons_of_ne_nil hgs
  rw [List.cons_append] at hmid
  obtain ⟨-, -, -, -, hextent, -⟩ := exists_of_scanFrom_source hmid
  have hsource : source (t :: (gs ++ b)) ++ rest =
      t.leading ++ ((m.render indent newline).drop indent.length ++ (source b ++ rest)) := by
    rw [← hjoined, source_cons, source_append, joined]
    simp only [List.append_assoc]
    rfl
  rw [hsource] at hextent hmid
  -- both readings of the text start behind the same trivia, so they agree token by token
  obtain ⟨ms, offset, hms, hbare, hrendered, -⟩ := scanFrom_method hm hindent hnewline hextent _
  have hne : ms ≠ [] := by
    rintro rfl
    cases hbare
  rw [eq_of_joined (hmid.symm.trans hms) hgs hne htext (hjoined.trans hrendered.symm), hbare]

theorem scans_word {w : Text} (hname : isName w = true) (hkind : wordKind w = .ident) :
    Scans w [(.ident, w)] := by
  intro gap z offset hgap
  have hblank : ∀ c ∈ gap, isBlank c = true := by
    rcases hgap with rfl | rfl
    · exact fun c hc => by cases hc
    · exact fun c hc => isBlank_of_mem_space hc
  have hstands : Stands .ident w (' ' :: z) := by
    rw [← hkind]
    exact stands_word hname (head_not_isWordPart (by decide) z)
  refine ⟨[⟨.ident, gap, w, offset + byteSize gap⟩], _, _, scanFrom_of_stands hblank hstands _ _,
    rfl, ?_⟩
  rw [source_cons]
  exact List.append_nil _

/-- The words in front of a name that has no type: a modifier, or the start of a record. -/
theorem not_method_of_openingWord {p v w name o : Token} {us after : List Token} {s : Scope}
    {n : Tree} (hmods : ∀ t ∈ [p, v], t.kind.isModifier = true)
    (hw : w.isWord openingWords = true) (hname : name.kind = .ident) (ho : o.kind = .lparen)
    (hopening : opening? s ([p, v] ++ w :: name :: o :: us) = some (.whole n after)) :
    n.isOf .methodDeclaration = false := by
  refine Bool.eq_false_iff.2 fun hk => ?_
  obtain ⟨first, rest, parts, hlead, htype, hread⟩ := opening?_method hopening hk
  have hbracket : nextIs .lbracket ([p, v] ++ w :: name :: o :: us) = false := by
    refine decide_eq_false fun hp => ?_
    have hmod := hmods p List.mem_cons_self
    rw [hp] at hmod
    cases hmod
  have hwident : w.kind = .ident := of_decide_eq_true (Bool.and_eq_true_iff.1 hw).1
  cases hcontext : w.isWord contextualModifiers with
  | true =>
    -- the name is left, and it is no type with a name behind it
    have hextent : modifierExtent ([p, v, w] ++ name :: o :: us) = [p, v, w].length := by
      have hnone : modifierExtent (name :: o :: us) = 0 := by
        rw [modifierExtent, List.head?_cons, Option.any_some, hname, ho, if_neg]
        simp [TokenKind.isModifier, TokenKind.isKeyword]
      show modifierExtent ([p, v] ++ w :: name :: o :: us) = 3
      rw [modifierExtent_modifiers hmods, modifierExtent, hcontext, List.head?_cons,
        Option.any_some, hname, hnone]
      simp
    have hleading := leading_of_extent hextent hbracket
    rw [show [p, v] ++ w :: name :: o :: us = [p, v, w] ++ name :: o :: us from rfl, hleading]
      at hlead
    obtain ⟨rfl, rfl⟩ := List.cons.inj hlead
    rw [method?_of_lparen hname ho] at hread
    cases hread
  | false =>
    have hrecord : w.isWord ["record"] = true := by
      rw [isWord_openingWords, hcontext, Bool.false_or] at hw
      exact hw
    have hnone : modifierExtent (w :: name :: o :: us) = 0 := by
      rw [modifierExtent, hcontext, hwident, if_neg]
      simp [TokenKind.isModifier]
    have hnext : nextIs .lbracket (w :: name :: o :: us) = false := by
      refine decide_eq_false ?_
      rw [hwident]
      decide
    rw [leading_of_modifiers hmods hnone hnext] at hlead
    obtain ⟨rfl, rfl⟩ := List.cons.inj hlead
    have hident : nextIs .ident (name :: o :: us) = true := decide_eq_true hname
    rw [typeKind?, hwident, hrecord, hident] at htype
    cases htype

/-- A raise method with a word that opens a declaration as its type is nowhere read as a method. -/
theorem not_isOf_of_openingWord {n : Tree} {xs : List Lexeme}
    (hn : n ∈ (ofTokens (scan text)).preorder) (hm : m.Spelled xs)
    (hword : m.argumentType ∈ openingWords.map String.toList)
    (hindent : ∀ c ∈ indent, isBlank c = true) (hnewline : ∀ c ∈ newline, isBlank c = true)
    (htext : n.text = (m.render indent newline).drop indent.length) :
    n.isOf .methodDeclaration = false := by
  refine Bool.eq_false_iff.2 fun hk => ?_
  have hmethod : n.nodeKind? = some .methodDeclaration := of_decide_eq_true hk
  have hinside : n ∈ preorderAll (declarations .file (scan text)).1 := by
    rcases List.mem_cons.1 hn with rfl | hn
    · cases hk
    · exact hn
  obtain ⟨s, us, rest, ⟨a, ha⟩, hopening⟩ := exists_opening_of_mem hmethod rfl rfl hinside
  have hwhole := (opening?_whole hopening).declares
  have hleaves := hwhole.leaves
  rw [leavesAll, leavesAll, List.append_nil] at hleaves
  subst hleaves
  have hne : n.leaves ≠ [] := (hwhole.declarations n List.mem_cons_self).leaves_ne_nil
  -- the type is one word
  obtain ⟨word, hmem, hw⟩ := List.mem_map.1 hword
  have hall : openingWords.all (fun w => isName w.toList && wordKind w.toList = .ident) = true := by
    decide
  obtain ⟨hname, hkind⟩ := Bool.and_eq_true_iff.1 (List.all_eq_true.1 hall word hmem)
  rw [hw] at hname hkind
  have hbare := bare_of_joined ha.symm hne
    { hm with type := scans_word hname (of_decide_eq_true hkind) } hindent hnewline htext
  generalize n.leaves = ms at hbare hopening
  obtain ⟨p, ms, rfl, hp, -, hbare⟩ := exists_of_spells_cons hbare
  obtain ⟨v, ms, rfl, hv, -, hbare⟩ := exists_of_spells_cons hbare
  obtain ⟨w, ms, rfl, hwkind, hwtext, hbare⟩ := exists_of_spells_cons hbare
  obtain ⟨name, ms, rfl, hnkind, -, hbare⟩ := exists_of_spells_cons hbare
  obtain ⟨o, ms, rfl, ho, -⟩ := exists_mark hbare
  have hmods : ∀ t ∈ [p, v], t.kind.isModifier = true := by
    simp only [List.mem_cons, List.not_mem_nil, or_false, forall_eq_or_imp, forall_eq, hp, hv]
    exact ⟨rfl, rfl⟩
  have hopens : w.isWord openingWords = true := by
    rw [Token.isWord, hwkind, hwtext, ← hw]
    exact Bool.and_eq_true_iff.2 ⟨rfl, List.any_eq_true.2 ⟨word, hmem, decide_eq_true rfl⟩⟩
  rw [not_method_of_openingWord hmods hopens hnkind ho hopening] at hk
  cases hk

end

end EventLint.Tree
