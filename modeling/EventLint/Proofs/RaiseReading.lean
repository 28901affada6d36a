import EventLint.Proofs.RaiseText

/-!
# Reading a raise method

Main statement: tokens that show a raise method are read as one method, whose name is one token,
unless the type of its argument is a single word that opens a declaration where a name follows.
-/

namespace EventLint.Tree

open Token Grammar

/-! ## 1. The first tokens of a type -/

/-- What follows the identifier that starts a type, if the type goes on. -/
theorem kind_of_second {first t : Token} {us z : List Token} {type : Tree}
    (hi : first.kind = .ident) (h : typeName? (first :: t :: (us ++ z)) = some (type, z)) :
    t.kind = .lt ∨ t.kind = .dot ∨ t.kind = .colonColon ∨ t.kind = .question ∨
      t.kind = .lbracket := by
  cases hname : endsName (t :: (us ++ z)) with
  | false =>
    simp only [endsName, List.head?_cons, Option.all_some, Bool.and_eq_false_iff,
      decide_eq_false_iff_not, not_not] at hname
    tauto
  | true =>
    have hlt : nextIs .lt (t :: (us ++ z)) = false := by
      simp only [endsName, List.head?_cons, Option.all_some, Bool.and_eq_true,
        decide_eq_true_eq] at hname
      exact decide_eq_false hname.1.1
    rw [typeName?_of_ident _ hi, nameChain_eq, simpleName_of_ne hlt] at h
    dsimp only at h
    rw [nameTail_of_endsName hname] at h
    exact Or.inr (Or.inr (Or.inr (kind_of_typeMarks (Option.some.inj h))))

/-- Words that belong to a declaration, and not to its type, where a name follows them. -/
def openingWords : List String :=
  contextualModifiers ++ ["record"]

theorem isWord_openingWords (t : Token) :
    t.isWord openingWords = (t.isWord contextualModifiers || t.isWord ["record"]) := by
  simp only [isWord, openingWords, List.any_append, Bool.and_or_distrib_left]

/-- A type in front of a name is not taken for modifiers or for the start of a record. -/
theorem exists_first_of_typeName? {gs w : List Token} {name : Token} {type : Tree}
    (h : typeName? (gs ++ name :: w) = some (type, name :: w))
    (hword : ∀ t, gs = [t] → t.isWord openingWords = false) :
    ∃ first us, gs ++ name :: w = first :: us ∧ (first.kind = .ident ∨ first.kind = .lparen) ∧
      modifierExtent (first :: us) = 0 ∧ typeKind? first us = none := by
  cases gs with
  | nil =>
    have hlt := typeName?_rest_lt h
    exact absurd hlt (Nat.lt_irrefl _)
  | cons first us =>
    have hkind : first.kind = .ident ∨ first.kind = .lparen := by
      by_contra hne
      rw [not_or] at hne
      rw [List.cons_append, typeName?_of_ne _ hne.1 hne.2] at h
      cases h
    -- if the type is more than a word, no name follows its first token
    have hnext : first.isWord openingWords = true →
        ∀ t ∈ (us ++ name :: w).head?, t.kind ≠ .ident ∧ t.kind.isKeyword = false := by
      intro hw t ht
      cases us with
      | nil =>
        rw [hword first rfl] at hw
        cases hw
      | cons second us =>
        obtain rfl : second = t := Option.some.inj ht
        have hi : first.kind = .ident := of_decide_eq_true (Bool.and_eq_true_iff.1 hw).1
        rcases kind_of_second hi h with hk | hk | hk | hk | hk <;> rw [hk] <;> decide
    rw [isWord_openingWords, Bool.or_eq_true] at hnext
    refine ⟨first, us ++ name :: w, rfl, hkind, ?_, ?_⟩
    · rw [modifierExtent, if_neg]
      intro hm
      rcases Bool.or_eq_true_iff.1 hm with hm | hm
      · rcases hkind with hk | hk <;> rw [hk] at hm <;> cases hm
      · obtain ⟨hw, hany⟩ := Bool.and_eq_true_iff.1 hm
        obtain ⟨t, ht, hor⟩ := (Option.any_eq_true _ _).1 hany
        obtain ⟨hident, hkey⟩ := hnext (Or.inl hw) t ht
        rw [hkey, Bool.or_false, decide_eq_true_eq] at hor
        exact hident hor
    · have hnone : first.isWord ["record"] = true → ∀ k, k = .ident ∨ k.isKeyword = true →
          nextIs k (us ++ name :: w) = false := by
        intro hw k hk
        refine Bool.eq_false_iff.2 fun hnextIs => ?_
        obtain ⟨t, ht, hkt⟩ := (Option.any_eq_true _ _).1 hnextIs
        obtain ⟨hident, hkey⟩ := hnext (Or.inr hw) t ht
        rw [of_decide_eq_true hkt] at hident hkey
        rcases hk with hk | hk
        · exact hident hk
        · rw [hkey] at hk
          cases hk
      have hrecord : (first.isWord ["record"] && (nextIs .ident (us ++ name :: w) ||
          nextIs (.keyword .classKw) (us ++ name :: w) ||
          nextIs (.keyword .structKw) (us ++ name :: w))) = false := by
        cases hw : first.isWord ["record"] with
        | false => rfl
        | true =>
          rw [hnone hw _ (Or.inl rfl), hnone hw _ (Or.inr rfl), hnone hw _ (Or.inr rfl)]
          rfl
      unfold typeKind?
      rcases hkind with hk | hk <;> rw [hk] <;> dsimp only <;> rw [hrecord] <;> rfl

/-! ## 2. The method -/

theorem typeName?_of_bare {type : Tree} {gs rest : List Token} (h : Reread type)
    (hg : gs.map bare = type.leaves.map bare) (hrest : endsType rest = true) :
    ∃ type', typeName? (gs ++ rest) = some (type', rest) := by
  have hsame : (typeName? (gs ++ rest)).map (relabelledOne .plain) =
      (typeName? (type.leaves ++ rest)).map (relabelledOne .plain) := by
    rw [← typeName?_map, ← typeName?_map, List.map_append, List.map_append, map_plain_eq hg]
  rw [h rest hrest, Option.map_some] at hsame
  obtain ⟨⟨type', rest'⟩, hread, heq⟩ := Option.map_eq_some_iff.1 hsame
  -- as many tokens are left
  obtain rfl : rest' = rest := by
    have hlen := congrArg List.length (Prod.mk.inj heq).2
    have hleaves := (reads_typeName? hread).leaves
    rw [List.length_map, List.length_map] at hlen
    exact List.append_inj_right' hleaves hlen
  exact ⟨type', hread⟩

/-- A type with a name stands between the parentheses that surround it. -/
theorem encloses_of_typeName? {gs w : List Token} {name c : Token} {type : Tree}
    (h : typeName? (gs ++ name :: c :: w) = some (type, name :: c :: w)) (hn : name.kind = .ident)
    (hc : c.kind.closes = true) : Encloses (gs ++ [name]) c := by
  have hpass := (passes_typeName? h).enclosed
  rw [enclosedExtent_of_plain _ (by rw [hn]; rfl) (by rw [hn]; rfl), enclosedExtent_of_closes _ hc,
    List.length_append] at hpass
  refine Encloses.of_extent (w := w) hc ?_
  rw [List.append_assoc, List.singleton_append, List.length_append, List.length_singleton]
  omega

/-- Modifiers in front of a method are read with it. -/
theorem opening?_of_method {m : Token} {mods after us : List Token} {first : Token}
    {parts : List Tree} (hm : ∀ t ∈ m :: mods, t.kind.isModifier = true)
    (hfirst : first.kind = .ident ∨ first.kind = .lparen)
    (hmods : modifierExtent (first :: after) = 0) (hkind : typeKind? first after = none)
    (hmethod : method? (first :: after) = some (parts, us)) (s : Scope) :
    opening? s (m :: mods ++ first :: after) =
      some (.whole (node .methodDeclaration (modifierList (m :: mods) ++ parts)) us) := by
  -- no modifier opens a directive or a namespace or closes a scope
  have hopens : opensMember s (m :: mods ++ first :: after) = true := by
    have hne : ∀ k : TokenKind, k.isModifier = false → m.kind ≠ k := by
      rintro k hk rfl
      rw [hm m List.mem_cons_self] at hk
      cases hk
    simp [opensMember, hne (.keyword .usingKw) rfl, hne (.keyword .namespaceKw) rfl,
      hne .rbrace rfl]
  have hevent : first.kind ≠ .keyword .eventKw := by
    rcases hfirst with hk | hk <;> rw [hk] <;> decide
  have hbracket : nextIs .lbracket (first :: after) = false := by
    refine decide_eq_false ?_
    rcases hfirst with hk | hk <;> rw [hk] <;> decide
  rw [opening?_of_member hopens, leading_of_modifiers hm hmods hbracket]
  dsimp only
  rw [member, if_neg hevent, hkind]
  dsimp only
  rw [hmethod]

/-- Tokens that show a raise method are read as a method with its name. -/
theorem exists_method {m : RaiseMethod} {argument : Tree} {ms : List Token}
    (hread : Reread argument) (htype : m.argumentType = argument.text)
    (hms : ms.map bare = m.lexemes (argument.leaves.map bare))
    (hword : m.argumentType ∉ openingWords.map String.toList) (us : List Token) :
    ∃ n name,
      (∀ s : Scope, s.ends (ms ++ us) = false ∧ opening? s (ms ++ us) = some (.whole n us)) ∧
      n.isOf .methodDeclaration = true ∧ n.leaves = ms ∧ n.childTokens = [name] ∧
      name.bare = (.ident, m.name) := by
  obtain ⟨p, ms, rfl, hp, -, hms⟩ := exists_of_spells_cons hms
  obtain ⟨v, ms, rfl, hv, -, hms⟩ := exists_of_spells_cons hms
  obtain ⟨gs, ms, rfl, hgs, hms⟩ :=
    exists_of_spells_append (show ms.map bare = argument.leaves.map bare ++ _ from hms)
  obtain ⟨name, ms, rfl, hname, hnametext, hms⟩ := exists_of_spells_cons hms
  obtain ⟨o, ms, rfl, ho, hms⟩ := exists_mark hms
  obtain ⟨gs', ms, rfl, hgs', hms⟩ :=
    exists_of_spells_append (show ms.map bare = argument.leaves.map bare ++ _ from hms)
  obtain ⟨args, ms, rfl, hargs, -, hms⟩ := exists_of_spells_cons hms
  obtain ⟨c, ms, rfl, hc, hms⟩ := exists_mark hms
  obtain ⟨b, inner, e, rfl, hb, hinner, he⟩ := exists_braced hms
  have hends : ∀ {t : Token} {w : List Token}, t.kind = .ident → endsType (t :: w) = true := by
    intro t w ht
    rw [endsType, List.head?_cons, Option.all_some, ht]
    rfl
  -- the type is read at both places
  obtain ⟨type, hread₁⟩ := typeName?_of_bare hread hgs
    (hends (w := o :: (gs' ++ [args] ++ c :: b :: (inner ++ e :: us))) hname)
  obtain ⟨type', hread₂⟩ := typeName?_of_bare hread hgs'
    (hends (w := c :: b :: (inner ++ e :: us)) hargs)
  obtain ⟨list, block, hmethod⟩ := method?_of_type hread₁ hname ho
    (encloses_of_typeName? hread₂ hargs (by rw [hc]; rfl)) hc hb hinner he
  have hsingle : ∀ t, gs = [t] → t.isWord openingWords = false := by
    rintro t rfl
    obtain ⟨u, us, hu, -, htext, hus⟩ := exists_of_spells_cons hgs.symm
    obtain rfl := List.map_eq_nil_iff.1 hus
    refine Bool.eq_false_iff.2 fun hw => hword ?_
    obtain ⟨w, hmem, hw⟩ := List.any_eq_true.1 (Bool.and_eq_true_iff.1 hw).2
    rw [htype, text, hu, joined, htext]
    exact List.mem_map.2 ⟨w, hmem, (of_decide_eq_true hw).trans (List.append_nil _).symm⟩
  obtain ⟨first, after, hfirst, hkind, hmods, htypeKind⟩ := exists_first_of_typeName? hread₁ hsingle
  rw [hfirst] at hmethod
  have hm : ∀ t ∈ [p, v], t.kind.isModifier = true := by
    simp only [List.mem_cons, List.not_mem_nil, or_false, forall_eq_or_imp, forall_eq, hp, hv]
    exact ⟨rfl, rfl⟩
  have hopening := opening?_of_method hm hkind hmods htypeKind hmethod
  have hshape : p :: v :: (gs ++ name :: o :: (gs' ++ args :: c :: b :: (inner ++ [e]))) ++ us =
      [p, v] ++ first :: after := by
    rw [← hfirst]
    simp only [List.append_assoc, List.cons_append, List.nil_append]
  rw [← hshape] at hopening
  refine ⟨_, name, fun s => ⟨?_, hopening s⟩, rfl, ?_, ?_,
    Prod.ext hname hnametext⟩
  · show s.endsAt p.kind = false
    rw [Scope.endsAt, hp]
    exact Bool.and_false _
  · have hleaves := (opening?_whole (hopening .file)).declares.leaves
    rw [leavesAll, leavesAll, List.append_nil] at hleaves
    exact List.append_cancel_right hleaves
  · have hnode := isNode_of_isTypeNode (isTypeNode_typeName? hread₁)
    cases type with
    | leaf t => cases hnode
    | node k cs => rfl

end EventLint.Tree
