import EventLint.Proofs.Frame

/-!
# How declarations end

Main statement: a declaration that something follows is read from its own tokens and at most the
next, so it is read the same way if something else follows, within limits that `Framed` names.
-/

namespace EventLint.Tree

/-- The name of an event and the brace in front of its accessors, with what follows. -/
def accessorHead? (ts : List Token) : Option (Token × Token × List Token) :=
  match ts.drop (qualifierExtent ts) with
  | name :: opening :: after =>
    if name.kind = .ident && opening.kind = .lbrace then some (name, opening, after) else none
  | _ => none

/-- An event that is declared like a field, after its type. -/
def fieldEvent (lead : List Tree) (keyword : Token) (type : Tree) (ts : List Token) :
    Tree × List Token :=
  let mid := (declarators ts).2
  let declaration := node .variableDeclaration (type :: (declarators ts).1)
  if nextIs .semicolon mid then
    (node .eventFieldDeclaration
      (lead ++ leaf keyword :: declaration :: (optional .semicolon mid).1), mid.tail)
  else
    (node .eventFieldDeclaration
      (lead ++ leaf keyword :: declaration :: (mid.take (memberExtent mid)).map leaf),
      mid.drop (memberExtent mid))

theorem event_eq (lead : List Tree) (keyword : Token) (ts : List Token) :
    event lead keyword ts =
      match typeName? ts with
      | none =>
        (node .otherMember (lead ++ leaf keyword :: (ts.take (memberExtent ts)).map leaf),
          ts.drop (memberExtent ts))
      | some (type, rest) =>
        match accessorHead? rest with
        | some (name, opening, after) =>
          (node .eventDeclaration (lead ++ leaf keyword :: type ::
            qualifier (qualifierExtent rest) rest ++ [leaf name, (accessorList opening after).1]),
            (accessorList opening after).2)
        | none => fieldEvent lead keyword type rest := by
  unfold event
  rcases typeName? ts with _ | ⟨type, rest⟩
  · rfl
  · dsimp only
    -- both arms of the source close a declaration of fields alike
    have hfields : fieldEvent lead keyword type rest =
        let close := if nextIs .semicolon (declarators rest).2 then
            optional .semicolon (declarators rest).2
          else (((declarators rest).2.take (memberExtent (declarators rest).2)).map leaf,
            (declarators rest).2.drop (memberExtent (declarators rest).2))
        (node .eventFieldDeclaration (lead ++ leaf keyword ::
          node .variableDeclaration (type :: (declarators rest).1) :: close.1), close.2) := by
      unfold fieldEvent
      dsimp only
      cases hd : (declarators rest).2 with
      | nil => rfl
      | cons t mid =>
        split
        · rename_i ht
          rw [optional, if_pos (of_decide_eq_true ht)]
          rfl
        · rfl
    rw [hfields]
    unfold accessorHead?
    rcases rest.drop (qualifierExtent rest) with _ | ⟨name, _ | ⟨opening, after⟩⟩
    · rfl
    · rfl
    · dsimp only
      cases name.kind = .ident && opening.kind = .lbrace <;> rfl

/-! ## 1. How a declaration ends -/

/-- A parenthesis follows the angle brackets of which `depth` are open. -/
def angleOpens (depth : Nat) (ts : List Token) : Bool :=
  nextIs .lparen (ts.drop (angleExtent depth ts))

/-- Angle brackets left open lead to a parenthesis in both lists or in neither. -/
def AngleLike (w w' : List Token) : Prop :=
  ∀ depth, angleOpens (depth + 1) w' = angleOpens (depth + 1) w

/-- What follows a declaration is `w` or `w'`: neither goes on with it, or both alike. -/
structure Like (w w' : List Token) : Prop where
  next : SameNext (·.kind = .eq) w w'
  angle : AngleLike w w'

/-- `P us rest` says that something is read from `us` and `rest` is left. It holds of
`b ++ e :: w` and `after` by what stands up to `e`, which is the last token that is read or the
first that is left; so it holds whatever follows `e`, within limits. -/
def Framed (P : List Token → List Token → Prop) (b : List Token) (e : Token)
    (w after : List Token) : Prop :=
  after = w ∧ (e.kind = .semicolon ∨ e.kind.closes = true) ∧
      (∀ w', Like w w' → P (b ++ e :: w') w') ∨
    after = e :: w ∧ e.kind.closes = true ∧ ∀ w', AngleLike w w' → P (b ++ e :: w') (e :: w')

/-- What follows from a framed statement for the tokens in front of it as well. -/
theorem Framed.map {P Q : List Token → List Token → Prop} {b w after : List Token} {e : Token}
    (h : Framed P b e w after) (c : List Token)
    (hPQ : (e.kind = .semicolon ∨ e.kind.closes = true) →
      ∀ w' rest, AngleLike w w' → P (b ++ e :: w') rest → Q (c ++ b ++ e :: w') rest) :
    Framed Q (c ++ b) e w after := by
  rcases h with ⟨ha, he, hP⟩ | ⟨ha, he, hP⟩
  · exact Or.inl ⟨ha, he, fun w' hw => hPQ he w' w' hw.angle (hP w' hw)⟩
  · exact Or.inr ⟨ha, he, fun w' hw => hPQ (Or.inr he) w' (e :: w') hw (hP w' hw)⟩

/-- The cut at the end of a member kept as it is. -/
theorem exists_member_end (named : Bool) {ts : List Token} (h : ts.drop (memberExtent ts) ≠ []) :
    ∃ b e w, ts = b ++ e :: w ∧ typeBound named ts ≤ b.length ∧
      Framed (fun us rest => us.take (memberExtent us) = ts.take (memberExtent ts) ∧
        us.drop (memberExtent us) = rest) b e w (ts.drop (memberExtent ts)) := by
  obtain ⟨b, e, w, rfl, hb, hend⟩ := exists_run_end named _ h
  refine ⟨b, e, w, rfl, hb, ?_⟩
  -- the run ends in front of a closing brace `e`, or with `e`
  rcases hend with ⟨hn, he⟩ | ⟨hn, he⟩
  · have hdrop : (b ++ e :: w).drop (memberExtent (b ++ e :: w)) = e :: w := by
      rw [memberExtent, hn, List.drop_left]
    refine Or.inr ⟨hdrop, by rw [he]; rfl, fun w' _ => ?_⟩
    obtain ⟨hle, h1, h2⟩ := cut_append (r := []) w' hdrop
    have heq : memberExtent (b ++ e :: w') = memberExtent (b ++ e :: w) :=
      opaqueExtent_append_cons w' hle
    rw [heq]
    exact ⟨h1, h2⟩
  · have hlen : (b ++ [e]).length = memberExtent (b ++ e :: w) := by
      rw [List.length_append, List.length_singleton, memberExtent, hn]
    have hcut : ∀ v, (b ++ e :: v).take (memberExtent (b ++ e :: w)) = b ++ [e] ∧
        (b ++ e :: v).drop (memberExtent (b ++ e :: w)) = v := by
      intro v
      rw [← hlen, List.append_cons b e v, List.take_left, List.drop_left]
      exact ⟨rfl, rfl⟩
    refine Or.inl ⟨(hcut w).2, he, fun w' hw => ?_⟩
    have heq : memberExtent (b ++ e :: w') = memberExtent (b ++ e :: w) := by
      rw [List.append_cons b e w] at hlen ⊢
      rw [List.append_cons b e w']
      exact opaqueExtent_append (Nat.le_of_eq hlen.symm) (Or.inr hw.next)
    dsimp only
    rw [heq, (hcut w').1, (hcut w).1]
    exact ⟨rfl, (hcut w').2⟩

theorem accessorHead?_eq_some {ts after : List Token} {name opening : Token} :
    accessorHead? ts = some (name, opening, after) ↔
      ts.drop (qualifierExtent ts) = name :: opening :: after ∧ name.kind = .ident ∧
        opening.kind = .lbrace := by
  unfold accessorHead?
  rcases ts.drop (qualifierExtent ts) with _ | ⟨n, _ | ⟨o, c⟩⟩
  · simp
  · simp
  · dsimp only
    by_cases hc : n.kind = .ident ∧ o.kind = .lbrace
    · rw [if_pos (by rw [hc.1, hc.2]; rfl), Option.some.injEq, Prod.mk.injEq, Prod.mk.injEq,
        List.cons.injEq, List.cons.injEq]
      constructor
      · rintro ⟨rfl, rfl, rfl⟩
        exact ⟨⟨rfl, rfl, rfl⟩, hc⟩
      · exact fun h => h.1
    · rw [if_neg (by simpa using hc)]
      refine ⟨fun h => (by cases h), fun ⟨he, hk⟩ => ?_⟩
      rw [List.cons.injEq, List.cons.injEq] at he
      rw [he.1, he.2.1] at hc
      exact absurd hk hc

theorem accessorHead?_append {b w : List Token} {e : Token} (w' : List Token)
    (he : e.kind = .semicolon ∨ e.kind.closes = true) (h : accessorHead? (b ++ e :: w) = none) :
    accessorHead? (b ++ e :: w') = none := by
  have hi := (ne_of_ends he).1
  have hb : e.kind ≠ .lbrace := by
    rcases he with he | he
    · rw [he]
      decide
    · intro hk
      rw [hk] at he
      cases he
  obtain ⟨hle, hq⟩ := qualifierExtent_append (b := b) (w := w) w' he
  unfold accessorHead? at h ⊢
  rw [List.drop_append_of_le_length hle] at h
  rw [hq, List.drop_append_of_le_length hle]
  -- the two tokens that are looked at are in `c`, or `e` is one of them and settles it
  generalize b.drop (qualifierExtent (b ++ e :: w)) = c at h ⊢
  rcases c with _ | ⟨name, _ | ⟨opening, c⟩⟩
  · cases w' with
    | nil => rfl
    | cons t w' =>
      dsimp only [List.nil_append]
      rw [decide_eq_false hi]
      rfl
  · dsimp only [List.cons_append, List.nil_append]
    rw [decide_eq_false hb, Bool.and_false]
    rfl
  · dsimp only [List.cons_append] at h ⊢
    split at h
    · cases h
    · rename_i hc
      rw [if_neg hc]

theorem typeBound_of_ident {t : Token} (rest : List Token) (h : t.kind = .ident) :
    typeBound true (t :: rest) = 0 := by
  rw [typeBound, if_pos h]
  rfl

/-- Where names are declared, one stands first. -/
theorem typeBound_of_declarators {ts : List Token} (h : (declarators ts).1 ≠ []) :
    typeBound true ts = 0 := by
  cases ts with
  | nil => exact typeBound_nil true
  | cons t ts =>
    by_cases ht : t.kind = .ident
    · exact typeBound_of_ident ts ht
    · rw [declarators_of_ne ts ht] at h
      exact absurd rfl h

/-- A name stands first where a qualifier and a name do. -/
theorem typeBound_of_qualified {ts after : List Token} {name : Token}
    (h : ts.drop (qualifierExtent ts) = name :: after) (hn : name.kind = .ident) :
    typeBound true ts = 0 := by
  cases ts with
  | nil => exact typeBound_nil true
  | cons t ts =>
    by_cases ht : t.kind = .ident
    · exact typeBound_of_ident ts ht
    · have hq : qualifierExtent (t :: ts) = 0 := by
        cases ts with
        | nil => rfl
        | cons u ts =>
          rw [qualifierExtent, decide_eq_false ht]
          rfl
      rw [hq, List.drop_zero] at h
      rw [(List.cons.inj h).1] at ht
      exact absurd hn ht

/-- An event that is declared like a field, after its type. -/
theorem fieldEvent_frame {lead : List Tree} {keyword : Token} {type : Tree}
    {ts after : List Token} {tree : Tree} (h : fieldEvent lead keyword type ts = (tree, after))
    (hne : after ≠ []) :
    ∃ b e w, ts = b ++ e :: w ∧ typeBound true ts ≤ b.length ∧
      Framed (fun us rest => fieldEvent lead keyword type us = (tree, rest)) b e w after := by
  have hread := reads_declarators ts
  -- the bound of the type must not lie behind `e`: a name ends it at once
  have hbound : typeBound true ts = 0 ∨ (declarators ts).1 = [] := by
    by_cases hn : (declarators ts).1 = []
    · exact Or.inr hn
    · exact Or.inl (typeBound_of_declarators hn)
  unfold fieldEvent at h
  rcases hd : declarators ts with ⟨names, mid⟩
  rw [hd] at h hread hbound
  dsimp only at h hread hbound
  split at h
  · rename_i hs
    cases mid with
    | nil => cases hs
    | cons e mid =>
      have he : e.kind = .semicolon := of_decide_eq_true hs
      obtain ⟨rfl, rfl⟩ := Prod.mk.inj h
      refine ⟨leavesAll names, e, mid, hread.leaves.symm, ?_, Or.inl ⟨rfl, Or.inl he, ?_⟩⟩
      · rcases hbound with h0 | rfl
        · omega
        · rw [← hread.leaves, leavesAll, List.nil_append, typeBound_of_ends mid (Or.inl he)]
          exact Nat.le_refl 0
      · intro w' _
        rw [← hread.leaves] at hd
        unfold fieldEvent
        rw [declarators_append (r := []) w' (Or.inl he) hd, List.nil_append]
        dsimp only [List.tail_cons]
        rw [if_pos (show nextIs .semicolon (e :: w') = true from decide_eq_true he), optional,
          if_pos he, optional, if_pos he]
  · rename_i hs
    obtain ⟨rfl, rfl⟩ := Prod.mk.inj h
    obtain ⟨b, e, w, hmid, hb, hf⟩ := exists_member_end true hne
    subst hmid
    refine ⟨leavesAll names ++ b, e, w, hread.front, ?_, hf.map _ fun he w' rest _ hP => ?_⟩
    · rcases hbound with h0 | rfl
      · omega
      · rw [← hread.leaves, leavesAll, List.nil_append, List.nil_append]
        exact hb
    · rw [hread.front] at hd
      have hs' : ¬ nextIs .semicolon (b ++ e :: w') = true := by
        cases b <;> exact hs
      unfold fieldEvent
      rw [declarators_append w' he hd]
      dsimp only
      rw [if_neg hs', hP.1, hP.2]

/-- A type is read from what stands up to `e` if the bound of types stands there. -/
theorem typeName?_of_front {ts rest b w : List Token} {e : Token} {type : Tree}
    (h : typeName? ts = some (type, rest)) (hr : rest = b ++ e :: w)
    (hb : typeBound true rest ≤ b.length) (w' : List Token) :
    typeName? (leavesAll [type] ++ b ++ e :: w') = some (type, b ++ e :: w') := by
  subst hr
  have hread := reads_typeName? h
  have hpass := (passes_typeName? h).bound
  rw [hread.front] at h hpass
  have hle : typeBound false (leavesAll [type] ++ b ++ e :: w) ≤
      (leavesAll [type] ++ b).length := by
    simp only [List.length_append, List.length_cons] at hpass ⊢
    omega
  rcases typeName?_frame hle with hn | ⟨type', r, hs⟩
  · rw [hn] at h
    cases h
  · rw [hs] at h
    obtain ⟨rfl, hr⟩ := Prod.mk.inj (Option.some.inj h)
    rw [hs, List.append_cancel_right hr]

/-- An event with accessors that end with `e` is read whatever follows `e`. -/
theorem event_of_accessors (keyword : Token) {name opening e : Token} {type list : Tree}
    {ts rest b after : List Token} (ht : typeName? ts = some (type, rest))
    (hhead : accessorHead? rest = some (name, opening, b ++ e :: after)) (he : e.kind = .rbrace)
    (hlist : ∀ w, accessorList opening (b ++ e :: w) = (list, w)) :
    ∃ c, ts = c ++ e :: after ∧ ∀ lead w, event lead keyword (c ++ e :: w) =
      (node .eventDeclaration (lead ++ leaf keyword :: type ::
        qualifier (qualifierExtent rest) rest ++ [leaf name, list]), w) := by
  have hread := reads_typeName? ht
  have hend : e.kind = .semicolon ∨ e.kind.closes = true := Or.inr (by rw [he]; rfl)
  -- the name and the opening brace stand after the qualifier
  obtain ⟨hdrop, hkinds⟩ := accessorHead?_eq_some.1 hhead
  have hbound := typeBound_of_qualified hdrop hkinds.1
  rw [← List.cons_append, ← List.cons_append] at hdrop
  obtain ⟨c, rfl⟩ : ∃ c, rest = c ++ e :: after := by
    refine ⟨rest.take (qualifierExtent rest) ++ name :: opening :: b, ?_⟩
    rw [List.append_assoc, ← hdrop, List.take_append_drop]
  refine ⟨leavesAll [type] ++ c, hread.front, fun lead w => ?_⟩
  obtain ⟨-, hq⟩ := qualifierExtent_append (b := c) (w := after) w hend
  obtain ⟨-, h1, h2⟩ := cut_append w hdrop
  have hhead' : accessorHead? (c ++ e :: w) = some (name, opening, b ++ e :: w) := by
    rw [accessorHead?_eq_some, hq, h2]
    exact ⟨rfl, hkinds⟩
  rw [event_eq, typeName?_of_front ht rfl (by omega)]
  dsimp only
  rw [hhead', hq, qualifier, qualifier, h1]
  dsimp only
  rw [hlist]

theorem event_frame {lead : List Tree} {keyword : Token} {ts after : List Token} {tree : Tree}
    (h : event lead keyword ts = (tree, after)) (hne : after ≠ []) :
    ∃ b e w, ts = b ++ e :: w ∧
      Framed (fun us rest => event lead keyword us = (tree, rest)) b e w after := by
  rw [event_eq] at h
  split at h
  · -- without a type the event is kept as it is
    rename_i ht
    obtain ⟨rfl, rfl⟩ := Prod.mk.inj h
    obtain ⟨b, e, w, hts, hb, hf⟩ := exists_member_end false hne
    refine ⟨b, e, w, hts, hf.map [] fun _ w' rest _ hP => ?_⟩
    rw [hts] at hb ht
    have hnone : typeName? (b ++ e :: w') = none := by
      rcases typeName?_frame hb with hn | ⟨type, r, hs⟩
      · exact hn w'
      · rw [hs] at ht
        cases ht
    rw [event_eq, List.nil_append, hnone]
    dsimp only
    rw [hP.1, hP.2]
  · rename_i type rest ht
    have hread := reads_typeName? ht
    split at h
    · rename_i name opening mid hhead
      rcases hl : accessorList opening mid with ⟨list, last⟩
      rw [hl] at h
      obtain ⟨rfl, rfl⟩ := Prod.mk.inj h
      obtain ⟨b, e, rfl, he, hlist⟩ := accessorList_frame hl hne
      obtain ⟨c, hts, hevent⟩ := event_of_accessors keyword ht hhead he hlist
      exact ⟨c, e, last, hts, Or.inl ⟨rfl, Or.inr (by rw [he]; rfl), fun w' _ => hevent lead w'⟩⟩
    · rename_i hhead
      obtain ⟨b, e, w, rfl, hb, hf⟩ := fieldEvent_frame h hne
      refine ⟨_, e, w, hread.front, hf.map _ fun he w' rest _ hP => ?_⟩
      rw [event_eq, typeName?_of_front ht rfl hb]
      dsimp only
      rw [accessorHead?_append w' he hhead]
      exact hP

/-! ## 2. Parameters -/

/-- The bracket that closes what surrounds `ts` is the one that closes what surrounds `rest`. -/
def Aligned (ts rest : List Token) : Prop :=
  enclosedExtent ts + rest.length = ts.length + enclosedExtent rest

theorem Aligned.trans {ts mid rest : List Token} (h : Aligned ts mid) (h' : Aligned mid rest) :
    Aligned ts rest := by
  unfold Aligned at h h' ⊢
  omega

theorem aligned_cons {t : Token} {rest : List Token} (ho : t.kind.opens = false)
    (hc : t.kind.closes = false) : Aligned (t :: rest) rest := by
  unfold Aligned
  rw [enclosedExtent_of_plain rest ho hc, List.length_cons]
  omega

theorem aligned_attributes (ts : List Token) : Aligned ts (attributes ts).2 := by
  induction ts using shorter_induction with
  | step ts ih =>
    cases ts with
    | nil =>
      rw [attributes]
      exact Nat.add_comm _ _
    | cons t ts =>
      by_cases ht : t.kind = .lbracket
      · rw [attributes_of_lbracket ts ht]
        have hle := closingExtent_le 1 ts
        have hi := ih (ts.drop (closingExtent 1 ts)) (by
          rw [List.length_drop, List.length_cons]
          omega)
        refine Aligned.trans ?_ hi
        unfold Aligned
        rw [enclosedExtent_of_opens ts (by rw [ht]; rfl), List.length_drop, List.length_cons]
        omega
      · rw [attributes_of_ne ts ht]
        exact Nat.add_comm _ _

theorem aligned_parameterModifiers (ts : List Token) :
    Aligned ts (ts.drop (parameterModifierExtent ts)) := by
  induction ts with
  | nil => exact Nat.add_comm _ _
  | cons t ts ih =>
    rw [parameterModifierExtent]
    split
    · rename_i ht
      have hk : t.kind = .keyword .thisKw ∨ t.kind = .ident := by
        rw [Token.isWord] at ht
        rcases Bool.or_eq_true _ _ ▸ ht with h | h
        · exact Or.inl (of_decide_eq_true h)
        · exact Or.inr (of_decide_eq_true (Bool.and_eq_true _ _ ▸ h).1)
      rw [Nat.add_comm 1, List.drop_succ_cons]
      exact Aligned.trans (aligned_cons (by rcases hk with h | h <;> rw [h] <;> rfl)
        (by rcases hk with h | h <;> rw [h] <;> rfl)) ih
    · exact Nat.add_comm _ _

theorem aligned_typedName (ts : List Token) : Aligned ts (typedName ts).2 := by
  unfold typedName
  split
  · rename_i type name rest h
    split
    · rename_i hn
      exact Aligned.trans (passes_typeName? h).enclosed
        (aligned_cons (by rw [hn]; rfl) (by rw [hn]; rfl))
    · exact Nat.add_comm _ _
  · exact Nat.add_comm _ _

theorem aligned_expression (stop : TokenKind → Bool) (ts : List Token) :
    Aligned ts (ts.drop (expressionExtent stop 0 ts)) := by
  have h := enclosedExtent_expression stop 0 ts
  have hle := expressionExtent_le stop 0 ts
  unfold Aligned
  rw [List.length_drop, enclosedExtent]
  omega

theorem parameter_rest (ts : List Token) :
    (parameter ts).2 =
      (typedName ((attributes ts).2.drop (parameterModifierExtent (attributes ts).2))).2.drop
        (expressionExtent (· = .comma) 0
          (typedName ((attributes ts).2.drop (parameterModifierExtent (attributes ts).2))).2) := by
  unfold parameter
  dsimp only
  split <;> rfl

theorem aligned_parameter (ts : List Token) : Aligned ts (parameter ts).2 := by
  rw [parameter_rest]
  exact (((aligned_attributes ts).trans (aligned_parameterModifiers _)).trans
    (aligned_typedName _)).trans (aligned_expression _ _)

/-- An expression ends with the text, at a stop or at a closing bracket. -/
theorem expressionExtent_end (stop : TokenKind → Bool) (d : Nat) (ts : List Token) :
    ts.drop (expressionExtent stop d ts) = [] ∨
      ∃ e w, ts.drop (expressionExtent stop d ts) = e :: w ∧
        (stop e.kind = true ∨ e.kind.closes = true) := by
  induction ts generalizing d with
  | nil => exact Or.inl List.drop_nil
  | cons t ts ih =>
    rw [expressionExtent]
    split
    · rename_i h
      exact Or.inr ⟨t, ts, rfl, h.2⟩
    · rw [Nat.add_comm 1, List.drop_succ_cons]
      exact ih _

theorem parameters_of_end {ts : List Token} (h : (ts.isEmpty || nextIs .rparen ts) = true) :
    parameters ts = ([], ts) := by
  rw [parameters, if_pos h]

theorem parameters_cons {ts : List Token} (h : ¬ (ts.isEmpty || nextIs .rparen ts) = true) :
    parameters ts =
      match (parameter ts).2 with
      | [] => ((parameter ts).1, [])
      | comma :: after =>
        if comma.kind = .comma then
          ((parameter ts).1 ++ leaf comma :: (parameters after).1, (parameters after).2)
        else ((parameter ts).1, comma :: after) := by
  have hle := (reads_parameter ts).rest_le
  rw [parameters, if_neg h]
  rcases hp : parameter ts with ⟨first, rest⟩
  rw [hp] at hle
  cases rest with
  | nil => rfl
  | cons comma after =>
    dsimp only [List.length_cons] at hle ⊢
    simp only [show after.length < ts.length by omega, and_true]

/-- Parameters stand in one pair of brackets and end at the closing one. -/
theorem parameters_end (ts : List Token) :
    Aligned ts (parameters ts).2 ∧
      ((parameters ts).2 = [] ∨
        ∃ e w, (parameters ts).2 = e :: w ∧ e.kind.closes = true) := by
  induction ts using shorter_induction with
  | step ts ih =>
    by_cases hend : (ts.isEmpty || nextIs .rparen ts) = true
    · rw [parameters_of_end hend]
      refine ⟨Nat.add_comm _ _, ?_⟩
      cases ts with
      | nil => exact Or.inl rfl
      | cons t ts =>
        have ht : t.kind = .rparen := of_decide_eq_true hend
        exact Or.inr ⟨t, ts, rfl, by rw [ht]; rfl⟩
    · have hle := (reads_parameter ts).rest_le
      have hal := aligned_parameter ts
      have hstop := expressionExtent_end (· = .comma) 0
        (typedName ((attributes ts).2.drop (parameterModifierExtent (attributes ts).2))).2
      rw [← parameter_rest] at hstop
      rw [parameters_cons hend]
      rcases hp : parameter ts with ⟨first, rest⟩
      rw [hp] at hle hal hstop
      cases rest with
      | nil => exact ⟨hal, Or.inl rfl⟩
      | cons comma after =>
        dsimp only [List.length_cons] at hle hal hstop ⊢
        -- a parameter ends at a comma, which another one follows, or at the closing bracket
        split
        · rename_i hc
          obtain ⟨hi, hi'⟩ := ih after (by omega)
          exact ⟨(hal.trans (aligned_cons (by rw [hc]; rfl) (by rw [hc]; rfl))).trans hi, hi'⟩
        · rename_i hc
          obtain ⟨e, w, he, hk⟩ := hstop.resolve_left (List.cons_ne_nil _ _)
          obtain ⟨rfl, rfl⟩ := List.cons.inj he
          refine ⟨hal, Or.inr ⟨comma, after, rfl, ?_⟩⟩
          exact hk.resolve_left fun h => hc (of_decide_eq_true h)

/-- `e` closes what surrounds `b`. -/
structure Encloses (b : List Token) (e : Token) : Prop where
  closes : e.kind.closes = true
  extent : ∀ v, enclosedExtent (b ++ e :: v) = b.length

namespace Encloses

variable {b : List Token} {e : Token}

theorem of_extent {w : List Token} (hc : e.kind.closes = true)
    (h : enclosedExtent (b ++ e :: w) = b.length) : Encloses b e where
  closes := hc
  extent v := by
    rw [← h]
    exact expressionExtent_append v (Nat.le_of_eq h)

theorem ends (h : Encloses b e) : e.kind = .semicolon ∨ e.kind.closes = true :=
  Or.inr h.closes

/-- What is left of aligned tokens still stands in front of `e`. -/
theorem front (h : Encloses b e) {trees : List Tree} {rest : List Token}
    (hr : Reads (b ++ [e]) trees rest) (ha : Aligned (b ++ [e]) rest) :
    ∃ r, rest = r ++ [e] ∧ Encloses r e := by
  have hlen : rest.length = 1 + enclosedExtent rest := by
    unfold Aligned at ha
    rw [h.extent [], List.length_append, List.length_singleton] at ha
    omega
  have hne : rest ≠ [] := List.ne_nil_of_length_pos (by omega)
  obtain ⟨r, last, rfl⟩ : ∃ r last, rest = r ++ [last] :=
    ⟨rest.dropLast, rest.getLast hne, (List.dropLast_append_getLast hne).symm⟩
  have hlast : e = last := by
    have hl := hr.leaves
    rw [← List.append_assoc] at hl
    exact (List.cons.inj (List.append_inj_right' hl rfl).symm).1
  subst hlast
  refine ⟨r, rfl, of_extent h.closes (w := []) ?_⟩
  rw [List.length_append, List.length_singleton] at hlen
  omega

theorem attributes (h : Encloses b e) :
    ∃ x r, Encloses r e ∧ ∀ v, Tree.attributes (b ++ e :: v) = (x, r ++ e :: v) := by
  obtain ⟨r, hr, henc⟩ := h.front (reads_attributes (b ++ [e])) (aligned_attributes (b ++ [e]))
  exact ⟨_, r, henc, fun v => attributes_append (w := []) v (Prod.ext rfl hr)⟩

theorem parameterModifiers (h : Encloses b e) :
    ∃ n, n ≤ b.length ∧ Encloses (b.drop n) e ∧
      ∀ v, parameterModifierExtent (b ++ e :: v) = n := by
  -- no modifier of a parameter is a closing bracket
  have hsame : ∀ c v, parameterModifierExtent (c ++ e :: v) =
      parameterModifierExtent (c ++ [e]) ∧ parameterModifierExtent (c ++ [e]) ≤ c.length := by
    have hstop : ∀ v, parameterModifierExtent (e :: v) = 0 := by
      intro v
      rw [parameterModifierExtent]
      rcases TokenKind.eq_of_closes h.closes with hk | hk | hk <;> rw [Token.isWord, hk] <;> rfl
    intro c v
    induction c with
    | nil =>
      rw [List.nil_append, List.nil_append, hstop, hstop]
      exact ⟨rfl, Nat.le_refl _⟩
    | cons t c ih =>
      rw [List.cons_append, List.cons_append, parameterModifierExtent, parameterModifierExtent,
        ih.1, List.length_cons]
      refine ⟨rfl, ?_⟩
      split <;> omega
  have hle := (hsame b []).2
  obtain ⟨r, hr, henc⟩ := h.front (Reads.take _) (aligned_parameterModifiers (b ++ [e]))
  rw [List.drop_append_of_le_length hle] at hr
  rw [← List.append_cancel_right hr] at henc
  exact ⟨_, hle, henc, fun v => (hsame b v).1⟩

theorem typedName (h : Encloses b e) :
    ∃ x r, Encloses r e ∧ ∀ v, Tree.typedName (b ++ e :: v) = (x, r ++ e :: v) := by
  -- a trial of a type stays in front of the bracket around it
  have hbound : typeBound false (b ++ e :: []) ≤ b.length := by
    rw [← h.extent []]
    exact typeBound_le_enclosed _ _
  obtain ⟨r, hr, henc⟩ := h.front (reads_typedName (b ++ [e])) (aligned_typedName (b ++ [e]))
  refine ⟨(Tree.typedName (b ++ [e])).1, r, henc, fun v => ?_⟩
  have hi := (ne_of_ends h.ends).1
  unfold Tree.typedName at hr ⊢
  rcases typeName?_frame hbound with hn | ⟨type, c, hs⟩
  · rw [hn] at hr ⊢
    rw [hn]
    dsimp only at hr ⊢
    rw [List.append_cancel_right hr]
  · rw [hs] at hr ⊢
    rw [hs]
    cases c with
    | nil =>
      dsimp only [List.nil_append] at hr ⊢
      rw [if_neg hi] at hr ⊢
      rw [if_neg hi, List.append_cancel_right hr]
    | cons name c =>
      dsimp only [List.cons_append] at hr ⊢
      split at hr
      · rename_i hname
        rw [if_pos hname, if_pos hname, List.append_cancel_right hr]
      · rename_i hname
        rw [if_neg hname, if_neg hname, List.append_cancel_right hr]

theorem expression (h : Encloses b e) (stop : TokenKind → Bool) :
    ∃ n, n ≤ b.length ∧ Encloses (b.drop n) e ∧
      ∀ v, expressionExtent stop 0 (b ++ e :: v) = n := by
  obtain ⟨r, hr, henc⟩ := h.front (Reads.take _) (aligned_expression stop (b ++ [e]))
  obtain ⟨hle, -⟩ := cut_append [] hr
  rw [List.drop_append_of_le_length hle] at hr
  rw [← List.append_cancel_right hr] at henc
  exact ⟨_, hle, henc, fun v => expressionExtent_append v hle⟩

theorem parameter (h : Encloses b e) :
    ∃ x r, Encloses r e ∧ ∀ v, Tree.parameter (b ++ e :: v) = (x, r ++ e :: v) := by
  -- part by part, with what is left in front of `e` still enclosed by it
  obtain ⟨attrs, r, hr, hattrs⟩ := h.attributes
  obtain ⟨n, hn, hrn, hmods⟩ := hr.parameterModifiers
  obtain ⟨named, s, hs, hnamed⟩ := hrn.typedName
  obtain ⟨m, hm, hsm, hexp⟩ := hs.expression (· = .comma)
  have hparts : ∀ v, Tree.parameter (b ++ e :: v) =
      (if (attrs ++ (r.take n).map leaf ++ named ++ Tree.expression (s.take m)).isEmpty then []
        else [node .parameter
          (attrs ++ (r.take n).map leaf ++ named ++ Tree.expression (s.take m))],
        s.drop m ++ e :: v) := by
    intro v
    unfold Tree.parameter
    rw [hattrs]
    dsimp only
    rw [hmods, List.drop_append_of_le_length hn, List.take_append_of_le_length hn, hnamed]
    dsimp only
    rw [hexp, List.drop_append_of_le_length hm, List.take_append_of_le_length hm]
    generalize attrs ++ (r.take n).map leaf ++ named ++ Tree.expression (s.take m) = parts
    cases parts <;> rfl
  refine ⟨(Tree.parameter (b ++ [e])).1, s.drop m, hsm, fun v => ?_⟩
  rw [hparts, hparts]

/-- No bracket in `b` closes what surrounds it. -/
theorem not_closes {t : Token} {c : List Token} (h : Encloses (t :: c) e) :
    t.kind.closes = false := by
  cases ht : t.kind.closes with
  | false => rfl
  | true =>
    have hx := h.extent []
    rw [List.cons_append, enclosedExtent_of_closes _ ht, List.length_cons] at hx
    omega

theorem tail {t : Token} {c : List Token} (h : Encloses (t :: c) e) (ho : t.kind.opens = false) :
    Encloses c e := by
  refine of_extent h.closes (w := []) ?_
  have hx := h.extent []
  rw [List.cons_append, enclosedExtent_of_plain _ ho h.not_closes, List.length_cons] at hx
  omega

/-- Parameters are read from their brackets alone. -/
theorem parameters (h : Encloses b e) :
    ∃ x, ∀ v, Tree.parameters (b ++ e :: v) = (x, e :: v) := by
  induction b using shorter_induction with
  | step b ih =>
    obtain ⟨first, r, hr, hfirst⟩ := h.parameter
    have hle := (reads_parameter (b ++ [e])).rest_le
    have hstop := expressionExtent_end (· = .comma) 0
      (Tree.typedName ((Tree.attributes (b ++ [e])).2.drop
        (parameterModifierExtent (Tree.attributes (b ++ [e])).2))).2
    rw [← parameter_rest, hfirst] at hstop
    rw [hfirst, List.length_append, List.length_append] at hle
    dsimp only at hstop
    have hnext : ∀ v, ((b ++ e :: v).isEmpty || nextIs .rparen (b ++ e :: v)) =
        ((b ++ [e]).isEmpty || nextIs .rparen (b ++ [e])) := by
      intro v
      cases b <;> rfl
    by_cases hend : ((b ++ [e]).isEmpty || nextIs .rparen (b ++ [e])) = true
    · cases b with
      | nil => exact ⟨[], fun v => parameters_of_end (by rw [hnext]; exact hend)⟩
      | cons t b =>
        have ht : t.kind = .rparen := of_decide_eq_true hend
        have hc := h.not_closes
        rw [ht] at hc
        cases hc
    · have hcons := fun v => parameters_cons (show ¬ ((b ++ e :: v).isEmpty ||
        nextIs .rparen (b ++ e :: v)) = true by rw [hnext]; exact hend)
      cases r with
      | nil =>
        refine ⟨first, fun v => ?_⟩
        have hne : e.kind ≠ .comma := by
          intro hk
          have hc := h.closes
          rw [hk] at hc
          cases hc
        rw [hcons, hfirst]
        dsimp only [List.nil_append]
        rw [if_neg hne]
      | cons c r =>
        obtain ⟨d, w, hd, hk⟩ := hstop.resolve_left (by simp)
        obtain ⟨rfl, rfl⟩ := List.cons.inj hd
        -- no closing bracket stands in front of `e`, so the parameter ended at a comma
        have hc : c.kind = .comma := by
          refine of_decide_eq_true (hk.resolve_right fun hcl => ?_)
          rw [hr.not_closes] at hcl
          cases hcl
        obtain ⟨more, hmore⟩ := ih r (by rw [List.length_cons] at hle; omega)
          (hr.tail (by rw [hc]; rfl))
        refine ⟨first ++ leaf c :: more, fun v => ?_⟩
        rw [hcons, hfirst]
        dsimp only [List.cons_append]
        rw [if_pos hc, hmore]

end Encloses

theorem parameterList_frame {opening : Token} {rest after : List Token} {x : Tree}
    (h : parameterList opening rest = (x, after)) (hne : after ≠ []) :
    ∃ b, rest = b ++ after ∧
      ∀ w, w.head? = after.head? → parameterList opening (b ++ w) = (x, w) := by
  obtain ⟨hal, hend⟩ := parameters_end rest
  have hread := reads_parameters rest
  unfold parameterList at h
  rcases hp : parameters rest with ⟨inner, mid⟩
  rw [hp] at h hal hend hread
  dsimp only at h hal hend hread
  rcases hend with rfl | ⟨e, w, rfl, he⟩
  · exact absurd (Prod.mk.inj h).2.symm hne
  · have henc : Encloses (leavesAll inner) e := by
      refine Encloses.of_extent he (w := w) ?_
      unfold Aligned at hal
      rw [← hread.leaves, enclosedExtent_of_closes w he, List.length_append] at hal
      omega
    obtain ⟨y, hy⟩ := henc.parameters
    rw [← hread.leaves, hy] at hp
    obtain ⟨rfl, -⟩ := Prod.mk.inj hp
    -- another bracket than the parenthesis is left for what follows
    by_cases hk : e.kind = .rparen
    · rw [optional, if_pos hk] at h
      obtain ⟨rfl, rfl⟩ := Prod.mk.inj h
      refine ⟨leavesAll y ++ [e], ?_, fun v _ => ?_⟩
      · rw [List.append_assoc]
        exact hread.leaves.symm
      · unfold parameterList
        rw [List.append_assoc, List.singleton_append, hy]
        dsimp only
        rw [optional, if_pos hk]
    · rw [optional, if_neg hk] at h
      obtain ⟨rfl, rfl⟩ := Prod.mk.inj h
      refine ⟨leavesAll y, hread.leaves.symm, fun v hv => ?_⟩
      obtain ⟨v, rfl⟩ := List.head?_eq_some_iff.1 hv
      unfold parameterList
      rw [hy]
      dsimp only
      rw [optional, if_neg hk]

/-! ## 3. Methods -/

/-- An assignment ends with the text, at a semicolon or at a closing bracket. -/
theorem assignment_end (ts : List Token) :
    (assignment ts).2 = [] ∨
      ∃ e w, (assignment ts).2 = e :: w ∧ (e.kind = .semicolon ∨ e.kind.closes = true) := by
  unfold assignment
  dsimp only
  split
  · exact Or.inl rfl
  · rename_i t rest hd
    split
    · rcases expressionExtent_end (· = .semicolon) 0 rest with h | ⟨e, w, hw, he⟩
      · exact Or.inl h
      · exact Or.inr ⟨e, w, hw, he.imp_left of_decide_eq_true⟩
    · -- without an operator the expression ended at a semicolon or a bracket
      rename_i ht
      refine Or.inr ⟨t, rest, rfl, ?_⟩
      rcases expressionExtent_end (fun k => k = .semicolon || k.isAssignment) 0 ts with h |
        ⟨e, w, hw, he⟩
      · rw [hd] at h
        cases h
      · rw [hd] at hw
        obtain ⟨rfl, rfl⟩ := List.cons.inj hw
        refine he.imp_left fun h => ?_
        rcases Bool.or_eq_true _ _ ▸ h with h | h
        · exact of_decide_eq_true h
        · exact absurd h ht

/-- The body of a method: it starts with a brace, an arrow or a semicolon, or is missing in front of
a closing brace. -/
theorem body_frame {t : Token} {rest after : List Token} {x : List Tree}
    (h : body (t :: rest) = (x, after)) (hne : after ≠ []) (ht : isConstraintToken t = false) :
    ∃ b e w, t :: rest = b ++ e :: w ∧ Framed (fun us rest => body us = (x, rest)) b e w after := by
  by_cases hb : t.kind = .lbrace
  · rw [body_of_lbrace _ hb] at h
    rcases hbl : block t rest with ⟨tree, last⟩
    rw [hbl] at h
    obtain ⟨rfl, rfl⟩ := Prod.mk.inj h
    obtain ⟨e, b, ss, rfl, he, hss, rfl⟩ := exists_block_end hbl hne
    refine ⟨t :: b, e, last, rfl, Or.inl ⟨rfl, Or.inr (by rw [he]; rfl), fun w' _ => ?_⟩⟩
    dsimp only
    rw [List.cons_append, body_of_lbrace _ hb,
      block_eq he (statements_append (r := []) w' he hss)]
  by_cases ha : t.kind = .fatArrow
  · rw [body_of_arrow _ ha] at h
    have hread := reads_assignment rest
    have hend := assignment_end rest
    unfold arrowClause at h
    rcases hv : assignment rest with ⟨value, mid⟩
    rw [hv] at h hread hend
    dsimp only at h hread hend
    rcases hend with rfl | ⟨e, w, rfl, he⟩
    · exact absurd (Prod.mk.inj h).2.symm hne
    · rw [← hread.leaves] at hv
      -- the expression behind the arrow ends at `e` whatever follows
      have hclause : ∀ w', arrowClause t (leavesAll value ++ e :: w') =
          (node .arrowExpressionClause (leaf t :: value), e :: w') := by
        intro w'
        unfold arrowClause
        rw [assignment_append (r := []) w' hv]
        rfl
      refine ⟨t :: leavesAll value, e, w, by rw [List.cons_append, hread.leaves], ?_⟩
      by_cases hs : e.kind = .semicolon
      · rw [optional, if_pos hs] at h
        obtain ⟨rfl, rfl⟩ := Prod.mk.inj h
        refine Or.inl ⟨rfl, he, fun w' _ => ?_⟩
        dsimp only
        rw [List.cons_append, body_of_arrow _ ha, hclause]
        dsimp only
        rw [optional, if_pos hs]
      · rw [optional, if_neg hs] at h
        obtain ⟨rfl, rfl⟩ := Prod.mk.inj h
        refine Or.inr ⟨rfl, he.resolve_left hs, fun w' _ => ?_⟩
        dsimp only
        rw [List.cons_append, body_of_arrow _ ha, hclause]
        dsimp only
        rw [optional, if_neg hs]
  by_cases hs : t.kind = .semicolon
  · rw [body_of_semicolon _ hs] at h
    obtain ⟨rfl, rfl⟩ := Prod.mk.inj h
    exact ⟨[], t, rest, rfl, Or.inl ⟨rfl, Or.inl hs, fun w' _ => body_of_semicolon w' hs⟩⟩
  · rw [body_of_ne _ hb ha hs] at h
    obtain ⟨rfl, rfl⟩ := Prod.mk.inj h
    -- nothing is read, and constraints would have been
    have hk : t.kind = .rbrace := by
      unfold isConstraintToken at ht
      simpa [hb, ha, hs] using ht
    exact ⟨[], t, rest, rfl,
      Or.inr ⟨rfl, by rw [hk]; rfl, fun w' _ => body_of_ne w' hb ha hs⟩⟩

theorem takeWhile_dropWhile_append {p : Token → Bool} {c d : List Token} (hc : ∀ t ∈ c, p t = true)
    (hd : d.head?.any p = false) : (c ++ d).takeWhile p = c ∧ (c ++ d).dropWhile p = d := by
  rw [List.takeWhile_append_of_pos hc, List.dropWhile_append_of_pos hc]
  cases d with
  | nil => simp
  | cons t d =>
    have ht : p t = false := hd
    simp [ht]

theorem methodRest_frame {ts after : List Token} {x : List Tree}
    (h : methodRest ts = (x, after)) (hne : after ≠ []) :
    ∃ b e w, ts = b ++ e :: w ∧
      Framed (fun us rest => methodRest us = (x, rest)) b e w after := by
  unfold methodRest at h
  split at h
  · exact absurd (Prod.mk.inj h).2.symm hne
  · rename_i opening rest
    rcases hl : parameterList opening rest with ⟨list, mid⟩
    rw [hl] at h
    dsimp only at h
    have hsplit := List.takeWhile_append_dropWhile (p := isConstraintToken) (l := mid)
    have hstop := List.head?_dropWhile_not isConstraintToken mid
    have hall : ∀ t ∈ mid.takeWhile isConstraintToken, isConstraintToken t = true :=
      fun t ht => List.all_eq_true.1 List.all_takeWhile t ht
    generalize mid.takeWhile isConstraintToken = c at h hsplit hall
    generalize mid.dropWhile isConstraintToken = d at h hsplit hstop
    subst hsplit
    cases d with
    | nil => exact absurd (Prod.mk.inj h).2.symm hne
    | cons t last =>
      have ht : isConstraintToken t = false := by simpa using hstop
      rcases hb : body (t :: last) with ⟨inner, after'⟩
      rw [hb] at h
      obtain ⟨rfl, rfl⟩ := Prod.mk.inj h
      obtain ⟨b, e, w, htl, hf⟩ := body_frame hb hne ht
      obtain ⟨a, hrest, hlist⟩ := parameterList_frame hl (by simp)
      subst hrest
      rw [htl]
      refine ⟨opening :: a ++ c ++ b, e, w, by simp, hf.map (opening :: a ++ c) ?_⟩
      intro _ w' rest _ hP
      -- the first token after the constraints is the same
      have hhead : (b ++ e :: w').head? = (t :: last).head? := by
        rw [htl]
        cases b <;> rfl
      have hany : (b ++ e :: w').head?.any isConstraintToken = false := by
        rw [hhead]
        exact ht
      have hwhile := takeWhile_dropWhile_append hall hany
      have hsame : (c ++ (b ++ e :: w')).head? = (c ++ t :: last).head? := by
        cases c with
        | nil => exact hhead
        | cons u c => rfl
      unfold methodRest
      rw [List.append_assoc, List.append_assoc, List.cons_append]
      dsimp only
      rw [hlist _ hsame]
      dsimp only
      rw [hwhile.1, hwhile.2, hP]

theorem angleOpens_succ (depth : Nat) (t : Token) (ts : List Token) :
    angleOpens (depth + 1) (t :: ts) =
      angleOpens (if t.kind = .lt then depth + 2 else if t.kind = .gt then depth else depth + 1)
        ts := by
  unfold angleOpens
  rw [angleExtent, Nat.add_comm 1, List.drop_succ_cons]

theorem angleOpens_zero (ts : List Token) : angleOpens 0 ts = nextIs .lparen ts := by
  cases ts <;> rfl

section

variable {b w w' : List Token} {e : Token}

theorem angleOpens_append (he : e.kind = .semicolon ∨ e.kind.closes = true) (hw : AngleLike w w')
    (depth : Nat) : angleOpens depth (b ++ e :: w') = angleOpens depth (b ++ e :: w) := by
  have hlt : e.kind ≠ .lt ∧ e.kind ≠ .gt := by
    rcases he with he | he
    · rw [he]
      decide
    · rcases TokenKind.eq_of_closes he with hk | hk | hk <;> rw [hk] <;> decide
  induction b generalizing depth with
  | nil =>
    cases depth with
    | zero => rw [angleOpens_zero, angleOpens_zero]; rfl
    | succ depth =>
      rw [List.nil_append, List.nil_append, angleOpens_succ, angleOpens_succ, if_neg hlt.1,
        if_neg hlt.2, hw]
  | cons t b ih =>
    cases depth with
    | zero => rw [angleOpens_zero, angleOpens_zero]; rfl
    | succ depth => rw [List.cons_append, List.cons_append, angleOpens_succ, angleOpens_succ, ih]

theorem opensParameters_eq (t : Token) (ts : List Token) :
    opensParameters (t :: ts) =
      if t.kind = .lt then angleOpens 1 ts else decide (t.kind = .lparen) := by
  unfold opensParameters
  by_cases ht : t.kind = .lt
  · rw [if_pos ht, if_pos (show nextIs .lt (t :: ts) = true from decide_eq_true ht), angleOpens,
      List.tail_cons, Nat.add_comm 1, List.drop_succ_cons]
  · rw [if_neg ht, if_neg (show ¬ nextIs .lt (t :: ts) = true from
      fun h => ht (of_decide_eq_true h))]
    rfl

theorem opensParameters_append (he : e.kind = .semicolon ∨ e.kind.closes = true)
    (hw : AngleLike w w') :
    opensParameters (b ++ e :: w') = opensParameters (b ++ e :: w) := by
  cases b with
  | nil =>
    have hlt : e.kind ≠ .lt := by
      rcases he with he | he
      · rw [he]
        decide
      · rcases TokenKind.eq_of_closes he with hk | hk | hk <;> rw [hk] <;> decide
    rw [List.nil_append, List.nil_append, opensParameters_eq, opensParameters_eq, if_neg hlt,
      if_neg hlt]
  | cons t b =>
    rw [List.cons_append, List.cons_append, opensParameters_eq, opensParameters_eq,
      angleOpens_append he hw]

end

/-- The name of a method and what follows it, if parameters do. -/
def methodHead? (ts : List Token) : Option (Token × List Token) :=
  match ts.drop (qualifierExtent ts) with
  | [] => none
  | name :: after =>
    if name.kind = .ident && opensParameters after then some (name, after) else none

theorem method?_eq (ts : List Token) :
    method? ts =
      match typeName? ts with
      | none => none
      | some (type, rest) =>
        match methodHead? rest with
        | none => none
        | some (name, after) =>
          some (type :: qualifier (qualifierExtent rest) rest ++ leaf name ::
            (typeParameters after).1 ++ (methodRest (typeParameters after).2).1,
              (methodRest (typeParameters after).2).2) := by
  unfold method?
  cases typeName? ts with
  | none => rfl
  | some r =>
    obtain ⟨type, rest⟩ := r
    dsimp only
    unfold methodHead?
    cases rest.drop (qualifierExtent rest) with
    | nil => rfl
    | cons name after =>
      dsimp only
      cases name.kind = .ident && opensParameters after <;> rfl

theorem methodHead?_eq_some {ts after : List Token} {name : Token} :
    methodHead? ts = some (name, after) ↔
      ts.drop (qualifierExtent ts) = name :: after ∧ name.kind = .ident ∧
        opensParameters after = true := by
  unfold methodHead?
  cases ts.drop (qualifierExtent ts) with
  | nil => simp
  | cons n c =>
    dsimp only
    by_cases hc : n.kind = .ident ∧ opensParameters c = true
    · rw [if_pos (by rw [hc.1, hc.2]; rfl), Option.some.injEq, Prod.mk.injEq, List.cons.injEq]
      constructor
      · rintro ⟨rfl, rfl⟩
        exact ⟨⟨rfl, rfl⟩, hc⟩
      · exact fun h => h.1
    · rw [if_neg (by simpa using hc)]
      refine ⟨fun h => (by cases h), fun ⟨he, hk⟩ => ?_⟩
      rw [List.cons.injEq] at he
      rw [he.1, he.2] at hc
      exact absurd hk hc

theorem methodHead?_append {b w w' : List Token} {e : Token}
    (he : e.kind = .semicolon ∨ e.kind.closes = true) (hw : AngleLike w w')
    (h : methodHead? (b ++ e :: w) = none) : methodHead? (b ++ e :: w') = none := by
  obtain ⟨hle, hq⟩ := qualifierExtent_append (b := b) (w := w) w' he
  unfold methodHead? at h ⊢
  rw [List.drop_append_of_le_length hle] at h
  rw [hq, List.drop_append_of_le_length hle]
  generalize b.drop (qualifierExtent (b ++ e :: w)) = c at h ⊢
  cases c with
  | nil =>
    dsimp only [List.nil_append]
    rw [decide_eq_false (ne_of_ends he).1]
    rfl
  | cons name c =>
    dsimp only [List.cons_append] at h ⊢
    rw [opensParameters_append he hw]
    split at h
    · cases h
    · rename_i hc
      rw [if_neg hc]

theorem method?_none_frame {b w w' : List Token} {e : Token}
    (he : e.kind = .semicolon ∨ e.kind.closes = true) (hw : AngleLike w w')
    (hb : typeBound false (b ++ e :: w) ≤ b.length) (h : method? (b ++ e :: w) = none) :
    method? (b ++ e :: w') = none := by
  rw [method?_eq] at h ⊢
  rcases typeName?_frame hb with hn | ⟨type, r, hs⟩
  · rw [hn]
  · rw [hs] at h ⊢
    dsimp only at h ⊢
    cases hm : methodHead? (r ++ e :: w) with
    | none => rw [methodHead?_append he hw hm]
    | some p =>
      rw [hm] at h
      cases h

theorem exists_lparen {ts : List Token} (h : opensParameters ts = true) :
    ∃ t ∈ ts, t.kind = .lparen := by
  have hmem : ∀ n, nextIs .lparen (ts.drop n) = true → ∃ t ∈ ts, t.kind = .lparen := by
    intro n hn
    cases hd : ts.drop n with
    | nil =>
      rw [hd] at hn
      cases hn
    | cons t rest =>
      rw [hd] at hn
      refine ⟨t, List.mem_of_mem_drop (i := n) ?_, of_decide_eq_true hn⟩
      rw [hd]
      exact List.mem_cons_self
  unfold opensParameters at h
  split at h
  · exact hmem _ h
  · exact hmem 0 h

/-- Type parameters reach up to a parenthesis. -/
theorem typeParameters_frame {ts : List Token} (h : opensParameters ts = true) :
    ∃ c d, ts = c ++ d ∧
      ∀ d', d'.head? = d.head? → typeParameters (c ++ d') = ((typeParameters ts).1, d') := by
  by_cases hlt : nextIs .lt ts = true
  · have hall : ∀ t ∈ ts.takeWhile (·.kind ≠ .lparen), decide (t.kind ≠ .lparen) = true :=
      fun t ht => List.all_eq_true.1 List.all_takeWhile t ht
    have hhead := List.head?_dropWhile_not (fun t : Token => decide (t.kind ≠ .lparen)) ts
    have hsplit := List.takeWhile_append_dropWhile (p := fun t : Token => decide (t.kind ≠ .lparen))
      (l := ts)
    -- the parenthesis that the look ahead saw is among the tokens
    have hne : ts.dropWhile (·.kind ≠ .lparen) ≠ [] := by
      obtain ⟨t, ht, hk⟩ := exists_lparen h
      intro hnil
      rw [hnil, List.append_nil] at hsplit
      rw [← hsplit] at ht
      exact absurd hk (of_decide_eq_true (hall t ht))
    refine ⟨_, _, hsplit.symm, fun d' hd => ?_⟩
    have hstop : d'.head?.any (fun t : Token => decide (t.kind ≠ .lparen)) = false := by
      rw [hd]
      cases hdw : ts.dropWhile (·.kind ≠ .lparen) with
      | nil => exact absurd hdw hne
      | cons t d =>
        rw [hdw] at hhead
        simpa using hhead
    have hwhile := takeWhile_dropWhile_append hall hstop
    have hlt' : nextIs .lt (ts.takeWhile (·.kind ≠ .lparen) ++ d') = true := by
      cases ts with
      | nil => cases hlt
      | cons t ts =>
        have ht : t.kind = .lt := of_decide_eq_true hlt
        rw [List.takeWhile_cons, if_pos (by rw [ht]; rfl)]
        exact hlt
    unfold typeParameters
    rw [if_pos hlt', if_pos hlt, hwhile.1, hwhile.2]
  · refine ⟨[], ts, rfl, fun d' hd => ?_⟩
    have hlt' : ¬ nextIs .lt ([] ++ d') = true := by
      unfold nextIs at hlt ⊢
      rw [List.nil_append, hd]
      exact hlt
    unfold typeParameters
    rw [if_neg hlt', if_neg hlt]
    rfl

theorem method?_frame {ts after : List Token} {parts : List Tree}
    (h : method? ts = some (parts, after)) (hne : after ≠ []) :
    ∃ b e w, ts = b ++ e :: w ∧
      Framed (fun us rest => method? us = some (parts, rest)) b e w after := by
  rw [method?_eq] at h
  split at h
  · cases h
  · rename_i type rest ht
    have hread := reads_typeName? ht
    split at h
    · cases h
    · rename_i name mid hhead
      obtain ⟨hdrop, hname, hopens⟩ := methodHead?_eq_some.1 hhead
      have hbound := typeBound_of_qualified hdrop hname
      obtain ⟨c, d, rfl, hparams⟩ := typeParameters_frame hopens
      rw [hparams d rfl] at h
      dsimp only at h
      rcases hm : methodRest d with ⟨inner, after'⟩
      rw [hm] at h
      obtain ⟨rfl, rfl⟩ := Prod.mk.inj (Option.some.inj h)
      obtain ⟨b, e, w, rfl, hf⟩ := methodRest_frame hm hne
      -- the qualifier, the name and the type parameters stand in front
      obtain ⟨q, hq⟩ : ∃ q, q = rest.take (qualifierExtent rest) ++ name :: c := ⟨_, rfl⟩
      have hrest : rest = q ++ b ++ e :: w := by
        rw [hq, List.append_assoc, List.append_assoc, List.cons_append, ← hdrop,
          List.take_append_drop]
      refine ⟨leavesAll [type] ++ q ++ b, e, w, ?_, hf.map _ fun he w' rest' hw hP => ?_⟩
      · rw [hrest] at hread
        rw [List.append_assoc (leavesAll [type])]
        exact hread.front
      · obtain ⟨-, hqe⟩ := qualifierExtent_append (b := q ++ b) (w := w) w' he
        have hcut : (q ++ b ++ e :: w).drop (qualifierExtent (q ++ b ++ e :: w)) =
            (name :: c ++ b) ++ e :: w := by
          rw [← hrest, hdrop]
          simp
        obtain ⟨-, h1, h2⟩ := cut_append w' hcut
        have hhead' : methodHead? (q ++ b ++ e :: w') = some (name, c ++ (b ++ e :: w')) := by
          rw [methodHead?_eq_some, hqe, h2, ← List.append_assoc c]
          refine ⟨rfl, hname, ?_⟩
          rw [opensParameters_append he hw, List.append_assoc]
          exact hopens
        have hsame : (b ++ e :: w').head? = (b ++ e :: w).head? := by
          cases b <;> rfl
        rw [method?_eq, List.append_assoc (leavesAll [type]),
          typeName?_of_front ht hrest (by omega)]
        dsimp only
        rw [hhead', hqe, qualifier, qualifier, h1]
        dsimp only
        rw [hparams _ hsame, ← hrest]
        dsimp only
        rw [hP]

end EventLint.Tree
