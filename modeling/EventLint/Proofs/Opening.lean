import EventLint.Proofs.Ending

/-!
# Openings do not look past their end

The start of a namespace or a type is read up to its opening brace whatever follows, and any other
declaration is framed.
-/

namespace EventLint.Tree

/-! ## 1. Types -/

/-- A header ends with the text, or at a brace or a semicolon. -/
theorem headerExtent_end (ts : List Token) :
    ts.drop (headerExtent ts) = [] ∨
      ∃ e w, ts.drop (headerExtent ts) = e :: w ∧
        (e.kind = .lbrace ∨ e.kind = .semicolon ∨ e.kind = .rbrace) := by
  induction ts using shorter_induction with
  | step ts ih =>
    cases ts with
    | nil => exact Or.inl List.drop_nil
    | cons t ts =>
      by_cases hs : t.kind = .lbrace ∨ t.kind = .semicolon ∨ t.kind = .rbrace
      · rw [headerExtent_of_stop ts hs]
        exact Or.inr ⟨t, ts, rfl, hs⟩
      · -- a group is skipped as a whole
        rcases kind_cases t.kind with hk | hk | hk | hk | hk
        · exact absurd (Or.inr (Or.inl hk)) hs
        · exact absurd (Or.inr (Or.inr hk)) hs
        · rw [headerExtent_of_group ts hk, show 1 + closingExtent 1 ts +
            headerExtent (ts.drop (closingExtent 1 ts)) =
              closingExtent 1 ts + headerExtent (ts.drop (closingExtent 1 ts)) + 1 by omega,
            List.drop_succ_cons, ← List.drop_drop]
          exact ih _ (by rw [List.length_drop, List.length_cons]; omega)
        · exact absurd (Or.inl hk) hs
        · rw [headerExtent_of_plain ts hk, Nat.add_comm 1, List.drop_succ_cons]
          exact ih ts (Nat.lt_succ_self _)

/-- The token that ends a header does so whatever follows it. -/
theorem exists_header_end {ts : List Token} (h : ts.drop (headerExtent ts) ≠ []) :
    ∃ b e w, ts = b ++ e :: w ∧ (e.kind = .lbrace ∨ e.kind = .semicolon ∨ e.kind = .rbrace) ∧
      ∀ w', headerExtent (b ++ e :: w') = b.length := by
  obtain ⟨e, w, hd, he⟩ := (headerExtent_end ts).resolve_left h
  have hsplit := List.take_append_drop (headerExtent ts) ts
  have hlen : (ts.take (headerExtent ts)).length = headerExtent ts := by
    refine List.length_take_of_le ?_
    rw [Ne, List.drop_eq_nil_iff] at h
    omega
  rw [hd] at hsplit
  refine ⟨_, e, w, hsplit.symm, he, fun w' => ?_⟩
  have hx : headerExtent (ts.take (headerExtent ts) ++ e :: w) =
      (ts.take (headerExtent ts)).length := by
    rw [hsplit, hlen]
  rw [headerExtent_append w' (Nat.le_of_eq hx), hx]

theorem openType_eq {kind : NodeKind} {lead : List Tree} {keyword e : Token} {b : List Token}
    (hb : ∀ w, headerExtent (b ++ e :: w) = b.length) (w : List Token) :
    openType kind lead keyword (b ++ e :: w) =
      if e.kind ≠ .lbrace then
        .whole (node kind (lead ++ leaf keyword :: b.map leaf ++ (optional .semicolon (e :: w)).1))
          (optional .semicolon (e :: w)).2
      else if kind = .enumDeclaration then
        .whole (node kind (lead ++ leaf keyword :: b.map leaf ++
            (e :: w.take (closingExtent 1 w)).map leaf ++
              (optional .semicolon (w.drop (closingExtent 1 w))).1))
          (optional .semicolon (w.drop (closingExtent 1 w))).2
      else .container kind (lead ++ leaf keyword :: b.map leaf ++ [leaf e]) .typeBody w := by
  unfold openType
  dsimp only
  rw [hb, List.take_left, List.drop_left]

/-- The start of a type reaches through its opening brace. -/
theorem openType_container_frame {kind kind' : NodeKind} {lead parts : List Tree} {keyword : Token}
    {ts after : List Token} {scope : Scope}
    (h : openType kind lead keyword ts = .container kind' parts scope after) :
    ∃ b e, ts = b ++ e :: after ∧ e.kind = .lbrace ∧
      ∀ w, openType kind lead keyword (b ++ e :: w) = .container kind' parts scope w := by
  have hne : ts.drop (headerExtent ts) ≠ [] := by
    intro hd
    unfold openType at h
    dsimp only at h
    rw [hd] at h
    cases h
  obtain ⟨b, e, w, rfl, -, hb⟩ := exists_header_end hne
  rw [openType_eq hb] at h
  split at h
  · cases h
  · rename_i he
    split at h
    · cases h
    · rename_i hk
      -- a brace, and no enumeration
      obtain ⟨rfl, rfl, rfl, rfl⟩ := Opening.container.inj h
      refine ⟨b, e, rfl, not_not.1 he, fun w' => ?_⟩
      rw [openType_eq hb, if_neg he, if_neg hk]

/-- An enumeration that something follows: its braces are closed. -/
theorem openType_enum_frame {lead : List Tree} {keyword e : Token} {b w after : List Token}
    {tree : Tree} (hb : ∀ w, headerExtent (b ++ e :: w) = b.length) (he : e.kind = .lbrace)
    (h : openType .enumDeclaration lead keyword (b ++ e :: w) = .whole tree after)
    (hne : after ≠ []) :
    ∃ c e' w', b ++ e :: w = c ++ e' :: w' ∧ Framed
      (fun us rest => openType .enumDeclaration lead keyword us = .whole tree rest)
      c e' w' after := by
  rw [openType_eq hb, if_neg (not_not_intro he), if_pos rfl] at h
  have hlt : closingExtent 1 w < w.length := by
    refine Nat.lt_of_not_le fun hle => ?_
    rw [List.drop_eq_nil_of_le hle] at h
    exact hne (Opening.whole.inj h).2.symm
  obtain ⟨u, us, hu⟩ := List.exists_cons_of_ne_nil (show w.drop (closingExtent 1 w) ≠ [] by
    rw [Ne, List.drop_eq_nil_iff]
    omega)
  obtain ⟨g, c, hg, hc⟩ := closingExtent_end hlt
  have hsplit := List.take_append_drop (closingExtent 1 w) w
  have hopen : ∀ w', openType .enumDeclaration lead keyword
        (b ++ e :: (w.take (closingExtent 1 w) ++ w')) =
      .whole (node .enumDeclaration (lead ++ leaf keyword :: b.map leaf ++
        (e :: w.take (closingExtent 1 w)).map leaf ++ (optional .semicolon w').1))
        (optional .semicolon w').2 := by
    intro w'
    rw [openType_eq hb, if_neg (not_not_intro he), if_pos rfl, closingExtent_take_append hlt,
      List.take_left, List.drop_left]
  rw [hu] at h hsplit
  -- the last token is the semicolon behind the braces, or the closing brace
  by_cases hs : u.kind = .semicolon
  · rw [optional, if_pos hs] at h
    obtain ⟨rfl, rfl⟩ := Opening.whole.inj h
    refine ⟨b ++ e :: w.take (closingExtent 1 w), u, us, ?_,
      Or.inl ⟨rfl, Or.inl hs, fun w' _ => ?_⟩⟩
    · rw [List.append_assoc, List.cons_append, hsplit]
    · dsimp only
      rw [List.append_assoc, List.cons_append, hopen, optional, if_pos hs]
  · rw [optional, if_neg hs] at h
    obtain ⟨rfl, rfl⟩ := Opening.whole.inj h
    refine ⟨b ++ e :: g, c, u :: us, ?_, Or.inl ⟨rfl, Or.inr hc, fun w' hw => ?_⟩⟩
    · rw [List.append_assoc, List.cons_append, List.append_cons g c, ← hg, hsplit]
    · have hnext : nextIs .semicolon w' = false :=
        hw.next.semicolon.trans (decide_eq_false hs)
      dsimp only
      rw [List.append_assoc, List.cons_append, List.append_cons g c, ← hg, hopen,
        optional_of_nextIs hnext]

/-- A type without a body. -/
theorem openType_bodiless_frame {kind : NodeKind} {lead : List Tree} {keyword e : Token}
    {b w after : List Token} {tree : Tree} (hb : ∀ w, headerExtent (b ++ e :: w) = b.length)
    (hend : e.kind = .semicolon ∨ e.kind = .rbrace)
    (h : openType kind lead keyword (b ++ e :: w) = .whole tree after) :
    Framed (fun us rest => openType kind lead keyword us = .whole tree rest) b e w after := by
  have he : e.kind ≠ .lbrace := by
    rcases hend with hend | hend <;> rw [hend] <;> decide
  rw [openType_eq hb, if_pos he] at h
  by_cases hs : e.kind = .semicolon
  · rw [optional, if_pos hs] at h
    obtain ⟨rfl, rfl⟩ := Opening.whole.inj h
    refine Or.inl ⟨rfl, Or.inl hs, fun w' _ => ?_⟩
    dsimp only
    rw [openType_eq hb, if_pos he, optional, if_pos hs]
  · rw [optional, if_neg hs] at h
    obtain ⟨rfl, rfl⟩ := Opening.whole.inj h
    refine Or.inr ⟨rfl, ?_, fun w' _ => ?_⟩
    · rw [hend.resolve_left hs]
      rfl
    · dsimp only
      rw [openType_eq hb, if_pos he, optional, if_neg hs]

theorem openType_frame {kind : NodeKind} {lead : List Tree} {keyword : Token}
    {ts after : List Token} {tree : Tree} (h : openType kind lead keyword ts = .whole tree after)
    (hne : after ≠ []) :
    ∃ b e w, ts = b ++ e :: w ∧
      Framed (fun us rest => openType kind lead keyword us = .whole tree rest) b e w after := by
  have hdrop : ts.drop (headerExtent ts) ≠ [] := by
    intro hd
    unfold openType at h
    dsimp only at h
    rw [hd] at h
    exact hne (Opening.whole.inj h).2.symm
  obtain ⟨b, e, w, rfl, hend, hb⟩ := exists_header_end hdrop
  by_cases he : e.kind = .lbrace
  · -- of the types with a body only enumerations are read as a whole
    have hk : kind = .enumDeclaration := by
      by_contra hk
      rw [openType_eq hb, if_neg (not_not_intro he), if_neg hk] at h
      cases h
    subst hk
    exact openType_enum_frame hb he h hne
  · exact ⟨b, e, w, rfl, openType_bodiless_frame hb (hend.resolve_left he) h⟩

/-! ## 2. Members -/

/-- How many tokens a member without structure of its own takes after `lead`: one at least if
nothing stands before it. -/
def otherExtent (lead : List Tree) (ts : List Token) : Nat :=
  if lead.isEmpty then max 1 (memberExtent ts) else memberExtent ts

/-- A member, after its attributes and modifiers. -/
def member (lead : List Tree) (ts : List Token) : Opening :=
  match ts with
  | [] => .whole (node .otherMember lead) []
  | first :: after =>
    if first.kind = .keyword .eventKw then
      .whole (event lead first after).1 (event lead first after).2
    else
      match typeKind? first after with
      | some kind => openType kind lead first after
      | none =>
        match method? ts with
        | some (parts, after) => .whole (node .methodDeclaration (lead ++ parts)) after
        | none =>
          .whole (node .otherMember (lead ++ (ts.take (otherExtent lead ts)).map leaf))
            (ts.drop (otherExtent lead ts))

theorem openMember_eq (t : Token) (rest : List Token) :
    openMember t rest = member (leading (t :: rest)).1 (leading (t :: rest)).2 := by
  unfold openMember
  dsimp only
  cases (leading (t :: rest)).2 <;> rfl

theorem typeKind?_append {t : Token} {b w : List Token} {e : Token} (w' : List Token) :
    typeKind? t (b ++ e :: w') = typeKind? t (b ++ e :: w) := by
  have hnext : ∀ k, nextIs k (b ++ e :: w') = nextIs k (b ++ e :: w) := by
    intro k
    cases b <;> rfl
  unfold typeKind?
  rw [hnext, hnext, hnext]

/-- The first token of a member declares the same type whatever follows `e`. -/
theorem exists_first {first : Token} {rest b w : List Token} {e : Token}
    (he : e.kind = .semicolon ∨ e.kind.closes = true) (h : first :: rest = b ++ e :: w)
    (w' : List Token) :
    ∃ rest', b ++ e :: w' = first :: rest' ∧ typeKind? first rest' = typeKind? first rest := by
  cases b with
  | nil =>
    obtain ⟨rfl, rfl⟩ := List.cons.inj h
    refine ⟨w', rfl, ?_⟩
    have hnone : ∀ v, typeKind? first v = none := by
      intro v
      unfold typeKind?
      rw [Token.isWord, decide_eq_false (ne_of_ends he).1]
      rcases he with he | he
      · rw [he]
        rfl
      · rcases TokenKind.eq_of_closes he with hk | hk | hk <;> rw [hk] <;> rfl
    rw [hnone, hnone]
  | cons t b =>
    obtain ⟨rfl, rfl⟩ := List.cons.inj h
    exact ⟨b ++ e :: w', rfl, typeKind?_append w'⟩

theorem otherExtent_of_pos {lead : List Tree} {ts : List Token}
    (h : lead.isEmpty = true → memberExtent ts ≠ 0) : otherExtent lead ts = memberExtent ts := by
  unfold otherExtent
  split
  · rename_i hl
    have := h hl
    omega
  · rfl

theorem other_frame {lead : List Tree} {ts : List Token} (hm : method? ts = none)
    (hne : ts.drop (otherExtent lead ts) ≠ []) :
    ∃ b e w, ts = b ++ e :: w ∧
      Framed (fun us after => method? us = none ∧
        us.take (otherExtent lead us) = ts.take (otherExtent lead ts) ∧
        us.drop (otherExtent lead us) = after) b e w (ts.drop (otherExtent lead ts)) := by
  by_cases hpos : lead.isEmpty = true ∧ memberExtent ts = 0
  · -- a single closing brace
    obtain ⟨hl, h0⟩ := hpos
    have hne' : ts ≠ [] := by
      rintro rfl
      exact hne List.drop_nil
    obtain ⟨e, w, rfl⟩ := List.exists_cons_of_ne_nil hne'
    have he : e.kind = .rbrace := of_decide_eq_true ((opaqueExtent_eq_zero hne').1 h0)
    have hone : ∀ w', otherExtent lead (e :: w') = 1 := by
      intro w'
      unfold otherExtent memberExtent
      rw [if_pos hl, opaqueExtent_of_rbrace _ _ he]
      rfl
    rw [hone]
    refine ⟨[], e, w, rfl, Or.inl ⟨rfl, Or.inr (by rw [he]; rfl), fun w' _ => ⟨?_, ?_, ?_⟩⟩⟩
    · rw [List.nil_append, method?_eq, typeName?_of_ne _ (by rw [he]; decide) (by rw [he]; decide)]
    · rw [List.nil_append, hone]
      rfl
    · rw [List.nil_append, hone]
      rfl
  · have hx : otherExtent lead ts = memberExtent ts :=
      otherExtent_of_pos fun hl h0 => hpos ⟨hl, h0⟩
    rw [hx] at hne ⊢
    obtain ⟨b, e, w, rfl, hb, hf⟩ := exists_member_end false hne
    refine ⟨b, e, w, rfl, hf.map [] fun he w' rest hw hP => ?_⟩
    have hx' : otherExtent lead (b ++ e :: w') = memberExtent (b ++ e :: w') := by
      refine otherExtent_of_pos fun hl h0 => hpos ⟨hl, ?_⟩
      have htake := hP.1
      rw [h0, List.take_zero] at htake
      exact (List.take_eq_nil_iff.1 htake.symm).resolve_right (by simp)
    rw [List.nil_append, hx']
    exact ⟨method?_none_frame he hw hb hm, hP⟩

theorem member_frame {lead : List Tree} {ts after : List Token} {tree : Tree}
    (h : member lead ts = .whole tree after) (hne : after ≠ []) :
    ∃ b e w, ts = b ++ e :: w ∧
      Framed (fun us rest => member lead us = .whole tree rest) b e w after := by
  -- an event, a type, a method, or anything else
  unfold member at h
  split at h
  · exact absurd (Opening.whole.inj h).2.symm hne
  · rename_i first rest
    split at h
    · rename_i hk
      rcases hev : event lead first rest with ⟨x, last⟩
      rw [hev] at h
      obtain ⟨rfl, rfl⟩ := Opening.whole.inj h
      obtain ⟨b, e, w, rfl, hf⟩ := event_frame hev hne
      refine ⟨first :: b, e, w, rfl, hf.map [first] fun _ w' rest _ hP => ?_⟩
      unfold member
      rw [List.singleton_append, List.cons_append]
      dsimp only
      rw [if_pos hk, hP]
    · rename_i hk
      split at h
      · rename_i kind htk
        obtain ⟨b, e, w, rfl, hf⟩ := openType_frame h hne
        refine ⟨first :: b, e, w, rfl, hf.map [first] fun _ w' rest _ hP => ?_⟩
        unfold member
        rw [List.singleton_append, List.cons_append]
        dsimp only
        rw [if_neg hk, typeKind?_append, htk]
        exact hP
      · rename_i htk
        split at h
        · rename_i parts last hm
          obtain ⟨rfl, rfl⟩ := Opening.whole.inj h
          obtain ⟨b, e, w, hts, hf⟩ := method?_frame hm hne
          refine ⟨b, e, w, hts, hf.map [] fun he w' rest' _ hP => ?_⟩
          obtain ⟨rest'', hr, ht⟩ := exists_first he hts w'
          unfold member
          rw [List.nil_append, hr]
          dsimp only
          rw [if_neg hk, ht, htk, ← hr, hP]
        · rename_i hm
          obtain ⟨rfl, rfl⟩ := Opening.whole.inj h
          obtain ⟨b, e, w, hts, hf⟩ := other_frame hm hne
          refine ⟨b, e, w, hts, hf.map [] fun he w' rest' _ hP => ?_⟩
          obtain ⟨rest'', hr, ht⟩ := exists_first he hts w'
          unfold member
          rw [List.nil_append, hr]
          dsimp only
          rw [if_neg hk, ht, htk, ← hr, hP.1]
          dsimp only
          rw [hP.2.1, hP.2.2]

theorem member_container_frame {lead parts : List Tree} {ts after : List Token} {kind : NodeKind}
    {scope : Scope} (h : member lead ts = .container kind parts scope after) :
    ∃ b e, ts = b ++ e :: after ∧ e.kind = .lbrace ∧
      ∀ w, member lead (b ++ e :: w) = .container kind parts scope w := by
  unfold member at h
  split at h
  · cases h
  · rename_i first rest
    split at h
    · cases h
    · rename_i hk
      split at h
      · rename_i kind' htk
        obtain ⟨b, e, rfl, he, hopen⟩ := openType_container_frame h
        refine ⟨first :: b, e, rfl, he, fun w => ?_⟩
        unfold member
        rw [List.cons_append]
        dsimp only
        rw [if_neg hk, typeKind?_append, htk]
        exact hopen w
      · split at h <;> cases h

/-! ## 3. Declarations -/

/-- The start of the declaration that stands first. -/
def opening? (scope : Scope) : List Token → Option Opening
  | [] => none
  | t :: rest => some (openDeclaration scope t rest)

/-- The first token starts neither a `using` directive nor a namespace, and closes nothing. -/
def opensMember (scope : Scope) : List Token → Bool
  | [] => false
  | t :: rest =>
    !(t.kind = .keyword .usingKw && scope ≠ .typeBody && !nextIs .lparen rest) &&
      t.kind ≠ .keyword .namespaceKw && t.kind ≠ .rbrace

theorem opening?_of_member {scope : Scope} {ts : List Token} (h : opensMember scope ts = true) :
    opening? scope ts = some (member (leading ts).1 (leading ts).2) := by
  cases ts with
  | nil => cases h
  | cons t rest =>
    simp only [opensMember, Bool.and_eq_true, decide_eq_true_eq, Bool.not_eq_true'] at h
    rw [opening?, openDeclaration, if_neg (by rw [h.1.1]; decide), if_neg h.1.2, if_neg h.2,
      openMember_eq]

theorem opensMember_append {scope : Scope} {b w : List Token} {e : Token} (w' : List Token)
    (he : e.kind.isKeyword = false) :
    opensMember scope (b ++ e :: w') = opensMember scope (b ++ e :: w) := by
  cases b with
  | nil =>
    have hu : e.kind ≠ .keyword .usingKw := by
      intro hk
      rw [hk] at he
      cases he
    rw [List.nil_append, List.nil_append, opensMember, opensMember, decide_eq_false hu]
    rfl
  | cons t b =>
    have hnext : nextIs .lparen (b ++ e :: w') = nextIs .lparen (b ++ e :: w) := by
      cases b <;> rfl
    rw [List.cons_append, List.cons_append, opensMember, opensMember, hnext]

/-- A member that starts in front of `e` is read as a member whatever follows `e`. -/
theorem opening?_member_append {scope : Scope} {lead : List Tree} {b w : List Token} {e : Token}
    (he : e.kind ≠ .ident ∧ e.kind.isKeyword = false) {ts : List Token}
    (hm : opensMember scope ts = true) (hl : leading ts = (lead, b ++ e :: w)) (w' : List Token) :
    opening? scope (leavesAll lead ++ b ++ e :: w') = some (member lead (b ++ e :: w')) := by
  have hread := reads_leading ts
  rw [hl] at hread
  rw [hread.front] at hl hm
  rw [opening?_of_member (by rw [opensMember_append w' he.2]; exact hm), leading_append w' he hl]

theorem opening?_of_using {scope : Scope} {t : Token} {rest : List Token}
    (h : (decide (t.kind = .keyword .usingKw) && decide (scope ≠ .typeBody) &&
      !nextIs .lparen rest) = true) :
    opening? scope (t :: rest) = some (.whole
      (node .usingDirective ((t :: rest.take (throughSemicolon rest)).map leaf))
        (rest.drop (throughSemicolon rest))) := by
  rw [opening?, openDeclaration, if_pos h]

/-- A `using` directive that something follows ends with a semicolon. -/
theorem throughSemicolon_frame {ts : List Token} (h : ts.drop (throughSemicolon ts) ≠ []) :
    ∃ b e, ts = b ++ e :: ts.drop (throughSemicolon ts) ∧ e.kind = .semicolon ∧
      ∀ w, throughSemicolon (b ++ e :: w) = b.length + 1 := by
  induction ts with
  | nil => exact absurd List.drop_nil h
  | cons t ts ih =>
    rw [throughSemicolon] at h ⊢
    split at h
    · rename_i ht
      rw [if_pos ht]
      exact ⟨[], t, rfl, ht, fun w => by rw [List.nil_append, throughSemicolon, if_pos ht]; rfl⟩
    · rename_i ht
      rw [Nat.add_comm 1, List.drop_succ_cons] at h
      obtain ⟨b, e, hts, he, hx⟩ := ih h
      refine ⟨t :: b, e, ?_, he, fun w => ?_⟩
      · rw [if_neg ht, Nat.add_comm 1, List.drop_succ_cons, List.cons_append, ← hts]
      · rw [List.cons_append, throughSemicolon, if_neg ht, hx, List.length_cons]
        omega

theorem opening?_of_namespace {scope : Scope} {t : Token} (rest : List Token)
    (h : t.kind = .keyword .namespaceKw) :
    opening? scope (t :: rest) = some (openNamespace t rest) := by
  rw [opening?, openDeclaration, if_neg (by rw [h]; simp), if_pos h]

theorem opening?_of_rbrace {scope : Scope} {t : Token} (rest : List Token)
    (h : t.kind = .rbrace) :
    opening? scope (t :: rest) = some (.whole (node .errorNode [leaf t]) rest) := by
  rw [opening?, openDeclaration, if_neg (by rw [h]; simp), if_neg (by rw [h]; decide), if_pos h]

/-- A namespace, with its name apart from what follows it. -/
theorem openNamespace_append {t e : Token} {c : List Token} (hc : ∀ u ∈ c, isNamePart u = true)
    (he : isNamePart e = false) (rest : List Token) :
    openNamespace t (c ++ e :: rest) =
      if e.kind = .semicolon then
        .container .namespaceDeclaration (leaf t :: c.map leaf ++ [leaf e]) .file rest
      else if e.kind = .lbrace then
        .container .namespaceDeclaration (leaf t :: c.map leaf ++ [leaf e]) .namespaceBody rest
      else .whole (node .namespaceDeclaration (leaf t :: c.map leaf)) (e :: rest) := by
  have hwhile := takeWhile_dropWhile_append hc (d := e :: rest) he
  unfold openNamespace
  rw [hwhile.1, hwhile.2]

theorem openNamespace_of_name {t : Token} {c : List Token} (hc : ∀ u ∈ c, isNamePart u = true) :
    openNamespace t c = .whole (node .namespaceDeclaration (leaf t :: c.map leaf)) [] := by
  have hwhile := takeWhile_dropWhile_append hc (d := []) rfl
  rw [List.append_nil] at hwhile
  unfold openNamespace
  rw [hwhile.1, hwhile.2]

/-- The name of a namespace comes first. -/
theorem exists_name (ts : List Token) :
    ∃ c d, ts = c ++ d ∧ (∀ u ∈ c, isNamePart u = true) ∧ d.head?.any isNamePart = false := by
  refine ⟨_, _, (List.takeWhile_append_dropWhile (p := isNamePart) (l := ts)).symm,
    fun u hu => List.all_eq_true.1 List.all_takeWhile u hu, ?_⟩
  have hstop := List.head?_dropWhile_not isNamePart ts
  cases hd : ts.dropWhile isNamePart with
  | nil => rfl
  | cons t d =>
    rw [hd] at hstop
    simpa using hstop

/-- The start of a declaration is that of a `using` directive, a namespace, a stray brace or a
member. -/
theorem opening_cases (scope : Scope) (t : Token) (rest : List Token) :
    (decide (t.kind = .keyword .usingKw) && decide (scope ≠ .typeBody) &&
        !nextIs .lparen rest) = true ∨
      t.kind = .keyword .namespaceKw ∨ t.kind = .rbrace ∨ opensMember scope (t :: rest) = true := by
  unfold opensMember
  by_cases hn : t.kind = .keyword .namespaceKw
  · exact Or.inr (Or.inl hn)
  by_cases hr : t.kind = .rbrace
  · exact Or.inr (Or.inr (Or.inl hr))
  simp only [Ne, hn, hr, not_false_eq_true, decide_true, Bool.and_true]
  cases (decide (t.kind = .keyword .usingKw) && decide (scope ≠ .typeBody) && !nextIs .lparen rest)
  · exact Or.inr (Or.inr (Or.inr rfl))
  · exact Or.inl rfl

/-- **Frame of a declaration.** A declaration without others inside is framed, unless it is a
namespace whose body is missing. -/
theorem opening?_frame {scope : Scope} {t : Token} {rest after : List Token} {tree : Tree}
    (h : opening? scope (t :: rest) = some (.whole tree after)) (hne : after ≠ [])
    (ht : t.kind ≠ .keyword .namespaceKw) :
    ∃ b e w, t :: rest = b ++ e :: w ∧
      Framed (fun us rest => opening? scope us = some (.whole tree rest)) b e w after := by
  rcases opening_cases scope t rest with hu | hn | hr | hm
  · -- a using directive reaches through its semicolon
    rw [opening?_of_using hu] at h
    obtain ⟨rfl, rfl⟩ := Opening.whole.inj (Option.some.inj h)
    obtain ⟨b, e, hrest, he, hx⟩ := throughSemicolon_frame hne
    refine ⟨t :: b, e, _, by rw [List.cons_append, ← hrest],
      Or.inl ⟨rfl, Or.inl he, fun w' _ => ?_⟩⟩
    have htake : rest.take (throughSemicolon rest) = b ++ [e] := by
      conv_lhs => rw [hrest, hx]
      rw [List.append_cons, List.take_left' (by rw [List.length_append]; rfl)]
    have hnext : nextIs .lparen (b ++ e :: w') = nextIs .lparen rest := by
      rw [hrest]
      cases b <;> rfl
    dsimp only
    rw [List.cons_append, opening?_of_using (by rw [hnext]; exact hu), hx, htake, List.append_cons,
      List.take_left' (by rw [List.length_append]; rfl),
      List.drop_left' (by rw [List.length_append]; rfl)]
  · exact absurd hn ht
  · rw [opening?_of_rbrace rest hr] at h
    obtain ⟨rfl, rfl⟩ := Opening.whole.inj (Option.some.inj h)
    exact ⟨[], t, rest, rfl,
      Or.inl ⟨rfl, Or.inr (by rw [hr]; rfl), fun w' _ => opening?_of_rbrace w' hr⟩⟩
  · rw [opening?_of_member hm] at h
    rcases hl : leading (t :: rest) with ⟨lead, ts⟩
    rw [hl] at h
    obtain ⟨b, e, w, rfl, hf⟩ := member_frame (Option.some.inj h) hne
    have hread := reads_leading (t :: rest)
    rw [hl] at hread
    refine ⟨_, e, w, hread.front, hf.map _ fun he w' rest' _ hP => ?_⟩
    rw [opening?_member_append (ne_of_ends he) hm hl, hP]

/-- A namespace or type is opened up to its brace or semicolon, whatever follows. -/
theorem opening?_container_frame {scope inner : Scope} {ts after : List Token} {kind : NodeKind}
    {parts : List Tree} (h : opening? scope ts = some (.container kind parts inner after)) :
    ∃ b e, ts = b ++ e :: after ∧ (e.kind = .semicolon ∨ e.kind = .lbrace) ∧
      ∀ w, opening? scope (b ++ e :: w) = some (.container kind parts inner w) := by
  cases ts with
  | nil => cases h
  | cons t rest =>
    rcases opening_cases scope t rest with hu | hn | hr | hm
    · rw [opening?_of_using hu] at h
      cases h
    · rw [opening?_of_namespace rest hn] at h
      -- the name ends at the first token that is no part of one, a semicolon or a brace here
      obtain ⟨c, d, rfl, hc, hd⟩ := exists_name rest
      cases d with
      | nil =>
        rw [List.append_nil, openNamespace_of_name hc] at h
        cases h
      | cons e d =>
        rw [openNamespace_append hc hd] at h
        split at h
        · rename_i he
          obtain ⟨rfl, rfl, rfl, rfl⟩ := Opening.container.inj (Option.some.inj h)
          refine ⟨t :: c, e, rfl, Or.inl he, fun w => ?_⟩
          rw [List.cons_append, opening?_of_namespace _ hn, openNamespace_append hc hd,
            if_pos he]
        · rename_i he
          split at h
          · rename_i hb
            obtain ⟨rfl, rfl, rfl, rfl⟩ := Opening.container.inj (Option.some.inj h)
            refine ⟨t :: c, e, rfl, Or.inr hb, fun w => ?_⟩
            rw [List.cons_append, opening?_of_namespace _ hn, openNamespace_append hc hd,
              if_neg he, if_pos hb]
          · cases h
    · rw [opening?_of_rbrace rest hr] at h
      cases h
    · rw [opening?_of_member hm] at h
      rcases hl : leading (t :: rest) with ⟨lead, ts⟩
      rw [hl] at h
      obtain ⟨b, e, rfl, he, hopen⟩ := member_container_frame (Option.some.inj h)
      have hread := reads_leading (t :: rest)
      rw [hl] at hread
      refine ⟨_, e, hread.front, Or.inr he, fun w => ?_⟩
      rw [opening?_member_append (by rw [he]; decide) hm hl, hopen]

end EventLint.Tree
