import EventLint.Proofs.TypeReading

/-!
# A type in another place

Where a type ends is decided by the token after it. Read in front of other tokens that do not go on
with it, the tokens of a type are the same type. The only argument of a generic name is a type that
was read in front of its closing angle bracket, so its tokens are that type wherever a name follows
them.

Main statement: `argument_of_typeName?`.
-/

namespace EventLint.Tree

open Grammar

variable {g z z' : List Token}

/-! ## 1. Marks -/

theorem suffix_typeMarks (type : Tree) (ts : List Token) : (typeMarks type ts).2 <:+ ts := by
  fun_induction typeMarks type ts with
  | case1 => exact List.suffix_rfl
  | case2 type t rest _ ih => exact ih.trans (List.suffix_cons t rest)
  | case3 type t rest _ _ n ih =>
    exact (ih.trans (List.drop_suffix n rest)).trans (List.suffix_cons t rest)
  | case4 => exact List.suffix_rfl

/-- What is left has to be shorter, unless nothing was read. -/
theorem not_suffix_cons {α : Type} {t : α} {a b : List α} (h : t :: a <:+ b) (hb : b <:+ a) :
    False := by
  have hle := h.length_le
  have hle' := hb.length_le
  rw [List.length_cons] at hle
  omega

theorem typeMarks_self {type type' : Tree} (h : typeMarks type z = (type', z)) : type' = type := by
  cases z with
  | nil =>
    rw [typeMarks] at h
    exact (Prod.mk.inj h).1.symm
  | cons t z =>
    rw [typeMarks] at h
    split at h
    · have hlast := suffix_typeMarks (node .nullableType [type, leaf t]) z
      rw [h] at hlast
      exact (not_suffix_cons hlast List.suffix_rfl).elim
    · split at h
      · have hlast := suffix_typeMarks
          (node .arrayType (type :: (t :: z.take (closingExtent 1 z)).map leaf))
          (z.drop (closingExtent 1 z))
        rw [h] at hlast
        exact (not_suffix_cons hlast (List.drop_suffix _ _)).elim
      · exact (Prod.mk.inj h).1.symm

/-- The first mark. -/
theorem kind_of_typeMarks {t : Token} {type type' : Tree}
    (h : typeMarks type (t :: (g ++ z)) = (type', z)) :
    t.kind = .question ∨ t.kind = .lbracket := by
  rw [typeMarks] at h
  split at h
  · rename_i hq
    exact Or.inl hq
  · split at h
    · rename_i hb
      exact Or.inr (of_decide_eq_true (Bool.and_eq_true_iff.1 hb).1)
    · have hz : t :: (g ++ z) = z := (Prod.mk.inj h).2
      have hlen := congrArg List.length hz
      rw [List.length_cons, List.length_append] at hlen
      omega

/-- A group that is closed in front of `z` is closed in front of other tokens. -/
theorem closingExtent_follow (hz : z ≠ []) {r : List Token}
    (h : (g ++ z).drop (closingExtent 1 (g ++ z)) = r ++ z) (z' : List Token) :
    closingExtent 1 (g ++ z') = closingExtent 1 (g ++ z) ∧ g ≠ [] ∧
      closingExtent 1 (g ++ z) ≤ g.length ∧ g.drop (closingExtent 1 (g ++ z)) = r := by
  have hle : closingExtent 1 (g ++ z) ≤ g.length := le_length_of_drop_eq h hz
  have hlt : closingExtent 1 (g ++ z) < (g ++ z).length := by
    have hpos := List.length_pos_iff.2 hz
    rw [List.length_append]
    omega
  refine ⟨closingExtent_append z' hle hlt, ?_, hle, drop_eq_of_drop_append h hz⟩
  rintro rfl
  cases z with
  | nil => exact hz rfl
  | cons t z =>
    rw [List.nil_append, closingExtent, List.length_nil] at hle
    omega

theorem typeMarks_follow (hz : z ≠ []) (he : endsType z' = true) {type type' : Tree}
    (h : typeMarks type (g ++ z) = (type', z)) : typeMarks type (g ++ z') = (type', z') := by
  induction g using shorter_induction generalizing type with
  | step g ih =>
    cases g with
    | nil =>
      rw [List.nil_append] at h ⊢
      rw [typeMarks_self h, typeMarks_of_endsType he]
    | cons t g =>
      have hlt : g.length < (t :: g).length := Nat.lt_succ_self _
      have hkind := kind_of_typeMarks h
      rw [List.cons_append, typeMarks] at h ⊢
      by_cases hq : t.kind = .question
      · rw [if_pos hq] at h ⊢
        exact ih g hlt h
      · rw [if_neg hq] at h ⊢
        split at h
        · -- the brackets are closed in `g`, as `z` is left
          rename_i hnext
          obtain ⟨r, hr⟩ : z <:+ (g ++ z).drop (closingExtent 1 (g ++ z)) := by
            have hrest := suffix_typeMarks
              (node .arrayType (type :: (t :: (g ++ z).take (closingExtent 1 (g ++ z))).map leaf))
              ((g ++ z).drop (closingExtent 1 (g ++ z)))
            rwa [h] at hrest
          obtain ⟨hclose, hne, hle, -⟩ := closingExtent_follow hz hr.symm z'
          rw [nextIs_append z z' hne, nextIs_append z z' hne, if_pos hnext, hclose]
          dsimp only at h ⊢
          rw [List.take_append_of_le_length hle, List.drop_append_of_le_length hle]
          rw [List.take_append_of_le_length hle, List.drop_append_of_le_length hle] at h
          refine ih _ ?_ h
          rw [List.length_drop, List.length_cons]
          omega
        · have hlen := congrArg List.length (Prod.mk.inj h).2
          rw [List.length_cons, List.length_append] at hlen
          omega

/-! ## 2. Names -/

theorem suffix_simpleName (name : Token) (ts : List Token) : (simpleName name ts).2 <:+ ts := by
  cases ts with
  | nil =>
    unfold simpleName
    exact List.suffix_rfl
  | cons t ts =>
    rw [simpleName]
    split
    · cases hargs : typeArguments? ts with
      | none => exact List.suffix_rfl
      | some r =>
        have hrest : r.2 <:+ ts := ⟨_, (typeSteps_reads.typeArguments? hargs).leaves⟩
        exact hrest.trans (List.suffix_cons t ts)
    · exact List.suffix_rfl

theorem suffix_nameTail (owner : Tree) (ts : List Token) : (nameTail owner ts).2 <:+ ts := by
  induction ts using shorter_induction generalizing owner with
  | step ts ih =>
    match ts with
    | [] => exact List.suffix_rfl
    | [_] => exact List.suffix_rfl
    | joint :: first :: after =>
      by_cases hj : (joinsNames joint && first.kind = .ident) = true
      · have hs := suffix_simpleName first after
        rw [nameTail_cons hj]
        refine ((ih _ ?_ _).trans hs).trans ((List.suffix_cons _ _).trans (List.suffix_cons _ _))
        have hle := hs.length_le
        rw [List.length_cons, List.length_cons]
        omega
      · have hself : (nameTail owner (joint :: first :: after)).2 = joint :: first :: after := by
          rw [nameTail, if_neg hj]
        exact ⟨[], hself⟩

theorem nameTail_self {owner name : Tree} (h : nameTail owner z = (name, z)) : name = owner := by
  match z with
  | [] => exact (Prod.mk.inj h).1.symm
  | [_] => exact (Prod.mk.inj h).1.symm
  | joint :: first :: after =>
    by_cases hj : (joinsNames joint && first.kind = .ident) = true
    · have hs := (suffix_nameTail (node .qualifiedName [owner, leaf joint,
        (simpleName first after).1]) (simpleName first after).2).trans
          (suffix_simpleName first after)
      rw [nameTail_cons hj] at h
      rw [h] at hs
      exact (not_suffix_cons hs (List.suffix_cons _ _)).elim
    · rw [nameTail, if_neg hj] at h
      exact (Prod.mk.inj h).1.symm

/-- Names that were read start with what joins them. -/
theorem joinsNames_of_nameTail {joint : Token} {owner name : Tree}
    (h : nameTail owner (joint :: (g ++ z)) = (name, z)) : joinsNames joint = true := by
  have hne : joint :: (g ++ z) ≠ z := by
    intro heq
    have hlen := congrArg List.length heq
    rw [List.length_cons, List.length_append] at hlen
    omega
  cases hgz : g ++ z with
  | nil =>
    rw [hgz] at h hne
    exact absurd (Prod.mk.inj h).2 hne
  | cons first after =>
    rw [hgz] at h hne
    by_cases hj : (joinsNames joint && first.kind = .ident) = true
    · exact (Bool.and_eq_true_iff.1 hj).1
    · rw [nameTail, if_neg hj] at h
      exact absurd (Prod.mk.inj h).2 hne

/-! ## 3. What follows marks and names -/

theorem endsName_of_typeMarks {type type' : Tree} (h : typeMarks type (g ++ z) = (type', z))
    (he : endsType z' = true) : endsName (g ++ z') = true := by
  cases g with
  | nil => exact endsName_of_endsType he
  | cons t g =>
    rw [List.cons_append, endsName, List.head?_cons, Option.all_some]
    rcases kind_of_typeMarks h with hk | hk <;> rw [hk] <;> rfl

theorem nextIs_lt_of_nameTail {owner name : Tree} (h : nameTail owner (g ++ z) = (name, z))
    (he : endsName z' = true) : nextIs .lt (g ++ z') = false := by
  cases g with
  | nil => exact nextIs_lt_of_endsName he
  | cons joint g =>
    have hj : joint.kind = .dot ∨ joint.kind = .colonColon := by
      simpa [joinsNames] using joinsNames_of_nameTail h
    refine decide_eq_false fun hlt => ?_
    rcases hj with hj | hj <;> rw [hj] at hlt <;> cases hlt

theorem exists_split {ts : List Token} (h : ts <:+ g ++ z) (hz : z <:+ ts) :
    ∃ c m, g = c ++ m ∧ ts = m ++ z := by
  obtain ⟨m, rfl⟩ := hz
  obtain ⟨c, hc⟩ := h
  rw [← List.append_assoc] at hc
  exact ⟨c, m, (List.append_cancel_right hc).symm, rfl⟩

theorem cons_append_ne (t : Token) (g z : List Token) : t :: (g ++ z) ≠ z := by
  intro h
  exact List.cons_ne_nil t g (List.append_left_eq_self.1 h)

theorem suffix_of_typeMarks {owner name type : Tree} {ts us : List Token}
    (hname : nameTail owner us = (name, ts)) (htype : typeMarks name ts = (type, z)) :
    z <:+ us := by
  have hts := suffix_nameTail owner us
  have hlast := suffix_typeMarks name ts
  rw [hname] at hts
  rw [htype] at hlast
  exact hlast.trans hts

/-- Names and marks, in front of `z` and in front of `z'`. -/
theorem nameTail_typeMarks_follow {owner name type : Tree} {ts : List Token} (hz : z ≠ [])
    (he : endsType z' = true) (hname : nameTail owner (g ++ z) = (name, ts))
    (htype : typeMarks name ts = (type, z))
    (follow : ∀ c : List Token, c.length ≤ g.length → ∀ y y' : List Token, y ≠ [] →
      endsName y' = true → nameTail owner (c ++ y) = (name, y) →
        nameTail owner (c ++ y') = (name, y')) :
    nextIs .lt (g ++ z') = false ∧
      typeMarks (nameTail owner (g ++ z')).1 (nameTail owner (g ++ z')).2 = (type, z') := by
  obtain ⟨c, m, rfl, rfl⟩ : ∃ c m, g = c ++ m ∧ ts = m ++ z := by
    have hts := suffix_nameTail owner (g ++ z)
    have hlast := suffix_typeMarks name ts
    rw [hname] at hts
    rw [htype] at hlast
    exact exists_split hts hlast
  rw [List.append_assoc] at hname ⊢
  have hends := endsName_of_typeMarks htype he
  rw [follow c (by rw [List.length_append]; omega) (m ++ z) (m ++ z') (by simp [hz]) hends hname]
  exact ⟨nextIs_lt_of_nameTail hname hends, typeMarks_follow hz he htype⟩

theorem simpleName_of_ne {first : Token} {ts : List Token} (h : nextIs .lt ts = false) :
    simpleName first ts = (node .identifierName [leaf first], ts) := by
  cases ts with
  | nil => rw [simpleName]
  | cons t ts => rw [simpleName, if_neg (of_decide_eq_false h)]

theorem simpleName_self {first : Token} {name : Tree} (h : simpleName first z = (name, z)) :
    name = node .identifierName [leaf first] := by
  cases z with
  | nil =>
    rw [simpleName] at h
    exact (Prod.mk.inj h).1.symm
  | cons t z =>
    rw [simpleName] at h
    split at h
    · cases hargs : typeArguments? z with
      | none =>
        rw [hargs] at h
        exact (Prod.mk.inj h).1.symm
      | some r =>
        -- type arguments that were read are not left
        rw [hargs] at h
        have hlt := types_rest_le.2.2.2 z r.1 r.2 hargs
        rw [(Prod.mk.inj h).2, List.length_cons] at hlt
        omega
    · exact (Prod.mk.inj h).1.symm

/-! ## 4. Types -/

/-- What each of the four functions reads of `g` in front of `z`, it reads in front of `z'`. -/
structure Follows (g : List Token) : Prop where
  type : ∀ z z' type, z ≠ [] → endsType z' = true → typeName? (g ++ z) = some (type, z) →
    typeName? (g ++ z') = some (type, z')
  tail : ∀ z z' owner name, z ≠ [] → endsName z' = true → nameTail owner (g ++ z) = (name, z) →
    nameTail owner (g ++ z') = (name, z')
  simple : ∀ z z' first name, z ≠ [] → nextIs .lt z' = false →
    simpleName first (g ++ z) = (name, z) → simpleName first (g ++ z') = (name, z')
  arguments : ∀ z z' args, z ≠ [] → typeArguments? (g ++ z) = some (args, z) →
    typeArguments? (g ++ z') = some (args, z')

/-! Each step reads a part of its tokens, in front of the rest of them and `z`. -/

theorem typeName?_follow_ident {t : Token} {type : Tree} (hi : t.kind = .ident)
    (ih : ∀ c : List Token, c.length ≤ g.length → Follows c) (hz : z ≠ [])
    (he : endsType z' = true) (h : typeName? (t :: (g ++ z)) = some (type, z)) :
    typeName? (t :: (g ++ z')) = some (type, z') := by
  rw [typeName?_of_ident _ hi, nameChain_eq] at h ⊢
  have hs := suffix_simpleName t (g ++ z)
  generalize hsimple : simpleName t (g ++ z) = s at h hs
  generalize hname : nameTail (qualified none s.1) s.2 = n at h
  have htype : typeMarks n.1 n.2 = (type, z) := Option.some.inj h
  obtain ⟨c, m, rfl, hm⟩ := exists_split hs (suffix_of_typeMarks hname htype)
  have hlen : (c ++ m).length = c.length + m.length := List.length_append
  rw [hm] at hname
  obtain ⟨hlt, hmarks⟩ := nameTail_typeMarks_follow hz he hname htype
    fun d hd y y' => (ih d (by omega)).tail y y' _ _
  rw [List.append_assoc] at hsimple ⊢
  rw [(ih c (by omega)).simple (m ++ z) (m ++ z') t s.1 (List.append_ne_nil_of_right_ne_nil m hz)
    hlt (hsimple.trans (by rw [← hm]))]
  exact congrArg some hmarks

theorem typeName?_follow_lparen {t : Token} {type : Tree} (hp : t.kind = .lparen)
    (ih : ∀ c : List Token, c.length ≤ g.length → Follows c) (hz : z ≠ [])
    (he : endsType z' = true) (h : typeName? (t :: (g ++ z)) = some (type, z)) :
    typeName? (t :: (g ++ z')) = some (type, z') := by
  rw [typeName?_of_lparen _ hp] at h ⊢
  dsimp only at h ⊢
  generalize hname : nameTail (tupleOf t (g ++ z))
    ((g ++ z).drop (closingExtent 1 (g ++ z))) = n at h
  have htype : typeMarks n.1 n.2 = (type, z) := Option.some.inj h
  -- the tuple closes within `g`: what stands behind it is not part of it
  obtain ⟨r, hr⟩ := suffix_of_typeMarks hname htype
  obtain ⟨hclose, -, hle, hdrop⟩ := closingExtent_follow hz hr.symm z'
  have htuple : tupleOf t (g ++ z') = tupleOf t (g ++ z) := by
    rw [tupleOf, tupleOf, hclose, List.take_append_of_le_length hle,
      List.take_append_of_le_length hle]
  rw [← hr] at hname
  rw [hclose, htuple, List.drop_append_of_le_length hle, hdrop]
  have hlen := congrArg List.length hdrop
  rw [List.length_drop] at hlen
  exact congrArg some (nameTail_typeMarks_follow hz he hname htype
    fun d hd y y' => (ih d (by omega)).tail y y' _ _).2

theorem typeName?_follow {type : Tree} (ih : ∀ c : List Token, c.length < g.length → Follows c)
    (hz : z ≠ []) (he : endsType z' = true) (h : typeName? (g ++ z) = some (type, z)) :
    typeName? (g ++ z') = some (type, z') := by
  cases g with
  | nil => exact absurd (typeName?_rest_lt h) (Nat.lt_irrefl _)
  | cons t g =>
    have ih : ∀ c : List Token, c.length ≤ g.length → Follows c :=
      fun c hc => ih c (Nat.lt_succ_of_le hc)
    rw [List.cons_append] at h ⊢
    by_cases hi : t.kind = .ident
    · exact typeName?_follow_ident hi ih hz he h
    · by_cases hp : t.kind = .lparen
      · exact typeName?_follow_lparen hp ih hz he h
      · rw [typeName?_of_ne _ hi hp] at h
        cases h

theorem nameTail_follow {owner name : Tree} (ih : ∀ c : List Token, c.length < g.length → Follows c)
    (hz : z ≠ []) (he : endsName z' = true) (h : nameTail owner (g ++ z) = (name, z)) :
    nameTail owner (g ++ z') = (name, z') := by
  match g with
  | [] =>
    rw [List.nil_append] at h ⊢
    rw [nameTail_self h, nameTail_of_endsName he]
  | [joint] =>
    cases z with
    | nil => exact absurd rfl hz
    | cons first after =>
      rw [List.cons_append, List.nil_append] at h
      by_cases hj : (joinsNames joint && first.kind = .ident) = true
      · -- the name behind the joint was read, but is left
        have hs := (suffix_nameTail (node .qualifiedName [owner, leaf joint,
          (simpleName first after).1]) (simpleName first after).2).trans
            (suffix_simpleName first after)
        rw [nameTail_cons hj] at h
        rw [h] at hs
        exact (not_suffix_cons hs List.suffix_rfl).elim
      · rw [nameTail, if_neg hj] at h
        exact (List.cons_ne_self joint (first :: after) (Prod.mk.inj h).2).elim
  | joint :: first :: g =>
    rw [List.cons_append, List.cons_append] at h ⊢
    by_cases hj : (joinsNames joint && first.kind = .ident) = true
    · rw [nameTail_cons hj] at h ⊢
      have hs := suffix_simpleName first (g ++ z)
      generalize hsimple : simpleName first (g ++ z) = s at h hs
      have hlast : z <:+ s.2 := by
        have hrest := suffix_nameTail (node .qualifiedName [owner, leaf joint, s.1]) s.2
        rwa [h] at hrest
      obtain ⟨c, m, rfl, hm⟩ := exists_split hs hlast
      have hlen : (joint :: first :: (c ++ m)).length = c.length + m.length + 2 := by
        rw [List.length_cons, List.length_cons, List.length_append]
      rw [hm] at h
      rw [List.append_assoc] at hsimple ⊢
      rw [(ih c (by omega)).simple (m ++ z) (m ++ z') first s.1
        (List.append_ne_nil_of_right_ne_nil m hz) (nextIs_lt_of_nameTail h he)
        (hsimple.trans (by rw [← hm]))]
      exact (ih m (by omega)).tail z z' _ name hz he h
    · rw [nameTail, if_neg hj] at h
      exact (cons_append_ne joint (first :: g) z (Prod.mk.inj h).2).elim

theorem simpleName_follow {first : Token} {name : Tree}
    (ih : ∀ c : List Token, c.length < g.length → Follows c)
    (hz : z ≠ []) (he : nextIs .lt z' = false) (h : simpleName first (g ++ z) = (name, z)) :
    simpleName first (g ++ z') = (name, z') := by
  cases g with
  | nil =>
    rw [List.nil_append] at h ⊢
    rw [simpleName_self h, simpleName_of_ne he]
  | cons t g =>
    rw [List.cons_append, simpleName] at h ⊢
    split at h
    · rename_i ht
      rw [if_pos ht]
      cases hargs : typeArguments? (g ++ z) with
      | none =>
        -- without arguments the name would leave `t`, and `z` is shorter
        rw [hargs] at h
        exact (cons_append_ne t g z (Prod.mk.inj h).2).elim
      | some r =>
        obtain ⟨args, after⟩ := r
        rw [hargs] at h
        obtain ⟨rfl, rfl⟩ := Prod.mk.inj h
        rw [(ih g (Nat.lt_succ_self _)).arguments _ z' args hz hargs]
    · exact (cons_append_ne t g z (Prod.mk.inj h).2).elim

/-- The first type argument is read in front of the mark that ends it, and `z` stands behind. -/
theorem exists_split_of_typeArguments? {args : List Tree}
    (h : typeArguments? (g ++ z) = some (args, z)) :
    ∃ c t m type, g = c ++ t :: m ∧ (t.kind = .gt ∨ t.kind = .comma) ∧
      typeName? (c ++ t :: (m ++ z)) = some (type, t :: (m ++ z)) := by
  rw [typeArguments?_eq] at h
  cases htype : typeName? (g ++ z) with
  | none =>
    rw [htype] at h
    cases h
  | some r =>
    obtain ⟨type, _ | ⟨t, after⟩⟩ := r
    · rw [htype] at h
      cases h
    · rw [htype] at h
      dsimp only at h
      -- the mark ends the arguments or goes on with the next one; `z` is left in both cases
      obtain ⟨hkind, hlast⟩ : (t.kind = .gt ∨ t.kind = .comma) ∧ z <:+ after := by
        split at h
        · rename_i hk
          rw [← (Prod.mk.inj (Option.some.inj h)).2]
          exact ⟨Or.inl hk, List.suffix_rfl⟩
        · split at h
          · rename_i hk
            obtain ⟨more, hmore, heq⟩ := Option.map_eq_some_iff.1 h
            rw [← (Prod.mk.inj heq).2]
            exact ⟨Or.inr hk, _, (typeSteps_reads.typeArguments? hmore).leaves⟩
          · cases h
      obtain ⟨m, rfl⟩ := hlast
      obtain ⟨c, rfl⟩ : ∃ c, g = c ++ t :: m := by
        have hl := (reads_typeName? htype).leaves
        rw [← List.cons_append, ← List.append_assoc] at hl
        exact ⟨_, (List.append_cancel_right hl).symm⟩
      rw [List.append_assoc, List.cons_append] at htype
      exact ⟨c, t, m, type, rfl, hkind, htype⟩

theorem typeArguments?_follow {args : List Tree}
    (ih : ∀ c : List Token, c.length < g.length → Follows c) (hz : z ≠ [])
    (h : typeArguments? (g ++ z) = some (args, z)) :
    typeArguments? (g ++ z') = some (args, z') := by
  obtain ⟨c, t, m, type, rfl, hkind, htype⟩ := exists_split_of_typeArguments? h
  have hlen : (c ++ t :: m).length = c.length + m.length + 1 := by
    rw [List.length_append, List.length_cons, Nat.add_assoc]
  have hends : endsType (t :: (m ++ z')) = true := by
    rw [endsType, List.head?_cons, Option.all_some]
    rcases hkind with hk | hk <;> rw [hk] <;> rfl
  rw [List.append_assoc, List.cons_append, typeArguments?_eq] at h ⊢
  rw [htype] at h
  rw [(ih c (by omega)).type _ _ type (List.cons_ne_nil _ _) hends htype]
  dsimp only at h ⊢
  split at h
  · rename_i hk
    -- the last argument: nothing of `m` is left over
    obtain ⟨rfl, hm⟩ := Prod.mk.inj (Option.some.inj h)
    rw [if_pos hk, List.append_left_eq_self.1 hm, List.nil_append]
  · rename_i hk
    rw [if_neg hk]
    split at h
    · rename_i hc
      obtain ⟨⟨more, last⟩, hmore, heq⟩ := Option.map_eq_some_iff.1 h
      obtain ⟨rfl, rfl⟩ := Prod.mk.inj heq
      rw [if_pos hc, (ih m (by omega)).arguments _ z' more hz hmore, Option.map_some]
    · cases h

theorem types_follow (g : List Token) : Follows g := by
  induction g using shorter_induction with
  | step g ih =>
    exact ⟨fun _ _ _ => typeName?_follow ih, fun _ _ _ _ => nameTail_follow ih,
      fun _ _ _ _ => simpleName_follow ih, fun _ _ _ => typeArguments?_follow ih⟩

/-! ## 5. The argument of a generic name -/

/-- The tokens of `type` are read as `type` in front of any that do not go on with it. -/
def Reread (type : Tree) : Prop :=
  ∀ rest, endsType rest = true → typeName? (type.leaves ++ rest) = some (type, rest)

theorem reread_of_typeName? {ts : List Token} {type : Tree} (hz : z ≠ [])
    (h : typeName? ts = some (type, z)) : Reread type := by
  have hl := (reads_typeName? h).leaves
  rw [leavesAll, leavesAll, List.append_nil] at hl
  intro rest hrest
  refine (types_follow type.leaves).type z rest type hz hrest ?_
  rw [hl]
  exact h

/-- The only argument of `name`, if it has one, is read back. -/
def ArgumentReread (name : Tree) : Prop :=
  ∀ argument, ElementType.singleArgument? name = some argument → Reread argument

theorem argumentReread_of_kind {name : Tree} {k : NodeKind} (h : name.nodeKind? = some k)
    (hg : k ≠ .genericName) (hq : k ≠ .qualifiedName) : ArgumentReread name := by
  intro argument harg
  have hnone : ElementType.genericName? name = none := by
    rw [ElementType.genericName?, h]
    cases k <;> first | rfl | exact absurd rfl hg | exact absurd rfl hq
  rw [ElementType.singleArgument?, hnone] at harg
  cases harg

/-- Type arguments are types. -/
theorem exists_argument {ts rest : List Token} {args : List Tree}
    (h : typeArguments? ts = some (args, rest)) :
    ∃ type more, args.filter isNode = type :: more ∧ Reread type := by
  rw [typeArguments?_eq] at h
  cases htype : typeName? ts with
  | none =>
    rw [htype] at h
    cases h
  | some r =>
    obtain ⟨type, _ | ⟨t, after⟩⟩ := r
    · rw [htype] at h
      cases h
    · have hnode := isNode_of_typeName? htype
      rw [htype] at h
      dsimp only at h
      -- a mark follows the type, so it was read in front of something
      refine ⟨type, args.tail.filter isNode, ?_, reread_of_typeName? (List.cons_ne_nil _ _) htype⟩
      split at h
      · rw [← (Prod.mk.inj (Option.some.inj h)).1]
        exact List.filter_cons_of_pos hnode
      · split at h
        · obtain ⟨more, -, heq⟩ := Option.map_eq_some_iff.1 h
          rw [← (Prod.mk.inj heq).1]
          exact List.filter_cons_of_pos hnode
        · cases h

theorem argument_simpleName (first : Token) (ts : List Token) :
    ArgumentReread (simpleName first ts).1 := by
  have hplain : ArgumentReread (node .identifierName [leaf first]) :=
    argumentReread_of_kind rfl (by decide) (by decide)
  cases ts with
  | nil =>
    rw [simpleName]
    exact hplain
  | cons t ts =>
    rw [simpleName]
    split
    · cases hargs : typeArguments? ts with
      | none => exact hplain
      | some r =>
        intro argument h
        obtain ⟨type, more, hnodes, htype⟩ := exists_argument hargs
        have harg := (singleArgument?_eq_some_iff rfl argument).1 h
        rw [hnodes] at harg
        obtain ⟨rfl, -⟩ := List.cons.inj harg
        exact htype
    · exact hplain

theorem argument_qualified {left name : Tree} {joint : Token} (hn : name.isNode = true)
    (h : ArgumentReread name) : ArgumentReread (node .qualifiedName [left, leaf joint, name]) := by
  intro argument harg
  refine h argument ?_
  rw [ElementType.singleArgument?, genericName?_qualified hn] at harg
  split at harg
  · rename_i hgeneric
    have hkind : name.nodeKind? = some .genericName := of_decide_eq_true hgeneric
    rw [ElementType.singleArgument?, ElementType.genericName?, hkind]
    exact harg
  · cases harg

theorem argument_nameTail {owner : Tree} (h : ArgumentReread owner) (ts : List Token) :
    ArgumentReread (nameTail owner ts).1 := by
  induction ts using shorter_induction generalizing owner with
  | step ts ih =>
    match ts with
    | [] => exact h
    | [_] => exact h
    | joint :: first :: after =>
      by_cases hj : (joinsNames joint && first.kind = .ident) = true
      · rw [nameTail_cons hj]
        refine ih _ ?_
          (argument_qualified (isNode_of_isTypeNode (isTypeNode_simpleName first after))
            (argument_simpleName first after))
        have hle := simpleName_rest_le first after
        rw [List.length_cons, List.length_cons]
        omega
      · rw [nameTail, if_neg hj]
        exact h

theorem argument_typeMarks {type : Tree} (h : ArgumentReread type) (ts : List Token) :
    ArgumentReread (typeMarks type ts).1 := by
  -- a type with a mark has no argument
  fun_induction typeMarks type ts with
  | case1 => exact h
  | case2 type t rest _ ih => exact ih (argumentReread_of_kind rfl (by decide) (by decide))
  | case3 type t rest _ _ n ih => exact ih (argumentReread_of_kind rfl (by decide) (by decide))
  | case4 => exact h

/-- The only argument of a type that was read is read back. -/
theorem argument_of_typeName? {ts rest : List Token} {type : Tree}
    (h : typeName? ts = some (type, rest)) : ArgumentReread type := by
  cases ts with
  | nil =>
    rw [typeName?_nil] at h
    cases h
  | cons t ts =>
    by_cases hi : t.kind = .ident
    · rw [typeName?_of_ident _ hi, nameChain_eq] at h
      rw [← (Prod.mk.inj (Option.some.inj h)).1]
      exact argument_typeMarks (argument_nameTail (argument_simpleName t ts) _) _
    · by_cases hp : t.kind = .lparen
      · rw [typeName?_of_lparen _ hp] at h
        rw [← (Prod.mk.inj (Option.some.inj h)).1]
        exact argument_typeMarks
          (argument_nameTail (argumentReread_of_kind rfl (by decide) (by decide)) _) _
      · rw [typeName?_of_ne _ hi hp] at h
        cases h

end EventLint.Tree
