import EventLint.Proofs.Extent

/-!
# How far types look ahead

A type is read with backtracking: type arguments are tried and given up if they are not closed. The
trial never goes past two names side by side, or past a token that no type has outside its brackets.
Main statement: with such a token in `b`, what is read from `b` does not depend on what follows `b`.
-/

namespace EventLint.Tree

/-! ## 1. The bound -/

/-- How many tokens stand before the first that no trial of a type goes past; `named` says that the
token before could end a type. -/
def typeBound (named : Bool) (ts : List Token) : Nat :=
  match ts with
  | [] => 0
  | t :: rest =>
    if t.kind = .ident then if named then 0 else 1 + typeBound true rest
    else if t.kind = .lparen ∨ t.kind = .lbracket then
      1 + closingExtent 1 rest + typeBound true (rest.drop (closingExtent 1 rest))
    else if t.kind = .gt ∨ t.kind = .question then 1 + typeBound true rest
    else if t.kind = .lt ∨ t.kind = .comma ∨ joinsNames t then 1 + typeBound false rest
    else 0
termination_by ts.length

theorem typeBound_of_ends {named : Bool} {t : Token} (rest : List Token)
    (h : t.kind = .semicolon ∨ t.kind.closes = true) : typeBound named (t :: rest) = 0 := by
  rw [typeBound]
  rcases h with h | h
  · simp [h, joinsNames]
  · rcases TokenKind.eq_of_closes h with h | h | h <;> simp [h, joinsNames]

/-- `rest` is left of `ts` when some tokens were read as part of a type: the bound has not moved,
and neither has the bracket that closes what surrounds the tokens, nor the end of a run. -/
structure Passes (named : Bool) (ts : List Token) (named' : Bool) (rest : List Token) : Prop where
  bound : typeBound named ts + rest.length = ts.length + typeBound named' rest
  enclosed : enclosedExtent ts + rest.length = ts.length + enclosedExtent rest
  run : ∀ continues,
    opaqueExtent continues ts + rest.length = ts.length + opaqueExtent continues rest

namespace Passes

variable {named named' named'' : Bool} {t : Token} {ts mid rest : List Token}

theorem refl : Passes named ts named ts :=
  ⟨Nat.add_comm _ _, Nat.add_comm _ _, fun _ => Nat.add_comm _ _⟩

theorem trans (h : Passes named ts named' mid) (h' : Passes named' mid named'' rest) :
    Passes named ts named'' rest := by
  have hb := h.bound
  have hb' := h'.bound
  have he := h.enclosed
  have he' := h'.enclosed
  refine ⟨by omega, by omega, fun continues => ?_⟩
  have hr := h.run continues
  have hr' := h'.run continues
  omega

theorem lt (h : Passes named ts named' rest) (hs : typeBound named ts < ts.length) :
    typeBound named' rest < rest.length := by
  have hb := h.bound
  omega

/-- A single token that is no bracket. -/
theorem token (hb : typeBound named (t :: ts) = 1 + typeBound named' ts)
    (hp : t.kind.isPlain = true) (hc : t.kind.closes = false) :
    Passes named (t :: ts) named' ts := by
  have ho : t.kind.opens = false := by
    revert hp
    cases t.kind <;> intro hp <;> first | rfl | cases hp
  refine ⟨?_, ?_, fun continues => ?_⟩
  · rw [hb, List.length_cons]
    omega
  · rw [enclosedExtent_of_plain ts ho hc, List.length_cons]
    omega
  · rw [opaqueExtent_of_plain continues ts hp, List.length_cons]
    omega

theorem ident (h : t.kind = .ident) : Passes false (t :: ts) true ts := by
  refine token ?_ (by rw [h]; rfl) (by rw [h]; rfl)
  rw [typeBound, if_pos h]
  rfl

theorem mark (h : t.kind = .gt ∨ t.kind = .question) : Passes named (t :: ts) true ts := by
  rcases h with h | h
  all_goals
    refine token ?_ (by rw [h]; rfl) (by rw [h]; rfl)
    rw [typeBound, h]
    rfl

theorem separator (h : t.kind = .lt ∨ t.kind = .comma ∨ joinsNames t = true) :
    Passes named (t :: ts) false ts := by
  have hk : t.kind = .lt ∨ t.kind = .comma ∨ t.kind = .dot ∨ t.kind = .colonColon := by
    rcases h with h | h | h
    · exact Or.inl h
    · exact Or.inr (Or.inl h)
    · rw [joinsNames, Bool.or_eq_true, decide_eq_true_eq, decide_eq_true_eq] at h
      exact Or.inr (Or.inr h)
  refine token ?_ ?_ ?_
  · rw [typeBound, if_neg, if_neg, if_neg, if_pos h]
    all_goals rcases hk with hk | hk | hk | hk <;> rw [hk] <;> decide
  all_goals rcases hk with hk | hk | hk | hk <;> rw [hk] <;> rfl

theorem group (h : t.kind = .lparen ∨ t.kind = .lbracket) :
    Passes named (t :: ts) true (ts.drop (closingExtent 1 ts)) := by
  have hle := closingExtent_le 1 ts
  have hb : typeBound named (t :: ts) =
      1 + closingExtent 1 ts + typeBound true (ts.drop (closingExtent 1 ts)) := by
    rw [typeBound, if_neg, if_pos h]
    rcases h with h | h <;> rw [h] <;> decide
  refine ⟨?_, ?_, fun continues => ?_⟩
  · rw [hb, List.length_drop, List.length_cons]
    omega
  · rw [enclosedExtent_of_opens ts (by rcases h with h | h <;> rw [h] <;> rfl), List.length_drop,
      List.length_cons]
    omega
  · rw [opaqueExtent_of_group continues ts h, List.length_drop, List.length_cons]
    omega

end Passes

theorem typeBound_nil (named : Bool) : typeBound named [] = 0 := by
  rw [typeBound]

/-- The first token alone decides: it is the bound, or is gone past, with a group if it opens
one. -/
theorem typeBound_step (named : Bool) (t : Token) :
    (∀ rest, typeBound named (t :: rest) = 0) ∨
      (∃ named', ∀ rest, Passes named (t :: rest) named' rest) ∨
      ∀ rest, Passes named (t :: rest) true (rest.drop (closingExtent 1 rest)) := by
  by_cases hi : t.kind = .ident
  · cases named with
    | false => exact Or.inr (Or.inl ⟨true, fun _ => Passes.ident hi⟩)
    | true => exact Or.inl fun rest => by rw [typeBound, if_pos hi]; rfl
  by_cases hg : t.kind = .lparen ∨ t.kind = .lbracket
  · exact Or.inr (Or.inr fun _ => Passes.group hg)
  by_cases hm : t.kind = .gt ∨ t.kind = .question
  · exact Or.inr (Or.inl ⟨true, fun _ => Passes.mark hm⟩)
  by_cases hs : t.kind = .lt ∨ t.kind = .comma ∨ joinsNames t = true
  · exact Or.inr (Or.inl ⟨false, fun _ => Passes.separator hs⟩)
  · exact Or.inl fun rest => by rw [typeBound, if_neg hi, if_neg hg, if_neg hm, if_neg hs]

theorem typeBound_cases (named : Bool) (t : Token) (rest : List Token) :
    typeBound named (t :: rest) = 0 ∨
      ∃ named' n, n ≤ rest.length ∧ Passes named (t :: rest) named' (rest.drop n) := by
  rcases typeBound_step named t with h | ⟨named', h⟩ | h
  · exact Or.inl (h rest)
  · exact Or.inr ⟨named', 0, Nat.zero_le _, h rest⟩
  · exact Or.inr ⟨true, closingExtent 1 rest, closingExtent_le 1 rest, h rest⟩

/-- No trial of a type leaves the brackets around it. -/
theorem typeBound_le_enclosed (named : Bool) (ts : List Token) :
    typeBound named ts ≤ enclosedExtent ts := by
  induction ts using shorter_induction generalizing named with
  | step ts ih =>
    cases ts with
    | nil =>
      rw [typeBound_nil]
      exact Nat.zero_le _
    | cons t ts =>
      rcases typeBound_cases named t ts with h | ⟨named', n, hn, hp⟩
      · rw [h]
        exact Nat.zero_le _
      · have hle := ih (ts.drop n) (by rw [List.length_drop, List.length_cons]; omega) named'
        have hb := hp.bound
        have he := hp.enclosed
        omega

/-- Nor does it go past the end of a run, unless a closing brace stands there. -/
theorem typeBound_lt_run (named : Bool) (continues : Token → Bool) (ts : List Token) :
    typeBound named ts < opaqueExtent continues ts ∨
      typeBound named ts ≤ opaqueExtent continues ts ∧
        (ts.drop (opaqueExtent continues ts) = [] ∨
          nextIs .rbrace (ts.drop (opaqueExtent continues ts)) = true) := by
  induction ts using shorter_induction generalizing named with
  | step ts ih =>
    cases ts with
    | nil =>
      rw [typeBound_nil]
      exact Or.inr ⟨Nat.zero_le _, Or.inl List.drop_nil⟩
    | cons t ts =>
      -- the bound stops at `t`, or `t` passes it on together with the run
      rcases typeBound_cases named t ts with h | ⟨named', n, hn, hp⟩
      · rw [h]
        by_cases h0 : opaqueExtent continues (t :: ts) = 0
        · rw [h0]
          exact Or.inr ⟨Nat.le_refl _,
            Or.inr ((opaqueExtent_eq_zero (List.cons_ne_nil t ts)).1 h0)⟩
        · exact Or.inl (Nat.pos_of_ne_zero h0)
      · have hb := hp.bound
        have hr := hp.run continues
        rw [List.length_drop, List.length_cons] at hb hr
        have he : opaqueExtent continues (t :: ts) =
            n + opaqueExtent continues (ts.drop n) + 1 := by omega
        rcases ih (ts.drop n) (by rw [List.length_drop, List.length_cons]; omega) named' with h | h
        · exact Or.inl (by omega)
        · refine Or.inr ⟨by omega, ?_⟩
          rw [he, List.drop_succ_cons, ← List.drop_drop]
          exact h.2

/-- A run ends at a token `e` that no trial of a type goes past: the closing brace in front of which
it stops, or its own last token. -/
theorem exists_run_end (named : Bool) (continues : Token → Bool) {ts : List Token}
    (h : ts.drop (opaqueExtent continues ts) ≠ []) :
    ∃ b e w, ts = b ++ e :: w ∧ typeBound named ts ≤ b.length ∧
      (opaqueExtent continues ts = b.length ∧ e.kind = .rbrace ∨
        opaqueExtent continues ts = b.length + 1 ∧
          (e.kind = .semicolon ∨ e.kind.closes = true)) := by
  have hlen : opaqueExtent continues ts ≤ ts.length := by
    rw [Ne, List.drop_eq_nil_iff] at h
    omega
  have hsplit := List.take_append_drop (opaqueExtent continues ts) ts
  -- in front of a closing brace the bound may reach the end of the run, elsewhere it stops earlier
  by_cases hr : nextIs .rbrace (ts.drop (opaqueExtent continues ts)) = true
  · obtain ⟨e, w, hw⟩ := List.exists_cons_of_ne_nil h
    rw [hw] at hr hsplit
    refine ⟨_, e, w, hsplit.symm, ?_, Or.inl ⟨?_, of_decide_eq_true hr⟩⟩
    · rw [List.length_take_of_le hlen]
      rcases typeBound_lt_run named continues ts with h | h
      · exact Nat.le_of_lt h
      · exact h.1
    · rw [List.length_take_of_le hlen]
  · have hlt := (typeBound_lt_run named continues ts).resolve_right fun hb =>
      hb.2.elim h hr
    obtain ⟨b, e, hb, hk⟩ := ((opaqueExtent_end continues ts).resolve_left h).resolve_left hr
    have hbl := congrArg List.length hb
    rw [List.length_take_of_le hlen, List.length_append, List.length_singleton] at hbl
    rw [hb, List.append_assoc] at hsplit
    exact ⟨b, e, _, hsplit.symm, by omega, Or.inr ⟨hbl, hk⟩⟩

/-- The bound in front of `e` stays there whatever follows `e`. -/
theorem typeBound_append {named : Bool} {b w : List Token} {e : Token} (w' : List Token)
    (h : typeBound named (b ++ e :: w) ≤ b.length) :
    typeBound named (b ++ e :: w') ≤ b.length := by
  -- a token stops the bound, moves it by one, or moves it past the group that it opens
  induction b using shorter_induction generalizing named with
  | step b ih =>
    cases b with
    | nil =>
      rcases typeBound_step named e with hs | ⟨named', hs⟩ | hs
      · rw [List.nil_append, hs]
        exact Nat.zero_le _
      · have hb := (hs w).bound
        rw [List.nil_append, List.length_nil] at h
        rw [List.length_cons] at hb
        omega
      · have hb := (hs w).bound
        rw [List.nil_append, List.length_nil] at h
        rw [List.length_cons, List.length_drop] at hb
        omega
    | cons t b =>
      rw [List.cons_append, List.length_cons] at h ⊢
      rcases typeBound_step named t with hs | ⟨named', hs⟩ | hs
      · rw [hs]
        exact Nat.zero_le _
      · have hb := (hs (b ++ e :: w)).bound
        have hb' := (hs (b ++ e :: w')).bound
        rw [List.length_cons] at hb hb'
        have hi := ih b (Nat.lt_succ_self _) (show typeBound named' _ ≤ _ by omega)
        omega
      · have hb := (hs (b ++ e :: w)).bound
        have hle := closingExtent_le 1 (b ++ e :: w)
        rw [List.length_cons, List.length_drop] at hb
        have hc : closingExtent 1 (b ++ e :: w) ≤ b.length := by omega
        have hlt : closingExtent 1 (b ++ e :: w) < (b ++ e :: w).length := by
          rw [List.length_append, List.length_cons]
          omega
        have hb' := (hs (b ++ e :: w')).bound
        rw [List.drop_append_of_le_length hc] at hb
        rw [closingExtent_append (e :: w') hc hlt, List.drop_append_of_le_length hc,
          List.length_cons] at hb'
        have hi := ih (b.drop (closingExtent 1 (b ++ e :: w)))
          (by rw [List.length_drop, List.length_cons]; omega)
          (show typeBound true _ ≤ _ by rw [List.length_drop]; omega)
        simp only [List.length_append, List.length_drop, List.length_cons] at hi hb' ⊢
        omega

/-! ## 2. Types stay within the bound -/

theorem passes_typeMarks (type : Tree) (ts : List Token) :
    Passes true ts true (typeMarks type ts).2 := by
  fun_induction typeMarks type ts with
  | case1 => exact Passes.refl
  | case2 type t rest ht ih => exact (Passes.mark (Or.inr ht)).trans ih
  | case3 type t rest _ ht n ih =>
    rw [Bool.and_eq_true, decide_eq_true_eq] at ht
    exact (Passes.group (Or.inr ht.1)).trans ih
  | case4 => exact Passes.refl

/-- Each of the four functions that read types moves the bound along: a type and its arguments from
where a name may start, the rest of a name from behind one. -/
theorem typeSteps_passes : TypeSteps (fun ts _ rest => Passes false ts true rest)
    (fun _ ts _ rest => Passes true ts true rest) (fun _ ts _ rest => Passes true ts true rest)
    (fun ts _ rest => Passes false ts true rest) where
  named hi hfirst hname :=
    (((Passes.ident hi).trans hfirst).trans hname).trans (passes_typeMarks _ _)
  tuple hp hname := ((Passes.group (Or.inl hp)).trans hname).trans (passes_typeMarks _ _)
  stop _ _ := Passes.refl
  join hj hi hnext hname := by
    have hfirst := ((Passes.ident hi).trans hnext).trans hname
    exact (Passes.separator (Or.inr (Or.inr hj))).trans hfirst
  plain _ _ := Passes.refl
  generic hl hargs := (Passes.separator (Or.inl hl)).trans hargs
  last hg htype := htype.trans (Passes.mark (Or.inl hg))
  more hc htype hargs := (htype.trans (Passes.separator (Or.inr (Or.inl hc)))).trans hargs

theorem passes_typeName? {ts rest : List Token} {type : Tree}
    (h : typeName? ts = some (type, rest)) : Passes false ts true rest :=
  typeSteps_passes.typeName? h

/-! ## 3. What follows the bound does not matter -/

/-- The group that `t` opens is closed before the bound. -/
theorem closingExtent_append_of_bound {named : Bool} {t : Token} {b : List Token} (w : List Token)
    (ht : t.kind = .lparen ∨ t.kind = .lbracket) (h : typeBound named (t :: b) < (t :: b).length) :
    closingExtent 1 (b ++ w) = closingExtent 1 b ∧ closingExtent 1 b < b.length := by
  have hg : Passes named (t :: b) true (b.drop (closingExtent 1 b)) := Passes.group ht
  have hb := hg.lt h
  rw [List.length_drop] at hb
  have hlt : closingExtent 1 b < b.length := by omega
  rw [← List.append_nil b] at hlt
  have he := closingExtent_append (b := b) (w := []) w
    (by rw [List.append_nil]; exact closingExtent_le 1 b) hlt
  rw [List.append_nil] at he hlt
  exact ⟨he, hlt⟩

theorem typeMarks_append {type : Tree} {b : List Token} (w : List Token)
    (h : typeBound true b < b.length) :
    typeMarks type (b ++ w) = ((typeMarks type b).1, (typeMarks type b).2 ++ w) := by
  fun_induction typeMarks type b with
  | case1 => exact absurd h (Nat.not_lt_zero _)
  | case2 type t rest ht ih =>
    rw [List.cons_append, typeMarks, if_pos ht]
    exact ih ((Passes.mark (Or.inr ht)).lt h)
  | case3 type t rest hq ht n ih =>
    have hk := (Bool.and_eq_true _ _ ▸ ht).1
    rw [decide_eq_true_eq] at hk
    -- the bound lies behind the brackets, so they are closed in `b`
    obtain ⟨he, hlt⟩ := closingExtent_append_of_bound w (Or.inr hk) h
    have hne : rest ≠ [] := List.ne_nil_of_length_pos (by omega)
    have hw : (decide (t.kind = .lbracket) && (nextIs .rbracket (rest ++ w) ||
        nextIs .comma (rest ++ w))) = true := by
      rw [nextIs_append [] w hne, nextIs_append [] w hne, List.append_nil]
      exact ht
    rw [List.cons_append, typeMarks, if_neg hq, if_pos hw, he]
    dsimp only
    rw [List.take_append_of_le_length (Nat.le_of_lt hlt),
      List.drop_append_of_le_length (Nat.le_of_lt hlt)]
    exact ih ((Passes.group (Or.inr hk)).lt h)
  | case4 type t rest hq ht =>
    have hw : ¬ (decide (t.kind = .lbracket) && (nextIs .rbracket (rest ++ w) ||
        nextIs .comma (rest ++ w))) = true := by
      -- brackets that `w` would make those of an array are closed in `b` already
      intro hw
      have hk := (Bool.and_eq_true _ _ ▸ hw).1
      rw [decide_eq_true_eq] at hk
      obtain ⟨-, hlt⟩ := closingExtent_append_of_bound w (Or.inr hk) h
      have hne : rest ≠ [] := List.ne_nil_of_length_pos (by omega)
      rw [nextIs_append [] w hne, nextIs_append [] w hne, List.append_nil] at hw
      exact ht hw
    rw [List.cons_append, typeMarks, if_neg hq, if_neg hw]

/-- With the bound in `b`, each of the four functions reads from `b` alone. -/
structure Within (b : List Token) : Prop where
  type : typeBound false b < b.length → ∀ w,
    typeName? (b ++ w) = (typeName? b).map fun r => (r.1, r.2 ++ w)
  tail : typeBound true b < b.length → ∀ owner w,
    nameTail owner (b ++ w) = ((nameTail owner b).1, (nameTail owner b).2 ++ w)
  name : typeBound true b < b.length → ∀ name w,
    simpleName name (b ++ w) = ((simpleName name b).1, (simpleName name b).2 ++ w)
  arguments : typeBound false b < b.length → ∀ w,
    typeArguments? (b ++ w) = (typeArguments? b).map fun r => (r.1, r.2 ++ w)

section

-- each call leaves the bound inside what is left of `b`
variable {b : List Token} (ih : ∀ c : List Token, c.length < b.length → Within c) (w : List Token)

include ih

theorem typeName?_within (h : typeBound false b < b.length) :
    typeName? (b ++ w) = (typeName? b).map fun r => (r.1, r.2 ++ w) := by
  cases b with
  | nil => exact absurd h (Nat.not_lt_zero _)
  | cons t b =>
    have hlt : b.length < (t :: b).length := Nat.lt_succ_self _
    by_cases hi : t.kind = .ident
    · have hb : typeBound true b < b.length := (Passes.ident hi).lt h
      -- the bound is handed on from the name to its tail and to the marks
      have hs := typeSteps_passes.simpleName t b
      have hn := typeSteps_passes.nameTail (qualified none (simpleName t b).1) (simpleName t b).2
      rw [List.cons_append, typeName?_of_ident _ hi, typeName?_of_ident _ hi, nameChain_eq,
        nameChain_eq, (ih b hlt).name hb,
        (ih _ (Nat.lt_of_le_of_lt (simpleName_rest_le t b) hlt)).tail (hs.lt hb),
        typeMarks_append w (hn.lt (hs.lt hb))]
      rfl
    · by_cases hp : t.kind = .lparen
      · obtain ⟨he, hc⟩ := closingExtent_append_of_bound w (Or.inl hp) h
        have hg : Passes false (t :: b) true (b.drop (closingExtent 1 b)) :=
          Passes.group (Or.inl hp)
        have hn := typeSteps_passes.nameTail (tupleOf t b) (b.drop (closingExtent 1 b))
        have htuple : tupleOf t (b ++ w) = tupleOf t b := by
          rw [tupleOf, tupleOf, he, List.take_append_of_le_length (Nat.le_of_lt hc)]
        have hl : (b.drop (closingExtent 1 b)).length < (t :: b).length := by
          rw [List.length_drop]
          omega
        rw [List.cons_append, typeName?_of_lparen _ hp, typeName?_of_lparen _ hp, he, htuple,
          List.drop_append_of_le_length (Nat.le_of_lt hc), (ih _ hl).tail (hg.lt h)]
        dsimp only
        rw [typeMarks_append w (hn.lt (hg.lt h))]
        rfl
      · rw [List.cons_append, typeName?_of_ne _ hi hp, typeName?_of_ne _ hi hp]
        rfl

theorem nameTail_within (h : typeBound true b < b.length) (owner : Tree) :
    nameTail owner (b ++ w) = ((nameTail owner b).1, (nameTail owner b).2 ++ w) := by
  rcases b with _ | ⟨joint, _ | ⟨first, after⟩⟩
  · exact absurd h (Nat.not_lt_zero _)
  · -- a joint at the end of `b` would move the bound behind `b`
    have hj : joinsNames joint = false := by
      cases hj : joinsNames joint with
      | false => rfl
      | true =>
        have hp : Passes true [joint] false [] := Passes.separator (Or.inr (Or.inr hj))
        exact absurd (hp.lt h) (Nat.not_lt_zero _)
    cases w with
    | nil => rfl
    | cons first w =>
      rw [List.cons_append, List.nil_append, nameTail, hj]
      rfl
  · have hlt : after.length < (joint :: first :: after).length := by
      rw [List.length_cons, List.length_cons]
      omega
    rw [List.cons_append, List.cons_append]
    by_cases hj : (joinsNames joint && first.kind = .ident) = true
    · rw [nameTail_cons hj, nameTail_cons hj]
      rw [Bool.and_eq_true, decide_eq_true_eq] at hj
      have hp : Passes true (joint :: first :: after) false (first :: after) :=
        Passes.separator (Or.inr (Or.inr hj.1))
      have ha := (hp.trans (Passes.ident hj.2)).lt h
      have hs := typeSteps_passes.simpleName first after
      rw [(ih after hlt).name ha,
        (ih _ (Nat.lt_of_le_of_lt (simpleName_rest_le first after) hlt)).tail (hs.lt ha)]
    · rw [nameTail, nameTail, if_neg hj, if_neg hj]
      rfl

theorem simpleName_within (h : typeBound true b < b.length) (name : Token) :
    simpleName name (b ++ w) = ((simpleName name b).1, (simpleName name b).2 ++ w) := by
  cases b with
  | nil => exact absurd h (Nat.not_lt_zero _)
  | cons t b =>
    rw [List.cons_append, simpleName, simpleName]
    split
    · rename_i ht
      have hp : Passes true (t :: b) false b := Passes.separator (Or.inl ht)
      rw [(ih b (Nat.lt_succ_self _)).arguments (hp.lt h)]
      cases typeArguments? b <;> rfl
    · rfl

theorem typeArguments?_within (h : typeBound false b < b.length) :
    typeArguments? (b ++ w) = (typeArguments? b).map fun r => (r.1, r.2 ++ w) := by
  rw [typeArguments?_eq, typeArguments?_eq, typeName?_within ih w h]
  cases ht : typeName? b with
  | none => rfl
  | some r =>
    obtain ⟨type, rest⟩ := r
    have hr := (passes_typeName? ht).lt h
    have hlt := typeName?_rest_lt ht
    cases rest with
    -- the bound lies in `b`, so something follows the type there
    | nil => exact absurd hr (Nat.not_lt_zero _)
    | cons t after =>
      rw [List.length_cons] at hlt
      rw [Option.map_some, List.cons_append]
      dsimp only
      split
      · rfl
      · split
        · rename_i hc
          have hp : Passes true (t :: after) false after :=
            Passes.separator (Or.inr (Or.inl hc))
          rw [(ih after (by omega)).arguments (hp.lt hr)]
          cases typeArguments? after <;> rfl
        · rfl

end

theorem types_within (b : List Token) : Within b := by
  induction b using shorter_induction with
  | step b ih =>
    exact ⟨fun h w => typeName?_within ih w h, fun h owner w => nameTail_within ih w h owner,
      fun h name w => simpleName_within ih w h name, fun h w => typeArguments?_within ih w h⟩

theorem typeName?_append {b : List Token} (w : List Token) (h : typeBound false b < b.length) :
    typeName? (b ++ w) = (typeName? b).map fun r => (r.1, r.2 ++ w) :=
  (types_within b).type h w

end EventLint.Tree
