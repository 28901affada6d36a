import EventLint.Proofs.Lexeme

/-!
# Scanning an edited text

The tokens in front of an edit are found again, and so are those after it, at other places. Main
statement: text after which a scan continues may be replaced without a change to the tokens before.
-/

namespace EventLint

open Text

namespace Trivia

/-! ## 1. Trivia does not look past its end -/

section

variable {x y y' : Text}

theorem lineExtent_append (y' : Text) (h : lineExtent (x ++ y) < x.length) :
    lineExtent (x ++ y') = lineExtent (x ++ y) := by
  induction x with
  | nil => exact absurd h (Nat.not_lt_zero _)
  | cons c x ih =>
    rw [List.cons_append, lineExtent, List.length_cons] at h
    rw [List.cons_append, List.cons_append, lineExtent, lineExtent]
    split at h
    · rename_i hc
      rw [if_pos hc, if_pos hc]
    · rename_i hc
      rw [if_neg hc, if_neg hc, ih (by omega)]

theorem commentExtent_pos {cs : Text} (h : cs ≠ []) : 0 < commentExtent cs := by
  obtain ⟨c, cs, rfl⟩ := List.exists_cons_of_ne_nil h
  rw [commentExtent]
  split <;> omega

theorem commentExtent_append (y' : Text) (h : commentExtent (x ++ y) ≤ x.length)
    (hy : y = [] → commentExtent (x ++ y) < x.length) :
    commentExtent (x ++ y') = commentExtent (x ++ y) := by
  induction x with
  | nil =>
    by_cases hnil : y = []
    · exact absurd (hy hnil) (Nat.not_lt_zero _)
    · have := commentExtent_pos hnil
      rw [List.nil_append, List.length_nil] at h
      omega
  | cons c x ih =>
    rw [List.cons_append, commentExtent, List.length_cons] at h hy
    rw [List.cons_append, List.cons_append, commentExtent, commentExtent]
    cases x with
    | nil =>
      -- a comment that is open after its last character reaches into `y`
      rw [List.nil_append, List.length_nil] at h hy
      split at h
      · omega
      · rename_i hc
        rw [if_neg hc] at hy
        by_cases hnil : y = []
        · have := hy hnil
          omega
        · have := commentExtent_pos hnil
          omega
    | cons d x =>
      rw [show (d :: x ++ y').head? = (d :: x ++ y).head? from rfl]
      split at h
      · rename_i hc
        rw [if_pos hc, if_pos hc]
      · rename_i hc
        rw [if_neg hc] at hy
        rw [if_neg hc, if_neg hc, ih (by omega) (fun hnil => by have := hy hnil; omega)]

end

/-- The blank, comment or directive line that starts with `c`: how many characters it takes after
`c`, and whether the line is fresh after it. -/
def item? (fresh : Bool) (c : Char) (rest : Text) : Option (Nat × Bool) :=
  if isBlank c then some (0, fresh || c = '\n')
  else if c = '/' && rest.head? = some '/' || c = '#' && fresh then some (lineExtent rest, false)
  else if c = '/' && rest.head? = some '*' then some (1 + commentExtent rest.tail, false)
  else none

theorem extent_cons (fresh : Bool) (c : Char) (rest : Text) :
    extent fresh (c :: rest) =
      match item? fresh c rest with
      | some (n, next) => 1 + n + extent next (rest.drop n)
      | none => 0 := by
  rw [extent, item?]
  by_cases hb : isBlank c = true
  · rw [if_pos hb, if_pos hb]
    rfl
  rw [if_neg hb, if_neg hb]
  by_cases hl : (c = '/' && rest.head? = some '/') = true
  · rw [if_pos hl, if_pos (by rw [hl, Bool.true_or])]
  rw [if_neg hl, Bool.eq_false_iff.2 hl, Bool.false_or]
  by_cases hd : (c = '#' && fresh) = true
  · have hne : ¬ (c = '/' && rest.head? = some '*') = true := by
      rw [Bool.and_eq_true, decide_eq_true_eq] at hd
      rw [hd.1]
      simp
    rw [if_neg hne, if_pos hd, if_pos hd]
  rw [if_neg hd, if_neg hd]
  split <;> rfl

theorem extent_of_item? {fresh next : Bool} {c : Char} {rest : Text} {n : Nat}
    (h : item? fresh c rest = some (n, next)) :
    extent fresh (c :: rest) = 1 + n + extent next (rest.drop n) := by
  rw [extent_cons, h]

theorem extent_of_item?_eq_none {fresh : Bool} {c : Char} {rest : Text}
    (h : item? fresh c rest = none) : extent fresh (c :: rest) = 0 := by
  rw [extent_cons, h]

section

variable {fresh next : Bool} {c : Char} {x y y' : Text} {n : Nat}

theorem item?_append (y' : Text) (h : item? fresh c (x ++ y) = some (n, next)) (hn : n < x.length) :
    item? fresh c (x ++ y') = some (n, next) := by
  obtain ⟨d, x, rfl⟩ :=
    List.exists_cons_of_ne_nil (List.ne_nil_of_length_pos (Nat.zero_lt_of_lt hn))
  have hhead : (d :: x ++ y').head? = (d :: x ++ y).head? := rfl
  unfold item? at h ⊢
  rw [hhead]
  -- a blank, a line comment or directive, a block comment: each is closed inside `x`
  by_cases hb : isBlank c = true
  · rw [if_pos hb] at h ⊢
    exact h
  rw [if_neg hb] at h ⊢
  by_cases hl : (c = '/' && (d :: x ++ y).head? = some '/' || c = '#' && fresh) = true
  · rw [if_pos hl] at h ⊢
    obtain ⟨rfl, rfl⟩ := Prod.mk.inj (Option.some.inj h)
    rw [lineExtent_append y' hn]
  rw [if_neg hl] at h ⊢
  by_cases hc : (c = '/' && (d :: x ++ y).head? = some '*') = true
  · rw [if_pos hc] at h ⊢
    obtain ⟨rfl, rfl⟩ := Prod.mk.inj (Option.some.inj h)
    rw [List.cons_append, List.tail_cons, List.length_cons] at hn
    have hx := commentExtent_append (x := x) (y := y) y' (by omega) (fun _ => by omega)
    rw [List.cons_append, List.cons_append, List.tail_cons, List.tail_cons, hx]
  · rw [if_neg hc] at h
    cases h

theorem item?_append_none (hf : Follows y y') (hs : y'.head? = some '/' → x = [] → c ≠ '/')
    (h : item? fresh c (x ++ y) = none) : item? fresh c (x ++ y') = none := by
  cases x with
  -- with a second character in `x`, the tests do not reach `y`
  | cons d x =>
    unfold item? at h ⊢
    rw [show (d :: x ++ y').head? = (d :: x ++ y).head? from rfl]
    split at h
    · cases h
    · split at h
      · cases h
      · split at h
        · cases h
        · rename_i h1 h2 h3
          rw [if_neg h1, if_neg h2, if_neg h3]
  | nil =>
    unfold item? at h ⊢
    split at h
    · cases h
    · split at h
      · cases h
      · rename_i hb hl
        rw [Bool.or_eq_true, not_or] at hl
        rw [if_neg hb, if_neg, if_neg]
        · rw [Bool.and_eq_true, decide_eq_true_eq, decide_eq_true_eq]
          exact fun hc => hf.head_ne (by decide) hc.2
        · rw [Bool.or_eq_true, not_or]
          refine ⟨?_, hl.2⟩
          rw [Bool.and_eq_true, decide_eq_true_eq, decide_eq_true_eq]
          exact fun hc => hs hc.2 rfl hc.1

end

theorem getLast?_drop_ne {x : Text} {d : Char} (n : Nat) (h : x.getLast? ≠ some d) :
    (x.drop n).getLast? ≠ some d := by
  intro hd
  rw [List.getLast?_drop] at hd
  split at hd
  · cases hd
  · exact h hd

/-- Trivia in front of a token is the same whatever follows the token. -/
theorem extent_append {x y y' : Text} {fresh : Bool} (hf : Follows y y')
    (hs : y'.head? = some '/' → x.getLast? ≠ some '/') (h : extent fresh (x ++ y) < x.length) :
    extent fresh (x ++ y') = extent fresh (x ++ y) := by
  induction hn : x.length using Nat.strongRecOn generalizing x fresh with
  | ind n ih =>
    subst hn
    cases x with
    | nil => exact absurd h (Nat.not_lt_zero _)
    | cons c x =>
      rw [List.cons_append, List.length_cons] at h
      rw [List.cons_append, List.cons_append]
      -- on the length of `x`: either a token starts here, or an item ends inside `x`
      cases hi : item? fresh c (x ++ y) with
      | none =>
        have hi' : item? fresh c (x ++ y') = none := by
          refine item?_append_none hf (fun he hx hc => ?_) hi
          rw [hx, hc] at hs
          exact hs he rfl
        rw [extent_of_item?_eq_none hi, extent_of_item?_eq_none hi']
      | some p =>
        obtain ⟨m, next⟩ := p
        rw [extent_of_item? hi] at h
        have hm : m < x.length := by omega
        rw [List.drop_append_of_le_length (Nat.le_of_lt hm)] at h
        rw [extent_of_item? hi, extent_of_item? (item?_append y' hi hm),
          List.drop_append_of_le_length (Nat.le_of_lt hm),
          List.drop_append_of_le_length (Nat.le_of_lt hm)]
        have hlen : (x.drop m).length = x.length - m := List.length_drop
        have hrest : extent next (x.drop m ++ y') = extent next (x.drop m ++ y) := by
          refine ih (x.drop m).length (by rw [List.length_cons]; omega) (fun he => ?_) (by omega)
            rfl
          have hx := getLast?_drop_ne (m + 1) (hs he)
          rwa [List.drop_succ_cons] at hx
        rw [hrest]

/-! ## 2. Complete trivia -/

section

variable {fresh next : Bool} {c : Char} {x blanks w : Text} {n : Nat}

theorem lineExtent_blanks (hb : ∀ d ∈ blanks, isIndent d = true)
    (hw : w ≠ [] ∧ w.head? ≠ some '\n') : blanks.length < lineExtent (blanks ++ w) := by
  induction blanks with
  | nil =>
    obtain ⟨d, w, rfl⟩ := List.exists_cons_of_ne_nil hw.1
    rw [List.nil_append, lineExtent, if_neg (fun hd => hw.2 (by rw [hd]; rfl)), List.length_nil]
    omega
  | cons d blanks ih =>
    have hd : d ≠ '\n' := by
      rintro rfl
      exact absurd (hb _ List.mem_cons_self) (by decide)
    have := ih fun e he => hb e (List.mem_cons_of_mem d he)
    rw [List.cons_append, lineExtent, if_neg hd, List.length_cons]
    omega

/-- A line that ends in front of blanks and a token ends with a line break. -/
theorem lineExtent_lt (hb : ∀ d ∈ blanks, isIndent d = true) (hw : w ≠ [] ∧ w.head? ≠ some '\n')
    (h : lineExtent (x ++ (blanks ++ w)) ≤ x.length + blanks.length) :
    lineExtent (x ++ (blanks ++ w)) < x.length := by
  induction x with
  | nil =>
    have := lineExtent_blanks hb hw
    rw [List.nil_append, List.length_nil] at h
    omega
  | cons c x ih =>
    rw [List.cons_append, lineExtent, List.length_cons] at h ⊢
    split
    · omega
    · rename_i hc
      rw [if_neg hc] at h
      have := ih (by omega)
      omega

theorem commentExtent_blanks (hb : ∀ d ∈ blanks, isIndent d = true) (hw : w ≠ []) :
    blanks.length < commentExtent (blanks ++ w) := by
  induction blanks with
  | nil => exact commentExtent_pos hw
  | cons d blanks ih =>
    have hd : d ≠ '*' := by
      rintro rfl
      exact absurd (hb _ List.mem_cons_self) (by decide)
    have := ih fun e he => hb e (List.mem_cons_of_mem d he)
    rw [List.cons_append, commentExtent, decide_eq_false hd, Bool.false_and,
      if_neg Bool.false_ne_true, List.length_cons]
    omega

theorem commentExtent_le_of_blanks (hb : ∀ d ∈ blanks, isIndent d = true) (hw : w ≠ [])
    (h : commentExtent (x ++ (blanks ++ w)) ≤ x.length + blanks.length) :
    commentExtent (x ++ (blanks ++ w)) ≤ x.length := by
  induction x with
  | nil =>
    have := commentExtent_blanks hb hw
    rw [List.nil_append, List.length_nil] at h
    omega
  | cons c x ih =>
    rw [List.cons_append, commentExtent, List.length_cons] at h ⊢
    split
    · rename_i hc
      rw [if_pos hc] at h
      cases x with
      | cons d x => rw [List.length_cons]; omega
      | nil =>
        -- the slash would have to be one of the blanks
        cases blanks with
        | nil => simp at h
        | cons d blanks =>
          rw [Bool.and_eq_true, decide_eq_true_eq, decide_eq_true_eq] at hc
          have hd : d = '/' := Option.some.inj hc.2
          rw [hd] at hb
          exact absurd (hb _ List.mem_cons_self) (by decide)
    · rename_i hc
      rw [if_neg hc] at h
      have := ih (by omega)
      omega

/-- A blank, comment or directive line that ends in front of blanks and a token ends there whatever
follows. -/
theorem item?_append_blanks (w' : Text) (hb : ∀ d ∈ blanks, isIndent d = true)
    (hw : w ≠ [] ∧ w.head? ≠ some '\n')
    (h : item? fresh c (x ++ (blanks ++ w)) = some (n, next)) (hn : n ≤ x.length + blanks.length) :
    n ≤ x.length ∧ item? fresh c (x ++ w') = some (n, next) := by
  have hi := h
  unfold item? at h
  split at h
  · rename_i hc
    obtain ⟨rfl, rfl⟩ := Prod.mk.inj (Option.some.inj h)
    refine ⟨Nat.zero_le _, ?_⟩
    rw [item?, if_pos hc]
  · rename_i hc
    split at h
    · obtain ⟨rfl, rfl⟩ := Prod.mk.inj (Option.some.inj h)
      have hlt := lineExtent_lt hb hw hn
      exact ⟨Nat.le_of_lt hlt, item?_append w' hi hlt⟩
    · split at h
      · rename_i hl hs
        obtain ⟨rfl, rfl⟩ := Prod.mk.inj (Option.some.inj h)
        cases x with
        | nil =>
          -- blanks do not open a comment
          cases blanks with
          | nil => simp at hn
          | cons d blanks =>
            rw [Bool.and_eq_true, decide_eq_true_eq, decide_eq_true_eq] at hs
            have hd : d = '*' := Option.some.inj hs.2
            rw [hd] at hb
            exact absurd (hb _ List.mem_cons_self) (by decide)
        | cons d x =>
          rw [List.cons_append, List.tail_cons, List.length_cons] at hn
          have hle := commentExtent_le_of_blanks (x := x) hb hw.1 (by omega)
          have heq := commentExtent_append (x := x) (y := blanks ++ w) w' hle
            (fun hnil => absurd (List.append_eq_nil_iff.1 hnil).2 hw.1)
          rw [List.cons_append, List.tail_cons, List.length_cons]
          refine ⟨by omega, ?_⟩
          unfold item?
          rw [show (d :: x ++ w').head? = (d :: x ++ (blanks ++ w)).head? from rfl, if_neg hc,
            if_neg hl, if_pos hs, List.cons_append, List.tail_cons, heq]
      · cases h

/-- A blank, comment or directive line that something follows leaves the line as fresh as it
says. -/
theorem freshAfter_item? (hw : w ≠ []) (h : item? fresh c (x ++ w) = some (n, next))
    (hn : n ≤ x.length) : freshAfter fresh (c :: x.take n) = next := by
  rw [show x.take n = (x ++ w).take n from (List.take_append_of_le_length hn).symm]
  unfold item? at h
  split at h
  · -- a blank keeps the line fresh, and a line break makes it so
    rename_i hc
    obtain ⟨rfl, rfl⟩ := Prod.mk.inj (Option.some.inj h)
    rw [List.take_zero, ← List.nil_append [c], freshAfter_concat, hc, Bool.and_true, Bool.or_comm]
    rfl
  · rename_i hc
    split at h
    · obtain ⟨rfl, rfl⟩ := Prod.mk.inj (Option.some.inj h)
      exact freshAfter_eq_false fresh [] _ c (Bool.eq_false_iff.2 hc) (take_lineExtent _)
    · split at h
      · rename_i hs
        obtain ⟨rfl, rfl⟩ := Prod.mk.inj (Option.some.inj h)
        rw [Bool.and_eq_true, decide_eq_true_eq, decide_eq_true_eq] at hs
        obtain ⟨rest, hrest⟩ := List.head?_eq_some_iff.1 hs.2
        have hlen := congrArg List.length hrest
        have hpos := List.length_pos_iff.2 hw
        rw [List.length_append, List.length_cons] at hlen
        rw [hrest, List.tail_cons] at hn ⊢
        -- a comment that is left open would reach to the end of `w`
        rcases commentExtent_cases rest with ⟨body, tail, rfl, -, hm⟩ | ⟨-, hm⟩
        · have ht : (body ++ ['*', '/'] ++ tail).take (body.length + 2) = body ++ ['*', '/'] := by
            rw [List.take_append_of_le_length (by simp), List.take_of_length_le (by simp)]
          rw [hm, Nat.add_comm 1, List.take_succ_cons, ht,
            show c :: '*' :: (body ++ ['*', '/']) = (c :: '*' :: body ++ ['*']) ++ '/' :: [] by
              simp]
          exact freshAfter_eq_false _ _ _ _ (by decide) (by simp)
        · omega
      · cases h

end

/-- Complete trivia `x`, with blanks and a token after it: it is skipped whatever follows. -/
theorem extent_append_of_blanks {fresh : Bool} {x blanks w : Text} (w' : Text)
    (hb : ∀ d ∈ blanks, isIndent d = true) (hw : w ≠ [] ∧ w.head? ≠ some '\n')
    (h : extent fresh (x ++ (blanks ++ w)) = x.length + blanks.length) :
    extent fresh (x ++ w') = x.length + extent (freshAfter fresh x) w' := by
  induction hn : x.length using Nat.strongRecOn generalizing x fresh with
  | ind n ih =>
    subst hn
    cases x with
    | nil =>
      rw [List.nil_append, List.length_nil, Nat.zero_add]
      rfl
    | cons c x =>
      rw [List.cons_append, List.length_cons] at h
      rw [List.cons_append]
      cases hi : item? fresh c (x ++ (blanks ++ w)) with
      | none =>
        rw [extent_of_item?_eq_none hi] at h
        omega
      | some p =>
        obtain ⟨m, next⟩ := p
        rw [extent_of_item? hi] at h
        obtain ⟨hm, hi'⟩ := item?_append_blanks w' hb hw hi (by omega)
        rw [List.drop_append_of_le_length hm] at h
        have hlen : (x.drop m).length = x.length - m := List.length_drop
        have hrest : extent next (x.drop m ++ w') =
            (x.drop m).length + extent (freshAfter next (x.drop m)) w' := by
          exact ih (x.drop m).length (by rw [List.length_cons]; omega) (by omega) rfl
        -- whether the line is fresh behind `x` is carried along from item to item
        have hfresh : freshAfter fresh (c :: x) = freshAfter next (x.drop m) := by
          rw [← freshAfter_item? (fun hnil => hw.1 (List.append_eq_nil_iff.1 hnil).2) hi hm,
            ← freshAfter_append, List.cons_append,
            List.take_append_drop]
        rw [extent_of_item? hi', List.drop_append_of_le_length hm, hrest, hfresh, hlen,
          List.length_cons]
        omega

/-- A line that is not fresh makes no difference to trivia that no `#` stops. -/
theorem extent_fresh {cs : Text} (fresh : Bool)
    (h : (cs.drop (extent false cs)).head? ≠ some '#') : extent fresh cs = extent false cs := by
  induction cs generalizing fresh with
  | nil => rw [extent, extent]
  | cons c rest ih =>
    cases fresh with
    | false => rfl
    | true =>
      by_cases hb : isBlank c = true
      · have hi : ∀ fresh, item? fresh c rest = some (0, fresh || c = '\n') := fun fresh => by
          rw [item?, if_pos hb]
        rw [extent_of_item? (hi false)] at h
        rw [extent_of_item? (hi true), extent_of_item? (hi false), List.drop_zero]
        by_cases hn : c = '\n'
        · rw [decide_eq_true hn, Bool.or_true, Bool.or_true]
        · rw [decide_eq_false hn, Bool.or_false, Bool.or_false]
          rw [decide_eq_false hn, Bool.or_false, List.drop_zero,
            show 1 + 0 + extent false rest = extent false rest + 1 by omega,
            List.drop_succ_cons] at h
          rw [ih true h]
      · have hi : item? true c rest = item? false c rest := by
          by_cases hc : c = '#'
          · -- the scan would have stopped here
            have hnone : item? false c rest = none := by
              rw [item?, if_neg hb, hc]
              rfl
            rw [extent_of_item?_eq_none hnone, hc] at h
            exact absurd rfl h
          · rw [item?, item?, decide_eq_false hc, Bool.false_and, Bool.false_and, if_neg hb,
              if_neg hb]
        rw [extent_cons, extent_cons, hi]

end Trivia

namespace Token

/-! ## 3. Tokens in front of an edit -/

section

variable {fresh : Bool} {offset : Nat}

/-- A scan finds trivia, a token and the tokens of the rest. -/
theorem scanFrom_of_lexeme {leading u z : Text} {c : Char} {k : TokenKind}
    (he : Trivia.extent fresh (leading ++ c :: (u ++ z)) = leading.length)
    (hl : lexeme c (u ++ z) = (k, u.length)) :
    scanFrom fresh offset (leading ++ c :: (u ++ z)) =
      ⟨k, leading, c :: u, offset + byteSize leading⟩ ::
        scanFrom (Trivia.freshAfter fresh (leading ++ c :: u))
          (offset + byteSize (leading ++ c :: u)) z := by
  rw [scanFrom]
  split
  · rename_i hd
    rw [he, List.drop_left] at hd
    cases hd
  · rename_i d rest hd
    rw [he, List.drop_left] at hd
    obtain ⟨rfl, rfl⟩ := List.cons.inj hd
    dsimp only
    rw [he, hl, List.take_left]
    dsimp only
    rw [List.take_left, List.drop_left, byteSize_append, ← Nat.add_assoc]

theorem scanFrom_eq_nil_iff {cs : Text} :
    scanFrom fresh offset cs = [] ↔ cs.length ≤ Trivia.extent fresh cs := by
  rw [← List.drop_eq_nil_iff, scanFrom]
  split
  · rename_i hd
    exact ⟨fun _ => hd, fun _ => rfl⟩
  · rename_i d rest hd
    rw [hd]
    constructor <;> intro h <;> cases h

/-- What the first token of a scan says of the text. -/
theorem exists_of_scanFrom {cs : Text} {t : Token} {ts : List Token}
    (h : scanFrom fresh offset cs = t :: ts) :
    ∃ c u z, t.text = c :: u ∧ cs = t.leading ++ c :: (u ++ z) ∧
      Trivia.extent fresh cs = t.leading.length ∧ lexeme c (u ++ z) = (t.kind, u.length) ∧
      t.start = offset + byteSize t.leading ∧
      ts = scanFrom (Trivia.freshAfter fresh (t.leading ++ t.text))
        (offset + byteSize (t.leading ++ t.text)) z := by
  rw [scanFrom] at h
  split at h
  · cases h
  · rename_i c rest hd
    have hm := lexeme_le c rest
    rcases hl : lexeme c rest with ⟨k, m⟩
    rw [hl] at h hm
    dsimp only at h hm
    obtain ⟨rfl, rfl⟩ := List.cons.inj h
    have hcs := List.take_append_drop (Trivia.extent fresh cs) cs
    rw [hd] at hcs
    -- something is left behind the trivia, so it is a proper prefix
    have hlen : Trivia.extent fresh cs ≤ cs.length := by
      refine Nat.le_of_lt (Nat.lt_of_not_le fun hle => ?_)
      rw [List.drop_eq_nil_of_le hle] at hd
      cases hd
    refine ⟨c, rest.take m, rest.drop m, rfl, ?_, ?_, ?_, rfl, ?_⟩
    · rw [List.take_append_drop]
      exact hcs.symm
    · exact (List.length_take_of_le hlen).symm
    · rw [List.take_append_drop, List.length_take_of_le hm]
      exact hl
    · rw [byteSize_append, ← Nat.add_assoc]

end

/-- What decides whether `y'` may stand in place of `y` after the tokens `ts`. -/
structure Continues (ts : List Token) (y y' : Text) : Prop where
  follows : Follows y y'
  slash : y'.head? = some '/' → (source ts).getLast? ≠ some '/'
  clean : y = [] → ∀ t ∈ ts.getLast?, t.kind.isClean = true

theorem Continues.tail {t : Token} {ts : List Token} {y y' : Text}
    (h : Continues (t :: ts) y y') (hne : source ts ≠ []) : Continues ts y y' where
  follows := h.follows
  slash he := by
    have hs := h.slash he
    rwa [source_cons, List.getLast?_append, List.getLast?_eq_some_getLast hne, Option.some_or,
      ← List.getLast?_eq_some_getLast hne] at hs
  clean hy u hu := by
    refine h.clean hy u ?_
    cases ts with
    | nil => exact absurd rfl hne
    | cons t ts => rwa [List.getLast?_cons_cons]

/-- The first token of a scan, with the text of the other tokens after it. -/
theorem exists_of_scanFrom_source {fresh : Bool} {offset : Nat} {t : Token} {ts us : List Token}
    {y : Text} (h : scanFrom fresh offset (source (t :: ts) ++ y) = t :: us) :
    ∃ c u, t.text = c :: u ∧ lexeme c (u ++ (source ts ++ y)) = (t.kind, u.length) ∧
      Trivia.extent fresh (source (t :: ts) ++ y) = t.leading.length ∧
      t.start = offset + byteSize t.leading ∧
      us = scanFrom (Trivia.freshAfter fresh (t.leading ++ t.text))
        (offset + byteSize (t.leading ++ t.text)) (source ts ++ y) := by
  obtain ⟨c, u, z, ht, hcs, he, hl, hs, hts⟩ := exists_of_scanFrom h
  have hz : z = source ts ++ y := by
    rw [source_cons, ht, List.append_assoc, List.append_assoc] at hcs
    have hcs := List.append_cancel_left hcs
    rw [List.cons_append] at hcs
    exact (List.append_cancel_left (List.cons.inj hcs).2).symm
  subst hz
  exact ⟨c, u, ht, hl, he, hs, hts⟩

theorem byteSize_source_cons (offset : Nat) (t : Token) (ts : List Token) :
    offset + byteSize (source (t :: ts)) =
      offset + byteSize (t.leading ++ t.text) + byteSize (source ts) := by
  rw [source_cons, byteSize_append, Nat.add_assoc]

/-- A scan goes on after its first tokens where their text ends. -/
theorem scanFrom_rest {fresh : Bool} {offset : Nat} {ts us : List Token} {y : Text}
    (h : scanFrom fresh offset (source ts ++ y) = ts ++ us) :
    scanFrom (Trivia.freshAfter fresh (source ts)) (offset + byteSize (source ts)) y = us := by
  induction ts generalizing fresh offset with
  | nil => exact h
  | cons t ts ih =>
    obtain ⟨c, u, -, -, -, -, hts⟩ := exists_of_scanFrom_source h
    rw [byteSize_source_cons, source_cons, Trivia.freshAfter_append]
    exact ih hts.symm

/-- The tokens in front of an edit are found again. -/
theorem scanFrom_append {fresh : Bool} {offset : Nat} {ts us : List Token} {y y' : Text}
    (hc : Continues ts y y') (h : scanFrom fresh offset (source ts ++ y) = ts ++ us) :
    scanFrom fresh offset (source ts ++ y') =
      ts ++ scanFrom (Trivia.freshAfter fresh (source ts)) (offset + byteSize (source ts)) y' := by
  induction ts generalizing fresh offset with
  | nil => rfl
  | cons t ts ih =>
    obtain ⟨c, u, ht, hl, he, hs, hts⟩ := exists_of_scanFrom_source h
    -- no token is empty, so only the last one stands right before `y`
    have hne : ts ≠ [] → source ts ≠ [] := by
      intro hnil
      obtain ⟨p, ps, rfl⟩ := List.exists_cons_of_ne_nil hnil
      obtain ⟨d, v, _, hp, -⟩ := exists_of_scanFrom hts.symm
      rw [source_cons, hp]
      simp
    have hextent : Trivia.extent fresh (source (t :: ts) ++ y') = t.leading.length := by
      rw [← he]
      refine Trivia.extent_append hc.follows hc.slash ?_
      rw [he, source_cons, ht]
      simp only [List.length_append, List.length_cons]
      omega
    have hlexeme : lexeme c (u ++ (source ts ++ y')) = (t.kind, u.length) := by
      rw [← List.append_assoc] at hl ⊢
      refine lexeme_append hc.follows hl (by rw [List.length_append]; omega) fun hy hlen => ?_
      have hnil : ts = [] := by
        by_contra hts
        have := List.length_pos_iff.2 (hne hts)
        rw [List.length_append] at hlen
        omega
      subst hnil
      exact hc.clean hy t rfl
    have hsource : source (t :: ts) ++ y' = t.leading ++ c :: (u ++ (source ts ++ y')) := by
      rw [source_cons, ht]
      simp only [List.append_assoc, List.cons_append]
    have htok : (⟨t.kind, t.leading, c :: u, offset + byteSize t.leading⟩ : Token) = t := by
      rw [← ht, ← hs]
    rw [hsource] at hextent
    rw [byteSize_source_cons, hsource, scanFrom_of_lexeme hextent hlexeme, htok, ← ht, source_cons,
      Trivia.freshAfter_append fresh (t.leading ++ t.text), List.cons_append]
    by_cases hnil : ts = []
    · subst hnil
      rfl
    · rw [ih (hc.tail (hne hnil)) hts.symm]

/-! ## 4. Tokens after an edit -/

/-- The token farther on by `k` bytes. -/
def shift (k : Nat) (t : Token) : Token :=
  { t with start := t.start + k }

theorem source_map_shift (k : Nat) (ts : List Token) : source (ts.map (shift k)) = source ts := by
  rw [source, List.flatMap_map]
  rfl

theorem scanFrom_shift (fresh : Bool) (offset k : Nat) (cs : Text) :
    scanFrom fresh (offset + k) cs = (scanFrom fresh offset cs).map (shift k) := by
  generalize hts : scanFrom fresh offset cs = ts
  induction ts generalizing fresh offset cs with
  | nil => rwa [List.map_nil, scanFrom_eq_nil_iff, ← scanFrom_eq_nil_iff]
  | cons t ts ih =>
    obtain ⟨c, u, z, ht, rfl, he, hl, hs, hts⟩ := exists_of_scanFrom hts
    rw [scanFrom_of_lexeme he hl, List.map_cons, ← ht,
      show offset + k + byteSize (t.leading ++ t.text) =
        offset + byteSize (t.leading ++ t.text) + k by omega, ih _ _ _ hts.symm, shift, hs,
      show offset + k + byteSize t.leading = offset + byteSize t.leading + k by omega]

end Token

end EventLint
