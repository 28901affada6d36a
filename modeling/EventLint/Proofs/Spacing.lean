import EventLint.Proofs.Grammar

/-!
# Blanks between tokens

What a scan finds where only blanks separate the tokens. Main statements: such tokens are found
again when they are printed with one blank between them, and text put together from pieces that
are tokens in front of each other is scanned to these tokens.
-/

namespace EventLint

theorem Text.isBlank_of_mem_space {c : Char} (h : c ∈ [' ']) : isBlank c = true := by
  rw [List.mem_singleton.1 h]
  decide

open Text

/-! ## 1. Blank trivia -/

namespace Trivia

theorem freshAfter_cons (fresh : Bool) (c : Char) (cs : Text) :
    freshAfter fresh (c :: cs) = freshAfter (c = '\n' || (fresh && isBlank c)) cs := rfl

/-- What stands in front of a token does not matter to the line after it. -/
theorem freshAfter_token {c : Char} (hc : isBlank c = false) (a b : Bool) (u : Text) :
    freshAfter a (c :: u) = freshAfter b (c :: u) := by
  rw [freshAfter_cons, freshAfter_cons, hc, Bool.and_false, Bool.and_false]

theorem extent_blanks {b : Text} (fresh : Bool) (hb : ∀ c ∈ b, isBlank c = true) (w : Text) :
    extent fresh (b ++ w) = b.length + extent (freshAfter fresh b) w := by
  induction b generalizing fresh with
  | nil =>
    rw [List.nil_append, List.length_nil, Nat.zero_add]
    rfl
  | cons c b ih =>
    have hc := hb c List.mem_cons_self
    have hi : item? fresh c (b ++ w) = some (0, fresh || c = '\n') := by
      rw [item?, if_pos hc]
    rw [List.cons_append, extent_of_item? hi, List.drop_zero,
      ih _ fun d hd => hb d (List.mem_cons_of_mem c hd), freshAfter_cons, hc, Bool.and_true,
      Bool.or_comm, List.length_cons]
    omega

theorem freshAfter_blanks {b : Text} (hb : ∀ c ∈ b, isBlank c = true) :
    freshAfter true b = true := by
  rw [freshAfter_iff]
  intro c hc
  exact hb c (List.mem_reverse.1 ((List.takeWhile_sublist _).subset (List.mem_reverse.1 hc)))

theorem item?_eq_none_iff {fresh : Bool} {c : Char} {rest : Text} :
    item? fresh c rest = none ↔ extent fresh (c :: rest) = 0 := by
  refine ⟨extent_of_item?_eq_none, fun h => ?_⟩
  cases hi : item? fresh c rest with
  | none => rfl
  | some p =>
    obtain ⟨n, next⟩ := p
    rw [extent_of_item? hi] at h
    omega

theorem not_isBlank_of_item? {fresh : Bool} {c : Char} {rest : Text}
    (h : item? fresh c rest = none) : isBlank c = false := by
  refine Bool.eq_false_iff.2 fun hb => ?_
  rw [item?, if_pos hb] at h
  cases h

/-- Less counts as trivia on a line that is not fresh. -/
theorem item?_eq_none_of_imp {fresh fresh' : Bool} {c : Char} {rest : Text}
    (hf : fresh' = true → fresh = true) (h : item? fresh c rest = none) :
    item? fresh' c rest = none := by
  cases fresh' with
  | true => rwa [hf rfl] at h
  | false =>
    cases fresh with
    | false => exact h
    | true =>
      unfold item? at h ⊢
      rw [Bool.and_true] at h
      rw [Bool.and_false, Bool.or_false]
      split at h
      · cases h
      · split at h
        · cases h
        · rename_i hb hl
          rw [Bool.or_eq_true, not_or] at hl
          rw [if_neg hb, if_neg hl.1]
          exact h

/-- What follows trivia is none, at least not in the middle of a line. -/
theorem item?_of_extent {fresh : Bool} {x w : Text} {c : Char}
    (h : extent fresh (x ++ c :: w) = x.length) : item? false c w = none := by
  induction hlen : x.length using Nat.strongRecOn generalizing fresh x with
  | _ len ih =>
    cases x with
    | nil => exact item?_eq_none_of_imp (fun hf => by cases hf) (item?_eq_none_iff.2 h)
    | cons d x =>
      rw [List.cons_append, List.length_cons] at h
      -- one item at a time; the rest is shorter
      cases hi : item? fresh d (x ++ c :: w) with
      | none =>
        rw [extent_of_item?_eq_none hi] at h
        cases h
      | some item =>
        obtain ⟨n, next⟩ := item
        rw [extent_of_item? hi] at h
        have hn : n ≤ x.length := by omega
        rw [List.drop_append_of_le_length hn] at h
        rw [List.length_cons] at hlen
        have hlt : (x.drop n).length < len := by
          rw [List.length_drop]
          omega
        have hrest : extent next (x.drop n ++ c :: w) = (x.drop n).length := by
          rw [List.length_drop]
          omega
        exact ih _ hlt hrest rfl

end Trivia

namespace Token

/-! ## 2. Printing tokens -/

theorem follows_nil (y : Text) : Follows y [] where
  calm c hc := by cases hc
  alpha c hc := by cases hc

theorem follows_blank (y : Text) {b : Char} (hb : isBlank b = true) (w : Text) :
    Follows y (b :: w) := by
  refine .of_head rfl (by rw [isCalm, hb]; rfl) (Bool.eq_false_iff.2 fun ha => ?_)
  rw [isBlank_of_isAlpha ha] at hb
  cases hb

end Token

namespace Grammar

open Token

/-- The texts of lexemes, `gap` in front of the first and a blank in front of each other one. -/
def spelled (gap : Text) : List Lexeme → Text
  | [] => []
  | x :: xs => gap ++ (x.2 ++ spelled [' '] xs)

theorem spelled_blank (xs : List Lexeme) : spelled [' '] xs = xs.flatMap fun x => ' ' :: x.2 := by
  induction xs with
  | nil => rfl
  | cons x xs ih =>
    rw [spelled, ih, List.flatMap_cons]
    rfl

theorem print_eq_spelled (xs : List Lexeme) : print xs = spelled [] xs := by
  cases xs with
  | nil => rfl
  | cons x xs =>
    rw [spelled, spelled_blank]
    exact print_cons x xs

/-- Tokens with blanks between them are found again with any other blanks there. -/
theorem scanFrom_spelled {fresh : Bool} {offset : Nat} {z : Text} {ts : List Token}
    (h : scanFrom fresh offset z = ts) (hs : ∀ t ∈ ts, t.Spaced) {gap : Text}
    (hgap : gap = [] ∨ gap = [' ']) (offset' : Nat) :
    scanFrom fresh offset' (spelled gap (ts.map bare)) = placed offset' gap (ts.map bare) := by
  -- in the old text `y` stands behind the token, in the new one `y'`, which a blank starts
  induction ts generalizing fresh offset z gap offset' with
  | nil => exact scanFrom_eq_nil_iff.2 (Nat.zero_le _)
  | cons t ts ih =>
    obtain ⟨c, u, y, ht, rfl, he, hl, -, hts⟩ := exists_of_scanFrom h
    let y' := spelled [' '] (ts.map bare)
    have hfollows : Follows y y' := by
      cases ts with
      | nil => exact follows_nil y
      | cons t' ts => exact follows_blank y (by decide) _
    have hitem : Trivia.item? fresh c (u ++ y) = none := by
      rw [Trivia.extent_blanks fresh (hs t List.mem_cons_self)] at he
      refine Trivia.item?_eq_none_of_imp (fun hf => ?_) (Trivia.item?_eq_none_iff.2
        (Nat.add_left_cancel he))
      rw [hf]
      exact Trivia.freshAfter_blanks (hs t List.mem_cons_self)
    have hitem' : Trivia.item? fresh c (u ++ y') = none := by
      refine Trivia.item?_append_none hfollows (fun hslash => ?_) hitem
      cases ts with
      | nil => cases hslash
      | cons t' ts => cases hslash
    have hlex : lexeme c (u ++ y') = (t.kind, u.length) := by
      by_cases hy : y = []
      · -- the token ends the text, so it is the last one
        have hnil : ts = [] := by
          rw [hts, hy]
          exact scanFrom_eq_nil_iff.2 (Nat.zero_le _)
        rw [hy] at hl
        rwa [show y' = [] by simp only [y', hnil, List.map_nil, spelled]]
      · exact lexeme_append hfollows hl (Nat.le_refl _) fun hnil => absurd hnil hy
    have hextent : Trivia.extent fresh (gap ++ c :: (u ++ y')) = gap.length := by
      have hblank : ∀ d ∈ gap, isBlank d = true := by
        rcases hgap with rfl | rfl
        · exact List.forall_mem_nil _
        · exact fun d hd => isBlank_of_mem_space hd
      have hfresh : Trivia.freshAfter fresh gap = fresh := by
        rcases hgap with rfl | rfl
        · rfl
        · exact Bool.and_true fresh
      rw [Trivia.extent_blanks fresh hblank, hfresh, Trivia.extent_of_item?_eq_none hitem',
        Nat.add_zero]
    -- whether a directive may start next depends on the token, not on the blanks in front of it
    have hnext : Trivia.freshAfter fresh (gap ++ c :: u) =
        Trivia.freshAfter fresh (t.leading ++ t.text) := by
      rw [Trivia.freshAfter_append, Trivia.freshAfter_append, ht]
      exact Trivia.freshAfter_token (Trivia.not_isBlank_of_item? hitem) _ _ u
    have hrest := ih hts.symm (fun t' ht' => hs t' (List.mem_cons_of_mem t ht')) (Or.inr rfl)
      (offset' + byteSize gap + byteSize t.text)
    rw [List.map_cons, spelled, placed, show t.bare.2 = t.text from rfl, ← hrest, ht,
      List.cons_append, scanFrom_of_lexeme hextent hlex, hnext, byteSize_append, ← Nat.add_assoc,
      ht]
    rfl

/-- Tokens with blanks between them can be printed with one blank between them. -/
theorem lexesBack_of_spaced {text : Text} (h : ∀ t ∈ scan text, t.Spaced) :
    LexesBack ((scan text).map bare) := by
  rw [LexesBack, print_eq_spelled]
  exact scanFrom_spelled rfl h (Or.inl rfl) 0

end Grammar

namespace Token

/-! ## 3. Text made of pieces -/

/-- The text `w` is a token of kind `k` in front of `z`, and stands on one line. -/
def Stands (k : TokenKind) (w z : Text) : Prop :=
  ∃ c u, w = c :: u ∧ Trivia.item? true c (u ++ z) = none ∧ '\n' ∉ u ∧
    lexeme c (u ++ z) = (k, u.length)

theorem scanFrom_of_stands {k : TokenKind} {b w z : Text} (hb : ∀ c ∈ b, isBlank c = true)
    (h : Stands k w z) (fresh : Bool) (offset : Nat) :
    scanFrom fresh offset (b ++ (w ++ z)) =
      ⟨k, b, w, offset + byteSize b⟩ :: scanFrom false (offset + byteSize b + byteSize w) z := by
  obtain ⟨c, u, rfl, hi, hn, hl⟩ := h
  have hextent : Trivia.extent fresh (b ++ c :: (u ++ z)) = b.length := by
    rw [Trivia.extent_blanks fresh hb, Trivia.extent_of_item?_eq_none
      (Trivia.item?_eq_none_of_imp (fun _ => rfl) hi), Nat.add_zero]
  have hfresh : Trivia.freshAfter fresh (b ++ c :: u) = false :=
    Trivia.freshAfter_eq_false fresh b u c (Trivia.not_isBlank_of_item? hi) hn
  rw [List.cons_append, scanFrom_of_lexeme hextent hl, hfresh, byteSize_append, ← Nat.add_assoc]

/-- A lexeme with the blanks in front of it. -/
abbrev Piece := Text × Lexeme

/-- The text of pieces, and `z` after them. -/
def spread (ps : List Piece) (z : Text) : Text :=
  ps.foldr (fun p z => p.1 ++ (p.2.2 ++ z)) z

theorem spread_cons (gap : Text) (x : Lexeme) (ps : List Piece) (z : Text) :
    spread ((gap, x) :: ps) z = gap ++ (x.2 ++ spread ps z) := rfl

theorem spread_append (ps qs : List Piece) (z : Text) :
    spread (ps ++ qs) z = spread ps (spread qs z) :=
  List.foldr_append

/-- Each piece is a token in front of the next ones, and in front of `z`. -/
def Chain : List Piece → Text → Prop
  | [], _ => True
  | (gap, x) :: ps, z =>
    (∀ c ∈ gap, isBlank c = true) ∧ Stands x.1 x.2 (spread ps z) ∧ Chain ps z

theorem Chain.append {ps qs : List Piece} {z : Text} (hp : Chain ps (spread qs z))
    (hq : Chain qs z) : Chain (ps ++ qs) z := by
  induction ps with
  | nil => exact hq
  | cons p ps ih =>
    obtain ⟨gap, x⟩ := p
    rw [List.cons_append, Chain, spread_append]
    exact ⟨hp.1, hp.2.1, ih hp.2.2⟩

/-- Pieces that are tokens in front of each other are scanned to these tokens. -/
theorem scanFrom_spread {ps : List Piece} {z : Text} (h : Chain ps z) (hne : ps ≠ [])
    (fresh : Bool) (offset : Nat) :
    ∃ ts offset', scanFrom fresh offset (spread ps z) = ts ++ scanFrom false offset' z ∧
      ts.map bare = ps.map Prod.snd ∧ spread ps z = source ts ++ z ∧ ∀ t ∈ ts, t.Spaced := by
  induction ps generalizing fresh offset with
  | nil => exact absurd rfl hne
  | cons p ps ih =>
    obtain ⟨gap, x⟩ := p
    obtain ⟨hgap, hx, hps⟩ := h
    rw [spread_cons, scanFrom_of_stands hgap hx]
    -- the last piece stands in front of `z`, any other in front of the next one
    cases ps with
    | nil =>
      refine ⟨[⟨x.1, gap, x.2, offset + byteSize gap⟩], _, rfl, rfl, ?_, fun t ht => ?_⟩
      · rw [source_cons, source_nil, List.append_nil, List.append_assoc]
        rfl
      · rw [List.mem_singleton.1 ht]
        exact hgap
    | cons p ps =>
      obtain ⟨ts, offset', hts, hbare, hsource, hspaced⟩ := ih hps (List.cons_ne_nil p ps) false
        (offset + byteSize gap + byteSize x.2)
      refine ⟨⟨x.1, gap, x.2, offset + byteSize gap⟩ :: ts, offset', by rw [hts]; rfl, ?_, ?_,
        fun t ht => ?_⟩
      · rw [List.map_cons, hbare]
        rfl
      · rw [hsource, source_cons]
        simp only [List.append_assoc]
      · rcases List.mem_cons.1 ht with rfl | ht
        · exact hgap
        · exact hspaced t ht

/-! ## 4. Words and marks -/

/-- A word that starts with a letter or an underscore. -/
def isName : Text → Bool
  | [] => false
  | c :: u => (c = '_' || isAlphabetic c) && u.all isWordPart

theorem wordExtent_eq {u z : Text} (hu : ∀ d ∈ u, isWordPart d = true)
    (hz : ∀ d ∈ z.head?, isWordPart d = false) : wordExtent (u ++ z) = u.length := by
  induction u with
  | nil =>
    cases z with
    | nil => rfl
    | cons d z =>
      rw [List.nil_append, wordExtent_cons, hz d rfl]
      rfl
  | cons d u ih =>
    rw [List.cons_append, wordExtent_cons, if_pos (hu d List.mem_cons_self),
      ih fun e he => hu e (List.mem_cons_of_mem d he), List.length_cons, Nat.add_comm]

theorem newline_notMem_of_isWordPart {u : Text} (hu : ∀ d ∈ u, isWordPart d = true) : '\n' ∉ u :=
  fun hn => absurd (hu _ hn) (by decide)

theorem item?_of_isWordPart {fresh : Bool} {c : Char} (hc : isWordPart c = true ∨ c = '@')
    (z : Text) : Trivia.item? fresh c z = none := by
  have hblank : isBlank c = false := by
    rcases hc with hc | rfl
    · refine Bool.eq_false_iff.2 fun hb => ?_
      rw [isWordPart_of_isBlank hb] at hc
      cases hc
    · decide
  have hne : ∀ d : Char, isWordPart d = false → d ≠ '@' → c ≠ d := by
    rintro d hd hat rfl
    rw [hd] at hc
    exact hc.elim Bool.false_ne_true hat
  rw [Trivia.item?, hblank, decide_eq_false (hne '/' (by decide) (by decide)),
    decide_eq_false (hne '#' (by decide) (by decide))]
  rfl

theorem stands_word {w z : Text} (hw : isName w = true)
    (hz : ∀ d ∈ z.head?, isWordPart d = false) : Stands (wordKind w) w z := by
  cases w with
  | nil => cases hw
  | cons c u =>
    rw [isName, Bool.and_eq_true, List.all_eq_true] at hw
    obtain ⟨hc, hu⟩ := hw
    have hword : isWordPart c = true := by
      rw [isWordPart, isAlphanumeric, ← Bool.or_assoc, hc, Bool.true_or]
    have hat : c ≠ '@' := by
      rintro rfl
      exact absurd hc (by decide)
    refine ⟨c, u, rfl, item?_of_isWordPart (Or.inl hword) _, newline_notMem_of_isWordPart hu, ?_⟩
    rw [lexeme_eq, decide_eq_false hat, Bool.false_and, if_neg Bool.false_ne_true, if_pos hc,
      wordExtent_eq hu hz, List.take_left]

/-- An identifier is a name that is no keyword, or a name after a `@`, which is no part of a
word. -/
theorem exists_ident {text : Text} {t : Token} (ht : t ∈ scan text) (hk : t.kind = .ident) :
    ∃ c u, t.text = c :: u ∧ (∀ d ∈ u, isWordPart d = true) ∧
      (c = '@' ∧ u.head?.any startsName = true ∨
        (c = '_' || isAlphabetic c) = true ∧ wordKind (c :: u) = .ident) := by
  obtain ⟨c, u, y, htext, hl⟩ := exists_lexeme rfl ht
  rw [hk] at hl
  obtain ⟨hm, hc⟩ := ident_of_lexeme hl
  have hu : ∀ d ∈ u, isWordPart d = true := by
    intro d hd
    have hd : d ∈ (u ++ y).take (wordExtent (u ++ y)) := by
      rwa [← hm, List.take_left]
    exact isWordPart_of_mem_take hd
  refine ⟨c, u, htext, hu, hc.imp ?_ ?_⟩
  · rintro ⟨rfl, hname⟩
    refine ⟨rfl, ?_⟩
    cases u with
    | cons d u => exact hname
    -- the extent of the token is that of the word behind the `@`, so it is not empty
    | nil =>
      rw [Option.any_eq_true] at hname
      obtain ⟨d, hd, hstart⟩ := hname
      have hpos := wordExtent_pos hd (isWordPart_of_startsName hstart)
      rw [← hm] at hpos
      exact absurd hpos (Nat.lt_irrefl 0)
  · rintro ⟨hc, hkind⟩
    rw [List.take_left] at hkind
    exact ⟨hc, hkind⟩

/-- An identifier that was found in some text is one in front of everything that ends a word. -/
theorem stands_ident {text z : Text} {t : Token} (ht : t ∈ scan text) (hk : t.kind = .ident)
    (hz : ∀ d ∈ z.head?, isWordPart d = false) : Stands .ident t.text z := by
  obtain ⟨c, u, htext, hu, hc⟩ := exists_ident ht hk
  rw [htext]
  rcases hc with ⟨rfl, hname⟩ | ⟨hc, hkind⟩
  · refine ⟨'@', u, rfl, item?_of_isWordPart (Or.inr rfl) _, newline_notMem_of_isWordPart hu, ?_⟩
    have hname : (u ++ z).head?.any startsName = true := by
      cases u with
      | nil => cases hname
      | cons d u => exact hname
    rw [lexeme_eq, decide_eq_true rfl, Bool.true_and, if_pos hname, wordExtent_eq hu hz]
  · rw [← hkind]
    refine stands_word ?_ hz
    rw [isName, hc, Bool.true_and, List.all_eq_true]
    exact hu

open Grammar in
/-- No sign of several characters starts with one of these, so they are tokens in front of
everything. -/
theorem stands_mark {k : TokenKind} (hk : k ∈ [TokenKind.lbrace, .rbrace, .lparen, .rparen,
    .semicolon, .comma, .questionDot]) (z : Text) : Stands k (sign k) z := by
  simp only [List.mem_cons, List.not_mem_nil, or_false] at hk
  rcases hk with rfl | rfl | rfl | rfl | rfl | rfl | rfl <;>
    exact ⟨_, _, rfl, rfl, by decide, rfl⟩

open Grammar in
/-- The marks of a type are tokens in front of blanks. -/
theorem stands_mark_blank {k : TokenKind} (hk : k ∈ [TokenKind.lt, .gt, .comma, .dot, .question,
    .lbracket, .rbracket]) {b : Char} (hb : isBlank b = true) (z : Text) :
    Stands k (sign k) (b :: z) := by
  have hclean : k.isClean = true := by
    revert k
    decide
  obtain ⟨c, hc, hi, hl⟩ : ∃ c, sign k = [c] ∧ Trivia.item? true c (b :: z) = none ∧
      lexeme c ([] ++ []) = (k, 0) := by
    simp only [List.mem_cons, List.not_mem_nil, or_false] at hk
    rcases hk with rfl | rfl | rfl | rfl | rfl | rfl | rfl <;> exact ⟨_, rfl, rfl, rfl⟩
  exact ⟨c, [], hc, hi, List.not_mem_nil,
    lexeme_append (follows_blank [] hb z) hl (Nat.le_refl 0) fun _ _ => hclean⟩

end Token

end EventLint
