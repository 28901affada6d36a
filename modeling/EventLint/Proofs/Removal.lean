import EventLint.Fix.Modifier
import EventLint.Proofs.Rescan
import EventLint.Proofs.Substitution

/-!
# Removing a word

A modifier is deleted with blanks on one side of it. Main statement: the text that is left has the
same tokens, without the modifier and each at its new place, and as many lines.
-/

namespace EventLint

open Text

/-! ## 1. Words of ASCII letters -/

namespace Text

/-- A word of ASCII letters. -/
def isPlainWord (w : Text) : Bool :=
  !w.isEmpty && w.all Char.isAlpha

theorem exists_of_isPlainWord {w : Text} (h : isPlainWord w = true) :
    ∃ c u, w = c :: u ∧ c.isAlpha = true ∧ ∀ d ∈ w, d.isAlpha = true := by
  rw [isPlainWord, Bool.and_eq_true, List.all_eq_true] at h
  cases w with
  | nil => cases h.1
  | cons c u => exact ⟨c, u, rfl, h.2 c List.mem_cons_self, h.2⟩

theorem isPlainWord_text (k : Keyword) : isPlainWord k.text.toList = true := by
  cases k <;> decide

theorem isBlank_of_isAlpha {c : Char} (h : c.isAlpha = true) : isBlank c = false := by
  refine Bool.eq_false_iff.2 fun hb => ?_
  have hw := isWordPart_of_isBlank hb
  rw [isWordPart_of_isAlpha h] at hw
  cases hw

theorem isIndent_of_isAlpha {c : Char} (h : c.isAlpha = true) : isIndent c = false := by
  refine Bool.eq_false_iff.2 fun hi => ?_
  simp only [isIndent, Bool.or_eq_true, decide_eq_true_eq] at hi
  rcases hi with rfl | rfl <;> exact absurd h (by decide)

theorem isBlank_of_isIndent {c : Char} (h : isIndent c = true) : isBlank c = true := by
  simp only [isIndent, Bool.or_eq_true, decide_eq_true_eq] at h
  rcases h with rfl | rfl <;> decide

theorem ne_newline_of_isIndent {c : Char} (h : isIndent c = true) : c ≠ '\n' := by
  rintro rfl
  exact absurd h (by decide)

theorem newline_notMem_of_isPlainWord {w : Text} (h : isPlainWord w = true) : '\n' ∉ w := by
  obtain ⟨c, u, -, -, hall⟩ := exists_of_isPlainWord h
  intro hn
  exact absurd (hall _ hn) (by decide)

/-- No line starts right behind a word. -/
theorem freshAfter_plainWord (fresh : Bool) (x : Text) {w : Text} (h : isPlainWord w = true) :
    Trivia.freshAfter fresh (x ++ w) = false := by
  have hn := newline_notMem_of_isPlainWord h
  obtain ⟨c, u, rfl, hc, -⟩ := exists_of_isPlainWord h
  exact Trivia.freshAfter_eq_false _ _ _ _ (isBlank_of_isAlpha hc)
    fun hm => hn (List.mem_cons_of_mem _ hm)

end Text

namespace Token

theorem isKeyword_punctuationKind (c : Char) : (punctuationKind c).isKeyword = false := by
  simp only [punctuationKind, apply_ite TokenKind.isKeyword]
  simp only [TokenKind.isKeyword, ite_self]

/-- The text of a keyword is its spelling. -/
theorem text_of_lexeme {c : Char} {cs : Text} {k : Keyword} {m : Nat}
    (h : lexeme c cs = (.keyword k, m)) : c :: cs.take m = k.text.toList := by
  -- only a word can be a keyword: every other branch gives a kind that is none
  rw [lexeme_eq] at h
  split at h
  · cases (Prod.mk.inj h).1
  · split at h
    · obtain ⟨hk, rfl⟩ := Prod.mk.inj h
      unfold wordKind at hk
      split at hk
      · rename_i k' hf
        unfold Keyword.ofText? at hf
        have hspell := List.find?_some hf
        rw [decide_eq_true_eq] at hspell
        rw [← hspell, TokenKind.keyword.inj hk]
      · cases hk
    · split at h
      · cases (Prod.mk.inj h).1
      · split at h
        · cases (Prod.mk.inj h).1
        · split at h
          · cases (Prod.mk.inj h).1
          · unfold symbol at h
            split at h
            · rename_i sign kind hf
              have hall : ∀ e ∈ operators, e.2.isKeyword = false := by decide
              have hk := hall _ (List.mem_of_find?_eq_some hf)
              rw [(Prod.mk.inj h).1] at hk
              cases hk
            · have hk := isKeyword_punctuationKind c
              rw [(Prod.mk.inj h).1] at hk
              cases hk

/-- What could go on with a word of letters belongs to it. -/
theorem head_not_isWordPart_of_lexeme {c : Char} {u z : Text} {k : TokenKind}
    (h : lexeme c (u ++ z) = (k, u.length)) (hc : c.isAlpha = true) (d : Char)
    (hd : z.head? = some d) : isWordPart d = false := by
  refine Bool.eq_false_iff.2 fun hpart => ?_
  have hat : ¬ (c = '@' && (u ++ z).head?.any startsName) = true := by
    rw [Bool.and_eq_true, decide_eq_true_eq]
    rintro ⟨rfl, -⟩
    exact absurd hc (by decide)
  rw [lexeme_eq, if_neg hat, isAlphabetic_of_isAlpha hc, Bool.or_true, if_pos rfl] at h
  have hlen := (Prod.mk.inj h).2
  have hlt : ∀ u : Text, wordExtent (u ++ z) ≠ u.length := by
    intro u
    induction u with
    | nil =>
      have := wordExtent_pos hd hpart
      rw [List.nil_append, List.length_nil]
      omega
    | cons e u ih =>
      rw [List.cons_append, wordExtent_cons, List.length_cons]
      split <;> omega
  exact hlt u hlen

end Token

namespace Trivia

/-! ## 2. The scan after a deletion -/

/-- Blanks of an indentation are trivia, and leave the line as fresh as it was. -/
theorem extent_indent {b : Text} (fresh : Bool) (hb : ∀ c ∈ b, isIndent c = true) (w : Text) :
    extent fresh (b ++ w) = b.length + extent fresh w := by
  induction b with
  | nil => rw [List.nil_append, List.length_nil, Nat.zero_add]
  | cons c b ih =>
    have hc := hb c List.mem_cons_self
    have hi : item? fresh c (b ++ w) = some (0, fresh) := by
      rw [item?, if_pos (isBlank_of_isIndent hc), decide_eq_false (ne_newline_of_isIndent hc),
        Bool.or_false]
    rw [List.cons_append, extent_of_item? hi, List.drop_zero,
      ih fun d hd => hb d (List.mem_cons_of_mem c hd), List.length_cons]
    omega

theorem isCalm_of_extent {fresh : Bool} {c : Char} {rest : Text}
    (h : 0 < extent fresh (c :: rest)) : isCalm c = true ∧ c.isAlpha = false := by
  have hi : item? fresh c rest ≠ none := by
    intro hnone
    rw [extent_of_item?_eq_none hnone] at h
    exact absurd h (Nat.lt_irrefl 0)
  by_cases hb : isBlank c = true
  · refine ⟨by rw [isCalm, hb]; rfl, Bool.eq_false_iff.2 fun ha => ?_⟩
    rw [isBlank_of_isAlpha ha] at hb
    cases hb
  · have hc : c = '/' ∨ c = '#' := by
      by_contra hne
      rw [not_or] at hne
      refine hi ?_
      rw [item?, if_neg hb, decide_eq_false hne.1, decide_eq_false hne.2]
      rfl
    rcases hc with rfl | rfl <;> decide

end Trivia

namespace Token

/-- The parts into which a deletion divides what stands before a word `v` and before the word `n`
after it: `b` and `b'` are deleted with `v`, and `x` and `l` are kept. -/
structure Deletion (v n : Token) (x b b' l : Text) : Prop where
  before : v.leading = x ++ b
  after : n.leading = b' ++ l
  blanks : ∀ c ∈ b, isIndent c = true
  blanks' : ∀ c ∈ b', isIndent c = true
  /-- Only the blanks on one side are deleted. -/
  oneSide : b = [] ∨ b' = []
  word : isPlainWord v.text = true
  nextWord : isPlainWord n.text = true

namespace Deletion

variable {v n : Token} {x b b' l r : Text} {fresh : Bool} {offset : Nat} {post : List Token}

/-- The text before the deletion, from what stands in front of `v` on. -/
def old (v n : Token) (r : Text) : Text :=
  v.leading ++ v.text ++ (n.leading ++ n.text ++ r)

/-- The text after it. -/
def new (n : Token) (x l r : Text) : Text :=
  x ++ (l ++ (n.text ++ r))

/-- What the scan of the text before the deletion says of its parts. -/
theorem exists_of_scan (hd : Deletion v n x b b' l)
    (h : scanFrom fresh offset (old v n r) = v :: n :: post) :
    Trivia.extent fresh (x ++ (b ++ (v.text ++ (n.leading ++ n.text ++ r)))) =
        x.length + b.length ∧
      Trivia.extent false (l ++ (n.text ++ r)) = l.length ∧
      (∃ c u, v.text = c :: u ∧ c.isAlpha = true ∧
        lexeme c (u ++ (n.leading ++ n.text ++ r)) = (v.kind, u.length)) ∧
      (∃ c u, n.text = c :: u ∧ c.isAlpha = true ∧ lexeme c (u ++ r) = (n.kind, u.length)) ∧
      post = scanFrom false (offset + byteSize (v.leading ++ v.text) +
        byteSize (n.leading ++ n.text)) r := by
  -- the scan read `v` first and then `n`, in the middle of a line
  obtain ⟨c, u, z, ht, hcs, he, hl, -, hts⟩ := exists_of_scanFrom h
  obtain ⟨c', u', hc', hca, -⟩ := exists_of_isPlainWord hd.word
  have hz : z = n.leading ++ n.text ++ r := by
    rw [old, ht, List.append_assoc] at hcs
    have hcs := List.append_cancel_left hcs
    rw [List.cons_append] at hcs
    exact (List.append_cancel_left (List.cons.inj hcs).2).symm
  subst hz
  rw [freshAfter_plainWord fresh v.leading hd.word] at hts
  obtain ⟨d, w, z', ht', hcs', he', hl', -, hts'⟩ := exists_of_scanFrom hts.symm
  obtain ⟨d', w', hd', hda, -⟩ := exists_of_isPlainWord hd.nextWord
  have hz' : z' = r := by
    rw [ht', List.append_assoc] at hcs'
    have hcs' := List.append_cancel_left hcs'
    rw [List.cons_append] at hcs'
    exact (List.append_cancel_left (List.cons.inj hcs').2).symm
  subst hz'
  rw [freshAfter_plainWord false n.leading hd.nextWord] at hts'
  refine ⟨?_, ?_, ⟨c, u, ht, ?_, hl⟩, ⟨d, w, ht', ?_, hl'⟩, hts'⟩
  · rw [old, hd.before] at he
    rw [← List.length_append, ← he]
    simp only [List.append_assoc]
  · rw [hd.after, List.append_assoc, List.append_assoc, Trivia.extent_indent false hd.blanks',
      List.length_append] at he'
    omega
  · rw [ht] at hc'
    rwa [(List.cons.inj hc').1]
  · rw [ht'] at hd'
    rwa [(List.cons.inj hd').1]

/-- After the deletion the next word comes first, and the tokens after it are farther back. -/
theorem scanFrom_new (hd : Deletion v n x b b' l)
    (h : scanFrom fresh offset (old v n r) = v :: n :: post) :
    ∃ post', scanFrom fresh offset (new n x l r) =
        ⟨n.kind, x ++ l, n.text, offset + byteSize (x ++ l)⟩ :: post' ∧
      post = post'.map (shift (byteSize b + byteSize v.text + byteSize b')) := by
  obtain ⟨he, hl, ⟨c, u, hv, hca, -⟩, ⟨d, w, hn, hda, hlex⟩, hpost⟩ := hd.exists_of_scan h
  -- `l` is trivia also behind `x`, where a line may start: no directive follows it
  have hnext : Trivia.extent (Trivia.freshAfter fresh x) (l ++ (n.text ++ r)) = l.length := by
    rw [Trivia.extent_fresh, hl]
    rw [hl, List.drop_left, hn]
    rintro hhash
    rw [Option.some.inj hhash] at hda
    exact absurd hda (by decide)
  have hextent : Trivia.extent fresh (x ++ l ++ d :: (w ++ r)) = (x ++ l).length := by
    have hw : v.text ++ (n.leading ++ n.text ++ r) ≠ [] ∧
        (v.text ++ (n.leading ++ n.text ++ r)).head? ≠ some '\n' := by
      rw [hv]
      refine ⟨by simp, fun hnl => ?_⟩
      rw [Option.some.inj hnl] at hca
      exact absurd hca (by decide)
    have hx := Trivia.extent_append_of_blanks (l ++ (n.text ++ r)) hd.blanks hw he
    rw [hnext, hn, List.cons_append] at hx
    rw [List.append_assoc, List.length_append, hx]
  have hfresh : Trivia.freshAfter fresh (x ++ l ++ d :: w) = false := by
    rw [← hn]
    exact freshAfter_plainWord fresh (x ++ l) hd.nextWord
  refine ⟨scanFrom false (offset + byteSize (x ++ l ++ n.text)) r, ?_, ?_⟩
  · rw [new, ← List.append_assoc, hn, List.cons_append, scanFrom_of_lexeme hextent hlex, hfresh]
  · rw [← scanFrom_shift, hpost, hd.before, hd.after]
    congr 1
    simp only [byteSize_append]
    omega

/-- What follows the tokens in front of the deletion can do so afterwards. -/
theorem follows (hd : Deletion v n x b b' l)
    (h : scanFrom fresh offset (old v n r) = v :: n :: post) :
    Follows (old v n r) (new n x l r) := by
  obtain ⟨he, hl, ⟨c, u, hv, hca, hlex⟩, ⟨d, w, hn, hda, -⟩, -⟩ := hd.exists_of_scan h
  cases x with
  | cons a x =>
    have ha : isCalm a = true ∧ a.isAlpha = false := Trivia.isCalm_of_extent (by
      rw [List.cons_append, List.length_cons] at he
      rw [he]
      omega)
    exact .of_head rfl ha.1 ha.2
  | nil =>
    cases l with
    | cons a l =>
      have ha : isCalm a = true ∧ a.isAlpha = false := Trivia.isCalm_of_extent (by
        rw [List.cons_append, List.length_cons] at hl
        rw [hl]
        omega)
      exact .of_head rfl ha.1 ha.2
    | nil =>
      have hhead : (new n [] [] r).head? = some d := by
        rw [new, hn]
        rfl
      refine ⟨fun e hea => ?_, fun e hea healpha => ⟨c, ?_, hca⟩⟩
      · rw [hhead] at hea
        rw [← Option.some.inj hea, isCalm, hda, Bool.or_true]
      · -- two words do not touch, so blanks after `v` were deleted and none before it
        have hb' : b' ≠ [] := by
          intro hnil
          have hpart := head_not_isWordPart_of_lexeme hlex hca d (by
            rw [hd.after, hnil, hn]
            rfl)
          rw [isWordPart_of_isAlpha hda] at hpart
          cases hpart
        rw [old, hd.before, hd.oneSide.resolve_right hb', hv]
        rfl

end Deletion

end Token

/-! ## 3. The edit that removes a modifier -/

/-- A token apart from its place and from what stands in front of it. -/
def Token.bare (t : Token) : TokenKind × Text :=
  (t.kind, t.text)

/-- Only blanks stand between the token and the one before it. -/
def Token.Spaced (t : Token) : Prop :=
  ∀ c ∈ t.leading, isBlank c = true

namespace Text

theorem takeBytes_append (a b : Text) : takeBytes (byteSize a) (a ++ b) = a := by
  rw [takeBytes, splitAtByte_append]

theorem dropBytes_append (a b : Text) : dropBytes (byteSize a) (a ++ b) = b := by
  rw [dropBytes, splitAtByte_append]

theorem byteSize_of_isIndent {b : Text} (h : ∀ c ∈ b, isIndent c = true) :
    byteSize b = b.length := by
  induction b with
  | nil => rfl
  | cons c b ih =>
    have hc := h c List.mem_cons_self
    have hsize : c.utf8Size = 1 := by
      simp only [isIndent, Bool.or_eq_true, decide_eq_true_eq] at hc
      rcases hc with rfl | rfl <;> decide
    rw [byteSize_cons, ih fun d hd => h d (List.mem_cons_of_mem c hd), hsize, List.length_cons]
    omega

theorem takeWhile_isIndent_append {a b : Text} (h : ∀ c ∈ b.head?, isIndent c = false) :
    (a ++ b).takeWhile isIndent = a.takeWhile isIndent := by
  rw [List.takeWhile_append]
  split
  · rename_i hall
    have hb : b.takeWhile isIndent = [] := by
      cases b with
      | nil => rfl
      | cons c b => rw [List.takeWhile_cons, h c rfl]; rfl
    rw [hb, List.append_nil]
    exact ((List.takeWhile_prefix isIndent).eq_of_length hall).symm
  · rfl

/-- The blanks at the end of a text lie on its last line. -/
theorem takeWhile_reverse_lastLine (a : Text) :
    (lastLine a).reverse.takeWhile isIndent = a.reverse.takeWhile isIndent := by
  rw [lastLine, List.reverse_reverse]
  induction a.reverse with
  | nil => rfl
  | cons c cs ih =>
    rw [List.takeWhile_cons]
    by_cases hc : c = '\n'
    · rw [if_neg (by simp [hc]), List.takeWhile_cons, if_neg (by rw [hc]; decide)]
      rfl
    · rw [if_pos (by simp [hc]), List.takeWhile_cons, List.takeWhile_cons, ih]

end Text

namespace Token

/-- Every token of a scan is a lexeme at its place. -/
theorem exists_lexeme {fresh : Bool} {offset : Nat} {z : Text} {ts : List Token} {t : Token}
    (h : scanFrom fresh offset z = ts) (ht : t ∈ ts) :
    ∃ c u w, t.text = c :: u ∧ lexeme c (u ++ w) = (t.kind, u.length) := by
  induction ts generalizing fresh offset z with
  | nil => cases ht
  | cons first ts ih =>
    obtain ⟨c, u, w, htext, -, -, hl, -, hts⟩ := exists_of_scanFrom h
    rcases List.mem_cons.1 ht with rfl | ht
    · exact ⟨c, u, w, htext, hl⟩
    · exact ih hts.symm ht

theorem isPlainWord_of_keyword {fresh : Bool} {offset : Nat} {z : Text} {t : Token}
    (ht : t ∈ scanFrom fresh offset z) (hk : t.kind.isKeyword = true) :
    isPlainWord t.text = true := by
  obtain ⟨c, u, w, htext, hl⟩ := exists_lexeme rfl ht
  cases hkind : t.kind <;> rw [hkind] at hk hl <;> try cases hk
  have hspell := text_of_lexeme hl
  rw [List.take_left] at hspell
  rw [htext, hspell]
  exact isPlainWord_text _

/-- Text that ends with a word or a mark ends neither with a blank nor with a slash. -/
theorem isSolid_source {fresh : Bool} {offset : Nat} {ts us : List Token} {z : Text} {d : Char}
    (h : scanFrom fresh offset z = ts ++ us) (hc : ∀ t ∈ ts.getLast?, t.kind.isClean = true)
    (hd : (source ts).getLast? = some d) : isSolid d = true := by
  rcases List.eq_nil_or_concat ts with rfl | ⟨ts, t, rfl⟩
  · cases hd
  · rw [List.concat_eq_append] at h hc hd
    obtain ⟨c, u, w, htext, hl⟩ := exists_lexeme h (List.mem_append_left us
      (List.mem_append_right ts (List.mem_singleton_self t)))
    refine isSolid_of_lexeme hl (hc t (by simp)) ?_
    rw [List.take_left, ← hd, source_append, source_cons, source_nil, htext, List.append_nil,
      List.getLast?_append, List.getLast?_append,
      List.getLast?_eq_some_getLast (List.cons_ne_nil c u), Option.some_or, Option.some_or]

/-- Without the word, the next word takes over what stands in front of both. -/
theorem Deletion.scan_new {pre post : List Token} {v n : Token} {x b b' l r : Text}
    (hd : Deletion v n x b b' l)
    (hs : scan (source pre ++ Deletion.old v n r) = pre ++ v :: n :: post)
    (hc : ∀ t ∈ pre.getLast?, t.kind.isClean = true) :
    ∃ post', scan (source pre ++ Deletion.new n x l r) =
        pre ++ ⟨n.kind, x ++ l, n.text, 0 + byteSize (source pre) + byteSize (x ++ l)⟩ :: post' ∧
      post = post'.map (shift (byteSize b + byteSize v.text + byteSize b')) := by
  have hne : Deletion.old v n r ≠ [] := by
    obtain ⟨c, u, hvt, -⟩ := exists_of_isPlainWord hd.word
    rw [Deletion.old, hvt]
    simp
  have hscan := hs
  rw [scan] at hscan
  have hmid := scanFrom_rest hscan
  have hcont : Continues pre (Deletion.old v n r) (Deletion.new n x l r) := by
    refine ⟨hd.follows hmid, fun _ hlast => ?_, fun h => absurd h hne⟩
    exact absurd (isSolid_source hscan hc hlast) (by decide)
  obtain ⟨post', hnew, hpost⟩ := hd.scanFrom_new hmid
  exact ⟨post', by rw [scan, scanFrom_append hcont hscan, hnew], hpost⟩

/-- Neither the word nor the blanks that go with it break a line. -/
theorem Deletion.count_newline {v n : Token} {x b b' l : Text} (hd : Deletion v n x b b' l) :
    (v.leading ++ v.text ++ n.leading).count '\n' = (x ++ l).count '\n' := by
  have hcount : ∀ w : Text, (∀ c ∈ w, isIndent c = true) → w.count '\n' = 0 := by
    intro w hw
    exact List.count_eq_zero.2 fun hm => ne_newline_of_isIndent (hw _ hm) rfl
  rw [hd.before, hd.after]
  simp only [List.count_append, hcount b hd.blanks, hcount b' hd.blanks',
    List.count_eq_zero.2 (newline_notMem_of_isPlainWord hd.word)]
  omega

end Token

namespace Modifier

open Token

/-- The blanks at the end of a text. -/
def blanksAtEnd (p : Text) : Text :=
  (p.reverse.takeWhile isIndent).reverse

theorem append_blanksAtEnd (p : Text) :
    (p.reverse.dropWhile isIndent).reverse ++ blanksAtEnd p = p := by
  rw [blanksAtEnd, ← List.reverse_append, List.takeWhile_append_dropWhile, List.reverse_reverse]

theorem isIndent_of_mem_blanksAtEnd {p : Text} {c : Char} (h : c ∈ blanksAtEnd p) :
    isIndent c = true :=
  List.all_eq_true.1 List.all_takeWhile c (List.mem_reverse.1 h)

/-- A token between `p` and `q` is removed with the blanks behind it, with those in front of it, or
alone. -/
theorem exists_removal_eq (p q : Text) {t : Token} (hstart : t.start = byteSize p) :
    ∃ x b b' l, p = x ++ b ∧ q = b' ++ l ∧ (b = [] ∨ b = blanksAtEnd p) ∧
      (b' = [] ∨ b' = q.takeWhile isIndent) ∧ (b = [] ∨ b' = []) ∧
      removal (p ++ t.text ++ q) t =
        .delete (byteSize x) (byteSize (x ++ (b ++ t.text ++ b'))) := by
  have hstop : t.stop = byteSize (p ++ t.text) := by rw [stop, hstart, byteSize_append]
  have htrailing : blanksAfter (p ++ t.text ++ q) t.stop = (q.takeWhile isIndent).length := by
    rw [blanksAfter, hstop, dropBytes_append]
  have hline : takeBytes t.start (p ++ t.text ++ q) = p := by
    rw [hstart, List.append_assoc, takeBytes_append]
  unfold removal
  dsimp only
  rw [htrailing, hline, takeWhile_reverse_lastLine]
  -- three edits: with the blanks behind the word, with those in front of it, the word alone
  split
  · refine ⟨p, [], q.takeWhile isIndent, q.dropWhile isIndent, (List.append_nil p).symm,
      List.takeWhile_append_dropWhile.symm, Or.inl rfl, Or.inr rfl, Or.inl rfl, ?_⟩
    have hsize : t.stop + (q.takeWhile isIndent).length =
        byteSize (p ++ ([] ++ t.text ++ q.takeWhile isIndent)) := by
      rw [hstop, ← byteSize_of_isIndent fun c hc => List.all_eq_true.1 List.all_takeWhile c hc,
        ← byteSize_append, List.append_assoc, List.nil_append]
    rw [hstart, hsize]
  · split
    · refine ⟨_, blanksAtEnd p, [], q, (append_blanksAtEnd p).symm, rfl, Or.inr rfl, Or.inl rfl,
        Or.inr rfl, ?_⟩
      have hblanks : byteSize (blanksAtEnd p) = (p.reverse.takeWhile isIndent).length := by
        rw [byteSize_of_isIndent fun c hc => isIndent_of_mem_blanksAtEnd hc, blanksAtEnd,
          List.length_reverse]
      have hsize : t.start - (p.reverse.takeWhile isIndent).length =
          byteSize (p.reverse.dropWhile isIndent).reverse := by
        rw [hstart, ← hblanks, ← append_blanksAtEnd p, byteSize_append, append_blanksAtEnd,
          Nat.add_sub_cancel]
      have hcut : p ++ t.text =
          (p.reverse.dropWhile isIndent).reverse ++ (blanksAtEnd p ++ t.text ++ []) := by
        rw [List.append_nil, ← List.append_assoc, append_blanksAtEnd]
      rw [hsize, hstop, hcut]
    · refine ⟨p, [], [], q, (List.append_nil p).symm, rfl, Or.inl rfl, Or.inl rfl, Or.inl rfl, ?_⟩
      rw [hstart, hstop, List.append_nil, List.nil_append]

/-- The edit that removes a token can be performed. -/
theorem applyAll_removal_eq {text x b b' l : Text} {t : Token}
    (htext : text = x ++ b ++ t.text ++ (b' ++ l))
    (he : removal text t = .delete (byteSize x) (byteSize (x ++ (b ++ t.text ++ b')))) :
    Edit.applyAll [removal text t] text = .ok (x ++ l) := by
  have hcut : text = x ++ (b ++ t.text ++ b') ++ l := by
    rw [htext]
    simp only [List.append_assoc]
  rw [he, hcut, Edit.applyAll_delete]

/-- The edit that removes a word deletes it with the blanks on one side of it. -/
theorem exists_deletion {text : Text} {pre post : List Token} {v n : Token}
    (hs : scan text = pre ++ v :: n :: post) (hv : isPlainWord v.text = true)
    (hn : isPlainWord n.text = true) (hc : ∀ t ∈ pre.getLast?, t.kind.isClean = true) :
    ∃ x b b' l r, Deletion v n x b b' l ∧ text = source pre ++ Deletion.old v n r ∧
      removal text v = .delete (byteSize (source pre ++ x))
        (byteSize (source pre ++ x ++ (b ++ v.text ++ b'))) ∧
      Edit.applyAll [removal text v] text = .ok (source pre ++ Deletion.new n x l r) := by
  obtain ⟨tail, hcut, hstart⟩ := exists_cut_of_scan hs
  obtain ⟨e, u, hnt, hne, -⟩ := exists_of_isPlainWord hn
  let r := source post ++ tail
  have hback : source (n :: post) ++ tail = n.leading ++ (n.text ++ r) := by
    rw [source_cons]
    simp only [List.append_assoc, r]
  rw [hback] at hcut
  obtain ⟨x, b, b', l, hx, hl, hb, hb', hside, hedit⟩ :=
    exists_removal_eq (source pre ++ v.leading) (n.leading ++ (n.text ++ r)) hstart
  rw [← hcut] at hedit
  -- no blank ends the tokens in front, so the blanks in front of the word lead it
  have hfront : ∃ y, v.leading = y ++ b ∧ x = source pre ++ y := by
    rcases hb with rfl | hb
    · exact ⟨v.leading, (List.append_nil _).symm, by rw [hx, List.append_nil]⟩
    · have hblanks : b = blanksAtEnd v.leading := by
        rw [hb, blanksAtEnd, List.reverse_append, takeWhile_isIndent_append, blanksAtEnd]
        intro c hcm
        rw [List.head?_reverse] at hcm
        have hsolid := isSolid_source hs hc hcm
        refine Bool.eq_false_iff.2 fun hi => ?_
        rw [isSolid, isBlank_of_isIndent hi] at hsolid
        cases hsolid
      have hlead := append_blanksAtEnd v.leading
      rw [← hblanks] at hlead
      refine ⟨_, hlead.symm, (List.append_left_inj b).1 ?_⟩
      rw [← hx, List.append_assoc, hlead]
  -- those behind it lead the next word
  have hback : ∃ z, n.leading = b' ++ z ∧ l = z ++ (n.text ++ r) := by
    rcases hb' with rfl | hb'
    · exact ⟨n.leading, rfl, hl.symm⟩
    · have hblanks : b' = n.leading.takeWhile isIndent := by
        rw [hb', takeWhile_isIndent_append]
        intro c hcm
        rw [hnt] at hcm
        rw [← Option.some.inj hcm]
        exact isIndent_of_isAlpha hne
      have hlead := List.takeWhile_append_dropWhile (p := isIndent) (l := n.leading)
      rw [← hblanks] at hlead
      refine ⟨_, hlead.symm, (List.append_right_inj b').1 ?_⟩
      rw [← hl, ← List.append_assoc b', hlead]
  obtain ⟨y, hy, rfl⟩ := hfront
  obtain ⟨z, hz, rfl⟩ := hback
  have hindent : ∀ c ∈ b, isIndent c = true := fun c hcm => by
    rcases hb with rfl | rfl
    · cases hcm
    · exact isIndent_of_mem_blanksAtEnd hcm
  have hindent' : ∀ c ∈ b', isIndent c = true := fun c hcm => by
    rcases hb' with rfl | rfl
    · cases hcm
    · exact List.all_eq_true.1 List.all_takeWhile c hcm
  refine ⟨y, b, b', z, r, ⟨hy, hz, hindent, hindent', hside, hv, hn⟩, ?_, hedit, ?_⟩
  · rw [hcut, Deletion.old]
    simp only [List.append_assoc]
  · rw [applyAll_removal_eq (by rw [← hx, ← hl]; exact hcut) hedit, Deletion.new, List.append_assoc]

/-- Removing a word leaves the other tokens, and every line break. It puts nothing but blanks
between tokens that only blanks separated, and nothing after the last token. -/
theorem removal_spec {text : Text} {pre post : List Token} {v n : Token}
    (hs : scan text = pre ++ v :: n :: post) (hv : isPlainWord v.text = true)
    (hn : isPlainWord n.text = true) (hc : ∀ t ∈ pre.getLast?, t.kind.isClean = true) :
    ∃ text' n' post', Edit.applyAll [removal text v] text = .ok text' ∧
      scan text' = pre ++ n' :: post' ∧ (n' :: post').map bare = (n :: post).map bare ∧
      text'.count '\n' = text.count '\n' ∧
      ((∀ t ∈ v :: n :: post, t.Spaced) → ∀ t ∈ n' :: post', t.Spaced) ∧
      (source (scan text) = text → source (scan text') = text') := by
  obtain ⟨x, b, b', l, r, hd, rfl, -, happly⟩ := exists_deletion hs hv hn hc
  obtain ⟨post', hscan', hpost⟩ := hd.scan_new hs hc
  refine ⟨source pre ++ Deletion.new n x l r, _, post', happly, hscan', ?_, ?_,
    fun hspaced t ht => ?_, fun hsource => ?_⟩
  · rw [hpost, List.map_cons, List.map_cons, List.map_map]
    rfl
  · have hcount := hd.count_newline
    simp only [Deletion.new, Deletion.old, List.count_append] at hcount ⊢
    omega
  · rcases List.mem_cons.1 ht with rfl | ht
    · -- what stands in front of `n` now stood in front of `v` or of `n`
      intro c hc
      rcases List.mem_append.1 hc with hc | hc
      · exact hspaced v List.mem_cons_self c (by rw [hd.before]; exact List.mem_append_left b hc)
      · exact hspaced n (List.mem_cons_of_mem v List.mem_cons_self) c
          (by rw [hd.after]; exact List.mem_append_right b' hc)
    · have hmem : shift (byteSize b + byteSize v.text + byteSize b') t ∈ post := by
        rw [hpost]
        exact List.mem_map_of_mem ht
      have hshift := hspaced _ (List.mem_cons_of_mem v (List.mem_cons_of_mem n hmem))
      exact hshift
  · -- the text ends with the last token, before as after
    rw [hs, source_append, source_cons, source_cons] at hsource
    have hrest := List.append_cancel_left hsource
    simp only [Deletion.old, List.append_assoc] at hrest
    have hr : source post = r := List.append_cancel_left (List.append_cancel_left
      (List.append_cancel_left (List.append_cancel_left hrest)))
    rw [hscan', source_append, source_cons, ← hr, hpost, source_map_shift, Deletion.new]
    simp only [List.append_assoc]

end Modifier

end EventLint
