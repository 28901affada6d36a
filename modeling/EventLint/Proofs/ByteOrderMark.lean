import EventLint.Proofs.GlobalAttribute
import EventLint.Proofs.LineSuppression

/-!
# A byte order mark in front of a file

The mark is no blank, so it is read as a token that means nothing, and a member without structure
starts with it. Main statement: what this member takes of the file is not looked into, and whatever
is found behind it is reported as before, three bytes farther on. So the mark makes no difference
in front of a directive or a namespace without braces, and hides a first type with all its events.
-/

namespace EventLint

/-! ## 1. A character in front of a text -/

namespace LineIndex

open Text

section

variable {c : Char} (hc : c ≠ '\n') (offset : Nat) (cs : Text)

include hc

/-- The line starts at and before a place, with a character more in front of the text. -/
theorem takeWhile_starts_cons :
    (ofText (c :: cs)).starts.takeWhile (· ≤ offset + c.utf8Size) =
      0 :: ((startsFrom 0 cs).takeWhile (· ≤ offset)).map (· + c.utf8Size) := by
  rw [takeWhile_starts, startsFrom, if_neg hc, startsFrom_add, takeWhile_map_add]

theorem line_cons : (ofText (c :: cs)).line (offset + c.utf8Size) = (ofText cs).line offset := by
  rw [line, line, takeWhile_starts_cons hc, takeWhile_starts, List.length_cons, List.length_cons,
    List.length_map]

/-- Only the first line is longer. -/
theorem column_cons :
    (ofText (c :: cs)).column (offset + c.utf8Size) =
      if (ofText cs).line offset = 1 then (ofText cs).column offset + c.utf8Size
      else (ofText cs).column offset := by
  rw [column, column, lineStart, lineStart, line, takeWhile_starts_cons hc, takeWhile_starts]
  -- on the first line there is no start to move
  rcases List.eq_nil_or_concat ((startsFrom 0 cs).takeWhile (· ≤ offset)) with hnil | ⟨xs, x, hx⟩
  · rw [hnil, if_pos List.length_singleton]
    exact Nat.add_right_comm offset c.utf8Size 1
  · rw [hx, List.length_cons, if_neg (by simp), List.map_concat, List.getLast?_cons,
      List.getLast?_cons]
    simp only [List.concat_eq_append, List.getLast?_concat, Option.getD_some]
    rw [Nat.add_sub_add_right]

end

end LineIndex

namespace Suppression

open Text

theorem ofLine?_dropReturn_cons {c : Char} (hc : c ≠ '/') (line : Text) :
    ofLine? (dropReturn (c :: line)) = ofLine? (dropReturn line) := by
  cases line with
  | nil =>
    rw [dropReturn]
    split
    · rfl
    · exact ofLine?_cons hc []
  | cons d line =>
    rw [dropReturn, dropReturn, List.getLast?_cons_cons]
    split
    · exact ofLine?_cons hc _
    · exact ofLine?_cons hc _

/-- A character that is part of no comment and no line break changes nothing in what the lines of a
text suppress. -/
theorem ofText_cons {c : Char} (hbreak : c ≠ '\n') (hslash : c ≠ '/') (cs : Text) :
    ofText (c :: cs) = ofText cs := by
  obtain ⟨line, rest, hcut⟩ := exists_firstLine cs
  have hline : '\n' ∉ c :: line := by
    rw [List.mem_cons, not_or]
    exact ⟨Ne.symm hbreak, hcut.unbroken⟩
  have hnumbered : ∀ text, ofText text = numbered 0 (lines text) := fun _ => rfl
  rw [hcut.text, List.nil_append, hnumbered, hnumbered]
  rcases hcut.closed with rfl | hrest
  · rw [List.append_nil, lines_last hline, if_neg (List.cons_ne_nil _ _), numbered_cons,
      ofLine?_cons hslash, lines_last hcut.unbroken]
    split
    · rename_i hnil
      rw [hnil, ofLine?_nil]
      rfl
    · rw [numbered_cons]
  · obtain ⟨after, rfl⟩ := List.head?_eq_some_iff.1 hrest
    rw [← List.cons_append, lines_broken hline, lines_broken hcut.unbroken, numbered_cons,
      numbered_cons, ofLine?_dropReturn_cons hslash]

end Suppression

/-! ## 2. What is reported at marks -/

/-- The diagnostic with `k` bytes more in front of the text, on its first line. -/
def Diagnostic.moved (k : Nat) (d : Diagnostic) : Diagnostic :=
  { d with
    column := if d.line = 1 then d.column + k else d.column
    span := ⟨d.span.start + k, d.span.stop + k⟩ }

namespace Mark

/-- What is reported at a mark of a text. -/
def diagnostic (settings : Settings) (file : String) (text : Text) (m : Mark) : Diagnostic where
  rule := m.rule
  message := settings.messages.about m.name
  eventName := m.name
  file := file
  line := (LineIndex.ofText text).line m.start
  column := (LineIndex.ofText text).column m.start
  span := ⟨m.start, m.start + Text.byteSize m.name⟩

section

variable {c : Char} (hbreak : c ≠ '\n')

include hbreak

theorem isKept_cons (hslash : c ≠ '/') (settings : Settings) (text : Text) (m : Mark) :
    (m.moved c.utf8Size).isKept settings (c :: text) = m.isKept settings text := by
  simp only [isKept, moved, LineIndex.line_cons hbreak, Suppression.ofText_cons hbreak hslash]

theorem diagnostic_cons (settings : Settings) (file : String) (text : Text) (m : Mark) :
    (m.moved c.utf8Size).diagnostic settings file (c :: text) =
      (m.diagnostic settings file text).moved c.utf8Size := by
  rw [diagnostic, show (m.moved c.utf8Size).start = m.start + c.utf8Size from rfl,
    LineIndex.line_cons hbreak, LineIndex.column_cons hbreak, Nat.add_right_comm]
  rfl

end

end Mark

/-- The diagnostics at these marks of a text, less those that are suppressed or ignored. -/
def diagnosticsAt (settings : Settings) (file : String) (text : Text) (marks : List Mark) :
    List Diagnostic :=
  (marks.filter (Mark.isKept settings text)).map (Mark.diagnostic settings file text)

theorem diagnosticsAt_append (settings : Settings) (file : String) (text : Text)
    (marks more : List Mark) :
    diagnosticsAt settings file text (marks ++ more) =
      diagnosticsAt settings file text marks ++ diagnosticsAt settings file text more := by
  rw [diagnosticsAt, List.filter_append, List.map_append]
  rfl

theorem diagnosticsAt_cons {c : Char} (hbreak : c ≠ '\n') (hslash : c ≠ '/') (settings : Settings)
    (file : String) (text : Text) (marks : List Mark) :
    diagnosticsAt settings file (c :: text) (marks.map (Mark.moved c.utf8Size)) =
      (diagnosticsAt settings file text marks).map (Diagnostic.moved c.utf8Size) := by
  have hkept : Mark.isKept settings (c :: text) ∘ Mark.moved c.utf8Size =
      Mark.isKept settings text :=
    funext fun m => m.isKept_cons hbreak hslash settings text
  rw [diagnosticsAt, diagnosticsAt, List.filter_map, List.map_map, List.map_map, hkept]
  exact List.map_congr_left fun m _ => m.diagnostic_cons hbreak settings file text

/-- The diagnostics of a text are those at its marks. -/
theorem Document.diagnostics_eq_at (settings : Settings) (file : String) (text : Text) :
    (ofText text).diagnostics settings file =
      diagnosticsAt settings file text (Tree.ofTokens (Token.scan text)).marks := by
  rw [diagnostics_eq_map_filter, diagnosticsAt, Tree.marks, List.filter_map, List.map_map]
  rfl

/-! ## 3. The tokens of a line that has started -/

namespace Trivia

open Text

/-- A text starts with a directive line. -/
def opensDirective (cs : Text) : Bool :=
  (cs.dropWhile fun c => isBlank c && c ≠ '\n').head? = some '#'

theorem extent_of_opensDirective {cs : Text} (h : opensDirective cs = false) (fresh : Bool) :
    extent fresh cs = extent true cs := by
  induction cs generalizing fresh with
  | nil => rw [extent, extent]
  | cons c rest ih =>
    cases hb : isBlank c with
    | true =>
      have hi : ∀ fresh, item? fresh c rest = some (0, fresh || c = '\n') := fun fresh => by
        rw [item?, if_pos hb]
      rw [extent_of_item? (hi fresh), extent_of_item? (hi true), List.drop_zero]
      by_cases hn : c = '\n'
      · -- a line break starts a new line in either case
        rw [decide_eq_true hn, Bool.or_true, Bool.or_true]
      · rw [opensDirective, List.dropWhile_cons_of_pos (by simp [hb, hn])] at h
        rw [decide_eq_false hn, Bool.or_false, Bool.or_false, ih h fresh]
    | false =>
      have hc : c ≠ '#' := by
        rw [opensDirective, List.dropWhile_cons_of_neg (by simp [hb])] at h
        exact fun hc => of_decide_eq_false h (congrArg some hc)
      have hi : item? fresh c rest = item? true c rest := by
        rw [item?, item?, decide_eq_false hc, Bool.false_and, Bool.false_and, hb]
        rfl
      rw [extent_cons, extent_cons, hi]

end Trivia

namespace Token

open Text Trivia

/-- In front of a text that starts with no directive, it does not matter whether its first line has
started before. -/
theorem scanFrom_of_opensDirective {cs : Text} (h : opensDirective cs = false) (fresh : Bool)
    (offset : Nat) : scanFrom fresh offset cs = scanFrom true offset cs := by
  have hextent := extent_of_opensDirective h
  generalize hts : scanFrom true offset cs = ts
  cases ts with
  | nil => rwa [scanFrom_eq_nil_iff, hextent, ← scanFrom_eq_nil_iff]
  | cons t ts =>
    obtain ⟨c, u, z, htext, rfl, he, hl, hstart, rfl⟩ := exists_of_scanFrom hts
    -- behind the first token the line has started anyway
    have hblank := not_isBlank_of_item? (item?_of_extent he)
    have hfirst := @scanFrom_of_lexeme fresh offset t.leading u z c t.kind
      ((hextent fresh).trans he) hl
    rw [hfirst, htext, freshAfter_append, freshAfter_append,
      freshAfter_token hblank _ (freshAfter true t.leading), ← htext, ← hstart]

end Token

/-! ## 4. The mark as a token -/

/-- The character that may stand in front of a text to tell how it is encoded. -/
def Text.byteOrderMark : Char :=
  '\ufeff'

namespace Token

open Text

/-- A character that starts no sign of several characters is a sign of its own. -/
theorem symbol_of_single {c : Char} (hc : ∀ o ∈ operators, o.1.toList.head? ≠ some c) (cs : Text) :
    symbol c cs = (punctuationKind c, 0) := by
  have hsigns : ∀ o ∈ operators, o.1.toList ≠ [] := by decide
  unfold symbol
  split
  · rename_i sign kind hfind
    obtain ⟨d, ds, hd⟩ := List.exists_cons_of_ne_nil (hsigns _ (List.mem_of_find?_eq_some hfind))
    have hne := hc _ (List.mem_of_find?_eq_some hfind)
    have hpre := List.find?_some hfind
    rw [hd, List.head?_cons, Ne, Option.some.injEq] at hne
    dsimp only at hd hpre
    rw [hd, List.isPrefixOf, beq_false_of_ne hne, Bool.false_and] at hpre
    cases hpre
  · rfl

theorem lexeme_byteOrderMark (cs : Text) : lexeme byteOrderMark cs = (.error, 0) := by
  have hstring : Literal.stringExtent? (byteOrderMark :: cs) = none := by
    rw [Literal.stringExtent?_eq, List.dropWhile_cons_of_neg (by decide)]
    exact Literal.quotedExtent?_of_ne _ (show some byteOrderMark ≠ some '"' by decide)
  have hsymbol : symbol byteOrderMark cs = (.error, 0) := symbol_of_single (by decide) cs
  -- two of the tests look at the next character too, but fail before that
  have hat : decide (byteOrderMark = '@') = false := by decide
  have hdot : decide (byteOrderMark = '.') = false := by decide
  rw [lexeme_eq, hat, hdot, Bool.false_and, if_neg Bool.false_ne_true, Bool.false_and,
    if_neg (by decide +kernel), if_neg (by decide), hstring]
  dsimp only
  rw [if_neg (by decide), hsymbol]

/-- The mark is a token of its own, and the first line has started behind it. -/
theorem scan_byteOrderMark (cs : Text) :
    scan (byteOrderMark :: cs) =
      ⟨.error, [], [byteOrderMark], 0⟩ :: (scanFrom false 0 cs).map (shift 3) := by
  have hextent : Trivia.extent true (byteOrderMark :: cs) = 0 :=
    Trivia.extent_of_item?_eq_none (by rw [Trivia.item?, if_neg (by decide)]; rfl)
  have hfirst := @scanFrom_of_lexeme true 0 [] [] cs byteOrderMark .error hextent
    (lexeme_byteOrderMark cs)
  rw [← scanFrom_shift, scan]
  exact hfirst

end Token

namespace Tree

open Token Grammar

/-- A token that means nothing opens a member without structure. -/
theorem declaration_error {t : Token} (ht : t.kind = .error) (ts : List Token) :
    declaration .file t ts =
      (node .otherMember ((t :: ts.take (memberExtent ts)).map leaf),
        ts.drop (memberExtent ts)) := by
  obtain ⟨hleading, hwhole⟩ := @member_of_other t ts [] (by rw [ht]; decide)
  -- the member goes on behind the token as far as a member that starts there
  have hextent : otherExtent [] (t :: ts) = memberExtent ts + 1 := by
    have hmember : memberExtent (t :: ts) = 1 + memberExtent ts :=
      opaqueExtent_of_plain _ _ (by rw [ht]; rfl)
    rw [otherExtent_of_pos fun _ => by omega, hmember, Nat.add_comm]
  have hopening := @opening?_of_member .file (t :: ts) (by rw [opensMember, ht]; rfl)
  rw [hleading, hwhole, hextent, List.take_succ_cons, List.drop_succ_cons] at hopening
  exact declaration_of_whole hopening

theorem memberExtent_shift (k : Nat) (ts : List Token) :
    memberExtent (ts.map (shift k)) = memberExtent ts :=
  memberExtent_map ⟨shift k, fun _ => rfl, fun _ => rfl⟩ ts

theorem marks_error {t : Token} (ht : t.kind = .error) (ts : List Token) :
    (ofTokens (t :: ts)).marks = (ofTokens (ts.drop (memberExtent ts))).marks := by
  rw [marks_ofTokens_cons, declaration_error ht, marks_map_leaf rfl, List.nil_append]

/-- The first declaration of these tokens has braces, and `rest` stands behind them. -/
inductive Braced : List Token → List Token → Prop where
  | mk {o e : Token} {header b rest : List Token} (hheader : Nested Token.kind header)
      (hquiet : ∀ u ∈ header, u.kind ≠ .semicolon ∧ u.kind ≠ .lbrace) (ho : o.kind = .lbrace)
      (hb : Nested Token.kind b) (he : e.kind = .rbrace)
      (hrest : rest.head?.all fun u => u.kind ≠ .semicolon && u.kind ≠ .eq) :
      Braced (header ++ o :: (b ++ e :: rest)) rest

theorem Braced.drop_memberExtent {ts rest : List Token} (h : Braced ts rest) :
    ts.drop (memberExtent ts) = rest := by
  obtain ⟨hheader, hquiet, ho, hb, he, hrest⟩ := h
  exact drop_memberExtent_braces hheader hquiet ho hb he hrest

/-- A token that means nothing hides the marks `lost` of the file behind it: none if the file starts
with a directive, with a namespace without braces or with no declaration, and those of the first
declaration where a member without structure ends as this declaration does. -/
inductive Hides : List Token → List Mark → Prop where
  | nothing {ts : List Token} (h : ts.head?.all (·.kind = .rbrace)) : Hides ts []
  | declaration {t : Token} {rest : List Token}
      (h : (declaration .file t rest).2 = (t :: rest).drop (memberExtent (t :: rest))) :
      Hides (t :: rest) (declaration .file t rest).1.marks
  | directive {t e : Token} {b : List Token} (ht : t.kind = .keyword .usingKw)
      (hb : Nested Token.kind b) (hquiet : ∀ u ∈ b, u.kind ≠ .semicolon ∧ u.kind ≠ .lbrace)
      (he : e.kind = .semicolon) (rest : List Token)
      (hnext : nextIs .lparen (b ++ e :: rest) = false) : Hides (t :: (b ++ e :: rest)) []
  | fileNamespace {t e : Token} {c : List Token} (ht : t.kind = .keyword .namespaceKw)
      (hc : ∀ u ∈ c, isNamePart u = true) (he : e.kind = .semicolon) (rest : List Token) :
      Hides (t :: (c ++ e :: rest)) []

theorem Hides.marks_eq {ts : List Token} {lost : List Mark} (h : Hides ts lost) :
    (ofTokens ts).marks = lost ++ (ofTokens (ts.drop (memberExtent ts))).marks := by
  cases h with
  | nothing h =>
    have hextent : memberExtent ts = 0 := by
      cases ts with
      | nil => rw [memberExtent, opaqueExtent]
      | cons t ts => exact opaqueExtent_of_rbrace _ _ (of_decide_eq_true h)
    rw [hextent, List.drop_zero, List.nil_append]
  | declaration h => rw [← h, marks_ofTokens_cons]
  | directive ht hb hquiet he rest hnext =>
    have hspared := (Spared.directive ht hb hquiet he rest).marks_drop
    rw [hiddenExtent_of_using ht hnext] at hspared
    rw [hspared, List.nil_append]
  | fileNamespace ht hc he rest =>
    have hspared := (Spared.fileNamespace ht hc he rest).marks_drop
    rw [hiddenExtent_of_namespace ht] at hspared
    rw [hspared, List.nil_append]

end Tree

/-! ## 5. Findings behind the mark -/

namespace Document

open EventLint.Tree Token Trivia

/-- Behind a byte order mark everything is reported that a member without structure does not hide.
Of a first declaration with braces nothing is left. In front of a text that starts with no directive
line, the mark costs what would be reported in the part that is hidden, and nothing else. -/
theorem diagnostics_byteOrderMark (settings : Settings) (file : String) (source : Text) :
    let found := (ofText (Text.byteOrderMark :: source)).diagnostics settings file
    let expected := ((ofText source).diagnostics settings file).map (Diagnostic.moved 3)
    let behind := fun marks => (diagnosticsAt settings file source marks).map (Diagnostic.moved 3)
    let ts := scanFrom false 0 source
    found = behind (ofTokens (ts.drop (memberExtent ts))).marks ∧
      (∀ rest, Braced ts rest → found = behind (ofTokens rest).marks) ∧
      (opensDirective source = false → ts = scan source ∧
        ∀ lost, Hides ts lost → expected = behind lost ++ found ∧
          (found = expected ↔ behind lost = [])) := by
  intro found expected behind ts
  have hfound : found = behind (ofTokens (ts.drop (memberExtent ts))).marks := by
    -- the tokens that are left are those of the source, three bytes farther on
    have hmoved : ((ts.map (shift 3)).drop (memberExtent ts)).map (Relabelling.moved 0).apply =
        (ts.drop (memberExtent ts)).map (Relabelling.moved 3).apply := by
      rw [List.map_drop, List.map_map, List.map_drop]
      rfl
    rw [show found = _ from diagnostics_eq_at settings file _, scan_byteOrderMark, marks_error rfl,
      memberExtent_shift, marks_of_moved hmoved]
    exact diagnosticsAt_cons (by decide) (by decide) settings file source _
  refine ⟨hfound, fun rest h => ?_, fun hplain => ?_⟩
  · rw [hfound, h.drop_memberExtent]
  · have hscan : ts = scan source := scanFrom_of_opensDirective hplain false 0
    refine ⟨hscan, fun lost h => ?_⟩
    have hexpected : expected = behind lost ++ found := by
      rw [hfound, show expected = _ from congrArg _ (diagnostics_eq_at settings file source),
        ← hscan, h.marks_eq, diagnosticsAt_append, List.map_append]
    exact ⟨hexpected, by rw [hexpected, List.self_eq_append_left]⟩

/-- Behind a directive the event is found at its place, and one in a first class is not. -/
theorem diagnostics_byteOrderMark_using :
    let source := "using N;\nclass C \x7b virtual event A<B> X; \x7d".toList
    let braced := "class C \x7b virtual event A X; \x7d".toList
    opensDirective source = false ∧ Hides (scanFrom false 0 source) [] ∧
      Braced (scanFrom false 0 braced) [] ∧
      ((ofText (Text.byteOrderMark :: source)).diagnostics {} "C.cs").map
        (fun d => (d.line, d.column, d.span)) = [(2, 30, ⟨41, 42⟩)] ∧
      (ofText (Text.byteOrderMark :: braced)).diagnostics {} "C.cs" = [] := by
  intro source braced
  have hplain : opensDirective source = false := by decide +kernel
  have hsource : scanFrom false 0 source = ⟨.keyword .usingKw, [], "using".toList, 0⟩ ::
      ([⟨.ident, [' '], "N".toList, 6⟩] ++ ⟨.semicolon, [], ";".toList, 7⟩ ::
        (scanFrom false 0 source).drop 3) := by
    decide +kernel
  have hbraced : scanFrom false 0 braced =
      [⟨.keyword .classKw, [], "class".toList, 0⟩, ⟨.ident, [' '], "C".toList, 6⟩] ++
        ⟨.lbrace, [' '], "\x7b".toList, 8⟩ ::
        ([⟨.keyword .virtualKw, [' '], "virtual".toList, 10⟩,
          ⟨.keyword .eventKw, [' '], "event".toList, 18⟩, ⟨.ident, [' '], "A".toList, 24⟩,
          ⟨.ident, [' '], "X".toList, 26⟩, ⟨.semicolon, [], ";".toList, 27⟩] ++
        [⟨.rbrace, [' '], "\x7d".toList, 29⟩]) := by
    decide +kernel
  have hspared : Hides (scanFrom false 0 source) [] := by
    rw [hsource]
    exact .directive rfl (.singleton rfl rfl) (by simp) rfl _ rfl
  have hhidden : Braced (scanFrom false 0 braced) [] := by
    rw [hbraced]
    exact .mk (.plain rfl rfl (.singleton rfl rfl)) (by simp) rfl
      (.plain rfl rfl (.plain rfl rfl (.plain rfl rfl (.plain rfl rfl (.singleton rfl rfl))))) rfl
      rfl
  refine ⟨hplain, hspared, hhidden, ?_, ?_⟩
  · rw [(((diagnostics_byteOrderMark {} "C.cs" source).2.2 hplain).2 [] hspared).2.2 rfl]
    decide +kernel
  · rw [(diagnostics_byteOrderMark {} "C.cs" braced).2.1 [] hhidden]
    decide +kernel

/-- Behind a byte order mark the only event of a class is not found. -/
theorem diagnostics_byteOrderMark_class :
    let source := "class C \x7b public virtual event EventHandler<EventArgs> Changed; \x7d".toList
    ((ofText source).diagnostics {} "Test0.cs").map (·.eventName) = ["Changed".toList] ∧
      (ofText (Text.byteOrderMark :: source)).diagnostics {} "Test0.cs" = [] := by
  decide +kernel

end Document

end EventLint
