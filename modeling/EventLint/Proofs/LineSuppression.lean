import EventLint.Proofs.Positions
import EventLint.Proofs.Reported

/-!
# Suppression by line

Findings are numbered by counting line feeds in bytes, comments by splitting the text into lines.
Main statement: both number the lines alike, whatever line breaks the text has, so what is reported
at a place is decided by the line of text around that place and by no other.
-/

namespace EventLint

/-! ## 1. Lines of text -/

namespace Text

/-- The text of a line without the carriage return that belongs to its line break. -/
def dropReturn (line : Text) : Text :=
  if line.getLast? = some '\r' then line.dropLast else line

/-- The line around byte `offset` of a text, with what stands before it and behind it: the text or a
line break on either side. A line feed counts as a place of the line that it ends. -/
structure LineCut (cs : Text) (offset : Nat) (before line rest : Text) : Prop where
  text : cs = before ++ (line ++ rest)
  opened : before = [] ∨ before.getLast? = some '\n'
  unbroken : '\n' ∉ line
  closed : rest = [] ∨ rest.head? = some '\n'
  start : byteSize before ≤ offset
  stop : offset ≤ byteSize before + byteSize line

/-- What is read of the line around byte `offset`. Where the text ends without a line break, a
carriage return belongs to the line. -/
def IsLineAt (cs : Text) (offset : Nat) (shown : Text) : Prop :=
  ∃ before line rest, LineCut cs offset before line rest ∧
    shown = if rest = [] then line else dropReturn line

/-- One more character in front of the text: it starts a line of its own, or it joins the line that
was the first. -/
theorem LineCut.cons {offset : Nat} {cs before line rest : Text} (c : Char)
    (h : LineCut cs offset before line rest) :
    ∃ before line, LineCut (c :: cs) (c.utf8Size + offset) before line rest := by
  obtain ⟨rfl, hopened, hline, hclosed, hstart, hstop⟩ := h
  -- the character joins the first line unless it ends a line or the cut is in a later one
  by_cases hjoin : before = [] ∧ c ≠ '\n'
  · obtain ⟨rfl, hc⟩ := hjoin
    rw [byteSize_nil, Nat.zero_add] at hstop
    refine ⟨[], c :: line, rfl, Or.inl rfl, ?_, hclosed, Nat.zero_le _, ?_⟩
    · rw [List.mem_cons, not_or]
      exact ⟨Ne.symm hc, hline⟩
    · rw [byteSize_nil, byteSize_cons]
      omega
  · refine ⟨c :: before, line, rfl, Or.inr ?_, hline, hclosed, ?_, ?_⟩
    · rcases hopened with rfl | hopened
      · rw [Classical.not_and_iff_not_or_not, Classical.not_not] at hjoin
        rw [hjoin.resolve_left fun h => h rfl]
        rfl
      · rw [List.getLast?_cons, hopened]
        rfl
    · rw [byteSize_cons]
      omega
    · rw [byteSize_cons]
      omega

theorem LineCut.before_eq_nil {cs before line rest : Text} (h : LineCut cs 0 before line rest) :
    before = [] := by
  by_contra hne
  exact Nat.not_le.2 (byteSize_pos hne) h.start

/-- Every place of a text is on a line. -/
theorem exists_lineCut {offset : Nat} {cs : Text} (h : offset ≤ byteSize cs) :
    ∃ before line rest, LineCut cs offset before line rest := by
  induction cs generalizing offset with
  | nil => exact ⟨[], [], [], rfl, Or.inl rfl, List.not_mem_nil, Or.inl rfl, Nat.zero_le _, h⟩
  | cons c cs ih =>
    by_cases hsize : c.utf8Size ≤ offset
    · rw [byteSize_cons] at h
      obtain ⟨before, line, rest, hcut⟩ := ih (show offset - c.utf8Size ≤ byteSize cs by omega)
      obtain ⟨before, line, hcut⟩ := hcut.cons c
      rw [Nat.add_sub_cancel' hsize] at hcut
      exact ⟨before, line, rest, hcut⟩
    by_cases hc : c = '\n'
    · exact ⟨[], [], c :: cs, rfl, Or.inl rfl, List.not_mem_nil, Or.inr (by rw [hc]; rfl),
        Nat.zero_le _, by rw [hc] at hsize; exact Nat.le_of_lt_succ (Nat.not_le.1 hsize)⟩
    · -- the place is inside the first character, on the first line
      obtain ⟨before, line, rest, hcut⟩ := ih (Nat.zero_le _)
      have htext := hcut.text
      rw [hcut.before_eq_nil, List.nil_append] at htext
      refine ⟨[], c :: line, rest, by rw [htext]; rfl, Or.inl rfl, ?_, hcut.closed,
        Nat.zero_le _, ?_⟩
      · rw [List.mem_cons, not_or]
        exact ⟨Ne.symm hc, hcut.unbroken⟩
      · rw [byteSize_nil, byteSize_cons]
        omega

theorem exists_firstLine (cs : Text) : ∃ line rest, LineCut cs 0 [] line rest := by
  obtain ⟨before, line, rest, hcut⟩ := exists_lineCut (Nat.zero_le (byteSize cs))
  rw [hcut.before_eq_nil] at hcut
  exact ⟨line, rest, hcut⟩

/-! ## 2. Splitting into lines -/

theorem linesFrom_append (read text rest : Text) :
    linesFrom read (text ++ '\n' :: rest) = linesFrom read (text ++ ['\n']) ++ lines rest := by
  induction text generalizing read with
  | nil => simp [linesFrom, lines]
  | cons c text ih =>
    rw [List.cons_append, List.cons_append, linesFrom, linesFrom]
    split
    · rw [ih, List.cons_append]
    · exact ih _

theorem length_linesFrom (read text : Text) :
    (linesFrom read (text ++ ['\n'])).length = text.count '\n' + 1 := by
  induction text generalizing read with
  | nil => simp [linesFrom]
  | cons c text ih =>
    rw [List.cons_append, linesFrom]
    by_cases hc : c = '\n'
    · rw [if_pos hc, List.length_cons, ih, hc, List.count_cons_self]
    · rw [if_neg hc, ih, List.count_cons_of_ne hc]

/-- What stands behind a line break is split on its own. -/
theorem lines_append {before : Text} (h : before = [] ∨ before.getLast? = some '\n') (rest : Text) :
    lines (before ++ rest) = lines before ++ lines rest ∧
      (lines before).length = before.count '\n' := by
  rcases h with rfl | h
  · exact ⟨rfl, rfl⟩
  · obtain ⟨text, rfl⟩ := List.getLast?_eq_some_iff.1 h
    refine ⟨?_, ?_⟩
    · rw [List.append_assoc, List.singleton_append, lines, linesFrom_append]
      rfl
    · rw [lines, length_linesFrom, List.count_append]
      rfl

theorem linesFrom_of_notMem {line : Text} (hline : '\n' ∉ line) (read rest : Text) :
    linesFrom read (line ++ rest) = linesFrom (line.reverse ++ read) rest := by
  induction line generalizing read with
  | nil => rfl
  | cons c line ih =>
    rw [List.mem_cons, not_or] at hline
    rw [List.cons_append, linesFrom, if_neg (Ne.symm hline.1), ih hline.2, List.reverse_cons,
      List.append_assoc, List.singleton_append]

theorem lines_broken {line : Text} (hline : '\n' ∉ line) (after : Text) :
    lines (line ++ '\n' :: after) = dropReturn line :: lines after := by
  rw [lines, linesFrom_of_notMem hline, List.append_nil, linesFrom, if_pos rfl, List.head?_reverse,
    dropReturn, lines]
  split
  · rw [List.tail_reverse, List.reverse_reverse]
  · rw [List.reverse_reverse]

theorem lines_last {line : Text} (hline : '\n' ∉ line) :
    lines line = if line = [] then [] else [line] := by
  have hlines := linesFrom_of_notMem hline [] []
  rw [List.append_nil, List.append_nil, linesFrom, List.isEmpty_reverse,
    List.reverse_reverse] at hlines
  rw [lines, hlines]
  simp only [List.isEmpty_iff]

theorem length_linesFrom_le (read cs : Text) :
    (linesFrom read cs).length ≤ cs.count '\n' + 1 := by
  induction cs generalizing read with
  | nil =>
    rw [linesFrom]
    split <;> simp
  | cons c cs ih =>
    rw [linesFrom]
    by_cases hc : c = '\n'
    · rw [if_pos hc, hc, List.length_cons, List.count_cons_self]
      exact Nat.add_le_add_right (ih []) 1
    · rw [if_neg hc, List.count_cons_of_ne hc]
      exact ih _

/-- The lines of a text around one of them. An empty last line is not listed. -/
theorem LineCut.lines_eq {offset : Nat} {cs before line rest : Text}
    (h : LineCut cs offset before line rest) :
    (lines cs)[before.count '\n']? =
      if rest = [] ∧ line = [] then none
      else some (if rest = [] then line else dropReturn line) := by
  obtain ⟨hsplit, hlength⟩ := lines_append h.opened (line ++ rest)
  rw [h.text, hsplit, List.getElem?_append_right (Nat.le_of_eq hlength), hlength, Nat.sub_self]
  rcases h.closed with hrest | hrest
  · rw [hrest, List.append_nil, lines_last h.unbroken]
    by_cases hline : line = []
    · rw [if_pos hline, if_pos ⟨rfl, hline⟩, List.getElem?_nil]
    · rw [if_neg hline, if_neg fun h => hline h.2, if_pos rfl, List.getElem?_cons_zero]
  · obtain ⟨after, rfl⟩ := List.head?_eq_some_iff.1 hrest
    have hne : '\n' :: after ≠ [] := List.cons_ne_nil _ _
    rw [lines_broken h.unbroken, if_neg fun h => hne h.1, if_neg hne, List.getElem?_cons_zero]

end Text

theorem LineIndex.length_startsFrom (offset : Nat) (cs : Text) :
    (startsFrom offset cs).length = cs.count '\n' := by
  induction cs generalizing offset with
  | nil => rfl
  | cons c cs ih =>
    rw [startsFrom]
    by_cases hc : c = '\n'
    · rw [if_pos hc, hc, List.length_cons, ih, List.count_cons_self]
    · rw [if_neg hc, ih, List.count_cons_of_ne hc]

/-- The number of a line counts the line feeds before it. -/
theorem Text.LineCut.line_eq {offset : Nat} {cs before line rest : Text}
    (h : LineCut cs offset before line rest) :
    (LineIndex.ofText cs).line offset = before.count '\n' + 1 := by
  have hfirst := LineIndex.line_byteSize before (line ++ rest)
  have hlast := LineIndex.line_byteSize (before ++ line) rest
  rw [← h.text] at hfirst
  rw [List.append_assoc, ← h.text, byteSize_append, List.count_append,
    List.count_eq_zero.2 h.unbroken, Nat.add_zero] at hlast
  -- the line is the same at both ends of the piece
  have hle := LineIndex.line_le h.start cs
  have hge := LineIndex.line_le h.stop cs
  omega

/-! ## 3. Suppression -/

namespace Suppression

open Text

theorem ofLine?_nil : ofLine? [] = none := by
  rw [ofLine?]

theorem ofLine?_cons {c : Char} (hc : c ≠ '/') (line : Text) :
    ofLine? (c :: line) = ofLine? line := by
  rw [ofLine?]
  exact fun _ hslash _ => hc hslash

theorem ofLine?_append {front : Text} (h : '/' ∉ front) (rest : Text) :
    ofLine? (front ++ rest) = ofLine? rest := by
  induction front with
  | nil => rfl
  | cons c front ih =>
    rw [List.mem_cons, not_or] at h
    rw [List.cons_append, ofLine?_cons (Ne.symm h.1), ih h.2]

/-- What these lines suppress, if the first of them has the number `k + 1`. -/
def numbered (k : Nat) (ls : List Text) : Lines :=
  (ls.zipIdx k).filterMap fun (line, i) => (ofLine? line).map fun s => (i + 1, s)

theorem numbered_cons (k : Nat) (line : Text) (ls : List Text) :
    numbered k (line :: ls) =
      ((ofLine? line).map fun s => (k + 1, s)).toList ++ numbered (k + 1) ls := by
  rw [numbered, List.zipIdx_cons, List.filterMap_cons, numbered]
  dsimp only
  cases (ofLine? line).map fun s => (k + 1, s) <;> rfl

theorem lookup_numbered_of_le {n k : Nat} (h : n ≤ k) (ls : List Text) :
    (numbered k ls).lookup n = none := by
  refine List.lookup_eq_none_iff.2 fun (m, s) hm => ?_
  obtain ⟨⟨line, i⟩, hi, hs⟩ := List.mem_filterMap.1 hm
  obtain ⟨t, -, ht⟩ := Option.map_eq_some_iff.1 hs
  have hk := (List.mem_zipIdx hi).1
  have hnumber : i + 1 = m := congrArg Prod.fst ht
  exact bne_iff_ne.2 (show n ≠ m by omega)

theorem lookup_numbered (k n : Nat) (ls : List Text) :
    (numbered k ls).lookup (k + n + 1) = ls[n]?.bind ofLine? := by
  induction ls generalizing k n with
  | nil => rfl
  | cons line ls ih =>
    rw [numbered_cons]
    cases n with
    | zero =>
      rw [List.getElem?_cons_zero, Option.bind_some, Nat.add_zero]
      cases ofLine? line with
      | none => exact lookup_numbered_of_le (Nat.le_refl _) ls
      | some s => exact List.lookup_cons_self
    | succ n =>
      rw [List.getElem?_cons_succ, ← ih (k + 1) n, Nat.add_right_comm k 1 n]
      cases ofLine? line with
      | none => rfl
      | some s =>
        have hne : (k + (n + 1) + 1 == k + 1) = false := beq_false_of_ne (by omega)
        rw [Option.map_some, Option.toList_some, List.singleton_append, List.lookup_cons, hne]
        rfl

/-- What a line of a text suppresses is looked up under its number. -/
theorem lookup_ofText (cs : Text) (n : Nat) :
    (ofText cs).lookup (n + 1) = (lines cs)[n]?.bind ofLine? := by
  have hlookup := lookup_numbered 0 n (lines cs)
  rwa [Nat.zero_add] at hlookup

/-- A suppression covers the rule with this id. -/
def covers : Suppression → Text → Bool
  | all, _ => true
  | only ids, id => ids.contains id

theorem suppresses_eq (suppressed : Lines) (line : Nat) (id : Text) :
    suppressed.suppresses line id = (suppressed.lookup line).any (·.covers id) := by
  rw [Lines.suppresses]
  rcases suppressed.lookup line with _ | (_ | ids) <;> rfl

/-- The number that the index gives for a place leads to what the line around it suppresses. -/
theorem lookup_line {offset : Nat} {cs : Text} (h : offset ≤ byteSize cs) :
    ∃ line, (∀ l, IsLineAt cs offset l ↔ l = line) ∧
      (ofText cs).lookup ((LineIndex.ofText cs).line offset) = ofLine? line := by
  -- an empty line at the end is not listed, but suppresses nothing either
  have hlisted : ∀ {before line rest : Text}, LineCut cs offset before line rest →
      (if rest = [] then line else dropReturn line) =
        (lines cs)[(LineIndex.ofText cs).line offset - 1]?.getD [] := by
    intro before line rest hcut
    rw [hcut.line_eq, Nat.add_sub_cancel, hcut.lines_eq]
    by_cases hempty : rest = [] ∧ line = []
    · rw [if_pos hempty, if_pos hempty.1, hempty.2, Option.getD_none]
    · rw [if_neg hempty, Option.getD_some]
  obtain ⟨before, line, rest, hcut⟩ := exists_lineCut h
  refine ⟨if rest = [] then line else dropReturn line, fun l => ⟨?_, ?_⟩, ?_⟩
  · rintro ⟨before', line', rest', hcut', rfl⟩
    rw [hlisted hcut', hlisted hcut]
  · rintro rfl
    exact ⟨before, line, rest, hcut, rfl⟩
  · rw [hlisted hcut, hcut.line_eq, lookup_ofText, Nat.add_sub_cancel]
    cases (lines cs)[before.count '\n']? with
    | none => exact ofLine?_nil.symm
    | some l => rfl

theorem lookup_of_lineCount_lt {n : Nat} {cs : Text} (h : (LineIndex.ofText cs).lineCount < n) :
    (ofText cs).lookup n = none := by
  obtain ⟨m, rfl⟩ : ∃ m, n = m + 1 := ⟨n - 1, by omega⟩
  have hlines := length_linesFrom_le [] cs
  rw [LineIndex.lineCount, LineIndex.ofText, List.length_cons, LineIndex.length_startsFrom] at h
  rw [lookup_ofText, List.getElem?_eq_none (show (lines cs).length ≤ m by rw [lines]; omega)]
  rfl

end Suppression

namespace Document

open EventLint.Tree Token Text

/-- A finding stands inside the text. -/
theorem start_le_of_mem_findings {cs : Text} {messages : Messages} {file : String} {f : Diagnostic}
    (h : f ∈ (ofText cs).findings messages file) :
    f.line = (LineIndex.ofText cs).line f.span.start ∧ f.span.start ≤ byteSize cs := by
  obtain ⟨e, he, rfl⟩ := List.mem_map.1 h
  have hnodup : (ofText cs).root.leaves.Nodup := (inOrder_ofText cs).nodup
  obtain ⟨n, hn, hevent, -⟩ := (mem_virtualEvents_iff _ (flatEvents_ofTokens _) hnodup).1 he
  have hname := mem_scan_of_mem_leaves hn (Event.views_of_ofTree? hevent).name
  obtain ⟨before, after, htext, hstart, -⟩ := exists_of_slice (slice?_token hname)
  refine ⟨rfl, show e.nameToken.span.start ≤ byteSize cs from ?_⟩
  rw [text_ofText] at htext
  rw [hstart, htext, byteSize_append, byteSize_append]
  omega

/-- A finding is reported unless the settings ignore its rule or its own line suppresses it. -/
theorem mem_diagnostics_iff {cs : Text} {settings : Settings} {file : String} {f : Diagnostic} :
    f ∈ (ofText cs).diagnostics settings file ↔
      f ∈ (ofText cs).findings settings.messages file ∧ settings.ignores f.rule.id = false ∧
        ∃ line, IsLineAt cs f.span.start line ∧
          (Suppression.ofLine? line).any (·.covers f.rule.id.toList) = false := by
  rw [diagnostics, List.mem_mergeSort, List.mem_filter, Bool.and_eq_true, Bool.not_eq_true',
    Bool.not_eq_true', text_ofText, Suppression.suppresses_eq, and_congr_right_iff]
  intro hfound
  obtain ⟨hline, hstart⟩ := start_le_of_mem_findings hfound
  obtain ⟨line, hunique, hlookup⟩ := Suppression.lookup_line hstart
  rw [hline, hlookup, and_comm, and_congr_right_iff]
  intro _
  constructor
  · exact fun h => ⟨line, (hunique line).2 rfl, h⟩
  · rintro ⟨l, hl, h⟩
    rwa [(hunique l).1 hl] at h

end Document

/-- The number of a place leads to what the line of text around it suppresses, no line behind the
last suppresses anything, and a finding is dropped by its own line only. -/
theorem Suppression.ofText_byLine (cs : Text) :
    let suppressed := Suppression.ofText cs
    let index := LineIndex.ofText cs
    (∀ offset ≤ Text.byteSize cs, ∃ line, (∀ l, Text.IsLineAt cs offset l ↔ l = line) ∧
      suppressed.lookup (index.line offset) = ofLine? line) ∧
    (∀ n, index.lineCount < n → suppressed.lookup n = none) ∧
    ∀ (settings : Settings) (file : String) (f : Diagnostic),
      f ∈ (Document.ofText cs).diagnostics settings file ↔
        f ∈ (Document.ofText cs).findings settings.messages file ∧
          settings.ignores f.rule.id = false ∧
          ∃ line, Text.IsLineAt cs f.span.start line ∧
            (ofLine? line).any (·.covers f.rule.id.toList) = false :=
  ⟨fun _ h => lookup_line h, fun _ h => lookup_of_lineCount_lt h,
    fun _ _ _ => Document.mem_diagnostics_iff⟩

/-- Behind two line breaks of different kinds a lone carriage return ends no line, and the comment
on the first line does not count. -/
theorem Suppression.ofText_byLine_returns :
    let cs := "a // noqa\r\n\nb\r// noqa: x".toList
    let last := "b\r// noqa: x".toList
    12 ≤ Text.byteSize cs ∧ Text.IsLineAt cs 12 last ∧ 3 < 4 ∧
      (Suppression.ofText cs).lookup ((LineIndex.ofText cs).line 12) = some (.only ["X".toList]) ∧
      (Suppression.ofText cs).lookup 4 = none := by
  intro cs last
  have hlast : Text.IsLineAt cs 12 last :=
    ⟨"a // noqa\r\n\n".toList, last, [],
      ⟨rfl, by decide, by decide, by decide, by decide, by decide⟩, rfl⟩
  have hinside : 12 ≤ Text.byteSize cs := by decide
  obtain ⟨line, hline, hlookup⟩ := (Suppression.ofText_byLine cs).1 12 hinside
  have hbehind := (Suppression.ofText_byLine cs).2.1 4 (by decide +kernel)
  refine ⟨hinside, hlast, by decide, ?_, hbehind⟩
  rw [hlookup, ← (hline last).1 hlast]
  decide +kernel

end EventLint
