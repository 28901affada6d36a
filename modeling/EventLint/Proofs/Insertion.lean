import EventLint.Fix.Action
import EventLint.Proofs.Nodes
import EventLint.Proofs.Spacing

/-!
# Adding text after a member

Where added text goes, and what a scan finds afterwards. Main statements: if only blanks separate
the tokens, text goes right behind the member, and all tokens of the old text are found again
around those of the added text.
-/

namespace EventLint

open Text

/-! ## 1. Line breaks and indentation -/

namespace Text

theorem newline_cases (cs : Text) : newline cs = ['\n'] ∨ newline cs = ['\r', '\n'] := by
  induction cs with
  | nil => exact Or.inl rfl
  | cons c cs ih =>
    rw [newline]
    split
    · exact Or.inl rfl
    · split
      · exact Or.inr rfl
      · exact ih

theorem isBlank_of_mem_newline {cs : Text} {c : Char} (h : c ∈ newline cs) : isBlank c = true := by
  rcases newline_cases cs with hn | hn <;> rw [hn] at h
  · rw [List.mem_singleton.1 h]
    decide
  · rcases List.mem_cons.1 h with rfl | h
    · decide
    · rw [List.mem_singleton.1 h]
      decide

theorem isBlank_of_mem_indentAt {offset : Nat} {cs : Text} {c : Char} (h : c ∈ indentAt offset cs) :
    isBlank c = true :=
  isBlank_of_isIndent (List.all_eq_true.1 List.all_takeWhile c h)

end Text

theorem RaiseMethod.isBlank_of_mem_indentStep {indent : Text} {c : Char}
    (h : c ∈ indentStep indent) : isBlank c = true := by
  unfold indentStep at h
  split at h
  · rw [List.mem_singleton.1 h]
    decide
  · rw [show "    ".toList = List.replicate 4 ' ' from rfl] at h
    rw [List.eq_of_mem_replicate h]
    decide

/-! ## 2. Where text is added -/

/-- Blanks and a comment to the end of the line. -/
def Text.IsLineComment (c : Text) : Prop :=
  ∃ b w, c = b ++ '/' :: '/' :: w ∧ (∀ d ∈ b, isBlank d = true) ∧ '\n' ∉ c

/-- The text starts with the end of a line. -/
def Text.EndsLine (z : Text) : Prop :=
  ∃ r u, z = r ++ u ∧ (r = [] ∨ r = ['\r']) ∧ ∀ c ∈ u.head?, c = '\n'

/-- A carriage return at the end of a line does not belong to the comment in front of it. -/
theorem Text.exists_isLineComment {line : Text}
    (h : "//".toList.isPrefixOf (trimStart line) = true) (hbreak : '\n' ∉ line) :
    ∃ c r, line = c ++ r ∧ IsLineComment c ∧ (r = [] ∨ r = ['\r']) ∧
      byteSize r = if line.getLast? = some '\r' then 1 else 0 := by
  obtain ⟨w, hw⟩ := List.isPrefixOf_iff_prefix.1 h
  have hb : ∀ d ∈ line.takeWhile isBlank, isBlank d = true := List.all_eq_true.1 List.all_takeWhile
  have hline : line.takeWhile isBlank ++ '/' :: '/' :: w = line := by
    exact (congrArg (line.takeWhile isBlank ++ ·) hw).trans List.takeWhile_append_dropWhile
  by_cases hlast : line.getLast? = some '\r'
  · -- the slashes are not the end of the line, so the carriage return stands behind them
    rw [if_pos hlast]
    obtain rfl | ⟨v, d, rfl⟩ := List.eq_nil_or_concat' w
    · rw [← hline, List.getLast?_append] at hlast
      cases hlast
    · rw [← List.cons_append, ← List.cons_append, ← List.append_assoc] at hline
      rw [← hline, List.getLast?_concat] at hlast
      obtain rfl := Option.some.inj hlast
      refine ⟨_, _, hline.symm, ⟨_, v, rfl, hb, fun hm => hbreak ?_⟩, Or.inr rfl, rfl⟩
      rw [← hline]
      exact List.mem_append_left _ hm
  · refine ⟨line, [], (List.append_nil line).symm, ⟨_, w, hline.symm, hb, hbreak⟩, Or.inl rfl, ?_⟩
    rw [if_neg hlast, byteSize_nil]

/-- No comment follows where a token does. -/
theorem Trivia.not_comment_of_item? {fresh : Bool} {b w : Text} {c : Char}
    (hb : ∀ d ∈ b, isBlank d = true) (hi : item? fresh c w = none) :
    "//".toList.isPrefixOf (trimStart ((b ++ c :: w).takeWhile (· ≠ '\n'))) = false := by
  have hc := not_isBlank_of_item? hi
  have hline : c ≠ '\n' := by
    rintro rfl
    exact absurd hc (by decide)
  have hslash : ¬ (c = '/' ∧ w.head? = some '/') := by
    rintro ⟨rfl, hw⟩
    rw [item?, hc, hw] at hi
    cases hi
  -- a line break among the blanks ends the line that is looked at
  induction b with
  | nil =>
    rw [List.nil_append, List.takeWhile_cons, if_pos (by simp [hline]), trimStart,
      List.dropWhile_cons_of_neg (by simp [hc])]
    refine Bool.eq_false_iff.2 fun hp => hslash ?_
    cases w with
    | nil => simp [List.isPrefixOf] at hp
    | cons d w =>
      by_cases hd : d = '\n'
      · simp [List.isPrefixOf, hd] at hp
      · simp [List.isPrefixOf, hd] at hp
        exact ⟨hp.1.symm, by rw [← hp.2]; rfl⟩
  | cons d b ih =>
    have hd := hb d List.mem_cons_self
    rw [List.cons_append, List.takeWhile_cons]
    split
    · rw [trimStart, List.dropWhile_cons_of_pos hd]
      exact ih fun e he => hb e (List.mem_cons_of_mem d he)
    · rfl

namespace Document

open Token

/-- Text is added right behind a member, or behind the comment at the end of its line. -/
theorem exists_insertionPoint {text a y : Text} {n : Tree} (htext : text = a ++ y)
    (hstop : ((ofText text).spanOf n).stop = byteSize a) :
    ∃ c z, y = c ++ z ∧ (ofText text).insertionPoint n = byteSize (a ++ c) ∧
      (c = [] ∨ IsLineComment c ∧ EndsLine z) := by
  rw [insertionPoint, hstop, text_ofText]
  conv => enter [1, c, 1, z, 2, 1, 1]; rw [htext]
  rw [dropBytes_append]
  split
  · rename_i hcomment
    -- the comment is looked for in the rest of the line only
    have hbreak : '\n' ∉ y.takeWhile (· ≠ '\n') := fun hm => by
      simpa using List.all_eq_true.1 List.all_takeWhile _ hm
    obtain ⟨c, r, hline, hc, hr, hsize⟩ := exists_isLineComment hcomment hbreak
    refine ⟨c, r ++ y.dropWhile (· ≠ '\n'), ?_, ?_, Or.inr ⟨hc, r, _, rfl, hr, fun d hd => ?_⟩⟩
    · rw [← List.append_assoc, ← hline, List.takeWhile_append_dropWhile]
    · rw [← hsize, hline, byteSize_append, byteSize_append]
      omega
    · have hstop := List.head?_dropWhile_not (fun c => decide (c ≠ '\n')) y
      rw [hd] at hstop
      simpa using hstop
  · exact ⟨[], y, rfl, by rw [List.append_nil], Or.inl rfl⟩

theorem spanOf_stop {text : Text} {n : Tree} {front us : List Token}
    (hscan : scan text = front ++ n.leaves ++ us) (hne : n.leaves ≠ []) :
    ((ofText text).spanOf n).stop = byteSize (source (front ++ n.leaves)) := by
  have hplace := scan_inPlace text
  rw [hscan] at hplace
  obtain ⟨ts, last, hlast⟩ := List.eq_nil_or_concat' n.leaves |>.resolve_left hne
  rw [spanOf, Tree.span_of_leaves _ (List.head?_eq_some_head hne)
    (show n.leaves.getLast? = some last by rw [hlast, List.getLast?_concat])]
  show last.stop = _
  rw [← (InPlace.append_iff.1 hplace).1.lastStop_eq, hlast, ← List.append_assoc, lastStop,
    List.getLast?_concat]
  rfl

/-- Text is added right behind a member if only blanks separate the tokens. -/
theorem insertionPoint_eq {text : Text} {n : Tree} {front us : List Token}
    (hscan : scan text = front ++ n.leaves ++ us) (htext : source (scan text) = text)
    (hne : n.leaves ≠ []) (hspaced : ∀ u ∈ us, u.Spaced) :
    (ofText text).insertionPoint n = byteSize (source (front ++ n.leaves)) := by
  have hstop := spanOf_stop hscan hne
  have hrest : text = source (front ++ n.leaves) ++ source us := by
    rw [← source_append, ← hscan, htext]
  rw [insertionPoint, hstop, text_ofText]
  conv_lhs => rw [hrest]
  rw [dropBytes_append]
  -- blanks and then a token, if any, stand behind the member: no comment belongs to it
  refine if_neg (Bool.not_eq_true _ ▸ ?_)
  cases us with
  | nil => rfl
  | cons u us =>
    have hscan' : scanFrom true 0 (source (front ++ n.leaves) ++ source (u :: us)) =
        front ++ n.leaves ++ u :: us := by
      rw [← hrest, ← hscan]
      rfl
    obtain ⟨c, w, z, -, hz, he, -, -, -⟩ := exists_of_scanFrom (scanFrom_rest hscan')
    rw [hz] at he ⊢
    rw [Trivia.extent_blanks _ (hspaced u List.mem_cons_self)] at he
    exact Trivia.not_comment_of_item? (hspaced u List.mem_cons_self)
      (Trivia.item?_eq_none_iff.2 (Nat.add_left_cancel he))

end Document

/-! ## 3. The scan after an addition -/

namespace Token

theorem scanFrom_eq_shift (fresh : Bool) (offset : Nat) (cs : Text) :
    scanFrom fresh offset cs = (scanFrom fresh 0 cs).map (shift offset) := by
  rw [← scanFrom_shift, Nat.zero_add]

/-- The same tokens at other places. -/
def Moved (us us' : List Token) : Prop :=
  ∃ ts j k, us = List.map (shift j) ts ∧ us' = List.map (shift k) ts

section

variable {us us' : List Token}

theorem moved_scanFrom (fresh : Bool) (a b : Nat) (cs : Text) :
    Moved (scanFrom fresh a cs) (scanFrom fresh b cs) :=
  ⟨_, a, b, scanFrom_eq_shift fresh a cs, scanFrom_eq_shift fresh b cs⟩

theorem Moved.bare (h : Moved us us') : us'.map bare = us.map bare := by
  obtain ⟨ts, j, k, rfl, rfl⟩ := h
  rw [List.map_map, List.map_map]
  rfl

theorem Moved.source (h : Moved us us') : source us' = source us := by
  obtain ⟨ts, j, k, rfl, rfl⟩ := h
  rw [source_map_shift, source_map_shift]

theorem Moved.spaced (h : Moved us us') (hs : ∀ t ∈ us, t.Spaced) : ∀ t ∈ us', t.Spaced := by
  obtain ⟨ts, j, k, rfl, rfl⟩ := h
  intro t ht
  obtain ⟨u, hu, rfl⟩ := List.mem_map.1 ht
  have hu := hs (shift j u) (List.mem_map_of_mem hu)
  exact hu

end

/-- Text added behind a mark is scanned to tokens of its own. -/
theorem scan_insert {rest : Text} {ts us : List Token} {ps : List Piece}
    (hs : scan (source ts ++ rest) = ts ++ us)
    (hfresh : Trivia.freshAfter true (source ts) = false)
    (hclean : ∀ t ∈ ts.getLast?, t.kind.isClean = true) (hchain : Chain ps rest)
    (hblank : ∃ b z, spread ps rest = b :: z ∧ isBlank b = true) (hne : ps ≠ []) :
    ∃ ms us', scan (source ts ++ spread ps rest) = ts ++ (ms ++ us') ∧
      ms.map bare = ps.map Prod.snd ∧ spread ps rest = source ms ++ rest ∧
      (∀ t ∈ ms, t.Spaced) ∧ Moved us us' := by
  obtain ⟨b, z, hb, hblank⟩ := hblank
  -- the blank in front of the first piece ends the last token as `rest` did
  have hcont : Continues ts rest (spread ps rest) := by
    rw [hb]
    refine ⟨follows_blank rest hblank z, fun hslash => ?_, fun _ => hclean⟩
    rw [Option.some.inj hslash] at hblank
    exact absurd hblank (by decide)
  have hrest := scanFrom_rest hs
  rw [hfresh] at hrest
  obtain ⟨ms, offset, hms, hbare, hsource, hspaced⟩ :=
    scanFrom_spread hchain hne false (0 + byteSize (source ts))
  refine ⟨ms, scanFrom false offset rest, ?_, hbare, hsource, hspaced, ?_⟩
  · rw [scan, scanFrom_append hcont hs, hfresh, hms]
  · rw [← hrest]
    exact moved_scanFrom false _ _ rest

end Token

end EventLint
