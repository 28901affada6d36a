import EventLint.Line

/-!
# Lines and columns

A line and a column name a place in a text. Main statement: the line and the column that the index
of a text gives for a place name that place.
-/

namespace EventLint

namespace Text

/-- Where the line with this number starts, counted from 1, if the text has so many lines. -/
def lineStart? : Nat → Text → Option Nat
  | 0, _ => none
  | 1, _ => some 0
  | _ + 2, [] => none
  | n + 2, c :: cs =>
    (lineStart? (if c = '\n' then n + 1 else n + 2) cs).map (c.utf8Size + ·)

/-- The place with this line and this column, both counted from 1. -/
def offset? (line column : Nat) (cs : Text) : Option Nat :=
  if column = 0 then none else (lineStart? line cs).map (· + (column - 1))

end Text

namespace LineIndex

open Text

/-- The index holds where the lines after the first start. -/
theorem getElem?_startsFrom (offset n : Nat) (cs : Text) :
    (startsFrom offset cs)[n]? = (lineStart? (n + 2) cs).map (offset + ·) := by
  induction cs generalizing offset n with
  | nil => rfl
  | cons c cs ih =>
    rw [startsFrom, lineStart?]
    by_cases hc : c = '\n'
    · rw [if_pos hc, if_pos hc]
      -- a line feed ends the first line, and what follows it is line two
      cases n with
      | zero => simp [lineStart?]
      | succ n =>
        rw [List.getElem?_cons_succ, ih, Option.map_map]
        simp only [Function.comp_def, Nat.add_assoc]
    · rw [if_neg hc, if_neg hc, ih, Option.map_map]
      simp only [Function.comp_def, Nat.add_assoc]

theorem getElem?_starts (n : Nat) (cs : Text) :
    (ofText cs).starts[n]? = lineStart? (n + 1) cs := by
  cases n with
  | zero => rw [ofText, List.getElem?_cons_zero, Nat.zero_add, lineStart?]
  | succ n =>
    rw [ofText, List.getElem?_cons_succ, getElem?_startsFrom]
    simp

/-- The first line has started at every place. -/
theorem takeWhile_starts (offset : Nat) (cs : Text) :
    (ofText cs).starts.takeWhile (· ≤ offset) = 0 :: (startsFrom 0 cs).takeWhile (· ≤ offset) :=
  List.takeWhile_cons_of_pos (decide_eq_true (Nat.zero_le offset))

/-- The line that holds a place starts at it or before. -/
theorem exists_lineStart (offset : Nat) (cs : Text) :
    ∃ start, lineStart? ((ofText cs).line offset) cs = some start ∧ start ≤ offset ∧
      (ofText cs).lineStart offset = start := by
  generalize hw : (ofText cs).starts.takeWhile (· ≤ offset) = before
  have hne : before ≠ [] := by
    rw [← hw, takeWhile_starts]
    exact List.cons_ne_nil _ _
  -- `before` has one start for each line up to the one that holds the place
  refine ⟨before.getLast hne, ?_, ?_, ?_⟩
  · have hpos : 0 < before.length := List.length_pos_iff.2 hne
    have hsplit := List.takeWhile_append_dropWhile (p := (decide <| · ≤ offset))
      (l := (ofText cs).starts)
    rw [hw] at hsplit
    rw [line, hw, ← Nat.sub_add_cancel hpos, ← getElem?_starts, ← hsplit,
      List.getElem?_append_left (by omega), ← List.getLast?_eq_getElem?,
      List.getLast?_eq_some_getLast hne]
  · have hall := List.all_takeWhile (p := (decide <| · ≤ offset)) (l := (ofText cs).starts)
    rw [hw] at hall
    exact of_decide_eq_true (List.all_eq_true.1 hall _ (List.getLast_mem hne))
  · rw [lineStart, hw, List.getLast?_eq_some_getLast hne, Option.getD_some]

/-- Line and column lead back to the place they were computed for. -/
theorem offset?_line_column (offset : Nat) (cs : Text) :
    offset? ((ofText cs).line offset) ((ofText cs).column offset) cs = some offset := by
  obtain ⟨start, hline, hle, hstart⟩ := exists_lineStart offset cs
  have hcolumn : (ofText cs).column offset = offset - start + 1 := by
    rw [column, hstart]
  rw [offset?, hline, hcolumn, if_neg (Nat.succ_ne_zero _), Option.map_some, Nat.add_sub_cancel,
    Nat.add_sub_cancel' hle]

theorem lt_of_mem_startsFrom {offset start : Nat} {cs : Text} (h : start ∈ startsFrom offset cs) :
    offset < start := by
  induction cs generalizing offset with
  | nil => cases h
  | cons c cs ih =>
    have hpos := c.utf8Size_pos
    rw [startsFrom] at h
    split at h
    · rcases List.mem_cons.1 h with rfl | h
      · omega
      · have := ih h
        omega
    · have := ih h
      omega

theorem startsFrom_add (offset k : Nat) (cs : Text) :
    startsFrom (offset + k) cs = (startsFrom offset cs).map (· + k) := by
  induction cs generalizing offset with
  | nil => rfl
  | cons c cs ih =>
    rw [startsFrom, startsFrom, Nat.add_right_comm, ih]
    split <;> rfl

theorem takeWhile_map_add (offset k : Nat) (starts : List Nat) :
    (starts.map (· + k)).takeWhile (· ≤ offset + k) =
      (starts.takeWhile (· ≤ offset)).map (· + k) := by
  have hle : ((decide <| · ≤ offset + k) ∘ (· + k)) = (decide <| · ≤ offset) :=
    funext fun n => decide_eq_decide.2 (Nat.add_le_add_iff_right ..)
  rw [List.takeWhile_map, hle]

theorem length_takeWhile_startsFrom (start offset : Nat) (a b : Text) :
    ((startsFrom start (a ++ b)).takeWhile (· ≤ offset + (start + byteSize a))).length =
      a.count '\n' + ((startsFrom 0 b).takeWhile (· ≤ offset)).length := by
  induction a generalizing start with
  | nil =>
    have hstarts : startsFrom start b = (startsFrom 0 b).map (· + start) := by
      rw [← startsFrom_add, Nat.zero_add]
    rw [List.nil_append, byteSize_nil, Nat.add_zero, hstarts, takeWhile_map_add, List.length_map,
      List.count_nil, Nat.zero_add]
  | cons c a ih =>
    have hsize : start + byteSize (c :: a) = start + c.utf8Size + byteSize a := by
      rw [byteSize_cons, Nat.add_assoc]
    rw [List.cons_append, startsFrom, hsize]
    by_cases hc : c = '\n'
    · have hreached : start + c.utf8Size ≤ offset + (start + c.utf8Size + byteSize a) := by omega
      rw [if_pos hc, List.takeWhile_cons, decide_eq_true hreached, if_pos rfl, List.length_cons, ih,
        hc, List.count_cons_self, Nat.add_right_comm]
    · rw [if_neg hc, ih, List.count_cons_of_ne hc]

/-- A place behind `a` is as many lines further down as `a` has line breaks. -/
theorem line_append (offset : Nat) (a b : Text) :
    (ofText (a ++ b)).line (offset + byteSize a) = (ofText b).line offset + a.count '\n' := by
  have hcount := length_takeWhile_startsFrom 0 offset a b
  rw [Nat.zero_add] at hcount
  rw [line, line, takeWhile_starts, takeWhile_starts, List.length_cons, List.length_cons, hcount]
  omega

theorem line_zero (cs : Text) : (ofText cs).line 0 = 1 := by
  have hnone : (startsFrom 0 cs).takeWhile (· ≤ 0) = [] := by
    cases hs : startsFrom 0 cs with
    | nil => rfl
    | cons s rest =>
      have hlt := lt_of_mem_startsFrom (hs ▸ List.mem_cons_self)
      exact List.takeWhile_cons_of_neg (by simpa using Nat.ne_of_gt hlt)
  rw [line, takeWhile_starts, hnone, List.length_singleton]

/-- The line of a place is told by the line breaks in front of it. -/
theorem line_byteSize (a b : Text) : (ofText (a ++ b)).line (byteSize a) = a.count '\n' + 1 := by
  rw [← Nat.zero_add (byteSize a), line_append, line_zero, Nat.add_comm]

end LineIndex

namespace Text

/-- A line is a part of its text. -/
theorem part_of_mem_linesFrom {read cs line : Text} (h : line ∈ linesFrom read cs) :
    line <:+: read.reverse ++ cs := by
  -- `read` is the line so far, backwards
  induction cs generalizing read with
  | nil =>
    rw [linesFrom] at h
    split at h
    · cases h
    · rw [List.append_nil]
      exact (List.mem_singleton.1 h) ▸ List.infix_rfl
  | cons c cs ih =>
    rw [linesFrom] at h
    split at h
    · rcases List.mem_cons.1 h with rfl | h
      · refine List.IsInfix.trans ?_ (List.prefix_append read.reverse (c :: cs)).isInfix
        -- a carriage return at its end is left out
        split
        · exact List.reverse_infix.2 (List.tail_suffix read).isInfix
        · exact List.infix_rfl
      · exact (ih h).trans ((List.suffix_cons c cs).trans (List.suffix_append _ _)).isInfix
    · have hread := ih h
      rwa [List.reverse_cons, List.append_assoc] at hread

end Text

end EventLint
