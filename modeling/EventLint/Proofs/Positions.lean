import EventLint.Proofs.Lines

/-!
# Byte offsets as lines and columns

Lines are counted over characters, offsets over bytes. Main statement: the line of an offset is told
by the line feeds among the bytes in front of it and the column by the distance to the last of them;
every search among the starts of the lines leads to that line; and line and column grow with the
offset.
-/

namespace EventLint

namespace Text

/-! ## 1. Bytes -/

/-- The UTF-8 form of a text. -/
def utf8 (cs : Text) : List UInt8 :=
  cs.flatMap String.utf8EncodeChar

/-- The byte that ends a line. -/
def lineFeed : UInt8 := 10

theorem utf8_cons (c : Char) (cs : Text) : utf8 (c :: cs) = String.utf8EncodeChar c ++ utf8 cs :=
  List.flatMap_cons

theorem utf8EncodeChar_newline : String.utf8EncodeChar '\n' = [lineFeed] := rfl

/-- No other character has the byte of a line feed in its form. -/
theorem lineFeed_notMem_utf8EncodeChar {c : Char} (hc : c ≠ '\n') :
    lineFeed ∉ String.utf8EncodeChar c := by
  have hten : c.val.toNat ≠ 10 := fun h => hc (Char.ext (UInt32.toNat_inj.1 h))
  have hbyte : ∀ n, n < 256 → n ≠ 10 → lineFeed ≠ UInt8.ofNat n := by
    intro n hn hne h
    have hval : lineFeed.toNat = n := by rw [h, UInt8.toNat_ofNat_of_lt' hn]
    exact hne hval.symm
  have hlong : ∀ n, 128 ≤ n → n < 256 → lineFeed ≠ UInt8.ofNat n := fun n h hn =>
    hbyte n hn (by omega)
  intro hmem
  rw [String.utf8EncodeChar] at hmem
  split at hmem
  · exact hbyte _ (by omega) hten (List.mem_singleton.1 hmem)
  -- a longer form starts with a mark of its length and goes on with six bits in each byte
  split at hmem
  · simp only [List.mem_cons, List.not_mem_nil, or_false] at hmem
    rcases hmem with h | h <;> exact hlong _ (by omega) (by omega) h
  split at hmem <;> simp only [List.mem_cons, List.not_mem_nil, or_false] at hmem
  · rcases hmem with h | h | h <;> exact hlong _ (by omega) (by omega) h
  · rcases hmem with h | h | h | h <;> exact hlong _ (by omega) (by omega) h

/-- The line that holds byte `offset` starts at byte `start`: a line feed ends the line before it,
and none comes between. -/
structure LineStartsAt (cs : Text) (offset start : Nat) : Prop where
  le : start ≤ offset
  first : start = 0 ∨ (utf8 cs)[start - 1]? = some lineFeed
  unbroken : lineFeed ∉ ((utf8 cs).take offset).drop start

end Text

namespace LineIndex

open Text

/-! ## 2. The starts of lines -/

/-- A line starts behind every line feed. -/
theorem mem_startsFrom {offset start : Nat} {cs : Text} :
    start ∈ startsFrom offset cs ↔ ∃ i, (utf8 cs)[i]? = some lineFeed ∧ start = offset + i + 1 := by
  induction cs generalizing offset with
  | nil => simp [startsFrom, utf8]
  | cons c cs ih =>
    have hsize : (String.utf8EncodeChar c).length = c.utf8Size := String.length_utf8EncodeChar c
    by_cases hc : c = '\n'
    · subst hc
      rw [startsFrom, if_pos rfl, List.mem_cons, ih, utf8_cons, utf8EncodeChar_newline,
        List.singleton_append]
      constructor
      · rintro (rfl | ⟨i, hi, rfl⟩)
        · exact ⟨0, rfl, rfl⟩
        · exact ⟨i + 1, hi, by rw [show '\n'.utf8Size = 1 from rfl]; omega⟩
      · rintro ⟨_ | i, hi, rfl⟩
        · exact Or.inl rfl
        · exact Or.inr ⟨i, hi, by rw [show '\n'.utf8Size = 1 from rfl]; omega⟩
    · rw [startsFrom, if_neg hc, ih, utf8_cons]
      constructor
      · rintro ⟨i, hi, rfl⟩
        refine ⟨c.utf8Size + i, ?_, by omega⟩
        rwa [List.getElem?_append_right (by omega), hsize, Nat.add_sub_cancel_left]
      · rintro ⟨i, hi, rfl⟩
        -- a line feed is none of the bytes of `c`
        by_cases hlt : i < c.utf8Size
        · rw [List.getElem?_append_left (by omega)] at hi
          exact absurd (List.mem_of_getElem? hi) (lineFeed_notMem_utf8EncodeChar hc)
        · rw [List.getElem?_append_right (by omega), hsize] at hi
          exact ⟨i - c.utf8Size, hi, by omega⟩

theorem pairwise_startsFrom (offset : Nat) (cs : Text) :
    (startsFrom offset cs).Pairwise (· < ·) := by
  induction cs generalizing offset with
  | nil => exact .nil
  | cons c cs ih =>
    rw [startsFrom]
    split
    · exact .cons (fun _ h => lt_of_mem_startsFrom h) (ih _)
    · exact ih _

theorem pairwise_starts (cs : Text) : (ofText cs).starts.Pairwise (· < ·) :=
  .cons (fun _ h => lt_of_mem_startsFrom h) (pairwise_startsFrom 0 cs)

theorem takeWhile_le_eq_nil {offset : Nat} {starts : List Nat} (h : ∀ s ∈ starts, offset < s) :
    starts.takeWhile (· ≤ offset) = [] := by
  cases starts with
  | nil => rfl
  | cons s starts =>
    have hlate : ¬ s ≤ offset := Nat.not_le.2 (h s List.mem_cons_self)
    rw [List.takeWhile_cons, decide_eq_false hlate, if_neg Bool.false_ne_true]

/-- As many lines start up to an offset as line feeds stand before it. -/
theorem length_takeWhile_eq_count (offset k : Nat) (cs : Text) :
    ((startsFrom k cs).takeWhile (· ≤ k + offset)).length =
      ((utf8 cs).take offset).count lineFeed := by
  induction cs generalizing offset k with
  | nil => simp [startsFrom, utf8]
  | cons c cs ih =>
    have hsize : (String.utf8EncodeChar c).length = c.utf8Size := String.length_utf8EncodeChar c
    rw [utf8_cons, List.take_append, List.count_append, hsize]
    by_cases hc : c = '\n'
    · subst hc
      rw [startsFrom, if_pos rfl, show '\n'.utf8Size = 1 from rfl, utf8EncodeChar_newline]
      cases offset with
      | zero => simp
      | succ n =>
        have hreached : k + 1 ≤ k + (n + 1) := by omega
        rw [List.takeWhile_cons, decide_eq_true hreached, if_pos rfl, List.length_cons,
          Nat.add_sub_cancel, ← ih n (k + 1), show k + 1 + n = k + (n + 1) by omega]
        simp [Nat.add_comm]
    · have hnone : ((String.utf8EncodeChar c).take offset).count lineFeed = 0 :=
        List.count_eq_zero.2 fun h => lineFeed_notMem_utf8EncodeChar hc (List.mem_of_mem_take h)
      rw [startsFrom, if_neg hc, hnone, Nat.zero_add]
      by_cases hle : c.utf8Size ≤ offset
      · rw [← ih (offset - c.utf8Size) (k + c.utf8Size),
          show k + c.utf8Size + (offset - c.utf8Size) = k + offset by omega]
      · -- the offset lies inside the character, before the next line
        rw [show offset - c.utf8Size = 0 by omega, List.take_zero, List.count_nil,
          takeWhile_le_eq_nil fun s hs => ?_, List.length_nil]
        have hlt := lt_of_mem_startsFrom hs
        omega

theorem line_eq_count (offset : Nat) (cs : Text) :
    (ofText cs).line offset = 1 + ((utf8 cs).take offset).count lineFeed := by
  have hcount := length_takeWhile_eq_count offset 0 cs
  rw [Nat.zero_add] at hcount
  rw [line, takeWhile_starts, List.length_cons, hcount, Nat.add_comm]

/-! ## 3. The line of an offset -/

/-- The line is where the starts up to the offset end. -/
theorem eq_line {offset i : Nat} {cs : Text} (hi : i ≤ (ofText cs).starts.length)
    (hbefore : ∀ s ∈ (ofText cs).starts.take i, s ≤ offset)
    (hafter : ∀ s ∈ (ofText cs).starts.drop i, offset < s) : (ofText cs).line offset = i := by
  rw [line]
  conv => lhs; rw [← List.take_append_drop i (ofText cs).starts]
  rw [List.takeWhile_append_of_pos fun s hs => decide_eq_true (hbefore s hs),
    takeWhile_le_eq_nil hafter, List.append_nil, List.length_take, Nat.min_eq_left hi]

/-- A place where a line starts stands on that line. -/
theorem line_of_getElem? {offset i : Nat} {cs : Text}
    (h : (ofText cs).starts[i]? = some offset) : (ofText cs).line offset = i + 1 := by
  obtain ⟨hi, hget⟩ := List.getElem?_eq_some_iff.1 h
  have hpairs := List.pairwise_iff_getElem.1 (pairwise_starts cs)
  refine eq_line hi (fun s hs => ?_) fun s hs => ?_
  · obtain ⟨j, hj, rfl⟩ := List.mem_take_iff_getElem.1 hs
    rcases Nat.lt_or_eq_of_le (show j ≤ i by omega) with hlt | rfl
    · exact hget ▸ Nat.le_of_lt (hpairs j i _ hi hlt)
    · exact Nat.le_of_eq hget
  · obtain ⟨j, hj, rfl⟩ := List.mem_drop_iff_getElem.1 hs
    exact hget ▸ hpairs i (i + 1 + j) hi _ (by omega)

/-- The search for an offset among the starts of the lines may end where the offset stands, or where
it would have to stand; the line follows from either. -/
structure Searched (index : LineIndex) (offset line : Nat) : Prop where
  found : ∀ i, index.starts[i]? = some offset → line = i + 1
  missed : ∀ i ≤ index.starts.length, (∀ s ∈ index.starts.take i, s < offset) →
    (∀ s ∈ index.starts.drop i, offset < s) → line = i

theorem searched_line (offset : Nat) (cs : Text) :
    (ofText cs).Searched offset ((ofText cs).line offset) where
  found _ h := line_of_getElem? h
  missed _ hi hbefore hafter := eq_line hi (fun s hs => Nat.le_of_lt (hbefore s hs)) hafter

theorem exists_start (offset : Nat) (cs : Text) :
    ∃ start, (ofText cs).starts[(ofText cs).line offset - 1]? = some start ∧
      (ofText cs).lineStart offset = start ∧ start ≤ offset ∧
      start + ((ofText cs).column offset - 1) = offset := by
  obtain ⟨start, hline, hle, hstart⟩ := exists_lineStart offset cs
  have hpos : (ofText cs).line offset - 1 + 1 = (ofText cs).line offset := by
    rw [line_eq_count]
    omega
  refine ⟨start, by rw [getElem?_starts, hpos, hline], hstart, hle, ?_⟩
  rw [column, hstart]
  omega

/-- The line that the index gives starts where the line of the offset starts. -/
theorem lineStartsAt {offset start : Nat} {cs : Text}
    (h : (ofText cs).starts[(ofText cs).line offset - 1]? = some start) (hle : start ≤ offset) :
    LineStartsAt cs offset start where
  le := hle
  first := by
    rcases List.mem_cons.1 (List.mem_of_getElem? h) with rfl | hmem
    · exact Or.inl rfl
    · obtain ⟨i, hi, rfl⟩ := mem_startsFrom.1 hmem
      exact Or.inr (by rwa [Nat.zero_add, Nat.add_sub_cancel])
  unbroken := by
    -- both offsets are on one line, so no line feed is counted between them
    have hline := line_of_getElem? h
    rw [line_eq_count, line_eq_count, Nat.add_sub_cancel_left] at hline
    have hsplit := congrArg (List.count lineFeed)
      (List.take_append_drop start ((utf8 cs).take offset))
    rw [List.count_append, List.take_take, Nat.min_eq_left hle] at hsplit
    exact List.count_eq_zero.1 (by omega)

/-! ## 4. Order -/

theorem line_le {offset offset' : Nat} (h : offset ≤ offset') (cs : Text) :
    (ofText cs).line offset ≤ (ofText cs).line offset' := by
  rw [line_eq_count, line_eq_count]
  exact Nat.add_le_add_left ((List.take_sublist_take_left h).count_le lineFeed) 1

/-- Line and column grow with the offset. -/
theorem line_column_lt {offset offset' : Nat} (h : offset < offset') (cs : Text) :
    Prod.Lex (· < ·) (· < ·) ((ofText cs).line offset, (ofText cs).column offset)
      ((ofText cs).line offset', (ofText cs).column offset') := by
  rcases Nat.lt_or_eq_of_le (line_le (Nat.le_of_lt h) cs) with hlt | heq
  · exact .left _ _ hlt
  · obtain ⟨start, hstart, -, -, hcolumn⟩ := exists_start offset cs
    obtain ⟨start', hstart', -, -, hcolumn'⟩ := exists_start offset' cs
    rw [← heq, hstart] at hstart'
    obtain rfl := Option.some.inj hstart'
    rw [heq]
    exact .right _ (by omega)

/-- The position that the index of a text gives for a byte offset, also past the end of the text:
the line counts the line feeds in front, however the starts of the lines are searched; the column
counts the bytes from the start of that line; and a later offset has a later position. -/
theorem ofText_position (cs : Text) (offset : Nat) :
    let index := ofText cs
    index.line offset = 1 + ((utf8 cs).take offset).count lineFeed ∧
      index.Searched offset (index.line offset) ∧
      1 ≤ index.column offset ∧
      (∃ start, index.starts[index.line offset - 1]? = some start ∧
        index.lineStart offset = start ∧ LineStartsAt cs offset start ∧
        start + (index.column offset - 1) = offset) ∧
      ∀ offset', offset < offset' →
        Prod.Lex (· < ·) (· < ·) (index.line offset, index.column offset)
          (index.line offset', index.column offset') := by
  intro index
  obtain ⟨start, hstart, hline, hle, hcolumn⟩ := exists_start offset cs
  exact ⟨line_eq_count offset cs, searched_line offset cs, Nat.le_add_left 1 _,
    ⟨start, hstart, hline, lineStartsAt hstart hle, hcolumn⟩, fun _ h => line_column_lt h cs⟩

/-- A line feed stands on the line that it ends, and an offset past the end on the last line. -/
theorem ofText_position_pastEnd :
    let index := ofText "é\n\nb".toList
    2 < 9 ∧ (index.line 2, index.column 2) = (1, 3) ∧ (index.line 9, index.column 9) = (3, 6) ∧
      Prod.Lex (· < ·) (· < ·) (index.line 2, index.column 2) (index.line 9, index.column 9) :=
  ⟨by decide, by decide +kernel, by decide +kernel,
    (ofText_position "é\n\nb".toList 2).2.2.2.2 9 (by decide)⟩

end LineIndex

end EventLint
