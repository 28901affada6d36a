import EventLint.Proofs.Trivia
import EventLint.Token.Scan

/-!
# Where tokens stand

`Token.InPlace offset ts` says that the tokens `ts` follow each other from byte `offset` on, and
`Token.Separated before ts` that only trivia stands between them. Main statements: a scan gives such
tokens, together they spell the source up to trivia at its end, and each of them is a slice of it.
-/

namespace EventLint

open Text

/-! ## 1. Cuts of a text -/

namespace Text

theorem splitAtByte_append (a b : Text) : splitAtByte (byteSize a) (a ++ b) = some (a, b) := by
  induction a with
  | nil =>
    rw [byteSize_nil, List.nil_append, splitAtByte]
  | cons c a ih =>
    have hc := Char.utf8Size_pos c
    obtain ⟨n, hn⟩ : ∃ n, byteSize (c :: a) = n + 1 :=
      ⟨c.utf8Size + byteSize a - 1, by rw [byteSize_cons]; omega⟩
    rw [byteSize_cons] at hn
    rw [byteSize_cons, hn, List.cons_append, splitAtByte, if_pos (by omega),
      show n + 1 - c.utf8Size = byteSize a by omega, ih]
    rfl

theorem slice_append (a b c : Text) :
    slice (byteSize a) (byteSize a + byteSize b) (a ++ b ++ c) = some b := by
  unfold slice
  rw [List.append_assoc, splitAtByte_append, Option.bind_eq_bind, Option.bind_some]
  dsimp only
  rw [if_pos (Nat.le_add_right _ _), Nat.add_sub_cancel_left, splitAtByte_append]
  rfl

theorem exists_of_slice {start stop : Nat} {cs between : Text}
    (h : slice start stop cs = some between) :
    ∃ a c, cs = a ++ between ++ c ∧ start = byteSize a ∧ stop = byteSize (a ++ between) := by
  unfold slice at h
  -- a slice is cut twice, first where it starts and then where it stops
  obtain ⟨⟨a, after⟩, ha, h⟩ := Option.bind_eq_some_iff.1 h
  dsimp only at h
  split at h
  · obtain ⟨⟨between', c⟩, hc, h⟩ := Option.bind_eq_some_iff.1 h
    obtain rfl : between' = between := Option.some.inj h
    obtain ⟨rfl, hstart⟩ := append_of_splitAtByte ha
    obtain ⟨rfl, hstop⟩ := append_of_splitAtByte hc
    refine ⟨a, c, (List.append_assoc _ _ _).symm, hstart.symm, ?_⟩
    rw [byteSize_append]
    omega
  · cases h

theorem byteSize_pos {a : Text} (h : a ≠ []) : 0 < byteSize a := by
  cases a with
  | nil => exact absurd rfl h
  | cons c a =>
    have := Char.utf8Size_pos c
    rw [byteSize_cons]
    omega

end Text

namespace Token

/-! ## 2. Tokens in place -/

/-- The source of some tokens, with what stands in front of each. -/
def source (ts : List Token) : Text :=
  ts.flatMap written

@[simp] theorem source_nil : source [] = [] := rfl

@[simp] theorem source_cons (t : Token) (ts : List Token) :
    source (t :: ts) = t.leading ++ t.text ++ source ts := rfl

@[simp] theorem source_append (a b : List Token) : source (a ++ b) = source a ++ source b :=
  List.flatMap_append

/-- The tokens follow each other from byte `offset` on, and none of them is empty. -/
def InPlace : Nat → List Token → Prop
  | _, [] => True
  | offset, t :: ts => t.start = offset + byteSize t.leading ∧ t.text ≠ [] ∧ InPlace t.stop ts

/-- Only trivia stands in front of each token; `before` precedes the first of them. -/
def Separated : Text → List Token → Prop
  | _, [] => True
  | before, t :: ts => Trivia.Only before t.leading ∧ Separated (before ++ t.written) ts

/-- Where the last of some tokens ends, and the start of the source if there are none. -/
def lastStop (ts : List Token) : Nat :=
  (ts.getLast?.map stop).getD 0

theorem start_lt_stop {t : Token} (h : t.text ≠ []) : t.start < t.stop :=
  Nat.lt_add_of_pos_right (byteSize_pos h)

theorem InPlace.append_iff {offset : Nat} {a b : List Token} :
    InPlace offset (a ++ b) ↔ InPlace offset a ∧ InPlace (offset + byteSize (source a)) b := by
  induction a generalizing offset with
  | nil => simp [InPlace]
  | cons t a ih =>
    rw [List.cons_append, InPlace, InPlace, ih, source_cons, byteSize_append, byteSize_append]
    constructor
    · rintro ⟨hs, ht, ha, hb⟩
      rw [stop, hs] at hb
      exact ⟨⟨hs, ht, ha⟩, by rwa [← Nat.add_assoc, ← Nat.add_assoc]⟩
    · rintro ⟨⟨hs, ht, ha⟩, hb⟩
      refine ⟨hs, ht, ha, ?_⟩
      rwa [stop, hs, Nat.add_assoc, Nat.add_assoc, ← Nat.add_assoc (byteSize t.leading)]

theorem Separated.append_iff {before : Text} {a b : List Token} :
    Separated before (a ++ b) ↔ Separated before a ∧ Separated (before ++ source a) b := by
  induction a generalizing before with
  | nil => simp [Separated]
  | cons t a ih =>
    rw [List.cons_append, Separated, Separated, ih, source_cons, and_assoc, written,
      List.append_assoc]

/-- The last token ends where the source of all of them does. -/
theorem InPlace.lastStop_eq {ts : List Token} (h : InPlace 0 ts) :
    lastStop ts = byteSize (source ts) := by
  cases ts using List.reverseRecOn with
  | nil => rfl
  | append_singleton ts t =>
    have ht := (InPlace.append_iff.1 h).2.1
    rw [lastStop, List.getLast?_append, List.getLast?_singleton, Option.some_or, Option.map_some,
      Option.getD_some, stop, ht, source_append, source_cons, source_nil]
    simp only [byteSize_append, byteSize_nil]
    omega

theorem InPlace.le_start {offset : Nat} {ts : List Token} (h : InPlace offset ts) {t : Token}
    (ht : t ∈ ts) : offset ≤ t.start := by
  obtain ⟨a, b, rfl⟩ := List.append_of_mem ht
  have := (InPlace.append_iff.1 h).2.1
  omega

theorem InPlace.text_ne_nil {offset : Nat} {ts : List Token} (h : InPlace offset ts) {t : Token}
    (ht : t ∈ ts) : t.text ≠ [] := by
  obtain ⟨a, b, rfl⟩ := List.append_of_mem ht
  exact (InPlace.append_iff.1 h).2.2.1

/-- Each token ends before the later ones start. -/
theorem InPlace.pairwise {offset : Nat} {ts : List Token} (h : InPlace offset ts) :
    ts.Pairwise fun t u => t.stop ≤ u.start := by
  induction ts generalizing offset with
  | nil => exact List.Pairwise.nil
  | cons t ts ih => exact List.Pairwise.cons (fun u hu => h.2.2.le_start hu) (ih h.2.2)

/-- The text of a token and what stands in front of it are slices of the source. -/
theorem InPlace.slices {before after : List Token} {t : Token} (rest : Text)
    (h : InPlace 0 (before ++ t :: after)) :
    slice t.start t.stop (source (before ++ t :: after) ++ rest) = some t.text ∧
    slice (lastStop before) t.start (source (before ++ t :: after) ++ rest) = some t.leading := by
  obtain ⟨hb, hs, -, -⟩ := InPlace.append_iff.1 h
  rw [Nat.zero_add] at hs
  rw [stop, hb.lastStop_eq, hs, source_append, source_cons]
  constructor
  · rw [← byteSize_append, ← List.append_assoc, ← List.append_assoc, List.append_assoc _ _ rest]
    exact slice_append _ _ _
  · rw [List.append_assoc t.leading, ← List.append_assoc, List.append_assoc _ _ rest]
    exact slice_append _ _ _

/-! ## 3. Scanned tokens -/

theorem cons_take_append_drop (c : Char) (cs : Text) (n : Nat) :
    c :: cs.take n ++ cs.drop n = c :: cs := by
  rw [List.cons_append, List.take_append_drop]

/-- Trivia, a token and a scan of the rest make up the text. -/
theorem scanFrom_spec (before cs : Text) :
    let ts := scanFrom (Trivia.freshAfter true before) (byteSize before) cs
    InPlace (byteSize before) ts ∧ Separated before ts ∧
      ∃ rest, source ts ++ rest = cs ∧ Trivia.Only (before ++ source ts) rest := by
  dsimp only
  generalize hf : Trivia.freshAfter true before = fresh
  generalize ho : byteSize before = offset
  -- on the calls of the scan, with all that was read before as `before`
  fun_induction scanFrom fresh offset cs generalizing before with
  | case1 fresh offset cs n hd =>
    have htrivia := Trivia.only_take_extent before cs
    rw [hf, List.take_of_length_le (List.drop_eq_nil_iff.1 hd)] at htrivia
    refine ⟨trivial, trivial, cs, rfl, ?_⟩
    rwa [source_nil, List.append_nil]
  | case2 fresh offset cs n leading c rest hd kind m hk text start ih =>
    have htrivia := Trivia.only_take_extent before cs
    rw [hf] at htrivia
    have hcs : leading ++ text ++ rest.drop m = cs := by
      rw [List.append_assoc, cons_take_append_drop, ← hd, List.take_append_drop]
    -- the scan of the rest starts behind the trivia and the text of this token
    obtain ⟨hplace, hsep, tail, hsource, honly⟩ := ih (before ++ (leading ++ text))
      (by rw [Trivia.freshAfter_append, hf])
      (by rw [byteSize_append, byteSize_append, ho, ← Nat.add_assoc])
    refine ⟨⟨rfl, List.cons_ne_nil _ _, hplace⟩, ⟨htrivia, hsep⟩, tail, ?_, ?_⟩
    · rw [source_cons, List.append_assoc, hsource, hcs]
    · rwa [source_cons, ← List.append_assoc before]

theorem scan_inPlace (source : Text) : InPlace 0 (scan source) :=
  (scanFrom_spec [] source).1

theorem scan_separated (source : Text) : Separated [] (scan source) :=
  (scanFrom_spec [] source).2.1

/-- The tokens of a text spell it, up to trivia after the last of them. -/
theorem scan_source (cs : Text) :
    ∃ rest, source (scan cs) ++ rest = cs ∧ Trivia.Only (source (scan cs)) rest :=
  (scanFrom_spec [] cs).2.2

/-- A text is cut at each of its tokens. -/
theorem exists_cut_of_scan {text : Text} {before after : List Token} {t : Token}
    (h : scan text = before ++ t :: after) :
    ∃ rest, text = source before ++ t.leading ++ t.text ++ (source after ++ rest) ∧
      t.start = byteSize (source before ++ t.leading) := by
  obtain ⟨rest, htext, -⟩ := scan_source text
  have hplace := scan_inPlace text
  rw [h] at hplace htext
  have hstart := (InPlace.append_iff.1 hplace).2.1
  rw [Nat.zero_add, ← byteSize_append] at hstart
  refine ⟨rest, ?_, hstart⟩
  rw [← htext, source_append, source_cons]
  simp only [List.append_assoc]

end Token

end EventLint
