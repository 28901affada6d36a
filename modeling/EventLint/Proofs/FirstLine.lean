import EventLint.Proofs.Layout
import EventLint.Proofs.Reported
import EventLint.Proofs.Spacing

/-!
# A line in front of a text

What stands on the lines of a text stands one line lower if another line comes before them. Main
statement: a first line without a comment changes neither which of the old findings are suppressed
nor what they say.
-/

namespace EventLint

/-! ## 1. Lines -/

namespace LineIndex

open Text

theorem line_line {line : Text} (hline : '\n' ∉ line) (offset : Nat) (cs : Text) :
    (ofText (line ++ '\n' :: cs)).line (offset + (byteSize line + 1)) =
      (ofText cs).line offset + 1 := by
  have hsize : byteSize line + 1 = byteSize (line ++ ['\n']) := by
    rw [byteSize_append]
    rfl
  rw [List.append_cons, hsize, line_append, List.count_append, List.count_eq_zero.2 hline,
    Nat.zero_add, List.count_singleton_self]

end LineIndex

namespace Text

theorem exists_linesFrom {line : Text} (hline : '\n' ∉ line) (read cs : Text) :
    ∃ first, first <:+: read.reverse ++ line ∧
      linesFrom read (line ++ '\n' :: cs) = first :: lines cs := by
  induction line generalizing read with
  -- a carriage return in front of the line feed is not kept
  | nil =>
    refine ⟨_, ?_, by rw [List.nil_append, linesFrom, if_pos rfl, lines]⟩
    rw [List.append_nil]
    split
    · exact List.reverse_infix.2 (List.tail_suffix read).isInfix
    · exact List.infix_rfl
  | cons c line ih =>
    rw [List.mem_cons, not_or] at hline
    obtain ⟨first, hfirst, hlines⟩ := ih hline.2 (c :: read)
    refine ⟨first, ?_, by rw [List.cons_append, linesFrom, if_neg (Ne.symm hline.1), hlines]⟩
    rwa [List.reverse_cons, List.append_assoc] at hfirst

end Text

namespace Suppression

theorem ofText_line {line : Text} (hline : '\n' ∉ line) (hcomment : ¬ "//".toList <:+: line)
    (cs : Text) : ofText (line ++ '\n' :: cs) = (ofText cs).map fun p => (p.1 + 1, p.2) := by
  obtain ⟨first, hfirst, hlines⟩ := Text.exists_linesFrom hline [] cs
  have hnone : ofLine? first = none := ofLine?_eq_none fun hc => hcomment (hc.trans hfirst)
  rw [ofText, ofText, Text.lines, hlines, List.zipIdx_cons, List.zipIdx_succ, List.map_filterMap]
  simp [List.filterMap_map, Function.comp_def, hnone]

theorem suppresses_line {line : Text} (hline : '\n' ∉ line) (hcomment : ¬ "//".toList <:+: line)
    (cs : Text) (n : Nat) (id : Text) :
    (ofText (line ++ '\n' :: cs)).suppresses (n + 1) id = (ofText cs).suppresses n id := by
  have hlookup : ∀ ps : Lines, (ps.map fun p => (p.1 + 1, p.2)).lookup (n + 1) = ps.lookup n := by
    intro ps
    induction ps with
    | nil => rfl
    | cons p ps ih =>
      rw [List.map_cons, List.lookup_cons, List.lookup_cons, ih]
      simp
  rw [ofText_line hline hcomment, Lines.suppresses, Lines.suppresses, hlookup]

end Suppression

/-! ## 2. Tokens -/

/-- Drops trivia and moves tokens on. -/
def Relabelling.moved (k : Nat) : Relabelling where
  apply t := { t with leading := [], start := t.start + k }
  kind_apply _ := rfl
  text_apply _ := rfl

namespace Token

open Text

/-- What is trivia in front of the rest of a text joins the trivia of its first token. -/
theorem scanFrom_trivia {fresh fresh' : Bool} {w cs : Text}
    (h : Trivia.extent fresh (w ++ cs) = w.length + Trivia.extent fresh' cs) (offset : Nat) :
    (scanFrom fresh offset (w ++ cs)).map (Relabelling.moved 0).apply =
      (scanFrom fresh' (offset + byteSize w) cs).map (Relabelling.moved 0).apply := by
  generalize hts : scanFrom fresh' (offset + byteSize w) cs = ts
  cases ts with
  | nil =>
    rw [scanFrom_eq_nil_iff] at hts
    rw [List.map_nil, List.map_eq_nil_iff, scanFrom_eq_nil_iff, h, List.length_append]
    omega
  | cons t ts =>
    obtain ⟨c, u, z, htext, rfl, he, hl, hstart, rfl⟩ := exists_of_scanFrom hts
    have hfirst := @scanFrom_of_lexeme fresh offset (w ++ t.leading) u z c t.kind
      (by rw [List.append_assoc, h, he, List.length_append]) hl
    have hitem := Trivia.item?_of_extent he
    have hfresh : Trivia.freshAfter fresh (w ++ t.leading ++ c :: u) =
        Trivia.freshAfter fresh' (t.leading ++ c :: u) := by
      rw [Trivia.freshAfter_append, Trivia.freshAfter_append fresh']
      exact Trivia.freshAfter_token (Trivia.not_isBlank_of_item? hitem) _ _ u
    have hsize : offset + byteSize (w ++ t.leading ++ c :: u) =
        offset + byteSize w + byteSize (t.leading ++ c :: u) := by
      rw [List.append_assoc, byteSize_append w, Nat.add_assoc]
    have ht : (Relabelling.moved 0).apply t = (Relabelling.moved 0).apply
        ⟨t.kind, w ++ t.leading, c :: u, offset + byteSize (w ++ t.leading)⟩ := by
      rw [← htext, byteSize_append, ← Nat.add_assoc, ← hstart]
      rfl
    rw [List.append_assoc] at hfirst
    rw [hfirst, List.map_cons, List.map_cons, ht, htext, hfresh, hsize]

/-- Behind a line break tokens are found as at the start of a text. -/
theorem scanFrom_newline (fresh : Bool) (offset : Nat) (cs : Text) :
    (scanFrom fresh offset ('\n' :: cs)).map (Relabelling.moved 0).apply =
      (scan cs).map (Relabelling.moved (offset + 1)).apply := by
  have hmoved : (Relabelling.moved 0).apply ∘ shift (offset + 1) =
      (Relabelling.moved (offset + 1)).apply := rfl
  rw [← hmoved, ← List.map_map, scan, ← scanFrom_shift, Nat.zero_add]
  refine scanFrom_trivia (w := ['\n']) ?_ offset
  rw [List.singleton_append, Trivia.extent, if_pos (by decide), decide_eq_true rfl, Bool.or_true]
  rfl

end Token

/-! ## 3. Findings -/

/-- What a finding says of an event: the rule, the name and where the name starts. -/
structure Mark where
  rule : Rule
  name : Text
  start : Nat
deriving DecidableEq, Repr

namespace Mark

def moved (k : Nat) (m : Mark) : Mark :=
  { m with start := m.start + k }

/-- The finding is neither suppressed on its line of the text nor ignored by the settings. -/
def isKept (settings : Settings) (text : Text) (m : Mark) : Bool :=
  !(Suppression.ofText text).suppresses ((LineIndex.ofText text).line m.start) m.rule.id.toList &&
    !settings.ignores m.rule.id

theorem isKept_line {line : Text} (hline : '\n' ∉ line) (hcomment : ¬ "//".toList <:+: line)
    (settings : Settings) (text : Text) (m : Mark) :
    (m.moved (Text.byteSize line + 1)).isKept settings (line ++ '\n' :: text) =
      m.isKept settings text := by
  simp only [isKept, moved, LineIndex.line_line hline,
    Suppression.suppresses_line hline hcomment]

end Mark

/-- What is reported at these marks of a text: rule and event of each. -/
def reported (settings : Settings) (text : Text) (marks : List Mark) : List (String × Text) :=
  (marks.filter (Mark.isKept settings text)).map fun m => (m.rule.id, m.name)

/-- A line in front of a text changes nothing in what is reported there. -/
theorem reported_line {line : Text} (hline : '\n' ∉ line) (hcomment : ¬ "//".toList <:+: line)
    (settings : Settings) (text : Text) (marks : List Mark) :
    reported settings (line ++ '\n' :: text) (marks.map (Mark.moved (Text.byteSize line + 1))) =
      reported settings text marks := by
  rw [reported, reported, List.filter_map, List.map_map]
  congr 2
  funext m
  exact m.isKept_line hline hcomment settings text

namespace Event

def mark (e : Event) : Mark :=
  ⟨.ofShape e.shape, e.name, e.nameToken.start⟩

/-- Whether an event is found, and with which mark. -/
def sight (e : Event) : Mark × Bool :=
  (e.mark, e.isVirtual)

/-- Moving a node moves the mark of its event. -/
theorem sight_ofTree?_map (k : Nat) (n : Tree) :
    (ofTree? (n.map (.moved k))).map sight =
      (ofTree? n).map fun e => (e.mark.moved k, e.isVirtual) := by
  let read (x : Rule × Token × List Token) : Mark × Bool :=
    (⟨x.1, x.2.1.text, x.2.1.start⟩, (x.2.2.find? (·.kind = .keyword .virtualKw)).isSome)
  have hread : sight = read ∘ face := rfl
  rw [hread, ← Option.map_map, face_ofTree?_map, Option.map_map]
  refine congrArg (Option.map · (ofTree? n)) (funext fun e => Prod.ext rfl ?_)
  simp [read, isVirtual, modifier?, List.find?_map, Function.comp_def]

end Event

namespace Tree

/-- The marks of the virtual events of a tree. -/
def marks (t : Tree) : List Mark :=
  t.virtualEvents.map Event.mark

/-- An event is found by its sight. -/
theorem marks_event {k : NodeKind} (hk : k.isEvent = true) (cs : List Tree) :
    (node k cs).marks =
      (((Event.ofTree? (node k cs)).map Event.sight).filter Prod.snd).toList.map Prod.fst := by
  rw [marks, virtualEvents, if_pos hk]
  cases Event.ofTree? (node k cs) with
  | none => rfl
  | some e => cases hv : e.isVirtual <;> simp [Option.filter, Event.sight, hv]

mutual

theorem marks_map (k : Nat) (t : Tree) : (t.map (.moved k)).marks = t.marks.map (Mark.moved k) := by
  cases t with
  | leaf u => rfl
  | node kind cs =>
    cases hk : kind.isEvent with
    | true =>
      have hevent := Event.sight_ofTree?_map k (node kind cs)
      rw [map_node] at hevent ⊢
      rw [marks_event hk, marks_event hk, hevent]
      cases Event.ofTree? (node kind cs) with
      | none => rfl
      | some e => cases hv : e.isVirtual <;> simp [Option.filter, Event.sight, hv]
    | false =>
      rw [map_node, marks, marks, virtualEvents, virtualEvents, hk, if_neg Bool.false_ne_true,
        if_neg Bool.false_ne_true]
      split
      · rfl
      · exact marksAll_map k cs

theorem marksAll_map (k : Nat) (cs : List Tree) :
    (virtualEventsAll (cs.map (map (.moved k)))).map Event.mark =
      ((virtualEventsAll cs).map Event.mark).map (Mark.moved k) := by
  cases cs with
  | nil => rfl
  | cons c cs =>
    have hfirst := marks_map k c
    rw [marks, marks] at hfirst
    rw [List.map_cons, virtualEventsAll, virtualEventsAll, List.map_append, List.map_append,
      List.map_append, hfirst, marksAll_map k cs]

end

/-- Tokens that stand farther on have the same marks farther on. -/
theorem marks_of_moved {ts us : List Token} {k : Nat}
    (h : us.map (Relabelling.moved 0).apply = ts.map (Relabelling.moved k).apply) :
    (ofTokens us).marks = (ofTokens ts).marks.map (Mark.moved k) := by
  have hzero : Mark.moved 0 = id := rfl
  have hus := marks_map 0 (ofTokens us)
  rw [hzero, List.map_id, ← ofTokens_map, h, ofTokens_map, marks_map] at hus
  exact hus.symm

end Tree

namespace Document

open EventLint.Tree Token

theorem reported_marks (settings : Settings) (file : String) (text : Text) :
    ((ofText text).diagnostics settings file).map (fun d => (d.rule.id, d.eventName)) =
      reported settings text (ofTokens (scan text)).marks := by
  rw [diagnostics_eq_map_filter, reported, marks, List.filter_map, List.map_map, List.map_map]
  rfl

end Document

end EventLint
