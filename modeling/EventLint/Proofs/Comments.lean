import EventLint.Proofs.Insertion
import EventLint.Proofs.LineSuppression
import Mathlib.Data.List.TakeWhile

/-!
# Comments across edits

What a line suppresses is read off its characters, so an edit could change it by what it puts next
to a comment. Main statements: in front of a token every comment is settled, as its line has ended
or a character follows that no suppression reaches past; so the lines of a text suppress the same
after a word is taken out of one of them, and after lines are put between two of its tokens.
-/

namespace EventLint

/-! ## 1. What ends a suppression -/

namespace Suppression

open Text

/-- No marker and no list goes on with this character. -/
def isStop (c : Char) : Bool :=
  !isListed c && !isWord c && c ≠ ':'

/-- The characters of the markers. -/
def markerChars : List Char :=
  markers.flatMap String.toList

/-- A marker ends in front of this character. -/
def isApart (c : Char) : Bool :=
  foldCase c ∉ markerChars && !isWord c && c ≠ ':'

theorem isApart_of_isStop {c : Char} (h : isStop c = true) : isApart c = true := by
  simp only [isStop, Bool.and_eq_true, Bool.not_eq_true', decide_eq_true_eq, ne_eq] at h
  obtain ⟨⟨hlisted, hword⟩, hcolon⟩ := h
  have hmarker : foldCase c ∉ markerChars := by
    intro hmem
    have hchars : markerChars.all (fun x => x.isAlphanum || x = '_' || x = '-' || x = ',') = true :=
      by decide
    rw [isListed] at hlisted
    rw [List.all_eq_true.1 hchars _ hmem] at hlisted
    cases hlisted
  simp [isApart, hmarker, hword, hcolon]

theorem isApart_of_isBlank {c : Char} (h : isBlank c = true) : isApart c = true := by
  have hpoints : ∀ n ∈ blankPoints, isApart (Char.ofNat n) = true := by decide +kernel
  have hc := hpoints c.toNat (mem_blankPoints h)
  rwa [Char.ofNat_toNat] at hc

theorem isBlank_of_isStop {c : Char} (h : isStop c = true) : isBlank c = false := by
  refine Bool.eq_false_iff.2 fun hblank => ?_
  rw [isStop, isListed] at h
  simp [hblank] at h

theorem afterWord?_apart {word u d : Text} (hword : ∀ x ∈ word, x ∈ markerChars)
    (hd : ∀ c ∈ d.head?, isApart c = true) :
    afterWord? word (u ++ d) = (afterWord? word u).map (· ++ d) := by
  induction word generalizing u with
  | nil => rw [afterWord?, afterWord?, Option.map_some]
  | cons x word ih =>
    cases u with
    | cons c u =>
      rw [List.cons_append, afterWord?, afterWord?]
      split
      · exact ih fun y hy => hword y (List.mem_cons_of_mem x hy)
      · rfl
    | nil =>
      cases d with
      | nil => rfl
      | cons c d =>
        have hc := hd c rfl
        have hne : foldCase c ≠ x := by
          rintro rfl
          simp [isApart, hword (foldCase c) List.mem_cons_self] at hc
        exact if_neg hne

theorem afterMarker?_apart {u d : Text} (hd : ∀ c ∈ d.head?, isApart c = true) :
    afterMarker? markers (u ++ d) = (afterMarker? markers u).map (· ++ d) := by
  have hfound : markers.findSome? (fun word => afterWord? word.toList (u ++ d)) =
      (markers.findSome? fun word => afterWord? word.toList u).map (· ++ d) := by
    rw [List.map_findSome?]
    have hwords : ∀ word ∈ markers, afterWord? word.toList (u ++ d) =
        (afterWord? word.toList u).map (· ++ d) := fun word hword =>
      afterWord?_apart (fun x hx => List.mem_flatMap.2 ⟨word, hword, hx⟩) hd
    rw [← List.head?_filterMap, ← List.head?_filterMap]
    exact congrArg List.head? (List.filterMap_congr hwords)
  rw [afterMarker?, afterMarker?, hfound]
  cases markers.findSome? fun word => afterWord? word.toList u with
  | none => rfl
  | some rest =>
    have hhead : (rest ++ d).head?.any isWord = rest.head?.any isWord := by
      cases rest with
      | cons c rest => rfl
      | nil =>
        cases d with
        | nil => rfl
        | cons c d =>
          have hc := hd c rfl
          simp only [isApart, Bool.and_eq_true, Bool.not_eq_true'] at hc
          exact hc.1.2
    simp only [Option.map_some, Option.filter_some, hhead]
    split <;> rfl

/-- What a comment with `rest` behind its marker suppresses. -/
def ofRest (rest : Text) : Suppression :=
  match rest with
  | ':' :: list => ofList (list.takeWhile isListed)
  | _ => .all

theorem ofComment?_eq (comment : Text) :
    ofComment? comment = (afterMarker? markers (trimStart comment)).map ofRest := rfl

theorem ofRest_of_ne {c : Char} (hc : c ≠ ':') (rest : Text) : ofRest (c :: rest) = .all := by
  rw [ofRest]
  rintro list hlist
  exact hc (List.cons.inj hlist).1

theorem ofRest_append {rest d : Text} (hd : ∀ c ∈ d.head?, isApart c = true)
    (hlist : ∀ list : Text, ofList ((list ++ d).takeWhile isListed) =
      ofList (list.takeWhile isListed)) :
    ofRest (rest ++ d) = ofRest rest := by
  cases rest with
  | nil =>
    cases d with
    | nil => rfl
    | cons c d =>
      have hc := hd c rfl
      simp only [isApart, Bool.and_eq_true, decide_eq_true_eq, ne_eq] at hc
      exact ofRest_of_ne hc.2 d
  | cons c rest =>
    by_cases hc : c = ':'
    · subst hc
      exact hlist rest
    · rw [List.cons_append, ofRest_of_ne hc, ofRest_of_ne hc]

/-- Nothing behind a character that stops it belongs to a suppression. -/
theorem ofComment?_stop {s : Char} (hs : isStop s = true) (u w : Text) :
    ofComment? (u ++ s :: w) = ofComment? u := by
  have hd : ∀ c ∈ (s :: w).head?, isApart c = true := by
    rintro c ⟨⟩
    exact isApart_of_isStop hs
  have htrim : trimStart (u ++ s :: w) = trimStart u ++ s :: w := by
    rw [trimStart, trimStart, List.dropWhile_append]
    split
    · rename_i hnil
      have hstop : ¬ isBlank s = true := by
        rw [isBlank_of_isStop hs]
        decide
      rw [List.isEmpty_iff.1 hnil, List.dropWhile_cons_of_neg hstop]
      rfl
    · rfl
  have hlist : ∀ list : Text, ofList ((list ++ s :: w).takeWhile isListed) =
      ofList (list.takeWhile isListed) := by
    intro list
    have hlisted : isListed s = false := by
      simp only [isStop, Bool.and_eq_true, Bool.not_eq_true'] at hs
      exact hs.1.1
    rw [List.takeWhile_append]
    split
    · rename_i hall
      rw [List.takeWhile_cons_of_neg (by rw [hlisted]; decide), List.append_nil,
        (List.takeWhile_prefix isListed).eq_of_length hall]
    · rfl
  rw [ofComment?_eq, ofComment?_eq, htrim, afterMarker?_apart hd, Option.map_map]
  cases afterMarker? markers (trimStart u) with
  | none => rfl
  | some rest => exact congrArg some (ofRest_append hd hlist)

theorem idsOf_of_notMem {w : Text} (h : ',' ∉ w) : idsOf w = [(trim w).map upperCase] := by
  rw [idsOf, List.splitOn_eq_singleton h, List.map_singleton]

theorem idsOf_comma (u w : Text) : idsOf (u ++ ',' :: w) = idsOf u ++ idsOf w := by
  rw [idsOf, idsOf, idsOf, List.splitOn, List.splitOnP_append_cons _ _ (by simp), List.map_append]
  rfl

theorem trim_append_blanks {b : Text} (hb : ∀ c ∈ b, isBlank c = true) (w : Text) :
    trim (w ++ b) = trim w := by
  have hdrop : b.reverse.dropWhile isBlank = [] :=
    List.dropWhile_eq_nil_iff.2 fun c hc => hb c (List.mem_reverse.1 hc)
  rw [trim, trim, trimStart, trimStart, List.dropWhile_append]
  split
  · rename_i hnil
    rw [List.isEmpty_iff.1 hnil, List.dropWhile_eq_nil_iff.2 hb]
  · rw [trimEnd, trimEnd, List.reverse_append, List.dropWhile_append, hdrop]
    rfl

theorem idsOf_append_blanks {b : Text} (hb : ∀ c ∈ b, isBlank c = true) (w : Text) :
    idsOf (w ++ b) = idsOf w := by
  have hcomma : ',' ∉ b := fun hmem => absurd (hb _ hmem) (by decide)
  induction hn : w.length using Nat.strongRecOn generalizing w with
  | ind n ih =>
    subst hn
    by_cases hw : ',' ∈ w
    · obtain ⟨u, v, rfl⟩ := List.append_of_mem hw
      rw [List.append_assoc, List.cons_append, idsOf_comma, idsOf_comma,
        ih v.length (by rw [List.length_append, List.length_cons]; omega) v rfl]
    · rw [idsOf_of_notMem hw, idsOf_of_notMem fun hmem => (List.mem_append.1 hmem).elim hw hcomma,
        trim_append_blanks hb]

/-- Blanks behind a comment say nothing. -/
theorem ofComment?_blanks {b : Text} (hb : ∀ c ∈ b, isBlank c = true) (u : Text) :
    ofComment? (u ++ b) = ofComment? u := by
  have hd : ∀ c ∈ b.head?, isApart c = true := fun c hc =>
    isApart_of_isBlank (hb c (List.mem_of_head? hc))
  have hlist : ∀ list : Text, ofList ((list ++ b).takeWhile isListed) =
      ofList (list.takeWhile isListed) := by
    intro list
    have hlisted : b.takeWhile isListed = b := List.takeWhile_eq_self_iff.2 fun c hc => by
      rw [isListed, hb c hc, Bool.or_true]
    rw [List.takeWhile_append]
    split
    · rename_i hall
      rw [hlisted, (List.takeWhile_prefix isListed).eq_of_length hall, ofList, ofList,
        idsOf_append_blanks hb]
    · rfl
  rw [ofComment?_eq, ofComment?_eq, trimStart, trimStart, List.dropWhile_append]
  split
  · rename_i hnil
    rw [List.isEmpty_iff.1 hnil, List.dropWhile_eq_nil_iff.2 hb]
  · rw [afterMarker?_apart hd, Option.map_map]
    cases afterMarker? markers (u.dropWhile isBlank) with
    | none => rfl
    | some rest => exact congrArg some (ofRest_append hd hlist)

/-- Blanks behind a line say nothing. -/
theorem ofLine?_blanks {b : Text} (hb : ∀ c ∈ b, isBlank c = true) (w : Text) :
    ofLine? (w ++ b) = ofLine? w := by
  have hslash : '/' ∉ b := fun hmem => absurd (hb _ hmem) (by decide)
  fun_induction ofLine? w with
  | case1 w ih =>
    rw [List.cons_append, List.cons_append, ofLine?, ofComment?_blanks hb]
    exact congrArg _ ih
  | case2 c w hc ih =>
    rw [List.cons_append, ofLine?, ih]
    rintro z rfl hz
    cases w with
    | nil => exact hslash (by rw [← List.nil_append b, hz]; exact List.mem_cons_self)
    | cons d w => exact hc w rfl (by rw [(List.cons.inj hz).1])
  | case3 => rw [← List.append_nil ([] ++ b), List.nil_append, ofLine?_append hslash, ofLine?_nil]

theorem ofLine?_dropReturn (line : Text) : ofLine? (dropReturn line) = ofLine? line := by
  rw [dropReturn]
  split
  · rename_i hlast
    obtain ⟨w, rfl⟩ := List.getLast?_eq_some_iff.1 hlast
    rw [List.dropLast_concat, ofLine?_blanks]
    rintro c hc
    rw [List.mem_singleton.1 hc]
    decide
  · rfl

/-! ## 2. Settled comments -/

/-- No comment goes on behind this character. -/
def settles (c : Char) : Bool :=
  isStop c || c = '\n'

/-- Whatever follows the text, its comments suppress the same. -/
def Settled (cs : Text) : Prop :=
  ∀ u w, cs = u ++ '/' :: '/' :: w → ∃ c ∈ w, settles c = true

namespace Settled

variable {a b : Text}

theorem of_notMem (h : '/' ∉ a) : Settled a := by
  rintro u w rfl
  simp at h

theorem singleton (c : Char) : Settled [c] := by
  intro u w hw
  have hlen := congrArg List.length hw
  simp at hlen
  omega

theorem of_append (h : Settled (a ++ b)) : Settled b :=
  fun u w hb => h (a ++ u) w (by rw [hb, List.append_assoc])

theorem of_indent (h : Settled (a ++ b)) (hb : ∀ c ∈ b, isIndent c = true) : Settled a := by
  rintro u w rfl
  obtain ⟨c, hc, hs⟩ := h u (w ++ b) (by simp)
  rcases List.mem_append.1 hc with hc | hc
  · exact ⟨c, hc, hs⟩
  · have hindent := hb c hc
    rw [settles, Bool.or_eq_true, decide_eq_true_eq] at hs
    rcases hs with hs | rfl
    · have hblank := isBlank_of_isIndent hindent
      rw [isBlank_of_isStop hs] at hblank
      cases hblank
    · exact absurd hindent (by decide)

theorem concat {s : Char} (hs : settles s = true) (hne : s ≠ '/') (a : Text) :
    Settled (a ++ [s]) := by
  intro u w hw
  obtain rfl | ⟨w, d, rfl⟩ := List.eq_nil_or_concat' w
  · have hlast := congrArg List.getLast? hw
    simp at hlast
    exact absurd hlast hne
  · rw [← List.cons_append, ← List.cons_append, ← List.append_assoc] at hw
    obtain rfl := List.singleton_inj.1 (List.append_inj' hw rfl).2
    exact ⟨s, by simp, hs⟩

/-- Two slashes may meet where the texts do. -/
theorem append (ha : Settled a) (hb : Settled b)
    (h : ∀ w, a.getLast? = some '/' → b = '/' :: w → ∃ c ∈ w, settles c = true) :
    Settled (a ++ b) := by
  intro u w hw
  rcases List.append_eq_append_iff.1 hw with ⟨v, rfl, rfl⟩ | ⟨v, rfl, hv⟩
  · exact hb v w rfl
  · rcases v with _ | ⟨c, _ | ⟨d, v⟩⟩
    · exact hb [] w hv.symm
    · obtain ⟨rfl, rfl⟩ := List.cons.inj hv
      exact h w (by simp) rfl
    · obtain ⟨rfl, rfl, rfl⟩ : c = '/' ∧ d = '/' ∧ w = v ++ b := by simpa [eq_comm] using hv
      obtain ⟨c, hc, hs⟩ := ha u v rfl
      exact ⟨c, List.mem_append_left b hc, hs⟩

end Settled

/-- A slash with one of these behind it does not start a comment at the slash in front of it. -/
def isSlashed (z : Text) : Prop :=
  z.head? = some '/' ∨ z.head? = some '*'

theorem exists_settles {z : Text} (h : isSlashed z) : ∃ c ∈ z, settles c = true := by
  rcases h with h | h <;> obtain ⟨y, rfl⟩ := List.head?_eq_some_iff.1 h
  · exact ⟨'/', List.mem_cons_self, by decide⟩
  · exact ⟨'*', List.mem_cons_self, by decide⟩

section

variable {fresh next : Bool} {c : Char} {x w : Text} {m : Nat}

theorem isSlashed_of_item? (h : Trivia.item? fresh '/' (x ++ w) = some (m, next))
    (hm : m ≤ x.length) : isSlashed x := by
  have hhead : (x ++ w).head? = some '/' ∨ (x ++ w).head? = some '*' := by
    by_contra hne
    rw [not_or] at hne
    rw [Trivia.item?, decide_eq_false hne.1, decide_eq_false hne.2] at h
    cases h
  cases x with
  | cons d x => exact hhead
  | nil =>
    -- the comment takes at least one more character
    obtain rfl : m = 0 := Nat.le_zero.1 hm
    rcases hhead with hd | hd <;> obtain ⟨y, hy⟩ := List.head?_eq_some_iff.1 hd <;>
      rw [hy] at h <;> simp [Trivia.item?, isBlank, Trivia.lineExtent] at h

/-- A blank, comment or directive line that something follows is settled with what follows. -/
theorem settled_item (hw : w ≠ [] ∧ w.head? ≠ some '\n')
    (h : Trivia.item? fresh c (x ++ w) = some (m, next)) (hm : m ≤ x.length)
    (hrest : Settled (x.drop m)) (hslash : ∀ z, x.drop m = '/' :: z → isSlashed z) :
    Settled (c :: x) := by
  unfold Trivia.item? at h
  split at h
  · obtain ⟨rfl, rfl⟩ := Prod.mk.inj (Option.some.inj h)
    exact (Settled.singleton c).append hrest fun z _ hz => exists_settles (hslash z hz)
  · split at h
    · -- the line ends in front of the token
      obtain ⟨rfl, rfl⟩ := Prod.mk.inj (Option.some.inj h)
      obtain ⟨y, hy⟩ : ∃ y, x.drop (Trivia.lineExtent (x ++ w)) = '\n' :: y := by
        have hends := Trivia.drop_lineExtent (x ++ w)
        rw [List.drop_append_of_le_length hm] at hends
        rcases hends with hnil | hhead
        · exact absurd (List.append_eq_nil_iff.1 hnil).2 hw.1
        · cases hdrop : x.drop (Trivia.lineExtent (x ++ w)) with
          | nil =>
            rw [hdrop] at hhead
            exact absurd hhead hw.2
          | cons d y =>
            rw [hdrop] at hhead
            exact ⟨y, by rw [Option.some.inj hhead]⟩
      rw [hy] at hrest
      have hsplit : c :: x = c :: x.take (Trivia.lineExtent (x ++ w)) ++ ['\n'] ++ y := by
        rw [List.append_assoc, List.singleton_append, ← hy, List.cons_append,
          List.take_append_drop]
      rw [hsplit]
      refine (Settled.concat (by decide) (by decide) _).append (hrest.of_append (a := ['\n'])) ?_
      intro z hlast
      rw [List.getLast?_concat] at hlast
      exact absurd (Option.some.inj hlast) (by decide)
    · split at h
      · obtain ⟨rfl, rfl⟩ := Prod.mk.inj (Option.some.inj h)
        rename_i hopen
        rw [Bool.and_eq_true, decide_eq_true_eq, decide_eq_true_eq] at hopen
        obtain ⟨y, hy⟩ := List.head?_eq_some_iff.1 hopen.2
        have hlen := congrArg List.length hy
        have hpos := List.length_pos_iff.2 hw.1
        rw [List.length_append, List.length_cons] at hlen
        have htake : x.take (1 + Trivia.commentExtent (x ++ w).tail) =
            (x ++ w).take (1 + Trivia.commentExtent (x ++ w).tail) :=
          (List.take_append_of_le_length hm).symm
        rw [hy, List.tail_cons] at htake hrest hslash hm
        -- a comment that is left open would reach to the end of `w`
        rcases Trivia.commentExtent_cases y with ⟨body, tail, rfl, -, hbody⟩ | ⟨-, hbody⟩
        · have hbodytake : (body ++ ['*', '/'] ++ tail).take (body.length + 2) =
              body ++ ['*', '/'] := by
            rw [List.take_append_of_le_length (by simp), List.take_of_length_le (by simp)]
          rw [hbody, Nat.add_comm 1, List.take_succ_cons, hbodytake] at htake
          rw [hbody, Nat.add_comm 1] at hrest hslash
          have hsplit : c :: x =
              c :: '*' :: body ++ ['*'] ++ ['/'] ++ x.drop (body.length + 2 + 1) := by
            conv_lhs => rw [← List.take_append_drop (body.length + 2 + 1) x, htake]
            simp
          rw [hsplit]
          refine ((Settled.concat (by decide) (by decide) _).append (.singleton '/') ?_).append
            hrest fun z _ hz => exists_settles (hslash z hz)
          intro z hlast
          rw [List.getLast?_concat] at hlast
          exact absurd (Option.some.inj hlast) (by decide)
        · omega
      · cases h

end

/-- In front of a token, trivia is settled, and a slash that it starts with starts a comment. -/
theorem settled_trivia {fresh : Bool} {g w : Text} (hw : w ≠ [] ∧ w.head? ≠ some '\n')
    (h : Trivia.extent fresh (g ++ w) = g.length) :
    Settled g ∧ ∀ z, g = '/' :: z → isSlashed z := by
  induction hn : g.length using Nat.strongRecOn generalizing g fresh with
  | ind n ih =>
    subst hn
    cases g with
    | nil => exact ⟨.of_notMem List.not_mem_nil, fun z hz => by cases hz⟩
    | cons c x =>
      rw [List.cons_append, List.length_cons] at h
      cases hi : Trivia.item? fresh c (x ++ w) with
      | none =>
        rw [Trivia.extent_of_item?_eq_none hi] at h
        omega
      | some p =>
        obtain ⟨m, next⟩ := p
        rw [Trivia.extent_of_item? hi] at h
        have hm : m ≤ x.length := by omega
        have hlen : (x.drop m).length = x.length - m := List.length_drop
        rw [List.drop_append_of_le_length hm] at h
        obtain ⟨hrest, hslash⟩ := ih (x.drop m).length (by rw [List.length_cons]; omega)
          (by omega : Trivia.extent next (x.drop m ++ w) = _) rfl
        refine ⟨settled_item hw hi hm hrest hslash, fun z hz => ?_⟩
        obtain ⟨rfl, rfl⟩ := List.cons.inj hz
        exact isSlashed_of_item? hi hm

/-! ## 3. Lines across an edit -/

theorem ofComment?_of_isSlashed {z : Text} (h : isSlashed z) : ofComment? z = none := by
  rcases h with h | h <;> obtain ⟨y, rfl⟩ := List.head?_eq_some_iff.1 h
  · exact (ofComment?_stop (by decide) [] y).trans (by decide)
  · exact (ofComment?_stop (by decide) [] y).trans (by decide)

/-- A line goes on behind what is settled: its first comment that suppresses anything is on one
side. -/
theorem ofLine?_settled {a d : Text} (h : Settled a) (hline : '\n' ∉ a)
    (hslash : ∀ z, a.getLast? = some '/' → d = '/' :: z → ofComment? z = none) :
    ofLine? (a ++ d) = (ofLine? a).or (ofLine? d) := by
  fun_induction ofLine? a with
  | case1 a ih =>
    -- the comment has come to an end in `a`
    obtain ⟨c, hc, hs⟩ := h [] a rfl
    have hstop : isStop c = true := by
      rw [settles, Bool.or_eq_true, decide_eq_true_eq] at hs
      exact hs.resolve_right fun hn => hline (by simpa using hn ▸ hc)
    obtain ⟨u, w, rfl⟩ := List.append_of_mem hc
    have hcomment : ofComment? (u ++ c :: w ++ d) = ofComment? (u ++ c :: w) := by
      rw [List.append_assoc, List.cons_append, ofComment?_stop hstop, ofComment?_stop hstop]
    rw [List.cons_append, List.cons_append, ofLine?, hcomment, Option.or_assoc]
    refine congrArg _ (ih (h.of_append (a := ['/'])) (fun hn => hline (by simpa using hn)) ?_)
    intro z hlast
    exact hslash z (by rw [List.getLast?_cons, hlast]; rfl)
  | case2 c a hc ih =>
    have hrest := ih (h.of_append (a := [c])) (fun hn => hline (List.mem_cons_of_mem c hn)) ?_
    · by_cases hmeet : c = '/' ∧ a = [] ∧ d.head? = some '/'
      · obtain ⟨rfl, rfl, hd⟩ := hmeet
        obtain ⟨z, rfl⟩ := List.head?_eq_some_iff.1 hd
        rw [List.singleton_append, ofLine?, hslash z rfl rfl, Option.none_or, ofLine?_nil,
          Option.none_or]
      · rw [List.cons_append, ofLine?, hrest]
        rintro z rfl hz
        cases a with
        | nil => exact hmeet ⟨rfl, rfl, by rw [← List.nil_append d, hz]; rfl⟩
        | cons e a => exact hc a rfl (by rw [(List.cons.inj hz).1])
    · intro z hlast
      exact hslash z (by rw [List.getLast?_cons, hlast]; rfl)
  | case3 => rw [List.nil_append, Option.none_or]

section

variable {before line rest : Text}

theorem lookup_zero (cs : Text) : (ofText cs).lookup 0 = none :=
  lookup_numbered_of_le (Nat.le_refl 0) (lines cs)

theorem lookup_before (h : before = [] ∨ before.getLast? = some '\n') (cs : Text) {k : Nat}
    (hk : k ≤ before.count '\n') : (ofText (before ++ cs)).lookup k = (ofText before).lookup k := by
  cases k with
  | zero => rw [lookup_zero, lookup_zero]
  | succ k =>
    obtain ⟨hlines, hlength⟩ := lines_append h cs
    rw [lookup_ofText, lookup_ofText, hlines, List.getElem?_append_left (by omega)]

theorem lookup_behind (h : before = [] ∨ before.getLast? = some '\n') (cs : Text) (k : Nat) :
    (ofText (before ++ cs)).lookup (before.count '\n' + (k + 1)) = (ofText cs).lookup (k + 1) := by
  obtain ⟨hlines, hlength⟩ := lines_append h cs
  rw [← Nat.add_assoc, lookup_ofText, lookup_ofText, hlines,
    List.getElem?_append_right (by omega), hlength, Nat.add_sub_cancel_left]

theorem lookup_first (hline : '\n' ∉ line) (hrest : rest = [] ∨ rest.head? = some '\n') :
    (ofText (line ++ rest)).lookup 1 = ofLine? line := by
  rw [lookup_ofText]
  rcases hrest with rfl | hrest
  · rw [List.append_nil, lines_last hline]
    split
    · rename_i hnil
      rw [hnil, ofLine?_nil]
      rfl
    · rfl
  · obtain ⟨after, rfl⟩ := List.head?_eq_some_iff.1 hrest
    rw [lines_broken hline]
    exact ofLine?_dropReturn line

/-- The lines behind one do not depend on it. -/
theorem lookup_next {line' : Text} (hline : '\n' ∉ line) (hline' : '\n' ∉ line')
    (hrest : rest = [] ∨ rest.head? = some '\n') (k : Nat) :
    (ofText (line ++ rest)).lookup (k + 2) = (ofText (line' ++ rest)).lookup (k + 2) := by
  rw [lookup_ofText, lookup_ofText]
  rcases hrest with rfl | hrest
  · rw [List.append_nil, List.append_nil, lines_last hline, lines_last hline']
    split <;> split <;> rfl
  · obtain ⟨after, rfl⟩ := List.head?_eq_some_iff.1 hrest
    rw [lines_broken hline, lines_broken hline']
    rfl

theorem lookup_congr {line' : Text} (h : before = [] ∨ before.getLast? = some '\n')
    (hline : '\n' ∉ line) (hline' : '\n' ∉ line') (hrest : rest = [] ∨ rest.head? = some '\n')
    (hsame : ofLine? line = ofLine? line') (k : Nat) :
    (ofText (before ++ (line ++ rest))).lookup k =
      (ofText (before ++ (line' ++ rest))).lookup k := by
  by_cases hk : k ≤ before.count '\n'
  · rw [lookup_before h _ hk, lookup_before h _ hk]
  · obtain ⟨j, rfl⟩ : ∃ j, k = before.count '\n' + (j + 1) := ⟨k - before.count '\n' - 1, by omega⟩
    rw [lookup_behind h, lookup_behind h]
    cases j with
    | zero => rw [lookup_first hline hrest, lookup_first hline' hrest, hsame]
    | succ j => exact lookup_next hline hline' hrest j

end

/-- A text ends with a line of its own. -/
theorem exists_lastLine (cs : Text) :
    ∃ before line, cs = before ++ line ∧ (before = [] ∨ before.getLast? = some '\n') ∧
      '\n' ∉ line := by
  obtain ⟨before, line, rest, hcut⟩ := exists_lineCut (Nat.le_refl (byteSize cs))
  have hstop := hcut.stop
  have hnil : rest = [] := by
    by_contra hne
    have hpos := byteSize_pos hne
    rw [hcut.text, byteSize_append, byteSize_append] at hstop
    omega
  exact ⟨before, line, by rw [hcut.text, hnil, List.append_nil], hcut.opened, hcut.unbroken⟩

/-- A word that is taken out of a line behind settled comments changes nothing. -/
theorem lookup_delete {a m b : Text} (ha : Settled a) (hbreak : '\n' ∉ m) (hm : '/' ∉ m)
    (hb : ∀ z, b = '/' :: z → isSlashed z) (k : Nat) :
    (ofText (a ++ (m ++ b))).lookup k = (ofText (a ++ b)).lookup k := by
  obtain ⟨before, line, rfl, hopened, hline⟩ := exists_lastLine a
  obtain ⟨tail, rest, hcut⟩ := exists_firstLine b
  have hsettled : Settled line := ha.of_append
  -- slashes that meet where the word was open no comment
  have hslash : ∀ z, tail = '/' :: z → ofComment? z = none := by
    rintro z rfl
    cases z with
    | nil => decide
    | cons c z => exact ofComment?_of_isSlashed (hb (c :: z ++ rest) hcut.text)
  have hsame : ofLine? (line ++ (m ++ tail)) = ofLine? (line ++ tail) := by
    rw [ofLine?_settled hsettled hline fun z _ => hslash z,
      ofLine?_settled hsettled hline fun z _ hz => ?_, ofLine?_append hm]
    cases m with
    | nil => exact hslash z hz
    | cons c m => exact absurd (by rw [(List.cons.inj hz).1]; exact List.mem_cons_self) hm
  have hnew : '\n' ∉ line ++ tail := fun hn => (List.mem_append.1 hn).elim hline hcut.unbroken
  have hold : '\n' ∉ line ++ (m ++ tail) := fun hn => (List.mem_append.1 hn).elim hline fun hn =>
    (List.mem_append.1 hn).elim hbreak hcut.unbroken
  have hcongr := lookup_congr hopened hold hnew hcut.closed hsame k
  rw [hcut.text, List.nil_append]
  simpa only [List.append_assoc] using hcongr

/-- What the lines suppress before and after `n` line breaks are put into line `l`. The two parts of
that line suppress together what it did. -/
structure Inserted (old new : Lines) (l n : Nat) : Prop where
  above : ∀ k < l, new.lookup k = old.lookup k
  cut : old.lookup l = (new.lookup l).or (new.lookup (l + n))
  below : ∀ k, l < k → new.lookup (k + n) = old.lookup k

/-- A line that is cut here suppresses what its parts do. -/
def Apart (x z : Text) : Prop :=
  ∀ before a d rest : Text, x = before ++ a → z = d ++ rest → '\n' ∉ a → '\n' ∉ d →
    ofLine? (a ++ d) = (ofLine? a).or (ofLine? d)

theorem Settled.apart {x : Text} (h : Settled x) (hlast : x.getLast? ≠ some '/') (z : Text) :
    Apart x z := by
  rintro before a d rest rfl rfl ha -
  refine ofLine?_settled h.of_append ha fun z hslash => ?_
  rw [List.getLast?_append, hslash] at hlast
  exact absurd rfl hlast

theorem apart_of_endsLine {z : Text} (h : EndsLine z) (x : Text) : Apart x z := by
  obtain ⟨r, u, rfl, hr, hu⟩ := h
  rintro before a d rest rfl hz - hd
  -- what is left of the line is blank
  have hblank : ∀ c ∈ d, isBlank c = true := by
    have hsub : d <+: r := by
      rcases List.append_eq_append_iff.1 hz with ⟨v, rfl, hv⟩ | ⟨v, rfl, -⟩
      · cases v with
        | nil => simp
        | cons c v =>
          have hc := hu c (by rw [hv]; rfl)
          exact absurd (by simp [hc]) hd
      · exact List.prefix_append d v
    intro c hc
    have hmem := hsub.subset hc
    rcases hr with rfl | rfl
    · cases hmem
    · rw [List.mem_singleton.1 hmem]
      decide
  have hnone := ofLine?_blanks hblank []
  rw [List.nil_append, ofLine?_nil] at hnone
  rw [ofLine?_blanks hblank, hnone, Option.or_none]

/-- Lines put into a text, of which the first ends at once and the last says nothing. -/
theorem inserted_ofText {x z r j q e : Text} (hapart : Apart x z)
    (hfirst : q ++ e = r ++ '\n' :: j) (hr : ∀ c ∈ r, isBlank c = true) (hbreak : '\n' ∉ r)
    (hq : q.getLast? = some '\n') (he : '\n' ∉ e) (hslash : '/' ∉ e) :
    Inserted (ofText (x ++ z)) (ofText (x ++ (q ++ e ++ z))) (x.count '\n' + 1)
      ((q ++ e).count '\n') := by
  obtain ⟨before, a, rfl, hopened, ha⟩ := exists_lastLine x
  obtain ⟨d, rest, hcut⟩ := exists_firstLine z
  have hz : z = d ++ rest := hcut.text
  have hcount : (before ++ a).count '\n' = before.count '\n' := by
    rw [List.count_append, List.count_eq_zero.2 ha, Nat.add_zero]
  have hline : '\n' ∉ a ++ d := fun hn => (List.mem_append.1 hn).elim ha hcut.unbroken
  have hline' : '\n' ∉ e ++ d := fun hn => (List.mem_append.1 hn).elim he hcut.unbroken
  have hlead : '\n' ∉ a ++ r := fun hn => (List.mem_append.1 hn).elim ha hbreak
  have hold : before ++ a ++ z = before ++ (a ++ d ++ rest) := by
    rw [hz]
    simp only [List.append_assoc]
  -- the new text, cut at its first new line and at its last
  have htop : before ++ a ++ (q ++ e ++ z) = before ++ (a ++ r ++ '\n' :: (j ++ z)) := by
    rw [hfirst]
    simp only [List.append_assoc, List.cons_append]
  have hbottom : before ++ a ++ (q ++ e ++ z) = before ++ a ++ q ++ (e ++ d ++ rest) := by
    rw [hz]
    simp only [List.append_assoc]
  have hopened' : before ++ a ++ q = [] ∨ (before ++ a ++ q).getLast? = some '\n' := by
    rw [List.getLast?_append, hq]
    exact Or.inr rfl
  have hcount' : before.count '\n' + (q ++ e).count '\n' = (before ++ a ++ q).count '\n' := by
    rw [List.count_append, List.count_append, hcount, List.count_eq_zero.2 he, Nat.add_zero]
  have hcutline : (ofText (before ++ a ++ z)).lookup (before.count '\n' + 1) =
      ofLine? (a ++ d) := by
    rw [hold, lookup_behind hopened, lookup_first hline hcut.closed]
  have hnewline : (ofText (before ++ a ++ (q ++ e ++ z))).lookup (before.count '\n' + 1) =
      ofLine? a := by
    rw [htop, lookup_behind hopened, lookup_first hlead (Or.inr rfl), ofLine?_blanks hr]
  rw [hcount]
  refine ⟨fun k hk => ?_, ?_, fun k hk => ?_⟩
  · rw [htop, hold, lookup_before hopened _ (Nat.le_of_lt_succ hk),
      lookup_before hopened _ (Nat.le_of_lt_succ hk)]
  · rw [hcutline, hnewline, Nat.add_right_comm, hcount', hbottom, lookup_behind hopened',
      lookup_first hline' hcut.closed, ofLine?_append hslash,
      hapart _ _ _ _ rfl hz ha hcut.unbroken]
  · obtain ⟨i, rfl⟩ : ∃ i, k = before.count '\n' + (i + 1 + 1) :=
      ⟨k - before.count '\n' - 2, by omega⟩
    rw [Nat.add_right_comm, hcount', hbottom, lookup_behind hopened', hold, lookup_behind hopened,
      lookup_next hline' hline hcut.closed]

end Suppression

end EventLint
