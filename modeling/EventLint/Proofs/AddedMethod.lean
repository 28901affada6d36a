import EventLint.Proofs.FirstLine
import EventLint.Proofs.Remaining

/-!
# The events around an added method

A method that is added behind an event pushes what follows it down. Main statement: a method whose
type closes its angle brackets leaves all events as they are if it is added behind a complete one.
Those behind it are seen further down, and the line of its end suppresses in two parts what it did
before.
-/

namespace EventLint

open Text Token

/-! ## 1. Angle brackets -/

namespace Tree

/-- The angle brackets close here: `depth` open ones, and those that are opened, each after it is
opened. -/
def anglesClose : Nat → List TokenKind → Bool
  | depth, [] => depth = 0
  | depth, k :: ks =>
    if k = .lt then anglesClose (depth + 1) ks
    else if k = .gt then 0 < depth && anglesClose (depth - 1) ks
    else anglesClose depth ks

theorem anglesClose_append {a b : List TokenKind} {depth : Nat} (ha : anglesClose depth a = true)
    (hb : anglesClose 0 b = true) : anglesClose depth (a ++ b) = true := by
  induction a generalizing depth with
  | nil =>
    rw [anglesClose, decide_eq_true_eq] at ha
    rwa [ha]
  | cons k a ih =>
    rw [anglesClose] at ha
    rw [List.cons_append, anglesClose]
    by_cases hlt : k = .lt
    · rw [if_pos hlt] at ha ⊢
      exact ih ha
    · rw [if_neg hlt] at ha ⊢
      by_cases hgt : k = .gt
      · rw [if_pos hgt, Bool.and_eq_true] at ha ⊢
        exact ⟨ha.1, ih ha.2⟩
      · rw [if_neg hgt] at ha ⊢
        exact ih ha

/-- Brackets that are open in front of tokens that close their own are open behind them. -/
theorem angleOpens_of_anglesClose {ts : List Token} {depth : Nat}
    (h : anglesClose depth (ts.map Token.kind) = true) (outer : Nat) (us : List Token) :
    angleOpens (outer + 1 + depth) (ts ++ us) = angleOpens (outer + 1) us := by
  induction ts generalizing depth with
  | nil =>
    rw [List.map_nil, anglesClose, decide_eq_true_eq] at h
    rw [h]
    rfl
  | cons t ts ih =>
    rw [List.map_cons, anglesClose] at h
    rw [List.cons_append, Nat.add_right_comm, angleOpens_succ]
    by_cases hlt : t.kind = .lt
    · rw [if_pos hlt] at h ⊢
      rw [← ih h, Nat.add_add_add_comm]
    · rw [if_neg hlt] at h ⊢
      by_cases hgt : t.kind = .gt
      · rw [if_pos hgt, Bool.and_eq_true, decide_eq_true_eq] at h
        rw [if_pos hgt, ← ih h.2, Nat.add_assoc outer, Nat.add_sub_cancel' h.1]
      · rw [if_neg hgt] at h ⊢
        rw [← ih h, Nat.add_right_comm]

end Tree

open Tree

/-- Text that is scanned in front of a blank is scanned alone. -/
theorem Token.Scans.map_bare {w : Text} {xs : List Lexeme} (h : Scans w xs) :
    (scanFrom false 0 w).map bare = xs := by
  obtain ⟨ts, fresh, offset, hscan, hbare, hsource⟩ := h [] [] 0 (Or.inl rfl)
  rw [List.nil_append] at hscan hsource
  have hend : Continues ts [' '] [] :=
    ⟨⟨fun _ h => (by cases h), fun _ h => (by cases h)⟩, fun h => (by cases h),
      fun h => (by cases h)⟩
  have halone := scanFrom_append hend (by rw [hsource]; exact hscan)
  have hnil : ∀ fresh offset, scanFrom fresh offset [] = [] := fun fresh offset =>
    scanFrom_eq_nil_iff.2 (Nat.zero_le _)
  rw [List.append_nil, hsource, hnil, List.append_nil] at halone
  rw [halone, hbare]

/-- The brackets of a method are those of its type. -/
theorem RaiseMethod.anglesClose_lexemes (m : RaiseMethod) {xs : List Lexeme}
    (h : anglesClose 0 (xs.map Prod.fst) = true) :
    anglesClose 0 ((m.lexemes xs).map Prod.fst) = true := by
  simp only [lexemes, List.map_append]
  exact anglesClose_append rfl (anglesClose_append h (anglesClose_append rfl
    (anglesClose_append h rfl)))

/-! ## 2. Behind an event -/

namespace Tree.EventPlace

variable {ts : List Token} {before behind : List Tree} {n : Tree} {e : Event} {w : List Token}

theorem leaves_append (p : EventPlace ts before n behind) (w : List Token) :
    n.leaves ++ w = leavesAll (attributes p.member).1 ++
      (p.mods ++ p.keyword :: (leavesAll p.parts ++ w)) := by
  rw [p.leaves_eq]
  simp only [List.append_assoc, List.cons_append]

/-- The reader comes to an event whatever follows it. -/
theorem run_behind (p : EventPlace ts before n behind) (hw : AngleLike p.member (n.leaves ++ w)) :
    Run [.file] (p.front ++ (n.leaves ++ w)) p.met (p.level :: p.outer) (n.leaves ++ w) := by
  have hhead : p.member.head? = (n.leaves ++ w).head? := by
    obtain ⟨t, us, ht⟩ := List.exists_cons_of_ne_nil (List.ne_nil_of_mem p.keyword_mem)
    rw [p.member_leaves, ht]
    rfl
  rw [p.leaves_append] at hw hhead ⊢
  obtain ⟨i, mods, hsplit, -, hsame, hresume⟩ := p.run.resume_event p.isModifier p.isKeyword hw
  obtain rfl := hsame hhead
  obtain rfl : p.mods = mods := hsplit
  exact hresume

/-- The events of a text in which something else follows a complete event. -/
theorem taggedEvents_behind (p : EventPlace ts before n behind) (he : Event.ofTree? n = some e)
    (hc : n.isComplete = true) (hw : AngleLike p.after w) :
    (ofTokens (p.front ++ (n.leaves ++ w))).taggedEvents false =
      p.met ++ (p.level.hidden, n) :: taggedFrom (p.level :: p.outer) w := by
  have hangle : AngleLike p.member (n.leaves ++ w) := by
    obtain ⟨a, t, ha, ht⟩ := p.exists_last he hc
    have hends : t.kind = .semicolon ∨ t.kind.closes = true := ht.imp id fun hk => by rw [hk]; rfl
    intro depth
    rw [p.member_leaves, ha, List.append_assoc, List.append_assoc]
    exact angleOpens_append hends hw (depth + 1)
  obtain ⟨e₀, he₀, -⟩ := p.exists_bare he
  rw [← taggedFrom_file, (p.run_behind hangle).taggedFrom_eq]
  have hevent := (event_complete p.isKeyword (p.children []) (p.isComplete_bare.trans hc) he₀ · w)
  rw [p.leaves_append, taggedFrom_event p.level p.outer p.attributes_ne_nil p.isModifier
    p.isKeyword hevent p.isEvent, ← p.node_eq]

/-- Nor do they change if a raise method is put behind it. -/
theorem taggedEvents_method (p : EventPlace ts before n behind) (he : Event.ofTree? n = some e)
    (hc : n.isComplete = true) {m : RaiseMethod} {argument : Tree} {ms us : List Token}
    (hread : Reread argument) (htype : m.argumentType = argument.text)
    (hms : ms.map bare = m.lexemes (argument.leaves.map bare))
    (hword : m.argumentType ∉ openingWords.map String.toList)
    (hangles : anglesClose 0 ((argument.leaves.map bare).map Prod.fst) = true)
    (hus : us.map Token.kind = p.after.map Token.kind) :
    (ofTokens (p.front ++ (n.leaves ++ (ms ++ us)))).taggedEvents false =
      p.met ++ (p.level.hidden, n) :: taggedFrom (p.level :: p.outer) us := by
  have hclose : anglesClose 0 (ms.map Token.kind) = true := by
    have hkinds : ms.map Token.kind = (ms.map bare).map Prod.fst := by
      rw [List.map_map]
      rfl
    rw [hkinds, hms]
    exact m.anglesClose_lexemes hangles
  have hangle : AngleLike p.after (ms ++ us) := fun depth =>
    (angleOpens_of_anglesClose hclose depth us).trans (angleOpens_congr hus (depth + 1))
  obtain ⟨method, -, hopening, hmethod, -⟩ := exists_method hread htype hms hword us
  obtain ⟨hends, hopen⟩ := hopening p.level.scope
  have hnone : method.nodeKind?.any NodeKind.isEvent = false := by
    rw [of_decide_eq_true hmethod]
    rfl
  rw [p.taggedEvents_behind he hc hangle, taggedFrom_of_whole p.outer hends hopen,
    (opening?_whole hopen).taggedEvents, hnone, if_neg Bool.false_ne_true, List.nil_append]

end Tree.EventPlace

/-! ## 3. In a text -/

/-- The tokens behind a comment at the end of a line are found without it. -/
theorem Token.scanFrom_comment {c z : Text} (h : c = [] ∨ IsLineComment c ∧ EndsLine z)
    (offset : Nat) :
    (scanFrom false offset (c ++ z)).map (Relabelling.moved 0).apply =
      (scanFrom false (offset + byteSize c) z).map (Relabelling.moved 0).apply := by
  refine scanFrom_trivia ?_ offset
  rcases h with rfl | ⟨⟨b, w, rfl, hb, hbreak⟩, r, u, rfl, hr, hu⟩
  · exact (Nat.zero_add _).symm
  · have hblank : ∀ d ∈ r, isBlank d = true := by
      rcases hr with rfl | rfl
      · exact List.forall_mem_nil _
      · exact List.forall_mem_singleton.2 (by decide)
    have hline : '\n' ∉ w ++ r := by
      rcases hr with rfl | rfl <;> simp_all
    have hfresh : Trivia.freshAfter false r = false := by
      rcases hr with rfl | rfl <;> rfl
    have hcut : b ++ '/' :: '/' :: w ++ (r ++ u) = b ++ '/' :: '/' :: (w ++ r) ++ u := by
      simp only [List.append_assoc, List.cons_append]
    rw [hcut, Trivia.extent_lineComment false hb hline hu, Trivia.extent_blanks false hblank,
      hfresh]
    simp only [List.length_append, List.length_cons]
    omega

/-- A method is added on lines of its own, the last of which holds its brace. -/
theorem RaiseMethod.exists_lines (m : RaiseMethod) (indent text : Text) :
    ∃ r j q, newline text ++ newline text ++ m.render indent (newline text) = r ++ '\n' :: j ∧
      (∀ c ∈ r, isBlank c = true) ∧ '\n' ∉ r ∧
      newline text ++ newline text ++ m.render indent (newline text) = q ++ (indent ++ ['\x7d']) ∧
      q.getLast? = some '\n' := by
  obtain ⟨r, hnewline, hr, hbreak⟩ : ∃ r, newline text = r ++ ['\n'] ∧
      (∀ c ∈ r, isBlank c = true) ∧ '\n' ∉ r := by
    rcases newline_cases text with hn | hn
    · exact ⟨[], hn, List.forall_mem_nil _, List.not_mem_nil⟩
    · exact ⟨['\r'], hn, List.forall_mem_singleton.2 (by decide), by decide⟩
  have hrender : m.render indent (newline text) =
      (newline text).intercalate ((m.lines indent).take 4) ++ newline text ++
        (indent ++ ['\x7d']) := by
    simp [render, lines, List.intercalate]
  refine ⟨r, newline text ++ m.render indent (newline text), newline text ++ newline text ++
    ((newline text).intercalate ((m.lines indent).take 4) ++ newline text), ?_, hr, hbreak, ?_, ?_⟩
  · conv_lhs => rw [List.append_assoc, hnewline]
    rw [hnewline, List.append_assoc, List.singleton_append]
  · rw [hrender]
    simp only [List.append_assoc]
  · rw [hnewline, ← List.append_assoc, ← List.append_assoc, List.getLast?_concat]

/-- Behind a text with a line more, tokens stand a line further down. -/
theorem Token.lined_insert {x i z : Text} {after us : List Token}
    (hafter : after.map (Relabelling.moved 0).apply =
      (scanFrom false (byteSize x) z).map (Relabelling.moved 0).apply)
    (hus : us = scanFrom false (byteSize (x ++ i)) z) :
    us.map (Relabelling.lined (LineIndex.ofText (x ++ i ++ z)).line).apply = after.map
      (Relabelling.lined fun offset =>
        (LineIndex.ofText (x ++ z)).line offset + i.count '\n').apply := by
  have hlined : ∀ (line : Nat → Nat) (ts : List Token), ts.map (Relabelling.lined line).apply =
      (ts.map (Relabelling.moved 0).apply).map (Relabelling.lined line).apply := by
    intro line ts
    rw [List.map_map]
    rfl
  rw [hlined _ after, hafter, ← hlined, hus, scanFrom_eq_shift false (byteSize (x ++ i)),
    scanFrom_eq_shift false (byteSize x), List.map_map, List.map_map]
  refine List.map_congr_left fun t _ => ?_
  have hline : (LineIndex.ofText (x ++ i ++ z)).line (t.start + byteSize (x ++ i)) =
      (LineIndex.ofText (x ++ z)).line (t.start + byteSize x) + i.count '\n' := by
    rw [LineIndex.line_append, LineIndex.line_append, List.count_append, Nat.add_assoc]
  simp only [Function.comp_apply, Relabelling.lined, shift, hline]

namespace Tree.EventPlace

variable {text : Text} {before behind : List Tree} {n : Tree} {e : Event}

theorem exists_lastChar (p : EventPlace (scan text) before n behind)
    (he : Event.ofTree? n = some e) (hc : n.isComplete = true) :
    ∃ y s, source (p.front ++ n.leaves) = y ++ [s] ∧ (s = ';' ∨ s = '\x7d') := by
  obtain ⟨a, t, ha, ht⟩ := p.exists_last he hc
  have hmem : t ∈ scan text := by
    rw [p.scan_eq, ha]
    simp
  obtain ⟨s, htext, hs⟩ : ∃ s, t.text = [s] ∧ (s = ';' ∨ s = '\x7d') := by
    have hmark := (spelled_of_mem_scan hmem).mark
    rcases ht with ht | ht <;> rw [ht] at hmark
    · exact ⟨';', congrArg Prod.snd (hmark (by decide)), Or.inl rfl⟩
    · exact ⟨'\x7d', congrArg Prod.snd (hmark (by decide)), Or.inr rfl⟩
  refine ⟨source (p.front ++ a) ++ t.leading, s, ?_, hs⟩
  rw [ha, ← List.append_assoc, source_append, source_cons, source_nil, List.append_nil, htext,
    List.append_assoc]

section

variable {x z c : Text} (p : EventPlace (scan text) before n behind)
  (he : Event.ofTree? n = some e) (hc : n.isComplete = true) (htext : text = x ++ z)
  (hx : x = source (p.front ++ n.leaves) ++ c) (hends : c = [] ∨ IsLineComment c ∧ EndsLine z)

include he hc htext hx hends

/-- The tokens behind the event stand further down behind what is added. -/
theorem lined_addition {added : Text} {ms us : List Token}
    (hadded : added.getLast? = some '\x7d') (hsource : source ms = c ++ added)
    (hscan : scan (x ++ added ++ z) = p.front ++ n.leaves ++ (ms ++ us)) :
    us.map (Relabelling.lined (LineIndex.ofText (x ++ added ++ z)).line).apply = p.after.map
      (Relabelling.lined fun offset =>
        (LineIndex.ofText text).line offset + added.count '\n').apply := by
  have hafter : p.after.map (Relabelling.moved 0).apply =
      (scanFrom false (byteSize x) z).map (Relabelling.moved 0).apply := by
    obtain ⟨y, s, hy, hs⟩ := p.exists_lastChar he hc
    have hblank : isBlank s = false := by
      rcases hs with rfl | rfl <;> decide
    have hcut : text = source (p.front ++ n.leaves) ++ (c ++ z) :=
      htext.trans (by rw [hx, List.append_assoc])
    have hrest := scanFrom_rest ((congrArg scan hcut).symm.trans p.scan_eq)
    rw [hy, Trivia.freshAfter_eq_false true y [] s hblank List.not_mem_nil, ← hy,
      Nat.zero_add] at hrest
    rw [← hrest, scanFrom_comment hends, hx, byteSize_append]
  have hus : us = scanFrom false (byteSize (x ++ added)) z := by
    have hcut : source (p.front ++ n.leaves ++ ms) = x ++ added := by
      rw [source_append, hsource, hx, List.append_assoc]
    obtain ⟨y, hy⟩ := List.getLast?_eq_some_iff.1 hadded
    have hall : scanFrom true 0 (source (p.front ++ n.leaves ++ ms) ++ z) =
        p.front ++ n.leaves ++ ms ++ us := by
      rw [hcut]
      exact hscan.trans (List.append_assoc _ _ _).symm
    have hrest := scanFrom_rest hall
    rw [hcut, hy, ← List.append_assoc, Trivia.freshAfter_eq_false true (x ++ y) [] '\x7d'
      (by decide) List.not_mem_nil, Nat.zero_add, List.append_assoc, ← hy] at hrest
    exact hrest.symm
  have hlined := lined_insert hafter hus
  rwa [← htext] at hlined

/-- What is added cuts the line on which the event ends. -/
theorem inserted_addition (m : RaiseMethod) {indent : Text}
    (hindent : ∀ d ∈ indent, isIndent d = true) :
    Suppression.Inserted (Suppression.ofText text)
      (Suppression.ofText
        (x ++ (newline text ++ newline text ++ m.render indent (newline text)) ++ z))
      ((LineIndex.ofText text).line ((Document.ofText text).spanOf n).stop)
      ((newline text ++ newline text ++ m.render indent (newline text)).count '\n') := by
  have hapart : Suppression.Apart x z := by
    rcases hends with rfl | hends
    · obtain ⟨y, s, hy, hs⟩ := p.exists_lastChar he hc
      have hplain : Suppression.settles s = true ∧ s ≠ '/' := by
        rcases hs with rfl | rfl <;> decide
      rw [hx, List.append_nil, hy]
      refine (Suppression.Settled.concat hplain.1 hplain.2 y).apart ?_ z
      rw [List.getLast?_concat]
      exact fun h => hplain.2 (Option.some.inj h)
    · exact Suppression.apart_of_endsLine hends.2 x
  have hline : (LineIndex.ofText text).line ((Document.ofText text).spanOf n).stop =
      x.count '\n' + 1 := by
    have hbreak : '\n' ∉ c := by
      rcases hends with rfl | ⟨⟨-, -, -, -, hbreak⟩, -⟩
      · exact List.not_mem_nil
      · exact hbreak
    have hcut : text = source (p.front ++ n.leaves) ++ (c ++ z) :=
      htext.trans (by rw [hx, List.append_assoc])
    rw [Document.spanOf_stop p.scan_eq (List.ne_nil_of_mem p.keyword_mem), hx, List.count_append,
      List.count_eq_zero.2 hbreak, Nat.add_zero]
    exact (congrArg (fun text => (LineIndex.ofText text).line _) hcut).trans
      (LineIndex.line_byteSize _ _)
  obtain ⟨r, j, q, hfirst, hr, hbreak, hlast, hq⟩ := m.exists_lines indent text
  have hplain : ∀ d ∈ indent ++ ['\x7d'], d ≠ '\n' ∧ d ≠ '/' := by
    intro d hd
    rcases List.mem_append.1 hd with hd | hd
    · have hd := hindent d hd
      constructor <;> rintro rfl <;> cases hd
    · rw [List.mem_singleton.1 hd]
      decide
  have hinserted := Suppression.inserted_ofText hapart (hlast.symm.trans hfirst) hr hbreak hq
    (fun hd => (hplain _ hd).1 rfl) (fun hd => (hplain _ hd).2 rfl)
  rwa [← hlast, ← htext, ← List.append_assoc, ← hline] at hinserted

end

end Tree.EventPlace

namespace Document

open EventLint.Tree

/-- Adding a raise method behind a complete event. -/
theorem exists_added {text : Text} {met more : List (Bool × Tree)} {x : Bool × Tree} {e : Event}
    {m : RaiseMethod} (h : members text = met ++ x :: more) (he : Event.ofTree? x.2 = some e)
    (hm : e.raiseMethod = .ok m) (hc : x.2.isComplete = true) (hname : e.name.head? ≠ some '@')
    (htype : m.argumentType ∉ openingWords.map String.toList)
    (hangles : anglesClose 0 ((scanFrom false 0 m.argumentType).map Token.kind) = true)
    (start : Nat) :
    ∃ text' behind d, Edit.applyAll [(ofText text).addition x.2 start m] text = .ok text' ∧
      Kept (met ++ [x]) text text' ∧ members text' = met ++ x :: behind ∧
      behind.filterMap (sightingIn? text') =
        (more.filterMap (sightingIn? text)).map (Sighting.lower d) ∧
      Suppression.Inserted (Suppression.ofText text) (Suppression.ofText text')
        ((LineIndex.ofText text).line ((ofText text).spanOf x.2).stop) d := by
  have hevents := eventNodes_of_members h
  obtain ⟨p⟩ := exists_eventPlace hevents
  obtain ⟨hmet, hhidden, hmore⟩ := members_eq_of_place h p
  have hn : x.2 ∈ (ofText text).root.preorder :=
    (mem_preorder_of_mem_eventNodes (ofTokens (scan text)) (by rw [hevents]; simp)).1
  obtain ⟨argument, hread, hargument, hspelled⟩ := p.exists_spelled hn he hm hname
  obtain ⟨w, z, htext, hpoint, -, happly⟩ := exists_addition hn start m
  have hindent : ∀ d ∈ Text.indentAt start text, isIndent d = true :=
    fun d hd => List.all_eq_true.1 List.all_takeWhile d hd
  obtain ⟨c, ms, us, hw, hends, hscan, hms, -, hsource⟩ := p.exists_scan_addition he hc hspelled
    (fun d hd => isBlank_of_isIndent (hindent d hd)) htext hpoint
  obtain ⟨-, -, q, -, -, -, hlast, -⟩ := m.exists_lines (Text.indentAt start text) text
  have hlined := p.lined_addition he hc htext hw hends
    (by rw [hlast, ← List.append_assoc, List.getLast?_concat]) hsource hscan
  have hkinds : us.map Token.kind = p.after.map Token.kind := by
    have hkinds := congrArg (List.map Token.kind) hlined
    rwa [List.map_map, List.map_map] at hkinds
  have hmembers := p.taggedEvents_method he hc hread hargument hms htype
    (by rw [← hspelled.type.map_bare, List.map_map]; exact hangles) hkinds
  rw [← List.append_assoc, ← hscan, hmet, hhidden] at hmembers
  refine ⟨_, _, _, happly, ?_, hmembers, ?_, p.inserted_addition he hc htext hw hends m hindent⟩
  · refine .of_tokens p.scan_eq hscan fun y hy u hu => ?_
    rcases List.mem_append.1 hy with hy | hy
    · exact List.mem_append_left _ (p.run.leaves y (by rw [hmet]; exact hy) u hu)
    · rw [List.mem_singleton.1 hy] at hu
      exact List.mem_append_right _ hu
  · have hseen := sightings_of_lined hlined (p.level :: p.outer)
    rw [sightings_lower, hmore] at hseen
    exact hseen

end Document

end EventLint
