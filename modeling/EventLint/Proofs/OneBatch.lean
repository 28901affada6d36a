import EventLint.Proofs.EventPlace
import EventLint.Proofs.FixSafety

/-!
# Extraction in one batch

An extraction first adds the method, reads the text again, finds the declaration again and then
removes its modifier. Main statement: the second edit is the one that removes the modifier from the
first text, so both edits could as well be made at once.
-/

namespace EventLint

open Text

/-! ## 1. The scan up to a word -/

namespace Token

theorem isName_of_isPlainWord {w : Text} (h : isPlainWord w = true) : isName w = true := by
  obtain ⟨c, u, rfl, hc, hall⟩ := exists_of_isPlainWord h
  rw [isName, isAlphabetic_of_isAlpha hc, Bool.or_true, Bool.true_and, List.all_eq_true]
  exact fun d hd => isWordPart_of_isAlpha (hall d (List.mem_cons_of_mem c hd))

theorem lexeme_plainWord {c : Char} {u z : Text} (hword : isPlainWord (c :: u) = true)
    (hz : ∀ d ∈ z.head?, isWordPart d = false) :
    lexeme c (u ++ z) = (wordKind (c :: u), u.length) := by
  obtain ⟨c', u', hcu, -, -, hlex⟩ := stands_word (isName_of_isPlainWord hword) hz
  obtain ⟨rfl, rfl⟩ := List.cons.inj hcu
  exact hlex

section

variable {k : Token} {pre post : List Token} {w w' : Text}

/-- A word is scanned whatever follows it, unless that goes on with the word. -/
theorem scanFrom_word {fresh : Bool} {offset : Nat}
    (h : scanFrom fresh offset (k.leading ++ (k.text ++ w)) = k :: post)
    (hword : isPlainWord k.text = true)
    (hw : ∀ d ∈ w'.head?, isWordPart d = true → w.head? = some d) :
    scanFrom fresh offset (k.leading ++ (k.text ++ w')) =
      k :: scanFrom false (offset + byteSize (k.leading ++ k.text)) w' := by
  obtain ⟨c, u, z, htext, hcut, hextent, hlex, hstart, -⟩ := exists_of_scanFrom h
  have hc : c.isAlpha = true := by
    obtain ⟨d, v, hdv, hd, -⟩ := exists_of_isPlainWord hword
    rwa [(List.cons.inj (htext.symm.trans hdv)).1]
  have hbreak := newline_notMem_of_isPlainWord hword
  rw [htext, List.cons_append] at hcut hextent
  rw [htext] at hword hbreak
  obtain rfl : w = z := List.append_cancel_left (List.cons.inj (List.append_cancel_left hcut)).2
  have hend := head_not_isWordPart_of_lexeme hlex hc
  have hend' : ∀ d ∈ w'.head?, isWordPart d = false := fun d hd =>
    Bool.eq_false_iff.2 fun hpart => by
      rw [hend d (hw d hd hpart)] at hpart
      cases hpart
  have hkind : k.kind = wordKind (c :: u) := by
    rw [lexeme_plainWord hword hend] at hlex
    exact (Prod.mk.inj hlex).1.symm
  -- what stands in front of the word is trivia whatever the word is followed by
  have hextent' : Trivia.extent fresh (k.leading ++ c :: (u ++ w')) = k.leading.length := by
    have hne : c :: (u ++ w) ≠ [] ∧ (c :: (u ++ w)).head? ≠ some '\n' :=
      ⟨List.cons_ne_nil _ _, fun hn => hbreak (Option.some.inj hn ▸ List.mem_cons_self)⟩
    have hnone : ∀ d ∈ ([] : Text), isIndent d = true := fun d hd => by cases hd
    rw [Trivia.extent_append_of_blanks _ hnone hne hextent, Trivia.extent_of_item?_eq_none,
      Nat.add_zero]
    exact item?_of_isWordPart (Or.inl (isWordPart_of_isAlpha hc)) _
  have hfresh : Trivia.freshAfter fresh (k.leading ++ c :: u) = false :=
    freshAfter_plainWord fresh k.leading hword
  rw [htext, List.cons_append, scanFrom_of_lexeme hextent' (lexeme_plainWord hword hend'), hfresh,
    ← hkind, ← htext, ← hstart]

/-- The tokens up to a word are scanned whatever follows it. -/
theorem scan_word (h : scan (source pre ++ (k.leading ++ (k.text ++ w))) = pre ++ k :: post)
    (hword : isPlainWord k.text = true) (hc : ∀ t ∈ pre.getLast?, t.kind.isClean = true)
    (hw : ∀ d ∈ w'.head?, isWordPart d = true → w.head? = some d) :
    ∃ post', scan (source pre ++ (k.leading ++ (k.text ++ w'))) = pre ++ k :: post' := by
  rw [scan] at h
  have hmid := scanFrom_rest h
  -- the first character behind the tokens in front stays the same
  obtain ⟨a, y, hy, hcalm⟩ : ∃ a y, k.leading ++ k.text = a :: y ∧ isCalm a = true := by
    obtain ⟨c, u, hcu, hca, -⟩ := exists_of_isPlainWord hword
    obtain ⟨-, -, -, -, -, hextent, -⟩ := exists_of_scanFrom hmid
    cases hlead : k.leading with
    | nil => exact ⟨c, u, by rw [hcu, List.nil_append], by rw [isCalm, hca, Bool.or_true]⟩
    | cons a v =>
      rw [hlead, List.cons_append, List.length_cons] at hextent
      exact ⟨a, v ++ k.text, rfl,
        (Trivia.isCalm_of_extent (Nat.lt_of_lt_of_eq (Nat.succ_pos _) hextent.symm)).1⟩
  have hcont : Continues pre (k.leading ++ (k.text ++ w)) (k.leading ++ (k.text ++ w')) := by
    rw [← List.append_assoc, ← List.append_assoc, hy, List.cons_append, List.cons_append]
    refine ⟨⟨fun c hca => ?_, fun c hca halpha => ⟨c, hca, halpha⟩⟩, fun _ hlast => ?_,
      fun hn => ?_⟩
    · rwa [← Option.some.inj hca]
    · exact absurd (isSolid_source h hc hlast) (by decide)
    · cases hn
  exact ⟨_, by rw [scan, scanFrom_append hcont h, scanFrom_word hmid hword hw]⟩

end

end Token

/-! ## 2. Two edits -/

theorem Text.takeWhile_isIndent_congr {s : Text} {c : Char} (hc : c ∈ s) (h : isIndent c = false)
    (y y' : Text) : (s ++ y').takeWhile isIndent = (s ++ y).takeWhile isIndent := by
  have hne : (s.takeWhile isIndent).length ≠ s.length := fun hlen => by
    have hall := List.all_takeWhile (p := isIndent) (l := s)
    rw [(List.takeWhile_prefix isIndent).eq_of_length hlen, List.all_eq_true] at hall
    rw [hall c hc] at h
    cases h
  rw [List.takeWhile_append, List.takeWhile_append, if_neg hne, if_neg hne]

/-- The edit that removes a token depends on the line in front of it and the blanks behind it. -/
theorem Modifier.removal_congr {p q q' : Text} {t : Token} (hstart : t.start = byteSize p)
    (h : q'.takeWhile isIndent = q.takeWhile isIndent) :
    removal (p ++ t.text ++ q') t = removal (p ++ t.text ++ q) t := by
  have hstop : t.stop = byteSize (p ++ t.text) := by rw [Token.stop, hstart, byteSize_append]
  have hafter : ∀ y : Text,
      blanksAfter (p ++ t.text ++ y) t.stop = (y.takeWhile isIndent).length := by
    intro y
    rw [blanksAfter, hstop, dropBytes_append]
  have hbefore : ∀ y : Text, takeBytes t.start (p ++ t.text ++ y) = p := by
    intro y
    rw [hstart, List.append_assoc, takeBytes_append]
  unfold removal
  dsimp only
  rw [hafter, hafter, hbefore, hbefore, h]

/-- A deletion and an insertion behind it, made at once. -/
theorem Edit.applyAll_insert_delete (x l z r : Text) {d : Text} (hd : d ≠ []) :
    applyAll [insert (byteSize (x ++ d ++ l)) r, delete (byteSize x) (byteSize (x ++ d))]
      (x ++ d ++ l ++ z) = .ok (x ++ l ++ r ++ z) := by
  have hpos := byteSize_pos hd
  have hfits : Fits (x ++ d ++ l ++ z)
      [insert (byteSize (x ++ d ++ l)) r, delete (byteSize x) (byteSize (x ++ d))] := by
    refine ⟨fun e he => ?_, ?_⟩
    · simp only [List.mem_cons, List.not_mem_nil, or_false] at he
      rcases he with rfl | rfl
      · exact ⟨x ++ d ++ l, [], z, by rw [List.append_nil], rfl, by rw [List.append_nil]; rfl⟩
      · exact ⟨x, d, l ++ z, by rw [List.append_assoc (x ++ d)], rfl, rfl⟩
    · rw [List.pairwise_pair]
      simp only [overlaps, insert, delete, byteSize_append, Bool.and_eq_false_imp,
        decide_eq_true_eq]
      omega
  -- the deletion stands further in front, so the insertion is performed first
  have hsort : List.mergeSort [insert (byteSize (x ++ d ++ l)) r,
      delete (byteSize x) (byteSize (x ++ d))] (fun a b => a.start ≤ b.start) =
      [delete (byteSize x) (byteSize (x ++ d)), insert (byteSize (x ++ d ++ l)) r] := by
    have hlt : ¬ byteSize x + (byteSize d + byteSize l) ≤ byteSize x := by omega
    simp [List.mergeSort, insert, delete, hlt]
  have hinsert : splice (insert (byteSize (x ++ d ++ l)) r) (x ++ d ++ l ++ [] ++ z) =
      .ok (x ++ d ++ l ++ r ++ z) := splice_eq _ rfl (by rw [List.append_nil]; rfl)
  have hdelete : splice (delete (byteSize x) (byteSize (x ++ d))) (x ++ d ++ (l ++ r ++ z)) =
      .ok (x ++ [] ++ (l ++ r ++ z)) := splice_eq _ rfl rfl
  rw [List.append_nil] at hinsert hdelete
  rw [applyAll, batchFault?_eq_none_iff.2 hfits]
  dsimp only
  rw [hsort, List.foldrM_cons, List.foldrM_cons, List.foldrM_nil, pure_bind, hinsert]
  show splice (delete (byteSize x) (byteSize (x ++ d))) (x ++ d ++ l ++ r ++ z) = _
  rw [List.append_assoc (x ++ d), List.append_assoc (x ++ d), hdelete]
  simp only [List.append_assoc]

/-! ## 3. The event after an insertion behind it -/

namespace Tree.EventPlace

open Token

variable {text a z r : Text} {before behind : List Tree} {n : Tree}

/-- Text that is inserted behind the event leaves the tokens up to its keyword as they are. -/
theorem scan_insertion (p : EventPlace (scan text) before n behind)
    (hn : n ∈ (Document.ofText text).root.preorder) (htext : text = a ++ z)
    (hstop : ((Document.ofText text).spanOf n).stop ≤ byteSize a)
    (hr : ∃ b r', r = b :: r' ∧ isBlank b = true) :
    ∃ w w' rest, text = source (p.toKeyword ++ [p.keyword]) ++ w ∧
      a ++ r ++ z = source (p.toKeyword ++ [p.keyword]) ++ w' ∧
      scan (a ++ r ++ z) = p.toKeyword ++ p.keyword :: rest := by
  have hscan := p.tokens_eq
  obtain ⟨tail, hcut, hstart⟩ := exists_cut_of_scan hscan
  have hsource : source (p.toKeyword ++ [p.keyword]) =
      source p.toKeyword ++ p.keyword.leading ++ p.keyword.text := by
    rw [source_append, source_cons, source_nil, List.append_nil, List.append_assoc]
  -- the insertion lies behind the keyword
  obtain ⟨w, rfl⟩ : source (p.toKeyword ++ [p.keyword]) <+: a := by
    have hspan :=
      (span_token (Document.ofText text).eof (Document.inOrder_of_mem hn) p.keyword_mem).2
    refine prefix_of_byteSize_le ⟨_, by rw [hsource]; exact hcut.symm⟩ ⟨z, htext.symm⟩ ?_
    rw [hsource, byteSize_append, ← hstart]
    exact Nat.le_trans hspan hstop
  have hword : isPlainWord p.keyword.text = true :=
    isPlainWord_of_keyword (Document.mem_scan_of_mem_leaves hn p.keyword_mem)
      (by rw [p.isKeyword]; rfl)
  rw [List.append_assoc] at htext
  have hfront : ∀ y : Text, source (p.toKeyword ++ [p.keyword]) ++ y =
      source p.toKeyword ++ (p.keyword.leading ++ (p.keyword.text ++ y)) := by
    intro y
    rw [hsource]
    simp only [List.append_assoc]
  have hold : scan (source p.toKeyword ++ (p.keyword.leading ++ (p.keyword.text ++ (w ++ z)))) =
      p.toKeyword ++ p.keyword :: p.rest := by
    rw [← hfront, ← htext]
    exact hscan
  obtain ⟨b, r', rfl, hb⟩ := hr
  have hnext : ∀ d ∈ (w ++ (b :: r' ++ z)).head?, isWordPart d = true →
      (w ++ z).head? = some d := by
    intro d hd hpart
    cases w with
    | nil =>
      rw [← Option.some.inj hd, isWordPart_of_isBlank hb] at hpart
      cases hpart
    | cons c w => exact hd
  obtain ⟨rest, hnew⟩ := scan_word hold hword (p.isClean fun t ht => ht) hnext
  refine ⟨w ++ z, w ++ (b :: r' ++ z), rest, htext, ?_, ?_⟩
  · simp only [List.append_assoc]
  · rw [List.append_assoc, List.append_assoc, hfront]
    exact hnew

/-- The edit that removes a modifier depends on what stands in front of the keyword. -/
theorem removal_eq {v : Token} (p : EventPlace (scan text) before n behind)
    (hn : n ∈ (Document.ofText text).root.preorder) (hv : v ∈ p.mods) (w w' : Text) :
    Modifier.removal (source (p.toKeyword ++ [p.keyword]) ++ w') v =
      Modifier.removal (source (p.toKeyword ++ [p.keyword]) ++ w) v := by
  obtain ⟨prior, later, hmods⟩ := List.append_of_mem hv
  have hscan := p.tokens_eq
  have hsplit : p.toKeyword =
      p.front ++ (leavesAll (attributes p.member).1 ++ prior) ++ v :: later := by
    rw [toKeyword, hmods]
    simp only [List.append_assoc]
  generalize p.front ++ (leavesAll (attributes p.member).1 ++ prior) = front at hsplit
  rw [hsplit, List.append_assoc, List.cons_append] at hscan
  obtain ⟨tail, -, hstart⟩ := exists_cut_of_scan hscan
  have hcut : ∀ y : Text, source (p.toKeyword ++ [p.keyword]) ++ y =
      source front ++ v.leading ++ v.text ++ (source (later ++ [p.keyword]) ++ y) := by
    intro y
    rw [hsplit]
    simp only [source_append, source_cons, List.append_assoc]
  obtain ⟨c, u, hcu, hc, -⟩ := exists_of_isPlainWord
    (isPlainWord_of_keyword (Document.mem_scan_of_mem_leaves hn p.keyword_mem)
      (by rw [p.isKeyword]; rfl))
  rw [hcut, hcut]
  -- blanks behind the modifier end with the next word at the latest
  refine Modifier.removal_congr hstart (takeWhile_isIndent_congr ?_ (isIndent_of_isAlpha hc) w w')
  rw [source_append, source_cons, hcu]
  simp

/-- An event that starts at the same place after the insertion has the same modifiers, and each of
them is removed by the same edit. -/
theorem after_insertion {before' behind' : List Tree} {n' : Tree}
    (p : EventPlace (scan text) before n behind)
    (p' : EventPlace (scan (a ++ r ++ z)) before' n' behind')
    (hn : n ∈ (Document.ofText text).root.preorder) (htext : text = a ++ z)
    (hstop : ((Document.ofText text).spanOf n).stop ≤ byteSize a)
    (hr : ∃ b r', r = b :: r' ∧ isBlank b = true)
    (hs : ((Document.ofText (a ++ r ++ z)).spanOf n').start =
      ((Document.ofText text).spanOf n).start) :
    p'.mods = p.mods ∧
      ∀ v ∈ p.mods, Modifier.removal (a ++ r ++ z) v = Modifier.removal text v := by
  obtain ⟨w, w', rest, hold, hnew, hscan⟩ := p.scan_insertion hn htext hstop hr
  refine ⟨(p.mods_eq_of_start p' hscan hs).2.2.1, fun v hv => ?_⟩
  rw [hnew, p.removal_eq hn hv w w', ← hold]

end Tree.EventPlace

namespace Document

open Tree Token

variable {text : Text} {n : Tree}

/-- The edit that removes a modifier deletes a part of the event. -/
theorem exists_removal_within (hn : n ∈ (ofText text).root.preorder)
    (he : n.nodeKind?.any NodeKind.isEvent = true) {k : TokenKind} {v : Token}
    (hv : Modifier.token? n k = some v) :
    ∃ x d y, text = x ++ d ++ y ∧ d ≠ [] ∧
      Modifier.removal text v = .delete (byteSize x) (byteSize (x ++ d)) ∧
      byteSize (x ++ d) ≤ ((ofText text).spanOf n).stop := by
  obtain ⟨before, behind, hevents, -⟩ := exists_place hn he
  obtain ⟨p⟩ := exists_modifierPlace hevents hv
  obtain ⟨next, post, hpost, hscan, hword, hnext⟩ := exists_words p
  obtain ⟨x, b, b', l, r, hd, hold, hedit, -⟩ :=
    Modifier.exists_deletion hscan hword hnext p.isClean_front
  refine ⟨_, b ++ v.text ++ b', l ++ (next.text ++ r), ?_, ?_, hedit, ?_⟩
  · conv_lhs => rw [hold, Deletion.old, hd.before, hd.after]
    simp only [List.append_assoc]
  · obtain ⟨c, u, hcu, -⟩ := exists_of_isPlainWord hword
    rw [hcu]
    simp
  · -- what is deleted ends in front of the next word, which belongs to the event
    have hmem : next ∈ n.leaves := by
      rw [p.leaves_eq, p.mods_eq]
      cases hl : p.later with
      | nil =>
        rw [hl] at hpost
        simp [← (List.cons.inj hpost).1]
      | cons m ms =>
        rw [hl] at hpost
        simp [← (List.cons.inj hpost).1]
    have hspan := (span_token (ofText text).eof (inOrder_of_mem hn) hmem).2
    rw [List.append_cons] at hscan
    obtain ⟨-, -, hstart⟩ := exists_cut_of_scan hscan
    refine Nat.le_trans ?_ hspan
    rw [stop, hstart, hd.after]
    simp only [source_append, source_cons, source_nil, hd.before, byteSize_append, byteSize_nil]
    omega

end Document

/-! ## 4. Both phases -/

namespace FixAction

open Tree Token

theorem exists_method_of_kind {a : FixAction} (h : a.kind = .extractRaiseMethod) :
    ∃ method, a.method = some method := by
  unfold kind at h
  split at h
  · cases h
  · exact ⟨_, by assumption⟩

/-- The phases of an extraction that is performed. -/
theorem exists_of_apply {a : FixAction} {method : RaiseMethod} {text : Text} {d : Document}
    (hmethod : a.method = some method) (h : a.apply (.ofText text) = .ok d) :
    ∃ n extended n', a.target.locate (.ofText text) = .ok n ∧
      Edit.applyAll [(Document.ofText text).addition n a.target.start method] text =
        .ok extended ∧
      a.target.locate (.ofText extended) = .ok n' ∧
      (Document.ofText extended).removeModifier n' (.keyword .virtualKw) = .ok d := by
  rw [apply, hmethod] at h
  obtain ⟨n, hlocate, h⟩ := exists_of_bind h
  obtain ⟨d', hadd, h⟩ := exists_of_bind h
  obtain ⟨n', hlocate', hremove⟩ := exists_of_bind h
  obtain ⟨extended, rfl, happly⟩ := Document.exists_of_withEdits hadd
  exact ⟨n, extended, n', hlocate, happly, hlocate', hremove⟩

/-- Where a method is added to a text. -/
theorem exists_of_addition {text extended : Text} {n : Tree} {start : Nat}
    {method : RaiseMethod} (hn : n ∈ (Document.ofText text).root.preorder)
    (h : Edit.applyAll [(Document.ofText text).addition n start method] text = .ok extended) :
    ∃ x z, text = x ++ z ∧ (Document.ofText text).insertionPoint n = byteSize x ∧
      ((Document.ofText text).spanOf n).stop ≤ byteSize x ∧
      extended = x ++ (newline text ++ newline text ++
        method.render (indentAt start text) (newline text)) ++ z := by
  obtain ⟨x, z, htext, hpoint, hstop, happly⟩ := Document.exists_addition hn start method
  exact ⟨x, z, htext, hpoint, hstop, (Except.ok.inj (happly.symm.trans h)).symm⟩

theorem isEvent_of_isOf {n : Tree} {rule : Rule} (h : n.isOf rule.nodeKind = true) :
    n.nodeKind?.any NodeKind.isEvent = true := by
  rw [of_decide_eq_true h, Option.any_some, Document.isEvent_nodeKind]

/-- An extraction that succeeds makes the edits that add the method and remove the modifier from
the document it is applied to, as if both were made at once. Between them the declaration is found
again with the same modifiers. -/
theorem apply_oneBatch {planned text : Text} {messages : Messages} {rule : Rule} {offset : Nat}
    {a : FixAction} {d : Document}
    (hplan : (Document.ofText planned).planAt messages rule offset .extractRaiseMethod = .ok a)
    (happly : a.apply (.ofText text) = .ok d) :
    ∃ method member v insertion deletion extended member' result,
      a.method = some method ∧ a.target.locate (.ofText text) = .ok member ∧
      Modifier.token? member (.keyword .virtualKw) = some v ∧
      insertion = Edit.insert ((Document.ofText text).insertionPoint member)
        (newline text ++ newline text ++
          method.render (indentAt a.target.start text) (newline text)) ∧
      Modifier.removal? (.ofText text) member (.keyword .virtualKw) = some deletion ∧
      Edit.applyAll [insertion, deletion] text = .ok result ∧ d = .ofText result ∧
      Edit.applyAll [insertion] text = .ok extended ∧
      a.target.locate (.ofText extended) = .ok member' ∧
      Event.modifiersOf member' = Event.modifiersOf member ∧
      Modifier.token? member' (.keyword .virtualKw) = some v ∧
      Modifier.removal? (.ofText extended) member' (.keyword .virtualKw) = some deletion := by
  obtain ⟨m, -, -, htarget, hkind, -⟩ := Document.exists_of_planAt hplan
  obtain ⟨method, hmethod⟩ := exists_method_of_kind hkind
  obtain ⟨n, extended, n', hlocate, hadd, hlocate', hremove⟩ := exists_of_apply hmethod happly
  obtain ⟨v, result, hv, rfl, hresult⟩ := Document.exists_of_removeModifier hremove
  obtain ⟨hn, hof, hstart⟩ := Target.of_locate_eq_ok hlocate
  obtain ⟨hn', hof', hstart'⟩ := Target.of_locate_eq_ok hlocate'
  rw [htarget] at hof hof'
  obtain ⟨before, behind, -, ⟨p⟩⟩ := exists_place hn (isEvent_of_isOf hof)
  obtain ⟨before', behind', -, ⟨p'⟩⟩ := exists_place hn' (isEvent_of_isOf hof')
  -- the method goes in between `x` and `z`
  obtain ⟨x, z, htext, hpoint, hstop, hextended⟩ := exists_of_addition hn hadd
  obtain ⟨r, hr⟩ : ∃ r, newline text ++ newline text ++
      method.render (indentAt a.target.start text) (newline text) = r := ⟨_, rfl⟩
  rw [hr] at hextended
  subst hextended
  have hblank : ∃ b r', r = b :: r' ∧ isBlank b = true := by
    rw [← hr]
    rcases newline_cases text with hnl | hnl <;> rw [hnl]
    · exact ⟨'\n', _, rfl, by decide⟩
    · exact ⟨'\r', _, rfl, by decide⟩
  obtain ⟨hmods, hremoval⟩ := p.after_insertion p' hn htext hstop hblank (hstart'.trans hstart.symm)
  have hsame : Event.modifiersOf n' = Event.modifiersOf n := by
    rw [p'.modifiersOf_eq, hmods, p.modifiersOf_eq]
  have hv₀ : Modifier.token? n (.keyword .virtualKw) = some v := by
    rw [token?_eq_find?, ← hsame, ← token?_eq_find?, hv]
  have hmem : v ∈ p.mods := by
    rw [token?_eq_find?, p.modifiersOf_eq] at hv₀
    exact List.mem_of_find?_eq_some hv₀
  -- the deletion lies in front of the insertion
  obtain ⟨y, del, l, hcut, hne, hedit, hwithin⟩ :=
    Document.exists_removal_within hn (isEvent_of_isOf hof) hv₀
  obtain ⟨mid, rfl⟩ : y ++ del <+: x :=
    prefix_of_byteSize_le ⟨l, hcut.symm⟩ ⟨z, htext.symm⟩ (Nat.le_trans hwithin hstop)
  have hboth := Edit.applyAll_insert_delete y mid z r hne
  rw [← htext] at hboth
  obtain rfl : result = y ++ mid ++ r ++ z := by
    have hdelete := Edit.applyAll_delete y del (mid ++ r ++ z)
    rw [hremoval v hmem, hedit] at hresult
    simp only [List.append_assoc] at hdelete hresult ⊢
    rw [hdelete] at hresult
    exact (Except.ok.inj hresult).symm
  refine ⟨method, n, v, _, Modifier.removal text v, _, n', _, hmethod, hlocate, hv₀, rfl, ?_, ?_,
    rfl, hadd, hlocate', hsame, hv, ?_⟩
  · rw [Modifier.removal?, hv₀]
    rfl
  · rw [hr, hpoint, hedit]
    exact hboth
  · rw [Modifier.removal?, hv, Option.map_some, ← hremoval v hmem]
    rfl

/-- An extraction planned on another text, for an event that the end of the text cuts off. -/
theorem apply_oneBatch_unterminated :
    let planned := "class C \x7b virtual event A<B> X; \x7d".toList
    let text := "enum E \x7b\x7d [é] virtual static event E<F> Y".toList
    ∃ a d, (Document.ofText planned).planAt {} .fieldEvent 24 .extractRaiseMethod = .ok a ∧
      a.apply (.ofText text) = .ok d ∧
      ∃ insertion deletion result, Edit.applyAll [insertion, deletion] text = .ok result ∧
        d = .ofText result := by
  intro planned text
  have hok : (((Document.ofText planned).planAt {} .fieldEvent 24 .extractRaiseMethod >>= fun a =>
      a.apply (.ofText text)).toOption).isSome = true := by
    decide +kernel
  cases hplan : (Document.ofText planned).planAt {} .fieldEvent 24 .extractRaiseMethod with
  | error e =>
    rw [hplan] at hok
    cases hok
  | ok a =>
    rw [hplan] at hok
    cases happly : a.apply (.ofText text) with
    | error e =>
      have hok : (a.apply (.ofText text)).toOption.isSome = true := hok
      rw [happly] at hok
      cases hok
    | ok d =>
      obtain ⟨-, -, -, insertion, deletion, -, -, result, -, -, -, -, -, hboth, hd, -⟩ :=
        apply_oneBatch hplan happly
      exact ⟨a, d, rfl, happly, insertion, deletion, result, hboth, hd⟩

end FixAction

end EventLint
