import EventLint.Proofs.Addition
import EventLint.Proofs.Comments
import EventLint.Proofs.Sightings
import EventLint.Proofs.SiblingMethod
import EventLint.Proofs.TokenExact

/-!
# What removal leaves

The removal of a `virtual` deletes a word on a line with comments. Main statement: all events are
seen as before, but for the one that says `virtual` once less, and every line suppresses what it
did.
-/

namespace EventLint

open Token Text

/-! ## 1. Comments in front of a modifier -/

namespace Tree

theorem slash_notMem_of_isPlainWord {w : Text} (h : isPlainWord w = true) : '/' ∉ w := by
  obtain ⟨c, u, rfl, -, halpha⟩ := exists_of_isPlainWord h
  exact fun hmem => absurd (halpha _ hmem) (by decide)

/-- No name has a slash. -/
theorem slash_notMem_of_isNameWord {text : Text} {t : Token} (ht : t ∈ scan text)
    (h : isNameWord t = true) : '/' ∉ t.text := by
  simp only [isNameWord, isNamePart, Bool.or_eq_true, decide_eq_true_eq, or_assoc] at h
  rcases h with hk | hk | hk | hk
  · exact slash_notMem_of_isPlainWord (isPlainWord_of_keyword ht (by rw [hk]; rfl))
  · obtain ⟨c, u, htext, hu, hc⟩ := exists_ident ht hk
    rw [htext, List.mem_cons, not_or]
    refine ⟨?_, fun hmem => absurd (hu _ hmem) (by decide)⟩
    rintro rfl
    rcases hc with ⟨hc, -⟩ | ⟨hc, -⟩
    · cases hc
    · exact absurd hc (by decide)
  all_goals
    have htext : t.text = Grammar.sign t.kind :=
      congrArg Prod.snd ((spelled_of_mem_scan ht).mark (by rw [hk]; decide))
    rw [htext, hk]
    decide

theorem exists_text_of_isStop {text : Text} {t : Token} (ht : t ∈ scan text)
    (h : isStop t = true) : ∃ s, t.text = [s] ∧ Suppression.settles s = true ∧ s ≠ '/' := by
  have hmark : t.kind = .semicolon ∨ t.kind = .lbrace ∨ t.kind = .rbrace ∨ t.kind = .rparen ∨
      t.kind = .rbracket := by
    simp only [isStop, Bool.or_eq_true, decide_eq_true_eq, or_assoc] at h
    rcases h with hk | hk | hk
    · exact Or.inl hk
    · exact Or.inr (Or.inl hk)
    · rcases TokenKind.eq_of_closes hk with hk | hk | hk <;> simp [hk]
  rcases hmark with hk | hk | hk | hk | hk
  all_goals
    have htext : t.text = Grammar.sign t.kind :=
      congrArg Prod.snd ((spelled_of_mem_scan ht).mark (by rw [hk]; decide))
    rw [hk] at htext
    exact ⟨_, htext, by decide, by decide⟩

end Tree

namespace Suppression.Settled

variable {text : Text} {q m us : List Token} {t : Token}

/-- What stands in front of a token is settled with the tokens before it. -/
theorem leading (hq : Settled (source q)) (h : scan text = q ++ t :: us) :
    Settled (source q ++ t.leading) := by
  obtain ⟨rest, hscan⟩ := exists_scanFrom h
  obtain ⟨c, u, z, -, hcs, hextent, -⟩ := exists_of_scanFrom hscan
  rw [hcs] at hextent
  have hc := Trivia.not_isBlank_of_item? (Trivia.item?_of_extent hextent)
  have hbreak : (c :: (u ++ z)).head? ≠ some '\n' := by
    intro hn
    rw [Option.some.inj hn] at hc
    exact absurd hc (by decide)
  obtain ⟨hleading, hslash⟩ := settled_trivia ⟨List.cons_ne_nil _ _, hbreak⟩ hextent
  exact hq.append hleading fun w _ hw => exists_settles (hslash w hw)

theorem words (hq : Settled (source q)) (h : scan text = q ++ m ++ us)
    (hm : ∀ t ∈ m, '/' ∉ t.text) : Settled (source (q ++ m)) := by
  induction m generalizing q with
  | nil => rwa [List.append_nil]
  | cons t m ih =>
    have hnext : Settled (source (q ++ [t])) := by
      rw [List.append_assoc, List.cons_append] at h
      have hslash := hm t List.mem_cons_self
      rw [source_append, source_cons, source_nil, List.append_nil, ← List.append_assoc]
      refine (hq.leading h).append (.of_notMem hslash) fun w _ hw => ?_
      exact absurd (by rw [hw]; exact List.mem_cons_self) hslash
    rw [List.append_cons] at h ⊢
    exact ih hnext h fun u hu => hm u (List.mem_cons_of_mem t hu)

theorem of_isStop (h : scan text = q ++ us) (hq : ∀ t ∈ q.getLast?, Tree.isStop t = true) :
    Settled (source q) := by
  obtain rfl | ⟨q, t, rfl⟩ := List.eq_nil_or_concat' q
  · exact .of_notMem List.not_mem_nil
  · have ht : t ∈ scan text := by rw [h]; simp
    obtain ⟨s, hs, hsettles, hslash⟩ := Tree.exists_text_of_isStop ht (hq t List.getLast?_concat)
    rw [source_append, source_cons, source_nil, List.append_nil, hs, ← List.append_assoc]
    exact .concat hsettles hslash _

theorem of_stopped (h : scan text = q ++ us) (hq : Tree.Stopped q) : Settled (source q) := by
  obtain ⟨q, m, rfl, hm, hstop⟩ := hq
  refine (of_isStop (h.trans (List.append_assoc _ _ _)) hstop).words h fun t ht => ?_
  exact Tree.slash_notMem_of_isNameWord (by rw [h]; simp [ht]) (hm t ht)

end Suppression.Settled

namespace Tree

open Suppression

/-- The comments in front of a modifier are settled. -/
theorem ModifierPlace.settled {text : Text} {before behind : List Tree} {n : Tree} {k : TokenKind}
    {v : Token} (p : ModifierPlace (scan text) before n behind k v) :
    Settled (source (p.front ++ (leavesAll (attributes p.member).1 ++ p.prior)) ++ v.leading) := by
  have hscan := p.tokens_eq
  have hfront : Settled (source (p.front ++ leavesAll (attributes p.member).1)) := by
    cases hattr : (leavesAll (attributes p.member).1).getLast? with
    | none =>
      rw [List.getLast?_eq_none_iff.1 hattr, List.append_nil]
      exact .of_stopped p.tokens p.run.stopped
    | some t =>
      have hcut : scan text = p.front ++ leavesAll (attributes p.member).1 ++
          (p.prior ++ v :: (p.later ++ p.keyword :: p.rest)) :=
        hscan.trans (by simp only [List.append_assoc])
      refine .of_isStop hcut fun u hu => ?_
      rw [List.getLast?_append, hattr, Option.some_or] at hu
      obtain rfl := Option.some.inj hu
      simp [isStop, closes_of_attributes p.attributes_ne_nil hattr]
  rw [← List.append_assoc] at hscan ⊢
  have hprior : ∀ t ∈ p.prior, '/' ∉ t.text := by
    intro t ht
    have hmem : t ∈ scan text := by rw [hscan]; simp [ht]
    exact slash_notMem_of_isPlainWord (isPlainWord_of_isModifierToken hmem
      (p.isModifier_others t (List.mem_append_left _ ht)))
  exact (hfront.words hscan hprior).leading hscan

/-- Without the modifier every line suppresses what it did. -/
theorem ModifierPlace.lookup_removal {text result : Text} {before behind : List Tree} {n : Tree}
    {k : TokenKind} {v : Token} (p : ModifierPlace (scan text) before n behind k v)
    (h : Edit.applyAll [Modifier.removal text v] text = .ok result) (i : Nat) :
    (ofText result).lookup i = (ofText text).lookup i := by
  obtain ⟨next, post, -, hscan, hword, hnext⟩ := exists_words p
  have hsettled := p.settled
  have hclean := p.isClean_front
  generalize p.front ++ (leavesAll (attributes p.member).1 ++ p.prior) = pre
    at hscan hclean hsettled
  obtain ⟨x, b, b', l, r, hd, hold, -, happly⟩ := Modifier.exists_deletion hscan hword hnext hclean
  obtain rfl := Except.ok.inj (h.symm.trans happly)
  rw [hd.before, ← List.append_assoc] at hsettled
  have hindent : ∀ c ∈ b ++ b', c ≠ '\n' ∧ c ≠ '/' := by
    intro c hc
    have hc : isIndent c = true := (List.mem_append.1 hc).elim (hd.blanks c) (hd.blanks' c)
    refine ⟨ne_newline_of_isIndent hc, ?_⟩
    rintro rfl
    exact absurd hc (by decide)
  have hmem : ∀ c ∈ b ++ v.text ++ b', c ∈ b ++ b' ∨ c ∈ v.text := by
    intro c hc
    simp only [List.mem_append] at hc ⊢
    tauto
  -- a slash behind the word starts a comment there
  obtain ⟨e, u, hnt, halpha, -⟩ := exists_of_isPlainWord hnext
  have hslash : ∀ z, l ++ (next.text ++ r) = '/' :: z → isSlashed z := by
    have hmid : scanFrom (Trivia.freshAfter true (source pre)) (0 + byteSize (source pre))
        (Deletion.old v next r) = v :: next :: post := by
      rw [hold] at hscan
      exact scanFrom_rest hscan
    obtain ⟨-, hextent, -⟩ := hd.exists_of_scan hmid
    have hhead : (next.text ++ r).head? ≠ some '\n' ∧ (next.text ++ r).head? ≠ some '/' := by
      rw [hnt]
      constructor <;> intro hn <;> rw [Option.some.inj hn] at halpha <;>
        exact absurd halpha (by decide)
    have htrivia := (settled_trivia ⟨by rw [hnt]; simp, hhead.1⟩ hextent).2
    intro z hz
    cases l with
    | nil =>
      rw [List.nil_append] at hz
      rw [hz] at hhead
      exact absurd rfl hhead.2
    | cons c l =>
      obtain ⟨rfl, rfl⟩ := List.cons.inj hz
      rcases htrivia l rfl with hl | hl <;> obtain ⟨y, rfl⟩ := List.head?_eq_some_iff.1 hl
      · exact Or.inl rfl
      · exact Or.inr rfl
  have hlookup := lookup_delete (hsettled.of_indent hd.blanks)
    (fun hn => (hmem _ hn).elim (fun hn => (hindent _ hn).1 rfl)
      (newline_notMem_of_isPlainWord hword))
    (fun hn => (hmem _ hn).elim (fun hn => (hindent _ hn).2 rfl)
      (slash_notMem_of_isPlainWord hword))
    hslash i
  rw [hold, Deletion.new, Deletion.old, hd.before, hd.after]
  simp only [List.append_assoc] at hlookup ⊢
  exact hlookup.symm

end Tree

/-! ## 2. Members -/

namespace Document

open EventLint.Tree

/-- The tokens of these members stand on the lines they stood on. -/
def Kept (met : List (Bool × Tree)) (text text' : Text) : Prop :=
  ∀ y ∈ met, ∀ u ∈ y.2.leaves,
    (LineIndex.ofText text').line u.start = (LineIndex.ofText text).line u.start ∧
      (LineIndex.ofText text').line u.stop = (LineIndex.ofText text).line u.stop

theorem line_token {text : Text} {a c : List Token} {u : Token} (h : scan text = a ++ u :: c) :
    (LineIndex.ofText text).line u.start = (source a ++ u.leading).count '\n' + 1 ∧
      (LineIndex.ofText text).line u.stop = (source (a ++ [u])).count '\n' + 1 := by
  obtain ⟨rest, htext, hstart⟩ := exists_cut_of_scan h
  have hsource : source (a ++ [u]) = source a ++ u.leading ++ u.text := by
    rw [source_append, source_cons, source_nil, List.append_nil, List.append_assoc]
  have hstop : u.stop = byteSize (source (a ++ [u])) := by
    rw [stop, hstart, hsource, byteSize_append _ u.text]
  constructor
  · rw [hstart]
    conv_lhs => rw [htext, List.append_assoc, LineIndex.line_byteSize]
  · rw [hstop]
    conv_lhs => rw [htext, ← hsource, LineIndex.line_byteSize]

namespace Kept

variable {met : List (Bool × Tree)} {text text' text'' : Text}

theorem of_tokens {a c c' : List Token} (h : scan text = a ++ c) (h' : scan text' = a ++ c')
    (hmet : ∀ y ∈ met, ∀ u ∈ y.2.leaves, u ∈ a) : Kept met text text' := by
  intro y hy u hu
  obtain ⟨b, d, rfl⟩ := List.append_of_mem (hmet y hy u hu)
  rw [List.append_assoc, List.cons_append] at h h'
  obtain ⟨hstart, hstop⟩ := line_token h
  obtain ⟨hstart', hstop'⟩ := line_token h'
  exact ⟨hstart'.trans hstart.symm, hstop'.trans hstop.symm⟩

theorem trans (h : Kept met text text') (h' : Kept met text' text'') : Kept met text text'' :=
  fun y hy u hu =>
    ⟨(h' y hy u hu).1.trans (h y hy u hu).1, (h' y hy u hu).2.trans (h y hy u hu).2⟩

theorem sighting (h : Kept met text text') {y : Bool × Tree} (hy : y ∈ met) {e : Event}
    (he : Event.ofTree? y.2 = some e) :
    e.sighting (LineIndex.ofText text').line y.1 = e.sighting (LineIndex.ofText text).line y.1 := by
  have hline := (h y hy _ (Event.views_of_ofTree? he).name).1
  simp only [Event.sighting, Sighting.ofFace, Event.face, hline]

/-- The members are seen as before. -/
theorem sightings (h : Kept met text text') :
    met.filterMap (sightingIn? text') = met.filterMap (sightingIn? text) := by
  refine List.filterMap_congr fun y hy => ?_
  rw [sightingIn?, sightingIn?, sighting?, sighting?]
  cases he : Event.ofTree? y.2 with
  | none => rfl
  | some e => rw [Option.map_some, Option.map_some, h.sighting hy he]

end Kept

theorem eventNodes_of_members {text : Text} {met more : List (Bool × Tree)} {x : Bool × Tree}
    (h : members text = met ++ x :: more) :
    (ofTokens (scan text)).eventNodes = met.map Prod.snd ++ x.2 :: more.map Prod.snd :=
  eventNodes_of_tagged h

/-- The place of a member among the others. -/
theorem members_eq_of_place {text : Text} {met more : List (Bool × Tree)} {x : Bool × Tree}
    (h : members text = met ++ x :: more)
    (p : EventPlace (scan text) (met.map Prod.snd) x.2 (more.map Prod.snd)) :
    p.met = met ∧ p.level.hidden = x.1 ∧ taggedFrom (p.level :: p.outer) p.after = more := by
  have hlength : p.met.length = met.length := by
    rw [← List.length_map Prod.snd, p.before_eq, List.length_map]
  obtain ⟨hmet, hrest⟩ := List.append_inj (p.tagged.symm.trans h) hlength
  obtain ⟨hx, hmore⟩ := List.cons.inj hrest
  exact ⟨hmet, congrArg Prod.fst hx, hmore⟩

end Document

/-! ## 3. One `virtual` less -/

namespace Tree

/-- Without its first `virtual` an event is seen with one less, and the others as before. -/
theorem ModifierPlace.sightings_delete {ts : List Token} {before behind : List Tree} {n : Tree}
    {v : Token} {e : Event} (p : ModifierPlace ts before n behind (.keyword .virtualKw) v)
    (he : Event.ofTree? n = some e) (line : Nat → Nat) :
    (taggedFrom [.file] (p.front ++ (leavesAll (attributes p.member).1 ++ p.prior) ++
        (p.later ++ p.keyword :: p.rest))).filterMap (sighting? line) =
      p.met.filterMap (sighting? line) ++ (e.sighting line p.level.hidden).less ::
        (taggedFrom (p.level :: p.outer) p.after).filterMap (sighting? line) := by
  -- without `v`, what stands in front of the member may take the words `i` from it
  obtain ⟨i, mods, hsplit, hi, hmods, hresume⟩ := p.resume rfl rfl rfl
  have hattrs : ∀ c ∈ (attributes p.member).1, c.isOf .attributeList = true :=
    fun c hc => isOf_of_mem_attributes hc
  obtain ⟨e₀, he₀, rfl⟩ := p.exists_bare he
  have hof : Event.ofTree? (node p.kind
      ((attributes p.member).1 ++ modifierList mods ++ leaf p.keyword :: p.parts)) = _ :=
    ofTree?_front mods hattrs p.plain
  rw [he₀, Option.map_some] at hof
  have hcount : (p.prior ++ p.later).countP (·.kind = .keyword .virtualKw) =
      mods.countP (·.kind = .keyword .virtualKw) := by
    have hnone : i.countP (·.kind = .keyword .virtualKw) = 0 := by
      refine List.countP_eq_zero.2 fun t ht hk => ?_
      rw [hi t ht] at hk
      cases hk
    rw [hsplit, List.countP_append, hnone, Nat.zero_add]
  have hless : p.mods.countP (·.kind = .keyword .virtualKw) =
      mods.countP (·.kind = .keyword .virtualKw) + 1 := by
    rw [← hcount]
    simp [p.mods_eq, List.countP_append, p.isKind, Nat.add_assoc]
  rw [hresume.taggedFrom_eq, taggedFrom_event p.level p.outer p.attributes_ne_nil hmods
    p.isKeyword p.children p.isEvent, List.filterMap_append]
  refine congrArg _ (List.filterMap_cons_some ?_)
  rw [sighting?, hof, Option.map_some]
  simp only [Event.sighting, Event.face, Sighting.ofFace, Sighting.less, hless, Nat.add_sub_cancel]

section

variable {text result : Text} {before behind : List Tree} {n : Tree} {k : TokenKind} {v : Token}

theorem ModifierPlace.exists_result (p : ModifierPlace (scan text) before n behind k v) :
    ∃ result, Edit.applyAll [Modifier.removal text v] text = .ok result := by
  obtain ⟨next, post, -, hscan, hword, hnext⟩ := exists_words p
  obtain ⟨_, _, _, _, _, -, -, -, happly⟩ :=
    Modifier.exists_deletion hscan hword hnext p.isClean_front
  exact ⟨_, happly⟩

/-- Without the modifier, the other tokens stay on their lines. -/
theorem ModifierPlace.lined_removal (p : ModifierPlace (scan text) before n behind k v)
    (h : Edit.applyAll [Modifier.removal text v] text = .ok result) :
    (scan result).map (Relabelling.lined (LineIndex.ofText result).line).apply =
      (p.front ++ (leavesAll (attributes p.member).1 ++ p.prior) ++
        (p.later ++ p.keyword :: p.rest)).map
          (Relabelling.lined (LineIndex.ofText text).line).apply := by
  obtain ⟨next, post, hpost, hscan, hword, hnext⟩ := exists_words p
  have hclean := p.isClean_front
  rw [hpost]
  generalize p.front ++ (leavesAll (attributes p.member).1 ++ p.prior) = pre at hscan hclean ⊢
  obtain ⟨x, b, b', l, r, hd, hold, -, happly⟩ := Modifier.exists_deletion hscan hword hnext hclean
  obtain rfl := Except.ok.inj (h.symm.trans happly)
  have hread : ∀ (text : Text) (ts : List Token),
      ts.map (Relabelling.lined (LineIndex.ofText text).line).apply =
        (ts.map (onLine text)).map fun x => ⟨x.1, [], x.2.1, x.2.2⟩ := fun text ts => by
    rw [List.map_map]
    rfl
  rw [hread, hread, hold, hd.onLine_scan_new (hold ▸ hscan) hclean]

end

end Tree

namespace Document

open EventLint.Tree

/-- The removal of the first `virtual` of a member: the members in front of it stay as they are, all
are seen as before but for that `virtual`, and the lines suppress what they did. -/
theorem exists_removed {text : Text} {met more : List (Bool × Tree)} {x : Bool × Tree} {e : Event}
    {v : Token} (h : members text = met ++ x :: more) (he : Event.ofTree? x.2 = some e)
    (hv : e.modifier? (.keyword .virtualKw) = some v) :
    ∃ text' rest, Edit.applyAll [Modifier.removal text v] text = .ok text' ∧
      Kept met text text' ∧ members text' = met ++ rest ∧
      rest.filterMap (sightingIn? text') = (e.sighting (LineIndex.ofText text).line x.1).less ::
        more.filterMap (sightingIn? text) ∧
      ∀ i, (Suppression.ofText text').lookup i = (Suppression.ofText text).lookup i := by
  rw [(Event.views_of_ofTree? he).modifier?] at hv
  obtain ⟨p⟩ := exists_modifierPlace (eventNodes_of_members h) hv
  obtain ⟨hmet, hhidden, hmore⟩ := members_eq_of_place h p.toEventPlace
  obtain ⟨text', happly⟩ := p.exists_result
  obtain ⟨later, w, rest, j, hnew, hlater, hw, hshift⟩ := p.exists_scan_removal happly
  have hrest : rest.map bare = p.rest.map bare := by rw [hshift, bare_map_shift]
  obtain ⟨i, mods, -, -, -, hresume⟩ := p.resume hlater hw hrest
  have hmembers := hresume.taggedFrom_eq
  rw [← hnew, taggedFrom_file, hmet] at hmembers
  have hkept : Kept met text text' := .of_tokens p.tokens_eq hnew fun y hy u hu =>
    List.mem_append_left _ (p.run.leaves y (by rw [hmet]; exact hy) u hu)
  refine ⟨text', _, happly, hkept, hmembers, ?_, p.lookup_removal happly⟩
  -- the tokens show the same on the same lines as those of `text` without the word
  have hseen := sightings_of_lined (p.lined_removal happly) [.file]
  rw [p.sightings_delete he, taggedFrom_file, hmet, hhidden, hmore] at hseen
  refine List.append_cancel_left (?_ : met.filterMap (sightingIn? text) ++ _ = _)
  rw [← hkept.sightings, ← List.filterMap_append, ← hmembers, hkept.sightings]
  exact hseen

end Document

end EventLint
