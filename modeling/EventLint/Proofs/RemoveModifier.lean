import EventLint.Analysis
import EventLint.Fix.All
import EventLint.Proofs.EventPlace

/-!
# Removing `virtual` everywhere

Each fix scans and reads the text again and finds the next declaration by its place in the first
text. Main statement: every fix succeeds, and together they take away one word for each diagnostic
and nothing else.
-/

namespace EventLint

open Token

/-! ## 1. One word less among tokens -/

namespace Tree

/-- Removing the `virtual` of an event keeps the other tokens, and the events in front of it. -/
theorem exists_removal {text : Text} {before behind : List Tree} {n : Tree} {v : Token}
    (h : (Document.ofText text).root.eventNodes = before ++ n :: behind)
    (hv : Modifier.token? n (.keyword .virtualKw) = some v) :
    ∃ text' a c c', Edit.applyAll [Modifier.removal text v] text = .ok text' ∧
      scan text = a ++ v :: c ∧ scan text' = a ++ c' ∧ c'.map bare = c.map bare ∧
      before <+: (Document.ofText text').root.eventNodes ∧
      (∀ m ∈ before, ∀ u ∈ m.leaves, u ∈ a) ∧ text'.count '\n' = text.count '\n' := by
  obtain ⟨p⟩ := exists_modifierPlace h hv
  obtain ⟨next, post, hpost, hscan, hword, hnext⟩ := exists_words p
  obtain ⟨text', next', post', happly, hscan', hbare, hcount, -⟩ :=
    Modifier.removal_spec hscan hword hnext p.isClean_front
  refine ⟨text', _, next :: post, next' :: post', happly, hscan, hscan', hbare, ?_,
    fun m hm u hu => ?_, hcount⟩
  · -- the new tokens are cut where the old ones are, at the keyword of the event
    generalize next' :: post' = c' at hscan' hbare
    rw [← hpost, List.map_append, List.map_cons, List.map_eq_append_iff] at hbare
    obtain ⟨later, us, rfl, hlater, hus⟩ := hbare
    obtain ⟨k, rest, rfl, hk, hrest⟩ := List.map_eq_cons_iff.1 hus
    obtain ⟨i, mods, -, -, -, hresume⟩ := p.resume hlater hk hrest
    rw [show (Document.ofText text').root = ofTokens (scan text') from rfl,
      ← map_snd_taggedEvents false, ← taggedFrom_file, hscan', hresume.taggedFrom_eq,
      List.map_append, p.before_eq]
    exact List.prefix_append _ _
  · rw [← p.before_eq] at hm
    obtain ⟨x, hx, rfl⟩ := List.mem_map.1 hm
    exact List.mem_append_left _ (p.run.leaves x hx u hu)

end Tree

/-! ## 2. Finding an event again -/

namespace Document

open EventLint.Tree

section

variable {text : Text} {n : Tree} {e : Event}

/-- The edit that removes a modifier makes a new document. -/
theorem removeModifier_eq {text' : Text} {k : TokenKind} {v : Token}
    (hv : Modifier.token? n k = some v)
    (happly : Edit.applyAll [Modifier.removal text v] text = .ok text') :
    (ofText text).removeModifier n k = .ok (ofText text') := by
  rw [removeModifier, Modifier.removal?, hv, Option.map_some]
  dsimp only
  rw [withEdits, text_ofText, happly]
  rfl

theorem isEvent_nodeKind (r : Rule) : r.nodeKind.isEvent = true := by
  cases r <;> rfl

theorem isOf_of_not_isEvent {m : Tree} (r : Rule) (h : m.nodeKind?.any NodeKind.isEvent = false) :
    m.isOf r.nodeKind = false := by
  refine Bool.eq_false_iff.2 fun hof => ?_
  rw [of_decide_eq_true hof, Option.any_some, isEvent_nodeKind] at h
  cases h

/-- The rule for an event finds the event at its name. -/
theorem virtualEventAt_name (hn : n ∈ (ofText text).root.preorder) (he : Event.ofTree? n = some e)
    (hv : e.isVirtual = true) :
    (ofText text).virtualEventAt (.ofShape e.shape) e.nameToken.start = .ok (n, e) := by
  have hview := Event.views_of_ofTree? he
  have ho := inOrder_of_mem hn
  have hspan := span_token (ofText text).eof ho hview.name
  have hpos := ho.pos _ hview.name
  have hfind : (ofText text).ancestor? e.nameToken.start
      (isOf (Rule.ofShape e.shape).nodeKind) = some n := by
    refine ancestor?_event hn ?_ ?_ ?_ fun m hm => isOf_of_not_isEvent _ hm
    · rw [hview.kind, Option.any_some, isEvent_nodeKind]
    · rw [contains_iff]
      exact ⟨hspan.1, Nat.lt_of_lt_of_le hpos hspan.2⟩
    · rw [isOf, hview.kind, decide_eq_true rfl]
  rw [virtualEventAt, hfind]
  dsimp only
  rw [he]
  dsimp only
  rw [if_pos hv]

/-- An event is found where it starts. -/
theorem locate_start (hn : n ∈ (ofText text).root.preorder) (he : Event.ofTree? n = some e) :
    Target.locate ⟨((ofText text).spanOf n).start, (Rule.ofShape e.shape).nodeKind⟩ (ofText text) =
      .ok n := by
  have hview := Event.views_of_ofTree? he
  have ho := inOrder_of_mem hn
  have hspan := span_token (ofText text).eof ho hview.name
  have hpos := ho.pos _ hview.name
  have hfind : (ofText text).ancestor? ((ofText text).spanOf n).start (fun t =>
      t.isOf (Rule.ofShape e.shape).nodeKind &&
        ((ofText text).spanOf t).start = ((ofText text).spanOf n).start) = some n := by
    refine ancestor?_event hn ?_ ?_ ?_ fun m hm => ?_
    · rw [hview.kind, Option.any_some, isEvent_nodeKind]
    · rw [contains_iff]
      exact ⟨Nat.le_refl _, Nat.lt_of_le_of_lt hspan.1 (Nat.lt_of_lt_of_le hpos hspan.2)⟩
    · rw [isOf, hview.kind, decide_eq_true rfl, decide_eq_true rfl]
      rfl
    · rw [isOf_of_not_isEvent _ hm]
      rfl
  rw [Target.locate, hfind]

end

end Document

namespace FixOutcome

open EventLint.Tree

/-- The diagnostic is for the event `e`. -/
def IsFor (f : Diagnostic) (e : Event) : Prop :=
  f.rule = .ofShape e.shape ∧ f.span = e.nameToken.span

section

variable {text : Text} {e : Event} {f : Diagnostic} (messages : Messages)
  (hn : e.node ∈ (Document.ofText text).root.preorder) (he : Event.ofTree? e.node = some e)
  (hf : IsFor f e)

include hn he hf

theorem plan_removeModifier (hv : e.isVirtual = true) :
    (Document.ofText text).plan messages f .removeModifier =
      .ok ⟨messages.removeModifierTitle,
        ⟨((Document.ofText text).spanOf e.node).start, (Rule.ofShape e.shape).nodeKind⟩, none⟩ := by
  rw [Document.plan, Document.planAt, hf.1, hf.2]
  simp only [Token.span, Document.virtualEventAt_name hn he hv, bind, Except.bind, pure,
    Except.pure]

theorem plan_extractRaiseMethod (hv : e.isVirtual = true) :
    (Document.ofText text).plan messages f .extractRaiseMethod =
      e.raiseMethod.map fun m => ⟨messages.extractRaiseMethodTitle,
        ⟨((Document.ofText text).spanOf e.node).start, (Rule.ofShape e.shape).nodeKind⟩,
        some m⟩ := by
  rw [Document.plan, Document.planAt, hf.1, hf.2]
  simp only [Token.span, Document.virtualEventAt_name hn he hv, bind, Except.bind, pure,
    Except.pure]
  cases e.raiseMethod <;> rfl

theorem tryFix_removeModifier {text' : Text} {v : Token}
    (hv : e.modifier? (.keyword .virtualKw) = some v)
    (happly : Edit.applyAll [Modifier.removal text v] text = .ok text') :
    ∃ action, tryFix (Document.ofText text) messages .removeModifier f =
      .ok (action, Document.ofText text') ∧ action.title = messages.removeModifierTitle := by
  have hvirtual : e.isVirtual = true := by
    rw [Event.isVirtual, hv]
    rfl
  rw [(Event.views_of_ofTree? he).modifier?] at hv
  refine ⟨⟨messages.removeModifierTitle, ⟨((Document.ofText text).spanOf e.node).start,
    (Rule.ofShape e.shape).nodeKind⟩, none⟩, ?_, rfl⟩
  rw [tryFix, plan_removeModifier messages hn he hf hvirtual]
  simp only [bind, Except.bind, pure, Except.pure, FixAction.apply, FixAction.removeVirtual,
    Document.locate_start hn he, Document.removeModifier_eq hv happly]

end

end FixOutcome

/-! ## 3. One fix after the other -/

theorem Tree.mem_leaves_of_token? {n : Tree} {k : TokenKind} {v : Token}
    (h : Modifier.token? n k = some v) : v ∈ n.leaves := by
  obtain ⟨list, hlist, hv⟩ := Option.bind_eq_some_iff.1 h
  exact mem_leaves_of_childNode? hlist (mem_leaves_of_childToken? hv)

namespace Token

theorem nodup_scan (text : Text) : (scan text).Nodup :=
  (scan_inPlace text).inOrder.nodup

end Token

namespace FixOutcome

open EventLint.Tree

/-- How far the removal of the words `vs` from `source` has come: the tokens `a` in front and the
event members among them are still those of `source`. -/
structure Removed (source : Text) (vs : List Token) (before : List Tree) (text : Text) : Prop where
  tokens : ∃ a c c', scan source = a ++ c ∧ scan text = a ++ c' ∧ vs.Sublist c ∧
    c'.map bare = (c.filter (· ∉ vs)).map bare ∧ ∀ m ∈ before, ∀ u ∈ m.leaves, u ∈ a
  events : before <+: (Document.ofText text).root.eventNodes
  lines : text.count '\n' = source.count '\n'

namespace Removed

theorem refl (source : Text) :
    Removed source [] (Document.ofText source).root.eventNodes source where
  tokens := by
    refine ⟨scan source, [], [], by simp, by simp, List.nil_sublist _, rfl, fun m hm u hu => ?_⟩
    have hleaves := (leaves_eventNodes_sublist (Document.ofText source).root).subset
      (List.mem_flatMap.2 ⟨m, hm, hu⟩)
    rwa [show (Document.ofText source).root.leaves = _ from leaves_ofTokens _] at hleaves
  events := List.prefix_rfl
  lines := rfl

variable {source text : Text} {vs : List Token} {before : List Tree} {n : Tree}

theorem left (h : Removed source vs (before ++ [n]) text) : Removed source vs before text where
  tokens := by
    obtain ⟨a, c, c', hs, ht, hvs, hc, hm⟩ := h.tokens
    exact ⟨a, c, c', hs, ht, hvs, hc, fun m hmem => hm m (List.mem_append_left _ hmem)⟩
  events := (List.prefix_append before [n]).trans h.events
  lines := h.lines

/-- The last event in front of those that were fixed is fixed next. -/
theorem step {v : Token} (h : Removed source vs (before ++ [n]) text)
    (hv : Modifier.token? n (.keyword .virtualKw) = some v) (hleaf : v ∈ n.leaves) :
    ∃ text', Edit.applyAll [Modifier.removal text v] text = .ok text' ∧
      Removed source (v :: vs) before text' := by
  obtain ⟨a, c, c', hs, ht, hvs, hc, hm⟩ := h.tokens
  obtain ⟨behind, hevents⟩ := h.events
  rw [List.append_assoc, List.singleton_append] at hevents
  obtain ⟨text', b, d, d', happly, hb, hb', hd, hbefore, hleaves, hcount⟩ :=
    exists_removal hevents.symm hv
  refine ⟨text', happly, ?_, hbefore, hcount.trans h.lines⟩
  -- no token occurs twice, so both cuts of the tokens agree on where `v` stands
  obtain ⟨e, rfl, rfl⟩ : ∃ e, a = b ++ v :: e ∧ d = e ++ c' := by
    obtain ⟨x, y, rfl⟩ := List.append_of_mem (hm n (by simp) v hleaf)
    have hnodup := nodup_scan text
    rw [ht, List.append_assoc, List.cons_append] at hb
    rw [ht, List.append_assoc, List.cons_append] at hnodup
    obtain ⟨-, hright, hleft⟩ := List.nodup_append.1 hnodup
    obtain ⟨rfl, -, hd'⟩ := (List.append_cons_inj_of_notMem
      (fun hmem => hleft v hmem v List.mem_cons_self rfl) (List.nodup_cons.1 hright).1).1 hb
    exact ⟨y, rfl, hd'.symm⟩
  have hnodup := nodup_scan source
  rw [hs, List.append_assoc, List.cons_append] at hnodup
  obtain ⟨hnot, hrest⟩ := List.nodup_cons.1 (List.nodup_append.1 hnodup).2.1
  have hdisjoint := (List.nodup_append.1 hrest).2.2
  refine ⟨b, v :: (e ++ c), d', by rw [hs, List.append_assoc, List.cons_append], hb',
    (hvs.trans (List.sublist_append_right e c)).cons_cons v, ?_, hleaves⟩
  have hkeep : (e ++ c).filter (· ∉ v :: vs) = e ++ c.filter (· ∉ vs) := by
    rw [List.filter_append]
    congr 1
    · refine List.filter_eq_self.2 fun t hte => decide_eq_true fun hmem => ?_
      rcases List.mem_cons.1 hmem with rfl | hmem
      · exact hnot (List.mem_append_left _ hte)
      · exact hdisjoint t hte t (hvs.subset hmem) rfl
    · refine List.filter_congr fun t htc => decide_eq_decide.2 ?_
      rw [List.mem_cons, not_or, and_iff_right]
      rintro rfl
      exact hnot (List.mem_append_right _ htc)
  rw [List.filter_cons_of_neg (by simp), hkeep, hd, List.map_append, List.map_append, hc]

/-- Of the tokens of the source, just the words `vs` are gone. -/
theorem bare (h : Removed source vs before text) :
    (scan text).map Token.bare = ((scan source).filter (· ∉ vs)).map Token.bare := by
  obtain ⟨a, c, c', hs, ht, hvs, hc, -⟩ := h.tokens
  have hkeep : a.filter (· ∉ vs) = a := by
    have hnodup := nodup_scan source
    rw [hs] at hnodup
    refine List.filter_eq_self.2 fun t hta => decide_eq_true fun hmem => ?_
    exact (List.nodup_append.1 hnodup).2.2 t hta t (hvs.subset hmem) rfl
  rw [ht, hs, List.filter_append, hkeep, List.map_append, List.map_append, hc]

end Removed

/-- What is noted of a fix that was performed. -/
def record (title : String) (f : Diagnostic) : AppliedFix :=
  ⟨f.file, f.line, f.eventName, title⟩

/-- Some of the event members are fixed, from the last to the first. -/
theorem foldr_removeModifier {source : Text} {messages : Messages} {report : Event → Diagnostic}
    (hreport : ∀ e, IsFor (report e) e) {before behind : List Tree} {es : List Event}
    (hroot : (Document.ofText source).root.eventNodes = before ++ behind)
    (hsub : (es.map Event.node).Sublist behind)
    (hes : ∀ e ∈ es, Event.ofTree? e.node = some e ∧ e.isVirtual = true) :
    ∃ text vs, es.foldr (fun e p => Progress.step messages .removeModifier p (report e))
        { document := Document.ofText source } =
      ⟨Document.ofText text, es.reverse.map (record messages.removeModifierTitle ∘ report), []⟩ ∧
      List.Forall₂ (fun e v => e.node ∈ (Document.ofText source).root.eventNodes ∧
        Event.ofTree? e.node = some e ∧ e.modifier? (.keyword .virtualKw) = some v) es vs ∧
      Removed source vs before text := by
  -- from the last member to the first: what was fixed lies behind the member that is fixed next
  induction behind generalizing before es with
  | nil =>
    have hnil := List.map_eq_nil_iff.1 (List.sublist_nil.1 hsub)
    subst hnil
    rw [List.append_nil] at hroot
    exact ⟨source, [], rfl, .nil, hroot ▸ Removed.refl source⟩
  | cons n behind ih =>
    have hroot' : (Document.ofText source).root.eventNodes = before ++ [n] ++ behind := by
      rw [hroot, List.append_assoc, List.singleton_append]
    rcases List.sublist_cons_iff.1 hsub with hskip | ⟨ns, hns, htail⟩
    · obtain ⟨text, vs, hfold, hvs, hrem⟩ := ih hroot' hskip hes
      exact ⟨text, vs, hfold, hvs, hrem.left⟩
    · obtain ⟨e, es, rfl, rfl, rfl⟩ := List.map_eq_cons_iff.1 hns
      obtain ⟨text, vs, hfold, hvs, hrem⟩ :=
        ih hroot' htail fun e he => hes e (List.mem_cons_of_mem _ he)
      obtain ⟨he, hvirtual⟩ := hes e List.mem_cons_self
      obtain ⟨v, hv⟩ := Option.isSome_iff_exists.1 hvirtual
      have htoken := hv
      rw [(Event.views_of_ofTree? he).modifier?] at htoken
      obtain ⟨text', happly, hrem'⟩ := hrem.step htoken (mem_leaves_of_token? htoken)
      have hmem : e.node ∈ (Document.ofText text).root.preorder :=
        (mem_preorder_of_mem_eventNodes _ (hrem.events.subset (by simp))).1
      obtain ⟨action, hfix, htitle⟩ :=
        tryFix_removeModifier messages hmem he (hreport e) hv happly
      refine ⟨text', v :: vs, ?_, .cons ⟨by rw [hroot]; simp, he, hv⟩ hvs, hrem'⟩
      rw [List.foldr_cons, hfold, Progress.step, hfix]
      simp [record, htitle]

end FixOutcome

/-! ## 4. All diagnostics -/

namespace Document

open EventLint.Tree

/-- Diagnostics stand in the order of the events they are for. -/
theorem diagnostics_eq (source : Text) (settings : Settings) (file : String) :
    ∃ es : List Event, es.Sublist (ofText source).root.virtualEvents ∧
      (ofText source).diagnostics settings file =
        es.map fun e => e.diagnostic settings.messages file (ofText source).lineIndex :=
  ⟨_, List.filter_sublist, diagnostics_eq_map_filter source settings file⟩

/-- The diagnostic is for an event of the document, and `v` is the first `virtual` in the list of
modifiers of its declaration. -/
def Marks (d : Document) (messages : Messages) (f : Diagnostic) (v : Token) : Prop :=
  ∃ member ∈ d.root.preorder, ∃ e list, Event.ofTree? member = some e ∧
    e.diagnostic messages f.file d.lineIndex = f ∧
    member.childNode? .modifierList = some list ∧
    list.childToken? (.keyword .virtualKw) = some v

end Document

open Document in
/-- Removing `virtual` skips nothing. It takes away one token for each diagnostic, and neither the
other tokens nor the lines change. -/
theorem fixText_removeModifier (settings : Settings) (file : String) (source : Text) :
    let found := (Analysis.ofText settings file source).diagnostics
    let outcome := fixText settings file .removeModifier source
    outcome.skipped = [] ∧
    outcome.applied = found.reverse.map (fun f =>
      ⟨f.file, f.line, f.eventName, settings.messages.removeModifierTitle⟩) ∧
    (∃ removed : List Token,
      List.Forall₂ ((ofText source).Marks settings.messages) found removed ∧ removed.Nodup ∧
      removed.Sublist (scan source) ∧
      (scan outcome.text).map bare = ((scan source).filter (· ∉ removed)).map bare) ∧
    outcome.text.count '\n' = source.count '\n' := by
  intro found outcome
  obtain ⟨es, hsub, hfound⟩ := diagnostics_eq source settings file
  have hes : ∀ e ∈ es, Event.ofTree? e.node = some e ∧ e.isVirtual = true :=
    fun e he => Tree.ofTree?_of_mem_virtualEvents _ (hsub.subset he)
  have hnodes : (es.map Event.node).Sublist (ofText source).root.eventNodes :=
    (hsub.map Event.node).trans (Tree.virtualEvents_sublist _)
  obtain ⟨text, vs, hfold, hvs, hrem⟩ := FixOutcome.foldr_removeModifier
    (fun e => ⟨rfl, rfl⟩ : ∀ e : Event, FixOutcome.IsFor
      (e.diagnostic settings.messages file (ofText source).lineIndex) e)
    (List.nil_append _).symm hnodes hes
  have houtcome : outcome = ⟨text, es.reverse.map (FixOutcome.record
      settings.messages.removeModifierTitle ∘ fun e =>
        e.diagnostic settings.messages file (ofText source).lineIndex), []⟩ := by
    show fixText settings file .removeModifier source = _
    rw [fixText, hfound, List.foldl_reverse, List.foldr_map, hfold]
    rfl
  have hfound' : found = es.map fun e =>
      e.diagnostic settings.messages file (ofText source).lineIndex := hfound
  rw [houtcome, hfound']
  obtain ⟨a, c, c', hs, ht, hvsub, hbare, -⟩ := hrem.tokens
  have hsublist : vs.Sublist (scan source) := by
    rw [hs]
    exact hvsub.trans (List.sublist_append_right a c)
  refine ⟨rfl, ?_, ⟨vs, ?_, hsublist.nodup (nodup_scan source), hsublist, ?_⟩, hrem.lines⟩
  · rw [← List.map_reverse, List.map_map]
    rfl
  · refine List.forall₂_map_left_iff.2 ?_
    refine hvs.imp fun e v ⟨hn, he, hv⟩ => ?_
    rw [(Event.views_of_ofTree? he).modifier?] at hv
    obtain ⟨list, hlist, hv⟩ := Option.bind_eq_some_iff.1 hv
    exact ⟨e.node, (Tree.mem_preorder_of_mem_eventNodes _ hn).1, e, list, he, rfl, hlist, hv⟩
  · have hkeep : a.filter (· ∉ vs) = a := by
      have hnodup := nodup_scan source
      rw [hs] at hnodup
      refine List.filter_eq_self.2 fun t hta => decide_eq_true fun hmem => ?_
      exact (List.nodup_append.1 hnodup).2.2 t hta t (hvsub.subset hmem) rfl
    rw [ht, hs, List.filter_append, hkeep, List.map_append, List.map_append, hbare]

end EventLint
