import EventLint.Analysis
import EventLint.Proofs.FixStep

/-!
# What is reported after fixing everything

All diagnostics of a text are fixed from the last to the first, and the new text is analysed again.
Main statement: the second analysis reports, in order, the events whose fix could not be planned and
those that say `virtual` more than once, and nothing else. After an extraction this holds if every
method reads as one behind its event and moves no suppression away from an event.
-/

namespace EventLint

open Text Token

/-! ## 1. Suppressions around a fix -/

namespace Suppression.Inserted

variable {old new : Lines} {l d k : Nat}

/-- Where a line is cut, its first part suppresses what it did, or nothing. -/
theorem lookup_or (h : Inserted old new l d) (hk : k ≤ l) :
    new.lookup k = old.lookup k ∨ new.lookup k = none := by
  rcases Nat.lt_or_eq_of_le hk with hlt | rfl
  · exact Or.inl (h.above k hlt)
  · rw [h.cut]
    cases new.lookup k with
    | none => exact Or.inr rfl
    | some s => exact Or.inl rfl

/-- Nothing is lost on the cut line if it is not cut or suppresses nothing. -/
theorem lookup_cut (h : Inserted old new l d) (hclear : d = 0 ∨ old.lookup l = none) :
    new.lookup l = old.lookup l ∧ new.lookup (l + d) = old.lookup l := by
  have hcut := h.cut
  rcases hclear with rfl | hnone
  · rw [Nat.add_zero, Option.or_self] at hcut
    exact ⟨hcut.symm, hcut.symm⟩
  · rw [hnone, eq_comm, Option.or_eq_none_iff] at hcut
    rwa [hnone]

theorem lookup_above (h : Inserted old new l d) (hk : k ≤ l)
    (hclear : (d = 0 ∨ old.lookup l = none) ∨ k ≠ l) : new.lookup k = old.lookup k := by
  rcases Nat.lt_or_eq_of_le hk with hlt | rfl
  · exact h.above k hlt
  · exact (h.lookup_cut (hclear.resolve_right (· rfl))).1

theorem lookup_below (h : Inserted old new l d) (hk : l ≤ k)
    (hclear : (d = 0 ∨ old.lookup l = none) ∨ k ≠ l) : new.lookup (k + d) = old.lookup k := by
  rcases Nat.lt_or_eq_of_le hk with hlt | rfl
  · exact h.below k hlt
  · exact (h.lookup_cut (hclear.resolve_right (· rfl))).2

end Suppression.Inserted

namespace Sighting

variable {settings : Settings} {old new : Suppression.Lines} {l d : Nat} {s : Sighting}

/-- What is reported of an event. -/
def label (s : Sighting) : Rule × Text :=
  (s.rule, s.name)

/-- A line can be cut: nothing is put in or suppressed there, or no event of these has its name
there. -/
def Clear (old : Suppression.Lines) (l d : Nat) (others : List Sighting) : Prop :=
  d = 0 ∨ old.lookup l = none ∨ ∀ s ∈ others, s.line ≠ l

section

variable (hcut : Suppression.Inserted old new l d)

include hcut

theorem isSilent_above {others : List Sighting} (hclear : Clear old l d others) (hs : s ∈ others)
    (hle : s.line ≤ l) : s.isSilent settings new = s.isSilent settings old := by
  have hlookup := hcut.lookup_above hle ((or_assoc.2 hclear).imp id fun h => h s hs)
  rw [isSilent, isSilent, Suppression.Lines.suppresses, Suppression.Lines.suppresses, hlookup]

theorem isSilent_below {others : List Sighting} (hclear : Clear old l d others) (hs : s ∈ others)
    (hle : l ≤ s.line) : (s.lower d).isSilent settings new = s.isSilent settings old := by
  have hlookup := hcut.lookup_below hle ((or_assoc.2 hclear).imp id fun h => h s hs)
  simp only [isSilent, lower, Suppression.Lines.suppresses, hlookup]

/-- An event is not silenced by what is put in behind it. -/
theorem isSilent_cut (hle : s.line ≤ l) (hs : s.isSilent settings old = false) :
    s.isSilent settings new = false := by
  rcases hcut.lookup_or hle with hsame | hnone
  · rwa [isSilent, Suppression.Lines.suppresses, hsame]
  · simp only [isSilent, Bool.or_eq_false_iff] at hs ⊢
    exact ⟨hs.1, by rw [Suppression.Lines.suppresses, hnone], hs.2.2⟩

end

/-- What is reported after a fix of the event seen as `s`. -/
theorem reported_step {more : List Sighting} (hs : s.isSilent settings new = false)
    (hmore : ∀ t ∈ more, (t.lower d).isSilent settings new = t.isSilent settings old) :
    ((s.less :: more.map (lower d)).filter (·.isReported settings new)).map label =
      (if 1 < s.virtuals then [s.label] else []) ++
        (more.filter (·.isReported settings old)).map label := by
  have hless : s.less.isReported settings new = decide (1 < s.virtuals) := by
    have hsilent : s.less.isSilent settings new = s.isSilent settings new := rfl
    have hvirtual : decide (0 < s.less.virtuals) = decide (1 < s.virtuals) :=
      decide_eq_decide.2 Nat.sub_pos_iff_lt
    rw [isReported, hsilent, hs, hvirtual, Bool.not_false, Bool.and_true]
  have hrest : ((more.map (lower d)).filter (·.isReported settings new)).map label =
      (more.filter (·.isReported settings old)).map label := by
    rw [List.filter_map, List.map_map]
    refine congrArg (List.map label) (List.filter_congr fun t ht => ?_)
    rw [Function.comp_apply, isReported, isReported, hmore t ht]
    rfl
  rw [List.filter_cons, hless]
  by_cases h : 1 < s.virtuals
  · rw [if_pos (decide_eq_true h), if_pos h, List.map_cons, hrest]
    rfl
  · rw [if_neg (by simpa using h), if_neg h, hrest, List.nil_append]

end Sighting

namespace Document

open EventLint.Tree

/-! ## 2. How far the fixes have come -/

/-- What is reported of some members of a text. -/
def labels (settings : Settings) (text : Text) (xs : List (Bool × Tree)) : List (Rule × Text) :=
  ((xs.filterMap (sightingIn? text)).filter
    (·.isReported settings (Suppression.ofText text))).map Sighting.label

theorem labels_append (settings : Settings) (text : Text) (xs ys : List (Bool × Tree)) :
    labels settings text (xs ++ ys) = labels settings text xs ++ labels settings text ys := by
  rw [labels, List.filterMap_append, List.filter_append, List.map_append]
  rfl

/-- The fixes of the members `rest` of `source` led to `text`: the members `met` in front of them
are still there, as they were, and `found` is reported of the others. -/
structure Fixed (settings : Settings) (source text : Text) (met rest : List (Bool × Tree))
    (found : List (Rule × Text)) : Prop where
  kept : Kept met source text
  silent : ∀ s ∈ met.filterMap (sightingIn? source),
    s.isSilent settings (Suppression.ofText text) = s.isSilent settings (Suppression.ofText source)
  unsuppressed : ∀ y ∈ met, (Suppression.ofText source).lookup (endLine source y.2) = none →
    (Suppression.ofText text).lookup (endLine source y.2) = none
  seen : ∃ rest', members text = met ++ rest' ∧ labels settings text rest' = found ∧
    ∀ y ∈ met, (∀ s ∈ rest.filterMap (sightingIn? source), s.line ≠ endLine source y.2) →
      ∀ s ∈ rest'.filterMap (sightingIn? text), s.line ≠ endLine source y.2

namespace Fixed

variable {settings : Settings} {source text text' : Text} {met rest : List (Bool × Tree)}
  {x : Bool × Tree} {e : Event} {found : List (Rule × Text)} {d : Nat}

theorem refl (settings : Settings) (source : Text) :
    Fixed settings source source (members source) [] [] where
  kept _ _ _ _ := ⟨rfl, rfl⟩
  silent _ _ := rfl
  unsuppressed _ _ h := h
  seen := ⟨[], (List.append_nil _).symm, rfl, fun _ _ _ _ h => by cases h⟩

/-- Nothing is done about a member. -/
theorem skip (h : Fixed settings source text (met ++ [x]) rest found) :
    Fixed settings source text met (x :: rest) (labels settings source [x] ++ found) where
  kept y hy := h.kept y (List.mem_append_left _ hy)
  silent s hs := h.silent s (by rw [List.filterMap_append]; exact List.mem_append_left _ hs)
  unsuppressed y hy := h.unsuppressed y (List.mem_append_left _ hy)
  seen := by
    obtain ⟨rest', hmembers, rfl, hlines⟩ := h.seen
    have hone : [x].filterMap (sightingIn? text) = [x].filterMap (sightingIn? source) :=
      Kept.sightings fun y hy => h.kept y (List.mem_append_right _ hy)
    refine ⟨x :: rest', by rw [hmembers, List.append_assoc, List.singleton_append], ?_,
      fun y hy hother s hs => ?_⟩
    · have hsame : labels settings text [x] = labels settings source [x] := by
        rw [labels, labels, hone]
        refine congrArg (List.map Sighting.label) (List.filter_congr fun s hs => ?_)
        rw [Sighting.isReported, Sighting.isReported, h.silent s
          (by rw [List.filterMap_append]; exact List.mem_append_right _ hs)]
      rw [← List.singleton_append, labels_append, hsame]
    · rw [← List.singleton_append, List.filterMap_append, List.mem_append, hone] at hs
      rw [← List.singleton_append, List.filterMap_append, List.forall_mem_append] at hother
      rcases hs with hs | hs
      · exact hother.1 s hs
      · exact hlines y (List.mem_append_left _ hy) hother.2 s hs

/-- The event of a member is fixed. -/
theorem step {rest' : List (Bool × Tree)} (h : Fixed settings source text (met ++ [x]) rest found)
    (he : Event.ofTree? x.2 = some e) (hmembers : members text = met ++ x :: rest')
    (hreported : (e.sighting (LineIndex.ofText source).line x.1).isReported settings
      (Suppression.ofText source) = true)
    (hstep : Step text text' met (e.sighting (LineIndex.ofText text).line x.1)
      (rest'.filterMap (sightingIn? text)) (endLine text x.2) d)
    (hclear : Sighting.Clear (Suppression.ofText source) (endLine source x.2) d
      ((met ++ rest).filterMap (sightingIn? source))) :
    Fixed settings source text' met (x :: rest)
      ((if 1 < e.modifiers.countP (·.kind = .keyword .virtualKw)
        then [(Rule.ofShape e.shape, e.name)] else []) ++ found) := by
  obtain ⟨r, hr, rfl, hlines⟩ := h.seen
  obtain rfl : r = rest' := by
    rw [hr, List.append_assoc, List.singleton_append] at hmembers
    exact (List.cons.inj (List.append_cancel_left hmembers)).2
  obtain ⟨hkept, ⟨rest'', hmembers', hseen⟩, hcut⟩ := hstep
  have hlast : x ∈ met ++ [x] := List.mem_append_right met (List.mem_singleton_self x)
  have hx : x ∈ members text := by simp [hmembers]
  have hfront : Kept met source text := fun y hy => h.kept y (List.mem_append_left _ hy)
  have hend : endLine text x.2 = endLine source x.2 :=
    h.kept.endLine hlast (leaves_ne_nil_of_mem_members hx)
  have hsame := h.kept.sighting hlast he
  -- what is clear in `source` is clear in `text`
  have hclear' : Sighting.Clear (Suppression.ofText text) (endLine text x.2) d
      (met.filterMap (sightingIn? text) ++ r.filterMap (sightingIn? text)) := by
    rw [Sighting.Clear, List.filterMap_append, List.forall_mem_append] at hclear
    rw [Sighting.Clear, hend, hfront.sightings, List.forall_mem_append]
    exact hclear.imp id (Or.imp (h.unsuppressed x hlast) fun hother =>
      ⟨hother.1, hlines x hlast hother.2⟩)
  have hbehind : ∀ y ∈ met, endLine source y.2 ≤ endLine text x.2 := by
    intro y hy
    have hy' : y ∈ members text := by simp [hmembers, hy]
    rw [← hfront.endLine hy (leaves_ne_nil_of_mem_members hy')]
    exact endLine_le_endLine hmembers hy
  have hmem : e.sighting (LineIndex.ofText source).line x.1 ∈
      [x].filterMap (sightingIn? source) := by
    simp [sightingIn?, sighting?, he]
  refine ⟨hfront.trans hkept, fun s hs => ?_, fun y hy hnone => ?_, rest'', hmembers', ?_,
    fun y hy hother s hs => ?_⟩
  · have hs' := hs
    rw [← hfront.sightings] at hs'
    rw [Sighting.isSilent_above hcut hclear' (List.mem_append_left _ hs')
      (le_endLine_of_front hmembers hs')]
    exact h.silent s (by rw [List.filterMap_append]; exact List.mem_append_left _ hs)
  · have htext := h.unsuppressed y (List.mem_append_left _ hy) hnone
    rcases hcut.lookup_or (hbehind y hy) with hlookup | hlookup
    · rw [hlookup, htext]
    · exact hlookup
  · have hsilent := h.silent _ (by rw [List.filterMap_append]; exact List.mem_append_right _ hmem)
    rw [Sighting.isReported, Bool.and_eq_true, Bool.not_eq_true'] at hreported
    rw [hreported.2, ← hsame] at hsilent
    rw [labels, hseen, Sighting.reported_step (Sighting.isSilent_cut hcut
      (line_le_endLine hx (Event.views_of_ofTree? he).name) hsilent) fun t ht =>
        Sighting.isSilent_below hcut hclear' (List.mem_append_right _ ht)
          (endLine_le_of_behind hmembers ht)]
    rfl
  · rw [← List.singleton_append, List.filterMap_append, List.forall_mem_append] at hother
    rw [hseen, hsame] at hs
    rcases List.mem_cons.1 hs with rfl | hs
    · exact hother.1 (e.sighting (LineIndex.ofText source).line x.1) hmem
    · -- what is behind the fixed event only moves away
      obtain ⟨t, ht, rfl⟩ := List.mem_map.1 hs
      have hne := hlines y (List.mem_append_left _ hy) hother.2 t ht
      have hle := endLine_le_of_behind hmembers ht
      have hle' := hbehind y hy
      show t.line + d ≠ _
      omega

end Fixed

theorem labels_eq (settings : Settings) (text : Text) (xs : List (Bool × Tree)) :
    labels settings text xs = (xs.filterMap (reportedIn? settings text)).map fun e =>
      (Rule.ofShape e.shape, e.name) := by
  induction xs with
  | nil => rfl
  | cons x xs ih =>
    rw [← List.singleton_append, labels_append, ih, List.filterMap_append, List.map_append]
    refine congrArg (· ++ _) ?_
    rw [labels]
    cases he : Event.ofTree? x.2 with
    | none => simp [sightingIn?, sighting?, reportedIn?, he]
    | some e =>
      simp only [List.filterMap_cons, List.filterMap_nil, sightingIn?, sighting?, reportedIn?, he,
        Option.map_some, Option.filter_some, List.filter_cons, List.filter_nil]
      split <;> rfl

end Document

/-! ## 3. The fix of an event -/

/-- A fix of this kind can be planned for an event. -/
def Event.isFixable (e : Event) (kind : FixKind) : Bool :=
  kind = .removeModifier || e.raiseMethod.toOption.isSome

/-- A method reads as one behind its event, and nothing else is read differently: the declaration is
complete, the name of the method is one identifier, its type is not taken for a modifier, and the
angle brackets of the type close. -/
def Event.takes (e : Event) (m : RaiseMethod) : Bool :=
  e.node.isComplete && (e.name.head? ≠ some '@' &&
    (m.argumentType ∉ Tree.openingWords.map String.toList &&
      Tree.anglesClose 0 ((scanFrom false 0 m.argumentType).map Token.kind)))

theorem Event.exists_raiseMethod {e : Event} (h : e.isFixable .extractRaiseMethod = true) :
    ∃ m, e.raiseMethod = .ok m := by
  rw [isFixable] at h
  cases hm : e.raiseMethod with
  | ok m => exact ⟨m, rfl⟩
  | error err =>
    rw [hm] at h
    cases h

namespace FixOutcome

open EventLint.Tree Document

section

variable {text : Text} {met more : List (Bool × Tree)} {x : Bool × Tree} {e : Event}
  {f : Diagnostic} {kind : FixKind} (messages : Messages)
  (h : members text = met ++ x :: more) (he : Event.ofTree? x.2 = some e)
  (hv : e.isVirtual = true) (hf : IsFor f e)

include h he hv hf

theorem isSome_plan : ((ofText text).plan messages f kind).toOption.isSome = e.isFixable kind := by
  have hviews := Event.views_of_ofTree? he
  have hn : e.node ∈ (ofText text).root.preorder := by
    rw [hviews.node]
    exact mem_preorder_of_mem_members (by simp [h])
  rw [← hviews.node] at he
  cases kind with
  | removeModifier =>
    rw [plan_removeModifier messages hn he hf hv]
    rfl
  | extractRaiseMethod =>
    rw [plan_extractRaiseMethod messages hn he hf hv, Event.isFixable]
    cases e.raiseMethod <;> rfl

theorem exists_error (hfix : e.isFixable kind = false) :
    ∃ err, tryFix (ofText text) messages kind f = .error err := by
  have hplan : ((ofText text).plan messages f kind).toOption.isSome = false :=
    (isSome_plan messages h he hv hf).trans hfix
  cases hp : (ofText text).plan messages f kind with
  | ok action =>
    rw [hp] at hplan
    cases hplan
  | error err =>
    refine ⟨err, ?_⟩
    rw [tryFix, hp]
    rfl

theorem exists_step (hfix : e.isFixable kind = true)
    (htakes : kind = .extractRaiseMethod → ∀ m, e.raiseMethod = .ok m → e.takes m = true) :
    ∃ action text' d, tryFix (ofText text) messages kind f = .ok (action, ofText text') ∧
      Step text text' met (e.sighting (LineIndex.ofText text).line x.1)
        (more.filterMap (sightingIn? text)) (endLine text x.2) d ∧
      (kind = .removeModifier → d = 0) := by
  have hviews := Event.views_of_ofTree? he
  have hnode : ∀ {text : Text}, x ∈ members text → e.node ∈ (ofText text).root.preorder := by
    intro text hx
    rw [hviews.node]
    exact mem_preorder_of_mem_members hx
  have hn : e.node ∈ (ofText text).root.preorder := hnode (by simp [h])
  have he' := he
  rw [← hviews.node] at he'
  obtain ⟨v, hmod⟩ := Option.isSome_iff_exists.1 hv
  cases kind with
  | removeModifier =>
    obtain ⟨text', happly, hstep⟩ := exists_step_removal h he hmod (endLine text x.2)
    obtain ⟨action, hfixed, -⟩ := tryFix_removeModifier messages hn he' hf hmod happly
    exact ⟨action, text', 0, hfixed, hstep, fun _ => rfl⟩
  | extractRaiseMethod =>
    obtain ⟨m, hm⟩ := Event.exists_raiseMethod hfix
    have htakes := htakes rfl m hm
    simp only [Event.takes, Bool.and_eq_true, decide_eq_true_eq, hviews.node] at htakes
    obtain ⟨hc, hname, htype, hangles⟩ := htakes
    obtain ⟨extended, text', d, hadd, hx, hremove, hstep⟩ := exists_step_extraction h he hmod hm hc
      hname htype hangles ((ofText text).spanOf x.2).start
    rw [← hviews.node] at hadd
    obtain ⟨action, hfixed⟩ := tryFix_extractRaiseMethod messages hn he' hf hm hmod hadd (hnode hx)
      hremove
    exact ⟨action, text', d, hfixed, hstep, fun hk => by cases hk⟩

end

theorem Progress.step_ok {p : Progress} {messages : Messages} {kind : FixKind} {f : Diagnostic}
    {action : FixAction} {next : Document}
    (h : tryFix p.document messages kind f = .ok (action, next)) :
    (p.step messages kind f).document = next ∧ (p.step messages kind f).skipped = p.skipped := by
  rw [step, h]
  exact ⟨rfl, rfl⟩

theorem Progress.step_error {p : Progress} {messages : Messages} {kind : FixKind} {f : Diagnostic}
    {err : FixError} (h : tryFix p.document messages kind f = .error err) :
    (p.step messages kind f).document = p.document ∧ (p.step messages kind f).skipped =
      p.skipped ++ [⟨f.file, f.line, f.eventName, err.message⟩] := by
  rw [step, h]
  exact ⟨rfl, rfl⟩

end FixOutcome

/-! ## 4. All fixes -/

namespace Document

open EventLint.Tree FixOutcome

/-- The event that a diagnostic is for. -/
def eventOf? (d : Document) (f : Diagnostic) : Option Event :=
  (d.virtualEventAt f.rule f.span.start).toOption.map Prod.snd

/-- The event of a diagnostic says `virtual` more than once. -/
def repeats (d : Document) (f : Diagnostic) : Bool :=
  (d.eventOf? f).any fun e => 1 < e.modifiers.countP (·.kind = .keyword .virtualKw)

/-- No fix of this kind can be planned for a diagnostic. -/
def refuses (d : Document) (messages : Messages) (kind : FixKind) (f : Diagnostic) : Bool :=
  !(d.plan messages f kind).toOption.isSome

/-- What follows a declaration can be put on another line: nothing is suppressed on the line of its
end, or no other event has its name there. -/
def endsClear (d : Document) (e : Event) : Bool :=
  let line := d.lineIndex.line (d.spanOf e.node).stop
  ((Suppression.ofText d.text).lookup line).isNone ||
    (d.root.eventNodes.filterMap Event.ofTree?).all fun other =>
      other.nameToken = e.nameToken || d.lineIndex.line other.nameToken.start ≠ line

/-- If a raise method is extracted for a diagnostic, it only adds a method. -/
def extractsCleanly (d : Document) (f : Diagnostic) : Bool :=
  (d.eventOf? f).all fun e => e.raiseMethod.toOption.all fun m => e.takes m && d.endsClear e

section

variable {settings : Settings} {file : String} {kind : FixKind} {source : Text}
  {met rest : List (Bool × Tree)} {x : Bool × Tree} {e : Event}

theorem clear_of_endsClear (h : members source = met ++ x :: rest)
    (he : Event.ofTree? x.2 = some e) (hclear : (ofText source).endsClear e = true) (d : Nat) :
    Sighting.Clear (Suppression.ofText source) (endLine source x.2) d
      ((met ++ rest).filterMap (sightingIn? source)) := by
  have hviews := Event.views_of_ofTree? he
  rw [endsClear, hviews.node, Bool.or_eq_true, List.all_eq_true] at hclear
  rcases hclear with hnone | hall
  · exact Or.inr (Or.inl (Option.isNone_iff_eq_none.1 hnone))
  · refine Or.inr (Or.inr fun s hs => ?_)
    obtain ⟨y, hy, other, hother, hname, hline⟩ := exists_of_mem_sightings hs
    have hy' : y ∈ members source := by
      rw [h]
      rcases List.mem_append.1 hy with hy | hy <;> simp [hy]
    have hmem : other ∈ (ofText source).root.eventNodes.filterMap Event.ofTree? :=
      List.mem_filterMap.2 ⟨y.2, mem_eventNodes_of_mem_members hy', hother⟩
    have hplace := hall other hmem
    rw [Bool.or_eq_true, decide_eq_true_eq, decide_eq_true_eq] at hplace
    rw [hline]
    refine hplace.resolve_left fun hsame => ?_
    -- the tokens of another member are in front of these or behind them
    have hpos := (inOrder_of_mem (mem_preorder_of_mem_members hy')).pos _ hname
    have hpairs := pairwise_members source
    rw [h, List.pairwise_append, List.pairwise_cons] at hpairs
    have hstop : other.nameToken.stop ≤ other.nameToken.start := by
      rcases List.mem_append.1 hy with hy | hy
      · have hle := hpairs.2.2 y hy x List.mem_cons_self _ hname _ hviews.name
        rwa [← hsame] at hle
      · have hle := hpairs.2.1.1 y hy _ hviews.name _ hname
        rwa [← hsame] at hle
    exact absurd hpos (Nat.not_lt.2 hstop)

theorem of_reportedIn? {text : Text} (h : reportedIn? settings text x = some e) :
    Event.ofTree? x.2 = some e ∧ e.isVirtual = true ∧
      (e.sighting (LineIndex.ofText text).line x.1).isReported settings
        (Suppression.ofText text) = true := by
  rw [reportedIn?, Option.filter_eq_some_iff] at h
  refine ⟨h.1, ?_, h.2⟩
  have hvirtuals := (Bool.and_eq_true_iff.1 h.2).1
  exact (e.isVirtual_iff_virtuals _ _).2 (of_decide_eq_true hvirtuals)

/-- A diagnostic is for the event it was made from. -/
theorem eventOf?_diagnostic {text : Text} (hx : x ∈ members text) (he : Event.ofTree? x.2 = some e)
    (hv : e.isVirtual = true) {f : Diagnostic} (hf : IsFor f e) :
    (ofText text).eventOf? f = some e := by
  rw [eventOf?, hf.1, hf.2]
  show (((ofText text).virtualEventAt _ e.nameToken.start).toOption.map Prod.snd) = _
  rw [virtualEventAt_name (mem_preorder_of_mem_members hx) he hv]
  rfl

theorem of_extractsCleanly {d : Document} {f : Diagnostic} (he : d.eventOf? f = some e)
    (h : d.extractsCleanly f = true) {m : RaiseMethod} (hm : e.raiseMethod = .ok m) :
    e.takes m = true ∧ d.endsClear e = true := by
  rw [extractsCleanly, he, Option.all_some, hm] at h
  exact Bool.and_eq_true_iff.1 h

/-- The fixes of `found`, the diagnostics of the members `rest` of `source`, led to `p`: those that
cannot be planned were skipped, and they are reported again with those that repeat `virtual`. -/
def Reached (settings : Settings) (kind : FixKind) (source : Text) (met rest : List (Bool × Tree))
    (found : List Diagnostic) (p : Progress) : Prop :=
  ∃ text, p.document = ofText text ∧
    p.skipped.reverse.map SkippedFix.eventName =
      (found.filter ((ofText source).refuses settings.messages kind)).map Diagnostic.eventName ∧
    Fixed settings source text met rest ((found.filter fun f =>
      (ofText source).refuses settings.messages kind f || (ofText source).repeats f).map
        fun f => (f.rule, f.eventName))

namespace Reached

variable {found : List Diagnostic} {p : Progress} {f : Diagnostic}

theorem skip (h : Reached settings kind source (met ++ [x]) rest found p)
    (hx : reportedIn? settings source x = none) :
    Reached settings kind source met (x :: rest) found p := by
  obtain ⟨text, hdoc, hskipped, hfixed⟩ := h
  have hnone : labels settings source [x] = [] := by
    rw [labels_eq, List.filterMap_cons_none hx]
    rfl
  have hskip := hfixed.skip
  rw [hnone, List.nil_append] at hskip
  exact ⟨text, hdoc, hskipped, hskip⟩

theorem step (h : Reached settings kind source (met ++ [x]) rest found p)
    (hsource : members source = met ++ x :: rest) (hx : reportedIn? settings source x = some e)
    (hf : IsFor f e) (hname : f.eventName = e.name)
    (hclean : kind = .extractRaiseMethod → (ofText source).extractsCleanly f = true) :
    Reached settings kind source met (x :: rest) (f :: found)
      (p.step settings.messages kind f) := by
  obtain ⟨text, hdoc, hskipped, hfixed⟩ := h
  obtain ⟨he, hv, hreported⟩ := of_reportedIn? hx
  obtain ⟨rest', hmembers, -, -⟩ := hfixed.seen
  rw [List.append_assoc, List.singleton_append] at hmembers
  have hmem : x ∈ members source := by simp [hsource]
  have hof := eventOf?_diagnostic hmem he hv hf
  have hrefuses : (ofText source).refuses settings.messages kind f = !e.isFixable kind := by
    rw [refuses, isSome_plan settings.messages hsource he hv hf]
  have hrepeats : (ofText source).repeats f =
      decide (1 < e.modifiers.countP (·.kind = .keyword .virtualKw)) := by
    rw [repeats, hof, Option.any_some]
  cases hfix : e.isFixable kind with
  | false =>
    -- nothing happens, and the event is reported as before
    obtain ⟨err, herr⟩ := exists_error settings.messages hmembers he hv hf hfix
    rw [← hdoc] at herr
    obtain ⟨hnext, hmore⟩ := Progress.step_error herr
    have hrefused : (ofText source).refuses settings.messages kind f = true := by
      rw [hrefuses, hfix]
      rfl
    refine ⟨text, hnext.trans hdoc, ?_, ?_⟩
    · rw [hmore, List.reverse_append, List.reverse_singleton, List.singleton_append, List.map_cons,
        hskipped, List.filter_cons_of_pos hrefused, List.map_cons]
    · have hskip := hfixed.skip
      rw [labels_eq, List.filterMap_cons_some hx] at hskip
      rw [List.filter_cons_of_pos (by rw [hrefused, Bool.true_or]), List.map_cons, hf.1, hname]
      exact hskip
  | true =>
    have hchecks : ∀ m, kind = .extractRaiseMethod → e.raiseMethod = .ok m →
        e.takes m = true ∧ (ofText source).endsClear e = true :=
      fun m hk hm => of_extractsCleanly hof (hclean hk) hm
    obtain ⟨action, text', d, htry, hstep, hzero⟩ := exists_step settings.messages hmembers he hv hf
      hfix fun hk m hm => (hchecks m hk hm).1
    rw [← hdoc] at htry
    obtain ⟨hnext, hsame⟩ := Progress.step_ok htry
    have hclear : Sighting.Clear (Suppression.ofText source) (endLine source x.2) d
        ((met ++ rest).filterMap (sightingIn? source)) := by
      cases kind with
      | removeModifier => exact Or.inl (hzero rfl)
      | extractRaiseMethod =>
        obtain ⟨m, hm⟩ := Event.exists_raiseMethod hfix
        exact clear_of_endsClear hsource he (hchecks m rfl hm).2 d
    have hplanned : (ofText source).refuses settings.messages kind f = false := by
      rw [hrefuses, hfix]
      rfl
    refine ⟨text', hnext, ?_, ?_⟩
    · rw [hsame, hskipped, List.filter_cons_of_neg (by rw [hplanned]; decide)]
    · have hdone := hfixed.step he hmembers hreported hstep hclear
      rw [List.filter_cons, hplanned, Bool.false_or, hrepeats]
      by_cases htwice : 1 < e.modifiers.countP (·.kind = .keyword .virtualKw)
      · rw [if_pos htwice] at hdone
        rw [if_pos (decide_eq_true htwice), List.map_cons, hf.1, hname]
        exact hdone
      · rw [if_neg htwice, List.nil_append] at hdone
        rw [if_neg (by simpa using htwice)]
        exact hdone

end Reached

theorem reached_members (hclean : kind = .extractRaiseMethod →
      ∀ f ∈ (ofText source).diagnostics settings file, (ofText source).extractsCleanly f = true)
    (h : members source = met ++ rest) :
    Reached settings kind source met rest
      ((rest.filterMap (reportedIn? settings source)).map fun e =>
        e.diagnostic settings.messages file (ofText source).lineIndex)
      (((rest.filterMap (reportedIn? settings source)).map fun e =>
        e.diagnostic settings.messages file (ofText source).lineIndex).foldr
          (fun f p => p.step settings.messages kind f) { document := ofText source }) := by
  induction rest generalizing met with
  | nil =>
    rw [List.append_nil] at h
    exact ⟨source, rfl, rfl, h ▸ Fixed.refl settings source⟩
  | cons x rest ih =>
    have hrest := ih (h.trans (List.append_cons met x rest))
    cases hx : reportedIn? settings source x with
    | none =>
      rw [List.filterMap_cons_none hx]
      exact hrest.skip hx
    | some e =>
      rw [List.filterMap_cons_some hx, List.map_cons, List.foldr_cons]
      refine hrest.step h hx ⟨rfl, rfl⟩ rfl fun hk => hclean hk _ ?_
      rw [diagnostics_members]
      exact List.mem_map_of_mem (List.mem_filterMap.2 ⟨x, by simp [h], hx⟩)

/-- What is skipped, and what the next analysis reports. -/
theorem skipped_and_labels_fixText (hclean : kind = .extractRaiseMethod →
      ∀ f ∈ (ofText source).diagnostics settings file, (ofText source).extractsCleanly f = true) :
    (fixText settings file kind source).skipped.reverse.map SkippedFix.eventName =
      (((ofText source).diagnostics settings file).filter
        ((ofText source).refuses settings.messages kind)).map Diagnostic.eventName ∧
    ((ofText (fixText settings file kind source).text).diagnostics settings file).map
        (fun f => (f.rule, f.eventName)) =
      (((ofText source).diagnostics settings file).filter fun f =>
        (ofText source).refuses settings.messages kind f || (ofText source).repeats f).map
          (fun f => (f.rule, f.eventName)) := by
  obtain ⟨text, hdoc, hskipped, hfixed⟩ := reached_members hclean (List.nil_append _).symm
  rw [← diagnostics_members] at hdoc hskipped hfixed
  obtain ⟨rest, hmembers, hlabels, -⟩ := hfixed.seen
  rw [fixText, List.foldl_reverse]
  refine ⟨hskipped, ?_⟩
  dsimp only
  rw [hdoc, text_ofText, ← hlabels, diagnostics_members, hmembers, List.nil_append, labels_eq,
    List.map_map]
  rfl

/-- A removal can be planned for every diagnostic. -/
theorem refuses_removeModifier {f : Diagnostic} (messages : Messages)
    (hf : f ∈ (ofText source).diagnostics settings file) :
    (ofText source).refuses messages .removeModifier f = false := by
  rw [diagnostics_members] at hf
  obtain ⟨e, hmem, rfl⟩ := List.mem_map.1 hf
  obtain ⟨x, hx, hreported⟩ := List.mem_filterMap.1 hmem
  obtain ⟨met, rest, h⟩ := List.append_of_mem hx
  obtain ⟨he, hv, -⟩ := of_reportedIn? hreported
  rw [refuses, isSome_plan messages h he hv ⟨rfl, rfl⟩]
  rfl

end

theorem map_filter_or_eq_iff {α β : Type} {p q : α → Bool} {g : α → β} {xs : List α} :
    (xs.filter fun x => p x || q x).map g = (xs.filter p).map g ↔
      ∀ x ∈ xs, q x = true → p x = true := by
  constructor
  · intro h x hx hq
    have hsub : (xs.filter p).Sublist (xs.filter fun x => p x || q x) :=
      List.monotone_filter_right xs fun x hp => by rw [hp, Bool.true_or]
    have hlength := congrArg List.length h
    rw [List.length_map, List.length_map] at hlength
    have hmem : x ∈ xs.filter p := by
      rw [hsub.eq_of_length hlength.symm]
      exact List.mem_filter.2 ⟨hx, by rw [hq, Bool.or_true]⟩
    exact (List.mem_filter.1 hmem).2
  · intro h
    refine congrArg (List.map g) (List.filter_congr fun x hx => ?_)
    cases hq : q x with
    | false => rw [Bool.or_false]
    | true => rw [Bool.or_true, h x hx hq]

/-- Fixing everything leaves for the next analysis what could not be planned and what repeats
`virtual`, in order. So it takes one pass exactly if no planned fix is for such an event, and after
a removal only these events are left. -/
theorem diagnostics_fixText (settings : Settings) (file : String) (kind : FixKind) (source : Text)
    (hclean : kind = .extractRaiseMethod →
      ∀ f ∈ (ofText source).diagnostics settings file, (ofText source).extractsCleanly f = true) :
    let d := ofText source
    let found := (Analysis.ofText settings file source).diagnostics
    let outcome := fixText settings file kind source
    let again := (Analysis.ofText settings file outcome.text).diagnostics
    let skipped := outcome.skipped.reverse.map SkippedFix.eventName
    skipped = (found.filter (d.refuses settings.messages kind)).map Diagnostic.eventName ∧
    again.map (fun f => (f.rule, f.eventName)) =
      (found.filter fun f => d.refuses settings.messages kind f || d.repeats f).map
        (fun f => (f.rule, f.eventName)) ∧
    (kind = .removeModifier → outcome.skipped = [] ∧
      again.map (fun f => (f.rule, f.eventName)) =
        (found.filter d.repeats).map (fun f => (f.rule, f.eventName))) ∧
    (again.map Diagnostic.eventName = skipped ↔
      ∀ f ∈ found, d.repeats f = true → d.refuses settings.messages kind f = true) := by
  intro d found outcome again skipped
  obtain ⟨hskipped, hagain⟩ := skipped_and_labels_fixText hclean
  have hnames : again.map Diagnostic.eventName = (found.filter fun f =>
      d.refuses settings.messages kind f || d.repeats f).map Diagnostic.eventName := by
    have hsnd := congrArg (List.map Prod.snd) hagain
    rwa [List.map_map, List.map_map] at hsnd
  refine ⟨hskipped, hagain, ?_, ?_⟩
  · rintro rfl
    have hplanned : ∀ f ∈ found, d.refuses settings.messages .removeModifier f = false :=
      fun f hf => refuses_removeModifier settings.messages hf
    have hnone : found.filter (d.refuses settings.messages .removeModifier) = [] :=
      List.filter_eq_nil_iff.2 fun f hf => by rw [hplanned f hf]; decide
    refine ⟨List.reverse_eq_nil_iff.1 (List.map_eq_nil_iff.1 (hskipped.trans ?_)), hagain.trans ?_⟩
    · exact congrArg (List.map Diagnostic.eventName) hnone
    · refine congrArg (List.map _) (List.filter_congr fun f hf => ?_)
      rw [show (ofText source).refuses settings.messages .removeModifier f = false from
        hplanned f hf, Bool.false_or]
  · rw [hnames, show skipped = _ from hskipped]
    exact map_filter_or_eq_iff

/-- An extraction where one event repeats the word and one has no method. -/
theorem diagnostics_fixText_mixed :
    let source := ("class C\n\x7b\n  virtual virtual event A<B> X;\n" ++
      "  virtual event A<B> Y; // noqa: EVS-V002\n  virtual event D Z;\n\x7d\n").toList
    let outcome := fixText {} "C.cs" .extractRaiseMethod source
    (∀ f ∈ (ofText source).diagnostics {} "C.cs", (ofText source).extractsCleanly f = true) ∧
      outcome.skipped.reverse.map SkippedFix.eventName = ["Z".toList] ∧
      (Analysis.ofText {} "C.cs" outcome.text).diagnostics.map (fun f => (f.rule, f.eventName)) =
        [(.fieldEvent, "X".toList), (.fieldEvent, "Z".toList)] := by
  intro source outcome
  have hfound : (Analysis.ofText {} "C.cs" source).diagnostics = _ :=
    diagnostics_members {} "C.cs" source
  have hclean : ∀ f ∈ (ofText source).diagnostics {} "C.cs",
      (ofText source).extractsCleanly f = true := by
    rw [diagnostics_members]
    decide +kernel
  obtain ⟨hskipped, hagain, -⟩ := diagnostics_fixText {} "C.cs" .extractRaiseMethod source
    fun _ => hclean
  rw [hfound] at hskipped hagain
  exact ⟨hclean, hskipped.trans (by decide +kernel), hagain.trans (by decide +kernel)⟩

/-- Only the first `virtual` is removed. -/
theorem fixText_repeated_virtual :
    let outcome := fixText {} "C.cs" .removeModifier
      "class C \x7b virtual virtual event A<B> X; \x7d".toList
    outcome.skipped = [] ∧ outcome.text = "class C \x7b virtual event A<B> X; \x7d".toList ∧
      (Analysis.ofText {} "C.cs" outcome.text).diagnostics.map Diagnostic.eventName =
        ["X".toList] := by
  decide +kernel

/-- Two events end on one line, and the method of the second takes away what suppresses the
first. -/
example :
    let source := ("class C \x7b virtual event A<B> X; virtual event A<B> P " ++
      "\x7b add \x7b f += value; \x7d remove \x7b \x7d \x7d /**/ // noqa: EVS-V001\n\x7d").toList
    let outcome := fixText {} "C.cs" .extractRaiseMethod source
    ((ofText source).diagnostics {} "C.cs").map (ofText source).extractsCleanly = [false] ∧
      outcome.skipped = [] ∧
      (Analysis.ofText {} "C.cs" outcome.text).diagnostics.map Diagnostic.eventName =
        ["X".toList] := by
  decide +kernel

end Document

end EventLint
