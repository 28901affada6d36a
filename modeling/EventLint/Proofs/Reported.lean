import EventLint.Proofs.Lines
import EventLint.Proofs.Spans
import Mathlib.Data.List.Forall2

/-!
# What is reported

The search for virtual events stops at the first event and the first interface on its way down, and
looks only at the list of modifiers. Main statement: the diagnostics of a document are those of the
events outside interfaces with a `virtual` in front of their keyword, one for each, in the order of
their names, less the suppressed and the ignored ones.
-/

namespace EventLint

namespace Tree

open Token

/-! ## 1. Events outside interfaces -/

/-- The node stands in an interface of the tree. -/
def InInterface (t n : Tree) : Prop :=
  ∃ m ∈ t.preorder, m.isOf .interfaceDeclaration = true ∧ n ∈ preorderAll m.children

/-- No event of the tree has another below it. -/
def FlatEvents (t : Tree) : Prop :=
  ∀ n ∈ t.preorder, n.nodeKind?.any NodeKind.isEvent = true →
    ∀ m ∈ preorderAll n.children, m.nodeKind?.any NodeKind.isEvent = false

theorem flatEvents_ofTokens (ts : List Token) : (ofTokens ts).FlatEvents := by
  intro n hn he m hm
  cases n with
  | leaf t => cases he
  | node k cs => exact not_isEvent_of_mem hn he rfl hm

theorem FlatEvents.child {k : NodeKind} {c : Tree} {cs : List Tree} (h : (node k cs).FlatEvents)
    (hc : c ∈ cs) : c.FlatEvents :=
  fun n hn => h n (List.mem_cons_of_mem _ (mem_preorderAll hc hn))

/-- A node with tokens stands below one child only. -/
theorem child_unique {cs : List Tree} {c d n : Tree} (hnodup : (leavesAll cs).Nodup) (hc : c ∈ cs)
    (hd : d ∈ cs) (hnc : n ∈ c.preorder) (hnd : n ∈ d.preorder) (hne : n.leaves ≠ []) : c = d := by
  obtain ⟨u, hu⟩ := List.exists_mem_of_ne_nil _ hne
  have huc : u ∈ c.leaves := by
    obtain ⟨a, b, h⟩ := leaves_infix c hnc
    rw [h]
    exact List.mem_append_left _ (List.mem_append_right _ hu)
  have hud : u ∈ d.leaves := by
    obtain ⟨a, b, h⟩ := leaves_infix d hnd
    rw [h]
    exact List.mem_append_left _ (List.mem_append_right _ hu)
  induction cs with
  | nil => cases hc
  | cons x cs ih =>
    rw [leavesAll] at hnodup
    obtain ⟨-, hrest, hdisjoint⟩ := List.nodup_append.1 hnodup
    rcases List.mem_cons.1 hc with rfl | hc' <;> rcases List.mem_cons.1 hd with rfl | hd'
    · rfl
    · exact absurd rfl (hdisjoint u huc u (leaves_subset_leavesAll hd' hud))
    · exact absurd rfl (hdisjoint u hud u (leaves_subset_leavesAll hc' huc))
    · exact ih hrest hc' hd'

theorem isEvent_of_ofTree? {n : Tree} {e : Event} (h : Event.ofTree? n = some e) :
    n.nodeKind?.any NodeKind.isEvent = true := by
  rw [(Event.views_of_ofTree? h).kind, Option.any_some]
  cases e.shape <;> rfl

theorem leaves_ne_nil_of_ofTree? {n : Tree} {e : Event} (h : Event.ofTree? n = some e) :
    n.leaves ≠ [] :=
  List.ne_nil_of_mem (Event.views_of_ofTree? h).name

/-- Inside a node that is no interface, only interfaces below its children count. -/
theorem inInterface_node {k : NodeKind} {c n : Tree} {cs : List Tree}
    (hk : k ≠ .interfaceDeclaration) (hnodup : (leavesAll cs).Nodup) (hc : c ∈ cs)
    (hn : n ∈ c.preorder) (hne : n.leaves ≠ []) :
    (node k cs).InInterface n ↔ c.InInterface n := by
  constructor
  · rintro ⟨m, hm, hi, hnm⟩
    rcases List.mem_cons.1 hm with rfl | hm
    · exact absurd (Option.some.inj (of_decide_eq_true hi)) hk
    · obtain ⟨d, hd, hm⟩ := exists_of_mem_preorderAll hm
      have hnd : n ∈ d.preorder := by
        have hbelow := preorderAll_children_subset d hm hnm
        cases d with
        | leaf t => cases hbelow
        | node k ds => exact List.mem_cons_of_mem _ hbelow
      rw [child_unique hnodup hc hd hn hnd hne]
      exact ⟨m, hm, hi, hnm⟩
  · rintro ⟨m, hm, hi, hnm⟩
    exact ⟨m, List.mem_cons_of_mem _ (mem_preorderAll hc hm), hi, hnm⟩

mutual

/-- The search finds the virtual events outside interfaces. -/
theorem mem_virtualEvents_iff (t : Tree) {e : Event} (hflat : t.FlatEvents)
    (hnodup : t.leaves.Nodup) :
    e ∈ t.virtualEvents ↔
      ∃ n ∈ t.preorder, Event.ofTree? n = some e ∧ e.isVirtual = true ∧ ¬ t.InInterface n := by
  cases t with
  | leaf t => simp [virtualEvents, preorder]
  | node k cs =>
    rw [virtualEvents]
    split
    · rename_i hk
      -- an event: nothing below it is one, so it stands in no interface below itself
      have hbelow := hflat _ List.mem_cons_self hk
      rw [Option.mem_toList, Option.filter_eq_some_iff]
      constructor
      · rintro ⟨he, hv⟩
        refine ⟨_, List.mem_cons_self, he, hv, ?_⟩
        rintro ⟨m, hm, -, hnm⟩
        exact Bool.false_ne_true ((hbelow _ (preorderAll_children_subset _ hm hnm)).symm.trans hk)
      · rintro ⟨n, hn, he, hv, -⟩
        rcases List.mem_cons.1 hn with rfl | hn
        · exact ⟨he, hv⟩
        · exact absurd ((hbelow n hn).symm.trans (isEvent_of_ofTree? he)) Bool.false_ne_true
    rename_i hk
    have hdeeper : ∀ n ∈ (node k cs).preorder, Event.ofTree? n = some e → n ∈ preorderAll cs := by
      intro n hn he
      rcases List.mem_cons.1 hn with rfl | hn
      · exact absurd (isEvent_of_ofTree? he) hk
      · exact hn
    split
    · rename_i hi
      refine iff_of_false List.not_mem_nil ?_
      rintro ⟨n, hn, he, -, hout⟩
      exact hout ⟨_, List.mem_cons_self, decide_eq_true (congrArg some hi), hdeeper n hn he⟩
    · rename_i hi
      rw [mem_virtualEventsAll_iff cs (fun c hc => hflat.child hc) hnodup]
      constructor
      · rintro ⟨c, hc, n, hn, he, hv, hout⟩
        refine ⟨n, List.mem_cons_of_mem _ (mem_preorderAll hc hn), he, hv, ?_⟩
        rwa [inInterface_node hi hnodup hc hn (leaves_ne_nil_of_ofTree? he)]
      · rintro ⟨n, hn, he, hv, hout⟩
        obtain ⟨c, hc, hn⟩ := exists_of_mem_preorderAll (hdeeper n hn he)
        refine ⟨c, hc, n, hn, he, hv, ?_⟩
        rwa [inInterface_node hi hnodup hc hn (leaves_ne_nil_of_ofTree? he)] at hout

theorem mem_virtualEventsAll_iff (cs : List Tree) {e : Event} (hflat : ∀ c ∈ cs, c.FlatEvents)
    (hnodup : (leavesAll cs).Nodup) :
    e ∈ virtualEventsAll cs ↔ ∃ c ∈ cs, ∃ n ∈ c.preorder,
      Event.ofTree? n = some e ∧ e.isVirtual = true ∧ ¬ c.InInterface n := by
  cases cs with
  | nil => simp [virtualEventsAll]
  | cons c cs =>
    rw [leavesAll] at hnodup
    obtain ⟨hc, hcs, -⟩ := List.nodup_append.1 hnodup
    rw [virtualEventsAll, List.mem_append, List.exists_mem_cons_iff,
      mem_virtualEvents_iff c (hflat c List.mem_cons_self) hc,
      mem_virtualEventsAll_iff cs (fun d hd => hflat d (List.mem_cons_of_mem c hd)) hcs]

end

/-! ## 2. What stands in front of the keyword -/

mutual

theorem mem_eventNodes_of_mem_preorder (t : Tree) {n : Tree} (hflat : t.FlatEvents)
    (hn : n ∈ t.preorder) (he : n.nodeKind?.any NodeKind.isEvent = true) : n ∈ t.eventNodes := by
  cases t with
  | leaf t => cases hn
  | node k cs =>
    rw [eventNodes]
    rcases List.mem_cons.1 hn with rfl | hn
    · rw [if_pos (show k.isEvent = true from he)]
      exact List.mem_singleton_self _
    · rw [if_neg]
      · exact mem_eventNodesAll_of_mem_preorderAll cs (fun c hc => hflat.child hc) hn he
      · intro hk
        exact Bool.false_ne_true ((hflat _ List.mem_cons_self hk n hn).symm.trans he)

theorem mem_eventNodesAll_of_mem_preorderAll (cs : List Tree) {n : Tree}
    (hflat : ∀ c ∈ cs, c.FlatEvents) (hn : n ∈ preorderAll cs)
    (he : n.nodeKind?.any NodeKind.isEvent = true) : n ∈ eventNodesAll cs := by
  cases cs with
  | nil => cases hn
  | cons c cs =>
    rw [eventNodesAll]
    rcases List.mem_append.1 hn with hn | hn
    · exact List.mem_append_left _
        (mem_eventNodes_of_mem_preorder c (hflat c List.mem_cons_self) hn he)
    · exact List.mem_append_right _ (mem_eventNodesAll_of_mem_preorderAll cs
        (fun d hd => hflat d (List.mem_cons_of_mem c hd)) hn he)

end

/-- An event member has attribute lists, then its modifiers, then its keyword. -/
theorem exists_event_parts {ts : List Token} {n : Tree} (hn : n ∈ (ofTokens ts).preorder)
    (he : n.nodeKind?.any NodeKind.isEvent = true) :
    ∃ k attrs mods keyword cs, n = node k (attrs ++ (modifierList mods ++ leaf keyword :: cs)) ∧
      (∀ c ∈ attrs, c.isOf .attributeList = true) ∧ (∀ m ∈ mods, isModifierToken m = true) ∧
      keyword.kind = .keyword .eventKw ∧ ∀ c ∈ cs, c.isOf .modifierList = false := by
  have hmem := mem_eventNodes_of_mem_preorder _ (flatEvents_ofTokens ts) hn he
  obtain ⟨before, behind, hsplit⟩ := List.append_of_mem hmem
  obtain ⟨met, hidden, more, htagged, -, -⟩ := exists_tagged hsplit
  rw [← taggedFrom_file] at htagged
  obtain ⟨l, ls, r, after, -, -, -, hopen⟩ := exists_run htagged
  obtain ⟨lead, keyword, us, hl, hk, hevent⟩ := opening?_event hopen he
  obtain ⟨k, cs, after', hcs, hchildren⟩ := event_children keyword us
  rw [hchildren] at hevent
  obtain ⟨rfl, rfl⟩ := Prod.mk.inj hevent
  obtain ⟨mods, rest, -, hlead, hmods⟩ := exists_leading r
  rw [hl] at hlead
  obtain ⟨rfl, -⟩ := Prod.mk.inj hlead
  exact ⟨k, (attributes r).1, mods, keyword, cs, by rw [List.append_assoc],
    fun c hc => isOf_of_mem_attributes hc, hmods, hk, hcs⟩

theorem modifiersOf_eq (k : NodeKind) {attrs cs : List Tree} (mods : List Token) (keyword : Token)
    (hattrs : ∀ c ∈ attrs, c.isOf .attributeList = true)
    (hcs : ∀ c ∈ cs, c.isOf .modifierList = false) :
    Event.modifiersOf (node k (attrs ++ (modifierList mods ++ leaf keyword :: cs))) = mods := by
  have hattr : attrs.find? (isOf .modifierList) = none := by
    refine List.find?_eq_none.2 fun c hc hof => ?_
    have hkind := (of_decide_eq_true (hattrs c hc)).symm.trans (of_decide_eq_true hof)
    cases hkind
  have htail : (leaf keyword :: cs).find? (isOf .modifierList) = none := by
    refine List.find?_eq_none.2 fun c hc hof => ?_
    rcases List.mem_cons.1 hc with rfl | hc
    · cases hof
    · exact Bool.false_ne_true ((hcs c hc).symm.trans hof)
  rw [Event.modifiersOf, childNode?, children, List.find?_append, hattr, Option.none_or,
    List.find?_append, htail, Option.or_none, modifierList]
  by_cases hnil : mods = []
  · rw [if_pos hnil, hnil]
    rfl
  · rw [if_neg hnil]
    exact childTokens_map_leaf .modifierList mods

/-- The tokens of an event member after its attribute lists and in front of its keyword. -/
def beforeKeyword (n : Tree) : List Token :=
  (leavesAll (n.children.dropWhile (isOf .attributeList))).takeWhile (·.kind ≠ .keyword .eventKw)

/-- The tokens in front of the keyword are the modifiers. -/
theorem modifiersOf_eq_beforeKeyword {ts : List Token} {n : Tree}
    (hn : n ∈ (ofTokens ts).preorder) (he : n.nodeKind?.any NodeKind.isEvent = true) :
    Event.modifiersOf n = n.beforeKeyword := by
  obtain ⟨k, attrs, mods, keyword, cs, rfl, hattrs, hmods, hk, hcs⟩ := exists_event_parts hn he
  -- no modifier is the keyword, and no attribute list comes behind the modifiers
  have hword : ∀ m ∈ mods, decide (m.kind ≠ .keyword .eventKw) = true := by
    intro m hm
    refine decide_eq_true fun hmk => ?_
    have hmod := hmods m hm
    rw [isModifierToken, Token.isWord, hmk] at hmod
    cases hmod
  have hleaves : leavesAll (modifierList mods ++ leaf keyword :: cs) =
      mods ++ keyword :: leavesAll cs := by
    rw [leavesAll_append, modifierList]
    split
    · rename_i hnil
      rw [hnil]
      rfl
    · rw [leavesAll, leavesAll, leaves, leavesAll_map_leaf, List.append_nil]
      rfl
  have hdrop : (modifierList mods ++ leaf keyword :: cs).dropWhile (isOf .attributeList) =
      modifierList mods ++ leaf keyword :: cs := by
    rw [modifierList]
    split <;> exact List.dropWhile_cons_of_neg Bool.false_ne_true
  rw [modifiersOf_eq k mods keyword hattrs hcs, beforeKeyword, children,
    List.dropWhile_append_of_pos hattrs, hdrop, hleaves, List.takeWhile_append_of_pos hword,
    List.takeWhile_cons_of_neg (by simp [hk]), List.append_nil]

theorem virtualEvents_sublist_events (t : Tree) :
    t.virtualEvents.Sublist (t.eventNodes.filterMap Event.ofTree?) := by
  have h := (virtualEvents_sublist t).filterMap Event.ofTree?
  have hsome : t.virtualEvents.filterMap (Event.ofTree? ∘ Event.node) = t.virtualEvents :=
    (List.filterMap_congr fun e he => (ofTree?_of_mem_virtualEvents t he).1).trans
      List.filterMap_some
  rwa [List.filterMap_map, hsome] at h

end Tree

/-! ## 3. All diagnostics -/

namespace Suppression

theorem ofLine?_eq_none {line : Text} (h : ¬ "//".toList <:+: line) : ofLine? line = none := by
  fun_induction ofLine? line with
  | case1 cs => exact absurd (List.prefix_append "//".toList cs).isInfix h
  | case2 c cs _ ih => exact ih fun hcs => h (hcs.trans (List.suffix_cons c cs).isInfix)
  | case3 => rfl

/-- A text without comments suppresses nothing. -/
theorem ofText_eq_nil {cs : Text} (h : ¬ "//".toList <:+: cs) : ofText cs = [] := by
  refine List.filterMap_eq_nil_iff.2 fun (line, i) hline => ?_
  have hpart := Text.part_of_mem_linesFrom (List.fst_mem_of_mem_zipIdx hline)
  have hnone : ofLine? line = none := ofLine?_eq_none fun hc => h (hc.trans hpart)
  simp only [hnone, Option.map_none]

end Suppression

namespace Document

open EventLint.Tree Token

/-- The diagnostic for an event is neither suppressed on its line nor ignored by the settings. -/
def keeps (d : Document) (settings : Settings) (file : String) (e : Event) : Bool :=
  let f := e.diagnostic settings.messages file d.lineIndex
  !(Suppression.ofText d.text).suppresses f.line f.rule.id.toList && !settings.ignores f.rule.id

/-- The names of the events stand one after the other. -/
theorem events_pairwise (text : Text) :
    ((ofText text).root.eventNodes.filterMap Event.ofTree?).Pairwise
      fun a b => a.nameToken.stop ≤ b.nameToken.start := by
  have hmembers := (List.pairwise_flatMap.1 (List.Pairwise.sublist
    (leaves_eventNodes_sublist (ofText text).root) (inOrder_ofText text).before)).2
  refine List.pairwise_filterMap.2 (hmembers.imp fun {n m} h a ha b hb => ?_)
  exact h _ (Event.views_of_ofTree? ha).name _ (Event.views_of_ofTree? hb).name

theorem virtualEvents_pairwise (text : Text) :
    (ofText text).root.virtualEvents.Pairwise fun a b => a.nameToken.stop ≤ b.nameToken.start :=
  (events_pairwise text).sublist (virtualEvents_sublist_events _)

/-- The events are found in the order of their names, so sorting changes nothing. -/
theorem diagnostics_eq_map_filter (text : Text) (settings : Settings) (file : String) :
    (ofText text).diagnostics settings file =
      ((ofText text).root.virtualEvents.filter ((ofText text).keeps settings file)).map
        fun e => e.diagnostic settings.messages file (ofText text).lineIndex := by
  rw [diagnostics, findings, List.filter_map]
  refine List.mergeSort_of_pairwise (List.pairwise_map.2 ?_)
  refine List.Pairwise.sublist List.filter_sublist ((virtualEvents_pairwise text).imp ?_)
  intro a b hab
  refine decide_eq_true (show a.nameToken.start ≤ b.nameToken.start from ?_)
  rw [Token.stop] at hab
  omega

/-- Without comments and settings all virtual events are reported. -/
theorem diagnostics_of_no_comment {text : Text} (h : ¬ "//".toList <:+: text) (file : String) :
    (ofText text).diagnostics {} file = (ofText text).root.virtualEvents.map fun e =>
      e.diagnostic {} file (ofText text).lineIndex := by
  have hkeeps : ∀ e ∈ (ofText text).root.virtualEvents, (ofText text).keeps {} file e = true := by
    intro e _
    rw [keeps, text_ofText, Suppression.ofText_eq_nil h]
    rfl
  rw [diagnostics_eq_map_filter, List.filter_eq_self.2 hkeeps]

/-- The rule for a node of an event. -/
def ruleFor (n : Tree) : Rule :=
  if n.isOf .eventFieldDeclaration then .fieldEvent else .propertyEvent

/-- The node `n` declares the event `e`, which is to be reported. -/
structure Flagged (d : Document) (settings : Settings) (n : Tree) (e : Event) : Prop where
  member : n ∈ d.root.preorder
  kind : n.isOf .eventFieldDeclaration = true ∨ n.isOf .eventDeclaration = true
  event : Event.ofTree? n = some e
  exposed : ¬ d.root.InInterface n
  isVirtual : ∃ t ∈ n.beforeKeyword, t.kind = .keyword .virtualKw
  unsuppressed : (Suppression.ofText d.text).suppresses (d.lineIndex.line e.nameToken.start)
    (ruleFor n).id.toList = false
  unignored : settings.ignores (ruleFor n).id = false

/-- The diagnostic `f` is about the event `e` of the node `n`. -/
structure Describes (d : Document) (n : Tree) (e : Event) (f : Diagnostic) : Prop where
  rule : f.rule = .fieldEvent ↔ n.isOf .eventFieldDeclaration = true
  name : f.eventName = e.name
  span : f.span = e.nameToken.span
  slice : d.slice? f.span = some f.eventName
  place : Text.offset? f.line f.column d.text = some f.span.start

theorem ruleFor_eq {n : Tree} {e : Event} (h : Event.ofTree? n = some e) :
    ruleFor n = .ofShape e.shape := by
  rw [ruleFor, isOf, (Event.views_of_ofTree? h).kind]
  cases e.shape <;> rfl

theorem isVirtual_iff {text : Text} {n : Tree} {e : Event} (hn : n ∈ (ofText text).root.preorder)
    (h : Event.ofTree? n = some e) :
    e.isVirtual = true ↔ ∃ t ∈ n.beforeKeyword, t.kind = .keyword .virtualKw := by
  rw [Event.isVirtual, Event.modifier?, (Event.views_of_ofTree? h).modifiers,
    modifiersOf_eq_beforeKeyword hn (isEvent_of_ofTree? h), List.find?_isSome]
  simp only [decide_eq_true_eq]

/-- A node is to be reported if the search finds its event and nothing drops it. -/
theorem flagged_iff (text : Text) (settings : Settings) (file : String) (n : Tree) (e : Event) :
    (ofText text).Flagged settings n e ↔
      e ∈ (ofText text).root.virtualEvents.filter ((ofText text).keeps settings file) ∧
        e.node = n := by
  have hnodup : (ofText text).root.leaves.Nodup := (inOrder_ofText text).nodup
  -- the rule of a node is the rule of its event, so both sides drop the same ones
  have hkeeps : ∀ {n : Tree}, Event.ofTree? n = some e →
      ((ofText text).keeps settings file e = true ↔
        (Suppression.ofText text).suppresses ((ofText text).lineIndex.line e.nameToken.start)
          (ruleFor n).id.toList = false ∧ settings.ignores (ruleFor n).id = false) := by
    intro n he
    rw [ruleFor_eq he, keeps, Bool.and_eq_true, Bool.not_eq_true', Bool.not_eq_true']
    rfl
  rw [List.mem_filter, mem_virtualEvents_iff (ofText text).root (flatEvents_ofTokens _) hnodup]
  constructor
  · intro h
    exact ⟨⟨⟨n, h.member, h.event, (isVirtual_iff h.member h.event).2 h.isVirtual, h.exposed⟩,
      (hkeeps h.event).2 ⟨h.unsuppressed, h.unignored⟩⟩, (Event.views_of_ofTree? h.event).node⟩
  · rintro ⟨⟨⟨m, hm, he, hv, hout⟩, hkeep⟩, hnode⟩
    obtain rfl : m = n := (Event.views_of_ofTree? he).node.symm.trans hnode
    obtain ⟨hs, hi⟩ := (hkeeps he).1 hkeep
    -- an event is of one of the two kinds of node
    refine ⟨hm, ?_, he, hout, (isVirtual_iff hm he).1 hv, hs, hi⟩
    have hkind := (Event.views_of_ofTree? he).kind
    rw [isOf, isOf, hkind]
    cases e.shape
    · exact Or.inl rfl
    · exact Or.inr rfl

theorem slice?_token {text : Text} {t : Token} (ht : t ∈ scan text) :
    (ofText text).slice? t.span = some t.text := by
  obtain ⟨before, after, hsplit⟩ := List.append_of_mem ht
  obtain ⟨rest, hsource, -⟩ := scan_source text
  have hplace := scan_inPlace text
  rw [hsplit] at hplace hsource
  have hslice := (hplace.slices rest).1
  rwa [hsource] at hslice

/-- The diagnostic for an event says what it should of the event and of its place. -/
theorem describes_diagnostic {text : Text} {n : Tree} {e : Event} (messages : Messages)
    (file : String) (hn : n ∈ (ofText text).root.preorder) (h : Event.ofTree? n = some e) :
    (ofText text).Describes n e (e.diagnostic messages file (ofText text).lineIndex) := by
  have hview := Event.views_of_ofTree? h
  have hname : e.nameToken ∈ scan text := mem_scan_of_mem_leaves hn hview.name
  refine ⟨?_, rfl, rfl, slice?_token hname, LineIndex.offset?_line_column _ text⟩
  rw [Event.diagnostic, ← ruleFor_eq h, ruleFor]
  split
  · rename_i hfield
    exact iff_of_true rfl hfield
  · rename_i hfield
    exact iff_of_false (by simp) hfield

/-- The diagnostics of a document are in the order of their spans, and there is exactly one for each
node that is to be reported. -/
theorem ofText_diagnostics (text : Text) (settings : Settings) (file : String) :
    let d := ofText text
    let found := d.diagnostics settings file
    (found.Pairwise fun f g => f.span.start < g.span.start ∧ f.span.stop ≤ g.span.start) ∧
    ∃ ns : List Tree, ns.Nodup ∧ (∀ n, n ∈ ns ↔ ∃ e, d.Flagged settings n e) ∧
      List.Forall₂ (fun n f => ∃ e, d.Flagged settings n e ∧ d.Describes n e f) ns found := by
  intro d found
  have hfound : found = _ := diagnostics_eq_map_filter text settings file
  generalize hes : (ofText text).root.virtualEvents.filter
    ((ofText text).keeps settings file) = es at hfound
  have hflagged : ∀ e ∈ es, d.Flagged settings e.node e := fun e he =>
    (flagged_iff text settings file _ e).2 ⟨by rw [hes]; exact he, rfl⟩
  have hordered : es.Pairwise fun a b => a.nameToken.stop ≤ b.nameToken.start := by
    rw [← hes]
    exact List.Pairwise.sublist List.filter_sublist (virtualEvents_pairwise text)
  have hpos : ∀ e ∈ es, e.nameToken.start < e.nameToken.stop := fun e he =>
    (inOrder_of_mem (hflagged e he).member).pos _
      (Event.views_of_ofTree? (hflagged e he).event).name
  rw [hfound]
  refine ⟨List.pairwise_map.2 ?_, es.map Event.node, List.pairwise_map.2 ?_, fun n => ?_, ?_⟩
  · refine (List.Pairwise.and_mem.1 hordered).imp fun {a b} hab => ⟨?_, hab.2.2⟩
    exact Nat.lt_of_lt_of_le (hpos a hab.1) hab.2.2
  · -- the name of an event is a token of its node, and no two names are at one place
    refine (List.Pairwise.and_mem.1 hordered).imp fun {a b} hab heq => ?_
    have hevent := (hflagged a hab.1).event
    rw [heq, (hflagged b hab.2.1).event] at hevent
    obtain rfl := Option.some.inj hevent
    exact Nat.not_lt.2 hab.2.2 (hpos _ hab.1)
  · rw [List.mem_map]
    constructor
    · rintro ⟨e, he, rfl⟩
      exact ⟨e, hflagged e he⟩
    · rintro ⟨e, he⟩
      obtain ⟨hmem, rfl⟩ := (flagged_iff text settings file n e).1 he
      exact ⟨e, by rw [← hes]; exact hmem, rfl⟩
  · refine List.forall₂_map_left_iff.2 (List.forall₂_map_right_iff.2 ?_)
    refine List.forall₂_same.2 fun e he => ⟨e, hflagged e he, ?_⟩
    exact describes_diagnostic _ file (hflagged e he).member (hflagged e he).event

end Document

end EventLint
