import EventLint.Proofs.MethodNodes
import EventLint.Proofs.OneBatch

/-!
# The extracted method

Main statement: after an extraction the event is followed by a method, under the same parent, whose
text is what was rendered and whose name is one identifier, unless the name of the event starts with
`@` or the type of its argument is one of the words that open a declaration.
-/

namespace EventLint

open Text

/-! ## 1. The tokens without a modifier -/

namespace Tree

open Token

theorem joined_map_shift (k : Nat) (ts : List Token) : joined (ts.map (shift k)) = joined ts := by
  cases ts with
  | nil => rfl
  | cons t ts => exact congrArg (t.text ++ ·) (source_map_shift k ts)

theorem bare_map_shift (k : Nat) (ts : List Token) : (ts.map (shift k)).map bare = ts.map bare := by
  rw [List.map_map]
  rfl

/-- Without a modifier, the tokens behind the keyword of the event only move. -/
theorem ModifierPlace.exists_scan_removal {text result : Text} {before behind : List Tree}
    {n : Tree} {k : TokenKind} {v : Token} (p : ModifierPlace (scan text) before n behind k v)
    (h : Edit.applyAll [Modifier.removal text v] text = .ok result) :
    ∃ later w rest j, scan result =
        p.front ++ (leavesAll (attributes p.member).1 ++ p.prior) ++ (later ++ w :: rest) ∧
      later.map bare = p.later.map bare ∧ w.bare = p.keyword.bare ∧
      p.rest = rest.map (shift j) := by
  obtain ⟨next, post, hpost, hscan, hword, hnext⟩ := exists_words p
  have hclean := p.isClean_front
  generalize p.front ++ (leavesAll (attributes p.member).1 ++ p.prior) = pre at hscan hclean ⊢
  obtain ⟨x, b, b', l, r, hd, hold, -, happly⟩ := Modifier.exists_deletion hscan hword hnext hclean
  obtain rfl := Except.ok.inj (h.symm.trans happly)
  obtain ⟨post', hnew, hmoved⟩ := hd.scan_new (by rw [← hold]; exact hscan) hclean
  -- the next token keeps its text, the others all but their place
  cases hlater : p.later with
  | nil =>
    rw [hlater, List.nil_append] at hpost
    obtain ⟨hkey, hrest⟩ := List.cons.inj hpost
    exact ⟨[], _, post', _, hnew, rfl, by rw [hkey]; rfl, hrest.trans hmoved⟩
  | cons m ms =>
    rw [hlater, List.cons_append] at hpost
    obtain ⟨hm, hrest⟩ := List.cons.inj hpost
    obtain ⟨ms', us, rfl, hms, hus⟩ := List.map_eq_append_iff.1 (hrest.trans hmoved).symm
    obtain ⟨w, us, rfl, hw, hus⟩ := List.map_eq_cons_iff.1 hus
    refine ⟨_ :: ms', w, us, _, hnew, ?_, ?_, hus.symm⟩
    · rw [List.map_cons, List.map_cons, ← hms, bare_map_shift, hm]
      rfl
    · rw [← hw]
      rfl

/-! ## 2. What follows an event -/

/-- What follows an event under its parent is read from the tokens behind it. -/
theorem exists_siblings {text : Text} {a rest after : List Token} {w : Token} {kind : NodeKind}
    {lead parts before behind : List Tree} (hscan : scan text = a ++ w :: rest)
    (hevents : (ofTokens (scan text)).eventNodes =
      before ++ node kind (lead ++ leaf w :: parts) :: behind)
    (hlead : IsLead lead) (hevent : event [] w rest = (node kind (leaf w :: parts), after)) :
    ∃ s, ∃ parent ∈ (ofTokens (scan text)).preorder, ∃ left right,
      parent.children =
        left ++ (node kind (lead ++ leaf w :: parts) :: (declarations s after).1 ++ right) := by
  obtain ⟨p⟩ := exists_eventPlace hevents
  -- the keyword is the first token of the event that stands outside its parts
  have hkey : p.keyword = w := by
    have htokens := congrArg childTokens p.node_eq
    rw [hlead.childTokens, p.isLead.childTokens] at htokens
    exact (List.cons.inj htokens).1.symm
  have hrest : p.rest = rest := by
    have htokens := p.tokens_eq
    rw [hkey] at htokens
    exact (scan_cons_inj htokens hscan).2
  have hafter : p.after = after := by
    have hread := p.children []
    rw [hkey, hrest] at hread
    exact (Prod.mk.inj (hread.symm.trans hevent)).2
  obtain ⟨parent, hparent, left, right, hchildren⟩ := p.siblings
  exact ⟨p.level.scope, parent, hparent, left, right, by rw [hchildren, hafter]⟩

/-- An event in front of added tokens, after one of its modifiers is removed: it is the same event,
and what follows it under its parent is read from these tokens. -/
theorem exists_event_in_front {text extended result : Text}
    {before behind before' behind' : List Tree} {n n' : Tree} {k : TokenKind} {v : Token}
    {e : Event} {ms us : List Token}
    (p : EventPlace (scan text) before n behind)
    (p' : ModifierPlace (scan extended) before' n' behind' k v)
    (he : Event.ofTree? n = some e) (hc : n.isComplete = true)
    (hscan : scan extended = p.front ++ n.leaves ++ (ms ++ us))
    (hstart :
      ((Document.ofText extended).spanOf n').start = ((Document.ofText text).spanOf n).start)
    (hresult : Edit.applyAll [Modifier.removal extended v] extended = .ok result) :
    ∃ s event e' ms' us', ∃ parent ∈ (ofTokens (scan result)).preorder, ∃ left right,
      parent.children = left ++ (event :: (declarations s (ms' ++ us')).1 ++ right) ∧
      event.nodeKind? = n.nodeKind? ∧ Event.ofTree? event = some e' ∧ e'.name = e.name ∧
      e'.shape.map .plain = e.shape.map .plain ∧ ms'.map bare = ms.map bare ∧
      joined ms' = joined ms := by
  have htokens : scan extended = p.toKeyword ++ p.keyword :: (leavesAll p.parts ++ (ms ++ us)) := by
    rw [hscan, p.front_leaves, List.append_assoc, List.cons_append]
  obtain ⟨-, -, -, hkey, hrest⟩ := p.mods_eq_of_start p'.toEventPlace htokens hstart
  -- without the modifier, the tokens of the event and those behind it move
  obtain ⟨later, w, rest, j, hnew, hlater, hw, hshift⟩ := p'.exists_scan_removal hresult
  have hrestbare : rest.map bare = p'.rest.map bare := by rw [hshift, bare_map_shift]
  rw [hrest] at hshift
  obtain ⟨moved, tail, rfl, hmoved, htail⟩ := List.map_eq_append_iff.1 hshift.symm
  obtain ⟨ms', us', rfl, hms, -⟩ := List.map_eq_append_iff.1 htail
  -- the event is read again from its tokens
  obtain ⟨e₀, he₀, rfl⟩ := p.exists_bare he
  obtain ⟨parts, e₁, hread, hplain, he₁, houtline⟩ := exists_event_of_bare p.isKeyword
    (p.children []) (p.isComplete_bare.trans hc) he₀ (hw.trans (by rw [hkey]))
    (by rw [← hmoved, bare_map_shift] : moved.map bare = _) (ms' ++ us')
  obtain ⟨i, mods, -, -, hmods, hresume⟩ := p'.resume hlater hw hrestbare
  have hattrs : ∀ c ∈ (attributes p'.member).1, c.isOf .attributeList = true :=
    fun c hc => isOf_of_mem_attributes hc
  have htagged := hresume.taggedFrom_eq
  rw [taggedFrom_event p'.level p'.outer p'.attributes_ne_nil hmods
    ((congrArg Prod.fst hw).trans p'.isKeyword) hread p.isEvent, ← hnew, taggedFrom_file] at htagged
  have htext : scan result = p'.front ++ (leavesAll (attributes p'.member).1 ++ p'.prior) ++
      later ++ w :: (moved ++ (ms' ++ us')) := by
    rw [List.append_assoc _ later]
    exact hnew
  obtain ⟨s, parent, hparent, left, right, hchildren⟩ :=
    exists_siblings htext (eventNodes_of_tagged htagged) (isLead_of_attributes mods hattrs)
      (hread [])
  have hof : Event.ofTree? (node p.kind (_ ++ leaf w :: parts)) = _ :=
    ofTree?_front mods hattrs hplain
  rw [he₁, Option.map_some] at hof
  refine ⟨s, _, _, ms', us', parent, hparent, left, right, hchildren, ?_, hof,
    congrArg Event.Outline.name houtline, congrArg Event.Outline.shape houtline,
    (by rw [← hms, bare_map_shift]), by rw [← hms, joined_map_shift]⟩
  conv_rhs => rw [p.node_eq]
  rfl

end Tree

/-! ## 3. Both phases -/

namespace FixAction

open Tree Token

/-- In `d` the event is followed under its parent by the method of `a`: the text of the method is
the one that was rendered, and its name is one identifier. -/
def ShowsMethod (text : Text) (a : FixAction) (n : Tree) (e : Event) (d : Document) : Prop :=
  ∃ method event e' m name, a.method = some method ∧
    (∃ parent ∈ d.nodes, ∃ left right, parent.children = left ++ event :: m :: right) ∧
    event.nodeKind? = n.nodeKind? ∧ Event.ofTree? event = some e' ∧ e'.name = e.name ∧
    e'.shape.map .plain = e.shape.map .plain ∧ m.isOf .methodDeclaration = true ∧
    m.text = (method.render (indentAt a.target.start text) (newline text)).drop
      (indentAt a.target.start text).length ∧
    m.childTokens = [name] ∧ name.kind = .ident ∧ name.text = RaiseMethod.nameFor e.name

section

variable {text : Text} {messages : Messages} {rule : Rule} {offset : Nat} {a : FixAction}
  {d : Document} {n : Tree} {e : Event}

theorem showsMethod_of_apply
    (hevent : (Document.ofText text).virtualEventAt rule offset = .ok (n, e))
    (hcomplete : n.isComplete = true)
    (hplan : (Document.ofText text).planAt messages rule offset .extractRaiseMethod = .ok a)
    (happly : a.apply (.ofText text) = .ok d) (hname : e.name.head? ≠ some '@')
    (htype : ∀ method ∈ a.method, method.argumentType ∉ openingWords.map String.toList) :
    ShowsMethod text a n e d := by
  obtain ⟨n₀, e₀, hevent₀, htarget, hkind, hraise⟩ := Document.exists_of_planAt hplan
  obtain ⟨rfl, rfl⟩ := Prod.mk.inj (Except.ok.inj (hevent₀.symm.trans hevent))
  obtain ⟨method, hmethod⟩ := exists_method_of_kind hkind
  have hbuild := hraise method hmethod
  obtain ⟨n₁, extended, n', hlocate, hadd, hlocate', hremove⟩ := exists_of_apply hmethod happly
  obtain ⟨v, result, hv, rfl, hresult⟩ := Document.exists_of_removeModifier hremove
  obtain ⟨hn, hof, he, -⟩ := Document.of_virtualEventAt_eq_ok hevent
  -- the declaration is found where the fix was planned, and again behind its method
  obtain rfl : n₁ = n₀ := by
    have hfound := Document.locate_start hn he
    have hrule : (Rule.ofShape e₀.shape).nodeKind = rule.nodeKind :=
      Option.some.inj ((Event.views_of_ofTree? he).kind.symm.trans (of_decide_eq_true hof))
    rw [hrule, ← htarget] at hfound
    exact Except.ok.inj (hlocate.symm.trans hfound)
  obtain ⟨hn', hof', hstart⟩ := Target.of_locate_eq_ok hlocate'
  rw [htarget] at hof' hstart
  obtain ⟨x, z, htext, hpoint, -, rfl⟩ := exists_of_addition hn hadd
  obtain ⟨before, behind, -, ⟨p⟩⟩ := exists_place hn (isEvent_of_isOf hof)
  obtain ⟨before', behind', hevents, -⟩ := exists_place hn' (isEvent_of_isOf hof')
  obtain ⟨p'⟩ := exists_modifierPlace hevents hv
  obtain ⟨argument, hread, hargument, hspelled⟩ := p.exists_spelled hn he hbuild hname
  obtain ⟨-, ms, us, -, -, hscan, hms, hjoined, -⟩ := p.exists_scan_addition he hcomplete hspelled
    (fun c hc => isBlank_of_mem_indentAt hc) htext hpoint
  obtain ⟨s, event, e', ms', us', parent, hparent, left, right, hchildren, hsame, he', hname',
    hshape, hbare, hjoined'⟩ := exists_event_in_front p p' he hcomplete hscan hstart hresult
  obtain ⟨m, name, hopening, hm, hleaves, htokens, hnamed⟩ :=
    exists_method hread hargument (hbare.trans hms) (htype method hmethod) us'
  obtain ⟨hmname, -⟩ := Event.of_raiseMethod hbuild
  refine ⟨method, event, e', m, name, hmethod,
    ⟨parent, ?_, left, (declarations s us').1 ++ right, ?_⟩, hsame, he', hname', hshape, hm, ?_,
    htokens, congrArg Prod.fst hnamed, (congrArg Prod.snd hnamed).trans hmname⟩
  · rw [Document.nodes_ofText]
    exact hparent
  · rw [hchildren, declarations_of_whole (hopening s).1 (hopening s).2]
    rfl
  · rw [Tree.text, hleaves, hjoined', hjoined]

theorem exists_of_apply_ok (happly : a.apply (.ofText text) = .ok d) :
    ∃ result, d = .ofText result := by
  rcases ends_apply a text with ⟨result, h⟩ | h | h <;> rw [happly] at h
  · exact ⟨result, Except.ok.inj h⟩
  · cases h
  · cases h

/-- No identifier is the name of a method for an event whose name starts with `@`. -/
theorem head?_ne_of_nameFor {t : Token} {name : Text} (ht : t ∈ scan text) (hk : t.kind = .ident)
    (h : t.text = RaiseMethod.nameFor name) : name.head? ≠ some '@' := by
  intro hat
  obtain ⟨c, u, htext, hu, -⟩ := exists_ident ht hk
  cases name with
  | nil => cases hat
  | cons d r =>
    obtain rfl : d = '@' := Option.some.inj hat
    have hname : c :: u = 'R' :: ("aise".toList ++ '@' :: r) := by
      rw [← htext, h]
      rfl
    have hpart := hu '@' (by rw [(List.cons.inj hname).2]; simp)
    exact absurd hpart (by decide)

theorem of_showsMethod (hevent : (Document.ofText text).virtualEventAt rule offset = .ok (n, e))
    (hplan : (Document.ofText text).planAt messages rule offset .extractRaiseMethod = .ok a)
    {result : Text} (h : ShowsMethod text a n e (.ofText result)) :
    e.name.head? ≠ some '@' ∧
      ∀ method ∈ a.method, method.argumentType ∉ openingWords.map String.toList := by
  obtain ⟨method, _, _, m, name, hmethod, ⟨parent, hparent, left, right, hchildren⟩, _, _, _, _, hm,
    htext, htokens, hident, hname⟩ := h
  have hmem : m ∈ (Document.ofText result).root.preorder := by
    rw [Document.nodes_ofText] at hparent
    refine mem_preorder_of_mem_children hparent (by rw [hchildren]; simp) ?_
    cases m with
    | leaf t => cases hm
    | node k cs => rfl
  -- a name with `@` inside it would not have been scanned as one token
  have hplain : e.name.head? ≠ some '@' := by
    have hleaf : name ∈ m.leaves := mem_leaves_of_mem_childTokens (by rw [htokens]; simp)
    exact head?_ne_of_nameFor (Document.mem_scan_of_mem_leaves hmem hleaf) hident hname
  refine ⟨hplain, fun method' hmethod' hword => ?_⟩
  obtain rfl : method = method' := Option.some.inj (hmethod.symm.trans hmethod')
  obtain ⟨n₀, e₀, hevent₀, -, -, hraise⟩ := Document.exists_of_planAt hplan
  obtain ⟨rfl, rfl⟩ := Prod.mk.inj (Except.ok.inj (hevent₀.symm.trans hevent))
  obtain ⟨hn, hof, he, -⟩ := Document.of_virtualEventAt_eq_ok hevent
  obtain ⟨before, behind, -, ⟨p⟩⟩ := exists_place hn (isEvent_of_isOf hof)
  -- a type that starts with such a word is not read as one, so there is no method
  obtain ⟨_, _, _, hspelled⟩ := p.exists_spelled hn he (hraise method hmethod) hplain
  rw [not_isOf_of_openingWord hmem hspelled hword (fun c hc => isBlank_of_mem_indentAt hc)
    (fun c hc => isBlank_of_mem_newline hc) htext] at hm
  cases hm

/-- After the extraction of a complete event the method follows it, unless the name of the event or
the type of its argument stands in the way. -/
theorem apply_sibling (hevent : (Document.ofText text).virtualEventAt rule offset = .ok (n, e))
    (hcomplete : n.isComplete = true)
    (hplan : (Document.ofText text).planAt messages rule offset .extractRaiseMethod = .ok a)
    (happly : a.apply (.ofText text) = .ok d) :
    ShowsMethod text a n e d ↔ e.name.head? ≠ some '@' ∧
      ∀ method ∈ a.method, method.argumentType ∉ openingWords.map String.toList := by
  obtain ⟨result, rfl⟩ := exists_of_apply_ok happly
  exact ⟨of_showsMethod hevent hplan, fun ⟨hname, htype⟩ =>
    showsMethod_of_apply hevent hcomplete hplan happly hname htype⟩

end

theorem of_toOption {α : Type} {x : Except FixError α} {y : α} (h : x.toOption = some y) :
    x = .ok y := by
  cases x with
  | error e => cases h
  | ok z => exact congrArg _ (Option.some.inj h)

/-- A nullable type in a nested class, and a comment behind the event. -/
theorem apply_sibling_comment :
    let text := "class C \x7b class D \x7b\n\tvirtual event A<B<int>?> OnX; // c\n \x7d \x7d".toList
    ∃ n e a d, (Document.ofText text).virtualEventAt .fieldEvent 46 = .ok (n, e) ∧
      n.isComplete = true ∧
      (Document.ofText text).planAt {} .fieldEvent 46 .extractRaiseMethod = .ok a ∧
      a.apply (.ofText text) = .ok d ∧ ShowsMethod text a n e d := by
  intro text
  have hrun : ((Document.ofText text).virtualEventAt .fieldEvent 46 >>= fun r =>
      (Document.ofText text).planAt {} .fieldEvent 46 .extractRaiseMethod >>= fun a =>
      a.apply (.ofText text) >>= fun _ => pure (r.1.isComplete && r.2.name = "OnX".toList &&
        a.method.all fun method => method.argumentType = "B<int>?".toList)).toOption =
      some true := by
    decide +kernel
  obtain ⟨⟨n, e⟩, hevent, hrun⟩ := exists_of_bind (of_toOption hrun)
  obtain ⟨a, hplan, hrun⟩ := exists_of_bind hrun
  obtain ⟨d, happly, hrun⟩ := exists_of_bind hrun
  have hrun := Except.ok.inj hrun
  simp only [Bool.and_eq_true, decide_eq_true_eq] at hrun
  obtain ⟨⟨hcomplete, hname⟩, hmethod⟩ := hrun
  have htype : ∀ method ∈ a.method, method.argumentType ∉ openingWords.map String.toList := by
    intro method hm
    rw [hm, Option.all_some, decide_eq_true_eq] at hmethod
    rw [hmethod]
    decide
  exact ⟨n, e, a, d, hevent, hcomplete, hplan, happly,
    (apply_sibling hevent hcomplete hplan happly).2 ⟨by rw [hname]; decide, htype⟩⟩

/-- The method of the event at `offset` is extracted, and the result has no method. -/
def LosesMethod (text : Text) (offset : Nat) : Prop :=
  ∃ n e a d, (Document.ofText text).virtualEventAt .fieldEvent offset = .ok (n, e) ∧
    n.isComplete = true ∧
    (Document.ofText text).planAt {} .fieldEvent offset .extractRaiseMethod = .ok a ∧
    a.apply (.ofText text) = .ok d ∧ ∀ m ∈ d.nodes, m.isOf .methodDeclaration = false

theorem losesMethod_of_run {text : Text} {offset : Nat}
    (hrun : ((Document.ofText text).virtualEventAt .fieldEvent offset >>= fun r =>
      (Document.ofText text).planAt {} .fieldEvent offset .extractRaiseMethod >>= fun a =>
      a.apply (.ofText text) >>= fun d => pure (r.1.isComplete &&
        d.root.preorder.all fun m => m.isOf .methodDeclaration = false)).toOption = some true) :
    LosesMethod text offset := by
  obtain ⟨⟨n, e⟩, hevent, hrun⟩ := exists_of_bind (of_toOption hrun)
  obtain ⟨a, hplan, hrun⟩ := exists_of_bind hrun
  obtain ⟨d, happly, hrun⟩ := exists_of_bind hrun
  obtain ⟨hcomplete, hall⟩ := Bool.and_eq_true_iff.1 (Except.ok.inj hrun)
  obtain ⟨result, rfl⟩ := exists_of_apply_ok happly
  refine ⟨n, e, a, _, hevent, hcomplete, hplan, happly, fun m hm => ?_⟩
  rw [Document.nodes_ofText] at hm
  exact of_decide_eq_true (List.all_eq_true.1 hall m hm)

/-- A quoted name, a modifier in place of a type and a record. -/
theorem apply_notMethod :
    LosesMethod "class C \x7b virtual event A<B> @e; \x7d".toList 10 ∧
      LosesMethod "class C \x7b virtual event A<partial> e; \x7d".toList 10 ∧
      LosesMethod "class C \x7b virtual event A<record> e; \x7d".toList 10 := by
  refine ⟨losesMethod_of_run ?_, losesMethod_of_run ?_, losesMethod_of_run ?_⟩ <;> decide +kernel

end FixAction

end EventLint
