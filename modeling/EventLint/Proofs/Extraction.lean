import EventLint.Proofs.Layout
import EventLint.Proofs.RaiseMember
import EventLint.Proofs.RemoveModifier
import Mathlib.Data.List.Nodup

/-!
# Extracting raise methods

Every fix inserts a method behind an event, reads the text again and removes `virtual`, from the
last event of a program to the first. Main statement: the text that is left has the tree of the
program in which the events were replaced.
-/

namespace EventLint

namespace Grammar

open EventLint.Tree Token

/-! ## 1. Where items end -/

/-- The marks that an item may end with. -/
def endKinds : List TokenKind :=
  [.lbrace, .rbrace, .semicolon]

theorem exists_end_of_item (x : Item) : ∃ ys k, x.lexemes = ys ++ [mark k] ∧ k ∈ endKinds := by
  cases x with
  | typeHead mods isStruct name =>
    exact ⟨mods.lexemes ++ [keyword (if isStruct then .structKw else .classKw), name.lexeme],
      .lbrace, by simp [Item.lexemes, typeHead], by decide⟩
  | scopeHead name => exact ⟨[_, name.lexeme], .lbrace, rfl, by decide⟩
  | close => exact ⟨[], .rbrace, rfl, by decide⟩
  | event e =>
    obtain ⟨ys, k, hys, hk⟩ : ∃ ys k, e.tail.lexemes = ys ++ [mark k] ∧ k ∈ endKinds := by
      cases e.tail with
      | names more => exact ⟨_, .semicolon, rfl, by decide⟩
      | accessors add remove =>
        exact ⟨mark .lbrace :: word "add" :: (add.lexemes ++ word "remove" :: remove.lexemes),
          .rbrace, by simp [EventTail.lexemes], by decide⟩
    exact ⟨e.modifiers.lexemes ++ keyword .eventKw :: (e.type.lexemes ++ e.name.lexeme :: ys), k,
      by simp [Item.lexemes, EventMember.lexemes, hys], hk⟩
  | plain m =>
    obtain ⟨ys, k, hys, hk⟩ : ∃ ys k, m.tail.lexemes = ys ++ [mark k] ∧ k ∈ endKinds := by
      cases m.tail with
      | field => exact ⟨[], .semicolon, rfl, by decide⟩
      | property body => exact ⟨mark .lbrace :: body.lexemes, .rbrace, rfl, by decide⟩
      | method parameters body =>
        exact ⟨mark .lparen :: (parameters.lexemes ++ mark .rparen :: mark .lbrace :: body.lexemes),
          .rbrace, by simp [PlainTail.lexemes, braced], by decide⟩
    exact ⟨m.modifiers.lexemes ++ (m.type.lexemes ++ m.name.lexeme :: ys), k,
      by simp [Item.lexemes, PlainMember.lexemes, hys], hk⟩

/-- The last token of some items is a mark. -/
theorem last_of_items {xs : List Item} {ts : List Token} (h : ts.map bare = xs.flatMap Item.lexemes)
    {t : Token} (ht : t ∈ ts.getLast?) : ∃ k ∈ endKinds, t.bare = mark k := by
  rcases List.eq_nil_or_concat' xs with rfl | ⟨xs, x, rfl⟩
  · rw [List.map_eq_nil_iff.1 h] at ht
    cases ht
  · obtain ⟨ys, k, hx, hk⟩ := exists_end_of_item x
    refine ⟨k, hk, ?_⟩
    have hlast := congrArg List.getLast? h
    rw [List.getLast?_map, show ts.getLast? = some t from ht, List.flatMap_append,
      List.flatMap_singleton, hx, ← List.append_assoc, List.getLast?_concat] at hlast
    exact Option.some.inj hlast

theorem isClean_of_items {xs : List Item} {ts : List Token}
    (h : ts.map bare = xs.flatMap Item.lexemes) : ∀ t ∈ ts.getLast?, t.kind.isClean = true := by
  intro t ht
  obtain ⟨k, hk, htk⟩ := last_of_items h ht
  have hall : ∀ k ∈ endKinds, k.isClean = true := by decide
  rw [show t.kind = k from congrArg Prod.fst htk]
  exact hall k hk

/-- A line is not fresh after an item. -/
theorem freshAfter_items {xs : List Item} {ts : List Token}
    (h : ts.map bare = xs.flatMap Item.lexemes) (hne : ts ≠ []) :
    Trivia.freshAfter true (source ts) = false := by
  obtain ⟨us, t, rfl⟩ := (List.eq_nil_or_concat' ts).resolve_left hne
  obtain ⟨k, hk, htk⟩ := last_of_items h (by simp : t ∈ (us ++ [t]).getLast?)
  obtain ⟨c, hc, hblank⟩ : ∃ c, t.text = [c] ∧ Text.isBlank c = false := by
    rw [show t.text = sign k from congrArg Prod.snd htk]
    simp only [endKinds, List.mem_cons, List.not_mem_nil, or_false] at hk
    rcases hk with rfl | rfl | rfl <;> exact ⟨_, rfl, by decide⟩
  rw [source_append, source_cons, source_nil, hc, List.append_nil, ← List.append_assoc]
  exact Trivia.freshAfter_eq_false true _ [] c hblank List.not_mem_nil

/-! ## 2. An event in its place -/

/-- An event is read where its tokens stand between those of other items. -/
theorem event_read_at {before : List Item} {e : EventMember} {ss : List Scope} {text : Text}
    {a us back : List Token} {after : List Item}
    (hscan : scan text = a ++ us ++ back) (ha : a.map bare = before.flatMap Item.lexemes)
    (hss : scopesAfter [.file] before = some ss) (hus : us.map bare = e.lexemes)
    (hback : back.map bare = after.flatMap Item.lexemes) (hopen : ss ≠ []) :
    ∃ n event, n ∈ (Document.ofText text).root.preorder ∧ n.leaves = us ∧ e.Recovered n event := by
  -- items in front and behind decide what is open and where the event ends
  have hends : endsMember back = true := by
    have := endsMember_items after hback (show endsMember [] = true from rfl)
    rwa [List.append_nil] at this
  obtain ⟨nodes, hnodes, -⟩ := items_read (us ++ back) hss ha
    (endsMember_item (.event e) hus back)
  have hstay : (Item.event e).scopesAfter ss = some ss := if_neg hopen
  obtain ⟨nodes', hnodes', -, hread⟩ := item_read (x := .event e) hstay hus hends
  obtain ⟨n, rest, ⟨hleaves, event, hrec⟩, -, rfl⟩ := List.forall₂_cons_left_iff.1 hread
  have hmem : n ∈ (Document.ofText text).root.eventNodes := by
    rw [show (Document.ofText text).root.eventNodes = eventsFrom [.file] (scan text) from
      (eventsFrom_file _).symm, hscan, List.append_assoc, hnodes, hnodes']
    simp
  exact ⟨n, event, (mem_preorder_of_mem_eventNodes _ hmem).1, hleaves, hrec⟩

/-- The rule that looks at events of this form. -/
def EventTail.rule : EventTail → Rule
  | names _ => .fieldEvent
  | accessors _ _ => .propertyEvent

/-- Sealing takes the first `virtual` from the tokens of the modifiers. -/
theorem EventMember.sealed_lexemes {e : EventMember} {m m' : List Token} {v : Token}
    (h : (m ++ v :: m').map bare = e.modifiers.lexemes) (hv : v.kind = .keyword .virtualKw)
    (hfirst : ∀ t ∈ m, (!decide (t.kind = .keyword .virtualKw)) = true) :
    e.sealed.modifiers.lexemes = m.map bare ++ m'.map bare := by
  rw [List.map_append, List.map_cons, Modifiers.lexemes, eq_comm, List.map_eq_append_iff] at h
  obtain ⟨w, u, hwords, hw, hu⟩ := h
  obtain ⟨k, w', rfl, hk, hw'⟩ := List.map_eq_cons_iff.1 hu
  rw [TokenKind.keyword.inj ((congrArg Prod.fst hk).trans hv)] at hwords
  -- `erase` takes the first `virtual`, and none stands in `w`
  have hnot : Keyword.virtualKw ∉ w := by
    intro hmem
    have hmem : keyword .virtualKw ∈ m.map bare := hw ▸ List.mem_map_of_mem hmem
    obtain ⟨t, ht, heq⟩ := List.mem_map.1 hmem
    have hne := hfirst t ht
    rw [show t.kind = .keyword .virtualKw from congrArg Prod.fst heq] at hne
    cases hne
  change (e.modifiers.words.erase .virtualKw).map keyword = _
  rw [hwords, List.erase_append_right _ hnot, List.erase_cons_head, List.map_append, hw, hw']

namespace EventMember.Recovered

variable {e : EventMember} {n n' : Tree} {event event' : Event}

theorem leaves_ne_nil (h : e.Recovered n event) : n.leaves ≠ [] := by
  intro hnil
  have hleaves := h.leaves
  rw [hnil, EventMember.lexemes] at hleaves
  simp at hleaves

theorem rule_eq (h : e.Recovered n event) : Rule.ofShape event.shape = e.tail.rule := by
  have hshape := h.shape
  cases hs : event.shape <;> cases ht : e.tail <;> rw [hs, ht] at hshape <;>
    first | rfl | cases hshape

/-- The tokens of an event decide which of them is its name. -/
theorem nameToken_eq (h : e.Recovered n event) (h' : e.Recovered n' event')
    (hl : n.leaves = n'.leaves) : event.nameToken = event'.nameToken := by
  obtain ⟨front, back, hn, hfront⟩ := h.name
  obtain ⟨front', back', hn', hfront'⟩ := h'.name
  have hlen : front.length = front'.length := by
    rw [← List.length_map (f := bare), hfront, ← hfront', List.length_map]
  rw [hn, hn'] at hl
  exact (List.cons.inj (List.append_inj hl hlen).2).1

theorem isVirtual_eq (h : e.Recovered n event) : event.isVirtual = e.isVirtual := by
  rw [Bool.eq_iff_iff, Event.isVirtual, Event.modifier?, List.find?_isSome, EventMember.isVirtual,
    List.contains_iff_mem]
  constructor
  · rintro ⟨t, ht, hk⟩
    have hmem : t.bare ∈ e.modifiers.lexemes := h.modifiers ▸ List.mem_map_of_mem ht
    obtain ⟨k, hkw, heq⟩ := List.mem_map.1 hmem
    have hkind := (congrArg Prod.fst heq).trans (of_decide_eq_true hk)
    rwa [← TokenKind.keyword.inj hkind]
  · intro hk
    have hmem : keyword .virtualKw ∈ event.modifiers.map bare :=
      h.modifiers ▸ List.mem_map_of_mem hk
    obtain ⟨t, ht, heq⟩ := List.mem_map.1 hmem
    exact ⟨t, ht, decide_eq_true (congrArg Prod.fst heq)⟩

/-- Removing `virtual` from an event leaves the tokens of the event without it. -/
theorem exists_removal {text : Text} {a back : List Token} (h : e.Recovered n event)
    (hscan : scan text = a ++ n.leaves ++ back) (hv : e.isVirtual = true)
    (hclean : ∀ t ∈ a.getLast?, t.kind.isClean = true) :
    ∃ v text' us, event.modifier? (.keyword .virtualKw) = some v ∧
      Edit.applyAll [Modifier.removal text v] text = .ok text' ∧ scan text' = a ++ us ∧
      us.map bare = e.sealed.lexemes ++ back.map bare ∧
      ((∀ t ∈ n.leaves ++ back, t.Spaced) → ∀ t ∈ us, t.Spaced) ∧
      (source (scan text) = text → source (scan text') = text') := by
  have hvirtual := h.isVirtual_eq.trans hv
  obtain ⟨v, hfind⟩ := Option.isSome_iff_exists.1 hvirtual
  obtain ⟨hvk, m, m', hmods, hfirst⟩ := List.find?_eq_some_iff_append.1 hfind
  have hvk : v.kind = .keyword .virtualKw := of_decide_eq_true hvk
  -- what follows the modifiers starts with the keyword of the event
  obtain ⟨x, hx⟩ := h.first
  have hxs : x.map bare =
      keyword .eventKw :: (e.type.lexemes ++ e.name.lexeme :: e.tail.lexemes) := by
    have hleaves := h.leaves
    rw [← hx, List.map_append, h.modifiers, EventMember.lexemes] at hleaves
    exact List.append_cancel_left hleaves
  obtain ⟨k, x, rfl, hk, -⟩ := exists_keyword hxs
  have htokens : n.leaves ++ back = m ++ v :: (m' ++ k :: (x ++ back)) := by
    rw [← hx, hmods]
    simp
  have hkeyword : ∀ t ∈ m ++ v :: m', t.kind.isKeyword = true := by
    intro t ht
    have hmem : t.bare ∈ e.modifiers.lexemes :=
      h.modifiers ▸ List.mem_map_of_mem (hmods ▸ ht)
    obtain ⟨k, -, heq⟩ := List.mem_map.1 hmem
    rw [show t.kind = .keyword k from (congrArg Prod.fst heq).symm]
    rfl
  -- a word stands behind `v`: another modifier or the keyword
  obtain ⟨next, post, hpost, hnext⟩ : ∃ next post, m' ++ k :: (x ++ back) = next :: post ∧
      next.kind.isKeyword = true := by
    cases m' with
    | nil => exact ⟨k, x ++ back, rfl, by rw [hk]; rfl⟩
    | cons t m' => exact ⟨t, m' ++ k :: (x ++ back), rfl, hkeyword t (by simp)⟩
  have hscan' : scan text = a ++ m ++ v :: next :: post := by
    rw [hscan, List.append_assoc, htokens, hpost, List.append_assoc]
  have hlast : ∀ t ∈ (a ++ m).getLast?, t.kind.isClean = true := by
    intro t ht
    rw [List.getLast?_append] at ht
    cases hm : m.getLast? with
    | none =>
      rw [hm, Option.none_or] at ht
      exact hclean t ht
    | some u =>
      rw [hm, Option.some_or] at ht
      have hmem := List.mem_append_left (v :: m') (List.mem_of_getLast? (hm.trans ht))
      exact isClean_of_word (Or.inr (hkeyword t hmem))
  obtain ⟨text', next', post', happly, hscan'', hbare, -, hspaced, hsource⟩ :=
    Modifier.removal_spec hscan'
      (isPlainWord_of_keyword (by rw [← scan, hscan']; simp) (hkeyword v (by simp)))
      (isPlainWord_of_keyword (by rw [← scan, hscan']; simp) hnext) hlast
  refine ⟨v, text', m ++ next' :: post', hfind, happly, by rw [hscan'', List.append_assoc], ?_,
    fun hs t ht => ?_, hsource⟩
  · have hsealed := EventMember.sealed_lexemes (hmods ▸ h.modifiers) hvk hfirst
    rw [List.map_append, hbare, ← hpost, List.map_append, ← List.append_assoc, ← hsealed,
      EventMember.lexemes, ← List.cons_append, List.map_append, hxs, ← List.append_assoc]
    rfl
  · rw [htokens, hpost] at hs
    rcases List.mem_append.1 ht with ht | ht
    · exact hs t (List.mem_append_left _ ht)
    · exact hspaced (fun u hu => hs u (List.mem_append_right m hu)) t ht

end EventMember.Recovered

/-! ## 3. The method behind an event -/

/-- The names and marks of a type that was scanned are tokens in front of blanks. -/
theorem stands_type {text : Text} {type : TypeName}
    (h : ∀ x ∈ type.lexemes, ∃ t ∈ scan text, t.bare = x) :
    ∀ x ∈ type.lexemes, ∀ w, Stands x.1 x.2 (' ' :: w) := by
  have htype := typelike_typeName type
  intro x hx w
  by_cases hi : x.1 = .ident
  · obtain ⟨t, ht, rfl⟩ := h x hx
    rw [hi]
    refine stands_ident ht hi fun d hd => ?_
    rw [← Option.some.inj hd]
    decide
  · rw [(htype.spelled x hx).resolve_left hi]
    exact stands_mark_blank ((List.mem_cons.1 (htype.kinds x hx)).resolve_left hi) (by decide) w

theorem EventMember.of_raise? {e : EventMember} {argument : TypeName} {field : Text}
    (h : e.raise? = some (argument, field)) :
    e.type.argument? = some argument ∧ e.backing = .ok field := by
  rw [EventMember.raise?] at h
  split at h
  · split at h
    · rename_i harg hback
      cases h
      exact ⟨harg, hback⟩
    · cases h
  · cases h

/-- The method for an event that was scanned is a chain of tokens. -/
theorem EventMember.chain_raise {e : EventMember} {text indent newline : Text}
    {argument : TypeName} {field : Text} (h : ∀ x ∈ e.lexemes, ∃ t ∈ scan text, t.bare = x)
    (hraise : e.raise? = some (argument, field)) (hname : e.name.text.head? ≠ some '@')
    (hindent : ∀ c ∈ indent, Text.isBlank c = true)
    (hnewline : ∀ c ∈ newline, Text.isBlank c = true) (z : Text) :
    Chain (raisePieces (RaiseMethod.nameFor e.name.text) field argument indent newline) z := by
  obtain ⟨harg, hback⟩ := EventMember.of_raise? hraise
  have htype : ∀ x ∈ argument.lexemes, ∃ t ∈ scan text, t.bare = x := by
    intro x hx
    refine h x (List.mem_append_right _ (List.mem_cons_of_mem _ (List.mem_append_left _ ?_)))
    exact subset_of_argument? harg (List.mem_cons_of_mem _ hx)
  have hword : ∀ d ∈ e.name.text, Text.isWordPart d = true := by
    obtain ⟨t, ht, htb⟩ := h e.name.lexeme (by simp [EventMember.lexemes])
    have htext : t.text = e.name.text := congrArg Prod.snd htb
    rw [← htext] at hname ⊢
    exact isWordPart_of_name ht (congrArg Prod.fst htb) hname
  have hfield : ∀ z : Text, (∀ d ∈ z.head?, Text.isWordPart d = false) →
      Stands .ident field z := by
    obtain ⟨t, ht, htb⟩ := h _ (mem_lexemes_of_backing hback)
    rw [← show t.text = field from congrArg Prod.snd htb]
    exact fun z hz => stands_ident ht (congrArg Prod.fst htb) hz
  exact chain_raisePieces (isName_nameFor hword) (wordKind_nameFor _) hfield (stands_type htype)
    hindent hnewline z

/-- The method is added behind the tokens of its event, and the other tokens only move. -/
theorem EventMember.Recovered.exists_addition {e : EventMember} {n : Tree} {event : Event}
    {text : Text} {a back : List Token} {before : List Item} {argument : TypeName} {field : Text}
    (h : e.Recovered n event) (hscan : scan text = a ++ n.leaves ++ back)
    (hwhole : source (scan text) = text) (hspaced : ∀ t ∈ back, t.Spaced)
    (ha : a.map bare = before.flatMap Item.lexemes) (hraise : e.raise? = some (argument, field))
    (hname : e.name.text.head? ≠ some '@') (start : Nat) :
    ∃ text' ms back', Edit.applyAll [(Document.ofText text).addition n start
        ⟨RaiseMethod.nameFor e.name.text, field, print argument.lexemes⟩] text = .ok text' ∧
      scan text' = a ++ n.leaves ++ (ms ++ back') ∧
      ms.map bare = (e.raiser argument field).lexemes ∧ back'.map bare = back.map bare ∧
      (∀ t ∈ ms ++ back', t.Spaced) ∧ source (scan text') = text' := by
  -- whole items stand in front of the method, so no comment or directive can swallow it
  have hitems : (a ++ n.leaves).map bare = (before ++ [Item.event e]).flatMap Item.lexemes := by
    rw [List.map_append, ha, h.leaves, List.flatMap_append, List.flatMap_singleton]
    rfl
  have hfound : ∀ x ∈ e.lexemes, ∃ t ∈ scan text, t.bare = x := by
    intro x hx
    rw [← h.leaves] at hx
    obtain ⟨t, ht, rfl⟩ := List.mem_map.1 hx
    exact ⟨t, by rw [hscan]; simp [ht], rfl⟩
  have htext : text = source (a ++ n.leaves) ++ source back := by
    rw [← source_append, ← hscan, hwhole]
  generalize hindent : (Document.ofText text).indentAt start = indent
  generalize hnewline : (Document.ofText text).newline = newline
  have hblank : ∀ c ∈ newline, Text.isBlank c = true := fun c hc =>
    Text.isBlank_of_mem_newline (hnewline ▸ hc)
  have hmargin : ∀ c ∈ indent, Text.isBlank c = true := fun c hc =>
    Text.isBlank_of_mem_indentAt (hindent ▸ hc)
  have hchain := EventMember.chain_raise hfound hraise hname hmargin hblank (source back)
  have hspread := spread_raisePieces (RaiseMethod.nameFor e.name.text) field argument indent newline
    (source back)
  -- the first piece has blanks in front of it: the event's last token ends there
  have hfirst : ∃ b z, spread (raisePieces (RaiseMethod.nameFor e.name.text) field argument indent
      newline) (source back) = b :: z ∧ Text.isBlank b = true := by
    obtain ⟨b, z, hb⟩ : ∃ b z, newline = b :: z := by
      rw [← hnewline, Document.newline]
      rcases Text.newline_cases (Document.ofText text).text with h | h <;> exact ⟨_, _, h⟩
    rw [hspread]
    exact ⟨b, _, by rw [hb]; rfl, hblank b (by rw [hb]; exact List.mem_cons_self)⟩
  obtain ⟨ms, back', hscan', hms, hsource, hmsp, hmoved⟩ :=
    scan_insert (by rw [← htext, hscan]) (freshAfter_items hitems (by simp [h.leaves_ne_nil]))
      (isClean_of_items hitems) hchain hfirst (List.cons_ne_nil _ _)
  refine ⟨_, ms, back', ?_, hscan', ?_, hmoved.bare, ?_, ?_⟩
  · have happly := Edit.applyAll_singleton (source (a ++ n.leaves)) [] (source back)
      (newline ++ newline ++ RaiseMethod.render
        ⟨RaiseMethod.nameFor e.name.text, field, print argument.lexemes⟩ indent newline)
    rw [List.append_nil, ← htext, List.append_assoc (source (a ++ n.leaves)), ← hspread] at happly
    rw [Document.addition, Document.insertionPoint_eq hscan hwhole h.leaves_ne_nil hspaced,
      hindent, hnewline]
    exact happly
  · rw [hms, raisePieces_lexemes]
  · exact fun t ht => (List.mem_append.1 ht).elim (hmsp t) (hmoved.spaced hspaced t)
  · rw [hscan', source_append, source_append ms, hmoved.source, hsource]

end Grammar

/-! ## 4. One fix -/

namespace FixOutcome

open EventLint.Tree

variable {text text' text'' : Text} {n n' : Tree} {event event' : Event} {f : Diagnostic}

theorem tryFix_extract_error {error : FixError} (messages : Messages)
    (hn : n ∈ (Document.ofText text).root.preorder) (he : Event.ofTree? n = some event)
    (hf : IsFor f event) (hv : event.isVirtual = true) (hm : event.raiseMethod = .error error) :
    tryFix (Document.ofText text) messages .extractRaiseMethod f = .error error := by
  rw [tryFix, Document.plan, Document.planAt, hf.1, hf.2]
  simp only [Token.span, Document.virtualEventAt_name hn he hv, bind, Except.bind, hm]

/-- A method is added behind the declaration, which is then found again and loses `virtual`. -/
theorem tryFix_extract {method : RaiseMethod} {v : Token} (messages : Messages)
    (hn : n ∈ (Document.ofText text).root.preorder) (he : Event.ofTree? n = some event)
    (hf : IsFor f event) (hv : event.isVirtual = true) (hm : event.raiseMethod = .ok method)
    (hadd : Edit.applyAll [(Document.ofText text).addition n
      ((Document.ofText text).spanOf n).start method] text = .ok text')
    (hn' : n' ∈ (Document.ofText text').root.preorder) (he' : Event.ofTree? n' = some event')
    (hstart : ((Document.ofText text').spanOf n').start = ((Document.ofText text).spanOf n).start)
    (hrule : Rule.ofShape event'.shape = Rule.ofShape event.shape)
    (hv' : event'.modifier? (.keyword .virtualKw) = some v)
    (hremove : Edit.applyAll [Modifier.removal text' v] text' = .ok text'') :
    ∃ action, tryFix (Document.ofText text) messages .extractRaiseMethod f =
      .ok (action, Document.ofText text'') := by
  -- the second search, in the text with the method, starts where the first event started
  have hplan := Document.virtualEventAt_name hn he hv
  have hlocate := Document.locate_start hn' he'
  rw [hstart, hrule] at hlocate
  have hadded : (Document.ofText text).withEdits [(Document.ofText text).addition n
      ((Document.ofText text).spanOf n).start method] = .ok (Document.ofText text') := by
    rw [Document.withEdits, Document.text_ofText, hadd]
    rfl
  rw [(Event.views_of_ofTree? he').modifier?] at hv'
  have hedit := Document.removeModifier_eq hv' hremove
  refine ⟨⟨messages.extractRaiseMethodTitle, ⟨((Document.ofText text).spanOf n).start,
    (Rule.ofShape event.shape).nodeKind⟩, some method⟩, ?_⟩
  rw [tryFix, Document.plan, Document.planAt, hf.1, hf.2]
  simp only [Token.span, hplan, bind, Except.bind, pure, Except.pure, hm, FixAction.apply,
    FixAction.removeVirtual, Document.locate_start hn he, hadded, Except.mapError, hlocate, hedit]

end FixOutcome

/-! ## 5. All fixes -/

namespace Grammar

open EventLint.Tree Token FixOutcome

/-- How far extraction has come: the tokens `front` are as they were, and the items `after` follow
them. -/
structure Extracted (front : List Token) (after : List Item) (text : Text) : Prop where
  tokens : ∃ back, scan text = front ++ back ∧ back.map bare = after.flatMap Item.lexemes ∧
    ∀ t ∈ back, t.Spaced
  whole : source (scan text) = text

namespace Extracted

variable {a us : List Token} {after : List Item} {text : Text}

/-- An item that stays as it was. -/
theorem keep {x : Item} (h : Extracted (a ++ us) after text) (hus : us.map bare = x.lexemes)
    (hspaced : ∀ t ∈ us, t.Spaced) : Extracted a (x :: after) text := by
  obtain ⟨back, hscan, hback, hs⟩ := h.tokens
  refine ⟨⟨us ++ back, by rw [hscan, List.append_assoc], ?_, fun t ht => ?_⟩, h.whole⟩
  · rw [List.map_append, hus, hback, List.flatMap_cons]
  · exact (List.mem_append.1 ht).elim (hspaced t) (hs t)

/-- A virtual event is fixed where it stands, or cannot be. -/
theorem step {before : List Item} {ss : List Scope} {e : EventMember} {n₀ : Tree} {event₀ : Event}
    {p : Progress} {f : Diagnostic} (messages : Messages)
    (h : Extracted (a ++ n₀.leaves) after text)
    (hp : p.document = Document.ofText text) (ha : a.map bare = before.flatMap Item.lexemes)
    (hss : scopesAfter [.file] before = some ss) (hopen : ss ≠ []) (h₀ : e.Recovered n₀ event₀)
    (hlead : ∀ t ∈ n₀.leaves.tail, t.leading = [' ']) (hspaced : ∀ t ∈ n₀.leaves, t.Spaced)
    (hname : e.name.text.head? ≠ some '@') (hv : e.isVirtual = true) (hf : IsFor f event₀) :
    ∃ text', (p.step messages .extractRaiseMethod f).document = Document.ofText text' ∧
      Extracted a ((Item.event e).extract ++ after) text' := by
  obtain ⟨back, hscan, hback, hbacks⟩ := h.tokens
  obtain ⟨n, event, hn, hleaves, hrec⟩ := event_read_at hscan ha hss h₀.leaves hback hopen
  rw [← hleaves] at hscan hlead hspaced
  have hmem : ∀ t ∈ n.leaves, t ∈ scan text := fun t ht => by
    rw [hscan]
    simp [ht]
  -- the fix and the grammar agree on whether and how the event can be raised
  have hmethod := hrec.raiseMethod_eq (hrec.view_eq hmem hlead)
  have hvirtual := hrec.isVirtual_eq.trans hv
  have hf' : IsFor f event :=
    ⟨hf.1.trans (h₀.rule_eq.trans hrec.rule_eq.symm),
      hf.2.trans (by rw [h₀.nameToken_eq hrec hleaves.symm])⟩
  rw [Progress.step, hp]
  cases hm : event.raiseMethod with
  | error error =>
    rw [hm] at hmethod
    have hraise := Option.map_eq_none_iff.1 hmethod.symm
    rw [tryFix_extract_error messages hn hrec.ofTree hf' hvirtual hm]
    refine ⟨text, rfl, ?_⟩
    rw [Item.extract, EventMember.extract, hv, hraise]
    exact h.keep h₀.leaves (hleaves ▸ hspaced)
  | ok method =>
    rw [hm] at hmethod
    obtain ⟨⟨argument, field⟩, hraise, rfl⟩ := Option.map_eq_some_iff.1 hmethod.symm
    -- the text with the method, in which the event is read once more
    obtain ⟨text₁, ms, back', hadd, hscan₁, hms, hback', hspaced₁, hwhole₁⟩ :=
      hrec.exists_addition hscan h.whole hbacks ha hraise hname
        ((Document.ofText text).spanOf n).start
    have hitems : (ms ++ back').map bare =
        (Item.plain (e.raiser argument field) :: after).flatMap Item.lexemes := by
      rw [List.map_append, hms, hback', hback, List.flatMap_cons]
      rfl
    obtain ⟨n₁, event₁, hn₁, hleaves₁, hrec₁⟩ :=
      event_read_at hscan₁ ha hss hrec.leaves hitems hopen
    have hstart : ((Document.ofText text₁).spanOf n₁).start =
        ((Document.ofText text).spanOf n).start := by
      obtain ⟨first, last, -, -, hfirst, hlast, hspan⟩ :=
        exists_span (Document.ofText text).eof hrec.leaves_ne_nil
      rw [← hleaves₁] at hfirst hlast
      rw [Document.spanOf, Document.spanOf, hspan, span_of_leaves _ hfirst hlast]
    -- and the text without the word
    rw [← hleaves₁] at hscan₁
    obtain ⟨v, text₂, us, hv₁, hremove, hscan₂, hus, hspaced₂, hwhole₂⟩ :=
      hrec₁.exists_removal hscan₁ hv (isClean_of_items ha)
    obtain ⟨action, hfix⟩ := tryFix_extract messages hn hrec.ofTree hf' hvirtual hm hadd hn₁
      hrec₁.ofTree hstart (hrec₁.rule_eq.trans hrec.rule_eq.symm) hv₁ hremove
    rw [hfix]
    refine ⟨text₂, rfl, ⟨us, hscan₂, ?_, hspaced₂ fun t ht => ?_⟩, hwhole₂ hwhole₁⟩
    · rw [hus, hitems, Item.extract, EventMember.extract, hv, hraise]
      rfl
    · rcases List.mem_append.1 ht with ht | ht
      · exact hspaced t (hleaves₁ ▸ ht)
      · exact hspaced₁ t ht

end Extracted

theorem Item.extract_of_event? {x : Item} (h : x.event? = none) : x.extract = [x] := by
  cases x <;> first | rfl | cases h

/-- The virtual events among the last items of a printed text are fixed, from the last to the
first. -/
theorem foldr_extract {text : Text} {before behind : List Item} {ss : List Scope}
    {a b : List Token} {report : Event → Diagnostic} (messages : Messages)
    (hreport : ∀ e, IsFor (report e) e) (hwhole : source (scan text) = text)
    (hlead : ∀ t ∈ (scan text).tail, t.leading = [' ']) (hspaced : ∀ t ∈ scan text, t.Spaced)
    (hscan : scan text = a ++ b) (ha : a.map bare = before.flatMap Item.lexemes)
    (hb : b.map bare = behind.flatMap Item.lexemes) (hss : scopesAfter [.file] before = some ss)
    (hend : scopesAfter ss behind = some [.file])
    (hnames : ∀ e ∈ behind.filterMap Item.event?, e.name.text.head? ≠ some '@') :
    ∃ text', ((virtualFrom ss b).foldr
        (fun e p => Progress.step messages .extractRaiseMethod p (report e))
        { document := Document.ofText text }).document = Document.ofText text' ∧
      Extracted a (behind.flatMap Item.extract) text' := by
  -- the fold fixes what stands behind `x` first, and the tokens up to `x` are still those of `text`
  induction behind generalizing before a b ss with
  | nil =>
    rw [List.map_eq_nil_iff.1 hb] at hscan ⊢
    rw [Option.some.inj hend, virtualFrom_of_ends [] rfl]
    exact ⟨text, rfl, ⟨[], hscan, rfl, List.forall_mem_nil _⟩, hwhole⟩
  | cons x behind ih =>
    rw [List.flatMap_cons] at hb
    obtain ⟨us, vs, rfl, hu, hv⟩ := exists_of_spells_append hb
    rw [scopesAfter, List.foldlM_cons] at hend
    obtain ⟨mid, hmid, hend⟩ := Option.bind_eq_some_iff.1 hend
    have hends : endsMember vs = true := by
      have := endsMember_items behind hv (show endsMember [] = true from rfl)
      rwa [List.append_nil] at this
    obtain ⟨nodes, -, hvirtual, hread⟩ := item_read hmid hu hends
    have hbefore : (a ++ us).map bare = (before ++ [x]).flatMap Item.lexemes := by
      rw [List.map_append, ha, hu, List.flatMap_append, List.flatMap_singleton]
    have hss' : scopesAfter [.file] (before ++ [x]) = some mid := by
      rw [scopesAfter_append _ hss, scopesAfter_cons _ hmid]
      rfl
    obtain ⟨text₁, hfold, hext⟩ := ih (by rw [hscan, List.append_assoc]) hbefore hv hss' hend
      fun e he => hnames e (by
        rw [List.filterMap_cons]
        split
        · exact he
        · exact List.mem_cons_of_mem _ he)
    have hus : ∀ t ∈ us, t.Spaced := fun t ht => hspaced t (by rw [hscan]; simp [ht])
    rw [hvirtual, List.foldr_append, List.flatMap_cons]
    generalize (virtualFrom mid vs).foldr _ _ = p at hfold ⊢
    cases hx : x.event? with
    | none =>
      rw [hx] at hread
      cases hread
      rw [Item.extract_of_event? hx]
      exact ⟨text₁, hfold, hext.keep hu hus⟩
    | some e =>
      obtain rfl : x = .event e := by
        cases x <;> first | exact congrArg Item.event (Option.some.inj hx) | cases hx
      obtain ⟨n, rest, ⟨rfl, event, hrec⟩, hnil, rfl⟩ := List.forall₂_cons_left_iff.1 hread
      cases hnil
      rw [List.filterMap_cons_some hrec.ofTree, List.filterMap_nil]
      -- only virtual events are reported
      cases hve : e.isVirtual with
      | false =>
        rw [List.filter_cons_of_neg (by rw [hrec.isVirtual_eq, hve]; exact Bool.false_ne_true),
          Item.extract, EventMember.extract, hve]
        exact ⟨text₁, hfold, hext.keep hu hus⟩
      | true =>
        rw [List.filter_cons_of_pos (hrec.isVirtual_eq.trans hve)]
        have hopen : ss ≠ [] := by
          rintro rfl
          cases hmid
        have hpart : n.leaves <:+: scan text := ⟨a, vs, by rw [hscan, List.append_assoc]⟩
        exact hext.step messages hfold ha hss hopen hrec
          (fun t ht => hlead t (mem_tail_of_part hpart ht)) hus (hnames e (by simp [Item.event?]))
          hve (hreport event)

theorem source_placed (offset : Nat) (gap : Text) (xs : List Lexeme) :
    source (placed offset gap xs) = spelled gap xs := by
  induction xs generalizing offset gap with
  | nil => rfl
  | cons x xs ih => rw [placed, source_cons, spelled, ih, List.append_assoc]

theorem spaced_placed {offset : Nat} {gap : Text} {xs : List Lexeme} {t : Token}
    (hgap : ∀ c ∈ gap, Text.isBlank c = true) (h : t ∈ placed offset gap xs) : t.Spaced := by
  cases xs with
  | nil => cases h
  | cons x xs =>
    rcases List.mem_cons.1 h with rfl | h
    · exact hgap
    · rw [Spaced, leading_placed h]
      exact fun c hc => Text.isBlank_of_mem_space hc

/-- Extraction of a printed program gives a text that is read as the program in which every virtual
event that can be raised lost `virtual` and got a member that raises it. -/
theorem fixText_extractRaiseMethod (p : Program) (file : String)
    (h : LexesBack (Program.lexemes p))
    (hcomment : ¬ "//".toList <:+: print (Program.lexemes p))
    (hnames : ∀ e ∈ Program.events p, e.name.text.head? ≠ some '@') :
    LexesBack (Program.lexemes (Program.extract p)) ∧
      (Document.ofText
        (fixText {} file .extractRaiseMethod (print (Program.lexemes p))).text).root.plain =
        (Document.ofText (print (Program.lexemes (Program.extract p)))).root.plain := by
  have hwhole : source (scan (print (Program.lexemes p))) = print (Program.lexemes p) := by
    rw [h, source_placed, print_eq_spelled]
  have hbare : (scan (print (Program.lexemes p))).map bare =
      (Program.items p).flatMap Item.lexemes := by
    rw [h, placed_bare, Program.lexemes_items]
  have hlead : ∀ t ∈ (scan (print (Program.lexemes p))).tail, t.leading = [' '] := by
    rw [h]
    exact fun t ht => leading_placed_tail ht
  have hspaced : ∀ t ∈ scan (print (Program.lexemes p)), t.Spaced := by
    rw [h]
    exact fun t ht => spaced_placed (List.forall_mem_nil _) ht
  obtain ⟨text, hfold, hext⟩ := foldr_extract {}
    (fun e => ⟨rfl, rfl⟩ : ∀ e : Event, IsFor (e.diagnostic {} file
      (Document.ofText (print (Program.lexemes p))).lineIndex) e)
    hwhole hlead hspaced (List.nil_append _).symm (List.map_nil) hbare
    (show scopesAfter [.file] [] = some [.file] from rfl)
    (Program.scopesAfter_items p (List.cons_ne_nil Scope.file [])) (by rwa [Program.events_items])
  have htext : (fixText {} file .extractRaiseMethod (print (Program.lexemes p))).text = text := by
    rw [fixText, Document.diagnostics_of_no_comment hcomment, List.foldl_reverse, List.foldr_map]
    rw [virtualFrom_file] at hfold
    exact (congrArg Document.text hfold).trans (Document.text_ofText text)
  obtain ⟨back, hscan, hback, hbacks⟩ := hext.tokens
  rw [List.nil_append] at hscan
  have hitems : (scan text).map bare = Program.lexemes (Program.extract p) := by
    rw [hscan, hback, ← Program.items_extract, Program.lexemes_items]
  have hlexes : LexesBack (Program.lexemes (Program.extract p)) := by
    rw [← hitems]
    exact lexesBack_of_spaced (hscan ▸ hbacks)
  refine ⟨hlexes, ?_⟩
  rw [htext]
  refine Document.plain_root ?_
  rw [hitems, hlexes, placed_bare]

/-- A class and a struct in it, with two events that can be raised and one that cannot. -/
def threeVirtual : Program :=
  let named (s : String) (h : (contextualWords.any fun w => w.toList = s.toList) = false) : Ident :=
    ⟨s.toList, h⟩
  let handler : TypeName :=
    .mk (.mk (named "Handler" (.refl false))
      [.mk (.mk (named "Args" (.refl false)) []) [] []]) [] []
  let body (op : AssignOp) : Body :=
    .block [.assign ⟨false, named "f" (.refl false), op, named "value" (.refl false)⟩]
  [.member (.type ⟨[], .refl true, List.nodup_nil⟩ false (named "C" (.refl false))
    [.event ⟨⟨[.publicKw, .virtualKw], .refl true, by decide⟩, handler,
        named "OnChanged" (.refl false), .accessors (body .add) (body .sub)⟩,
      .type ⟨[], .refl true, List.nodup_nil⟩ true (named "S" (.refl false))
        [.event ⟨⟨[.virtualKw], .refl true, List.nodup_singleton _⟩, handler,
          named "Opened" (.refl false), .names []⟩],
      .event ⟨⟨[.virtualKw], .refl true, List.nodup_singleton _⟩, handler,
        named "Closed" (.refl false), .names [named "Failed" (.refl false)]⟩])]

theorem fixText_extractRaiseMethod_threeVirtual :
    LexesBack (Program.lexemes threeVirtual) ∧
      ¬ "//".toList <:+: print (Program.lexemes threeVirtual) ∧
      (∀ e ∈ Program.events threeVirtual, e.name.text.head? ≠ some '@') ∧
      (Program.events (Program.extract threeVirtual)).map EventMember.isVirtual =
        [false, false, true] ∧
      LexesBack (Program.lexemes (Program.extract threeVirtual)) ∧
      (Document.ofText (fixText {} "c.cs" .extractRaiseMethod
        (print (Program.lexemes threeVirtual))).text).root.plain =
        (Document.ofText (print (Program.lexemes (Program.extract threeVirtual)))).root.plain := by
  have h : LexesBack (Program.lexemes threeVirtual) := by
    unfold LexesBack
    decide +kernel
  have hcomment : ¬ "//".toList <:+: print (Program.lexemes threeVirtual) := by decide +kernel
  have hnames : ∀ e ∈ Program.events threeVirtual, e.name.text.head? ≠ some '@' := by
    decide +kernel
  exact ⟨h, hcomment, hnames, by decide +kernel,
    fixText_extractRaiseMethod threeVirtual "c.cs" h hcomment hnames⟩

end Grammar

end EventLint
