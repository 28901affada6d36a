import EventLint.Proofs.Descendants
import EventLint.Proofs.EventReading
import EventLint.Proofs.Reported

/-!
# Programs are read back

A program is a run of items: the fronts of namespaces and types, the braces that close them, and
members. Each item is read by itself, whatever the braces of its neighbours hold. Main statement:
the events of a printed program are the events that were written, in order.
-/

namespace EventLint

namespace Grammar

open EventLint.Tree Token

/-! ## 1. Items -/

/-- A piece of a program that is read in one step. -/
inductive Item where
  | typeHead (modifiers : Modifiers) (isStruct : Bool) (name : Ident)
  | scopeHead (name : Ident)
  | close
  | event (e : EventMember)
  | plain (m : PlainMember)

namespace Item

def lexemes : Item → List Lexeme
  | typeHead modifiers isStruct name => Grammar.typeHead modifiers isStruct name
  | scopeHead name => Grammar.scopeHead name
  | close => [mark .rbrace]
  | event e => e.lexemes
  | plain m => m.lexemes

def event? : Item → Option EventMember
  | event e => some e
  | _ => none

/-- The scopes that are open after an item, the innermost first. -/
def scopesAfter (ss : List Scope) : Item → Option (List Scope)
  | typeHead _ _ _ => if ss = [] then none else some (.typeBody :: ss)
  | scopeHead _ => if ss = [] then none else some (.namespaceBody :: ss)
  | close =>
    if ss.head? = some .typeBody ∨ ss.head? = some .namespaceBody then some ss.tail else none
  | event _ | plain _ => if ss = [] then none else some ss

end Item

mutual

def Member.items : Member → List Item
  | .type modifiers isStruct name members =>
    .typeHead modifiers isStruct name :: (Member.itemsAll members ++ [.close])
  | .event e => [.event e]
  | .plain m => [.plain m]

def Member.itemsAll : List Member → List Item
  | [] => []
  | m :: ms => m.items ++ Member.itemsAll ms

end

mutual

def Decl.items : Decl → List Item
  | .scope name decls => .scopeHead name :: (Program.items decls ++ [.close])
  | .member m => m.items

def Program.items : List Decl → List Item
  | [] => []
  | d :: ds => d.items ++ Program.items ds

end

mutual

/-- The events of a member, in order. -/
def Member.events : Member → List EventMember
  | .type _ _ _ members => Member.eventsAll members
  | .event e => [e]
  | .plain _ => []

def Member.eventsAll : List Member → List EventMember
  | [] => []
  | m :: ms => m.events ++ Member.eventsAll ms

end

mutual

def Decl.events : Decl → List EventMember
  | .scope _ decls => Program.events decls
  | .member m => m.events

/-- The events of a program, in order. -/
def Program.events : List Decl → List EventMember
  | [] => []
  | d :: ds => d.events ++ Program.events ds

end

/-! ## 2. The items of a program -/

/-- The scopes that are open after some items. -/
def scopesAfter (ss : List Scope) (xs : List Item) : Option (List Scope) :=
  xs.foldlM Item.scopesAfter ss

theorem scopesAfter_append {ss ss' : List Scope} {xs : List Item} (ys : List Item)
    (h : scopesAfter ss xs = some ss') : scopesAfter ss (xs ++ ys) = scopesAfter ss' ys := by
  rw [scopesAfter, List.foldlM_append]
  change scopesAfter ss xs >>= _ = _
  rw [h]
  rfl

theorem scopesAfter_cons {ss ss' : List Scope} {x : Item} (xs : List Item)
    (h : x.scopesAfter ss = some ss') : scopesAfter ss (x :: xs) = scopesAfter ss' xs := by
  rw [scopesAfter, List.foldlM_cons, h]
  rfl

mutual

theorem Member.lexemes_items (m : Member) : m.items.flatMap Item.lexemes = m.lexemes := by
  cases m with
  | type modifiers isStruct name members =>
    simp [Member.items, Member.lexemes, Item.lexemes, Member.lexemes_itemsAll members]
  | event e => simp [Member.items, Member.lexemes, Item.lexemes]
  | plain m => simp [Member.items, Member.lexemes, Item.lexemes]

theorem Member.lexemes_itemsAll (ms : List Member) :
    (Member.itemsAll ms).flatMap Item.lexemes = Member.lexemesAll ms := by
  cases ms with
  | nil => simp [Member.itemsAll, Member.lexemesAll]
  | cons m ms =>
    simp [Member.itemsAll, Member.lexemesAll, Member.lexemes_items m, Member.lexemes_itemsAll ms]

end

mutual

theorem Decl.lexemes_items (d : Decl) : d.items.flatMap Item.lexemes = d.lexemes := by
  cases d with
  | scope name decls =>
    simp [Decl.items, Decl.lexemes, Item.lexemes, Program.lexemes_items decls]
  | member m => simp [Decl.items, Decl.lexemes, Member.lexemes_items]

theorem Program.lexemes_items (ds : List Decl) :
    (Program.items ds).flatMap Item.lexemes = Program.lexemes ds := by
  cases ds with
  | nil => simp [Program.items, Program.lexemes]
  | cons d ds =>
    simp [Program.items, Program.lexemes, Decl.lexemes_items d, Program.lexemes_items ds]

end

mutual

theorem Member.events_items (m : Member) : m.items.filterMap Item.event? = m.events := by
  cases m with
  | type modifiers isStruct name members =>
    rw [Member.items, Member.events, List.filterMap_cons_none rfl, List.filterMap_append,
      Member.events_itemsAll members]
    exact List.append_nil _
  | event e => simp [Member.items, Member.events, Item.event?]
  | plain m => simp [Member.items, Member.events, Item.event?]

theorem Member.events_itemsAll (ms : List Member) :
    (Member.itemsAll ms).filterMap Item.event? = Member.eventsAll ms := by
  cases ms with
  | nil => simp [Member.itemsAll, Member.eventsAll]
  | cons m ms =>
    simp [Member.itemsAll, Member.eventsAll, Member.events_items m, Member.events_itemsAll ms]

end

mutual

theorem Decl.events_items (d : Decl) : d.items.filterMap Item.event? = d.events := by
  cases d with
  | scope name decls =>
    rw [Decl.items, Decl.events, List.filterMap_cons_none rfl, List.filterMap_append,
      Program.events_items decls]
    exact List.append_nil _
  | member m => simp [Decl.items, Decl.events, Member.events_items]

theorem Program.events_items (ds : List Decl) :
    (Program.items ds).filterMap Item.event? = Program.events ds := by
  cases ds with
  | nil => simp [Program.items, Program.events]
  | cons d ds => simp [Program.items, Program.events, Decl.events_items d, Program.events_items ds]

end

mutual

/-- A member closes what it opens. -/
theorem Member.scopesAfter_items (m : Member) {ss : List Scope} (h : ss ≠ []) :
    scopesAfter ss m.items = some ss := by
  cases m with
  | type modifiers isStruct name members =>
    have hhead : (Item.typeHead modifiers isStruct name).scopesAfter ss = some (.typeBody :: ss) :=
      if_neg h
    rw [Member.items, scopesAfter_cons _ hhead,
      scopesAfter_append _ (Member.scopesAfter_itemsAll members (List.cons_ne_nil _ _))]
    rfl
  | event e => simp [Member.items, scopesAfter, Item.scopesAfter, h]
  | plain m => simp [Member.items, scopesAfter, Item.scopesAfter, h]

theorem Member.scopesAfter_itemsAll (ms : List Member) {ss : List Scope} (h : ss ≠ []) :
    scopesAfter ss (Member.itemsAll ms) = some ss := by
  cases ms with
  | nil => rfl
  | cons m ms =>
    rw [Member.itemsAll, scopesAfter_append _ (Member.scopesAfter_items m h),
      Member.scopesAfter_itemsAll ms h]

end

mutual

theorem Decl.scopesAfter_items (d : Decl) {ss : List Scope} (h : ss ≠ []) :
    scopesAfter ss d.items = some ss := by
  cases d with
  | scope name decls =>
    have hhead : (Item.scopeHead name).scopesAfter ss = some (.namespaceBody :: ss) := if_neg h
    rw [Decl.items, scopesAfter_cons _ hhead,
      scopesAfter_append _ (Program.scopesAfter_items decls (List.cons_ne_nil _ _))]
    rfl
  | member m => exact Member.scopesAfter_items m h

theorem Program.scopesAfter_items (ds : List Decl) {ss : List Scope} (h : ss ≠ []) :
    scopesAfter ss (Program.items ds) = some ss := by
  cases ds with
  | nil => rfl
  | cons d ds =>
    rw [Program.items, scopesAfter_append _ (Decl.scopesAfter_items d h),
      Program.scopesAfter_items ds h]

end

/-! ## 3. Reading items -/

/-- An item that closes nothing starts with a word. -/
theorem exists_first_of_item {x : Item} {ts : List Token} (h : ts.map bare = x.lexemes)
    (hx : x ≠ .close) :
    ∃ t us, ts = t :: us ∧ (t.kind = .ident ∨ t.kind.isKeyword = true) := by
  have hword : ∀ {k : Keyword} {xs : List Lexeme} {us : List Token}, us.map bare = keyword k :: xs →
      ∃ t vs, us = t :: vs ∧ (t.kind = .ident ∨ t.kind.isKeyword = true) := by
    intro k xs us hu
    obtain ⟨t, vs, rfl, hk, -⟩ := exists_keyword hu
    exact ⟨t, vs, rfl, Or.inr (by rw [hk]; rfl)⟩
  -- the first modifier, or what stands behind them if there are none
  have hmods : ∀ {mods : Modifiers} {xs : List Lexeme} {us : List Token},
      (us.map bare = xs → ∃ t vs, us = t :: vs ∧ (t.kind = .ident ∨ t.kind.isKeyword = true)) →
      us.map bare = mods.lexemes ++ xs →
      ∃ t vs, us = t :: vs ∧ (t.kind = .ident ∨ t.kind.isKeyword = true) := by
    intro mods xs us hxs hu
    rw [Modifiers.lexemes] at hu
    cases hw : mods.words with
    | nil =>
      rw [hw] at hu
      exact hxs hu
    | cons k words =>
      rw [hw] at hu
      exact hword hu
  cases x with
  | typeHead mods isStruct name => exact hmods hword h
  | scopeHead name => exact hword h
  | close => exact absurd rfl hx
  | event e => exact hmods hword h
  | plain m =>
    refine hmods (fun hvs => ?_) h
    obtain ⟨ty, us, rfl, hty, -⟩ := exists_of_spells_append hvs
    obtain ⟨i, t, ty, rfl, hk, -⟩ := exists_first_of_type hty
    exact ⟨t, ty ++ us, rfl, Or.inl hk⟩

theorem endsMember_item (x : Item) {ts : List Token} (h : ts.map bare = x.lexemes)
    (rest : List Token) : endsMember (ts ++ rest) = true := by
  by_cases hx : x = .close
  · subst hx
    obtain ⟨t, us, rfl, hk, -⟩ := exists_mark h
    simp [endsMember, hk]
  · obtain ⟨t, us, rfl, hk⟩ := exists_first_of_item h hx
    rcases hk with hk | hk <;> simp [endsMember, hk]

theorem endsMember_items (xs : List Item) {ts rest : List Token}
    (h : ts.map bare = xs.flatMap Item.lexemes) (hr : endsMember rest = true) :
    endsMember (ts ++ rest) = true := by
  cases xs with
  | nil => rwa [List.map_eq_nil_iff.1 h]
  | cons x xs =>
    rw [List.flatMap_cons] at h
    obtain ⟨us, vs, rfl, hu, -⟩ := exists_of_spells_append h
    rw [List.append_assoc]
    exact endsMember_item x hu _

/-- A scope goes on with every item that closes nothing. -/
theorem ends_item {x : Item} {ts : List Token} (s : Scope) (h : ts.map bare = x.lexemes)
    (hx : x ≠ .close) (rest : List Token) : s.ends (ts ++ rest) = false := by
  obtain ⟨t, us, rfl, hk⟩ := exists_first_of_item h hx
  have hne : t.kind ≠ .rbrace := by
    rintro hr
    rw [hr] at hk
    rcases hk with hk | hk <;> cases hk
  simp [Scope.ends, Scope.endsAt, hne]

theorem eventNodes_of_recovered {e : EventMember} {n : Tree} {event : Event}
    (h : e.Recovered n event) : n.eventNodes = [n] := by
  have hk := isEvent_of_ofTree? h.ofTree
  cases n with
  | leaf t => cases hk
  | node k cs =>
    rw [Tree.eventNodes, if_pos (show k.isEvent = true from hk)]

theorem virtualEvents_of_recovered {e : EventMember} {n : Tree} {event : Event}
    (h : e.Recovered n event) : n.virtualEvents = [event].filter Event.isVirtual := by
  have hk := isEvent_of_ofTree? h.ofTree
  cases n with
  | leaf t => cases hk
  | node k cs =>
    rw [Tree.virtualEvents, if_pos (show k.isEvent = true from hk), h.ofTree]
    by_cases hv : event.isVirtual = true <;> simp [hv]

theorem eventNodes_of_silent {n : Tree} {ts rest : List Token} (h : Whole ts n rest)
    (hs : Silent n) : n.eventNodes = [] := by
  obtain @⟨k, cs, _, hk, hne, hr⟩ := h
  rw [Tree.eventNodes, if_neg (Bool.eq_false_iff.1 (show k.isEvent = false from hs))]
  exact eventNodesAll_eq_nil fun c hc => (hr.parts c hc).eventNodes

/-- A closing brace ends the innermost scope, and no semicolon follows it. -/
theorem afterClose_rbrace {s : Scope} {t : Token} {rest : List Token} (hs : s ≠ .file)
    (ht : t.kind = .rbrace) (hr : endsMember rest = true) : afterClose s (t :: rest) = rest := by
  have hclose : (Tree.optional .rbrace (t :: rest)).2 = rest := by
    rw [Tree.optional, if_pos ht]
  cases s with
  | file => exact absurd rfl hs
  | namespaceBody => exact hclose
  | typeBody =>
    rw [afterClose, hclose, Tree.optional_of_nextIs (nextIs_of_endsMember hr (Or.inl rfl))]

/-- The events of one item, with the scopes that are open around it. -/
theorem item_read {x : Item} {ss ss' : List Scope} {ts rest : List Token}
    (hss : x.scopesAfter ss = some ss') (h : ts.map bare = x.lexemes)
    (hr : endsMember rest = true) :
    ∃ nodes, eventsFrom ss (ts ++ rest) = nodes ++ eventsFrom ss' rest ∧
      virtualFrom ss (ts ++ rest) =
        (nodes.filterMap Event.ofTree?).filter Event.isVirtual ++ virtualFrom ss' rest ∧
      List.Forall₂ (fun e n => n.leaves = ts ∧ ∃ event, e.Recovered n event) x.event?.toList
        nodes := by
  -- a head opens a scope inside the innermost one, a member leaves the scopes as they are
  have hopen : ∀ {inner : Scope}, (if ss = [] then none else some (inner :: ss)) = some ss' →
      ∃ s ss₀, ss = s :: ss₀ ∧ ss' = inner :: s :: ss₀ := by
    intro inner hif
    cases ss with
    | nil => cases hif
    | cons s ss₀ => exact ⟨s, ss₀, rfl, (Option.some.inj hif).symm⟩
  have hstay : (if ss = [] then none else some ss) = some ss' → ∃ s ss₀, ss = s :: ss₀ ∧
      ss' = s :: ss₀ := by
    intro hif
    cases ss with
    | nil => cases hif
    | cons s ss₀ => exact ⟨s, ss₀, rfl, (Option.some.inj hif).symm⟩
  cases x with
  | typeHead mods isStruct name =>
    obtain ⟨s, ss₀, rfl, rfl⟩ := hopen hss
    obtain ⟨kind, parts, hread, hkind⟩ := typeHead_read s h rest
    have hends := ends_item s h (by simp) rest
    exact ⟨[], eventsFrom_of_container ss₀ hends hread,
      virtualFrom_of_container ss₀ hends hread hkind, .nil⟩
  | scopeHead name =>
    obtain ⟨s, ss₀, rfl, rfl⟩ := hopen hss
    obtain ⟨parts, hread⟩ := scopeHead_read s h rest
    have hends := ends_item s h (by simp) rest
    exact ⟨[], eventsFrom_of_container ss₀ hends hread,
      virtualFrom_of_container ss₀ hends hread (by decide), .nil⟩
  | close =>
    obtain ⟨t, us, rfl, ht, hus⟩ := exists_mark h
    rw [List.map_eq_nil_iff.1 hus, List.singleton_append]
    cases ss with
    | nil => simp [Item.scopesAfter] at hss
    | cons s ss₀ =>
      have hs : s ≠ .file ∧ ss' = ss₀ := by
        cases s <;> simp [Item.scopesAfter] at hss ⊢
        · exact hss.symm
        · exact hss.symm
      have hends : s.ends (t :: rest) = true := by
        simp [Scope.ends, Scope.endsAt, ht, hs.1]
      refine ⟨[], ?_, ?_, .nil⟩
      · rw [eventsFrom_of_ends ss₀ hends, afterClose_rbrace hs.1 ht hr, hs.2]
        rfl
      · rw [virtualFrom_of_ends ss₀ hends, afterClose_rbrace hs.1 ht hr, hs.2]
        rfl
  | event e =>
    obtain ⟨s, ss₀, rfl, rfl⟩ := hstay hss
    obtain ⟨n, event, hread, hleaves, hrec⟩ := event_read e s rest h
    have hends := ends_item (x := .event e) s h (by simp) rest
    refine ⟨[n], ?_, ?_, .cons ⟨hleaves, event, hrec⟩ .nil⟩
    · rw [eventsFrom_of_whole ss₀ hends hread, eventNodes_of_recovered hrec]
    · rw [virtualFrom_of_whole ss₀ hends hread, virtualEvents_of_recovered hrec,
        List.filterMap_cons_some hrec.ofTree, List.filterMap_nil]
  | plain m =>
    obtain ⟨s, ss₀, rfl, rfl⟩ := hstay hss
    obtain ⟨n, hread, hsilent⟩ := plain_read m s h hr
    have hends := ends_item (x := .plain m) s h (by simp) rest
    -- a member that is no event has none inside it either
    have hnone := eventNodes_of_silent (opening?_whole hread) hsilent
    refine ⟨[], ?_, ?_, .nil⟩
    · rw [eventsFrom_of_whole ss₀ hends hread, hnone]
    · rw [virtualFrom_of_whole ss₀ hends hread, virtualEvents_eq_nil hnone]
      rfl

/-- The items of a program are read one after the other. -/
theorem items_read {xs : List Item} {ss ss' : List Scope} {ts : List Token} (rest : List Token)
    (hss : scopesAfter ss xs = some ss') (h : ts.map bare = xs.flatMap Item.lexemes)
    (hr : endsMember rest = true) :
    ∃ nodes, eventsFrom ss (ts ++ rest) = nodes ++ eventsFrom ss' rest ∧
      List.Forall₂ (fun e n => n.leaves.Sublist ts ∧ ∃ event, e.Recovered n event)
        (xs.filterMap Item.event?) nodes := by
  -- on the items, with the scopes open in front of the first
  induction xs generalizing ss ts with
  | nil =>
    rw [List.map_eq_nil_iff.1 h, List.nil_append]
    rw [Option.some.inj hss]
    exact ⟨[], rfl, .nil⟩
  | cons x xs ih =>
    rw [List.flatMap_cons] at h
    obtain ⟨us, vs, rfl, hu, hv⟩ := exists_of_spells_append h
    rw [scopesAfter, List.foldlM_cons] at hss
    obtain ⟨mid, hmid, hss⟩ := Option.bind_eq_some_iff.1 hss
    obtain ⟨first, hfirst, -, hfirst'⟩ := item_read hmid hu (endsMember_items xs hv hr)
    obtain ⟨more, hmore, hmore'⟩ := ih hss hv
    refine ⟨first ++ more, ?_, ?_⟩
    · rw [List.append_assoc, hfirst, hmore, List.append_assoc]
    · have hsplit : (x :: xs).filterMap Item.event? =
          x.event?.toList ++ xs.filterMap Item.event? := by
        rw [List.filterMap_cons]
        cases x.event? <;> rfl
      rw [hsplit]
      exact List.rel_append
        (hfirst'.imp fun e n hn => ⟨hn.1 ▸ List.sublist_append_left us vs, hn.2⟩)
        (hmore'.imp fun e n hn => ⟨hn.1.trans (List.sublist_append_right us vs), hn.2⟩)

/-! ## 4. The text of a type -/

/-- Tokens with one blank between them are joined as they are printed. -/
theorem joined_eq_print {ts : List Token} (h : ∀ t ∈ ts.tail, t.leading = [' ']) :
    joined ts = print (ts.map bare) := by
  cases ts with
  | nil => rfl
  | cons t ts =>
    rw [joined, List.map_cons, print_cons, List.flatMap_map]
    congr 1
    refine List.flatMap_congr fun u hu => ?_
    rw [written, h u hu]
    rfl

/-- Every character of the lexeme is printed, and none is an angle bracket. -/
def Legible (x : Lexeme) : Prop :=
  x.2 ≠ [] ∧ ∀ c ∈ x.2, c ≠ '<' ∧ Text.isBlank c = false

theorem legible_of_ident {text : Text} {t : Token} (ht : t ∈ scan text) (hk : t.kind = .ident) :
    Legible t.bare := by
  obtain ⟨c, u, w, htext, hl⟩ := exists_lexeme rfl ht
  rw [hk] at hl
  refine ⟨by rw [bare, htext]; exact List.cons_ne_nil c u, fun d hd => ?_⟩
  have hd : d ∈ c :: (u ++ w).take u.length := by
    rw [List.take_left, ← htext]
    exact hd
  rcases isWordPart_of_ident hl hd with rfl | hw
  · decide
  · refine ⟨?_, ?_⟩
    · rintro rfl
      exact absurd hw (by decide)
    · refine Bool.eq_false_iff.2 fun hb => ?_
      rw [Text.isWordPart_of_isBlank hb] at hw
      cases hw

theorem legible_of_mark {k : TokenKind} (hk : k ∈ typeKinds) (hi : k ≠ .ident) (hl : k ≠ .lt) :
    Legible (mark k) := by
  have hall : ∀ k ∈ typeKinds, k ≠ .ident → k ≠ .lt →
      sign k ≠ [] ∧ ((sign k).all fun c => c ≠ '<' && !Text.isBlank c) = true := by
    decide
  obtain ⟨hne, hchars⟩ := hall k hk hi hl
  exact ⟨hne, fun c hc => by simpa using List.all_eq_true.1 hchars c hc⟩

theorem mem_print {xs : List Lexeme} {c : Char} (h : c ∈ print xs) :
    c = ' ' ∨ ∃ x ∈ xs, c ∈ x.2 := by
  cases xs with
  | nil => cases h
  | cons x xs =>
    rw [print_cons] at h
    rcases List.mem_append.1 h with h | h
    · exact Or.inr ⟨x, List.mem_cons_self, h⟩
    · obtain ⟨y, hy, h⟩ := List.mem_flatMap.1 h
      rcases List.mem_cons.1 h with h | h
      · exact Or.inl h
      · exact Or.inr ⟨y, List.mem_cons_of_mem x hy, h⟩

theorem trimEnd_print {xs : List Lexeme} (h : ∀ x ∈ xs, Legible x) :
    Text.trimEnd (print xs ++ [' ']) = print xs := by
  -- the last lexeme ends the text, and its last character is no blank
  have hlast : ∀ c ∈ (print xs).reverse.head?, Text.isBlank c = false := by
    intro c hc
    rw [List.head?_reverse] at hc
    rcases List.eq_nil_or_concat xs with rfl | ⟨ys, x, rfl⟩
    · cases hc
    · obtain ⟨hne, hx⟩ := h x (by simp)
      have hend : ∃ a, print (ys.concat x) = a ++ x.2 := by
        rw [List.concat_eq_append]
        by_cases hys : ys = []
        · exact ⟨[], by rw [hys]; simp [print_cons]⟩
        · exact ⟨print ys ++ [' '], by
            rw [print_append hys (List.cons_ne_nil _ _), print_cons]; simp⟩
      obtain ⟨a, ha⟩ := hend
      rw [ha, List.getLast?_append, List.getLast?_eq_some_getLast hne, Option.some_or] at hc
      rw [← Option.some.inj hc]
      exact (hx _ (List.getLast_mem hne)).2
  rw [Text.trimEnd, List.reverse_append, List.reverse_singleton, List.singleton_append,
    List.dropWhile_cons_of_pos (by decide)]
  cases hr : (print xs).reverse with
  | nil => rw [List.dropWhile_nil, ← hr, List.reverse_reverse]
  | cons c cs =>
    rw [hr] at hlast
    rw [List.dropWhile_cons_of_neg (by rw [hlast c rfl]; decide), ← hr, List.reverse_reverse]

/-- In front of its first angle bracket a type is written as it is printed, and a blank follows. -/
theorem takeWhile_print {xs : List Lexeme} (hspell : ∀ x ∈ xs, x.1 = .lt → x.2 = ['<'])
    (hleg : ∀ x ∈ xs, x.1 ≠ .lt → Legible x) (hlt : ∃ x ∈ xs, x.1 = .lt)
    (hfirst : ∀ x ∈ xs.head?, x.1 ≠ .lt) :
    (print xs).takeWhile (· ≠ '<') = print (xs.takeWhile (·.1 ≠ .lt)) ++ [' '] := by
  -- the first angle bracket `y` cuts the lexemes
  obtain ⟨x, hx, hk⟩ := hlt
  obtain ⟨y, hfind⟩ := Option.isSome_iff_exists.1
    (List.find?_isSome (p := fun x : Lexeme => x.1 = .lt).2 ⟨x, hx, decide_eq_true hk⟩)
  obtain ⟨hy, pre, ys, rfl, hpre⟩ := List.find?_eq_some_iff_append.1 hfind
  have hy : y.1 = .lt := of_decide_eq_true hy
  have hpre : ∀ x ∈ pre, x.1 ≠ .lt := fun x hx => by simpa using hpre x hx
  have hne : pre ≠ [] := by
    rintro rfl
    exact hfirst y rfl hy
  have htake : (pre ++ y :: ys).takeWhile (·.1 ≠ .lt) = pre := by
    rw [List.takeWhile_append_of_pos fun x hx => decide_eq_true (hpre x hx),
      List.takeWhile_cons_of_neg (by simp [hy]), List.append_nil]
  rw [htake, print_append hne (List.cons_ne_nil _ _), print_cons, hspell y (by simp) hy,
    List.append_cons, List.takeWhile_append_of_pos]
  · rw [List.singleton_append, List.takeWhile_cons_of_neg (by decide), List.append_nil]
  · -- no character in front of it is a bracket: those of lexemes are legible, the others blank
    intro c hc
    refine decide_eq_true ?_
    rcases List.mem_append.1 hc with hc | hc
    · rcases mem_print hc with rfl | ⟨x, hx, hc⟩
      · decide
      · exact ((hleg x (List.mem_append_left _ hx) (hpre x hx)).2 c hc).1
    · rw [List.mem_singleton.1 hc]
      decide

theorem mem_preorder_of_mem_childNodes {t c : Tree} (h : c ∈ t.childNodes) : c ∈ t.preorder := by
  obtain ⟨hc, hnode⟩ := List.mem_filter.1 h
  cases t with
  | leaf u => cases hc
  | node k cs => exact List.mem_cons_of_mem _ (mem_preorderAll hc (mem_preorder_self hnode))

/-- The tokens of the only argument stand together in the type. -/
theorem leaves_singleArgument? {tree argument : Tree}
    (h : ElementType.singleArgument? tree = some argument) :
    argument.leaves <:+: tree.leaves := by
  have hchild : ∀ {t c : Tree}, c ∈ t.childNodes → c.leaves <:+: t.leaves := by
    intro t c hc
    obtain ⟨a, b, hab⟩ := leaves_infix t (mem_preorder_of_mem_childNodes hc)
    exact ⟨a, b, hab.symm⟩
  rw [ElementType.singleArgument?] at h
  obtain ⟨name, hname, h⟩ := Option.bind_eq_some_iff.1 h
  obtain ⟨list, hlist, h⟩ := Option.bind_eq_some_iff.1 h
  have hlist : list ∈ name.childNodes := by
    refine List.mem_filter.2 ⟨List.mem_of_find?_eq_some hlist, ?_⟩
    have hof := List.find?_some hlist
    cases list with
    | leaf t => cases hof
    | node k cs => rfl
  have hargument : argument ∈ list.childNodes := by
    split at h
    · rename_i c hc
      rw [hc, Option.some.inj h]
      exact List.mem_cons_self
    · cases h
  -- the generic name is the type itself or the last name of a qualified one
  have hname : name.leaves <:+: tree.leaves := by
    unfold ElementType.genericName? at hname
    split at hname
    · exact Option.some.inj hname ▸ List.infix_rfl
    · obtain ⟨hlast, -⟩ := Option.filter_eq_some_iff.1 hname
      exact hchild (List.mem_of_getLast? hlast)
    · cases hname
  exact (hchild hargument).trans ((hchild hlist).trans hname)

theorem mem_tail_of_part {α : Type} {a b : List α} (h : a <:+: b) {x : α} (hx : x ∈ a.tail) :
    x ∈ b.tail := by
  obtain ⟨u, v, rfl⟩ := h
  cases a with
  | nil => cases hx
  | cons y a =>
    cases u with
    | nil => exact List.mem_append_left _ hx
    | cons z u =>
      exact List.mem_append_left _ (List.mem_append_right _ (List.mem_cons_of_mem _ hx))

/-- A type with a single argument has an angle bracket, and the argument. -/
theorem subset_of_argument? {type argument : TypeName} (h : type.argument? = some argument) :
    mark .lt :: argument.lexemes ⊆ type.lexemes := by
  have hname : ∀ {s : SimpleName}, s.argument? = some argument →
      mark .lt :: argument.lexemes ⊆ s.lexemes := by
    intro s hs
    rcases s with ⟨name, _ | ⟨a, _ | ⟨b, more⟩⟩⟩
    · cases hs
    · rw [Option.some.inj hs, SimpleName.lexemes]
      exact fun x hx => List.mem_cons_of_mem _ (List.mem_append_left _ hx)
    · cases hs
  have htail : ∀ {s : SimpleName} {more : List SimpleName}, s ∈ more →
      ∀ x ∈ s.lexemes, x ∈ namesTail more := by
    intro s more hs x hx
    induction more with
    | nil => cases hs
    | cons r more ih =>
      rw [namesTail]
      rcases List.mem_cons.1 hs with rfl | hs
      · exact List.mem_cons_of_mem _ (List.mem_append_left _ hx)
      · exact List.mem_cons_of_mem _ (List.mem_append_right _ (ih hs))
  -- a type with marks has no argument of its own
  rcases type with ⟨first, more, _ | ⟨k, marks⟩⟩
  · rw [TypeName.argument?] at h
    intro x hx
    replace hx := hname h hx
    rw [TypeName.lexemes]
    cases hlast : more.getLast? with
    | none =>
      rw [hlast, Option.getD_none] at hx
      exact List.mem_append_left _ (List.mem_append_left _ hx)
    | some s =>
      rw [hlast, Option.getD_some] at hx
      exact List.mem_append_left _ (List.mem_append_right _
        (htail (List.mem_of_getLast? hlast) x hx))
  · cases h

/-- The type of an event, read from tokens with one blank between them. -/
theorem elementType_read {type : TypeName} {tree : Tree}
    (hspaced : ∀ t ∈ tree.leaves.tail, t.leading = [' '])
    (hident : ∀ t ∈ tree.leaves, t.kind = .ident → Legible t.bare)
    (h : tree.leaves.map bare = type.lexemes)
    (harg : Option.Rel SpellsArgument (ElementType.singleArgument? tree) type.argument?) :
    ElementType.ofTree tree = type.elementType := by
  have htext : tree.text = print type.lexemes := by
    rw [Tree.text, joined_eq_print hspaced, h]
  rw [ElementType.ofTree, TypeName.elementType]
  generalize hs : ElementType.singleArgument? tree = single at harg
  generalize ha : type.argument? = argument? at harg
  cases harg with
  | none => rw [htext]
  | @some n argument hspell =>
    have htype := typelike_typeName type
    have hlegible : ∀ x ∈ type.lexemes, x.1 ≠ .lt → Legible x := by
      intro x hx hk
      by_cases hi : x.1 = .ident
      · rw [← h] at hx
        obtain ⟨t, ht, rfl⟩ := List.mem_map.1 hx
        exact hident t ht hi
      · rw [(htype.spelled x hx).resolve_left hi]
        exact legible_of_mark (htype.kinds x hx) hi hk
    -- the container is cut out of the text, so no lexeme in front of the bracket may contain one
    have hname : Text.trimEnd (tree.text.takeWhile (· ≠ '<')) =
        print (type.lexemes.takeWhile (·.1 ≠ .lt)) := by
      have hlt : ∀ x ∈ type.lexemes, x.1 = .lt → x.2 = ['<'] := by
        intro x hx hk
        rw [(htype.spelled x hx).resolve_left (by rw [hk]; decide), hk]
        rfl
      have hfirst : ∀ x ∈ type.lexemes.head?, x.1 ≠ .lt := by
        intro x hx hk
        obtain ⟨i, t, us, hleaves, ht, -⟩ := exists_first_of_type h
        rw [← h, hleaves] at hx
        rw [← Option.some.inj hx] at hk
        rw [show t.kind = .lt from hk] at ht
        cases ht
      rw [htext,
        takeWhile_print hlt hlegible ⟨_, subset_of_argument? ha List.mem_cons_self, rfl⟩ hfirst,
        trimEnd_print]
      intro x hx
      exact hlegible x ((List.takeWhile_sublist _).subset hx)
        (of_decide_eq_true (List.all_eq_true.1 List.all_takeWhile x hx))
    have hargument : n.text = print argument.lexemes := by
      rw [Tree.text, joined_eq_print fun t ht =>
        hspaced t (mem_tail_of_part (leaves_singleArgument? hs) ht), hspell]
    dsimp only
    rw [hname, hargument]

/-! ## 5. Backing fields -/

/-- The field that a statement adds the value to. -/
def Stmt.backing? : Stmt → Option Text
  | assign a => if a.op = .add ∧ a.value.text = "value".toList then some a.target.text else none
  | call _ _ => none

/-- The field of the first such statement. -/
def Body.backing? : Body → Option Text
  | block statements => statements.findSome? Stmt.backing?
  | arrow a => (Stmt.assign a).backing?

/-- The field that holds the delegates of an event. -/
def EventMember.backing (e : EventMember) : Except BackingError Text :=
  match e.tail with
  | .names _ => .ok e.name.text
  | .accessors add _ =>
    match add.backing? with
    | some field => .ok field
    | none => .error (.noBackingAssignment e.name.text)

theorem isValue_operand {i : Ident} {t : Tree}
    (h : Operand.ofTree t = ⟨some .identifierName, [i.lexeme]⟩) :
    Backing.isValue t = decide (i.text = "value".toList) := by
  obtain ⟨hk, hl⟩ := Operand.mk.inj h
  obtain ⟨u, hu, hbare⟩ := List.map_eq_singleton_iff.1 hl
  have htext : t.text = i.text := by
    rw [Tree.text, hu, joined, List.flatMap_nil, List.append_nil]
    exact congrArg Prod.snd hbare
  rw [Backing.isValue, isOf, hk, htext]
  rfl

theorem assignedName?_operand {a : Assign} {t : Tree}
    (h : Operand.ofTree t =
      ⟨some (if a.qualified then .memberAccessExpression else .identifierName), a.left⟩) :
    Backing.assignedName? t = some a.target.text := by
  obtain ⟨hk, hl⟩ := Operand.mk.inj h
  unfold Backing.assignedName?
  rcases left_cases hl with ⟨hq, x, hx, -, htext⟩ | ⟨hq, u, d, x, hx, hu, -, -⟩
  · rw [hk, hq, hx]
    exact congrArg some htext
  · have htext : x.text = a.target.text := by
      rw [Tree.lexemes, hx, Assign.left, hq] at hl
      simp only [List.map_cons, if_true, List.cons.injEq] at hl
      exact congrArg Prod.snd hl.2.2.1
    rw [hk, hq, hx]
    simp [hu, htext]

theorem ofStatement?_view {s : Statement} {st : Stmt} (h : s.view = st.view) :
    Backing.ofStatement? s = st.backing? := by
  cases st with
  | call name arguments =>
    cases s with
    | assignment left op right => cases h
    | other n => rfl
  | assign a =>
    cases s with
    | other n => cases h
    | assignment left op right =>
      obtain ⟨hl, hop, hr⟩ := StatementView.assignment.inj h
      rw [hop, Stmt.backing?]
      cases ha : a.op with
      | add =>
        rw [AssignOp.kind, Backing.ofStatement?, isValue_operand hr, assignedName?_operand hl]
        simp
      | set => simp [AssignOp.kind, Backing.ofStatement?]
      | sub => simp [AssignOp.kind, Backing.ofStatement?]

/-- The views of statements decide which field they add to. -/
theorem findSome?_view {statements : List Statement} {sts : List Stmt}
    (h : statements.map Statement.view = sts.map Stmt.view) :
    statements.findSome? Backing.ofStatement? = sts.findSome? Stmt.backing? := by
  induction statements generalizing sts with
  | nil =>
    rw [List.map_nil, eq_comm, List.map_eq_nil_iff] at h
    rw [h]
    rfl
  | cons s statements ih =>
    obtain ⟨st, sts, rfl, hs, hss⟩ := List.map_eq_cons_iff.1 h.symm
    rw [List.findSome?_cons, List.findSome?_cons, ofStatement?_view hs.symm, ih hss.symm]

theorem EventMember.Recovered.backing_eq {e : EventMember} {n : Tree} {event : Event}
    (h : e.Recovered n event) : event.backing = e.backing := by
  have hshape := h.shape
  rw [Event.backing, EventMember.backing, h.text]
  cases htail : e.tail with
  | names more =>
    rw [htail] at hshape
    cases hs : event.shape with
    | fieldLike declarators => rfl
    | accessorLike add remove =>
      rw [hs] at hshape
      cases hshape
  | accessors add remove =>
    rw [htail] at hshape
    cases hs : event.shape with
    | fieldLike declarators =>
      rw [hs] at hshape
      cases hshape
    | accessorLike a r =>
      rw [hs] at hshape
      obtain ⟨ha, -⟩ := ShapeView.accessorLike.inj hshape
      cases a with
      | none => cases ha
      | some a =>
        -- both sides take the first statement of the `add` accessor that names a field
        have hview : a.statements.map Statement.view = add.view := Option.some.inj ha
        have hfield : a.statements.findSome? Backing.ofStatement? = add.backing? := by
          cases add with
          | block statements => exact findSome?_view hview
          | arrow assign =>
            have hone : a.statements.map Statement.view =
                [Stmt.assign assign].map Stmt.view := hview
            rw [findSome?_view hone, List.findSome?_cons, List.findSome?_nil, Body.backing?]
            cases (Stmt.assign assign).backing? <;> rfl
        cases hb : add.backing? <;> simp only [hfield, hb]

/-! ## 6. The events of a program -/

theorem placed_bare (offset : Nat) (gap : Text) (xs : List Lexeme) :
    (placed offset gap xs).map bare = xs := by
  induction xs generalizing offset gap with
  | nil => rfl
  | cons x xs ih => rw [placed, List.map_cons, ih]; rfl

theorem leading_placed {offset : Nat} {xs : List Lexeme} {t : Token}
    (h : t ∈ placed offset [' '] xs) : t.leading = [' '] := by
  induction xs generalizing offset with
  | nil => cases h
  | cons x xs ih =>
    rcases List.mem_cons.1 h with rfl | h
    · rfl
    · exact ih h

theorem leading_placed_tail {offset : Nat} {gap : Text} {xs : List Lexeme} {t : Token}
    (h : t ∈ (placed offset gap xs).tail) : t.leading = [' '] := by
  cases xs with
  | nil => cases h
  | cons x xs => exact leading_placed h

theorem EventMember.Recovered.view_eq {e : EventMember} {n : Tree} {event : Event} {text : Text}
    (h : e.Recovered n event) (hscan : ∀ t ∈ n.leaves, t ∈ scan text)
    (hspaced : ∀ t ∈ n.leaves.tail, t.leading = [' ']) : event.view = e.view := by
  obtain ⟨tree, front, back, htype, hleaves, hfront, htree, harg⟩ := h.type
  obtain ⟨f, front, rfl⟩ := List.exists_cons_of_ne_nil hfront
  have htail : ∀ t ∈ tree.leaves, t ∈ n.leaves.tail := by
    intro t ht
    rw [hleaves]
    exact List.mem_append_left _ (List.mem_append_right _ ht)
  have hident : ∀ t ∈ tree.leaves, t.kind = .ident → Legible t.bare := fun t ht hk =>
    legible_of_ident (hscan t (List.mem_of_mem_tail (htail t ht))) hk
  have hread := elementType_read (fun t ht => hspaced t (htail t (List.mem_of_mem_tail ht))) hident
    htree harg
  rw [Event.view, EventMember.view, h.text, h.modifiers, h.shape, htype, hread]

mutual

theorem filterMap_ofTree?_preorder (t : Tree) (h : t.FlatEvents) :
    t.preorder.filterMap Event.ofTree? = t.eventNodes.filterMap Event.ofTree? := by
  cases t with
  | leaf t => rfl
  | node k cs =>
    rw [preorder, Tree.eventNodes]
    by_cases hk : k.isEvent = true
    · -- nothing below an event is an event
      rw [if_pos hk]
      have hbelow : (preorderAll cs).filterMap Event.ofTree? = [] := by
        refine List.filterMap_eq_nil_iff.2 fun m hm => ?_
        have hm := h _ List.mem_cons_self hk m hm
        refine Option.eq_none_iff_forall_ne_some.2 fun event he => ?_
        rw [isEvent_of_ofTree? he] at hm
        cases hm
      rw [List.filterMap_cons, List.filterMap_cons, hbelow, List.filterMap_nil]
    · rw [if_neg hk, List.filterMap_cons_none,
        filterMap_ofTree?_preorderAll cs fun c hc => h.child hc]
      refine Option.eq_none_iff_forall_ne_some.2 fun event he => ?_
      exact hk (isEvent_of_ofTree? he)

theorem filterMap_ofTree?_preorderAll (cs : List Tree) (h : ∀ c ∈ cs, c.FlatEvents) :
    (preorderAll cs).filterMap Event.ofTree? = (eventNodesAll cs).filterMap Event.ofTree? := by
  cases cs with
  | nil => rfl
  | cons c cs =>
    rw [preorderAll, eventNodesAll, List.filterMap_append, List.filterMap_append,
      filterMap_ofTree?_preorder c (h c List.mem_cons_self),
      filterMap_ofTree?_preorderAll cs fun d hd => h d (List.mem_cons_of_mem c hd)]

end

theorem events_ofText (text : Text) :
    (Document.ofText text).events =
      (eventsFrom [.file] (scan text)).filterMap Event.ofTree? := by
  rw [Document.events, Document.nodes_ofText, eventsFrom_file]
  exact filterMap_ofTree?_preorder _ (flatEvents_ofTokens _)

/-- Members that say what was written give the events that were written. -/
theorem map_filterMap_of_recovered {α : Type} {f : Event → α} {g : EventMember → α}
    {es : List EventMember} {nodes : List Tree}
    (h : List.Forall₂ (fun e n => ∃ event, Event.ofTree? n = some event ∧ f event = g e) es nodes) :
    (nodes.filterMap Event.ofTree?).map f = es.map g := by
  induction h with
  | nil => rfl
  | cons hn _ ih =>
    obtain ⟨event, hof, hfg⟩ := hn
    rw [List.filterMap_cons_some hof, List.map_cons, List.map_cons, ih, hfg]

/-- The events of a printed program are those that were written, in their order: each says the same
of its name, its type, its modifiers and its names or accessors, and has the same backing field. -/
theorem events_print (p : Program) (h : LexesBack (Program.lexemes p)) :
    (Document.ofText (print (Program.lexemes p))).events.map Event.view =
        (Program.events p).map EventMember.view ∧
      (Document.ofText (print (Program.lexemes p))).events.map Event.backing =
        (Program.events p).map EventMember.backing := by
  have hbare : (placed 0 [] (Program.lexemes p)).map bare =
      (Program.items p).flatMap Item.lexemes := by
    rw [placed_bare, Program.lexemes_items]
  obtain ⟨nodes, hnodes, hread⟩ :=
    items_read [] (Program.scopesAfter_items p (List.cons_ne_nil .file [])) hbare rfl
  have hend : eventsFrom [.file] [] = [] := by
    rw [eventsFrom_of_ends [] rfl]
    rfl
  rw [List.append_nil, hend, List.append_nil, ← h] at hnodes
  rw [events_ofText, hnodes]
  rw [Program.events_items] at hread
  refine ⟨map_filterMap_of_recovered (hread.imp ?_), map_filterMap_of_recovered (hread.imp ?_)⟩
  · rintro e n ⟨hn, event, hrec⟩
    have hscan : ∀ t ∈ n.leaves, t ∈ scan (print (Program.lexemes p)) := fun t ht => by
      rw [h]
      exact hn.subset ht
    exact ⟨event, hrec.ofTree,
      hrec.view_eq hscan fun t ht => leading_placed_tail (hn.tail.subset ht)⟩
  · rintro e n ⟨-, event, hrec⟩
    exact ⟨event, hrec.ofTree, hrec.backing_eq⟩

/-- A namespace with a class, in which a method stands between two events. -/
def twoEvents : Program :=
  let named (s : String) (h : (contextualWords.any fun w => w.toList = s.toList) = false) : Ident :=
    ⟨s.toList, h⟩
  let handler : TypeName :=
    .mk (.mk (named "Handler" (by decide)) [.mk (.mk (named "Args" (by decide)) []) [] []]) [] []
  let body (op : AssignOp) : Body :=
    .block [.assign ⟨true, named "f" (by decide), op, named "value" (by decide)⟩]
  [.scope (named "N" (by decide)) [.member (.type ⟨[.publicKw], by decide, by decide⟩ false
    (named "C" (by decide))
    [.event ⟨⟨[.virtualKw], by decide, by decide⟩, handler, named "Changed" (by decide),
        .accessors (body .add) (body .sub)⟩,
      .plain ⟨⟨[], by decide, by decide⟩, handler, named "M" (by decide),
        .method ⟨[], .nil⟩
          ⟨[keyword .eventKw, mark .lbrace, mark .lt, mark .semicolon, mark .rbrace],
          .plain rfl rfl (.group (Or.inr (Or.inr ⟨rfl, rfl⟩)) (.plain rfl rfl (.plain rfl rfl .nil))
            .nil)⟩⟩,
      .event ⟨⟨[], by decide, by decide⟩, handler, named "Opened" (by decide),
        .names [named "Closed" (by decide)]⟩])]]

theorem events_print_twoEvents :
    LexesBack (Program.lexemes twoEvents) ∧
      (Document.ofText (print (Program.lexemes twoEvents))).events.map Event.view =
        (Program.events twoEvents).map EventMember.view ∧
      (Document.ofText (print (Program.lexemes twoEvents))).events.map Event.backing =
        [.ok "f".toList, .ok "Opened".toList] := by
  have h : LexesBack (Program.lexemes twoEvents) := by
    unfold LexesBack
    decide +kernel
  exact ⟨h, (events_print _ h).1, (events_print _ h).2⟩

end Grammar

end EventLint
