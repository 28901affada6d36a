import EventLint.Proofs.Changes
import EventLint.Proofs.CompleteEvent
import EventLint.Proofs.RaiseMember
import EventLint.Proofs.TypeFollow

/-!
# The text of a raise method

A raise method is put together from texts of its event: the name, the backing field and the type of
the argument as written. Main statement: behind the event, and behind a comment that ends its line,
this text is scanned to the tokens of a method in which the type stands twice.
-/

namespace EventLint

open Text

/-! ## 1. What stands in front of the method -/

namespace Trivia

theorem lineExtent_line {w y : Text} (hw : '\n' ∉ w) (hy : ∀ c ∈ y.head?, c = '\n') :
    lineExtent (w ++ y) = w.length := by
  induction w with
  | nil =>
    cases y with
    | nil => rfl
    | cons c y =>
      rw [hy c rfl]
      rfl
  | cons c w ih =>
    have hc : c ≠ '\n' := fun hn => hw (hn ▸ List.mem_cons_self)
    rw [List.cons_append, lineExtent, if_neg hc, ih fun hn => hw (List.mem_cons_of_mem c hn),
      List.length_cons, Nat.add_comm]

/-- A comment takes the rest of its line. -/
theorem extent_lineComment {b w y : Text} (fresh : Bool) (hb : ∀ c ∈ b, isBlank c = true)
    (hw : '\n' ∉ w) (hy : ∀ c ∈ y.head?, c = '\n') :
    extent fresh (b ++ '/' :: '/' :: w ++ y) = (b ++ '/' :: '/' :: w).length + extent false y := by
  have hitem : ∀ f, item? f '/' ('/' :: w ++ y) = some (('/' :: w).length, false) := by
    intro f
    have hline := lineExtent_line (w := '/' :: w) (fun hn => by simp_all) hy
    rw [item?, hline]
    rfl
  rw [List.append_assoc, List.cons_append, extent_blanks fresh hb, extent_of_item? (hitem _),
    List.drop_left]
  simp only [List.length_append, List.length_cons]
  omega

/-- In front of a word, line breaks and an indent are blank, and so is a comment in front of
them. -/
theorem extent_comment_newline {c indent z : Text} (text : Text) (hc : c = [] ∨ IsLineComment c)
    (hindent : ∀ d ∈ indent, isBlank d = true) (hz : ∀ fresh, extent fresh z = 0) (fresh : Bool) :
    extent fresh (c ++ (newline text ++ newline text ++ indent) ++ z) =
      (c ++ (newline text ++ newline text ++ indent)).length := by
  have hgap : ∀ d ∈ newline text ++ newline text ++ indent, isBlank d = true := fun d hd =>
    (List.mem_append.1 hd).elim
      (fun hd => (List.mem_append.1 hd).elim isBlank_of_mem_newline isBlank_of_mem_newline)
      (hindent d)
  -- a carriage return in front of the line break belongs to the comment
  obtain ⟨r, gap, hsplit, hr⟩ : ∃ r gap, newline text ++ newline text ++ indent = r ++ '\n' :: gap ∧
      '\n' ∉ r := by
    rcases newline_cases text with hn | hn <;> rw [hn]
    · exact ⟨[], _, rfl, by decide⟩
    · exact ⟨['\r'], _, rfl, by decide⟩
  rcases hc with rfl | ⟨b, w, rfl, hb, hbreak⟩
  · rw [List.nil_append, extent_blanks fresh hgap, hz, Nat.add_zero]
  · rw [hsplit] at hgap ⊢
    have hline : '\n' ∉ w ++ r := fun hn =>
      (List.mem_append.1 hn).elim (fun hn => hbreak (by simp [hn])) hr
    have hcut : b ++ '/' :: '/' :: w ++ (r ++ '\n' :: gap) ++ z =
        b ++ '/' :: '/' :: (w ++ r) ++ '\n' :: (gap ++ z) := by
      simp only [List.append_assoc, List.cons_append]
    have hblank := extent_blanks false
      (fun d hd => hgap d (List.mem_append_right r hd) : ∀ d ∈ '\n' :: gap, isBlank d = true) z
    rw [List.cons_append, hz] at hblank
    have hends : ∀ d ∈ ('\n' :: (gap ++ z)).head?, d = '\n' := fun _ hd => (Option.some.inj hd).symm
    rw [hcut, extent_lineComment fresh hb hline hends, hblank]
    simp only [List.length_append, List.length_cons]
    omega

end Trivia

/-! ## 2. The type of the argument -/

namespace Token

theorem Moved.exists_append {ts us vs : List Token} (h : Moved (ts ++ us) vs) :
    ∃ ts' us', vs = ts' ++ us' ∧ Moved ts ts' := by
  obtain ⟨xs, j, k, hx, rfl⟩ := h
  obtain ⟨as, bs, rfl, rfl, -⟩ := List.map_eq_append_iff.1 hx.symm
  exact ⟨_, _, List.map_append, as, j, k, rfl, rfl⟩

/-- In front of a blank, `w` is scanned to tokens that show `xs`. -/
def Scans (w : Text) (xs : List Lexeme) : Prop :=
  ∀ (gap z : Text) (offset : Nat), gap = [] ∨ gap = [' '] →
    ∃ ts fresh offset',
      scanFrom false offset (gap ++ (w ++ ' ' :: z)) = ts ++ scanFrom fresh offset' (' ' :: z) ∧
      ts.map bare = xs ∧ source ts = gap ++ w

/-- The tokens from one on are scanned from what is left of the text. -/
theorem exists_scanFrom {text : Text} {a b : List Token} (h : scan text = a ++ b) :
    ∃ rest, scanFrom (Trivia.freshAfter true (source a)) (0 + byteSize (source a))
      (source b ++ rest) = b := by
  obtain ⟨rest, htext, -⟩ := scan_source text
  rw [h, source_append, List.append_assoc] at htext
  refine ⟨rest, scanFrom_rest ?_⟩
  rw [htext, ← h]
  rfl

open Tree in
/-- Tokens that stand together in a text are scanned again where a blank follows them. -/
theorem scans_joined {text : Text} {a gs b : List Token} (h : scan text = a ++ gs ++ b)
    (hgs : gs ≠ []) (hb : b ≠ []) : Scans (joined gs) (gs.map bare) := by
  intro gap z offset hgap
  obtain ⟨rest, hmid⟩ := exists_scanFrom (h.trans (List.append_assoc _ _ _))
  rw [source_append, List.append_assoc] at hmid
  have hne : source b ++ rest ≠ [] := by
    obtain ⟨t, b, rfl⟩ := List.exists_cons_of_ne_nil hb
    have hmem : t ∈ scan text := by simp [h]
    have htext := (scan_inPlace text).text_ne_nil hmem
    simp [source_cons, htext]
  -- a blank may follow instead
  have hcont : Continues gs (source b ++ rest) (' ' :: z) :=
    ⟨follows_blank _ (by decide) z, (fun hs => by cases hs), fun hn => absurd hn hne⟩
  have hgiven := scanFrom_append hcont hmid
  obtain ⟨t, gs, rfl⟩ := List.exists_cons_of_ne_nil hgs
  rw [List.cons_append] at hgiven
  obtain ⟨c, u, htext, hlex, hextent, -, hrest⟩ := exists_of_scanFrom_source hgiven
  -- the first token is the same one behind another gap
  have hitem : Trivia.item? false c (u ++ (source gs ++ ' ' :: z)) = none := by
    rw [source_cons, htext] at hextent
    simp only [List.append_assoc, List.cons_append] at hextent
    exact Trivia.item?_of_extent hextent
  have hfirst : Trivia.extent false (gap ++ c :: (u ++ (source gs ++ ' ' :: z))) = gap.length := by
    rcases hgap with rfl | rfl
    · exact Trivia.extent_of_item?_eq_none hitem
    · rw [Trivia.extent_blanks false fun d hd => isBlank_of_mem_space hd]
      exact congrArg _ (Trivia.extent_of_item?_eq_none hitem)
  have hnext : Trivia.freshAfter false (gap ++ c :: u) =
      Trivia.freshAfter (Trivia.freshAfter true (source a)) (t.leading ++ t.text) := by
    rw [Trivia.freshAfter_append, Trivia.freshAfter_append, htext]
    exact Trivia.freshAfter_token (Trivia.not_isBlank_of_item? hitem) _ _ u
  -- the others are moved
  have hmoved := moved_scanFrom (Trivia.freshAfter false (gap ++ c :: u))
    (0 + byteSize (source a) + byteSize (t.leading ++ t.text)) (offset + byteSize (gap ++ c :: u))
    (source gs ++ ' ' :: z)
  conv at hmoved => lhs; rw [hnext, ← hrest]
  obtain ⟨gs', us, hsplit, hgs'⟩ := hmoved.exists_append
  have hlast : scanFrom (Trivia.freshAfter false (gap ++ c :: u))
      (offset + byteSize (gap ++ c :: u)) (source gs' ++ ' ' :: z) = gs' ++ us := by
    rw [hgs'.source, hsplit]
  refine ⟨⟨t.kind, gap, t.text, offset + byteSize gap⟩ :: gs',
    Trivia.freshAfter (Trivia.freshAfter false (gap ++ c :: u)) (source gs'),
    offset + byteSize (gap ++ c :: u) + byteSize (source gs'), ?_, ?_, ?_⟩
  · rw [joined, htext, show gs.flatMap written = source gs from rfl, List.cons_append,
      List.cons_append, List.append_assoc, scanFrom_of_lexeme hfirst hlex, hsplit,
      scanFrom_rest hlast, List.cons_append]
  · rw [List.map_cons, List.map_cons, hgs'.bare]
    rfl
  · rw [source_cons, hgs'.source, joined, List.append_assoc]
    rfl

end Token

/-! ## 3. The tokens of the method -/

open Token Grammar

/-- The tokens of a raise method whose type shows `type`. -/
def RaiseMethod.lexemes (m : RaiseMethod) (type : List Lexeme) : List Lexeme :=
  [keyword .protectedKw, keyword .virtualKw] ++ (type ++ ([(.ident, m.name), mark .lparen] ++
    (type ++ (word "args" :: mark .rparen :: braced (raiseBody m.backing)))))

theorem callPieces_lexemes (field indent newline : Text) :
    (callPieces field indent newline).map Prod.snd =
      word "args" :: mark .rparen :: braced (raiseBody field) := by
  simp [callPieces, braced, raiseBody]

/-- Where the type stands in the text of a method. -/
theorem RaiseMethod.drop_render (m : RaiseMethod) (indent newline z : Text) :
    (m.render indent newline).drop indent.length ++ z =
      (keyword .protectedKw).2 ++ spread [([' '], keyword .virtualKw)]
        ([' '] ++ (m.argumentType ++ spread [([' '], (.ident, m.name)), ([], mark .lparen)]
          ([] ++ (m.argumentType ++ spread (callPieces m.backing indent newline) z)))) := by
  simp [spread, callPieces, RaiseMethod.render, RaiseMethod.lines, List.intercalate, keyword, word,
    mark, sign, Keyword.text]

/-- The parts that a raise method takes from its event are scanned one by one: its type to tokens
that show `xs`, its name and its field to an identifier each. -/
structure RaiseMethod.Spelled (m : RaiseMethod) (xs : List Lexeme) : Prop where
  type : Scans m.argumentType xs
  name : isName m.name = true
  kind : wordKind m.name = .ident
  field : ∀ z : Text, (∀ d ∈ z.head?, isWordPart d = false) → Stands .ident m.backing z

section

variable {m : RaiseMethod} {xs : List Lexeme} {lead indent newline : Text} {fresh : Bool}

/-- The text of a method is scanned to its tokens, whatever follows it. -/
theorem scanFrom_method (h : m.Spelled xs) (hindent : ∀ c ∈ indent, isBlank c = true)
    (hnewline : ∀ c ∈ newline, isBlank c = true) {z : Text}
    (hlead : Trivia.extent fresh (lead ++ ((m.render indent newline).drop indent.length ++ z)) =
      lead.length) (offset : Nat) :
    ∃ ms offset',
      scanFrom fresh offset (lead ++ ((m.render indent newline).drop indent.length ++ z)) =
        ms ++ scanFrom false offset' z ∧
      ms.map bare = m.lexemes xs ∧
      Tree.joined ms = (m.render indent newline).drop indent.length ∧
      source ms = lead ++ (m.render indent newline).drop indent.length := by
  have hblank : ∀ c ∈ [' '], isBlank c = true := fun c hc => isBlank_of_mem_space hc
  have hnone : ∀ c ∈ ([] : Text), isBlank c = true := fun c hc => by cases hc
  -- the pieces between the two types, each in front of what it is followed by
  obtain ⟨tail, htail⟩ : ∃ tail, spread (callPieces m.backing indent newline) z = ' ' :: tail :=
    ⟨_, rfl⟩
  obtain ⟨rest, hrest⟩ : ∃ rest, spread [([' '], (.ident, m.name)), ([], mark .lparen)]
      ([] ++ (m.argumentType ++ ' ' :: tail)) = ' ' :: rest := ⟨_, rfl⟩
  have hvirtual : Chain [([' '], keyword .virtualKw)] ([' '] ++ (m.argumentType ++ ' ' :: rest)) :=
    ⟨hblank, stands_keyword _ (head_not_isWordPart (by decide) _), trivial⟩
  have hmiddle : Chain [([' '], (TokenKind.ident, m.name)), ([], mark .lparen)]
      ([] ++ (m.argumentType ++ ' ' :: tail)) := by
    refine ⟨hblank, ?_, hnone, stands_mark (by decide) _, trivial⟩
    rw [← h.kind]
    exact stands_word h.name (head_not_isWordPart (by decide) _)
  have hcall := chain_callPieces h.field hindent hnewline z
  have hrender := m.drop_render indent newline z
  rw [htail, hrest] at hrender
  -- the first word takes what stands in front of the method
  obtain ⟨c, u, hcu, -, hbreak, hlex⟩ := stands_keyword .protectedKw
    (z := spread [([' '], keyword .virtualKw)] ([' '] ++ (m.argumentType ++ ' ' :: rest)))
    (head_not_isWordPart (by decide) _)
  obtain rfl : 'p' = c := (List.cons.inj hcu).1
  rw [hcu] at hrender
  rw [hrender] at hlead
  have hfirst : ∀ o, scanFrom fresh o (lead ++ 'p' :: (u ++ _)) = _ :: scanFrom _ _ _ :=
    fun o => scanFrom_of_lexeme hlead hlex
  simp only [Trivia.freshAfter_eq_false fresh lead u 'p' (by decide) hbreak] at hfirst
  obtain ⟨vs, o₁, hv, hvbare, hvsource, -⟩ := scanFrom_spread hvirtual (List.cons_ne_nil _ _) false
    (offset + byteSize (lead ++ 'p' :: u))
  obtain ⟨gs, f₁, o₂, hg, hgbare, hgsource⟩ := h.type [' '] rest o₁ (Or.inr rfl)
  obtain ⟨ns, o₃, hn, hnbare, hnsource, -⟩ := scanFrom_spread hmiddle (List.cons_ne_nil _ _) f₁ o₂
  obtain ⟨gs', f₂, o₄, hg', hgbare', hgsource'⟩ := h.type [] tail o₃ (Or.inl rfl)
  obtain ⟨cs, o₅, hc, hcbare, hcsource, -⟩ := scanFrom_spread hcall (List.cons_ne_nil _ _) f₂ o₄
  have hjoined : 'p' :: u ++ source (vs ++ (gs ++ (ns ++ (gs' ++ cs)))) =
      (m.render indent newline).drop indent.length := by
    refine List.append_cancel_right (?_ : _ ++ z = _ ++ z)
    rw [hrender, hvsource, ← hrest, hnsource, ← htail, hcsource]
    simp only [source_append, hgsource, hgsource', List.append_assoc, List.cons_append]
  refine ⟨⟨(keyword .protectedKw).1, lead, 'p' :: u, offset + byteSize lead⟩ ::
    (vs ++ (gs ++ (ns ++ (gs' ++ cs)))), o₅, ?_, ?_, hjoined, ?_⟩
  · rw [hrender, List.cons_append, hfirst, hv, hg, ← hrest, hn, hg', ← htail, hc]
    simp only [List.append_assoc, List.cons_append]
  · rw [List.map_cons, List.map_append, List.map_append, List.map_append, List.map_append, hvbare,
      hgbare, hnbare, hgbare', hcbare, callPieces_lexemes, bare, ← hcu]
    rfl
  · rw [source_cons, ← hjoined, List.append_assoc]

end

/-! ## 4. The parts of the event -/

namespace Tree

theorem typeOf?_cons {type : Tree} (h : type.isTypeNode = true) (kind : NodeKind) (cs : List Tree) :
    Event.typeOf? (node kind (type :: cs)) = some type := by
  rw [Event.typeOf?, childNodes, children, List.filter_cons_of_pos (isNode_of_isTypeNode h)]
  exact List.find?_cons_of_pos h

/-- The type of an event is the one read behind its keyword. -/
theorem exists_type_of_event {keyword : Token} {ts after : List Token} {kind : NodeKind}
    {parts : List Tree} {e : Event}
    (h : event [] keyword ts = (node kind (leaf keyword :: parts), after))
    (he : Event.ofTree? (node kind (leaf keyword :: parts)) = some e) :
    ∃ type rest, typeName? ts = some (type, rest) ∧ rest ≠ [] ∧ e.elementType = .ofTree type := by
  rw [event_eq] at h
  cases ht : typeName? ts with
  -- without a type it is no event
  | none =>
    rw [ht] at h
    rw [← (node.inj (Prod.mk.inj h).1).1] at he
    cases he
  | some r =>
    obtain ⟨type, rest⟩ := r
    have htype := isTypeNode_typeName? ht
    rw [ht] at h
    dsimp only at h
    refine ⟨type, rest, rfl, ?_⟩
    cases hhead : accessorHead? rest with
    | some p =>
      obtain ⟨name, opening, mid⟩ := p
      rw [hhead] at h
      obtain ⟨rfl, hparts⟩ := node.inj (Prod.mk.inj h).1
      refine ⟨fun hnil => (by rw [hnil] at hhead; cases hhead), ?_⟩
      rw [← hparts] at he
      have haccessors : Event.ofAccessors? (node .eventDeclaration (leaf keyword :: type ::
        qualifier (qualifierExtent rest) rest ++ [leaf name, (accessorList opening mid).1])) =
          some e := he
      simp only [Event.ofAccessors?, Option.bind_eq_bind, Option.bind_eq_some_iff, Option.pure_def,
        Option.some.injEq] at haccessors
      obtain ⟨found, hfound, -, -, -, -, rfl⟩ := haccessors
      rw [← Option.some.inj ((typeOf?_cons htype .eventDeclaration _).symm.trans hfound)]
    | none =>
      rw [hhead] at h
      dsimp only at h
      have hnames := declarators_ne_nil htype (congrArg Prod.fst h) he
      refine ⟨fun hnil => hnames (by rw [hnil, declarators]), ?_⟩
      rw [fieldEvent_eq] at h
      rw [← (Prod.mk.inj h).1] at he
      have hfield : Event.ofField? (node .eventFieldDeclaration (leaf keyword ::
        node .variableDeclaration (type :: (declarators rest).1) :: _)) = some e := he
      simp only [Event.ofField?, Option.bind_eq_bind, Option.bind_eq_some_iff, Option.pure_def,
        Option.some.injEq] at hfield
      obtain ⟨declaration, hdecl, found, hfound, -, -, -, -, rfl⟩ := hfield
      rw [← Option.some.inj hdecl, typeOf?_cons htype] at hfound
      rw [← Option.some.inj hfound]

theorem exists_assigned {ts : List Token} {left : Tree} {field : Text} (h : PartOf ts left)
    (hf : Backing.assignedName? left = some field) :
    ∃ t ∈ ts, t.kind = .ident ∧ t.text = field := by
  have hleaves := h.leaves
  cases h.part with
  | leaf t => cases hf
  | @node k cs hk hname hne hcs =>
    unfold Backing.assignedName? at hf
    split at hf
    · -- a name alone
      rename_i name hkind hl
      obtain ⟨t, rfl, ht⟩ := hname.name (Option.some.inj hkind)
      obtain rfl : t = name := List.singleton_inj.1 hl
      exact ⟨t, hleaves List.mem_cons_self, ht, Option.some.inj hf⟩
    · -- a name behind `this` and a point
      rename_i this dot name hkind hl
      obtain ⟨t, us, rfl, hus⟩ := hname.access (Option.some.inj hkind)
      rw [leaves, leavesAll_map_leaf] at hl
      obtain ⟨rfl, rfl⟩ := List.cons.inj hl
      simp only [isMemberTail, Bool.and_eq_true, decide_eq_true_eq] at hus
      split at hf
      · have hmem : name ∈ ts := hleaves (by rw [leaves, leavesAll_map_leaf]; simp)
        exact ⟨name, hmem, hus.1.2, Option.some.inj hf⟩
      · cases hf
    · cases hf

theorem exists_accessorList {n : Tree} {e : Event} {add : Accessor} {remove : Option Accessor}
    (he : Event.ofTree? n = some e) (hs : e.shape = .accessorLike (some add) remove) :
    ∃ list, n.childNode? .accessorList = some list ∧ Event.accessorOf? list .add = some add := by
  unfold Event.ofTree? at he
  split at he
  · simp only [Event.ofField?, Option.bind_eq_bind, Option.bind_eq_some_iff, Option.pure_def,
      Option.some.injEq] at he
    obtain ⟨_, _, _, _, _, _, _, _, rfl⟩ := he
    cases hs
  · simp only [Event.ofAccessors?, Option.bind_eq_bind, Option.bind_eq_some_iff, Option.pure_def,
      Option.some.injEq] at he
    obtain ⟨_, _, _, _, list, hlist, rfl⟩ := he
    exact ⟨list, hlist, (EventShape.accessorLike.inj hs).1⟩
  · cases he

/-- The field that an event is raised with is one of its identifiers. -/
theorem exists_backing {n : Tree} {e : Event} {field : Text} (he : Event.ofTree? n = some e)
    (hparts : ∀ c ∈ n.children, IsPart c) (hf : e.backing = .ok field) :
    ∃ t ∈ n.leaves, t.kind = .ident ∧ t.text = field := by
  have hviews := Event.views_of_ofTree? he
  unfold Event.backing at hf
  split at hf
  · exact ⟨_, hviews.name, hviews.isName, Except.ok.inj hf⟩
  · cases hf
  · rename_i add remove hshape
    split at hf
    · rename_i assigned hassigned
      obtain rfl : assigned = field := Except.ok.inj hf
      obtain ⟨s, hs, hof⟩ := List.exists_of_findSome?_eq_some hassigned
      -- the statement is part of the event
      obtain ⟨list, hlist, hadd⟩ := exists_accessorList he hshape
      have hpart : PartOf n.leaves list :=
        ⟨hparts list (List.mem_of_find?_eq_some hlist),
          fun t ht => mem_leaves_of_childNode? hlist ht⟩
      have hread := Accessor.isRead_statements (Event.partOf_accessorOf? hpart hadd) s hs
      unfold Backing.ofStatement? at hof
      split at hof
      · split at hof
        · exact exists_assigned hread.1 hof
        · cases hof
      · cases hof
    · cases hf

end Tree

/-! ## 5. The method behind its event -/

/-- What a raise method takes from its event. -/
theorem Event.of_raiseMethod {e : Event} {m : RaiseMethod} (h : e.raiseMethod = .ok m) :
    m.name = RaiseMethod.nameFor e.name ∧ e.backing = .ok m.backing ∧
      ∃ generic, e.elementType = .generic generic m.argumentType := by
  unfold raiseMethod at h
  split at h
  · cases h
  obtain ⟨field, hfield, hbuild⟩ := exists_of_bind h
  have hbacking : e.backing = .ok field := by
    cases hb : e.backing with
    | error b =>
      rw [hb] at hfield
      cases hfield
    | ok f =>
      rw [hb] at hfield
      have hfield : (Except.ok f : Except FixError Text) = .ok field := hfield
      rw [Except.ok.inj hfield]
  cases ht : e.elementType with
  | other text =>
    rw [ht] at hbuild
    cases hbuild
  | generic generic argument =>
    rw [ht] at hbuild
    obtain rfl := Except.ok.inj hbuild
    exact ⟨rfl, hbacking, generic, rfl⟩

theorem ElementType.exists_singleArgument {type : Tree} {generic argument : Text}
    (h : ofTree type = .generic generic argument) :
    ∃ tree, singleArgument? type = some tree ∧ argument = tree.text := by
  unfold ofTree at h
  split at h
  · rename_i tree htree
    exact ⟨tree, htree, (ElementType.generic.inj h).2.symm⟩
  · cases h

theorem follows_comment {c : Text} (text y w : Text) (hc : c = [] ∨ IsLineComment c) :
    Follows (c ++ y) (c ++ (newline text ++ w)) := by
  rcases hc with rfl | ⟨b, u, rfl, hb, -⟩
  · rcases newline_cases text with hn | hn <;> rw [hn]
    · exact follows_blank _ (by decide) w
    · exact follows_blank _ (by decide) _
  · -- the comment starts with the same character
    cases b with
    | nil =>
      refine ⟨fun d hd => ?_, fun d hd halpha => ⟨d, hd, halpha⟩⟩
      rw [← Option.some.inj hd]
      decide
    | cons d b => exact follows_blank _ (hb d List.mem_cons_self) _

/-- Lines that are added behind a member leave its tokens as they are, and those in front of it. -/
theorem exists_scan_behind {text x z : Text} {n : Tree} {front us : List Token}
    (hscan : scan text = front ++ n.leaves ++ us) (hne : n.leaves ≠ [])
    (hclean : ∀ t ∈ (front ++ n.leaves).getLast?, t.kind.isClean = true) (htext : text = x ++ z)
    (hpoint : (Document.ofText text).insertionPoint n = byteSize x) :
    ∃ c fresh offset, x = source (front ++ n.leaves) ++ c ∧
      (c = [] ∨ IsLineComment c ∧ EndsLine z) ∧ ∀ w, scan (x ++ (newline text ++ w)) =
        front ++ n.leaves ++ scanFrom fresh offset (c ++ (newline text ++ w)) := by
  obtain ⟨rest, hsource, -⟩ := scan_source text
  have hstop := Document.spanOf_stop hscan hne
  generalize front ++ n.leaves = ts at hscan hclean hstop ⊢
  rw [hscan, source_append, List.append_assoc] at hsource
  obtain ⟨c, w', hc, hinsert, hends⟩ := Document.exists_insertionPoint hsource.symm hstop
  -- the text is cut in front of the comment, and again behind it
  obtain rfl : x = source ts ++ c := by
    rw [hpoint] at hinsert
    calc x = takeBytes (byteSize x) text := by rw [htext, takeBytes_append]
      _ = takeBytes (byteSize (source ts ++ c)) (source ts ++ c ++ w') := by
        rw [hinsert, ← hsource, hc, List.append_assoc]
      _ = source ts ++ c := takeBytes_append _ _
  obtain rfl : w' = z := by
    rw [htext, hc, ← List.append_assoc] at hsource
    exact List.append_cancel_left hsource
  have hcomment : c = [] ∨ IsLineComment c := hends.imp id And.left
  have hcont : ∀ w, Continues ts (source us ++ rest) (c ++ (newline text ++ w)) := by
    intro w
    refine ⟨?_, fun _ hslash => ?_, fun _ => hclean⟩
    · rw [hc]
      exact follows_comment text w' w hcomment
    · exact absurd (isSolid_source (show scanFrom true 0 text = ts ++ us from hscan) hclean hslash)
        (by decide)
  have hnew := fun w => scanFrom_append (hcont w) (by rw [hsource]; exact hscan)
  exact ⟨c, _, _, rfl, hends, fun w => by rw [List.append_assoc]; exact hnew w⟩

theorem RaiseMethod.indent_render (m : RaiseMethod) (indent newline : Text) :
    indent ++ (m.render indent newline).drop indent.length = m.render indent newline := by
  simp [render, lines, List.intercalate]

namespace Tree.EventPlace

variable {text x z indent : Text} {before behind : List Tree} {n : Tree} {e : Event}
  {m : RaiseMethod}

/-- The event without what stands in front of its keyword. -/
theorem exists_bare {ts : List Token} (p : EventPlace ts before n behind)
    (he : Event.ofTree? n = some e) :
    ∃ e₀, Event.ofTree? (node p.kind (leaf p.keyword :: p.parts)) = some e₀ ∧
      e = { e₀ with node := n, modifiers := p.mods } := by
  have hof : Event.ofTree? (node p.kind ((attributes p.member).1 ++ modifierList p.mods ++
      leaf p.keyword :: p.parts)) = _ :=
    ofTree?_front p.mods (fun c hc => isOf_of_mem_attributes hc) p.plain
  rw [← p.node_eq, he] at hof
  obtain ⟨e₀, he₀, rfl⟩ := Option.map_eq_some_iff.1 hof.symm
  exact ⟨e₀, he₀, rfl⟩

theorem isComplete_bare {ts : List Token} (p : EventPlace ts before n behind) :
    isComplete (node p.kind (leaf p.keyword :: p.parts)) = n.isComplete := by
  conv_rhs => rw [p.node_eq]
  exact (isComplete_of_isLead p.isLead _ _).symm

theorem front_leaves {ts : List Token} (p : EventPlace ts before n behind) :
    p.front ++ n.leaves = p.toKeyword ++ p.keyword :: leavesAll p.parts := by
  rw [p.leaves_eq, toKeyword]
  simp only [List.append_assoc]

theorem rest_eq {ts : List Token} (p : EventPlace ts before n behind) :
    p.rest = leavesAll p.parts ++ p.after :=
  leaves_event (p.children [])

theorem scan_eq {ts : List Token} (p : EventPlace ts before n behind) :
    ts = p.front ++ n.leaves ++ p.after := by
  rw [p.front_leaves, List.append_assoc, List.cons_append, ← p.rest_eq]
  exact p.tokens_eq

theorem member_leaves {ts : List Token} (p : EventPlace ts before n behind) :
    p.member = n.leaves ++ p.after :=
  List.append_cancel_left
    ((p.tokens.symm.trans p.scan_eq).trans (List.append_assoc p.front n.leaves p.after))

/-- A complete event ends with a semicolon or a brace. -/
theorem exists_last {ts : List Token} (p : EventPlace ts before n behind)
    (he : Event.ofTree? n = some e) (hc : n.isComplete = true) :
    ∃ a t, n.leaves = a ++ [t] ∧ (t.kind = .semicolon ∨ t.kind = .rbrace) := by
  obtain ⟨e₀, he₀, -⟩ := p.exists_bare he
  obtain ⟨c, t, hct, ht, -⟩ := exists_last_of_complete p.isKeyword (p.children [])
    (p.isComplete_bare.trans hc) he₀
  refine ⟨leavesAll (attributes p.member).1 ++ (p.mods ++ p.keyword :: c), t, ?_, ht⟩
  rw [p.leaves_eq, hct]
  simp only [List.append_assoc, List.cons_append]

/-- The type that a raise method takes stands in the event. -/
theorem exists_argument {ts : List Token} (p : EventPlace ts before n behind)
    (he : Event.ofTree? n = some e) (hm : e.raiseMethod = .ok m) :
    ∃ argument a b, Reread argument ∧ m.argumentType = argument.text ∧
      ts = a ++ argument.leaves ++ b ∧ argument.leaves ≠ [] ∧ b ≠ [] := by
  obtain ⟨e₀, he₀, rfl⟩ := p.exists_bare he
  obtain ⟨type, rest, htype, hrest, helement⟩ := exists_type_of_event (p.children []) he₀
  obtain ⟨-, -, generic, hgeneric⟩ := Event.of_raiseMethod hm
  obtain ⟨argument, hargument, htext⟩ :=
    ElementType.exists_singleArgument (helement.symm.trans hgeneric)
  obtain ⟨a, b, hab⟩ := Grammar.leaves_singleArgument? hargument
  have hread : Reread argument := argument_of_typeName? htype argument hargument
  -- read back from itself, a type has at least one token
  have hne : argument.leaves ≠ [] := by
    intro hnil
    have hself := hread [] rfl
    rw [hnil, List.append_nil, typeName?_nil] at hself
    cases hself
  have hleaves : p.rest = type.leaves ++ rest := by
    have hreads := (reads_typeName? htype).leaves
    rw [leavesAll, leavesAll, List.append_nil] at hreads
    exact hreads.symm
  refine ⟨argument, p.toKeyword ++ p.keyword :: a, b ++ rest, hread, htext, ?_, hne,
    by simp [hrest]⟩
  conv_lhs => rw [p.tokens_eq, hleaves, ← hab]
  simp only [List.append_assoc, List.cons_append]

/-- The type, the name and the field of a raise method are spelled as in the event, if the name of
the event does not start with `@`. -/
theorem exists_spelled (p : EventPlace (scan text) before n behind)
    (hn : n ∈ (Document.ofText text).root.preorder) (he : Event.ofTree? n = some e)
    (hm : e.raiseMethod = .ok m) (hname : e.name.head? ≠ some '@') :
    ∃ argument, Reread argument ∧ m.argumentType = argument.text ∧
      m.Spelled (argument.leaves.map bare) := by
  obtain ⟨argument, a, b, hread, hargument, hab, hne, hb⟩ := p.exists_argument he hm
  obtain ⟨hmname, hbacking, -⟩ := Event.of_raiseMethod hm
  have hviews := Event.views_of_ofTree? he
  have hmem : ∀ t ∈ n.leaves, t ∈ scan text := fun t ht => Document.mem_scan_of_mem_leaves hn ht
  refine ⟨argument, hread, hargument, ?_, ?_, ?_, ?_⟩
  · rw [hargument]
    exact scans_joined hab hne hb
  · rw [hmname]
    exact isName_nameFor (isWordPart_of_name (hmem _ hviews.name) hviews.isName hname)
  · rw [hmname]
    exact wordKind_nameFor _
  · have hparts := eventParts_ofTokens (scan text) n hn (by
      rw [hviews.kind, Option.any_some, Document.isEvent_nodeKind])
    obtain ⟨t, ht, hk, hft⟩ := exists_backing he hparts hbacking
    rw [← hft]
    exact fun w hw => stands_ident (hmem t ht) hk hw

/-- A method that is added behind a complete event is scanned to its own tokens. -/
theorem exists_scan_addition {xs : List Lexeme} (p : EventPlace (scan text) before n behind)
    (he : Event.ofTree? n = some e) (hc : n.isComplete = true) (hm : m.Spelled xs)
    (hindent : ∀ c ∈ indent, isBlank c = true) (htext : text = x ++ z)
    (hpoint : (Document.ofText text).insertionPoint n = byteSize x) :
    ∃ c ms us, x = source (p.front ++ n.leaves) ++ c ∧ (c = [] ∨ IsLineComment c ∧ EndsLine z) ∧
      scan (x ++ (newline text ++ newline text ++ m.render indent (newline text)) ++ z) =
        p.front ++ n.leaves ++ (ms ++ us) ∧
      ms.map bare = m.lexemes xs ∧
      joined ms = (m.render indent (newline text)).drop indent.length ∧
      source ms = c ++ (newline text ++ newline text ++ m.render indent (newline text)) := by
  have hlast : ∀ t ∈ (p.front ++ n.leaves).getLast?, t.kind.isClean = true := by
    obtain ⟨a, t, ha, ht⟩ := p.exists_last he hc
    rw [ha, ← List.append_assoc, List.getLast?_concat]
    rintro u ⟨rfl⟩
    rcases ht with ht | ht <;> rw [ht] <;> rfl
  have hleaves : n.leaves ≠ [] := List.ne_nil_of_mem p.keyword_mem
  obtain ⟨c, fresh, offset, hx, hends, hscan⟩ :=
    exists_scan_behind p.scan_eq hleaves hlast htext hpoint
  have hnewline : ∀ d ∈ newline text, isBlank d = true := fun d hd => isBlank_of_mem_newline hd
  -- the method starts with a word, which no trivia takes
  have hlead : Trivia.extent fresh (c ++ (newline text ++ newline text ++ indent) ++
      ((m.render indent (newline text)).drop indent.length ++ z)) =
      (c ++ (newline text ++ newline text ++ indent)).length := by
    rw [m.drop_render]
    exact Trivia.extent_comment_newline text (hends.imp id And.left) hindent
      (fun f => Trivia.extent_of_item?_eq_none (item?_of_isWordPart (Or.inl (by decide)) _)) fresh
  obtain ⟨ms, offset', hms, hbare, hjoined, hsource⟩ :=
    scanFrom_method hm hindent hnewline hlead offset
  refine ⟨c, ms, scanFrom false offset' z, hx, hends, ?_, hbare, hjoined, ?_⟩
  · have hnew := hscan (newline text ++ m.render indent (newline text) ++ z)
    conv at hnew => rhs; rw [← m.indent_render indent (newline text)]
    simp only [List.append_assoc] at hms hnew ⊢
    rw [hnew, hms]
  · rw [hsource]
    conv_rhs => rw [← m.indent_render indent (newline text)]
    simp only [List.append_assoc]

end Tree.EventPlace

end EventLint
