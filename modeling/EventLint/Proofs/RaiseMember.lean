import EventLint.Fix.Action
import EventLint.Proofs.Insertion
import EventLint.Proofs.ProgramReading

/-!
# Members that raise events

What extraction does to a program: a virtual event that can be raised loses `virtual` and gets a
member that raises it. Main statements: the text of a raise method is scanned to the tokens of that
member, and an event that was read says which method it needs.
-/

namespace EventLint

namespace Grammar

open Token

/-! ## 1. Extraction of programs -/

/-- No other event is declared together with this one. -/
def EventTail.isSingle : EventTail → Bool
  | names more => more.isEmpty
  | accessors _ _ => true

def EventMember.isVirtual (e : EventMember) : Bool :=
  e.modifiers.words.contains .virtualKw

/-- The type of the argument and the field that a method needs to raise an event. -/
def EventMember.raise? (e : EventMember) : Option (TypeName × Text) :=
  if e.tail.isSingle then
    match e.type.argument?, e.backing with
    | some argument, .ok field => some (argument, field)
    | _, _ => none
  else none

/-- The modifiers apart from `k`. -/
def Modifiers.erase (m : Modifiers) (k : Keyword) : Modifiers where
  words := m.words.erase k
  modifies :=
    List.all_eq_true.2 fun w hw => List.all_eq_true.1 m.modifies w (List.mem_of_mem_erase hw)
  distinct := m.distinct.erase k

/-- The same event, not virtual any more. -/
def EventMember.sealed (e : EventMember) : EventMember :=
  { e with modifiers := e.modifiers.erase .virtualKw }

/-- No word that is special in some place starts like the name of a raise method. -/
theorem ordinary_nameFor (event : Text) :
    (contextualWords.any fun w => w.toList = RaiseMethod.nameFor event) = false := by
  have hall : (contextualWords.all fun w => w.toList.head? ≠ some 'R') = true := by decide
  refine List.any_eq_false.2 fun w hw heq => ?_
  have hhead := of_decide_eq_true (List.all_eq_true.1 hall w hw)
  rw [of_decide_eq_true heq] at hhead
  exact hhead rfl

/-- The body of the method that raises the event of `field`. -/
def raiseBody (field : Text) : Balanced where
  lexemes := [(.ident, field), mark .questionDot, word "Invoke", mark .lparen, keyword .thisKw,
    mark .comma, word "args", mark .rparen, mark .semicolon, keyword .returnKw, word "args",
    mark .semicolon]
  nested :=
    have harguments : Nested Prod.fst [keyword .thisKw, mark .comma, word "args"] :=
      .plain rfl rfl (.plain rfl rfl (.plain rfl rfl .nil))
    have hreturn : Nested Prod.fst
        [mark .semicolon, keyword .returnKw, word "args", mark .semicolon] :=
      .plain rfl rfl (.plain rfl rfl (.plain rfl rfl (.plain rfl rfl .nil)))
    .plain rfl rfl (.plain rfl rfl (.plain rfl rfl
      (.group (Or.inl ⟨rfl, rfl⟩) harguments hreturn)))

/-- The member that raises an event. -/
def EventMember.raiser (e : EventMember) (argument : TypeName) (field : Text) : PlainMember where
  modifiers := ⟨[.protectedKw, .virtualKw], by decide, by decide⟩
  type := argument
  name := ⟨RaiseMethod.nameFor e.name.text, ordinary_nameFor _⟩
  tail := .method
    ⟨argument.lexemes ++ [word "args"],
      (typelike_typeName argument).nested.append (.plain rfl rfl .nil)⟩
    (raiseBody field)

/-- What extraction makes of an event. -/
def EventMember.extract (e : EventMember) : List Member :=
  match e.isVirtual, e.raise? with
  | true, some (argument, field) => [.event e.sealed, .plain (e.raiser argument field)]
  | _, _ => [.event e]

mutual

def Member.extract : Member → List Member
  | .type modifiers isStruct name members =>
    [.type modifiers isStruct name (Member.extractAll members)]
  | .event e => e.extract
  | .plain m => [.plain m]

def Member.extractAll : List Member → List Member
  | [] => []
  | m :: ms => m.extract ++ Member.extractAll ms

end

mutual

def Decl.extract : Decl → List Decl
  | .scope name decls => [.scope name (Program.extract decls)]
  | .member m => m.extract.map .member

/-- Every virtual event that can be raised loses `virtual` and is followed by a member that raises
it. -/
def Program.extract : List Decl → List Decl
  | [] => []
  | d :: ds => d.extract ++ Program.extract ds

end

/-- What extraction makes of an item. -/
def Item.extract : Item → List Item
  | .event e => e.extract.flatMap Member.items
  | x => [x]

theorem Member.itemsAll_append (a b : List Member) :
    Member.itemsAll (a ++ b) = Member.itemsAll a ++ Member.itemsAll b := by
  induction a with
  | nil => rfl
  | cons m a ih => rw [List.cons_append, Member.itemsAll, Member.itemsAll, ih, List.append_assoc]

theorem Member.itemsAll_eq (ms : List Member) : Member.itemsAll ms = ms.flatMap Member.items := by
  induction ms with
  | nil => rfl
  | cons m ms ih => rw [Member.itemsAll, ih, List.flatMap_cons]

theorem Program.items_eq (ds : List Decl) : Program.items ds = ds.flatMap Decl.items := by
  induction ds with
  | nil => rfl
  | cons d ds ih => rw [Program.items, ih, List.flatMap_cons]

mutual

theorem Member.items_extract (m : Member) :
    m.extract.flatMap Member.items = m.items.flatMap Item.extract := by
  cases m with
  | type modifiers isStruct name members =>
    rw [Member.extract, List.flatMap_singleton, Member.items, Member.items, List.flatMap_cons,
      List.flatMap_append, Member.itemsAll_extract members]
    rfl
  | event e => rw [Member.extract, Member.items, List.flatMap_singleton, Item.extract]
  | plain m =>
    rw [Member.extract, Member.items, List.flatMap_singleton, List.flatMap_singleton]
    rfl

theorem Member.itemsAll_extract (ms : List Member) :
    Member.itemsAll (Member.extractAll ms) = (Member.itemsAll ms).flatMap Item.extract := by
  cases ms with
  | nil => rfl
  | cons m ms =>
    rw [Member.extractAll, Member.itemsAll_append, Member.itemsAll, List.flatMap_append,
      Member.itemsAll_extract ms, Member.itemsAll_eq, Member.items_extract m]

end

mutual

theorem Decl.items_extract (d : Decl) :
    d.extract.flatMap Decl.items = d.items.flatMap Item.extract := by
  cases d with
  | scope name decls =>
    rw [Decl.extract, List.flatMap_singleton, Decl.items, Decl.items, List.flatMap_cons,
      List.flatMap_append, Program.items_extract decls]
    rfl
  | member m =>
    rw [Decl.extract, List.flatMap_map, Decl.items, ← Member.items_extract m]
    rfl

/-- Extraction of a program is extraction of its items. -/
theorem Program.items_extract (ds : List Decl) :
    Program.items (Program.extract ds) = (Program.items ds).flatMap Item.extract := by
  cases ds with
  | nil => rfl
  | cons d ds =>
    rw [Program.extract, Program.items_eq, List.flatMap_append, Decl.items_extract d,
      ← Program.items_eq (Program.extract ds), Program.items_extract ds, Program.items,
      List.flatMap_append]

end

/-! ## 2. The text of a raise method -/

/-- Lexemes as pieces, `gap` in front of the first and a blank in front of each other one. -/
def pieces (gap : Text) : List Lexeme → List Piece
  | [] => []
  | x :: xs => (gap, x) :: pieces [' '] xs

theorem pieces_lexemes (gap : Text) (xs : List Lexeme) : (pieces gap xs).map Prod.snd = xs := by
  induction xs generalizing gap with
  | nil => rfl
  | cons x xs ih => rw [pieces, List.map_cons, ih]

theorem spread_pieces (gap : Text) (xs : List Lexeme) (z : Text) :
    spread (pieces gap xs) z = spelled gap xs ++ z := by
  induction xs generalizing gap with
  | nil => rfl
  | cons x xs ih =>
    rw [pieces, spread_cons, ih, spelled]
    simp only [List.append_assoc]

theorem spelled_eq_append {gap : Text} {xs : List Lexeme} (h : xs ≠ []) :
    spelled gap xs = gap ++ print xs := by
  obtain ⟨x, xs, rfl⟩ := List.exists_cons_of_ne_nil h
  rw [print_eq_spelled, spelled, spelled, List.nil_append]

/-- Lexemes that are tokens in front of blanks make a chain with blanks between them. -/
theorem chain_pieces {gap z : Text} {xs : List Lexeme} (hgap : ∀ c ∈ gap, Text.isBlank c = true)
    (h : ∀ x ∈ xs, ∀ w, Stands x.1 x.2 (' ' :: w)) (hz : ∃ w, z = ' ' :: w) :
    Chain (pieces gap xs) z := by
  induction xs generalizing gap with
  | nil => exact trivial
  | cons x xs ih =>
    refine ⟨hgap, ?_, ih (fun c hc => Text.isBlank_of_mem_space hc)
      fun y hy => h y (List.mem_cons_of_mem x hy)⟩
    have hx := h x List.mem_cons_self
    cases xs with
    | nil =>
      obtain ⟨w, rfl⟩ := hz
      exact hx w
    | cons y xs => exact hx _

theorem TypeName.lexemes_ne_nil (type : TypeName) : type.lexemes ≠ [] := by
  rcases type with ⟨⟨name, _ | ⟨a, arguments⟩⟩, more, marks⟩ <;>
    simp [TypeName.lexemes, SimpleName.lexemes]

/-- The tokens of a raise method behind the type of its parameter. -/
def callPieces (field indent newline : Text) : List Piece :=
  let inner := indent ++ RaiseMethod.indentStep indent
  [([' '], word "args"), ([], mark .rparen), (newline ++ indent, mark .lbrace),
    (newline ++ inner, (.ident, field)), ([], mark .questionDot), ([], word "Invoke"),
    ([], mark .lparen), ([], keyword .thisKw), ([], mark .comma), ([' '], word "args"),
    ([], mark .rparen), ([], mark .semicolon), (newline ++ inner, keyword .returnKw),
    ([' '], word "args"), ([], mark .semicolon), (newline ++ indent, mark .rbrace)]

/-- The pieces of a raise method behind two line breaks. -/
def raisePieces (name field : Text) (argument : TypeName) (indent newline : Text) : List Piece :=
  [(newline ++ newline ++ indent, keyword .protectedKw), ([' '], keyword .virtualKw)] ++
    (pieces [' '] argument.lexemes ++
      ([([' '], (.ident, name)), ([], mark .lparen)] ++
        (pieces [] argument.lexemes ++ callPieces field indent newline)))

theorem spread_raisePieces (name field : Text) (argument : TypeName) (indent newline z : Text) :
    spread (raisePieces name field argument indent newline) z =
      newline ++ newline ++
        RaiseMethod.render ⟨name, field, print argument.lexemes⟩ indent newline ++ z := by
  rw [raisePieces]
  simp only [spread_append, spread_pieces, spelled_eq_append argument.lexemes_ne_nil]
  simp [spread, callPieces, RaiseMethod.render, RaiseMethod.lines, List.intercalate, keyword, word,
    mark, sign, Keyword.text]

theorem raisePieces_lexemes (e : EventMember) (argument : TypeName) (field indent newline : Text) :
    (raisePieces (RaiseMethod.nameFor e.name.text) field argument indent newline).map Prod.snd =
      (e.raiser argument field).lexemes := by
  simp [raisePieces, callPieces, pieces_lexemes, EventMember.raiser, PlainMember.lexemes,
    Modifiers.lexemes, PlainTail.lexemes, braced, raiseBody, Ident.lexeme]

theorem stands_keyword (k : Keyword) {z : Text} (hz : ∀ d ∈ z.head?, Text.isWordPart d = false) :
    Stands (keyword k).1 (keyword k).2 z := by
  have hname : isName k.text.toList = true := by cases k <;> decide
  have hkind : wordKind k.text.toList = .keyword k := by
    rw [wordKind, Keyword.ofText?_text]
  rw [keyword, ← hkind]
  exact stands_word hname hz

theorem head_not_isWordPart {c : Char} (hc : Text.isWordPart c = false) (w : Text) :
    ∀ d ∈ (c :: w).head?, Text.isWordPart d = false := by
  intro d hd
  rwa [← Option.some.inj hd]

section

variable {field indent newline : Text}

theorem chain_callPieces
    (hfield : ∀ z : Text, (∀ d ∈ z.head?, Text.isWordPart d = false) → Stands .ident field z)
    (hindent : ∀ c ∈ indent, Text.isBlank c = true)
    (hnewline : ∀ c ∈ newline, Text.isBlank c = true) (z : Text) :
    Chain (callPieces field indent newline) z := by
  -- all gaps are blanks, and no word is followed by a part of one
  have hline : ∀ c ∈ newline ++ indent, Text.isBlank c = true :=
    fun c hc => (List.mem_append.1 hc).elim (hnewline c) (hindent c)
  have hinner : ∀ c ∈ newline ++ (indent ++ RaiseMethod.indentStep indent),
      Text.isBlank c = true := by
    rw [← List.append_assoc]
    exact fun c hc =>
      (List.mem_append.1 hc).elim (hline c) RaiseMethod.isBlank_of_mem_indentStep
  have hnone : ∀ c ∈ ([] : Text), Text.isBlank c = true := fun c hc => by cases hc
  have hblank : ∀ c ∈ [' '], Text.isBlank c = true := fun c hc => Text.isBlank_of_mem_space hc
  have hword : ∀ (s : String) {z : Text}, isName s.toList = true → wordKind s.toList = .ident →
      (∀ d ∈ z.head?, Text.isWordPart d = false) → Stands (word s).1 (word s).2 z := by
    intro s z hs hk hz
    rw [word, ← hk]
    exact stands_word hs hz
  have hargs := @hword "args"
  have hnext : ∀ {c : Char}, Text.isWordPart c = false → ∀ w : Text,
      ∀ d ∈ (c :: w).head?, Text.isWordPart d = false := head_not_isWordPart
  -- piece by piece, each with its gap
  exact ⟨hblank, hargs (by decide) (by decide) (hnext (by decide) _),
    hnone, stands_mark (by decide) _, hline, stands_mark (by decide) _,
    hinner, hfield _ (hnext (by decide) _), hnone, stands_mark (by decide) _,
    hnone, hword _ (by decide) (by decide) (hnext (by decide) _),
    hnone, stands_mark (by decide) _, hnone, stands_keyword _ (hnext (by decide) _),
    hnone, stands_mark (by decide) _, hblank, hargs (by decide) (by decide) (hnext (by decide) _),
    hnone, stands_mark (by decide) _, hnone, stands_mark (by decide) _,
    hinner, stands_keyword _ (hnext (by decide) _),
    hblank, hargs (by decide) (by decide) (hnext (by decide) _), hnone, stands_mark (by decide) _,
    hline, stands_mark (by decide) _, trivial⟩

/-- The text of a raise method is a chain of tokens. -/
theorem chain_raisePieces {name : Text} {argument : TypeName}
    (hname : isName name = true) (hkind : wordKind name = .ident)
    (hfield : ∀ z : Text, (∀ d ∈ z.head?, Text.isWordPart d = false) → Stands .ident field z)
    (hargument : ∀ x ∈ argument.lexemes, ∀ w, Stands x.1 x.2 (' ' :: w))
    (hindent : ∀ c ∈ indent, Text.isBlank c = true)
    (hnewline : ∀ c ∈ newline, Text.isBlank c = true) (z : Text) :
    Chain (raisePieces name field argument indent newline) z := by
  have hfirst : ∀ c ∈ newline ++ newline ++ indent, Text.isBlank c = true := fun c hc =>
    (List.mem_append.1 hc).elim
      (fun hc => (List.mem_append.1 hc).elim (hnewline c) (hnewline c)) (hindent c)
  have hnone : ∀ c ∈ ([] : Text), Text.isBlank c = true := fun c hc => by cases hc
  have hblank : ∀ c ∈ [' '], Text.isBlank c = true := fun c hc => Text.isBlank_of_mem_space hc
  -- the type stands twice in the method, so the pieces are cut around it
  rw [raisePieces]
  refine Chain.append ⟨hfirst, ?_, hblank, ?_, trivial⟩
    (Chain.append (chain_pieces hblank hargument ⟨_, rfl⟩)
      (Chain.append ⟨hblank, ?_, hnone, stands_mark (by decide) _, trivial⟩
        (Chain.append (chain_pieces hnone hargument ⟨_, rfl⟩)
          (chain_callPieces hfield hindent hnewline z))))
  · exact stands_keyword _ (head_not_isWordPart (by decide) _)
  · refine stands_keyword _ ?_
    rw [spread_append, spread_pieces, spelled_eq_append argument.lexemes_ne_nil]
    exact head_not_isWordPart (by decide) _
  · rw [← hkind]
    exact stands_word hname (head_not_isWordPart (by decide) _)

end

/-! ## 3. The method of an event -/

/-- A name that is not quoted is a word. -/
theorem isWordPart_of_name {text : Text} {t : Token} (ht : t ∈ scan text) (hk : t.kind = .ident)
    (hat : t.text.head? ≠ some '@') : ∀ d ∈ t.text, Text.isWordPart d = true := by
  obtain ⟨c, u, w, htext, hl⟩ := exists_lexeme rfl ht
  rw [hk] at hl
  rw [htext] at hat ⊢
  intro d hd
  rcases List.mem_cons.1 hd with rfl | hd
  · refine (isWordPart_of_ident hl List.mem_cons_self).resolve_left fun h => hat ?_
    rw [h]
    rfl
  · obtain ⟨hm, -⟩ := ident_of_lexeme hl
    have hd : d ∈ (u ++ w).take (wordExtent (u ++ w)) := by
      rwa [← hm, List.take_left]
    exact isWordPart_of_mem_take hd

theorem isName_nameFor {event : Text} (h : ∀ d ∈ event, Text.isWordPart d = true) :
    isName (RaiseMethod.nameFor event) = true := by
  have hrest : ∀ d ∈ (if "On".toList.isPrefixOf event then event.drop 2 else event),
      Text.isWordPart d = true := by
    intro d hd
    split at hd
    · exact h d (List.mem_of_mem_drop hd)
    · exact h d hd
  rw [RaiseMethod.nameFor, show "Raise".toList = 'R' :: "aise".toList from rfl, List.cons_append,
    isName, List.all_append, List.all_eq_true.2 hrest]
  decide

theorem wordKind_nameFor (event : Text) : wordKind (RaiseMethod.nameFor event) = .ident := by
  have hall : (Keyword.all.all fun k => k.text.toList.head? ≠ some 'R') = true := by decide
  have hnone : Keyword.ofText? (RaiseMethod.nameFor event) = none := by
    refine List.find?_eq_none.2 fun k hk heq => ?_
    have hhead := of_decide_eq_true (List.all_eq_true.1 hall k hk)
    rw [of_decide_eq_true heq] at hhead
    exact hhead rfl
  rw [wordKind, hnone]

/-- The field that an event is raised with is one of its tokens. -/
theorem mem_lexemes_of_backing {e : EventMember} {field : Text} (h : e.backing = .ok field) :
    (TokenKind.ident, field) ∈ e.lexemes := by
  have hstmt : ∀ {s : Stmt}, s.backing? = some field → (TokenKind.ident, field) ∈ s.lexemes := by
    intro s hs
    cases s with
    | call name arguments => cases hs
    | assign a =>
      rw [Stmt.backing?] at hs
      split at hs
      · rw [← Option.some.inj hs, Stmt.lexemes, Stmt.expression, Assign.lexemes, Assign.left]
        split <;> simp [Ident.lexeme]
      · cases hs
  have hbody : ∀ {b : Body}, b.backing? = some field → (TokenKind.ident, field) ∈ b.lexemes := by
    intro b hb
    cases b with
    | block statements =>
      obtain ⟨s, hs, hsb⟩ := List.exists_of_findSome?_eq_some hb
      rw [Body.lexemes]
      exact List.mem_cons_of_mem _ (List.mem_append_left _
        (List.mem_flatMap.2 ⟨s, hs, hstmt hsb⟩))
    | arrow a =>
      rw [Body.lexemes]
      exact List.mem_cons_of_mem _ (hstmt (s := .assign a) hb)
  -- the field is the event itself, or assigned to in its `add` accessor
  rw [EventMember.backing] at h
  rw [EventMember.lexemes]
  refine List.mem_append_right _ (List.mem_cons_of_mem _ (List.mem_append_right _ ?_))
  split at h
  · rw [← Except.ok.inj h]
    exact List.mem_cons_self
  · rename_i add remove htail
    split at h
    · rename_i x hx
      rw [Except.ok.inj h] at hx
      rw [htail, EventTail.lexemes]
      exact List.mem_cons_of_mem _ (List.mem_cons_of_mem _ (List.mem_cons_of_mem _
        (List.mem_append_left _ (hbody hx))))
    · cases h

/-- An event that was read has the method that was meant for it, or none. -/
theorem EventMember.Recovered.raiseMethod_eq {e : EventMember} {n : Tree} {event : Event}
    (h : e.Recovered n event) (hview : event.view = e.view) :
    event.raiseMethod.toOption = e.raise?.map fun (argument, field) =>
      ⟨RaiseMethod.nameFor e.name.text, field, print argument.lexemes⟩ := by
  -- the fix counts declarators, the grammar asks whether there is one name
  have hcount : (1 < event.declaratorCount) ↔ e.tail.isSingle = false := by
    have hshape := h.shape
    rw [Event.declaratorCount]
    cases hs : event.shape with
    | fieldLike declarators =>
      rw [hs] at hshape
      cases htail : e.tail with
      | accessors add remove =>
        rw [htail] at hshape
        cases hshape
      | names more =>
        rw [htail] at hshape
        have hlen := congrArg List.length (ShapeView.fieldLike.inj hshape)
        simp only [List.length_map, List.length_cons] at hlen
        dsimp only [EventTail.isSingle]
        rw [hlen]
        cases more <;> simp
    | accessorLike add remove =>
      rw [hs] at hshape
      cases htail : e.tail with
      | names more =>
        rw [htail] at hshape
        cases hshape
      | accessors add remove => simp [EventTail.isSingle]
  have htype : event.elementType = e.type.elementType := congrArg EventView.elementType hview
  rw [Event.raiseMethod, EventMember.raise?, h.backing_eq, h.text, htype, TypeName.elementType]
  cases hsingle : e.tail.isSingle with
  | false =>
    rw [if_pos (hcount.2 hsingle)]
    rfl
  | true =>
    have hone : ¬ 1 < event.declaratorCount := by
      rw [hcount, hsingle]
      decide
    rw [if_neg hone]
    cases e.backing <;> cases e.type.argument? <;> rfl

end Grammar

end EventLint
