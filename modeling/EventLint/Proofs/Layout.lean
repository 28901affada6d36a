import EventLint.Diagnostic
import EventLint.Event.Backing
import EventLint.Proofs.Descendants
import EventLint.Proofs.Relabel
import EventLint.Proofs.Removal

/-!
# Layout does not matter

Two texts with the same tokens may differ in blanks, comments, directive lines and line breaks.
Main statement: they have the same tree apart from where tokens stand and what stands in front of
them, the same events in the same order, and the same findings.
-/

namespace EventLint

/-! ## 1. Trees without layout -/

/-- Forgets where tokens stand and what stands in front of them. -/
def Relabelling.plain : Relabelling where
  apply t := { t with leading := [], start := 0 }
  kind_apply _ := rfl
  text_apply _ := rfl

namespace Tree

/-- The tree without layout. -/
def plain (t : Tree) : Tree :=
  t.map .plain

/-- Tokens of the same kinds and texts are the same without layout. -/
theorem map_plain_eq {ts us : List Token} (h : ts.map Token.bare = us.map Token.bare) :
    ts.map Relabelling.plain.apply = us.map Relabelling.plain.apply := by
  have happly : Relabelling.plain.apply =
      (fun x : TokenKind × Text => (⟨x.1, [], x.2, 0⟩ : Token)) ∘ Token.bare := rfl
  rw [happly, ← List.map_map, h, List.map_map]

mutual

theorem map_plain_plain (t : Tree) : (t.map .plain).map .plain = t.map .plain := by
  cases t with
  | leaf u => rw [map_leaf, map_leaf]; rfl
  | node k cs => rw [map_node, map_node, mapAll_plain_plain cs]

theorem mapAll_plain_plain (cs : List Tree) :
    (cs.map (map .plain)).map (map .plain) = cs.map (map .plain) := by
  cases cs with
  | nil => rfl
  | cons c cs =>
    rw [List.map_cons, List.map_cons, map_plain_plain c, mapAll_plain_plain cs]

end

section

variable (f : Relabelling)

@[simp] theorem children_map (t : Tree) : (t.map f).children = t.children.map (map f) := by
  cases t <;> simp [children]

@[simp] theorem nodeKind?_map (t : Tree) : (t.map f).nodeKind? = t.nodeKind? := by
  cases t <;> simp [nodeKind?]

@[simp] theorem isOf_map (k : NodeKind) (t : Tree) : (t.map f).isOf k = t.isOf k := by
  simp [isOf]

@[simp] theorem isNode_map (t : Tree) : (t.map f).isNode = t.isNode := by
  cases t <;> simp [isNode]

@[simp] theorem token?_map (t : Tree) : (t.map f).token? = t.token?.map f.apply := by
  cases t <;> simp [token?]

@[simp] theorem childNodes_map (t : Tree) : (t.map f).childNodes = t.childNodes.map (map f) := by
  simp [childNodes, List.filter_map, Function.comp_def]

@[simp] theorem childTokens_map (t : Tree) :
    (t.map f).childTokens = t.childTokens.map f.apply := by
  simp [childTokens, List.filterMap_map, List.map_filterMap]

@[simp] theorem childNode?_map (t : Tree) (k : NodeKind) :
    (t.map f).childNode? k = (t.childNode? k).map (map f) := by
  simp [childNode?, List.find?_map, Function.comp_def]

@[simp] theorem childToken?_map (t : Tree) (k : TokenKind) :
    (t.map f).childToken? k = (t.childToken? k).map f.apply := by
  simp [childToken?, List.find?_map, Function.comp_def]

mutual

theorem leaves_map (t : Tree) : (t.map f).leaves = t.leaves.map f.apply := by
  cases t with
  | leaf u => simp [leaves]
  | node k cs => simpa [leaves] using leavesAll_map cs

theorem leavesAll_map (cs : List Tree) :
    leavesAll (cs.map (map f)) = (leavesAll cs).map f.apply := by
  cases cs with
  | nil => rfl
  | cons c cs => simp [leavesAll, leaves_map c, leavesAll_map cs]

end

mutual

theorem preorder_map (t : Tree) : (t.map f).preorder = t.preorder.map (map f) := by
  cases t with
  | leaf u => simp [preorder]
  | node k cs => simpa [preorder] using preorderAll_map cs

theorem preorderAll_map (cs : List Tree) :
    preorderAll (cs.map (map f)) = (preorderAll cs).map (map f) := by
  cases cs with
  | nil => rfl
  | cons c cs => simp [preorderAll, preorder_map c, preorderAll_map cs]

end

end

/-- A name is one token, so its text does not depend on the layout. -/
theorem IsPart.text_map (f : Relabelling) {t : Tree} (h : IsPart t)
    (hname : t.isOf .identifierName = true) : (t.map f).text = t.text := by
  cases h with
  | leaf u => cases hname
  | node hk hone hne hcs =>
    obtain ⟨u, rfl, -⟩ := hone.name (by simpa [isOf, nodeKind?] using hname)
    simp [text, leaves, leavesAll, joined]

theorem IsPart.child {t c : Tree} (h : IsPart t) (hc : c ∈ t.children) : IsPart c := by
  cases h with
  | leaf u => cases hc
  | node hk hone hne hcs => exact hcs c hc

/-- The tree is a part that was read from some of the tokens. -/
structure PartOf (ts : List Token) (t : Tree) : Prop where
  part : IsPart t
  leaves : t.leaves ⊆ ts

theorem PartOf.of_mem_childNodes {ts : List Token} {t c : Tree} (h : PartOf ts t)
    (hc : c ∈ t.childNodes) : PartOf ts c :=
  ⟨h.part.child (List.mem_of_mem_filter hc),
    fun _ hu => h.leaves (mem_leaves_of_mem_childNodes hc hu)⟩

theorem PartOf.of_childNode? {ts : List Token} {t c : Tree} {k : NodeKind} (h : PartOf ts t)
    (hc : t.childNode? k = some c) : PartOf ts c :=
  ⟨h.part.child (List.mem_of_find?_eq_some hc),
    fun _ hu => h.leaves (mem_leaves_of_childNode? hc hu)⟩

end Tree

/-! ## 2. Events without layout -/

section

variable (f : Relabelling)

namespace ElementType

theorem genericName?_map (type : Tree) :
    genericName? (type.map f) = (genericName? type).map (Tree.map f) := by
  unfold genericName?
  rw [Tree.nodeKind?_map, Tree.childNodes_map, List.getLast?_map]
  split
  · rfl
  · cases type.childNodes.getLast? with
    | none => rfl
    | some c => cases hc : c.isOf .genericName <;> simp [Option.filter, hc]
  · rfl

theorem singleArgument?_map (type : Tree) :
    singleArgument? (type.map f) = (singleArgument? type).map (Tree.map f) := by
  unfold singleArgument?
  rw [genericName?_map]
  cases genericName? type with
  | none => rfl
  | some name =>
    simp only [Option.map_some, Option.bind_eq_bind, Option.bind_some, Tree.childNode?_map]
    cases name.childNode? .typeArgumentList with
    | none => rfl
    | some arguments =>
      simp only [Option.map_some, Option.bind_some, Tree.childNodes_map]
      rcases arguments.childNodes with _ | ⟨a, _ | ⟨b, more⟩⟩ <;> rfl

/-- The type is generic with one argument. -/
def isGeneric : ElementType → Bool
  | generic _ _ => true
  | other _ => false

theorem isGeneric_ofTree (type : Tree) :
    (ofTree type).isGeneric = (singleArgument? type).isSome := by
  unfold ofTree
  cases singleArgument? type <;> rfl

theorem isGeneric_map (type : Tree) :
    (ofTree (type.map f)).isGeneric = (ofTree type).isGeneric := by
  rw [isGeneric_ofTree, isGeneric_ofTree, singleArgument?_map, Option.isSome_map]

end ElementType

def Statement.map : Statement → Statement
  | assignment left op right => assignment (left.map f) op (right.map f)
  | other node => other (node.map f)

def Accessor.map (a : Accessor) : Accessor :=
  ⟨a.kind, a.node.map f⟩

def EventShape.map : EventShape → EventShape
  | fieldLike declarators => fieldLike (declarators.map (Tree.map f))
  | accessorLike add remove =>
    accessorLike (add.map (Accessor.map f)) (remove.map (Accessor.map f))

theorem Statement.ofExpression_map (e : Tree) :
    ofExpression (e.map f) = (ofExpression e).map f := by
  unfold ofExpression
  rw [Tree.isOf_map, Tree.childNodes_map, Tree.childTokens_map, List.map_map,
    show (fun t : Token => t.kind) ∘ f.apply = fun t => t.kind from funext f.kind_apply]
  split
  · rcases e.childNodes with _ | ⟨left, _ | ⟨right, more⟩⟩
    · rfl
    · rfl
    · cases (e.childTokens.map fun t => t.kind).find? TokenKind.isAssignment <;> rfl
  · rfl

theorem Statement.ofTree_map (s : Tree) : ofTree (s.map f) = (ofTree s).map f := by
  unfold ofTree
  rw [Tree.isOf_map, Tree.childNodes_map]
  split
  · cases s.childNodes with
    | nil => rfl
    | cons e more => exact ofExpression_map f e
  · rfl

theorem Accessor.statements_map (a : Accessor) :
    (a.map f).statements = a.statements.map (Statement.map f) := by
  unfold statements
  rw [show (a.map f).node = a.node.map f from rfl, Tree.childNode?_map, Tree.childNode?_map]
  cases a.node.childNode? .block with
  | some block =>
    simp only [Option.map_some, Tree.childNodes_map, List.map_map]
    exact List.map_congr_left fun s _ => Statement.ofTree_map f s
  | none =>
    cases a.node.childNode? .arrowExpressionClause with
    | some clause =>
      simp only [Option.map_some, Option.map_none, Tree.childNodes_map, ← List.map_take,
        List.map_map]
      exact List.map_congr_left fun e _ => Statement.ofExpression_map f e
    | none => rfl

end

/-- What a statement is made of was read from some of the tokens. -/
def Statement.IsRead (ts : List Token) : Statement → Prop
  | assignment left _ right => Tree.PartOf ts left ∧ Tree.PartOf ts right
  | other _ => True

theorem Statement.isRead_ofExpression {ts : List Token} {e : Tree} (h : Tree.PartOf ts e) :
    (ofExpression e).IsRead ts := by
  unfold ofExpression
  split
  · split
    · rename_i left right more op hnodes hop
      exact ⟨h.of_mem_childNodes (by rw [hnodes]; simp), h.of_mem_childNodes (by rw [hnodes]; simp)⟩
    · exact trivial
  · exact trivial

theorem Statement.isRead_ofTree {ts : List Token} {s : Tree} (h : Tree.PartOf ts s) :
    (ofTree s).IsRead ts := by
  unfold ofTree
  split
  · split
    · rename_i e more hnodes
      exact isRead_ofExpression (h.of_mem_childNodes (by rw [hnodes]; exact List.mem_cons_self))
    · exact trivial
  · exact trivial

theorem Accessor.isRead_statements {ts : List Token} {a : Accessor} (h : Tree.PartOf ts a.node) :
    ∀ s ∈ a.statements, s.IsRead ts := by
  intro s hs
  unfold statements at hs
  split at hs
  · rename_i block hblock
    obtain ⟨c, hc, rfl⟩ := List.mem_map.1 hs
    exact Statement.isRead_ofTree ((h.of_childNode? hblock).of_mem_childNodes hc)
  · split at hs
    · rename_i clause hclause
      obtain ⟨c, hc, rfl⟩ := List.mem_map.1 hs
      exact Statement.isRead_ofExpression
        ((h.of_childNode? hclause).of_mem_childNodes (List.mem_of_mem_take hc))
    · cases hs

namespace Backing

variable (f : Relabelling)

theorem isValue_map {t : Tree} (h : Tree.IsPart t) : isValue (t.map f) = isValue t := by
  unfold isValue
  rw [Tree.isOf_map]
  cases hname : t.isOf .identifierName with
  | false => rfl
  | true => rw [h.text_map f hname]

theorem assignedName?_map (left : Tree) : assignedName? (left.map f) = assignedName? left := by
  unfold assignedName?
  rw [Tree.nodeKind?_map, Tree.leaves_map]
  rcases left.leaves with _ | ⟨a, _ | ⟨b, _ | ⟨c, _ | ⟨d, more⟩⟩⟩⟩ <;>
    rcases left.nodeKind? with _ | k <;> first | rfl | (cases k <;> simp)

theorem ofStatement?_map {ts : List Token} {s : Statement} (h : s.IsRead ts) :
    ofStatement? (s.map f) = ofStatement? s := by
  cases s with
  | other node => rfl
  | assignment left op right =>
    cases op <;> first | rfl | simp only [Statement.map, ofStatement?, isValue_map f h.2.part,
      assignedName?_map]

end Backing

theorem EventShape.map_plain_plain (s : EventShape) : (s.map .plain).map .plain = s.map .plain := by
  have haccessor : ∀ a : Accessor, (a.map .plain).map .plain = a.map .plain := fun a => by
    rw [Accessor.map, Accessor.map, Tree.map_plain_plain]
  cases s with
  | fieldLike declarators => simp [map, Function.comp_def, Tree.map_plain_plain]
  | accessorLike add remove => simp [map, Function.comp_def, haccessor]

/-- What an event says apart from layout. -/
structure Event.Outline where
  shape : EventShape
  name : Text
  modifiers : List (TokenKind × Text)
  isVirtual : Bool
  declaratorCount : Nat
  isGeneric : Bool
  backing : Except BackingError Text

namespace Event

def outline (e : Event) : Outline where
  shape := e.shape.map .plain
  name := e.name
  modifiers := e.modifiers.map Token.bare
  isVirtual := e.isVirtual
  declaratorCount := e.declaratorCount
  isGeneric := e.elementType.isGeneric
  backing := e.backing

/-- The two events differ in layout only. -/
structure Alike (e e' : Event) : Prop where
  name : e'.nameToken = Relabelling.plain.apply e.nameToken
  type : e'.elementType.isGeneric = e.elementType.isGeneric
  modifiers : e'.modifiers = e.modifiers.map Relabelling.plain.apply
  shape : e'.shape = e.shape.map .plain
  add : ∀ add remove, e.shape = .accessorLike (some add) remove →
    Tree.PartOf add.node.leaves add.node

theorem Alike.outline_eq {e e' : Event} (h : Alike e e') : e'.outline = e.outline := by
  have hname : e'.name = e.name := by
    rw [Event.name, Event.name, h.name, Relabelling.text_apply]
  have hvirtual : e'.isVirtual = e.isVirtual := by
    simp [isVirtual, modifier?, h.modifiers, List.find?_map, Function.comp_def]
  have hcount : e'.declaratorCount = e.declaratorCount := by
    unfold declaratorCount
    rw [h.shape]
    cases e.shape <;> simp [EventShape.map]
  -- what backs the event is searched in the statements of `add`, each of which the reader made
  have hbacking : e'.backing = e.backing := by
    unfold backing
    rw [h.shape, hname]
    cases hs : e.shape with
    | fieldLike declarators => rfl
    | accessorLike add remove =>
      cases add with
      | none => rfl
      | some add =>
        have hread := Accessor.isRead_statements (h.add add remove hs)
        have hsame : (add.map .plain).statements.findSome? Backing.ofStatement? =
            add.statements.findSome? Backing.ofStatement? := by
          rw [Accessor.statements_map, List.findSome?_map, ← List.head?_filterMap,
            ← List.head?_filterMap]
          exact congrArg List.head?
            (List.filterMap_congr fun s hs => Backing.ofStatement?_map _ (hread s hs))
        simp only [EventShape.map, Option.map_some, hsame]
  simp only [outline, hname, hvirtual, hcount, hbacking, h.type, h.shape, h.modifiers]
  simp [EventShape.map_plain_plain, Token.bare]

section

variable (f : Relabelling)

theorem modifiersOf_map (member : Tree) :
    modifiersOf (member.map f) = (modifiersOf member).map f.apply := by
  unfold modifiersOf
  rw [Tree.childNode?_map]
  cases member.childNode? .modifierList <;> simp

theorem typeOf?_map (declaration : Tree) :
    typeOf? (declaration.map f) = (typeOf? declaration).map (Tree.map f) := by
  simp [typeOf?, List.find?_map, Function.comp_def]

theorem accessorOf?_map (list : Tree) (kind : AccessorKind) :
    accessorOf? (list.map f) kind = (accessorOf? list kind).map (Accessor.map f) := by
  simp [accessorOf?, List.find?_map, Function.comp_def, Accessor.map, Option.any_map]

/-- What the rules look at in an event: its shape, its name and its modifiers. -/
def face (e : Event) : Rule × Token × List Token :=
  (.ofShape e.shape, e.nameToken, e.modifiers)

theorem face_ofField?_map (n : Tree) :
    (ofField? (n.map f)).map face =
      (ofField? n).map fun e =>
        (.ofShape e.shape, f.apply e.nameToken, e.modifiers.map f.apply) := by
  simp only [ofField?, Option.bind_eq_bind, Tree.childNode?_map]
  cases n.childNode? .variableDeclaration with
  | none => rfl
  | some declaration =>
    simp only [Option.map_some, Option.bind_some, typeOf?_map, Tree.childNodes_map, List.filter_map,
      Function.comp_def, Tree.isOf_map, List.head?_map]
    cases typeOf? declaration with
    | none => rfl
    | some type =>
      simp only [Option.map_some, Option.bind_some]
      cases (declaration.childNodes.filter (Tree.isOf .variableDeclarator)).head? with
      | none => rfl
      | some first =>
        simp only [Option.map_some, Option.bind_some, Tree.childToken?_map]
        cases first.childToken? .ident with
        | none => rfl
        | some name =>
          exact congrArg (fun ms => some (Rule.fieldEvent, f.apply name, ms)) (modifiersOf_map f n)

theorem face_ofAccessors?_map (n : Tree) :
    (ofAccessors? (n.map f)).map face =
      (ofAccessors? n).map fun e =>
        (.ofShape e.shape, f.apply e.nameToken, e.modifiers.map f.apply) := by
  simp only [ofAccessors?, Option.bind_eq_bind, Tree.childNode?_map, typeOf?_map,
    Tree.childToken?_map]
  cases typeOf? n with
  | none => rfl
  | some type =>
    cases n.childToken? .ident with
    | none => rfl
    | some name =>
      cases n.childNode? .accessorList with
      | none => rfl
      | some list =>
        exact congrArg (fun ms => some (Rule.propertyEvent, f.apply name, ms)) (modifiersOf_map f n)

/-- Relabelling a node relabels the name and the modifiers of its event. -/
theorem face_ofTree?_map (n : Tree) :
    (ofTree? (n.map f)).map face =
      (ofTree? n).map fun e =>
        (.ofShape e.shape, f.apply e.nameToken, e.modifiers.map f.apply) := by
  unfold ofTree?
  rw [Tree.nodeKind?_map]
  split
  · exact face_ofField?_map f n
  · exact face_ofAccessors?_map f n
  · rfl

end

theorem partOf_accessorOf? {ts : List Token} {list : Tree} {kind : AccessorKind} {a : Accessor}
    (h : Tree.PartOf ts list) (ha : accessorOf? list kind = some a) : Tree.PartOf ts a.node := by
  obtain ⟨c, hc, rfl⟩ := Option.map_eq_some_iff.1 ha
  exact h.of_mem_childNodes (List.mem_of_find?_eq_some hc)

theorem outline_ofField? (n : Tree) :
    (ofField? n.plain).map outline = (ofField? n).map outline := by
  simp only [ofField?, Option.bind_eq_bind, Tree.plain, Tree.childNode?_map]
  cases n.childNode? .variableDeclaration with
  | none => rfl
  | some declaration =>
    simp only [Option.map_some, Option.bind_some, typeOf?_map]
    cases typeOf? declaration with
    | none => rfl
    | some type =>
      have hdeclarators : (declaration.map .plain).childNodes.filter (Tree.isOf .variableDeclarator)
          = (declaration.childNodes.filter (Tree.isOf .variableDeclarator)).map
            (Tree.map .plain) := by
        simp [List.filter_map, Function.comp_def]
      simp only [Option.map_some, Option.bind_some, hdeclarators, List.head?_map]
      generalize declaration.childNodes.filter (Tree.isOf .variableDeclarator) = declarators
      cases declarators.head? with
      | none => rfl
      | some first =>
        simp only [Option.map_some, Option.bind_some, Tree.childToken?_map]
        cases first.childToken? .ident with
        | none => rfl
        | some name =>
          refine congrArg some (Alike.outline_eq ⟨rfl, ElementType.isGeneric_map _ type,
            modifiersOf_map _ n, rfl, ?_⟩)
          -- no accessors: the shape lists names
          intro add remove h
          cases h

theorem outline_ofAccessors? {n : Tree} (h : ∀ c ∈ n.children, Tree.IsPart c) :
    (ofAccessors? n.plain).map outline = (ofAccessors? n).map outline := by
  simp only [ofAccessors?, Option.bind_eq_bind, Tree.plain, typeOf?_map]
  cases typeOf? n with
  | none => rfl
  | some type =>
    simp only [Option.map_some, Option.bind_some, Tree.childToken?_map]
    cases n.childToken? .ident with
    | none => rfl
    | some name =>
      simp only [Option.map_some, Option.bind_some, Tree.childNode?_map]
      cases hlist : n.childNode? .accessorList with
      | none => rfl
      | some list =>
        refine congrArg some (Alike.outline_eq ⟨rfl, ElementType.isGeneric_map _ type,
          modifiersOf_map _ n, ?_, ?_⟩)
        · simp only [accessorOf?_map, EventShape.map]
        · intro add remove hs
          have hadd := (EventShape.accessorLike.inj hs).1
          -- the accessor is below the list, and so below the member, whose parts were all read
          have hpart := (partOf_accessorOf? ⟨h list (List.mem_of_find?_eq_some hlist),
            List.Subset.refl _⟩ hadd).part
          exact ⟨hpart, List.Subset.refl _⟩

/-- The event that a node declares is the same without layout. -/
theorem outline_ofTree? {n : Tree}
    (h : n.nodeKind?.any NodeKind.isEvent = true → ∀ c ∈ n.children, Tree.IsPart c) :
    (ofTree? n.plain).map outline = (ofTree? n).map outline := by
  unfold ofTree?
  rw [Tree.plain, Tree.nodeKind?_map]
  split
  · exact outline_ofField? n
  · rename_i hk
    exact outline_ofAccessors? (h (by rw [hk]; rfl))
  · rfl

end Event

/-! ## 3. Documents without layout -/

namespace Tree

/-- What stands in an event was read as its parts. -/
def EventParts (t : Tree) : Prop :=
  ∀ n ∈ t.preorder, n.nodeKind?.any NodeKind.isEvent = true → ∀ c ∈ n.children, IsPart c

theorem eventParts_ofTokens (ts : List Token) : (ofTokens ts).EventParts := by
  intro n hn he c hc
  rcases mem_preorder_ofTokens hn with rfl | hp | hd
  · cases he
  · exact hp.child hc
  · cases hd with
    | flat hk hne hcs => exact hcs c hc
    | nest hk hne hcs =>
      rw [nodeKind?, Option.any_some, isEvent_of_isContainer hk] at he
      cases he

/-- The events of a tree say what those of the tree without layout say. -/
theorem outline_preorder (ts : List Token) :
    ((ofTokens ts).preorder.filterMap Event.ofTree?).map Event.outline =
      (ofTokens ts).plain.preorder.filterMap fun n => (Event.ofTree? n).map Event.outline := by
  rw [plain, preorder_map, List.map_filterMap, List.filterMap_map]
  exact List.filterMap_congr fun n hn => (Event.outline_ofTree? (eventParts_ofTokens ts n hn)).symm

theorem EventParts.child {k : NodeKind} {c : Tree} {cs : List Tree} (h : (node k cs).EventParts)
    (hc : c ∈ cs) : c.EventParts :=
  fun n hn => h n (List.mem_cons_of_mem _ (mem_preorderAll hc hn))

mutual

theorem outline_virtualEvents (t : Tree) (h : t.EventParts) :
    t.plain.virtualEvents.map Event.outline = t.virtualEvents.map Event.outline := by
  cases t with
  | leaf u => rw [plain, map_leaf, virtualEvents, virtualEvents]
  | node k cs =>
    have hevent := Event.outline_ofTree? (h (node k cs) List.mem_cons_self)
    rw [plain, map_node] at hevent ⊢
    rw [virtualEvents, virtualEvents]
    split
    · -- whether an event is virtual is part of its outline
      have hfilter : ∀ o : Option Event, (o.filter Event.isVirtual).toList.map Event.outline =
          ((o.map Event.outline).filter Event.Outline.isVirtual).toList := by
        intro o
        cases o with
        | none => rfl
        | some e =>
          have he : e.outline.isVirtual = e.isVirtual := rfl
          cases hv : e.isVirtual <;> simp [Option.filter, he, hv]
      rw [hfilter, hfilter, hevent]
    · split
      · rfl
      · exact outline_virtualEventsAll cs fun c hc => h.child hc

theorem outline_virtualEventsAll (cs : List Tree) (h : ∀ c ∈ cs, c.EventParts) :
    (virtualEventsAll (cs.map (map .plain))).map Event.outline =
      (virtualEventsAll cs).map Event.outline := by
  cases cs with
  | nil => rfl
  | cons c cs =>
    have hfirst := outline_virtualEvents c (h c List.mem_cons_self)
    have hmore := outline_virtualEventsAll cs fun d hd => h d (List.mem_cons_of_mem c hd)
    rw [plain] at hfirst
    rw [List.map_cons, virtualEventsAll, virtualEventsAll, List.map_append, List.map_append, hfirst,
      hmore]

end

end Tree

namespace Document

open EventLint.Tree Token

theorem plain_root {a b : Text} (h : (scan a).map bare = (scan b).map bare) :
    (ofText a).root.plain = (ofText b).root.plain := by
  rw [plain, plain, ofText, ofText, ← ofTokens_map, ← ofTokens_map, map_plain_eq h]

theorem plain_nodes (text : Text) :
    (ofText text).nodes.map plain = (ofText text).root.plain.preorder := by
  rw [nodes_ofText]
  exact (preorder_map _ _).symm

theorem outline_events (text : Text) :
    (ofText text).events.map Event.outline =
      (ofText text).root.plain.preorder.filterMap fun n => (Event.ofTree? n).map Event.outline := by
  rw [events, nodes_ofText]
  exact outline_preorder (scan text)

/-- The rule and the event of each finding, read off the outlines of the virtual events. -/
theorem findings_eq (d : Document) (messages : Messages) (file : String) :
    (d.findings messages file).map (fun f => (f.rule.id, f.eventName)) =
      (d.root.virtualEvents.map Event.outline).map
        fun o => ((Rule.ofShape o.shape).id, o.name) := by
  rw [findings, List.map_map, List.map_map]
  refine List.map_congr_left fun e _ => Prod.ext ?_ rfl
  cases hs : e.shape <;> simp [Event.diagnostic, Event.outline, hs, EventShape.map, Rule.ofShape]

/-- Texts with the same tokens have the same tree apart from layout, the same events and the same
findings. -/
theorem ofText_eq_of_bare_eq {a b : Text} (h : (scan a).map bare = (scan b).map bare) :
    (ofText a).root.plain = (ofText b).root.plain ∧
      (ofText a).nodes.map plain = (ofText b).nodes.map plain ∧
      (ofText a).events.map Event.outline = (ofText b).events.map Event.outline ∧
      ∀ messages file, ((ofText a).findings messages file).map (fun f => (f.rule.id, f.eventName)) =
        ((ofText b).findings messages file).map (fun f => (f.rule.id, f.eventName)) := by
  have hroot := plain_root h
  refine ⟨hroot, ?_, ?_, fun messages file => ?_⟩
  · rw [plain_nodes, plain_nodes, hroot]
  · rw [outline_events, outline_events, hroot]
  · have hparts : ∀ text, (ofText text).root.EventParts := fun text => eventParts_ofTokens _
    rw [findings_eq, findings_eq, ← outline_virtualEvents _ (hparts a),
      ← outline_virtualEvents _ (hparts b), hroot]

theorem ofText_eq_of_bare_eq_comment :
    let a := "class C \x7b virtual event A<B> X; \x7d".toList
    let b := "class C // none\n\x7b virtual\n#line 3\n  event A < B > /* X */ X;\x7d".toList
    (scan a).map bare = (scan b).map bare ∧
      (ofText a).root.plain = (ofText b).root.plain ∧
      (ofText a).nodes.map plain = (ofText b).nodes.map plain ∧
      (ofText a).events.map Event.outline = (ofText b).events.map Event.outline ∧
      ∀ messages file, ((ofText a).findings messages file).map (fun f => (f.rule.id, f.eventName)) =
        ((ofText b).findings messages file).map (fun f => (f.rule.id, f.eventName)) := by
  intro a b
  have h : (scan a).map bare = (scan b).map bare := by decide +kernel
  exact ⟨h, ofText_eq_of_bare_eq h⟩

end Document

end EventLint
