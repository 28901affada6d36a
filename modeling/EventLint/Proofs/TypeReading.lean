import EventLint.Event.Basic
import EventLint.Proofs.EventNodes
import EventLint.Proofs.Nesting
import Mathlib.Data.List.Forall2

/-!
# Types are read back

The tokens of a type are read as that type: names, type arguments and marks are found where they
were written, and the type of an event says what its only type argument is.
-/

namespace EventLint

namespace Grammar

open EventLint.Tree Token

/-! ## 1. Tokens that spell lexemes -/

section

variable {ts : List Token} {x : Lexeme} {xs ys : List Lexeme}

theorem exists_of_spells_cons (h : ts.map bare = x :: xs) :
    ∃ t us, ts = t :: us ∧ t.kind = x.1 ∧ t.text = x.2 ∧ us.map bare = xs := by
  obtain ⟨t, us, rfl, ht, hus⟩ := List.map_eq_cons_iff.1 h
  exact ⟨t, us, rfl, congrArg Prod.fst ht, congrArg Prod.snd ht, hus⟩

theorem exists_of_spells_append (h : ts.map bare = xs ++ ys) :
    ∃ a b, ts = a ++ b ∧ a.map bare = xs ∧ b.map bare = ys :=
  List.map_eq_append_iff.1 h

theorem exists_mark {k : TokenKind} (h : ts.map bare = mark k :: xs) :
    ∃ t us, ts = t :: us ∧ t.kind = k ∧ us.map bare = xs := by
  obtain ⟨t, us, rfl, hk, -, hus⟩ := exists_of_spells_cons h
  exact ⟨t, us, rfl, hk, hus⟩

theorem exists_keyword {k : Keyword} (h : ts.map bare = keyword k :: xs) :
    ∃ t us, ts = t :: us ∧ t.kind = .keyword k ∧ us.map bare = xs := by
  obtain ⟨t, us, rfl, hk, -, hus⟩ := exists_of_spells_cons h
  exact ⟨t, us, rfl, hk, hus⟩

theorem exists_ident {i : Ident} (h : ts.map bare = i.lexeme :: xs) :
    ∃ t us, ts = t :: us ∧ t.kind = .ident ∧ t.text = i.text ∧ us.map bare = xs :=
  exists_of_spells_cons h

end

theorem leaves_of_typeName? {ts rest : List Token} {type : Tree}
    (h : typeName? (ts ++ rest) = some (type, rest)) : type.leaves = ts := by
  have hl := (reads_typeName? h).leaves
  rw [leavesAll, leavesAll, List.append_nil] at hl
  exact List.append_cancel_right hl

theorem isNode_of_isTypeNode {type : Tree} (h : type.isTypeNode = true) : type.isNode = true := by
  cases type with
  | leaf t => cases h
  | node k cs => rfl

theorem isNode_of_typeName? {ts rest : List Token} {type : Tree}
    (h : typeName? ts = some (type, rest)) : type.isNode = true :=
  isNode_of_isTypeNode (isTypeNode_typeName? h)

/-! ## 2. The trees of types -/

/-- The trees of types have the lexemes of those types. -/
def SpellAll (types : List TypeName) (trees : List Tree) : Prop :=
  List.Forall₂ (fun type tree => tree.leaves.map bare = type.lexemes) types trees

/-- How a name is read. -/
def SimpleName.Reads : SimpleName → Tree → Prop
  | .mk _ [], tree => tree.nodeKind? = some .identifierName
  | .mk _ (a :: more), tree => ∃ name opening arguments,
    tree = node .genericName [leaf name, node .typeArgumentList (leaf opening :: arguments)] ∧
      SpellAll (a :: more) (arguments.filter isNode)

/-- How names joined to `owner` are read. -/
def ReadsTail (owner : Tree) : List SimpleName → Tree → Prop
  | [], tree => tree = owner
  | s :: more, tree => ∃ left joint last,
    tree = node .qualifiedName [left, leaf joint, last] ∧ (more.getLast?.getD s).Reads last

/-- The only argument of a name. -/
def SimpleName.argument? : SimpleName → Option TypeName
  | .mk _ [a] => some a
  | _ => none

/-- The only argument of a type: that of its last name, if no mark follows. -/
def TypeName.argument? : TypeName → Option TypeName
  | .mk first more [] => (more.getLast?.getD first).argument?
  | .mk _ _ (_ :: _) => none

/-- What follows a type does not go on with it. -/
def endsType (ts : List Token) : Bool :=
  ts.head?.all fun t => t.kind = .ident || t.kind = .gt || t.kind = .comma

/-- The tokens do not go on with a name. -/
def endsName (ts : List Token) : Bool :=
  ts.head?.all fun t => t.kind ≠ .lt && t.kind ≠ .dot && t.kind ≠ .colonColon

theorem endsName_of_endsType {ts : List Token} (h : endsType ts = true) : endsName ts = true := by
  cases ts with
  | nil => rfl
  | cons t ts =>
    rw [endsType, List.head?_cons, Option.all_some] at h
    rw [endsName, List.head?_cons, Option.all_some]
    cases hk : t.kind <;> rw [hk] at h <;> first | rfl | cases h

theorem endsType_argumentsTail {more : List TypeName} {us : List Token}
    (h : us.map bare = argumentsTail more) (rest : List Token) : endsType (us ++ rest) = true := by
  cases more with
  | nil =>
    rw [argumentsTail] at h
    obtain ⟨t, us, rfl, hk, -⟩ := exists_mark h
    rw [List.cons_append, endsType, List.head?_cons, Option.all_some, hk]
    rfl
  | cons a more =>
    rw [argumentsTail] at h
    obtain ⟨t, us, rfl, hk, -⟩ := exists_mark h
    rw [List.cons_append, endsType, List.head?_cons, Option.all_some, hk]
    rfl

/-! ## 3. Marks -/

theorem typeMarks_of_endsType {tree : Tree} {rest : List Token} (h : endsType rest = true) :
    typeMarks tree rest = (tree, rest) := by
  cases rest with
  | nil => rw [typeMarks]
  | cons t rest =>
    rw [endsType, List.head?_cons, Option.all_some] at h
    rw [typeMarks, if_neg, if_neg]
    · intro hk
      rw [(of_decide_eq_true (Bool.and_eq_true_iff.1 hk).1 : t.kind = .lbracket)] at h
      cases h
    · intro hk
      rw [hk] at h
      cases h

/-- Marks are read one after the other; with any of them the type is no name. -/
theorem typeMarks_read {rest : List Token} (hr : endsType rest = true) (marks : List TypeMark)
    {tree : Tree} {ts : List Token} (h : ts.map bare = marks.flatMap TypeMark.lexemes) :
    ∃ n, typeMarks tree (ts ++ rest) = (n, rest) ∧ (marks = [] → n = tree) ∧
      (marks ≠ [] ∨ ElementType.genericName? tree = none → ElementType.genericName? n = none) := by
  -- on the marks, each of which makes a type of the one before it
  induction marks generalizing tree ts with
  | nil =>
    rw [List.map_eq_nil_iff.1 h, List.nil_append]
    exact ⟨tree, typeMarks_of_endsType hr, fun _ => rfl, fun h => h.resolve_left (absurd rfl)⟩
  | cons m marks ih =>
    rw [List.flatMap_cons] at h
    obtain ⟨a, b, rfl, ha, hb⟩ := exists_of_spells_append h
    cases m with
    | nullable =>
      obtain ⟨t, us, rfl, hk, hus⟩ := exists_mark ha
      obtain rfl := List.map_eq_nil_iff.1 hus
      obtain ⟨n, hn, -, hnone⟩ := @ih (node .nullableType [tree, leaf t]) b hb
      refine ⟨n, ?_, fun h => absurd h (List.cons_ne_nil _ _), fun _ => hnone (Or.inr rfl)⟩
      rw [List.append_assoc, List.singleton_append, typeMarks, if_pos hk, hn]
    | array =>
      obtain ⟨t, us, rfl, hk, hus⟩ := exists_mark ha
      obtain ⟨u, vs, rfl, hu, hvs⟩ := exists_mark hus
      obtain rfl := List.map_eq_nil_iff.1 hvs
      -- the brackets of an array are closed at once
      have hclose : closingExtent 1 (u :: (b ++ rest)) = 1 :=
        closingExtent_group .nil (by rw [hu]; rfl) _
      obtain ⟨n, hn, -, hnone⟩ := @ih (node .arrayType (tree :: [leaf t, leaf u])) b hb
      refine ⟨n, ?_, fun h => absurd h (List.cons_ne_nil _ _), fun _ => hnone (Or.inr rfl)⟩
      have hopen : (t.kind = .lbracket && (nextIs .rbracket (u :: (b ++ rest)) ||
          nextIs .comma (u :: (b ++ rest)))) = true := by
        simp [hk, nextIs, hu]
      rw [List.append_assoc, List.cons_append, List.singleton_append, typeMarks,
        if_neg (by rw [hk]; decide), if_pos hopen]
      dsimp only
      rw [hclose]
      exact hn

/-! ## 4. Names and arguments -/

theorem nameTail_of_endsName {owner : Tree} {rest : List Token} (h : endsName rest = true) :
    nameTail owner rest = (owner, rest) := by
  unfold nameTail
  split
  · rename_i joint first after
    rw [endsName, List.head?_cons, Option.all_some] at h
    rw [if_neg]
    intro hj
    have hjoin := (Bool.and_eq_true_iff.1 hj).1
    simp only [joinsNames, Bool.or_eq_true, decide_eq_true_eq] at hjoin
    rcases hjoin with hk | hk <;> rw [hk] at h <;> cases h
  · rfl

theorem nextIs_lt_of_endsName {rest : List Token} (h : endsName rest = true) :
    nextIs .lt rest = false := by
  cases rest with
  | nil => rfl
  | cons t rest =>
    rw [endsName, List.head?_cons, Option.all_some] at h
    refine decide_eq_false fun hk => ?_
    rw [hk] at h
    cases h

theorem nextIs_lt_namesTail {more : List SimpleName} {us rest : List Token}
    (h : us.map bare = namesTail more) (hr : endsName rest = true) :
    nextIs .lt (us ++ rest) = false := by
  cases more with
  | nil =>
    rw [namesTail, List.map_eq_nil_iff] at h
    rw [h]
    exact nextIs_lt_of_endsName hr
  | cons s more =>
    rw [namesTail] at h
    obtain ⟨t, us, rfl, hk, -⟩ := exists_mark h
    refine decide_eq_false fun hlt => ?_
    rw [hk] at hlt
    cases hlt

theorem lexemes_ident (s : SimpleName) :
    ∃ name xs, s.lexemes = (TokenKind.ident, name) :: xs := by
  cases s with
  | mk name arguments =>
    cases arguments with
    | nil => exact ⟨name.text, [], by rw [SimpleName.lexemes]; rfl⟩
    | cons a more =>
      exact ⟨name.text, mark .lt :: (a.lexemes ++ argumentsTail more), by
        rw [SimpleName.lexemes]; rfl⟩

/-- A tree that spells an argument. -/
abbrev SpellsArgument (tree : Tree) (type : TypeName) : Prop :=
  tree.leaves.map bare = type.lexemes

/-- The only argument of a name with type arguments. -/
theorem singleArgument?_eq_some_iff {tree : Tree} {name opening : Token} {trees : List Tree}
    (h : ElementType.genericName? tree =
      some (node .genericName [leaf name, node .typeArgumentList (leaf opening :: trees)]))
    (argument : Tree) :
    ElementType.singleArgument? tree = some argument ↔ trees.filter isNode = [argument] := by
  have hnodes : (node .typeArgumentList (leaf opening :: trees)).childNodes =
      trees.filter isNode := rfl
  have hfound : childNode?
      (node .genericName [leaf name, node .typeArgumentList (leaf opening :: trees)])
        .typeArgumentList = some (node .typeArgumentList (leaf opening :: trees)) := rfl
  rw [ElementType.singleArgument?, h, Option.bind_eq_bind, Option.bind_some, hfound,
    Option.bind_some, hnodes]
  split
  · rename_i single hlist
    rw [hlist, Option.some.injEq, List.cons.injEq, eq_self, and_true]
  · rename_i hmany
    exact ⟨fun h => (by cases h), fun h => absurd h (hmany argument)⟩

/-- The last name of a type decides what its only argument is. -/
theorem singleArgument?_read {s : SimpleName} {tree n : Tree} (h : s.Reads n)
    (hg : ElementType.genericName? tree = if n.isOf .genericName then some n else none) :
    Option.Rel SpellsArgument (ElementType.singleArgument? tree) s.argument? := by
  cases s with
  | mk name arguments =>
    cases arguments with
    | nil =>
      rw [SimpleName.Reads] at h
      rw [isOf, h, if_neg (by decide)] at hg
      rw [ElementType.singleArgument?, hg]
      exact .none
    | cons a more =>
      obtain ⟨name, opening, trees, rfl, hspell⟩ := h
      rw [if_pos (show isOf .genericName _ = true from rfl)] at hg
      have hsome := singleArgument?_eq_some_iff hg
      generalize trees.filter isNode = nodes at hspell hsome
      -- one argument, or more than one
      rcases hspell with _ | ⟨hfirst, hmore⟩
      rcases hmore with _ | _
      · rw [(hsome _).2 rfl]
        exact .some hfirst
      · have hnone : ElementType.singleArgument? tree = none :=
          Option.eq_none_iff_forall_ne_some.2 fun argument h => by cases (hsome argument).1 h
        rw [hnone]
        exact .none

theorem genericName?_of_reads {s : SimpleName} {n : Tree} (h : s.Reads n) :
    ElementType.genericName? n = if n.isOf .genericName then some n else none := by
  cases s with
  | mk name arguments =>
    cases arguments with
    | nil =>
      rw [SimpleName.Reads] at h
      rw [ElementType.genericName?, isOf, h]
      rfl
    | cons a more =>
      obtain ⟨name, opening, trees, rfl, -⟩ := h
      rfl

theorem SimpleName.Reads.isNode {s : SimpleName} {n : Tree} (h : s.Reads n) : n.isNode = true := by
  cases n with
  | leaf t =>
    cases s with
    | mk name arguments => cases arguments with
      | nil => cases h
      | cons a more =>
        obtain ⟨_, _, _, h, -⟩ := h
        cases h
  | node k cs => rfl

theorem genericName?_qualified {left n : Tree} {joint : Token} (h : n.isNode = true) :
    ElementType.genericName? (node .qualifiedName [left, leaf joint, n]) =
      if n.isOf .genericName then some n else none := by
  have hlast : (node .qualifiedName [left, leaf joint, n]).childNodes.getLast? = some n := by
    rw [childNodes, children, List.getLast?_filter]
    simp [h]
  rw [ElementType.genericName?]
  dsimp only [nodeKind?]
  rw [hlast, Option.filter_some]

mutual

theorem simpleName_read (s : SimpleName) {t : Token} {us rest : List Token}
    (h : (t :: us).map bare = s.lexemes) (hr : nextIs .lt rest = false) :
    ∃ n, simpleName t (us ++ rest) = (n, rest) ∧ s.Reads n := by
  cases s with
  | mk name arguments =>
    cases arguments with
    | nil =>
      rw [SimpleName.lexemes, List.map_cons] at h
      rw [List.map_eq_nil_iff.1 (List.cons.inj h).2, List.nil_append]
      refine ⟨node .identifierName [leaf t], ?_, rfl⟩
      cases rest with
      | nil => rw [simpleName]
      | cons u rest => rw [simpleName, if_neg (of_decide_eq_false hr)]
    | cons a more =>
      rw [SimpleName.lexemes, List.map_cons] at h
      obtain ⟨u, us, rfl, hu, hus⟩ := exists_mark (List.cons.inj h).2
      obtain ⟨b, c, rfl, hb, hc⟩ := exists_of_spells_append hus
      -- the first argument ends at a comma or at the closing bracket
      obtain ⟨type, htype, -⟩ := typeName?_read a hb (endsType_argumentsTail hc rest)
      obtain ⟨trees, htrees, hspell⟩ := typeArguments?_read more htype hc
      have hleaves : type.leaves.map bare = a.lexemes := by
        rw [leaves_of_typeName? htype]
        exact hb
      refine ⟨node .genericName [leaf t, node .typeArgumentList (leaf u :: type :: trees)], ?_,
        t, u, type :: trees, rfl, ?_⟩
      · rw [List.cons_append, simpleName, if_pos hu, List.append_assoc, htrees]
      · rw [List.filter_cons_of_pos (isNode_of_typeName? htype)]
        exact .cons hleaves hspell

theorem typeArguments?_read (more : List TypeName) {ts us rest : List Token} {type : Tree}
    (htype : typeName? ts = some (type, us ++ rest)) (h : us.map bare = argumentsTail more) :
    ∃ trees, typeArguments? ts = some (type :: trees, rest) ∧
      SpellAll more (trees.filter isNode) := by
  cases more with
  | nil =>
    rw [argumentsTail] at h
    obtain ⟨t, us, rfl, hk, hus⟩ := exists_mark h
    obtain rfl := List.map_eq_nil_iff.1 hus
    refine ⟨[leaf t], ?_, .nil⟩
    rw [typeArguments?_eq, htype]
    dsimp only [List.cons_append, List.nil_append]
    rw [if_pos hk]
  | cons a more =>
    rw [argumentsTail] at h
    obtain ⟨t, us, rfl, hk, hus⟩ := exists_mark h
    obtain ⟨b, c, rfl, hb, hc⟩ := exists_of_spells_append hus
    -- a comma, the next type and the arguments behind it
    obtain ⟨next, hnext, -⟩ := typeName?_read a hb (endsType_argumentsTail hc rest)
    obtain ⟨trees, htrees, hspell⟩ := typeArguments?_read more hnext hc
    refine ⟨leaf t :: next :: trees, ?_, ?_⟩
    · rw [typeArguments?_eq, htype]
      dsimp only [List.cons_append]
      rw [if_neg (by rw [hk]; decide), if_pos hk, List.append_assoc, htrees]
      rfl
    · rw [List.filter_cons_of_neg (by simp [isNode]),
        List.filter_cons_of_pos (isNode_of_typeName? hnext)]
      refine .cons ?_ hspell
      rw [leaves_of_typeName? hnext]
      exact hb

theorem namesTail_read (more : List SimpleName) {owner : Tree} {us rest : List Token}
    (h : us.map bare = namesTail more) (hr : endsName rest = true) :
    ∃ n, nameTail owner (us ++ rest) = (n, rest) ∧ ReadsTail owner more n := by
  cases more with
  | nil =>
    rw [namesTail, List.map_eq_nil_iff] at h
    rw [h]
    exact ⟨owner, nameTail_of_endsName hr, rfl⟩
  | cons s more =>
    rw [namesTail] at h
    obtain ⟨t, us, rfl, hk, hus⟩ := exists_mark h
    obtain ⟨b, c, rfl, hb, hc⟩ := exists_of_spells_append hus
    obtain ⟨name, xs, hs⟩ := lexemes_ident s
    obtain ⟨u, us, rfl, hu, -, -⟩ := exists_of_spells_cons (hb.trans hs)
    obtain ⟨n, hn, hread⟩ := simpleName_read s hb (nextIs_lt_namesTail hc hr)
    obtain ⟨m, hm, htail⟩ :=
      @namesTail_read more (node .qualifiedName [owner, leaf t, n]) c rest hc hr
    refine ⟨m, ?_, ?_⟩
    · rw [List.cons_append, List.cons_append, List.cons_append,
        nameTail_cons (by simp [joinsNames, hk, hu]), List.append_assoc, hn]
      exact hm
    · -- the last name of the chain is the one that counts
      cases more with
      | nil => exact ⟨owner, t, n, htail, hread⟩
      | cons s' more =>
        obtain ⟨left, joint, last, hlast, hreads⟩ := htail
        refine ⟨left, joint, last, hlast, ?_⟩
        rw [List.getLast?_cons, Option.getD_some]
        exact hreads

theorem typeName?_read (type : TypeName) {ts rest : List Token}
    (h : ts.map bare = type.lexemes) (hr : endsType rest = true) :
    ∃ n, typeName? (ts ++ rest) = some (n, rest) ∧
      Option.Rel (fun n a => n.leaves.map bare = a.lexemes) (ElementType.singleArgument? n)
        type.argument? := by
  cases type with
  | mk first more marks =>
    rw [TypeName.lexemes] at h
    obtain ⟨ab, c, rfl, hab, hc⟩ := exists_of_spells_append h
    obtain ⟨a, b, rfl, ha, hb⟩ := exists_of_spells_append hab
    obtain ⟨name, xs, hs⟩ := lexemes_ident first
    obtain ⟨t, us, rfl, ht, -, -⟩ := exists_of_spells_cons (ha.trans hs)
    -- a mark ends the name as well as what follows the type
    have hmarks : endsName (c ++ rest) = true := by
      cases marks with
      | nil =>
        rw [List.flatMap_nil, List.map_eq_nil_iff] at hc
        rw [hc]
        exact endsName_of_endsType hr
      | cons m marks =>
        rw [List.flatMap_cons] at hc
        obtain ⟨d, e, rfl, hd, -⟩ := exists_of_spells_append hc
        cases m with
        | nullable =>
          obtain ⟨v, vs, rfl, hv, -⟩ := exists_mark hd
          simp [endsName, hv]
        | array =>
          obtain ⟨v, vs, rfl, hv, -⟩ := exists_mark hd
          simp [endsName, hv]
    obtain ⟨n, hn, hread⟩ := simpleName_read first ha (nextIs_lt_namesTail hb hmarks)
    obtain ⟨m, hm, htail⟩ := @namesTail_read more n b (c ++ rest) hb hmarks
    obtain ⟨tree, htree, hsame, hnone⟩ := @typeMarks_read rest hr marks m c hc
    refine ⟨tree, ?_, ?_⟩
    · rw [List.append_assoc, List.append_assoc, List.cons_append, typeName?_of_ident _ ht,
        nameChain_eq, hn]
      dsimp only [qualified]
      rw [hm]
      dsimp only
      rw [htree]
    · -- the argument is that of the last name, unless a mark makes the type something else
      cases marks with
      | nil =>
        rw [hsame rfl]
        cases more with
        | nil =>
          rw [show m = n from htail]
          exact singleArgument?_read hread (genericName?_of_reads hread)
        | cons s more =>
          obtain ⟨left, joint, last, rfl, hlast⟩ := htail
          rw [TypeName.argument?, List.getLast?_cons, Option.getD_some]
          exact singleArgument?_read hlast (genericName?_qualified hlast.isNode)
      | cons k marks =>
        rw [TypeName.argument?, ElementType.singleArgument?,
          hnone (Or.inl (List.cons_ne_nil _ _))]
        exact .none

end

end Grammar

end EventLint
