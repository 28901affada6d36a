import EventLint.Proofs.EventPlace
import EventLint.Proofs.Layout

/-!
# Complete events

An event that ends with its semicolon, or with the brace that closes its accessors, is read from its
own tokens alone. Main statement: wherever those tokens stand, with any layout and in front of
whatever, the same event is read from them.
-/

namespace EventLint.Tree

/-! ## 1. Brackets -/

/-- How many brackets are open after the tokens if `depth` are open in front of them. -/
def openBrackets (depth : Nat) : List Token → Nat
  | [] => depth
  | t :: ts =>
    openBrackets (if t.kind.opens then depth + 1 else if t.kind.closes then depth - 1 else depth) ts

/-- The last token is of kind `k`. -/
def endsWith (k : TokenKind) (ts : List Token) : Bool :=
  ts.getLast?.any (·.kind = k)

/-- The event ends with its semicolon, which stands outside all brackets, or with the brace that
closes its accessors. -/
def isComplete (n : Tree) : Bool :=
  match n.nodeKind? with
  | some .eventFieldDeclaration =>
    endsWith .semicolon n.childTokens && openBrackets 0 n.childTokens = 0
  | some .eventDeclaration =>
    (n.childNode? .accessorList).any fun list => endsWith .rbrace list.childTokens
  | _ => false

theorem openBrackets_append (depth : Nat) (a b : List Token) :
    openBrackets depth (a ++ b) = openBrackets (openBrackets depth a) b := by
  induction a generalizing depth with
  | nil => rfl
  | cons t a ih => exact ih _

/-- Brackets that are closed at the end of `b` are closed in `b`. -/
theorem closingExtent_of_openBrackets {depth : Nat} {b : List Token}
    (h : openBrackets (depth + 1) b = 0) (w : List Token) :
    closingExtent (depth + 1) (b ++ w) ≤ b.length ∧
      openBrackets 0 (b.drop (closingExtent (depth + 1) (b ++ w))) = 0 := by
  induction b generalizing depth with
  | nil => cases h
  | cons t b ih =>
    rw [openBrackets] at h
    rw [List.cons_append, closingExtent, Nat.add_comm 1, List.length_cons, List.drop_succ_cons,
      Nat.succ_le_succ_iff]
    split at h
    · rename_i ho
      rw [if_pos ho]
      exact ih h
    · rename_i ho
      rw [if_neg ho]
      split at h
      · rename_i hc
        rw [if_pos hc]
        rw [Nat.add_sub_cancel] at h
        cases depth with
        | zero =>
          -- the bracket that closes them all
          have hzero : closingExtent 0 (b ++ w) = 0 := by cases b ++ w <;> rfl
          rw [hzero]
          exact ⟨Nat.zero_le _, h⟩
        | succ depth => exact ih h
      · rename_i hc
        rw [if_neg hc]
        exact ih h

/-- A group that is closed in `b` ends at the same token whatever follows `b`. -/
theorem exists_group_end {t : Token} {b : List Token} (ht : t.kind.opens = true)
    (h : openBrackets 0 (t :: b) = 0) :
    ∃ n ≤ b.length, openBrackets 0 (b.drop n) = 0 ∧
      ∀ e w, closingExtent 1 (b ++ e :: w) = n := by
  rw [openBrackets, if_pos ht] at h
  obtain ⟨hle, hdrop⟩ := closingExtent_of_openBrackets h []
  rw [List.append_nil] at hle hdrop
  refine ⟨closingExtent 1 b, hle, hdrop, fun e w => ?_⟩
  have hle' : closingExtent 1 (b ++ e :: w) ≤ b.length := (closingExtent_of_openBrackets h _).1
  have hlt : closingExtent 1 (b ++ e :: w) < (b ++ e :: w).length := by
    rw [List.length_append, List.length_cons]
    omega
  -- the group ends within `b`, so what follows cannot move its end
  have hsame := closingExtent_append [] hle' hlt
  rw [List.append_nil] at hsame
  exact hsame.symm

/-- What is kept as it is up to a semicolon outside all brackets does not depend on what follows. -/
theorem opaqueExtent_complete {continues : Token → Bool} {b w : List Token} {e : Token}
    (he : e.kind = .semicolon) (hb : openBrackets 0 b = 0)
    (h : b.length + 1 ≤ opaqueExtent continues (b ++ e :: w)) (w' : List Token) :
    opaqueExtent continues (b ++ e :: w') = b.length + 1 := by
  induction b using shorter_induction with
  | step b ih =>
    cases b with
    | nil => exact opaqueExtent_of_semicolon continues w' he
    | cons t b =>
      rw [List.length_cons] at h ⊢
      rw [List.cons_append] at h ⊢
      have hrest : ∀ n ≤ b.length, ∀ v, (b ++ e :: v).drop n = b.drop n ++ e :: v :=
        fun n hn v => List.drop_append_of_le_length hn
      rcases kind_cases t.kind with hk | hk | hk | hk | hk
      · rw [opaqueExtent_of_semicolon _ _ hk] at h
        omega
      · rw [opaqueExtent_of_rbrace _ _ hk] at h
        omega
      · -- a group that stays open would swallow the semicolon
        obtain ⟨n, hn, hdrop, hclose⟩ :=
          exists_group_end (by rcases hk with hk | hk <;> rw [hk] <;> rfl) hb
        rw [opaqueExtent_of_group _ _ hk, hclose, hrest n hn] at h ⊢
        have hlen : (b.drop n).length = b.length - n := List.length_drop
        rw [ih (b.drop n) (by rw [List.length_cons]; omega) hdrop (by omega)]
        omega
      · obtain ⟨n, hn, hdrop, hclose⟩ := exists_group_end (by rw [hk]; rfl) hb
        have hlen : (b.drop n).length = b.length - n := List.length_drop
        rw [opaqueExtent_of_lbrace _ _ hk, hclose, hrest n hn] at h ⊢
        cases hd : b.drop n with
        | nil =>
          rw [hd] at hlen
          rw [if_pos (show nextIs .semicolon ([] ++ e :: w') = true from decide_eq_true he)]
          rw [List.length_nil] at hlen
          omega
        | cons u c =>
          rw [hd] at h hdrop hlen
          rw [List.length_cons] at hlen
          -- the token behind the brace decides, and it is the same
          rw [nextIs_append (e :: w) (e :: w') (List.cons_ne_nil u c), show
            (u :: c ++ e :: w').head?.any continues =
              (u :: c ++ e :: w).head?.any continues from rfl]
          split at h
          · omega
          · rename_i hs
            rw [if_neg hs]
            split at h
            · rename_i hc
              have hi := ih (u :: c) (by rw [List.length_cons, List.length_cons]; omega) hdrop
                (by rw [List.length_cons]; omega)
              rw [if_pos hc, hi, List.length_cons]
              omega
            · omega
      · have hb : openBrackets 0 b = 0 := by
          rw [openBrackets] at hb
          generalize t.kind = k at hk hb
          cases k <;> first | exact hb | cases hk
        rw [opaqueExtent_of_plain _ _ hk] at h ⊢
        rw [ih b (Nat.lt_succ_self _) hb (by omega)]
        omega

/-! ## 2. Events read from their own tokens -/

theorem exists_accessor {ts : List Token} {c : Tree} (h : c ∈ (accessors ts).1) :
    ∃ t rest, c = (accessor t rest).1 := by
  induction ts using shorter_induction with
  | step ts ih =>
    cases ts with
    | nil =>
      rw [accessors] at h
      cases h
    | cons t rest =>
      by_cases ht : t.kind = .rbrace
      · rw [accessors_of_rbrace rest ht] at h
        cases h
      · rw [accessors_cons rest ht] at h
        rcases List.mem_cons.1 h with rfl | h
        · exact ⟨t, rest, rfl⟩
        · exact ih _ (reads_accessor t rest).rest_lt h

theorem isNode_of_mem_accessors {ts : List Token} {c : Tree} (h : c ∈ (accessors ts).1) :
    c.isNode = true := by
  obtain ⟨t, rest, rfl⟩ := exists_accessor h
  unfold accessor
  dsimp only
  split <;> rfl

theorem filterMap_token?_eq_nil {cs : List Tree} (h : ∀ c ∈ cs, c.isNode = true) :
    cs.filterMap token? = [] := by
  refine List.filterMap_eq_nil_iff.2 fun c hc => ?_
  have hn := h c hc
  cases c with
  | leaf t => cases hn
  | node k cs => rfl

theorem accessorList_complete {t : Token} {rest after : List Token} {list : Tree}
    (ht : t.kind = .lbrace) (h : accessorList t rest = (list, after))
    (hend : endsWith .rbrace list.childTokens = true) :
    ∃ b e, rest = b ++ e :: after ∧ e.kind = .rbrace ∧
      ∀ w, accessorList t (b ++ e :: w) = (list, w) := by
  have hnodes : ∀ c ∈ (accessors rest).1, c.isNode = true := fun c hc => isNode_of_mem_accessors hc
  unfold accessorList at h
  rcases ha : accessors rest with ⟨inner, mid⟩
  rw [ha] at h hnodes
  dsimp only at h hnodes
  -- without the brace the list ends with its opening one
  have hopen : list ≠ node .accessorList (leaf t :: inner ++ []) := by
    rintro rfl
    have htokens : (node .accessorList (leaf t :: inner ++ [])).childTokens = [t] := by
      rw [childTokens, children, List.append_nil,
        List.filterMap_cons_some (show token? (leaf t) = some t from rfl),
        filterMap_token?_eq_nil hnodes]
    rw [htokens] at hend
    have hbrace : t.kind = .rbrace := of_decide_eq_true hend
    rw [ht] at hbrace
    cases hbrace
  cases mid with
  | nil => exact absurd (Prod.mk.inj h).1.symm hopen
  | cons c mid =>
    by_cases hc : c.kind = .rbrace
    · rw [optional, if_pos hc] at h
      obtain ⟨rfl, rfl⟩ := Prod.mk.inj h
      obtain ⟨hrest, hlist⟩ := accessorList_close t hc ha
      exact ⟨leavesAll inner, c, hrest, hc, hlist⟩
    · rw [optional, if_neg hc] at h
      exact absurd (Prod.mk.inj h).1.symm hopen

theorem fieldEvent_eq (lead : List Tree) (keyword : Token) (type : Tree) (ts : List Token) :
    fieldEvent lead keyword type ts =
      (node .eventFieldDeclaration (lead ++ leaf keyword ::
          node .variableDeclaration (type :: (declarators ts).1) ::
            ((declarators ts).2.take (memberExtent (declarators ts).2)).map leaf),
        (declarators ts).2.drop (memberExtent (declarators ts).2)) := by
  unfold fieldEvent
  dsimp only
  cases hd : (declarators ts).2 with
  | nil => rfl
  | cons t mid =>
    split
    · -- a semicolon is all that is taken
      rename_i hs
      have ht : t.kind = .semicolon := of_decide_eq_true hs
      rw [optional, if_pos ht, memberExtent, opaqueExtent_of_semicolon _ _ ht]
      rfl
    · rfl

/-- The tokens behind the names of an event, up to a semicolon outside all brackets. -/
theorem memberExtent_complete {mid b : List Token} {e : Token}
    (hb : mid.take (memberExtent mid) = b ++ [e]) (he : e.kind = .semicolon)
    (hopen : openBrackets 0 (b ++ [e]) = 0) (w : List Token) :
    memberExtent (b ++ e :: w) = b.length + 1 := by
  have hlen := congrArg List.length hb
  rw [List.length_take, List.length_append, List.length_singleton] at hlen
  rw [openBrackets_append, openBrackets, he] at hopen
  refine opaqueExtent_complete (w := mid.drop (memberExtent mid)) he hopen ?_ w
  rw [List.append_cons, ← hb, List.take_append_drop]
  exact Nat.le_trans (Nat.le_of_eq hlen.symm) (Nat.min_le_left _ _)

theorem reads_event {keyword : Token} {ts after : List Token} {kind : NodeKind}
    {parts : List Tree} (h : event [] keyword ts = (node kind (leaf keyword :: parts), after)) :
    Reads (keyword :: ts) (leaf keyword :: parts) after := by
  have hwhole := whole_event (Reads.nil : Reads (keyword :: ts) [] (keyword :: ts))
  rw [h] at hwhole
  obtain ⟨-, -, hread⟩ := hwhole
  exact hread

theorem leaves_event {keyword : Token} {ts after : List Token} {kind : NodeKind}
    {parts : List Tree} (h : event [] keyword ts = (node kind (leaf keyword :: parts), after)) :
    ts = leavesAll parts ++ after :=
  (List.cons.inj (reads_event h).leaves).2.symm

/-- An event with accessors is read up to the brace that closes them. -/
theorem accessorEvent_complete {keyword name opening : Token} {type : Tree}
    {ts rest mid : List Token} (ht : typeName? ts = some (type, rest))
    (hhead : accessorHead? rest = some (name, opening, mid))
    (hc : isComplete (node .eventDeclaration (leaf keyword :: type ::
      qualifier (qualifierExtent rest) rest ++ [leaf name, (accessorList opening mid).1])) = true) :
    ∃ c e, ts = c ++ e :: (accessorList opening mid).2 ∧ e.kind = .rbrace ∧ ∀ lead w,
      event lead keyword (c ++ e :: w) =
        (node .eventDeclaration (lead ++ leaf keyword :: type ::
          qualifier (qualifierExtent rest) rest ++ [leaf name, (accessorList opening mid).1]),
        w) := by
  obtain ⟨hdrop, hname, hopening⟩ := accessorHead?_eq_some.1 hhead
  obtain ⟨list, hlist, hend⟩ := (Option.any_eq_true _ _).1 hc
  -- no other part of the event is a list of accessors
  obtain rfl : list = (accessorList opening mid).1 := by
    have hof := List.find?_some hlist
    have hmem := List.mem_of_find?_eq_some hlist
    simp only [children, List.cons_append, List.mem_cons, List.mem_append, List.not_mem_nil,
      or_false] at hmem
    rcases hmem with rfl | rfl | hmem | rfl | rfl
    · cases hof
    · rw [isOf_of_isTypeNode (isTypeNode_typeName? ht) rfl] at hof
      cases hof
    · rw [qualifier] at hmem
      split at hmem
      · cases hmem
      · rw [List.mem_singleton.1 hmem] at hof
        cases hof
    · cases hof
    · rfl
  obtain ⟨b, e, hmid, he, hread⟩ := accessorList_complete hopening rfl hend
  rw [hmid] at hhead
  obtain ⟨c, hts, hevent⟩ := event_of_accessors keyword ht hhead he hread
  exact ⟨c, e, hts, he, hevent⟩

/-- An event that declares names is read up to its semicolon. -/
theorem fieldEvent_complete {keyword : Token} {type : Tree} {ts rest : List Token}
    (hk : keyword.kind = .keyword .eventKw) (ht : typeName? ts = some (type, rest))
    (hhead : accessorHead? rest = none) (hnames : (declarators rest).1 ≠ [])
    (hc : isComplete (fieldEvent [] keyword type rest).1 = true) :
    ∃ c e cs, ts = c ++ e :: (fieldEvent [] keyword type rest).2 ∧ e.kind = .semicolon ∧
      (fieldEvent [] keyword type rest).1 = node .eventFieldDeclaration (leaf keyword :: cs) ∧
      ∀ lead w, event lead keyword (c ++ e :: w) =
        (node .eventFieldDeclaration (lead ++ leaf keyword :: cs), w) := by
  have hread := reads_declarators rest
  have hbound := typeBound_of_declarators hnames
  rw [fieldEvent_eq] at hc ⊢
  rcases hd : declarators rest with ⟨names, mid⟩
  rw [hd] at hc hread
  dsimp only at hc hread ⊢
  -- the tokens of the event itself are its keyword and those behind the names
  have htokens : (node .eventFieldDeclaration ([] ++ leaf keyword :: node .variableDeclaration
      (type :: names) :: (mid.take (memberExtent mid)).map leaf)).childTokens =
        keyword :: mid.take (memberExtent mid) := by
    rw [childTokens, children, List.nil_append,
      List.filterMap_cons_some (show token? (leaf keyword) = some keyword from rfl),
      List.filterMap_cons_none (by rfl)]
    exact congrArg (keyword :: ·) (childTokens_map_leaf .eventFieldDeclaration _)
  rw [isComplete, htokens] at hc
  obtain ⟨hend, hopen⟩ := Bool.and_eq_true_iff.1 hc
  have hopen : openBrackets 0 (mid.take (memberExtent mid)) = 0 := by
    have h := of_decide_eq_true hopen
    rwa [openBrackets, hk] at h
  obtain ⟨b, e, hb, he⟩ : ∃ b e, mid.take (memberExtent mid) = b ++ [e] ∧ e.kind = .semicolon := by
    rcases List.eq_nil_or_concat (mid.take (memberExtent mid)) with hnil | ⟨b, e, hb⟩
    · rw [hnil, endsWith, List.getLast?_singleton, Option.any_some, hk] at hend
      cases hend
    · rw [List.concat_eq_append] at hb
      rw [hb, ← List.cons_append, endsWith, List.getLast?_concat, Option.any_some,
        decide_eq_true_eq] at hend
      exact ⟨b, e, hb, hend⟩
  rw [hb] at hopen ⊢
  have hext := memberExtent_complete hb he hopen
  have hmid : mid = b ++ e :: mid.drop (memberExtent mid) := by
    rw [List.append_cons, ← hb, List.take_append_drop]
  generalize mid.drop (memberExtent mid) = after at hmid ⊢
  subst hmid
  have hrest : rest = leavesAll names ++ b ++ e :: after := hread.front
  refine ⟨leavesAll [type] ++ (leavesAll names ++ b), e,
    node .variableDeclaration (type :: names) :: (b ++ [e]).map leaf, ?_, he, rfl, fun lead w => ?_⟩
  · have hfront := reads_typeName? ht
    rw [hrest] at hfront
    exact hfront.front
  · have htype := typeName?_of_front ht hrest (by omega) w
    rw [hrest] at hd hhead
    have hlen : b.length + 1 = (b ++ [e]).length := by rw [List.length_append]; rfl
    rw [event_eq, htype]
    dsimp only
    rw [accessorHead?_append w (Or.inl he) hhead]
    dsimp only
    rw [fieldEvent_eq, declarators_append w (Or.inl he) hd]
    dsimp only
    rw [hext, hlen, List.append_cons b e w, List.take_left, List.drop_left]

/-- An event that is declared like a field has a name. -/
theorem declarators_ne_nil {keyword : Token} {type : Tree} {rest : List Token} {kind : NodeKind}
    {cs : List Tree} {e : Event} (htype : type.isTypeNode = true)
    (h : (fieldEvent [] keyword type rest).1 = node kind cs)
    (he : Event.ofTree? (node kind cs) = some e) : (declarators rest).1 ≠ [] := by
  intro hnil
  rw [← h, fieldEvent_eq, hnil] at he
  have hfield : Event.ofField? (node .eventFieldDeclaration (leaf keyword ::
      node .variableDeclaration [type] ::
        ((declarators rest).2.take (memberExtent (declarators rest).2)).map leaf)) = some e := he
  simp only [Event.ofField?, Option.bind_eq_bind, Option.bind_eq_some_iff] at hfield
  obtain ⟨declaration, hdecl, -, -, first, hfirst, -⟩ := hfield
  obtain rfl : node .variableDeclaration [type] = declaration := Option.some.inj hdecl
  -- the first name would be the type
  obtain ⟨hmem, hof⟩ := List.mem_filter.1 (List.mem_of_head? hfirst)
  obtain rfl : first = type := List.mem_singleton.1 (List.mem_of_mem_filter hmem)
  rw [isOf_of_isTypeNode htype rfl] at hof
  cases hof

/-- A complete event ends with a semicolon or a brace, whatever follows it. -/
theorem exists_last_of_complete {keyword : Token} {ts after : List Token} {kind : NodeKind}
    {parts : List Tree} {e : Event} (hk : keyword.kind = .keyword .eventKw)
    (h : event [] keyword ts = (node kind (leaf keyword :: parts), after))
    (hc : isComplete (node kind (leaf keyword :: parts)) = true)
    (he : Event.ofTree? (node kind (leaf keyword :: parts)) = some e) :
    ∃ c x, leavesAll parts = c ++ [x] ∧ (x.kind = .semicolon ∨ x.kind = .rbrace) ∧ ∀ lead w,
      event lead keyword (c ++ x :: w) = (node kind (lead ++ leaf keyword :: parts), w) := by
  have hts := leaves_event h
  -- in front of what follows the event
  have hlast : ∀ {c : List Token} {x : Token}, ts = c ++ x :: after →
      leavesAll parts = c ++ [x] := by
    intro c x hcx
    rw [hcx, List.append_cons] at hts
    exact (List.append_cancel_right hts).symm
  rw [event_eq] at h
  cases ht : typeName? ts with
  | none =>
    rw [ht] at h
    rw [← (node.inj (Prod.mk.inj h).1).1] at hc
    cases hc
  | some r =>
    obtain ⟨type, rest⟩ := r
    rw [ht] at h
    dsimp only at h
    cases hhead : accessorHead? rest with
    | some p =>
      obtain ⟨name, opening, mid⟩ := p
      rw [hhead] at h
      obtain ⟨hnode, rfl⟩ := Prod.mk.inj h
      rw [List.nil_append] at hnode
      obtain ⟨rfl, hparts⟩ := node.inj hnode
      rw [← (List.cons.inj hparts).2] at hc hlast ⊢
      obtain ⟨c, x, hcx, hx, hevent⟩ := accessorEvent_complete ht hhead hc
      exact ⟨c, x, hlast hcx, Or.inr hx, fun lead w => by rw [hevent, List.append_assoc]; rfl⟩
    | none =>
      rw [hhead] at h
      dsimp only at h
      have hnames := declarators_ne_nil (isTypeNode_typeName? ht) (congrArg Prod.fst h) he
      obtain ⟨c, x, cs, hcx, hx, hcs, hevent⟩ :=
        fieldEvent_complete hk ht hhead hnames (by rw [h]; exact hc)
      rw [h] at hcx hcs
      obtain ⟨rfl, hparts⟩ := node.inj hcs
      obtain rfl : parts = cs := (List.cons.inj hparts).2
      exact ⟨c, x, hlast hcx, Or.inl hx, hevent⟩

/-- A complete event is read from its own tokens whatever follows them. -/
theorem event_complete {keyword : Token} {ts after : List Token} {kind : NodeKind}
    {parts : List Tree} {e : Event} (hk : keyword.kind = .keyword .eventKw)
    (h : event [] keyword ts = (node kind (leaf keyword :: parts), after))
    (hc : isComplete (node kind (leaf keyword :: parts)) = true)
    (he : Event.ofTree? (node kind (leaf keyword :: parts)) = some e)
    (lead : List Tree) (w : List Token) :
    event lead keyword (leavesAll parts ++ w) = (node kind (lead ++ leaf keyword :: parts), w) := by
  obtain ⟨c, x, hcx, -, hevent⟩ := exists_last_of_complete hk h hc he
  rw [hcx, List.append_assoc, List.singleton_append, hevent]

theorem isComplete_of_isLead {lead : List Tree} (h : IsLead lead) (kind : NodeKind)
    (cs : List Tree) : isComplete (node kind (lead ++ cs)) = isComplete (node kind cs) := by
  unfold isComplete
  rw [nodeKind?, nodeKind?, h.childTokens, h.childNode? kind cs (by decide) (by decide)]

/-! ## 3. Events with another layout -/

/-- Events that differ in layout only say the same. -/
theorem outline_of_parts {kind : NodeKind} {cs cs' : List Tree} (hcs' : ∀ c ∈ cs', IsPart c)
    (hcs : ∀ c ∈ cs, IsPart c) (h : (node kind cs').plain = (node kind cs).plain) :
    (Event.ofTree? (node kind cs')).map Event.outline =
      (Event.ofTree? (node kind cs)).map Event.outline := by
  rw [← Event.outline_ofTree? (n := node kind cs') fun _ => hcs',
    ← Event.outline_ofTree? (n := node kind cs) fun _ => hcs, h]

/-- Tokens that spell a complete event are read as the same event, whatever their layout is and
whatever follows them. -/
theorem exists_event_of_bare {keyword k : Token} {ts after moved : List Token} {kind : NodeKind}
    {parts : List Tree} {e : Event} (hk : keyword.kind = .keyword .eventKw)
    (h : event [] keyword ts = (node kind (leaf keyword :: parts), after))
    (hc : isComplete (node kind (leaf keyword :: parts)) = true)
    (he : Event.ofTree? (node kind (leaf keyword :: parts)) = some e)
    (hkey : k.bare = keyword.bare)
    (hmoved : moved.map Token.bare = (leavesAll parts).map Token.bare) (rest : List Token) :
    ∃ parts' e', (∀ lead, event lead k (moved ++ rest) =
        (node kind (lead ++ leaf k :: parts'), rest)) ∧
      (∀ c ∈ parts', c.isOf .modifierList = false) ∧
      Event.ofTree? (node kind (leaf k :: parts')) = some e' ∧ e'.outline = e.outline := by
  obtain ⟨kind', parts', after', hparts', hread⟩ := event_children k (moved ++ rest)
  have hsame : relabelledOne .plain (event [] k (moved ++ rest)) =
      relabelledOne .plain (event [] keyword (leavesAll parts ++ rest)) := by
    have hkeyword := map_plain_eq (show [k].map Token.bare = [keyword].map Token.bare by
      rw [List.map_singleton, List.map_singleton, hkey])
    rw [← event_map, ← event_map, List.map_append, List.map_append, map_plain_eq hmoved,
      (List.cons.inj hkeyword).1]
  rw [hread, event_complete hk h hc he] at hsame
  obtain ⟨htree, hrest⟩ := Prod.mk.inj hsame
  obtain rfl : kind' = kind := by
    rw [map_node, map_node] at htree
    exact (node.inj htree).1
  -- as many tokens are left
  obtain rfl : after' = rest := by
    have hlen := congrArg List.length hrest
    rw [List.length_map, List.length_map] at hlen
    exact (List.append_inj_right' (leaves_event (hread [])) hlen.symm).symm
  have hof := outline_of_parts (reads_event (hread [])).parts (reads_event h).parts htree
  rw [he] at hof
  obtain ⟨e', he', houtline⟩ := Option.map_eq_some_iff.1 hof
  exact ⟨parts', e', hread, hparts', he', houtline⟩

end EventLint.Tree
