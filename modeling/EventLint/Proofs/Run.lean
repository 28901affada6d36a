import EventLint.Proofs.Lexeme
import EventLint.Proofs.Opening

/-!
# Runs of the reader

The reader of declarations as a machine with a stack of scopes: it reads a declaration, enters the
body of one or leaves a body. Main statement: the events in front of a declaration are the same
whatever stands in its place and after it, as long as a member starts there, and the reader comes
to that place.
-/

namespace EventLint.Tree

/-! ## 1. Events of a tree -/

mutual

/-- The event members of a tree, in order. -/
def eventNodes : Tree → List Tree
  | leaf _ => []
  | node k cs => if k.isEvent then [node k cs] else eventNodesAll cs

def eventNodesAll : List Tree → List Tree
  | [] => []
  | c :: cs => c.eventNodes ++ eventNodesAll cs

end

mutual

/-- The event members of a tree, in order, each with whether an interface is around it; `hidden`
says so of the tree itself. -/
def taggedEvents (hidden : Bool) : Tree → List (Bool × Tree)
  | leaf _ => []
  | node k cs =>
    if k.isEvent then [(hidden, node k cs)]
    else taggedEventsAll (hidden || k = .interfaceDeclaration) cs

def taggedEventsAll (hidden : Bool) : List Tree → List (Bool × Tree)
  | [] => []
  | c :: cs => c.taggedEvents hidden ++ taggedEventsAll hidden cs

end

mutual

theorem map_snd_taggedEvents (hidden : Bool) :
    ∀ t : Tree, (t.taggedEvents hidden).map Prod.snd = t.eventNodes
  | leaf _ => by rw [taggedEvents, eventNodes, List.map_nil]
  | node k cs => by
    rw [taggedEvents, eventNodes]
    split
    · rfl
    · exact map_snd_taggedEventsAll _ cs

theorem map_snd_taggedEventsAll (hidden : Bool) :
    ∀ cs : List Tree, (taggedEventsAll hidden cs).map Prod.snd = eventNodesAll cs
  | [] => by rw [taggedEventsAll, eventNodesAll, List.map_nil]
  | c :: cs => by
    rw [taggedEventsAll, eventNodesAll, List.map_append, map_snd_taggedEvents,
      map_snd_taggedEventsAll]

end

theorem taggedEventsAll_append (hidden : Bool) (a b : List Tree) :
    taggedEventsAll hidden (a ++ b) = taggedEventsAll hidden a ++ taggedEventsAll hidden b := by
  induction a with
  | nil => rfl
  | cons c a ih => rw [List.cons_append, taggedEventsAll, taggedEventsAll, ih, List.append_assoc]

theorem taggedEventsAll_eq_nil (hidden : Bool) {cs : List Tree} (h : eventNodesAll cs = []) :
    taggedEventsAll hidden cs = [] := by
  rw [← map_snd_taggedEventsAll hidden] at h
  exact List.map_eq_nil_iff.1 h

theorem eventNodesAll_append (a b : List Tree) :
    eventNodesAll (a ++ b) = eventNodesAll a ++ eventNodesAll b := by
  induction a with
  | nil => rfl
  | cons c a ih => rw [List.cons_append, eventNodesAll, eventNodesAll, ih, List.append_assoc]

theorem eventNodesAll_eq_nil {cs : List Tree} (h : ∀ c ∈ cs, c.eventNodes = []) :
    eventNodesAll cs = [] := by
  induction cs with
  | nil => rfl
  | cons c cs ih =>
    rw [eventNodesAll, h c List.mem_cons_self, List.nil_append]
    exact ih fun d hd => h d (List.mem_cons_of_mem c hd)

theorem isEvent_of_isPart {k : NodeKind} (h : k.isPart = true) : k.isEvent = false := by
  cases k <;> first | rfl | cases h

theorem isEvent_of_isContainer {k : NodeKind} (h : k.isContainer = true) : k.isEvent = false := by
  cases k <;> first | rfl | cases h

theorem IsPart.eventNodes {t : Tree} (h : IsPart t) : t.eventNodes = [] := by
  induction h with
  | leaf t => rfl
  | node hk _ _ _ ih =>
    rw [Tree.eventNodes, isEvent_of_isPart hk, if_neg Bool.false_ne_true]
    exact eventNodesAll_eq_nil ih

/-- A declaration without a body is one event or has none. -/
theorem Whole.taggedEvents {ts rest : List Token} {tree : Tree} (h : Whole ts tree rest)
    (hidden : Bool) :
    tree.taggedEvents hidden =
      if tree.nodeKind?.any NodeKind.isEvent then [(hidden, tree)] else [] := by
  obtain ⟨hk, hne, h⟩ := h
  rw [Tree.taggedEvents, nodeKind?, Option.any_some, taggedEventsAll_eq_nil _
    (eventNodesAll_eq_nil fun c hc => (h.parts c hc).eventNodes)]

/-! ## 2. Scopes -/

/-- The declarations of a scope end here. -/
def Scope.ends (s : Scope) (ts : List Token) : Bool :=
  ts.head?.all fun t => s.endsAt t.kind

/-- What is left after the end of a scope. -/
def afterClose : Scope → List Token → List Token
  | .file, ts => ts
  | .namespaceBody, ts => (optional .rbrace ts).2
  | .typeBody, ts => (optional .semicolon (optional .rbrace ts).2).2

theorem afterClose_length_le (s : Scope) (ts : List Token) :
    (afterClose s ts).length ≤ ts.length := by
  cases s with
  | file => exact Nat.le_refl _
  | namespaceBody => exact (reads_optional .rbrace ts).rest_le
  | typeBody =>
    exact Nat.le_trans (reads_optional .semicolon _).rest_le (reads_optional .rbrace ts).rest_le

theorem closeContainer_rest (kind : NodeKind) (parts : List Tree) (s : Scope)
    (inner : List Tree × List Token) :
    (closeContainer kind parts s inner).2 = afterClose s inner.2 := by
  cases s <;> rfl

theorem eventNodes_optional (k : TokenKind) (ts : List Token) :
    eventNodesAll (optional k ts).1 = [] :=
  eventNodesAll_eq_nil fun c hc => ((reads_optional k ts).parts c hc).eventNodes

theorem eventNodes_closeContainer {kind : NodeKind} {parts : List Tree} (s : Scope)
    (inner : List Tree × List Token) (hk : kind.isContainer = true)
    (hp : ∀ c ∈ parts, IsPart c) :
    (closeContainer kind parts s inner).1.eventNodes = eventNodesAll inner.1 := by
  have hparts : eventNodesAll parts = [] := eventNodesAll_eq_nil fun c hc => (hp c hc).eventNodes
  cases s <;>
    simp only [closeContainer, eventNodes, isEvent_of_isContainer hk, Bool.false_eq_true, if_false,
      eventNodesAll_append, hparts, eventNodes_optional, List.nil_append, List.append_nil]

theorem taggedEvents_closeContainer {kind : NodeKind} {parts : List Tree} (hidden : Bool)
    (s : Scope) (inner : List Tree × List Token) (hk : kind.isContainer = true)
    (hp : ∀ c ∈ parts, IsPart c) :
    (closeContainer kind parts s inner).1.taggedEvents hidden =
      taggedEventsAll (hidden || kind = .interfaceDeclaration) inner.1 := by
  have hparts := fun hidden => taggedEventsAll_eq_nil hidden
    (eventNodesAll_eq_nil fun c hc => (hp c hc).eventNodes)
  have hoptional := fun hidden k ts => taggedEventsAll_eq_nil hidden (eventNodes_optional k ts)
  cases s <;>
    simp only [closeContainer, taggedEvents, isEvent_of_isContainer hk, Bool.false_eq_true,
      if_false, taggedEventsAll_append, hparts, hoptional, List.nil_append, List.append_nil]

/-- The events that are still to come where `scopes` are open, the innermost first. -/
def eventsFrom : List Scope → List Token → List Tree
  | [], _ => []
  | s :: ss, ts =>
    eventNodesAll (declarations s ts).1 ++ eventsFrom ss (afterClose s (declarations s ts).2)

theorem eventsFrom_file (ts : List Token) : eventsFrom [.file] ts = (ofTokens ts).eventNodes := by
  rw [eventsFrom, eventsFrom, List.append_nil, ofTokens, eventNodes]
  rfl

/-- A scope, and whether an interface is around it. -/
structure Level where
  scope : Scope
  hidden : Bool

namespace Level

def file : Level :=
  ⟨.file, false⟩

/-- The body of a declaration of this kind. -/
def inside (l : Level) (kind : NodeKind) (inner : Scope) : Level :=
  ⟨inner, l.hidden || kind = .interfaceDeclaration⟩

end Level

/-- The events that are still to come with `levels` open, with whether an interface is around
them. -/
def taggedFrom : List Level → List Token → List (Bool × Tree)
  | [], _ => []
  | l :: ls, ts =>
    taggedEventsAll l.hidden (declarations l.scope ts).1 ++
      taggedFrom ls (afterClose l.scope (declarations l.scope ts).2)

theorem taggedFrom_file (ts : List Token) :
    taggedFrom [.file] ts = (ofTokens ts).taggedEvents false := by
  rw [taggedFrom, taggedFrom, List.append_nil, ofTokens, taggedEvents]
  rfl

section

variable {s inner : Scope} {ts after : List Token} {tree : Tree} {kind : NodeKind}
  {parts : List Tree}

theorem declarations_of_ends (h : s.ends ts = true) : declarations s ts = ([], ts) := by
  cases ts with
  | nil => exact declarations_nil s
  | cons t rest => exact declarations_of_endsAt rest h

theorem declarations_of_whole (he : s.ends ts = false)
    (h : opening? s ts = some (.whole tree after)) :
    declarations s ts = (tree :: (declarations s after).1, (declarations s after).2) := by
  cases ts with
  | nil => cases h
  | cons t rest =>
    have hd : declaration s t rest = (tree, after) := by
      rw [declaration, Option.some.inj h]
    rw [declarations_cons rest he, hd]

theorem declarations_of_container (he : s.ends ts = false)
    (h : opening? s ts = some (.container kind parts inner after)) :
    declarations s ts =
      ((closeContainer kind parts inner (declarations inner after)).1 ::
          (declarations s (afterClose inner (declarations inner after).2)).1,
        (declarations s (afterClose inner (declarations inner after).2)).2) := by
  cases ts with
  | nil => cases h
  | cons t rest =>
    have hd : declaration s t rest =
        closeContainer kind parts inner (declarations inner after) := by
      rw [declaration, Option.some.inj h]
    rw [declarations_cons rest he, hd, closeContainer_rest]

theorem eventsFrom_of_ends (ss : List Scope) (h : s.ends ts = true) :
    eventsFrom (s :: ss) ts = eventsFrom ss (afterClose s ts) := by
  rw [eventsFrom, declarations_of_ends h]
  rfl

theorem opening?_whole (h : opening? s ts = some (.whole tree after)) : Whole ts tree after := by
  cases ts with
  | nil => cases h
  | cons t rest =>
    have hr := reads_openDeclaration s t rest
    rwa [Option.some.inj h] at hr

theorem opening?_container (h : opening? s ts = some (.container kind parts inner after)) :
    Reads ts parts after ∧ kind.isContainer = true ∧ after.length < ts.length := by
  cases ts with
  | nil => cases h
  | cons t rest =>
    have hr := reads_openDeclaration s t rest
    have ho := Option.some.inj h
    rw [ho] at hr
    exact ⟨hr.1, hr.2.2, Nat.lt_succ_of_le (openDeclaration_rest_le ho)⟩

theorem eventsFrom_of_whole (ss : List Scope) (he : s.ends ts = false)
    (h : opening? s ts = some (.whole tree after)) :
    eventsFrom (s :: ss) ts = tree.eventNodes ++ eventsFrom (s :: ss) after := by
  rw [eventsFrom, declarations_of_whole he h, eventNodesAll, eventsFrom, List.append_assoc]

theorem eventsFrom_of_container (ss : List Scope) (he : s.ends ts = false)
    (h : opening? s ts = some (.container kind parts inner after)) :
    eventsFrom (s :: ss) ts = eventsFrom (inner :: s :: ss) after := by
  obtain ⟨hr, hk, -⟩ := opening?_container h
  rw [eventsFrom, declarations_of_container he h, eventNodesAll,
    eventNodes_closeContainer inner _ hk hr.parts, eventsFrom, eventsFrom, List.append_assoc]

end

section

variable {l : Level} {ts after : List Token}

theorem taggedFrom_of_ends (ls : List Level) (h : l.scope.ends ts = true) :
    taggedFrom (l :: ls) ts = taggedFrom ls (afterClose l.scope ts) := by
  rw [taggedFrom, declarations_of_ends h]
  rfl

theorem taggedFrom_of_whole {tree : Tree} (ls : List Level) (he : l.scope.ends ts = false)
    (h : opening? l.scope ts = some (.whole tree after)) :
    taggedFrom (l :: ls) ts = tree.taggedEvents l.hidden ++ taggedFrom (l :: ls) after := by
  rw [taggedFrom, declarations_of_whole he h, taggedEventsAll, taggedFrom, List.append_assoc]

theorem taggedFrom_of_container {kind : NodeKind} {parts : List Tree} {inner : Scope}
    (ls : List Level) (he : l.scope.ends ts = false)
    (h : opening? l.scope ts = some (.container kind parts inner after)) :
    taggedFrom (l :: ls) ts = taggedFrom (l.inside kind inner :: l :: ls) after := by
  obtain ⟨hr, hk, -⟩ := opening?_container h
  rw [taggedFrom, declarations_of_container he h, taggedEventsAll,
    taggedEvents_closeContainer l.hidden inner _ hk hr.parts, taggedFrom, taggedFrom,
    List.append_assoc]
  rfl

end

/-! ## 3. Runs -/

/-- From `ts` with `levels` open, the machine comes to other levels and tokens and meets the events
`out` on the way. -/
inductive Run : List Level → List Token → List (Bool × Tree) → List Level → List Token → Prop where
  | refl {ls : List Level} {ts : List Token} : Run ls ts [] ls ts
  | whole {l : Level} {ls ls' : List Level} {ts after ts' : List Token} {tree : Tree}
      {out : List (Bool × Tree)} (he : l.scope.ends ts = false)
      (ho : opening? l.scope ts = some (.whole tree after))
      (h : Run (l :: ls) after out ls' ts') :
      Run (l :: ls) ts (tree.taggedEvents l.hidden ++ out) ls' ts'
  | enter {l : Level} {inner : Scope} {ls ls' : List Level} {ts after ts' : List Token}
      {kind : NodeKind} {parts : List Tree} {out : List (Bool × Tree)}
      (he : l.scope.ends ts = false)
      (ho : opening? l.scope ts = some (.container kind parts inner after))
      (h : Run (l.inside kind inner :: l :: ls) after out ls' ts') : Run (l :: ls) ts out ls' ts'
  | leave {l : Level} {ls ls' : List Level} {ts ts' : List Token} {out : List (Bool × Tree)}
      (he : l.scope.ends ts = true) (h : Run ls (afterClose l.scope ts) out ls' ts') :
      Run (l :: ls) ts out ls' ts'

theorem exists_opening {s : Scope} {ts : List Token} (he : s.ends ts = false) :
    ∃ opening, opening? s ts = some opening := by
  cases ts with
  | nil => cases he
  | cons t rest => exact ⟨_, rfl⟩

/-- A run leads to every event, and meets the ones before it on the way. -/
theorem exists_run {ls : List Level} {ts : List Token} {out more : List (Bool × Tree)}
    {hidden : Bool} {n : Tree} (h : taggedFrom ls ts = out ++ (hidden, n) :: more) :
    ∃ l ls' r after, Run ls ts out (l :: ls') r ∧ l.hidden = hidden ∧ l.scope.ends r = false ∧
      opening? l.scope r = some (.whole n after) := by
  -- entering a body adds a level but takes a token
  generalize hm : 2 * ts.length + ls.length = m
  induction m using Nat.strongRecOn generalizing ls ts out with
  | _ m ih =>
  subst hm
  cases ls with
  | nil => simp [taggedFrom] at h
  | cons l ls =>
    cases he : l.scope.ends ts with
    | true =>
      rw [taggedFrom_of_ends ls he] at h
      have hle := afterClose_length_le l.scope ts
      obtain ⟨l', ls', r, after, hrun, hr⟩ := ih _ (by simp only [List.length_cons]; omega) h rfl
      exact ⟨l', ls', r, after, .leave he hrun, hr⟩
    | false =>
      obtain ⟨opening, ho⟩ := exists_opening he
      cases opening with
      | container kind parts inner after =>
        rw [taggedFrom_of_container ls he ho] at h
        have hlt := (opening?_container ho).2.2
        obtain ⟨l', ls', r, after, hrun, hr⟩ := ih _ (by simp only [List.length_cons]; omega) h rfl
        exact ⟨l', ls', r, after, .enter he ho hrun, hr⟩
      | whole tree after =>
        have hw := opening?_whole ho
        have hlt := hw.declares.rest_lt
        rw [taggedFrom_of_whole ls he ho] at h
        -- a declaration has no event, or it is one: the next of `out`, or `n` itself
        have hevents := hw.taggedEvents l.hidden
        split at hevents
        · rw [hevents, List.singleton_append] at h
          cases out with
          | nil =>
            obtain ⟨hfirst, -⟩ := List.cons.inj h
            obtain ⟨rfl, rfl⟩ := Prod.mk.inj hfirst
            exact ⟨l, ls, ts, after, .refl, rfl, he, ho⟩
          | cons first out =>
            rw [List.cons_append] at h
            obtain ⟨rfl, htail⟩ := List.cons.inj h
            obtain ⟨l', ls', r, after, hrun, hr⟩ := ih _ (by omega) htail rfl
            refine ⟨l', ls', r, after, ?_, hr⟩
            have hall := hrun.whole he ho
            rwa [hevents, List.singleton_append] at hall
        · rw [hevents, List.nil_append] at h
          obtain ⟨l', ls', r, after, hrun, hr⟩ := ih _ (by omega) h rfl
          refine ⟨l', ls', r, after, ?_, hr⟩
          have hall := hrun.whole he ho
          rwa [hevents, List.nil_append] at hall

theorem eventNodes_of_tagged {t n : Tree} {met more : List (Bool × Tree)} {hidden : Bool}
    (h : t.taggedEvents false = met ++ (hidden, n) :: more) :
    t.eventNodes = met.map Prod.snd ++ n :: more.map Prod.snd := by
  rw [← map_snd_taggedEvents false, h, List.map_append, List.map_cons]

/-- Every event has its tag. -/
theorem exists_tagged {ts : List Token} {before behind : List Tree} {n : Tree}
    (h : (ofTokens ts).eventNodes = before ++ n :: behind) :
    ∃ met hidden more, (ofTokens ts).taggedEvents false = met ++ (hidden, n) :: more ∧
      met.map Prod.snd = before ∧ more.map Prod.snd = behind := by
  rw [← map_snd_taggedEvents false] at h
  obtain ⟨met, rest, hsplit, hmet, hrest⟩ := List.map_eq_append_iff.1 h
  obtain ⟨x, more, rfl, rfl, hmore⟩ := List.map_eq_cons_iff.1 hrest
  exact ⟨met, x.1, more, hsplit, hmet, hmore⟩

namespace Run

variable {ls ls' : List Level} {ts r : List Token} {out : List (Bool × Tree)}

/-- The events on the way come first. -/
theorem taggedFrom_eq (h : Run ls ts out ls' r) :
    taggedFrom ls ts = out ++ taggedFrom ls' r := by
  induction h with
  | refl => rfl
  | whole he ho _ ih => rw [taggedFrom_of_whole _ he ho, ih, List.append_assoc]
  | enter he ho _ ih => rw [taggedFrom_of_container _ he ho, ih]
  | leave he _ ih => rw [taggedFrom_of_ends _ he, ih]

end Run

/-! ## 4. What a run depends on -/

/-- A member starts here, with an attribute or a word. -/
def startsMember (ts : List Token) : Bool :=
  ts.head?.any fun t => t.kind = .lbracket || t.kind = .ident || t.kind.isKeyword

theorem exists_startsMember {ts : List Token} (h : startsMember ts = true) :
    ∃ t us, ts = t :: us ∧ (t.kind = .lbracket ∨ t.kind = .ident ∨ t.kind.isKeyword = true) := by
  cases ts with
  | nil => cases h
  | cons t us =>
    have hk : (t.kind = .lbracket || t.kind = .ident || t.kind.isKeyword) = true := h
    simp only [Bool.or_eq_true, decide_eq_true_eq, or_assoc] at hk
    exact ⟨t, us, rfl, hk⟩

theorem nextIs_of_startsMember {ts : List Token} {k : TokenKind} (h : startsMember ts = true)
    (hk : k ≠ .lbracket ∧ k ≠ .ident ∧ k.isKeyword = false) : nextIs k ts = false := by
  obtain ⟨t, us, rfl, ht⟩ := exists_startsMember h
  refine decide_eq_false fun he => ?_
  rw [he] at ht
  rcases ht with ht | ht | ht
  · exact hk.1 ht
  · exact hk.2.1 ht
  · rw [hk.2.2] at ht
    cases ht

theorem closes_of_startsMember {e : Token} {w : List Token} (h : startsMember (e :: w) = true) :
    e.kind.closes = false := by
  obtain ⟨t, us, ht, hk⟩ := exists_startsMember h
  obtain ⟨rfl, -⟩ := List.cons.inj ht
  generalize e.kind = k at hk
  cases k <;> first | rfl | simp [TokenKind.isKeyword] at hk

section

variable {r r' : List Token}

theorem nextIs_append_startsMember {k : TokenKind} (hr : startsMember r = true)
    (hr' : startsMember r' = true) (hk : k ≠ .lbracket ∧ k ≠ .ident ∧ k.isKeyword = false)
    (a : List Token) : nextIs k (a ++ r') = nextIs k (a ++ r) := by
  cases a with
  | nil =>
    rw [List.nil_append, List.nil_append, nextIs_of_startsMember hr hk,
      nextIs_of_startsMember hr' hk]
  | cons t a => rfl

theorem angleOpens_append_startsMember (hr : startsMember r = true) (hr' : startsMember r' = true)
    (hw : AngleLike r r') (a : List Token) (depth : Nat) :
    angleOpens depth (a ++ r') = angleOpens depth (a ++ r) := by
  -- the depth changes from token to token, so it is not fixed
  induction a generalizing depth with
  | nil =>
    cases depth with
    | zero =>
      rw [angleOpens_zero, angleOpens_zero]
      exact nextIs_append_startsMember hr hr' (by decide) []
    | succ depth => exact hw depth
  | cons t a ih =>
    cases depth with
    | zero => rw [angleOpens_zero, angleOpens_zero]; rfl
    | succ depth => rw [List.cons_append, List.cons_append, angleOpens_succ, angleOpens_succ, ih]

theorem like_append (hr : startsMember r = true) (hr' : startsMember r' = true)
    (hw : AngleLike r r') (a : List Token) : Like (a ++ r) (a ++ r') where
  next := {
    ne := by
      obtain ⟨t, us, rfl, -⟩ := exists_startsMember hr
      simp
    semicolon := nextIs_append_startsMember hr hr' (by decide) a
    rbrace := nextIs_append_startsMember hr hr' (by decide) a
    continues := nextIs_append_startsMember hr hr' (by decide) a }
  angle depth := angleOpens_append_startsMember hr hr' hw a (depth + 1)

end

/-- Words that could be part of a name, and then an attribute or a keyword. -/
structure Start (w : List Token) (k : Token) : Prop where
  words : ∀ t ∈ w, t.kind = .ident
  first : k.kind = .lbracket ∨ k.kind.isKeyword = true

namespace Start

variable {w : List Token} {k : Token}

theorem startsMember (h : Start w k) (us : List Token) : startsMember (w ++ k :: us) = true := by
  cases w with
  | nil => rcases h.first with hk | hk <;> simp [Tree.startsMember, hk]
  | cons t w => simp [Tree.startsMember, h.words t List.mem_cons_self]

theorem not_isNamePart (h : Start w k) : isNamePart k = false := by
  have hk := h.first
  unfold isNamePart
  cases hkind : k.kind <;> first | rfl | simp [hkind, TokenKind.isKeyword] at hk

/-- Words belong to the name of a namespace in front of them. -/
theorem openNamespace_append (h : Start w k) {t : Token} {c : List Token}
    (hc : ∀ u ∈ c, isNamePart u = true) (us : List Token) :
    openNamespace t (c ++ (w ++ k :: us)) =
      .whole (node .namespaceDeclaration (leaf t :: (c ++ w).map leaf)) (k :: us) := by
  have hcw : ∀ u ∈ c ++ w, isNamePart u = true := by
    intro u hu
    rcases List.mem_append.1 hu with hu | hu
    · exact hc u hu
    · simp [isNamePart, h.words u hu]
  have hk : k.kind ≠ .semicolon ∧ k.kind ≠ .lbrace := by
    constructor <;> intro hk <;> have hf := h.first <;> rw [hk] at hf <;>
      simp [TokenKind.isKeyword] at hf
  rw [← List.append_assoc, Tree.openNamespace_append hcw h.not_isNamePart, if_neg hk.1, if_neg hk.2]

end Start

/-- The keyword or a part of the name of a namespace. -/
def isNameWord (t : Token) : Bool :=
  t.kind = .keyword .namespaceKw || isNamePart t

/-- The marks that a declaration ends with, or the part of it in front of a body. -/
def isStop (t : Token) : Bool :=
  t.kind = .semicolon || t.kind = .lbrace || t.kind.closes

/-- The tokens end with such a mark, or with the name of a namespace behind one. -/
def Stopped (a : List Token) : Prop :=
  ∃ q m, a = q ++ m ∧ (∀ t ∈ m, isNameWord t = true) ∧ ∀ t ∈ q.getLast?, isStop t = true

namespace Stopped

variable {a b : List Token}

theorem of_isStop (h : ∀ t ∈ a.getLast?, isStop t = true) : Stopped a :=
  ⟨a, [], (List.append_nil a).symm, List.forall_mem_nil _, h⟩

theorem append (ha : Stopped a) (hb : (∀ t ∈ a, isNameWord t = true) → Stopped b) :
    Stopped (b ++ a) := by
  obtain ⟨q, m, rfl, hm, hq⟩ := ha
  cases q with
  | nil =>
    obtain ⟨q, m', rfl, hm', hq⟩ := hb hm
    refine ⟨q, m' ++ m, List.append_assoc q m' m, fun t ht => ?_, hq⟩
    exact (List.mem_append.1 ht).elim (hm' t) (hm t)
  | cons x q =>
    refine ⟨b ++ x :: q, m, (List.append_assoc b (x :: q) m).symm, hm, fun t ht => hq t ?_⟩
    rw [List.getLast?_append, List.getLast?_eq_some_getLast (List.cons_ne_nil x q),
      Option.some_or] at ht
    rwa [List.getLast?_eq_some_getLast (List.cons_ne_nil x q)]

theorem isClean (h : Stopped a) : ∀ t ∈ a.getLast?, t.kind.isClean = true := by
  obtain ⟨q, m, rfl, hm, hq⟩ := h
  intro t ht
  rw [List.getLast?_append] at ht
  cases hlast : m.getLast? with
  | none =>
    rw [hlast, Option.none_or] at ht
    have hstop := hq t ht
    simp only [isStop, Bool.or_eq_true, decide_eq_true_eq, or_assoc] at hstop
    rcases hstop with hk | hk | hk
    · rw [hk]
      rfl
    · rw [hk]
      rfl
    · rcases TokenKind.eq_of_closes hk with hk | hk | hk <;> rw [hk] <;> rfl
  | some u =>
    rw [hlast, Option.some_or] at ht
    obtain rfl := Option.some.inj ht
    have hword := hm u (List.mem_of_getLast? hlast)
    simp only [isNameWord, isNamePart, Bool.or_eq_true, decide_eq_true_eq] at hword
    rcases hword with hk | (hk | hk) | hk <;> rw [hk] <;> rfl

end Stopped

/-- What a declaration is does not depend on the member `r` behind it, or behind `a`. A namespace
without a body is the exception. -/
theorem opening?_whole_append {s : Scope} {ts a r : List Token} {tree : Tree}
    (ho : opening? s ts = some (.whole tree (a ++ r))) (hr : startsMember r = true)
    (ht : ∀ t ∈ ts.head?, t.kind ≠ .keyword .namespaceKw) :
    ((∀ u ∈ a, isNameWord u = true) → Stopped tree.leaves) ∧
      ∀ r', startsMember r' = true → AngleLike r r' →
        opening? s (tree.leaves ++ a ++ r') = some (.whole tree (a ++ r')) := by
  have hdecl := (opening?_whole ho).declares
  have hts : ts = tree.leaves ++ (a ++ r) := by
    rw [← hdecl.leaves, leavesAll, leavesAll, List.append_nil]
  have hrne : a ++ r ≠ [] := by
    intro h
    rw [(List.append_eq_nil_iff.1 h).2] at hr
    cases hr
  obtain ⟨t, rest, rfl⟩ : ∃ t rest, ts = t :: rest := by
    cases ts with
    | nil => cases ho
    | cons t rest => exact ⟨t, rest, rfl⟩
  obtain ⟨b, e, w, hb, hframe⟩ := opening?_frame ho hrne (ht t rfl)
  rw [hb] at hts
  rcases hframe with ⟨hafter, hek, hP⟩ | ⟨hafter, hek, hP⟩
  · -- the declaration ends with `e`, a semicolon or a closing token
    have hleaves : tree.leaves = b ++ [e] := by
      rw [List.append_cons b e w, ← hafter] at hts
      exact (List.append_cancel_right hts).symm
    refine ⟨fun _ => .of_isStop fun u hu => ?_, fun r' hr' hw => ?_⟩
    · rw [hleaves, List.getLast?_concat] at hu
      obtain rfl := Option.some.inj hu
      rcases hek with hek | hek <;> simp [isStop, hek]
    · have hlike : Like w (a ++ r') := by
        rw [← hafter]
        exact like_append hr hr' hw a
      rw [hleaves, List.append_assoc, List.append_assoc, List.singleton_append]
      exact hP (a ++ r') hlike
  · -- it ends in front of the closing token `e`, which no member starts with
    cases a with
    | nil =>
      rw [List.nil_append] at hafter
      rw [hafter] at hr
      rw [closes_of_startsMember hr] at hek
      cases hek
    | cons x a =>
      obtain ⟨rfl, rfl⟩ := List.cons.inj hafter
      have hleaves : tree.leaves = b := (List.append_cancel_right hts).symm
      refine ⟨fun h => ?_, fun r' hr' hw => ?_⟩
      · have hword := h x List.mem_cons_self
        rcases TokenKind.eq_of_closes hek with hk | hk | hk <;>
          simp [isNameWord, isNamePart, hk] at hword
      rw [hleaves, List.append_assoc]
      exact hP (a ++ r') (like_append hr hr' hw a).angle

/-- Nor does the end of a scope in front of `a`. -/
theorem afterClose_append {s : Scope} {ts a r : List Token} (he : s.ends ts = true)
    (ha : afterClose s ts = a ++ r) (hr : startsMember r = true) :
    ∃ b, b ≠ [] ∧ ts = b ++ a ++ r ∧ Stopped b ∧
      ∀ r', startsMember r' = true →
        s.ends (b ++ a ++ r') = true ∧ afterClose s (b ++ a ++ r') = a ++ r' := by
  obtain ⟨t, rest, rfl⟩ : ∃ t rest, ts = t :: rest := by
    cases ts with
    | nil =>
      have hnil : a ++ r = [] := by
        rw [← ha]
        cases s <;> rfl
      rw [(List.append_eq_nil_iff.1 hnil).2] at hr
      cases hr
    | cons t rest => exact ⟨t, rest, rfl⟩
  have ht : t.kind = .rbrace := by
    have hk : (s ≠ .file && t.kind = .rbrace) = true := he
    rw [Bool.and_eq_true, decide_eq_true_eq, decide_eq_true_eq] at hk
    exact hk.2
  have hstopped : Stopped [t] := .of_isStop fun u hu => by
    rw [← show t = u from Option.some.inj hu, isStop, ht]
    rfl
  cases s with
  | file => cases he
  | namespaceBody =>
    have hrest : ∀ us, afterClose .namespaceBody (t :: us) = us := fun us => by
      rw [afterClose, optional, if_pos ht]
    rw [hrest] at ha
    exact ⟨[t], List.cons_ne_nil t [], by rw [ha]; rfl, hstopped, fun r' _ => ⟨he, hrest _⟩⟩
  | typeBody =>
    have hrest : ∀ us, afterClose .typeBody (t :: us) = (optional .semicolon us).2 := fun us => by
      rw [afterClose, optional, if_pos ht]
    rw [hrest] at ha
    cases hsemi : nextIs .semicolon rest with
    | true =>
      obtain ⟨u, us, rfl⟩ : ∃ u us, rest = u :: us := by
        cases rest with
        | nil => cases hsemi
        | cons u us => exact ⟨u, us, rfl⟩
      have hu : u.kind = .semicolon := of_decide_eq_true hsemi
      rw [optional, if_pos hu] at ha
      refine ⟨[t, u], List.cons_ne_nil t [u], by rw [show us = a ++ r from ha]; rfl,
        .of_isStop fun x hx => ?_, fun r' _ => ⟨he, ?_⟩⟩
      · rw [← show u = x from Option.some.inj hx, isStop, hu]
        rfl
      · show afterClose .typeBody (t :: u :: (a ++ r')) = _
        rw [hrest, optional, if_pos hu]
    | false =>
      -- a member starts with no semicolon, so none follows in the new tokens either
      rw [optional_of_nextIs hsemi] at ha
      dsimp only at ha
      refine ⟨[t], List.cons_ne_nil t [], by rw [ha]; rfl, hstopped, fun r' hr' => ⟨he, ?_⟩⟩
      show afterClose .typeBody (t :: (a ++ r')) = _
      rw [hrest, optional_of_nextIs]
      rw [nextIs_append_startsMember hr hr' (by decide) a, ← ha, hsemi]

/-- The tokens `a` in front of `r`, from which the machine meets the events `out` before it comes
to `r` with the levels `ls'` open. -/
structure Front (ls : List Level) (out : List (Bool × Tree)) (ls' : List Level) (r a : List Token) :
    Prop where
  empty : a = [] → ls = ls' ∧ out = []
  stopped : Stopped a
  leaves : ∀ x ∈ out, ∀ u ∈ x.2.leaves, u ∈ a
  /-- Whatever stands in place of `r`, the machine meets the same events and comes there. Only the
  name of a namespace right in front of it may take some words, and none where `r` starts. -/
  resume : ∀ w k us, Start w k → AngleLike r (w ++ k :: us) →
    ∃ i w', w = i ++ w' ∧ (r.head? = (w ++ k :: us).head? → i = []) ∧
      Run ls (a ++ (w ++ k :: us)) out ls' (w' ++ k :: us)

namespace Front

variable {l : Level} {ls ls' : List Level} {out : List (Bool × Tree)} {parts : List Tree}
  {r a ts : List Token} {tree : Tree} {kind : NodeKind} {inner : Scope}

theorem refl : Front ls [] ls r [] where
  empty _ := ⟨rfl, rfl⟩
  stopped := .of_isStop fun _ h => by cases h
  leaves _ h := by cases h
  resume w _ _ _ _ := ⟨[], w, rfl, fun _ => rfl, .refl⟩

/-- The tokens that a step takes come first, and what holds of the rest of the run holds of all of
it. -/
theorem step {mid : List Level} {b : List Token} (hf : Front mid out ls' r a)
    (more : List (Bool × Tree)) (hb : b ≠ [])
    (hstopped : (∀ t ∈ a, isNameWord t = true) → Stopped b)
    (hleaves : ∀ x ∈ more, ∀ u ∈ x.2.leaves, u ∈ b)
    (hresume : ∀ w k us, Start w k → AngleLike r (w ++ k :: us) →
      ∃ i w', w = i ++ w' ∧ (r.head? = (w ++ k :: us).head? → i = []) ∧ (i = [] ∨ a = []) ∧
        ∀ {out r'}, Run mid (a ++ (w' ++ k :: us)) out ls' r' →
          Run ls (b ++ a ++ (w ++ k :: us)) (more ++ out) ls' r') :
    Front ls (more ++ out) ls' r (b ++ a) where
  empty h := absurd (List.append_eq_nil_iff.1 h).1 hb
  stopped := hf.stopped.append hstopped
  leaves x hx u hu := by
    rcases List.mem_append.1 hx with hx | hx
    · exact List.mem_append_left _ (hleaves x hx u hu)
    · exact List.mem_append_right _ (hf.leaves x hx u hu)
  resume w k us hs hw := by
    obtain ⟨i, w', rfl, hsame, hi, he⟩ := hresume w k us hs hw
    -- only a step right in front of `r` can take words, so the rest of the run takes none then
    rcases hi with rfl | rfl
    · obtain ⟨j, w'', rfl, hsame, hrest⟩ := hf.resume w' k us hs hw
      exact ⟨j, w'', rfl, hsame, he hrest⟩
    · obtain ⟨rfl, rfl⟩ := hf.empty rfl
      exact ⟨i, w', rfl, hsame, he .refl⟩

theorem whole_namespace {t : Token} {rest : List Token} (hf : Front (l :: ls) out ls' r a)
    (hr : startsMember r = true) (ht : t.kind = .keyword .namespaceKw)
    (ho : opening? l.scope (t :: rest) = some (.whole tree (a ++ r))) :
    Front (l :: ls) (tree.taggedEvents l.hidden ++ out) ls' r (tree.leaves ++ a) := by
  rw [opening?_of_namespace rest ht] at ho
  obtain ⟨c, d, rfl, hc, hd⟩ := exists_name rest
  have hrne : r ≠ [] := by
    rintro rfl
    cases hr
  -- the name `c` ends at `e`, the first token of what follows it
  cases d with
  | nil =>
    rw [List.append_nil, openNamespace_of_name hc] at ho
    have hnil := (Opening.whole.inj (Option.some.inj ho)).2
    exact absurd (List.append_eq_nil_iff.1 hnil.symm).2 hrne
  | cons e d =>
    rw [openNamespace_append hc hd] at ho
    split at ho
    · cases ho
    · rename_i hs
      split at ho
      · cases ho
      · rename_i hb
        obtain ⟨rfl, had⟩ := Opening.whole.inj (Option.some.inj ho)
        have hleaves : (node .namespaceDeclaration (leaf t :: c.map leaf)).leaves = t :: c := by
          rw [Tree.leaves, ← List.map_cons, leavesAll_map_leaf]
        have hnodes : ∀ c : List Token,
            (node .namespaceDeclaration (leaf t :: c.map leaf)).taggedEvents l.hidden = [] := by
          intro c
          rw [taggedEvents, if_neg (by decide), ← List.map_cons]
          exact taggedEventsAll_eq_nil _ (eventNodesAll_eq_nil fun x hx => by
            obtain ⟨u, -, rfl⟩ := List.mem_map.1 hx
            rfl)
        have hends : ∀ us, l.scope.ends (t :: us) = false := by
          intro us
          simp [Scope.ends, Scope.endsAt, ht]
        rw [hleaves]
        refine hf.step _ (List.cons_ne_nil t c) (fun _ => ?_) (by simp [hnodes])
          fun w k us hw _ => ?_
        · refine ⟨[], t :: c, rfl, fun u hu => ?_, fun u hu => by cases hu⟩
          rcases List.mem_cons.1 hu with rfl | hu
          · simp [isNameWord, ht]
          · simp [isNameWord, hc u hu]
        · rw [hnodes]
          cases a with
          | nil =>
            -- nothing keeps the words from the name, but `e` is no part of it
            have hsame : r.head? = (w ++ k :: us).head? → w = [] := by
              intro hhead
              rw [← List.nil_append r, ← had] at hhead
              cases w with
              | nil => rfl
              | cons x w =>
                obtain rfl := Option.some.inj hhead
                simp [isNamePart, hw.words e List.mem_cons_self] at hd
            have hopen : opening? l.scope (t :: (c ++ (w ++ k :: us))) =
                some (.whole (node .namespaceDeclaration (leaf t :: (c ++ w).map leaf))
                  (k :: us)) := by
              rw [opening?_of_namespace _ ht, hw.openNamespace_append hc]
            refine ⟨w, [], (List.append_nil w).symm, hsame, Or.inr rfl, fun hrest => ?_⟩
            have hall := hrest.whole (hends _) hopen
            rw [hnodes] at hall
            rwa [List.append_nil]
          | cons x a =>
            -- the token after the name is the same
            obtain ⟨rfl, rfl⟩ := List.cons.inj had
            refine ⟨[], w, rfl, fun _ => rfl, Or.inl rfl, fun hrest => ?_⟩
            have hopen : opening? l.scope (t :: (c ++ e :: (a ++ (w ++ k :: us)))) =
                some (.whole (node .namespaceDeclaration (leaf t :: c.map leaf))
                  (e :: (a ++ (w ++ k :: us)))) := by
              rw [opening?_of_namespace _ ht, openNamespace_append hc hd, if_neg hs, if_neg hb]
            have hall := hrest.whole (hends _) hopen
            rw [hnodes] at hall
            rwa [List.append_assoc]

theorem whole (hf : Front (l :: ls) out ls' r a) (hr : startsMember r = true)
    (he : l.scope.ends ts = false) (ho : opening? l.scope ts = some (.whole tree (a ++ r))) :
    ts = tree.leaves ++ a ++ r ∧
      Front (l :: ls) (tree.taggedEvents l.hidden ++ out) ls' r (tree.leaves ++ a) := by
  have hdecl := (opening?_whole ho).declares
  have hne := (hdecl.declarations tree (List.mem_singleton_self _)).leaves_ne_nil
  have hts : ts = tree.leaves ++ a ++ r := by
    rw [← hdecl.leaves, leavesAll, leavesAll, List.append_nil, List.append_assoc]
  refine ⟨hts, ?_⟩
  by_cases ht : ∀ t ∈ ts.head?, t.kind ≠ .keyword .namespaceKw
  · -- the member ends in front of `r`, whatever follows
    obtain ⟨hstopped, hopen⟩ := opening?_whole_append ho hr ht
    have hends : ∀ r',
        l.scope.ends (tree.leaves ++ a ++ r') = l.scope.ends (tree.leaves ++ a ++ r) := by
      intro r'
      obtain ⟨x, xs, hx⟩ := List.exists_cons_of_ne_nil hne
      rw [hx]
      rfl
    have hmore : ∀ x ∈ tree.taggedEvents l.hidden, ∀ u ∈ x.2.leaves, u ∈ tree.leaves := by
      intro x hx u hu
      rw [(opening?_whole ho).taggedEvents] at hx
      split at hx
      · rwa [List.mem_singleton.1 hx] at hu
      · cases hx
    refine hf.step _ hne hstopped hmore fun w k us hs hw =>
      ⟨[], w, rfl, fun _ => rfl, Or.inl rfl, fun hrest => ?_⟩
    exact hrest.whole (by rw [hends, ← hts]; exact he) (hopen _ (hs.startsMember us) hw)
  · -- a namespace that opens no body is a whole, too
    cases ts with
    | nil => cases ho
    | cons t rest =>
      have ht : t.kind = .keyword .namespaceKw := by simpa using ht
      exact hf.whole_namespace hr ht ho

theorem enter (hf : Front (l.inside kind inner :: l :: ls) out ls' r a)
    (he : l.scope.ends ts = false)
    (ho : opening? l.scope ts = some (.container kind parts inner (a ++ r))) :
    ∃ b, ts = b ++ r ∧ Front (l :: ls) out ls' r b := by
  -- a body opens with its last token, whatever follows
  obtain ⟨b, e, rfl, hek, hopen⟩ := opening?_container_frame ho
  refine ⟨b ++ [e] ++ a, by simp, ?_⟩
  refine hf.step [] (by simp) (fun _ => .of_isStop fun u hu => ?_) (by simp) fun w k us _ _ =>
    ⟨[], w, rfl, fun _ => rfl, Or.inl rfl, fun hrest => ?_⟩
  · rw [List.getLast?_concat] at hu
    obtain rfl := Option.some.inj hu
    rcases hek with hek | hek <;> simp [isStop, hek]
  · generalize w ++ k :: us = r' at hrest ⊢
    have hts : b ++ [e] ++ a ++ r' = b ++ e :: (a ++ r') := by simp
    have hends : l.scope.ends (b ++ e :: (a ++ r')) = false := by
      rw [← he]
      cases b <;> rfl
    rw [hts]
    exact hrest.enter hends (hopen _)

theorem leave (hf : Front ls out ls' r a) (hr : startsMember r = true)
    (he : l.scope.ends ts = true) (ha : afterClose l.scope ts = a ++ r) :
    ∃ b, ts = b ++ r ∧ Front (l :: ls) out ls' r b := by
  obtain ⟨b, hb, hts, hstopped, hclose⟩ := afterClose_append he ha hr
  refine ⟨b ++ a, hts, hf.step [] hb (fun _ => hstopped) (by simp) fun w k us hs _ =>
    ⟨[], w, rfl, fun _ => rfl, Or.inl rfl, fun hrest => ?_⟩⟩
  obtain ⟨hends, hafter⟩ := hclose _ (hs.startsMember us)
  exact .leave hends (hafter ▸ hrest)

end Front

/-- What a run meets before it comes to a member does not depend on the member or on what follows
it. -/
theorem Run.front {ls ls' : List Level} {ts r : List Token} {out : List (Bool × Tree)}
    (h : Run ls ts out ls' r) (hr : startsMember r = true) :
    ∃ a, ts = a ++ r ∧ Front ls out ls' r a := by
  induction h with
  | refl => exact ⟨[], rfl, .refl⟩
  | whole he ho _ ih =>
    obtain ⟨a, rfl, hf⟩ := ih hr
    exact ⟨_, hf.whole hr he ho⟩
  | enter he ho _ ih =>
    obtain ⟨a, rfl, hf⟩ := ih hr
    exact hf.enter he ho
  | leave he _ ih =>
    obtain ⟨a, ha, hf⟩ := ih hr
    exact hf.leave hr he ha

end EventLint.Tree
