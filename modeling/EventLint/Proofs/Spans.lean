import EventLint.Proofs.EventNodes

/-!
# Where the nodes of a document stand

A node has a token unless it is the root, so the span of a node is made up of those of its
children, one after the other. Main statement: in every document the children of a node stand side
by side from its start to its end, and the text of a node is the text at its span.
-/

namespace EventLint

namespace Tree

open Token

/-! ## 1. Nodes below a node -/

mutual

/-- What stands below a node of a tree stands below the root of the tree. -/
theorem preorderAll_children_subset (t : Tree) {n : Tree} (h : n ∈ t.preorder) :
    preorderAll n.children ⊆ preorderAll t.children := by
  cases t with
  | leaf t => cases h
  | node k cs =>
    rcases List.mem_cons.1 h with rfl | h
    · exact List.Subset.refl _
    · exact preorderAll_children_subset_all cs h

theorem preorderAll_children_subset_all (cs : List Tree) {n : Tree} (h : n ∈ preorderAll cs) :
    preorderAll n.children ⊆ preorderAll cs := by
  cases cs with
  | nil => cases h
  | cons c cs =>
    rw [preorderAll]
    rcases List.mem_append.1 h with h | h
    · refine List.Subset.trans (preorderAll_children_subset c h) fun m hm => ?_
      cases c with
      | leaf t => cases h
      | node k ds => exact List.mem_append_left _ (List.mem_cons_of_mem _ hm)
    · exact fun m hm => List.mem_append_right _ (preorderAll_children_subset_all cs h hm)

end

/-- Only the root of a source file may be without tokens. -/
theorem leaves_ne_nil_of_mem_below {ts : List Token} {n : Tree}
    (hn : n ∈ preorderAll (ofTokens ts).children) : n.leaves ≠ [] := by
  obtain ⟨c, hc, hn⟩ := exists_of_mem_preorderAll hn
  rcases ((declares_declarations .file ts).declarations c hc).of_mem_preorder hn with hp | hd
  · exact leaves_ne_nil hp
  · exact hd.leaves_ne_nil

theorem leaves_ne_nil_of_mem_children {ts : List Token} {n c : Tree}
    (hn : n ∈ (ofTokens ts).preorder) (hc : c ∈ n.children) : c.leaves ≠ [] := by
  cases hnode : c.isNode with
  | true =>
    exact leaves_ne_nil_of_mem_below (preorderAll_children_subset _ hn
      (mem_preorderAll hc (mem_preorder_self hnode)))
  | false =>
    cases c with
    | leaf t => exact List.cons_ne_nil t []
    | node k cs => cases hnode

/-! ## 2. Children side by side -/

section

variable {cs : List Tree} (eof : Nat)

theorem inOrder_child {c : Tree} (ho : InOrder (leavesAll cs)) (hc : c ∈ cs) :
    InOrder c.leaves := by
  obtain ⟨a, b, rfl⟩ := List.append_of_mem hc
  rw [leavesAll_append, leavesAll, ← List.append_assoc] at ho
  exact ho.infix

theorem span_pos {t : Tree} (ho : InOrder t.leaves) (hne : t.leaves ≠ []) :
    (t.span eof).start < (t.span eof).stop := by
  obtain ⟨u, hu⟩ := List.exists_mem_of_ne_nil _ hne
  have hpos := ho.pos u hu
  have hspan := span_token eof ho hu
  omega

/-- Trees with their tokens in order stand side by side. -/
theorem pairwise_span (ho : InOrder (leavesAll cs)) (hne : ∀ c ∈ cs, c.leaves ≠ []) :
    cs.Pairwise fun a b => (a.span eof).stop ≤ (b.span eof).start := by
  induction cs with
  | nil => exact List.Pairwise.nil
  | cons c cs ih =>
    rw [leavesAll] at ho
    have hrest : InOrder (leavesAll cs) := by
      rw [← List.append_nil (c.leaves ++ leavesAll cs)] at ho
      exact ho.infix
    refine List.pairwise_cons.2
      ⟨fun d hd => ?_, ih hrest fun d hd => hne d (List.mem_cons_of_mem c hd)⟩
    obtain ⟨_, last, -, hl, -, -, hc⟩ := exists_span eof (hne c List.mem_cons_self)
    obtain ⟨first, _, hf, -, -, -, hs⟩ := exists_span eof (hne d (List.mem_cons_of_mem c hd))
    rw [hc, hs]
    exact ho.le hl (leaves_subset_leavesAll hd hf)

theorem mem_leaves_of_mem_children {n c : Tree} {u : Token} (hc : c ∈ n.children)
    (hu : u ∈ c.leaves) : u ∈ n.leaves := by
  cases n with
  | leaf t => cases hc
  | node k cs => exact leaves_subset_leavesAll hc hu

/-- A child lies in the span of its node. -/
theorem span_child {n c : Tree} (ho : InOrder n.leaves) (hc : c ∈ n.children)
    (hne : c.leaves ≠ []) :
    (n.span eof).start ≤ (c.span eof).start ∧ (c.span eof).stop ≤ (n.span eof).stop := by
  have hsub : ∀ u ∈ c.leaves, u ∈ n.leaves := fun _ hu => mem_leaves_of_mem_children hc hu
  obtain ⟨first, last, hf, hl, -, -, hs⟩ := exists_span eof hne
  rw [hs]
  exact ⟨(span_token eof ho (hsub first hf)).1, (span_token eof ho (hsub last hl)).2⟩

theorem span_start_of_head? {n c : Tree} (hc : c ∈ n.children.head?) (hne : c.leaves ≠ [])
    (hn : n.leaves ≠ []) : (n.span eof).start = (c.span eof).start := by
  obtain ⟨first, last, -, -, hf, -, hs⟩ := exists_span eof hn
  obtain ⟨first', last', -, -, hf', -, hs'⟩ := exists_span eof hne
  rw [hs, hs']
  cases n with
  | leaf t => cases hc
  | node k cs =>
    obtain ⟨ds, rfl⟩ := List.head?_eq_some_iff.1 hc
    rw [leaves, leavesAll, List.head?_append, hf', Option.some_or] at hf
    exact congrArg Token.start (Option.some.inj hf).symm

theorem span_stop_of_getLast? {n c : Tree} (hc : c ∈ n.children.getLast?) (hne : c.leaves ≠ [])
    (hn : n.leaves ≠ []) : (n.span eof).stop = (c.span eof).stop := by
  obtain ⟨first, last, -, -, -, hl, hs⟩ := exists_span eof hn
  obtain ⟨first', last', -, -, -, hl', hs'⟩ := exists_span eof hne
  rw [hs, hs']
  cases n with
  | leaf t => cases hc
  | node k cs =>
    obtain ⟨ds, rfl⟩ := List.getLast?_eq_some_iff.1 hc
    rw [leaves, leavesAll_append, leavesAll, leavesAll, List.append_nil, List.getLast?_append, hl',
      Option.some_or] at hl
    exact congrArg Token.stop (Option.some.inj hl).symm

end

end Tree

/-! ## 3. The text of a node -/

namespace Token

/-- The source of a run of tokens, without what stands in front of it, lies between the start of
its first and the end of its last token. -/
theorem InPlace.slice_joined {a b c : List Token} {first last : Token} (rest : Text)
    (h : InPlace 0 (a ++ b ++ c)) (hf : b.head? = some first) (hl : b.getLast? = some last) :
    Text.slice first.start last.stop (source (a ++ b ++ c) ++ rest) = some (Tree.joined b) := by
  obtain ⟨ts, rfl⟩ := List.head?_eq_some_iff.1 hf
  have hab : InPlace 0 (a ++ first :: ts) := (InPlace.append_iff.1 h).1
  have hstart : first.start = Text.byteSize (source a ++ first.leading) := by
    have hfirst := (InPlace.append_iff.1 hab).2.1
    rw [Text.byteSize_append]
    omega
  have hjoined : source (first :: ts) = first.leading ++ Tree.joined (first :: ts) := by
    rw [source_cons, List.append_assoc]
    rfl
  -- the last token ends where all that was written up to it ends
  have hstop : last.stop =
      Text.byteSize (source a ++ first.leading) + Text.byteSize (Tree.joined (first :: ts)) := by
    have hlast : (a ++ first :: ts).getLast? = some last := by
      rw [List.getLast?_append, hl, Option.some_or]
    have heq := hab.lastStop_eq
    rw [lastStop, hlast, Option.map_some, Option.getD_some] at heq
    rw [heq, source_append, hjoined, ← List.append_assoc, Text.byteSize_append]
  rw [source_append, source_append, hjoined, ← List.append_assoc, List.append_assoc _ (source c),
    hstart, hstop]
  exact Text.slice_append _ _ _

end Token

namespace Document

open EventLint.Tree Token

/-- The text of a node is the text at its span. -/
theorem slice?_spanOf {text : Text} {n : Tree} (hn : n ∈ (ofText text).root.preorder) :
    (ofText text).slice? ((ofText text).spanOf n) = some n.text := by
  by_cases hne : n.leaves = []
  · -- a node without tokens is the empty text at the end of the source
    have heof := Text.slice_append text [] []
    rw [List.append_nil, List.append_nil] at heof
    have hspan : n.span (ofText text).eof = ⟨Text.byteSize text, Text.byteSize text⟩ := by
      rw [Tree.span, hne]
      rfl
    rw [slice?, spanOf, hspan, Tree.text, hne]
    exact heof
  · obtain ⟨a, b, hab⟩ := leaves_infix _ hn
    rw [show (ofText text).root.leaves = scan text from leaves_ofTokens _] at hab
    obtain ⟨first, last, -, -, hf, hl, hs⟩ := exists_span (ofText text).eof hne
    obtain ⟨rest, hsource, -⟩ := scan_source text
    have hplace := scan_inPlace text
    rw [hab] at hplace hsource
    rw [slice?, spanOf, hs, Tree.text, ← hplace.slice_joined rest hf hl]
    exact congrArg _ hsource.symm

/-! ## 4. Every node -/

/-- A node stands where its children do, and is written there. -/
structure WellPlaced (d : Document) (n : Tree) : Prop where
  /-- No child is empty. -/
  filled : ∀ c ∈ n.children, (d.spanOf c).start < (d.spanOf c).stop
  /-- Each child ends before the later ones start. -/
  disjoint : n.children.Pairwise fun a b => (d.spanOf a).stop ≤ (d.spanOf b).start
  inside : ∀ c ∈ n.children,
    (d.spanOf n).start ≤ (d.spanOf c).start ∧ (d.spanOf c).stop ≤ (d.spanOf n).stop
  first : ∀ c ∈ n.children.head?, (d.spanOf n).start = (d.spanOf c).start
  last : ∀ c ∈ n.children.getLast?, (d.spanOf n).stop = (d.spanOf c).stop
  text : d.slice? (d.spanOf n) = some n.text

/-- Only the root may have no token, and every node stands where its children do. -/
theorem ofText_wellPlaced (text : Text) :
    (∀ n ∈ (ofText text).root.preorder, n.leaves = [] → n = (ofText text).root) ∧
    (∀ n ∈ preorderAll (ofText text).root.children, n.leaves ≠ []) ∧
    ∀ n ∈ (ofText text).root.preorder, (ofText text).WellPlaced n := by
  refine ⟨fun n hn hnil => ?_, fun n hn => leaves_ne_nil_of_mem_below hn, fun n hn => ?_⟩
  · rcases List.mem_cons.1 hn with rfl | hn
    · rfl
    · exact absurd hnil (leaves_ne_nil_of_mem_below hn)
  have hchild : ∀ c ∈ n.children, c.leaves ≠ [] := fun c hc => leaves_ne_nil_of_mem_children hn hc
  have hleaves : ∀ c ∈ n.children, n.leaves ≠ [] := fun c hc => by
    obtain ⟨u, hu⟩ := List.exists_mem_of_ne_nil _ (hchild c hc)
    exact List.ne_nil_of_mem (mem_leaves_of_mem_children hc hu)
  have ho := inOrder_of_mem hn
  have hoc : InOrder (leavesAll n.children) := by
    cases n with
    | leaf t => exact ⟨fun u hu => absurd hu List.not_mem_nil, List.Pairwise.nil⟩
    | node k cs => exact ho
  exact {
    filled := fun c hc => span_pos _ (inOrder_child hoc hc) (hchild c hc)
    disjoint := pairwise_span _ hoc hchild
    inside := fun c hc => span_child _ ho hc (hchild c hc)
    first := fun c hc => by
      have hmem := List.mem_of_mem_head? hc
      exact span_start_of_head? _ hc (hchild c hmem) (hleaves c hmem)
    last := fun c hc => by
      have hmem := List.mem_of_mem_getLast? hc
      exact span_stop_of_getLast? _ hc (hchild c hmem) (hleaves c hmem)
    text := slice?_spanOf hn }

/-- A class with a comment before it and one in it: it has four children and starts after the
first comment. -/
theorem ofText_wellPlaced_class :
    let d := ofText "/*a*/ class C /*b*/ \x7b \x7d".toList
    ∃ n ∈ preorderAll d.root.children,
      (n.isOf .classDeclaration = true ∧ d.spanOf n = ⟨6, 23⟩ ∧ n.children.length = 4) ∧
      n.leaves ≠ [] ∧ d.WellPlaced n := by
  intro d
  have hfind : ((preorderAll d.root.children).any fun n =>
      n.isOf .classDeclaration ∧ d.spanOf n = ⟨6, 23⟩ ∧ n.children.length = 4) = true := by
    decide +kernel
  obtain ⟨n, hn, hclass⟩ := List.any_eq_true.1 hfind
  obtain ⟨-, hbelow, hplaced⟩ := ofText_wellPlaced "/*a*/ class C /*b*/ \x7b \x7d".toList
  exact ⟨n, hn, of_decide_eq_true hclass, hbelow n hn, hplaced n (List.mem_cons_of_mem _ hn)⟩

end Document

end EventLint
