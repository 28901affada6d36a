import EventLint.Event.Basic
import EventLint.Proofs.Spans

/-!
# The nodes of a tree, listed

Nodes are listed level by level and then sorted by where they stand. Two nodes share a token only if
one of them lies below the other, so the sort puts each before those below it. Main statement: the
sorted list is the list of nodes from the top down, each before those below it.
-/

namespace EventLint.Tree

open Token

/-! ## 1. Nodes below a node -/

/-- The node `n` lies below `t`. -/
def Below (n t : Tree) : Prop :=
  n ∈ preorderAll t.children

theorem mem_preorder_iff {n t : Tree} :
    n ∈ t.preorder ↔ (n = t ∧ t.isNode = true) ∨ n.Below t := by
  cases t with
  | leaf u => simp [preorder, Below, children, preorderAll, isNode]
  | node k cs => simp [preorder, Below, children, isNode]

mutual

theorem size_le_of_mem_preorder (t : Tree) {n : Tree} (h : n ∈ t.preorder) : n.size ≤ t.size := by
  cases t with
  | leaf u => cases h
  | node k cs =>
    rcases List.mem_cons.1 h with rfl | h
    · exact Nat.le_refl _
    · have := size_le_of_mem_preorderAll cs h
      rw [size]
      omega

theorem size_le_of_mem_preorderAll (cs : List Tree) {n : Tree} (h : n ∈ preorderAll cs) :
    n.size ≤ sizeAll cs := by
  cases cs with
  | nil => cases h
  | cons c cs =>
    rw [sizeAll]
    rcases List.mem_append.1 h with h | h
    · have := size_le_of_mem_preorder c h
      omega
    · have := size_le_of_mem_preorderAll cs h
      omega

end

theorem Below.size_lt {n t : Tree} (h : n.Below t) : n.size < t.size := by
  cases t with
  | leaf u => cases h
  | node k cs =>
    have := size_le_of_mem_preorderAll cs h
    rw [size]
    omega

theorem Below.trans {a b c : Tree} (hab : a.Below b) (hbc : b.Below c) : a.Below c :=
  preorderAll_children_subset_all _ hbc hab

/-- The span of a node holds those of the nodes below it. -/
theorem Below.span_le {n t : Tree} (eof : Nat) (h : n.Below t) (ho : InOrder t.leaves)
    (hne : n.leaves ≠ []) :
    (t.span eof).start ≤ (n.span eof).start ∧ (n.span eof).stop ≤ (t.span eof).stop := by
  obtain ⟨a, b, he⟩ := leaves_infix t (mem_preorder_iff.2 (Or.inr h))
  have hsub : ∀ u ∈ n.leaves, u ∈ t.leaves := fun u hu => by
    rw [he]
    exact List.mem_append_left _ (List.mem_append_right _ hu)
  obtain ⟨first, last, hf, hl, -, -, hs⟩ := exists_span eof hne
  rw [hs]
  exact ⟨(span_token eof ho (hsub first hf)).1, (span_token eof ho (hsub last hl)).2⟩

/-! ## 2. Level by level -/

/-- Two nodes have a token in common. -/
def Meets (a b : Tree) : Prop :=
  ∃ u ∈ a.leaves, u ∈ b.leaves

theorem levelOrder_perm (queue : List Tree) : (levelOrder queue).Perm (preorderAll queue) := by
  have happend : ∀ a b : List Tree, preorderAll (a ++ b) = preorderAll a ++ preorderAll b := by
    intro a b
    induction a with
    | nil => rfl
    | cons c cs ih => rw [List.cons_append, preorderAll, preorderAll, ih, List.append_assoc]
  fun_induction levelOrder queue with
  | case1 => exact List.Perm.refl _
  | case2 rest u ih => exact ih
  | case3 rest k cs ih =>
    rw [happend] at ih
    exact (ih.trans List.perm_append_comm).cons _

/-- A node of the list that shares a token with an earlier one lies below it. -/
theorem pairwise_levelOrder (queue : List Tree) (h : (leavesAll queue).Nodup) :
    (levelOrder queue).Pairwise fun a b => a.Meets b → b.Below a := by
  fun_induction levelOrder queue with
  | case1 => exact List.Pairwise.nil
  | case2 rest u ih => exact ih (List.nodup_cons.1 h).2
  | case3 rest k cs ih =>
    rw [leavesAll, leaves] at h
    refine List.pairwise_cons.2 ⟨fun b hb hmeets => ?_, ih ?_⟩
    · obtain ⟨c, hc, hb⟩ := exists_of_mem_preorderAll ((levelOrder_perm _).mem_iff.1 hb)
      rcases List.mem_append.1 hc with hc | hc
      · -- the trees that wait in the queue have other tokens
        obtain ⟨u, hu, hu'⟩ := hmeets
        obtain ⟨x, y, hxy⟩ := leaves_infix c hb
        have huc : u ∈ c.leaves := by
          rw [hxy]
          exact List.mem_append_left _ (List.mem_append_right _ hu')
        exact absurd rfl
          ((List.nodup_append.1 h).2.2 u hu u (leaves_subset_leavesAll hc huc))
      · exact mem_preorderAll hc hb
    · rw [leavesAll_append]
      exact List.perm_append_comm.nodup_iff.1 h

/-! ## 3. From the top down -/

/-- The order of the list: where nodes start, and of those that start together the one that reaches
farthest first. -/
def startsFirst (eof : Nat) (a b : Tree) : Bool :=
  (a.span eof).start < (b.span eof).start ||
    ((a.span eof).start == (b.span eof).start && (b.span eof).stop ≤ (a.span eof).stop)

theorem startsFirst_iff {eof : Nat} {a b : Tree} :
    startsFirst eof a b = true ↔ (a.span eof).start < (b.span eof).start ∨
      ((a.span eof).start = (b.span eof).start ∧ (b.span eof).stop ≤ (a.span eof).stop) := by
  simp [startsFirst]

theorem startsFirst_trans {eof : Nat} (a b c : Tree) (hab : startsFirst eof a b = true)
    (hbc : startsFirst eof b c = true) : startsFirst eof a c = true := by
  rw [startsFirst_iff] at *
  omega

theorem startsFirst_total {eof : Nat} (a b : Tree) :
    (startsFirst eof a b || startsFirst eof b a) = true := by
  rw [Bool.or_eq_true, startsFirst_iff, startsFirst_iff]
  omega

theorem Below.startsFirst {n t : Tree} (eof : Nat) (h : n.Below t) (ho : InOrder t.leaves)
    (hne : n.leaves ≠ []) : t.startsFirst eof n = true := by
  have := h.span_le eof ho hne
  rw [startsFirst_iff]
  omega

/-- `a` comes before `b` from the top down. -/
def Precedes (eof : Nat) (a b : Tree) : Prop :=
  startsFirst eof a b = true ∧ (a.Meets b → b.Below a)

/-- Nodes that start at the same byte start with the same token. -/
theorem meets_of_span_eq {t a b : Tree} (eof : Nat) (ho : InOrder t.leaves) (ha : a ∈ t.preorder)
    (hb : b ∈ t.preorder) (hane : a.leaves ≠ []) (hbne : b.leaves ≠ [])
    (hs : (a.span eof).start = (b.span eof).start) : a.Meets b := by
  obtain ⟨first, _, hf, -, -, -, hsa⟩ := exists_span eof hane
  obtain ⟨first', _, hf', -, -, -, hsb⟩ := exists_span eof hbne
  rw [hsa, hsb] at hs
  have hmem : ∀ {n : Tree} {u : Token}, n ∈ t.preorder → u ∈ n.leaves → u ∈ t.leaves := by
    intro n u hn hu
    obtain ⟨x, y, hxy⟩ := leaves_infix t hn
    rw [hxy]
    exact List.mem_append_left _ (List.mem_append_right _ hu)
  have heq : first = first' := ho.eq_of_start_eq (hmem ha hf) (hmem hb hf') hs
  exact ⟨first, hf, heq ▸ hf'⟩

theorem not_precedes_of_precedes {t a b : Tree} {eof : Nat} (ho : InOrder t.leaves)
    (hf : t.Filled) (ha : a ∈ t.preorder) (hb : b ∈ t.preorder) (hab : Precedes eof a b) :
    ¬ Precedes eof b a := by
  intro hba
  have h := startsFirst_iff.1 hab.1
  have h' := startsFirst_iff.1 hba.1
  have hmeets := meets_of_span_eq eof ho ha hb (hf a ha) (hf b hb) (by omega)
  obtain ⟨u, hu, hu'⟩ := id hmeets
  have hlt := (hab.2 hmeets).size_lt
  have hlt' := (hba.2 ⟨u, hu', hu⟩).size_lt
  omega

mutual

theorem pairwise_preorder (eof : Nat) (t : Tree) (ho : InOrder t.leaves) (hf : t.Filled) :
    t.preorder.Pairwise (Precedes eof) := by
  cases t with
  | leaf u => exact List.Pairwise.nil
  | node k cs =>
    have hf' : ∀ n ∈ preorderAll cs, n.leaves ≠ [] := fun n hn => hf n (List.mem_cons_of_mem _ hn)
    refine List.pairwise_cons.2 ⟨fun n hn => ?_, pairwise_preorderAll eof cs ho hf'⟩
    have hbelow : n.Below (node k cs) := hn
    exact ⟨hbelow.startsFirst eof ho (hf' n hn), fun _ => hbelow⟩

theorem pairwise_preorderAll (eof : Nat) (cs : List Tree) (ho : InOrder (leavesAll cs))
    (hf : ∀ n ∈ preorderAll cs, n.leaves ≠ []) : (preorderAll cs).Pairwise (Precedes eof) := by
  cases cs with
  | nil => exact List.Pairwise.nil
  | cons c cs =>
    have hrest : InOrder (leavesAll cs) := by
      rw [leavesAll, ← List.append_nil (c.leaves ++ leavesAll cs)] at ho
      exact ho.infix
    refine List.pairwise_append.2
      ⟨pairwise_preorder eof c (inOrder_child ho List.mem_cons_self) fun n hn =>
          hf n (List.mem_append_left _ hn),
        pairwise_preorderAll eof cs hrest fun n hn => hf n (List.mem_append_right _ hn), ?_⟩
    -- the nodes of `c` end before the later trees start
    intro a ha b hb
    obtain ⟨x, y, hxy⟩ := leaves_infix c ha
    obtain ⟨x', y', hxy'⟩ := leavesAll_infix cs hb
    have hle : ∀ u ∈ a.leaves, ∀ v ∈ b.leaves, u.stop ≤ v.start := fun u hu v hv =>
      ho.le (by rw [hxy]; exact List.mem_append_left _ (List.mem_append_right _ hu))
        (by rw [hxy']; exact List.mem_append_left _ (List.mem_append_right _ hv))
    have hpos : ∀ u ∈ a.leaves, u.start < u.stop := fun u hu =>
      ho.pos u (List.mem_append_left _ (by
        rw [hxy]; exact List.mem_append_left _ (List.mem_append_right _ hu)))
    obtain ⟨first, _, hfa, -, -, -, hsa⟩ := exists_span eof (hf a (List.mem_append_left _ ha))
    obtain ⟨first', _, hfb, -, -, -, hsb⟩ := exists_span eof (hf b (List.mem_append_right _ hb))
    refine ⟨startsFirst_iff.2 (Or.inl ?_), ?_⟩
    · have h := hle first hfa first' hfb
      have h' := hpos first hfa
      rw [hsa, hsb]
      dsimp only
      omega
    · rintro ⟨u, hu, hu'⟩
      have h := hle u hu u hu'
      have h' := hpos u hu
      omega

end

/-! ## 4. Sorting -/

section

variable {α : Type} {a b : α} {l : List α}

theorem pair_sublist_or (ha : a ∈ l) (hb : b ∈ l) (hne : a ≠ b) :
    [a, b].Sublist l ∨ [b, a].Sublist l := by
  obtain ⟨x, y, rfl⟩ := List.append_of_mem ha
  rcases List.mem_append.1 hb with hb | hb
  · exact Or.inr ((List.singleton_sublist.2 hb).append
      (List.singleton_sublist.2 List.mem_cons_self))
  · have hb : b ∈ y := (List.mem_cons.1 hb).resolve_left hne.symm
    exact Or.inl (((List.singleton_sublist.2 hb).cons_cons a).trans (List.sublist_append_right x _))

theorem not_pair_sublist (hl : l.Nodup) (hab : [a, b].Sublist l) : ¬ [b, a].Sublist l := by
  induction l with
  | nil => cases hab
  | cons c l ih =>
    obtain ⟨hc, hl⟩ := List.nodup_cons.1 hl
    intro hba
    cases hab with
    | cons _ hab =>
      cases hba with
      | cons _ hba => exact ih hl hab hba
      | cons_cons _ hba => exact hc (hab.subset (List.mem_cons_of_mem _ List.mem_cons_self))
    | cons_cons _ hab =>
      cases hba with
      | cons _ hba => exact hc (hba.subset (List.mem_cons_of_mem _ List.mem_cons_self))
      | cons_cons _ hba => exact hc (hab.subset List.mem_cons_self)

end

theorem nodup_preorder {t : Tree} (ho : InOrder t.leaves) (hf : t.Filled) :
    t.preorder.Nodup := by
  refine (List.Pairwise.and_mem.1 (pairwise_preorder 0 t ho hf)).imp fun {a b} hab heq => ?_
  subst heq
  exact not_precedes_of_precedes ho hf hab.1 hab.1 hab.2.2 hab.2.2

theorem pairwise_descendants {t : Tree} {eof : Nat} (ho : InOrder t.leaves) (hf : t.Filled) :
    (t.descendants eof).Pairwise (Precedes eof) := by
  have hqueue : leavesAll [t] = t.leaves := by
    rw [leavesAll, leavesAll, List.append_nil]
  have hlist : preorderAll [t] = t.preorder := by
    rw [preorderAll, preorderAll, List.append_nil]
  have hperm := levelOrder_perm [t]
  rw [hlist] at hperm
  have hlevels := pairwise_levelOrder [t] (by rw [hqueue]; exact ho.nodup)
  have hsorted := List.mergeSort_perm (levelOrder [t]) (startsFirst eof)
  have hnodup : ((levelOrder [t]).mergeSort (startsFirst eof)).Nodup :=
    (hsorted.trans hperm).nodup_iff.2 (nodup_preorder ho hf)
  -- nodes that share a token are told apart by their levels, the others by where they start
  refine List.pairwise_iff_forall_sublist.2 fun {a b} hab => ?_
  have hle := List.pairwise_iff_forall_sublist.1
    (List.pairwise_mergeSort startsFirst_trans startsFirst_total (levelOrder [t])) hab
  refine ⟨hle, fun hmeets => ?_⟩
  have hane : a ≠ b := List.pairwise_iff_forall_sublist.1 hnodup hab
  have hmem : ∀ {n : Tree}, n ∈ [a, b] → n ∈ levelOrder [t] := fun hn =>
    hsorted.mem_iff.1 (hab.subset hn)
  rcases pair_sublist_or (hmem List.mem_cons_self)
    (hmem (List.mem_cons_of_mem _ List.mem_cons_self)) hane with hlevel | hlevel
  · exact List.pairwise_iff_forall_sublist.1 hlevels hlevel hmeets
  · -- the sort is stable, so it would have kept `b` before `a`
    obtain ⟨u, hu, hu'⟩ := hmeets
    have hbelow := List.pairwise_iff_forall_sublist.1 hlevels hlevel ⟨u, hu', hu⟩
    have hb : b ∈ t.preorder := hperm.mem_iff.1 (hmem (List.mem_cons_of_mem _ List.mem_cons_self))
    obtain ⟨x, y, hxy⟩ := leaves_infix t hb
    have hob : InOrder b.leaves := by
      rw [hxy] at ho
      exact ho.infix
    have hback := List.pair_sublist_mergeSort startsFirst_trans startsFirst_total
      (hbelow.startsFirst eof hob (List.ne_nil_of_mem hu)) hlevel
    exact absurd hab (not_pair_sublist hnodup hback)

/-- The listed nodes are the node and those below it, each before those below it. -/
theorem descendants_eq_preorder {t : Tree} (eof : Nat) (ho : InOrder t.leaves) (hf : t.Filled) :
    t.descendants eof = t.preorder := by
  have hperm : (t.descendants eof).Perm t.preorder := by
    refine (List.mergeSort_perm _ _).trans ?_
    have h := levelOrder_perm [t]
    rwa [preorderAll, preorderAll, List.append_nil] at h
  refine hperm.eq_of_pairwise (fun a b ha hb hab hba => ?_) (pairwise_descendants ho hf)
    (pairwise_preorder eof t ho hf)
  exact absurd hba (not_precedes_of_precedes ho hf (hperm.mem_iff.1 ha) hb hab)

end EventLint.Tree

namespace EventLint.Document

open Tree

/-- The nodes of a document are listed from the top down. -/
theorem nodes_ofText (text : Text) : (ofText text).nodes = (ofText text).root.preorder := by
  by_cases hts : Token.scan text = []
  · have hroot : (ofText text).root = node .compilationUnit [] := by
      rw [ofText, hts, ofTokens, declarations_nil]
    rw [nodes, hroot]
    simp [descendants, levelOrder, preorder, preorderAll]
  · exact descendants_eq_preorder _ (inOrder_ofText text) (filled_ofTokens hts)

/-- Every node of a document lists itself and the nodes below it from the top down. -/
theorem descendants_ofText {text : Text} {n : Tree} (hn : n ∈ (ofText text).root.preorder) :
    n.descendants (ofText text).eof = n.preorder := by
  rcases List.mem_cons.1 hn with rfl | hbelow
  · exact nodes_ofText text
  · -- below the root every node has a token, so none is empty
    refine descendants_eq_preorder _ (inOrder_of_mem hn) fun m hm => ?_
    rcases mem_preorder_iff.1 hm with ⟨rfl, -⟩ | hm
    · exact leaves_ne_nil_of_mem_below hbelow
    · exact leaves_ne_nil_of_mem_below (hm.trans hbelow)

/-- A statement without a semicolon stands where its only name does, and still comes first. -/
theorem descendants_ofText_equalSpans :
    let d := ofText "class C \x7b void M() \x7b x \x7d \x7d".toList
    ∃ n ∈ d.root.preorder, n.isOf .block = true ∧ n.descendants d.eof = n.preorder ∧
      (n.descendants d.eof).map (fun m => (m.nodeKind?, d.spanOf m)) =
        [(some .block, ⟨19, 24⟩), (some .expressionStatement, ⟨21, 22⟩),
          (some .identifierName, ⟨21, 22⟩)] := by
  intro d
  have hfind : (d.root.preorder.any fun n => n.isOf .block &&
      n.preorder.map (fun m => (m.nodeKind?, d.spanOf m)) =
        [(some .block, ⟨19, 24⟩), (some .expressionStatement, ⟨21, 22⟩),
          (some .identifierName, ⟨21, 22⟩)]) = true := by
    decide +kernel
  obtain ⟨n, hn, hblock⟩ := List.any_eq_true.1 hfind
  obtain ⟨hblock, hspans⟩ := Bool.and_eq_true_iff.1 hblock
  have hlist := descendants_ofText hn
  exact ⟨n, hn, hblock, hlist, hlist ▸ of_decide_eq_true hspans⟩

/-- The events of a document, in the order of its nodes. -/
def events (d : Document) : List Event :=
  d.nodes.filterMap Event.ofTree?

end EventLint.Document
