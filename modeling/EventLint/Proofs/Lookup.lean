import EventLint.Proofs.Descendants
import Mathlib.Data.List.Chain

/-!
# Nodes at a byte

The search for the nodes at a byte goes down through the first child that holds it. Of nodes side
by side only one holds a byte, so nothing is missed. Main statement: the path to a byte of a
document is the chain of exactly those nodes that hold it, and of the accepted nodes on it the
deepest is found.
-/

namespace EventLint

namespace Tree

open Token

section

variable {eof offset : Nat}

/-! ## 1. From child to child -/

theorem mem_childNodes {n c : Tree} : c ∈ n.childNodes ↔ c ∈ n.children ∧ c.isNode = true :=
  List.mem_filter

theorem below_of_mem_childNodes {n c : Tree} (h : c ∈ n.childNodes) : c.Below n := by
  obtain ⟨hc, hnode⟩ := mem_childNodes.1 h
  exact mem_preorderAll hc (mem_preorder_self hnode)

theorem head?_pathDown {t : Tree} (h : t.isNode = true) :
    (t.pathDown eof offset).head? = some t := by
  cases t with
  | leaf u => cases h
  | node k cs => rfl

/-- A path among some trees starts with one of them. -/
theorem mem_of_head?_pathAmong (cs : List Tree) {n : Tree}
    (h : (pathAmong eof offset cs).head? = some n) : n ∈ cs ∧ n.isNode = true := by
  induction cs with
  | nil => cases h
  | cons c cs ih =>
    rw [pathAmong] at h
    split at h
    · rename_i hc
      have hnode := (Bool.and_eq_true_iff.1 hc).1
      rw [head?_pathDown hnode] at h
      obtain rfl := Option.some.inj h
      exact ⟨List.mem_cons_self, hnode⟩
    · exact ⟨List.mem_cons_of_mem c (ih h).1, (ih h).2⟩

mutual

theorem isChain_pathDown (t : Tree) :
    (t.pathDown eof offset).IsChain fun a b => b ∈ a.childNodes := by
  cases t with
  | leaf u => exact List.IsChain.nil
  | node k cs =>
    rw [pathDown, List.isChain_cons]
    exact ⟨fun n hn => mem_childNodes.2 (mem_of_head?_pathAmong cs hn), isChain_pathAmong cs⟩

theorem isChain_pathAmong (cs : List Tree) :
    (pathAmong eof offset cs).IsChain fun a b => b ∈ a.childNodes := by
  cases cs with
  | nil => exact List.IsChain.nil
  | cons c cs =>
    rw [pathAmong]
    split
    · exact isChain_pathDown c
    · exact isChain_pathAmong cs

end

/-- In a chain of children every node stands below the earlier ones. -/
theorem pairwise_of_isChain {path : List Tree} (h : path.IsChain fun a b => b ∈ a.childNodes) :
    path.Pairwise fun a b => b.Below a :=
  @List.IsChain.pairwise _ (fun a b : Tree => b.Below a) _
    ⟨fun hab hbc => Below.trans hbc hab⟩ (h.imp fun _ _ hab => below_of_mem_childNodes hab)

/-! ## 2. The path as a selection -/

/-- The byte lies in the tree. -/
def holds (eof offset : Nat) (t : Tree) : Bool :=
  (t.span eof).contains offset

/-- No node of a tree that does not hold a byte holds it. -/
theorem filter_preorder_eq_nil {t : Tree} (ho : InOrder t.leaves) (hf : t.Filled)
    (h : t.holds eof offset = false) : t.preorder.filter (holds eof offset) = [] := by
  refine List.filter_eq_nil_iff.2 fun n hn hold => ?_
  rw [holds, contains_of_mem ho hn (hf n hn) hold] at h
  cases h

/-- Of the trees after one that holds a byte none does. -/
theorem filter_preorderAll_eq_nil {c : Tree} {cs : List Tree}
    (ho : InOrder (c.leaves ++ leavesAll cs)) (hc : c.leaves ≠ [])
    (hf : ∀ m ∈ preorderAll cs, m.leaves ≠ []) (h : c.holds eof offset = true) :
    (preorderAll cs).filter (holds eof offset) = [] := by
  refine List.filter_eq_nil_iff.2 fun n hn hold => ?_
  rw [holds, not_contains_of_mem ho hc hn (hf n hn) hold] at h
  cases h

mutual

/-- The path from a node that holds a byte goes through all nodes that do. -/
theorem pathDown_eq_filter (t : Tree) (ho : InOrder t.leaves) (hf : t.Filled)
    (h : t.holds eof offset = true) :
    t.pathDown eof offset = t.preorder.filter (holds eof offset) := by
  cases t with
  | leaf u => rfl
  | node k cs =>
    rw [pathDown, preorder, List.filter_cons_of_pos h,
      pathAmong_eq_filter cs ho fun m hm => hf m (List.mem_cons_of_mem _ hm)]

theorem pathAmong_eq_filter (cs : List Tree) (ho : InOrder (leavesAll cs))
    (hf : ∀ m ∈ preorderAll cs, m.leaves ≠ []) :
    pathAmong eof offset cs = (preorderAll cs).filter (holds eof offset) := by
  cases cs with
  | nil => rfl
  | cons c cs =>
    have hoc : InOrder c.leaves := inOrder_child ho List.mem_cons_self
    rw [leavesAll] at ho
    have hor : InOrder (leavesAll cs) := by
      rw [← List.append_nil (c.leaves ++ leavesAll cs)] at ho
      exact ho.infix
    have hfc : c.Filled := fun m hm => hf m (List.mem_append_left _ hm)
    have hfr : ∀ m ∈ preorderAll cs, m.leaves ≠ [] := fun m hm => hf m (List.mem_append_right _ hm)
    rw [pathAmong, preorderAll, List.filter_append]
    split
    · rename_i hc
      obtain ⟨hnode, hold⟩ := Bool.and_eq_true_iff.1 hc
      -- the byte is found in `c`, so the trees after it do not hold it
      rw [pathDown_eq_filter c hoc hfc hold,
        filter_preorderAll_eq_nil ho (hfc c (mem_preorder_self hnode)) hfr hold, List.append_nil]
    · rename_i hc
      have hskip : c.preorder.filter (holds eof offset) = [] := by
        cases hnode : c.isNode with
        | false =>
          cases c with
          | leaf u => rfl
          | node k ds => cases hnode
        | true =>
          rw [hnode, Bool.true_and, Bool.not_eq_true] at hc
          exact filter_preorder_eq_nil hoc hfc hc
      rw [hskip, List.nil_append, pathAmong_eq_filter cs hor hfr]

end

end

/-! ## 3. The deepest node -/

/-- From the end of a chain the first accepted node is the one below all other accepted ones. -/
theorem find?_reverse_eq_some_iff {path : List Tree} {accepts : Tree → Bool} {n : Tree}
    (h : path.IsChain fun a b => b ∈ a.childNodes) :
    path.reverse.find? accepts = some n ↔ n ∈ path ∧ accepts n = true ∧
      ∀ m ∈ path, accepts m = true → m = n ∨ n.Below m := by
  have hdeepest : ∀ {n}, path.reverse.find? accepts = some n →
      n ∈ path ∧ accepts n = true ∧ ∀ m ∈ path, accepts m = true → m = n ∨ n.Below m := by
    intro n hn
    obtain ⟨hacc, below, above, hsplit, hnone⟩ := List.find?_eq_some_iff_append.1 hn
    have hpath : path = above.reverse ++ n :: below.reverse := by
      rw [← List.reverse_reverse path, hsplit]
      simp
    have hpair := pairwise_of_isChain h
    rw [hpath] at hpair ⊢
    refine ⟨by simp, hacc, fun m hm haccm => ?_⟩
    rcases List.mem_append.1 hm with hm | hm
    · exact Or.inr ((List.pairwise_append.1 hpair).2.2 m hm n List.mem_cons_self)
    · rcases List.mem_cons.1 hm with rfl | hm
      · exact Or.inl rfl
      · have hrefused := hnone m (List.mem_reverse.1 hm)
        rw [haccm] at hrefused
        cases hrefused
  refine ⟨hdeepest, fun ⟨hn, hacc, hall⟩ => ?_⟩
  -- some node is found, and two that are each below the other are the same
  cases hfind : path.reverse.find? accepts with
  | none => exact absurd hacc (List.find?_eq_none.1 hfind n (List.mem_reverse.2 hn))
  | some m =>
    obtain ⟨hm, haccm, hallm⟩ := hdeepest hfind
    rcases hall m hm haccm with rfl | hbelow
    · rfl
    · rcases hallm n hn hacc with rfl | habove
      · rfl
      · have hlt := hbelow.size_lt
        have hgt := habove.size_lt
        omega

end Tree

namespace Document

open EventLint.Tree Token

/-! ## 4. Documents -/

variable {text : Text} {offset : Nat}

theorem span_root_le (text : Text) :
    ((ofText text).spanOf (ofText text).root).start ≤
      ((ofText text).spanOf (ofText text).root).stop := by
  by_cases hne : (ofText text).root.leaves = []
  · rw [spanOf, Tree.span, hne]
    exact Nat.le_refl _
  · exact Nat.le_of_lt (span_pos _ (inOrder_ofText text) hne)

/-- A node below the root lies in the span of the root. -/
theorem contains_root {n : Tree} (hn : n ∈ (ofText text).root.preorder)
    (h : ((ofText text).spanOf n).contains offset = true) :
    ((ofText text).spanOf (ofText text).root).contains offset = true := by
  rcases List.mem_cons.1 hn with rfl | hbelow
  · exact h
  · exact contains_of_mem (inOrder_ofText text) hn (leaves_ne_nil_of_mem_below hbelow) h

theorem coveringPath_of_touches
    (h : ((ofText text).spanOf (ofText text).root).touches offset = true) :
    (ofText text).coveringPath offset = (ofText text).root ::
      (preorderAll (ofText text).root.children).filter (holds (ofText text).eof offset) := by
  have hamong : pathAmong (ofText text).eof offset (ofText text).root.children =
      (preorderAll (ofText text).root.children).filter (holds (ofText text).eof offset) :=
    pathAmong_eq_filter _ (inOrder_ofText text) fun m hm => leaves_ne_nil_of_mem_below hm
  rw [← hamong]
  exact if_pos h

theorem coveringPath_of_not_touches
    (h : ((ofText text).spanOf (ofText text).root).touches offset = false) :
    (ofText text).coveringPath offset = [] :=
  if_neg (Bool.eq_false_iff.1 h)

/-- The path to a byte holds just the nodes that hold the byte, but for the end of the root. -/
theorem coveringPath_eq (text : Text) (offset : Nat) :
    (ofText text).coveringPath offset =
      if offset = ((ofText text).spanOf (ofText text).root).stop then [(ofText text).root]
      else
        (ofText text).root.preorder.filter fun n => ((ofText text).spanOf n).contains offset := by
  have hle := span_root_le text
  have hroot : ∀ n ∈ (ofText text).root.preorder,
      ((ofText text).spanOf n).contains offset = true →
        ((ofText text).spanOf (ofText text).root).start ≤ offset ∧
          offset < ((ofText text).spanOf (ofText text).root).stop :=
    fun n hn h => (contains_iff _ _).1 (contains_root hn h)
  cases htouch : ((ofText text).spanOf (ofText text).root).touches offset with
  | false =>
    rw [coveringPath_of_not_touches htouch]
    simp only [Span.touches, Bool.and_eq_false_iff, decide_eq_false_iff_not] at htouch
    rw [if_neg (by omega)]
    refine (List.filter_eq_nil_iff.2 fun n hn h => ?_).symm
    have hin := hroot n hn h
    omega
  | true =>
    rw [coveringPath_of_touches htouch]
    simp only [Span.touches, Bool.and_eq_true, decide_eq_true_eq] at htouch
    split
    · -- no node below the root reaches over its end
      rename_i hstop
      rw [List.filter_eq_nil_iff.2]
      intro n hn h
      have hin := hroot n (List.mem_cons_of_mem _ hn) h
      omega
    · rename_i hstop
      have hold : (ofText text).root.holds (ofText text).eof offset = true :=
        (contains_iff _ _).2 ⟨htouch.1, Nat.lt_of_le_of_ne htouch.2 hstop⟩
      exact (List.filter_cons_of_pos hold).symm

theorem isChain_coveringPath (d : Document) (offset : Nat) :
    (d.coveringPath offset).IsChain fun a b => b ∈ a.childNodes := by
  rw [coveringPath, Tree.coveringPath]
  split
  · exact isChain_pathDown _
  · exact List.IsChain.nil

/-- What is found at a byte. -/
structure LooksUp (d : Document) (offset : Nat) : Prop where
  /-- The path leads from each node to a child of it. -/
  chain : (d.coveringPath offset).IsChain fun a b => b ∈ a.childNodes
  root : ∀ n ∈ (d.coveringPath offset).head?, n = d.root
  /-- Outside the root there is no path. -/
  outside : (d.spanOf d.root).touches offset = false → d.coveringPath offset = []
  /-- At the end of the root stands the root alone. -/
  stop : offset = (d.spanOf d.root).stop → d.coveringPath offset = [d.root]
  /-- Everywhere else the path has just the nodes that hold the byte, in the order of the tree. -/
  holding : offset ≠ (d.spanOf d.root).stop →
    d.coveringPath offset = d.root.preorder.filter fun n => (d.spanOf n).contains offset
  /-- The node that is found is on the path, and all other accepted nodes on it stand above it. -/
  deepest : ∀ accepts n, d.ancestor? offset accepts = some n ↔
    n ∈ d.coveringPath offset ∧ accepts n = true ∧
      ∀ m ∈ d.coveringPath offset, accepts m = true → m = n ∨ n.Below m
  /-- Nothing is found only if no node on the path is accepted. -/
  missing : ∀ accepts, d.ancestor? offset accepts = none ↔
    ∀ n ∈ d.coveringPath offset, accepts n = false

/-- The nodes at a byte of a document are the ones that hold it, and every node but the root is on
the path to its own start. -/
theorem ofText_looksUp (text : Text) :
    (∀ offset, (ofText text).LooksUp offset) ∧
    ∀ n ∈ preorderAll (ofText text).root.children,
      n ∈ (ofText text).coveringPath ((ofText text).spanOf n).start := by
  refine ⟨fun offset => ?_, fun n hn => ?_⟩
  · exact {
      chain := isChain_coveringPath _ _
      root := fun n hn => by
        rw [coveringPath, Tree.coveringPath] at hn
        split at hn
        · exact (Option.some.inj hn).symm
        · cases hn
      outside := coveringPath_of_not_touches
      stop := fun h => by rw [coveringPath_eq, if_pos h]
      holding := fun h => by rw [coveringPath_eq, if_neg h]
      deepest := fun accepts n => find?_reverse_eq_some_iff (isChain_coveringPath _ _)
      missing := fun accepts => by
        rw [ancestor?, List.find?_eq_none]
        simp only [List.mem_reverse, Bool.not_eq_true] }
  · have hmem : n ∈ (ofText text).root.preorder := List.mem_cons_of_mem _ hn
    have hpos := span_pos (ofText text).eof (inOrder_of_mem hmem) (leaves_ne_nil_of_mem_below hn)
    have hstart : ((ofText text).spanOf n).contains ((ofText text).spanOf n).start = true :=
      (contains_iff _ _).2 ⟨Nat.le_refl _, hpos⟩
    have hroot := (contains_iff _ _).1 (contains_root hmem hstart)
    rw [coveringPath_eq, if_neg (by omega)]
    exact List.mem_filter.2 ⟨hmem, hstart⟩

/-- A blank, a class with one event, and a blank: before the class, in the name of the event, at the
end of the class, and the event from its own start. -/
theorem ofText_looksUp_event :
    let d := ofText " class C \x7b event A B; \x7d ".toList
    ((d.spanOf d.root).touches 0 = false ∧ d.coveringPath 0 = []) ∧
    (23 = (d.spanOf d.root).stop ∧ d.coveringPath 23 = [d.root]) ∧
    (d.coveringPath 19).map nodeKind? = [some .compilationUnit, some .classDeclaration,
      some .eventFieldDeclaration, some .variableDeclaration, some .variableDeclarator] ∧
    ∃ n ∈ preorderAll d.root.children, n.isOf .eventFieldDeclaration = true ∧
      d.ancestor? 19 (isOf .eventFieldDeclaration) = some n ∧
      n ∈ d.coveringPath (d.spanOf n).start := by
  intro d
  obtain ⟨hlook, hstart⟩ := ofText_looksUp " class C \x7b event A B; \x7d ".toList
  have hpath : d.coveringPath 19 = d.root.preorder.filter fun n => (d.spanOf n).contains 19 :=
    (hlook 19).holding (by decide +kernel)
  have hkinds : (d.root.preorder.filter fun n => (d.spanOf n).contains 19).map nodeKind? =
      [some .compilationUnit, some .classDeclaration, some .eventFieldDeclaration,
        some .variableDeclaration, some .variableDeclarator] := by
    decide +kernel
  have hout : (d.spanOf d.root).touches 0 = false := by decide +kernel
  have hend : 23 = (d.spanOf d.root).stop := by decide +kernel
  refine ⟨⟨hout, (hlook 0).outside hout⟩, ⟨hend, (hlook 23).stop hend⟩, hpath ▸ hkinds, ?_⟩
  -- one node of the path is an event, so one is found
  cases hfind : d.ancestor? 19 (isOf .eventFieldDeclaration) with
  | none =>
    have hnone := (hlook 19).missing (isOf .eventFieldDeclaration) |>.1 hfind
    have hsome : ((d.root.preorder.filter fun n => (d.spanOf n).contains 19).any
        (isOf .eventFieldDeclaration)) = true := by
      decide +kernel
    rw [← hpath] at hsome
    obtain ⟨n, hn, hevent⟩ := List.any_eq_true.1 hsome
    rw [hnone n hn] at hevent
    cases hevent
  | some n =>
    obtain ⟨hn, hevent, -⟩ := ((hlook 19).deepest _ _).1 hfind
    rw [hpath] at hn
    have hbelow : n ∈ preorderAll d.root.children := by
      rcases List.mem_cons.1 (List.mem_of_mem_filter hn) with rfl | hn
      · cases hevent
      · exact hn
    exact ⟨n, hbelow, hevent, rfl, hstart n hbelow⟩

end Document

end EventLint
