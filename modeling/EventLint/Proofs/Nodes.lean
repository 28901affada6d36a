import EventLint.Document
import EventLint.Proofs.Placement
import EventLint.Proofs.Reading

/-!
# Nodes and where they stand

The leaves of a node are a run of the leaves of the tree it belongs to, so spans nest. Main
statement: the path to a byte goes through every node that holds it.
-/

namespace EventLint

namespace Token

/-! ## 1. Tokens in order -/

/-- No token is empty, and each ends before the later ones start. -/
structure InOrder (ts : List Token) : Prop where
  pos : ∀ t ∈ ts, t.start < t.stop
  before : ts.Pairwise fun t u => t.stop ≤ u.start

theorem InPlace.inOrder {offset : Nat} {ts : List Token} (h : InPlace offset ts) : InOrder ts :=
  ⟨fun _ ht => start_lt_stop (h.text_ne_nil ht), h.pairwise⟩

theorem InOrder.infix {a b c : List Token} (h : InOrder (a ++ b ++ c)) : InOrder b where
  pos t ht := h.pos t (List.mem_append_left c (List.mem_append_right a ht))
  before := (List.pairwise_append.1 (List.pairwise_append.1 h.before).1).2.1

theorem InOrder.nodup {ts : List Token} (h : InOrder ts) : ts.Nodup := by
  refine (List.Pairwise.and_mem.1 h.before).imp fun {t u} htu heq => ?_
  have := h.pos t htu.1
  rw [← heq] at htu
  omega

/-- A token is known by where it starts. -/
theorem InOrder.eq_of_start_eq {ts : List Token} (h : InOrder ts) {t u : Token} (ht : t ∈ ts)
    (hu : u ∈ ts) (heq : t.start = u.start) : t = u := by
  have hpos := h.pos t ht
  have hpos' := h.pos u hu
  obtain ⟨a, b, rfl⟩ := List.append_of_mem ht
  obtain ⟨-, hb, hab⟩ := List.pairwise_append.1 h.before
  rcases List.mem_append.1 hu with hu | hu
  · have := hab u hu t List.mem_cons_self
    omega
  · rcases List.mem_cons.1 hu with rfl | hu
    · rfl
    · have := List.rel_of_pairwise_cons hb hu
      omega

/-- Tokens on the two sides of a cut. -/
theorem InOrder.le {a b : List Token} (h : InOrder (a ++ b)) {t u : Token} (ht : t ∈ a)
    (hu : u ∈ b) : t.stop ≤ u.start :=
  (List.pairwise_append.1 h.before).2.2 t ht u hu

theorem InOrder.head_le {ts : List Token} {first t : Token} (h : InOrder ts)
    (hf : ts.head? = some first) (ht : t ∈ ts) : first.start ≤ t.start := by
  obtain ⟨ts, rfl⟩ := List.head?_eq_some_iff.1 hf
  rcases List.mem_cons.1 ht with rfl | ht
  · exact Nat.le_refl _
  · have hle := List.rel_of_pairwise_cons h.before ht
    have hlt := h.pos first List.mem_cons_self
    omega

theorem InOrder.le_getLast {ts : List Token} {last t : Token} (h : InOrder ts)
    (hl : ts.getLast? = some last) (ht : t ∈ ts) : t.stop ≤ last.stop := by
  obtain ⟨ts, rfl⟩ := List.getLast?_eq_some_iff.1 hl
  rcases List.mem_append.1 ht with ht | ht
  · have hle := h.le ht (List.mem_singleton_self last)
    have hlt := h.pos last (List.mem_append_right _ (List.mem_singleton_self last))
    omega
  · exact Nat.le_of_eq (by rw [List.mem_singleton.1 ht])

end Token

namespace Tree

open Token

/-! ## 2. Spans -/

theorem span_of_leaves {t : Tree} {first last : Token} (eof : Nat)
    (hf : t.leaves.head? = some first) (hl : t.leaves.getLast? = some last) :
    t.span eof = ⟨first.start, last.stop⟩ := by
  rw [span, hf, hl]

/-- The first and the last token of a node decide its span. -/
theorem exists_span {t : Tree} (eof : Nat) (h : t.leaves ≠ []) :
    ∃ first last, first ∈ t.leaves ∧ last ∈ t.leaves ∧ t.leaves.head? = some first ∧
      t.leaves.getLast? = some last ∧ t.span eof = ⟨first.start, last.stop⟩ := by
  refine ⟨t.leaves.head h, t.leaves.getLast h, List.head_mem h, List.getLast_mem h,
    List.head?_eq_some_head h, List.getLast?_eq_some_getLast h, ?_⟩
  exact span_of_leaves eof (List.head?_eq_some_head h) (List.getLast?_eq_some_getLast h)

/-- A token of a node lies in its span. -/
theorem span_token {t : Tree} {u : Token} (eof : Nat) (h : InOrder t.leaves) (hu : u ∈ t.leaves) :
    (t.span eof).start ≤ u.start ∧ u.stop ≤ (t.span eof).stop := by
  obtain ⟨first, last, -, -, hf, hl, hs⟩ := exists_span eof (List.ne_nil_of_mem hu)
  rw [hs]
  exact ⟨h.head_le hf hu, h.le_getLast hl hu⟩

/-! ## 3. Nodes of a tree -/

mutual

/-- The leaves of a node are a run of the leaves of the tree. -/
theorem leaves_infix (t : Tree) {n : Tree} (h : n ∈ t.preorder) :
    ∃ a b, t.leaves = a ++ n.leaves ++ b := by
  cases t with
  | leaf t => cases h
  | node k cs =>
    rcases List.mem_cons.1 h with rfl | h
    · exact ⟨[], [], by rw [List.nil_append, List.append_nil]⟩
    · exact leavesAll_infix cs h

theorem leavesAll_infix (cs : List Tree) {n : Tree} (h : n ∈ preorderAll cs) :
    ∃ a b, leavesAll cs = a ++ n.leaves ++ b := by
  cases cs with
  | nil => cases h
  | cons c cs =>
    rw [leavesAll]
    rcases List.mem_append.1 h with h | h
    · obtain ⟨a, b, he⟩ := leaves_infix c h
      exact ⟨a, b ++ leavesAll cs, by rw [he]; simp only [List.append_assoc]⟩
    · obtain ⟨a, b, he⟩ := leavesAll_infix cs h
      exact ⟨c.leaves ++ a, b, by rw [he]; simp only [List.append_assoc]⟩

end

/-- Every node of the tree has leaves. -/
def Filled (t : Tree) : Prop :=
  ∀ n ∈ t.preorder, n.leaves ≠ []

theorem mem_preorder_self {t : Tree} (h : t.isNode = true) : t ∈ t.preorder := by
  cases t with
  | leaf t => cases h
  | node k cs => exact List.mem_cons_self

theorem mem_preorderAll {c : Tree} {cs : List Tree} (h : c ∈ cs) {n : Tree}
    (hn : n ∈ c.preorder) : n ∈ preorderAll cs := by
  induction cs with
  | nil => cases h
  | cons d cs ih =>
    rw [preorderAll]
    rcases List.mem_cons.1 h with rfl | h
    · exact List.mem_append_left _ hn
    · exact List.mem_append_right _ (ih h)

theorem exists_of_mem_preorderAll {cs : List Tree} {n : Tree} (h : n ∈ preorderAll cs) :
    ∃ c ∈ cs, n ∈ c.preorder := by
  induction cs with
  | nil => cases h
  | cons c cs ih =>
    rw [preorderAll] at h
    rcases List.mem_append.1 h with h | h
    · exact ⟨c, List.mem_cons_self, h⟩
    · obtain ⟨d, hd, hn⟩ := ih h
      exact ⟨d, List.mem_cons_of_mem c hd, hn⟩

theorem leaves_subset_leavesAll {c : Tree} {cs : List Tree} (h : c ∈ cs) {u : Token}
    (hu : u ∈ c.leaves) : u ∈ leavesAll cs := by
  induction cs with
  | nil => cases h
  | cons d cs ih =>
    rw [leavesAll]
    rcases List.mem_cons.1 h with rfl | h
    · exact List.mem_append_left _ hu
    · exact List.mem_append_right _ (ih h)

/-! ## 4. The path to a byte -/

theorem contains_iff (s : Span) (offset : Nat) :
    s.contains offset = true ↔ s.start ≤ offset ∧ offset < s.stop := by
  rw [Span.contains, Bool.and_eq_true, decide_eq_true_eq, decide_eq_true_eq]

/-- A node that holds a byte lies in a tree that holds it. -/
theorem contains_of_mem {t n : Tree} {eof offset : Nat} (ho : InOrder t.leaves)
    (hn : n ∈ t.preorder) (hne : n.leaves ≠ []) (hc : (n.span eof).contains offset = true) :
    (t.span eof).contains offset = true := by
  obtain ⟨a, b, he⟩ := leaves_infix t hn
  obtain ⟨first, last, hf, hl, -, -, hs⟩ := exists_span eof hne
  have hmem : ∀ u ∈ n.leaves, u ∈ t.leaves := fun u hu => by
    rw [he]
    exact List.mem_append_left _ (List.mem_append_right _ hu)
  have h1 := (span_token eof ho (hmem first hf)).1
  have h2 := (span_token eof ho (hmem last hl)).2
  rw [hs, contains_iff] at hc
  rw [contains_iff]
  dsimp only at hc
  omega

/-- Of two trees side by side only one holds a byte. -/
theorem not_contains_of_mem {c n : Tree} {cs : List Tree} {eof offset : Nat}
    (ho : InOrder (c.leaves ++ leavesAll cs)) (hc : c.leaves ≠ []) (hn : n ∈ preorderAll cs)
    (hne : n.leaves ≠ []) (hs : (n.span eof).contains offset = true) :
    (c.span eof).contains offset = false := by
  obtain ⟨a, b, he⟩ := leavesAll_infix cs hn
  obtain ⟨first, last, hf, hl, -, -, hspan⟩ := exists_span eof hne
  obtain ⟨first', last', hf', hl', -, -, hspan'⟩ := exists_span eof hc
  have hle : last'.stop ≤ first.start := ho.le hl' (by
    rw [he]
    exact List.mem_append_left _ (List.mem_append_right _ hf))
  rw [hspan, contains_iff] at hs
  rw [hspan', Bool.eq_false_iff, Ne, contains_iff]
  dsimp only at hs ⊢
  omega

mutual

/-- The path to a byte goes through every node that holds it. -/
theorem pathDown_eq (t : Tree) {n : Tree} {eof offset : Nat} (ho : InOrder t.leaves)
    (hf : t.Filled) (hn : n ∈ t.preorder) (hc : (n.span eof).contains offset = true) :
    ∃ above, t.pathDown eof offset = above ++ n.pathDown eof offset := by
  cases t with
  | leaf t => cases hn
  | node k cs =>
    rcases List.mem_cons.1 hn with rfl | hn
    · exact ⟨[], rfl⟩
    · have hf' : ∀ m ∈ preorderAll cs, m.leaves ≠ [] := fun m hm =>
        hf m (List.mem_cons_of_mem _ hm)
      obtain ⟨above, he⟩ := pathAmong_eq cs ho hf' hn hc
      exact ⟨node k cs :: above, by rw [pathDown, he, List.cons_append]⟩

theorem pathAmong_eq (cs : List Tree) {n : Tree} {eof offset : Nat} (ho : InOrder (leavesAll cs))
    (hf : ∀ m ∈ preorderAll cs, m.leaves ≠ []) (hn : n ∈ preorderAll cs)
    (hc : (n.span eof).contains offset = true) :
    ∃ above, pathAmong eof offset cs = above ++ n.pathDown eof offset := by
  cases cs with
  | nil => cases hn
  | cons c cs =>
    rw [leavesAll] at ho
    rw [pathAmong]
    -- the search goes into the first tree that covers the offset: the one with `n`, since the trees
    -- stand one behind the other
    rcases List.mem_append.1 hn with hn | hn
    · have hnode : c.isNode = true := by
        cases c with
        | leaf t => cases hn
        | node k cs => rfl
      have hoc : InOrder c.leaves := by
        rw [← List.nil_append c.leaves] at ho
        exact ho.infix
      rw [hnode, contains_of_mem hoc hn (hf n (List.mem_append_left _ hn)) hc, Bool.and_self,
        if_pos rfl]
      exact pathDown_eq c hoc (fun m hm => hf m (List.mem_append_left _ hm)) hn hc
    · have hoc : InOrder (leavesAll cs) := by
        rw [← List.append_nil (c.leaves ++ leavesAll cs)] at ho
        exact ho.infix
      -- no tree in front of the one with `n` covers the offset
      have hskip : (c.isNode && (c.span eof).contains offset) = false := by
        cases hnode : c.isNode with
        | false => rfl
        | true =>
          have hcl := hf c (List.mem_append_left _ (mem_preorder_self hnode))
          rw [not_contains_of_mem ho hcl hn (hf n (List.mem_append_right _ hn)) hc]
          rfl
      rw [hskip, if_neg Bool.false_ne_true]
      exact pathAmong_eq cs hoc (fun m hm => hf m (List.mem_append_right _ hm)) hn hc

end

mutual

/-- The nodes of a path belong to the tree. -/
theorem pathDown_subset (t : Tree) {n : Tree} {eof offset : Nat} (h : n ∈ t.pathDown eof offset) :
    n ∈ t.preorder := by
  cases t with
  | leaf t => cases h
  | node k cs =>
    rcases List.mem_cons.1 h with rfl | h
    · exact List.mem_cons_self
    · exact List.mem_cons_of_mem _ (pathAmong_subset cs h)

theorem pathAmong_subset (cs : List Tree) {n : Tree} {eof offset : Nat}
    (h : n ∈ pathAmong eof offset cs) : n ∈ preorderAll cs := by
  cases cs with
  | nil => cases h
  | cons c cs =>
    rw [pathAmong] at h
    split at h
    · exact List.mem_append_left _ (pathDown_subset c h)
    · exact List.mem_append_right _ (pathAmong_subset cs h)

end

end Tree

end EventLint
