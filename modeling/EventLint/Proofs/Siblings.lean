import EventLint.Proofs.Spans

/-!
# Declarations side by side

The reader puts the declarations of a scope into one node. Main statement: what a run of the reader
comes to is a child of a node of the tree, and the declarations that are read behind it are the
children behind it.
-/

namespace EventLint.Tree

theorem mem_preorder_of_mem_children {root parent c : Tree} (hp : parent ∈ root.preorder)
    (hc : c ∈ parent.children) (hnode : c.isNode = true) : c ∈ root.preorder := by
  have hbelow := preorderAll_children_subset root hp (mem_preorderAll hc (mem_preorder_self hnode))
  cases root with
  | leaf t => cases hp
  | node k cs => exact List.mem_cons_of_mem _ hbelow

/-- In the tree `root`, the declarations that are still to come in each of the open scopes are
children of one node, behind those that were read. -/
def Collects (root : Tree) : List Scope → List Token → Prop
  | [], _ => True
  | s :: ss, ts =>
    (∃ parent ∈ root.preorder, ∃ front back,
      parent.children = front ++ ((declarations s ts).1 ++ back)) ∧
    Collects root ss (afterClose s (declarations s ts).2)

section

variable {root : Tree} {s inner : Scope} {ss : List Scope} {l : Level} {ls ls' : List Level}
  {ts after : List Token} {tree : Tree} {kind : NodeKind} {parts : List Tree}
  {out : List (Bool × Tree)}

theorem collects_ofTokens (ts : List Token) : Collects (ofTokens ts) [.file] ts :=
  ⟨⟨ofTokens ts, mem_preorder_self rfl, [], [], by rw [List.append_nil]; rfl⟩, trivial⟩

theorem exists_children_closeContainer (kind : NodeKind) (parts : List Tree) (s : Scope)
    (inner : List Tree × List Token) :
    ∃ close, (closeContainer kind parts s inner).1 = node kind (parts ++ (inner.1 ++ close)) := by
  cases s with
  | file => exact ⟨[], by rw [List.append_nil]; rfl⟩
  | namespaceBody => exact ⟨(optional .rbrace inner.2).1, by rw [← List.append_assoc]; rfl⟩
  | typeBody =>
    refine ⟨(optional .rbrace inner.2).1 ++
      (optional .semicolon (optional .rbrace inner.2).2).1, ?_⟩
    simp only [closeContainer, List.append_assoc]

namespace Collects

theorem whole (h : Collects root (s :: ss) ts) (he : s.ends ts = false)
    (ho : opening? s ts = some (.whole tree after)) : Collects root (s :: ss) after := by
  obtain ⟨⟨parent, hp, front, back, hcs⟩, hss⟩ := h
  rw [declarations_of_whole he ho] at hcs hss
  exact ⟨⟨parent, hp, front ++ [tree], back, by simpa using hcs⟩, hss⟩

/-- The node of a container collects its declarations. -/
theorem enter (h : Collects root (s :: ss) ts) (he : s.ends ts = false)
    (ho : opening? s ts = some (.container kind parts inner after)) :
    Collects root (inner :: s :: ss) after := by
  obtain ⟨⟨parent, hp, front, back, hcs⟩, hss⟩ := h
  rw [declarations_of_container he ho] at hcs hss
  obtain ⟨close, hbody⟩ :=
    exists_children_closeContainer kind parts inner (declarations inner after)
  rw [hbody] at hcs
  have hmem : node kind (parts ++ ((declarations inner after).1 ++ close)) ∈ root.preorder :=
    mem_preorder_of_mem_children hp (by rw [hcs]; simp) rfl
  refine ⟨⟨_, hmem, parts, close, rfl⟩, ⟨parent, hp, front ++
    [node kind (parts ++ ((declarations inner after).1 ++ close))], back, ?_⟩, hss⟩
  rw [hcs]
  simp

theorem leave (h : Collects root (s :: ss) ts) (he : s.ends ts = true) :
    Collects root ss (afterClose s ts) := by
  have hss := h.2
  rwa [declarations_of_ends he] at hss

theorem run (h : Collects root (ls.map Level.scope) ts) (hrun : Run ls ts out ls' after) :
    Collects root (ls'.map Level.scope) after := by
  induction hrun with
  | refl => exact h
  | whole he ho _ ih => exact ih (h.whole he ho)
  | enter he ho _ ih => exact ih (h.enter he ho)
  | leave he _ ih => exact ih (h.leave he)

end Collects

/-- What a run comes to stands in a node of the tree, in front of what is read behind it. -/
theorem Run.exists_siblings {r : List Token} (hrun : Run [.file] ts out (l :: ls) r)
    (he : l.scope.ends r = false) (ho : opening? l.scope r = some (.whole tree after)) :
    ∃ parent ∈ (ofTokens ts).preorder, ∃ front back,
      parent.children = front ++ (tree :: (declarations l.scope after).1 ++ back) := by
  obtain ⟨⟨parent, hp, front, back, hcs⟩, -⟩ := (collects_ofTokens ts).run hrun
  rw [declarations_of_whole he ho] at hcs
  exact ⟨parent, hp, front, back, hcs⟩

end

end EventLint.Tree
