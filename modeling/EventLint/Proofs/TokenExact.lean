import EventLint.Proofs.Descendants
import EventLint.Proofs.RemoveModifier

/-!
# What the removal of a modifier deletes

Main statement: the edit that removes a modifier of an event deletes one token and the spaces and
tabs on one side of it, and every other token stays as it is and on its line.
-/

namespace EventLint

open Text Token

/-! ## 1. Tokens on their lines -/

/-- What a reader sees of a token of `text`: its kind, its text and the number of its line. -/
def Token.onLine (text : Text) (t : Token) : TokenKind × Text × Nat :=
  (t.kind, t.text, (LineIndex.ofText text).line t.start)

namespace Token

/-- The line of a token is told by the line breaks in front of it. -/
theorem onLine_eq {text : Text} {before after : List Token} {t : Token}
    (h : scan text = before ++ t :: after) :
    onLine text t = (t.kind, t.text, (source before ++ t.leading).count '\n' + 1) := by
  obtain ⟨rest, htext, hstart⟩ := exists_cut_of_scan h
  rw [onLine, hstart]
  conv_lhs => rw [htext, List.append_assoc, LineIndex.line_byteSize]

/-- A token is on the same line in two texts if as many line breaks stand in front of it. -/
theorem onLine_congr {text text' : Text} {a c a' c' : List Token} {t t' : Token}
    (h : scan text = a ++ t :: c) (h' : scan text' = a' ++ t' :: c') (hbare : t'.bare = t.bare)
    (hcount : (source a' ++ t'.leading).count '\n' = (source a ++ t.leading).count '\n') :
    onLine text' t' = onLine text t := by
  obtain ⟨hk, ht⟩ := Prod.mk.inj hbare
  rw [onLine_eq h, onLine_eq h', hk, ht, hcount]

namespace Deletion

variable {pre post : List Token} {v n : Token} {x b b' l r : Text}

/-- Without the word, the other tokens stay as they are and on their lines. -/
theorem onLine_scan_new (hd : Deletion v n x b b' l)
    (hs : scan (source pre ++ old v n r) = pre ++ v :: n :: post)
    (hc : ∀ t ∈ pre.getLast?, t.kind.isClean = true) :
    (scan (source pre ++ new n x l r)).map (onLine (source pre ++ new n x l r)) =
      (pre ++ n :: post).map (onLine (source pre ++ old v n r)) := by
  obtain ⟨post', hnew, hpost⟩ := hd.scan_new hs hc
  have hbreaks := hd.count_newline
  simp only [List.count_append] at hbreaks
  rw [hnew, List.map_append, List.map_append, List.map_cons, List.map_cons]
  congr 1
  · -- in front of the word nothing changes
    refine List.map_congr_left fun t ht => ?_
    obtain ⟨a, c, rfl⟩ := List.append_of_mem ht
    rw [List.append_assoc, List.cons_append] at hs hnew
    exact onLine_congr hs hnew rfl rfl
  congr 1
  · rw [List.append_cons] at hs
    refine onLine_congr hs hnew rfl ?_
    simp only [source_append, source_cons, source_nil, List.count_append, List.append_nil]
    omega
  · -- behind it tokens move, and their lines keep the numbers
    rw [hpost, List.map_map]
    refine List.map_congr_left fun t ht => ?_
    obtain ⟨a, c, rfl⟩ := List.append_of_mem ht
    rw [hpost, List.map_append, List.map_cons, ← List.cons_append, ← List.cons_append,
      ← List.append_assoc] at hs
    rw [← List.cons_append, ← List.append_assoc] at hnew
    refine onLine_congr hs hnew rfl ?_
    simp only [source_append, source_cons, source_map_shift, List.count_append, shift]
    omega

end Deletion

end Token

/-! ## 2. The edit -/

namespace Document

/-- The removal of a modifier from an event deletes the first modifier of its kind and the spaces
and tabs on one side of it, and leaves every other token as it is and on its line. -/
theorem removal_tokenExact {text : Text} {member : Tree} {m : Token}
    (hmember : member ∈ (ofText text).nodes)
    (hevent : member.nodeKind?.any NodeKind.isEvent = true)
    (hm : m ∈ Event.modifiersOf member) :
    ∃ before t after x b b' y,
      (Event.modifiersOf member).find? (·.kind = m.kind) = some t ∧
      scan text = before ++ t :: after ∧
      text = x ++ (b ++ t.text ++ b') ++ y ∧ t.start = byteSize (x ++ b) ∧
      (∀ c ∈ b ++ b', isIndent c = true) ∧ (b = [] ∨ b' = []) ∧
      Modifier.removal? (ofText text) member m.kind =
        some (.delete (byteSize x) (byteSize (x ++ (b ++ t.text ++ b')))) ∧
      (ofText text).removeModifier member m.kind = .ok (ofText (x ++ y)) ∧
      (scan (x ++ y)).map (onLine (x ++ y)) = (before ++ after).map (onLine text) := by
  rw [nodes_ofText] at hmember
  obtain ⟨t, ht⟩ : ∃ t, (Event.modifiersOf member).find? (·.kind = m.kind) = some t :=
    Option.isSome_iff_exists.1 (List.find?_isSome.2 ⟨m, hm, decide_eq_true rfl⟩)
  have htoken := ht
  rw [← Tree.token?_eq_find?] at htoken
  obtain ⟨events, events', hevents⟩ := List.append_of_mem
    (Tree.mem_eventNodes_of_mem_preorder _ (Tree.flatEvents_ofTokens _) hmember hevent)
  obtain ⟨p⟩ := Tree.exists_modifierPlace hevents htoken
  obtain ⟨next, post, -, hscan, hword, hnext⟩ := Tree.exists_words p
  have hclean := p.isClean_front
  generalize p.front ++ (Tree.leavesAll (Tree.attributes p.member).1 ++ p.prior) = before
    at hscan hclean
  obtain ⟨x, b, b', l, r, hd, hold, hedit, happly⟩ :=
    Modifier.exists_deletion hscan hword hnext hclean
  have hnew : source before ++ Deletion.new next x l r =
      source before ++ x ++ (l ++ (next.text ++ r)) := by
    rw [Deletion.new, List.append_assoc]
  refine ⟨before, t, next :: post, source before ++ x, b, b', l ++ (next.text ++ r), ht, hscan, ?_,
    ?_, ?_, hd.oneSide, ?_, ?_, ?_⟩
  · rw [hold, Deletion.old, hd.before, hd.after]
    simp only [List.append_assoc]
  · obtain ⟨rest, -, hstart⟩ := exists_cut_of_scan hscan
    rw [hstart, hd.before, List.append_assoc]
  · intro c hc
    exact (List.mem_append.1 hc).elim (hd.blanks c) (hd.blanks' c)
  · rw [Modifier.removal?, htoken, Option.map_some, text_ofText, hedit]
  · rw [← hnew]
    exact removeModifier_eq htoken happly
  · rw [← hnew, hold]
    exact hd.onLine_scan_new (hold ▸ hscan) hclean

/-- The first of two `virtual` ends a line, between a comment and a directive. -/
theorem removal_tokenExact_lastOnLine :
    let text :=
      "class C\n\x7b\n  static /* é */ virtual\n#line 3\n  virtual event A B;\n\x7d".toList
    ∃ member ∈ (ofText text).nodes, member.nodeKind?.any NodeKind.isEvent = true ∧
      ∃ m ∈ Event.modifiersOf member, m.kind = .keyword .virtualKw ∧
        ∃ before t after text',
          scan text = before ++ t :: after ∧ t.kind = .keyword .virtualKw ∧
          (ofText text).removeModifier member m.kind = .ok (ofText text') ∧
          (scan text').map (onLine text') = (before ++ after).map (onLine text) := by
  intro text
  have hfind : ((ofText text).root.eventNodes.any fun n => (Event.modifiersOf n).any fun m =>
      decide (m.kind = .keyword .virtualKw)) = true := by
    decide +kernel
  obtain ⟨member, hmember, hany⟩ := List.any_eq_true.1 hfind
  obtain ⟨m, hm, hkind⟩ := List.any_eq_true.1 hany
  have hk := of_decide_eq_true hkind
  obtain ⟨hnode, hevent⟩ := Tree.mem_preorder_of_mem_eventNodes _ hmember
  rw [← nodes_ofText] at hnode
  obtain ⟨before, t, after, x, b, b', y, hfirst, hscan, -, -, -, -, -, hremove, hlines⟩ :=
    removal_tokenExact hnode hevent hm
  have hsame := List.find?_some hfirst
  exact ⟨member, hnode, hevent, m, hm, hk, before, t, after, x ++ y, hscan,
    (of_decide_eq_true hsame).trans hk, hremove, hlines⟩

end Document

end EventLint
