import EventLint.Proofs.Changes
import EventLint.Proofs.Insertion
import EventLint.Proofs.Spans

/-!
# Fixes that cannot go wrong

A fix names a declaration by where it starts, in a document that may have changed since. Main
statement: a planned removal of `virtual` succeeds, and in any other document a fix succeeds, or
does not find its declaration, or does not find the modifier. It never cuts through a character, and
none of its edits is refused.
-/

namespace EventLint

open Text Token

/-! ## 1. Edits that are not refused -/

/-- The edit that removes a token cuts the text between characters. -/
theorem Modifier.exists_cut_of_removal {text : Text} {t : Token} (ht : t ∈ scan text) :
    ∃ x b c l, text = x ++ b ++ t.text ++ (c ++ l) ∧ t.start = byteSize (x ++ b) ∧
      removal text t = .delete (byteSize x) (byteSize (x ++ (b ++ t.text ++ c))) := by
  obtain ⟨before, after, hscan⟩ := List.append_of_mem ht
  obtain ⟨rest, hcut, hstart⟩ := exists_cut_of_scan hscan
  obtain ⟨x, b, c, l, hx, hl, -, -, -, hedit⟩ :=
    exists_removal_eq (source before ++ t.leading) (source after ++ rest) hstart
  rw [← hcut] at hedit
  exact ⟨x, b, c, l, by rw [← hx, ← hl]; exact hcut, by rw [hstart, hx], hedit⟩

namespace Document

variable {text : Text} {n : Tree}

/-- Text is added between two characters, and behind the node. -/
theorem exists_cut_of_insertionPoint (hn : n ∈ (ofText text).root.preorder) :
    ∃ p q, text = p ++ q ∧ (ofText text).insertionPoint n = byteSize p ∧
      ((ofText text).spanOf n).stop ≤ byteSize p := by
  obtain ⟨a, y, htext, -, hstop⟩ := exists_of_slice (slice?_spanOf hn)
  obtain ⟨c, z, rfl, hpoint, -⟩ := exists_insertionPoint htext hstop
  refine ⟨a ++ n.text ++ c, z, by rw [List.append_assoc _ c, ← htext, text_ofText], hpoint, ?_⟩
  rw [hstop, byteSize_append _ c]
  exact Nat.le_add_right _ _

/-- A method can be added after every node. -/
theorem exists_addition (hn : n ∈ (ofText text).root.preorder) (start : Nat)
    (method : RaiseMethod) :
    ∃ p q, text = p ++ q ∧ (ofText text).insertionPoint n = byteSize p ∧
      ((ofText text).spanOf n).stop ≤ byteSize p ∧
      Edit.applyAll [(ofText text).addition n start method] text =
        .ok (p ++ (Text.newline text ++ Text.newline text ++
          method.render (Text.indentAt start text) (Text.newline text)) ++ q) := by
  obtain ⟨p, q, htext, hpoint, hstop⟩ := exists_cut_of_insertionPoint hn
  refine ⟨p, q, htext, hpoint, hstop, ?_⟩
  have happly := Edit.applyAll_singleton p [] q
    (Text.newline text ++ Text.newline text ++
      method.render (Text.indentAt start text) (Text.newline text))
  rw [List.append_nil, ← htext] at happly
  rw [addition, hpoint, Edit.insert]
  exact happly

theorem exists_withEdits_addition (hn : n ∈ (ofText text).root.preorder) (start : Nat)
    (method : RaiseMethod) :
    ∃ text', (ofText text).withEdits [(ofText text).addition n start method] =
      .ok (ofText text') := by
  obtain ⟨p, q, -, -, -, happly⟩ := exists_addition hn start method
  exact ⟨_, by rw [withEdits, text_ofText, happly]; rfl⟩

/-- A modifier that is there can be removed. -/
theorem exists_removeModifier (hn : n ∈ (ofText text).root.preorder) {k : TokenKind} {t : Token}
    (ht : Modifier.token? n k = some t) :
    ∃ text', (ofText text).removeModifier n k = .ok (ofText text') := by
  obtain ⟨x, b, c, l, htext, -, hedit⟩ :=
    Modifier.exists_cut_of_removal (mem_scan_of_mem_leaves hn (Tree.mem_leaves_of_token? ht))
  exact ⟨x ++ l, removeModifier_eq ht (Modifier.applyAll_removal_eq htext hedit)⟩

end Document

/-! ## 2. Where a fix cuts the text -/

/-- The places at which a fix cuts the text of a document: the ends of the declaration, the place
for a method behind it, the ends of the modifier, and those of what is deleted with it. -/
def Target.cuts (target : Target) (d : Document) : List Nat :=
  match target.locate d with
  | .error _ => []
  | .ok member =>
    [(d.spanOf member).start, (d.spanOf member).stop, d.insertionPoint member] ++
      match Modifier.token? member (.keyword .virtualKw) with
      | none => []
      | some t =>
        [t.start, t.stop, (Modifier.removal d.text t).start, (Modifier.removal d.text t).stop]

namespace Target

/-- What is found is a node of the kind and starts where the target does. -/
theorem of_locate_eq_ok {target : Target} {d : Document} {n : Tree}
    (h : target.locate d = .ok n) :
    n ∈ d.root.preorder ∧ n.isOf target.kind = true ∧ (d.spanOf n).start = target.start := by
  unfold locate at h
  split at h
  · rename_i m hfind
    obtain rfl := Except.ok.inj h
    have haccepts := List.find?_some hfind
    rw [Bool.and_eq_true, decide_eq_true_eq] at haccepts
    exact ⟨Document.mem_preorder_of_ancestor? hfind, haccepts⟩
  · cases h

theorem locate_cases (target : Target) (d : Document) :
    (∃ n, target.locate d = .ok n) ∨
      target.locate d = .error (.declarationNotFound target.start) := by
  unfold locate
  split
  · exact Or.inl ⟨_, rfl⟩
  · exact Or.inr rfl

theorem isBoundary_of_mem_cuts {target : Target} {text : Text} {offset : Nat}
    (h : offset ∈ target.cuts (.ofText text)) : Edit.isBoundary text offset = true := by
  unfold cuts at h
  split at h
  · cases h
  · rename_i n hlocate
    obtain ⟨hn, -, -⟩ := of_locate_eq_ok hlocate
    rcases List.mem_append.1 h with h | h
    · -- the node itself, and where a method is inserted behind it
      obtain ⟨a, c, htext, hstart, hstop⟩ := exists_of_slice (Document.slice?_spanOf hn)
      obtain ⟨p, q, hpq, hpoint, -⟩ := Document.exists_cut_of_insertionPoint hn
      rw [Document.text_ofText] at htext
      simp only [List.mem_cons, List.not_mem_nil, or_false] at h
      rcases h with rfl | rfl | rfl
      · exact Edit.isBoundary_iff.2 ⟨a, n.text ++ c, by rw [htext, List.append_assoc], hstart⟩
      · exact Edit.isBoundary_iff.2 ⟨a ++ n.text, c, htext, hstop⟩
      · exact Edit.isBoundary_iff.2 ⟨p, q, hpq, hpoint⟩
    · split at h
      · cases h
      · -- the modifier, with the blanks that are removed around it
        rename_i t ht
        obtain ⟨x, b, c, l, htext, hstart, hedit⟩ :=
          Modifier.exists_cut_of_removal
            (Document.mem_scan_of_mem_leaves hn (Tree.mem_leaves_of_token? ht))
        rw [Document.text_ofText, hedit] at h
        simp only [List.mem_cons, List.not_mem_nil, or_false] at h
        rcases h with rfl | rfl | rfl | rfl
        · exact Edit.isBoundary_iff.2 ⟨x ++ b, _, by rw [htext, List.append_assoc], hstart⟩
        · refine Edit.isBoundary_iff.2 ⟨x ++ b ++ t.text, _, htext, ?_⟩
          rw [stop, hstart, byteSize_append (x ++ b)]
        · refine Edit.isBoundary_iff.2 ⟨x, b ++ t.text ++ (c ++ l), ?_, rfl⟩
          rw [htext]
          simp only [List.append_assoc]
        · refine Edit.isBoundary_iff.2 ⟨x ++ (b ++ t.text ++ c), l, ?_, rfl⟩
          rw [htext]
          simp only [List.append_assoc]

end Target

/-! ## 3. Planned fixes -/

namespace FixAction

/-- The ways in which a fix may end. -/
def Ends (target : Target) (r : Except FixError Document) : Prop :=
  (∃ text, r = .ok (.ofText text)) ∨ r = .error (.declarationNotFound target.start) ∨
    r = .error (.modifierMissing "virtual")

theorem ends_removeVirtual (target : Target) (text : Text) :
    Ends target (removeVirtual target (.ofText text)) := by
  rw [removeVirtual]
  rcases target.locate_cases (.ofText text) with ⟨n, hlocate⟩ | hlocate
  · rw [hlocate]
    show Ends target ((Document.ofText text).removeModifier n (.keyword .virtualKw))
    cases ht : Modifier.token? n (.keyword .virtualKw) with
    | none =>
      refine Or.inr (Or.inr ?_)
      rw [Document.removeModifier, Modifier.removal?, ht]
      rfl
    | some t => exact Or.inl (Document.exists_removeModifier (Target.of_locate_eq_ok hlocate).1 ht)
  · rw [hlocate]
    exact Or.inr (Or.inl rfl)

theorem ends_apply (a : FixAction) (text : Text) : Ends a.target (a.apply (.ofText text)) := by
  unfold apply
  split
  · exact ends_removeVirtual a.target text
  · rename_i method _
    rcases a.target.locate_cases (.ofText text) with ⟨n, hlocate⟩ | hlocate
    · -- the method goes in, and `virtual` is removed from the text that results
      obtain ⟨text', hadd⟩ := Document.exists_withEdits_addition (Target.of_locate_eq_ok hlocate).1
        a.target.start method
      rw [hlocate]
      show Ends a.target (((Document.ofText text).withEdits _ |>.mapError FixError.refused) >>=
        removeVirtual a.target)
      rw [hadd]
      exact ends_removeVirtual a.target text'
    · rw [hlocate]
      exact Or.inr (Or.inl rfl)

end FixAction

namespace Document

theorem of_virtualEventAt_eq_ok {d : Document} {rule : Rule} {offset : Nat} {n : Tree} {e : Event}
    (h : d.virtualEventAt rule offset = .ok (n, e)) :
    n ∈ d.root.preorder ∧ n.isOf rule.nodeKind = true ∧ Event.ofTree? n = some e ∧
      e.isVirtual = true := by
  unfold virtualEventAt at h
  split at h
  · cases h
  · rename_i m hfind
    split at h
    · cases h
    · rename_i e' he
      split at h
      · rename_i hv
        obtain ⟨rfl, rfl⟩ := Prod.mk.inj (Except.ok.inj h)
        exact ⟨mem_preorder_of_ancestor? hfind, List.find?_some hfind, he, hv⟩
      · cases h

/-- A planned removal finds its declaration and the modifier again. -/
theorem exists_apply_of_planAt {text : Text} {messages : Messages} {rule : Rule} {offset : Nat}
    {a : FixAction} (h : (ofText text).planAt messages rule offset .removeModifier = .ok a) :
    ∃ text', a.apply (ofText text) = .ok (ofText text') := by
  obtain ⟨n, e, hevent, htarget, hkind, -⟩ := exists_of_planAt h
  obtain ⟨hn, hof, he, hv⟩ := of_virtualEventAt_eq_ok hevent
  have hview := Event.views_of_ofTree? he
  have hrule : rule.nodeKind = (Rule.ofShape e.shape).nodeKind := by
    rw [Tree.isOf, decide_eq_true_eq, hview.kind] at hof
    exact (Option.some.inj hof).symm
  obtain ⟨v, hv⟩ := Option.isSome_iff_exists.1 hv
  rw [hview.modifier?] at hv
  obtain ⟨text', hremove⟩ := exists_removeModifier hn hv
  refine ⟨text', ?_⟩
  have hmethod : a.method = none := by
    unfold FixAction.kind at hkind
    split at hkind
    · assumption
    · cases hkind
  rw [FixAction.apply, hmethod]
  show FixAction.removeVirtual a.target (ofText text) = .ok (ofText text')
  rw [FixAction.removeVirtual, htarget, hrule, locate_start hn he]
  exact hremove

/-- Fixes are offered together: what can be extracted can also be removed. -/
theorem exists_removeModifier_mem_fixes {d : Document} {messages : Messages} {f : Diagnostic}
    {a : FixAction} (ha : a ∈ d.fixes messages f) :
    ∃ b ∈ d.fixes messages f, b.kind = .removeModifier ∧ b.target = a.target := by
  obtain ⟨kind, -, hplan⟩ := List.mem_filterMap.1 ha
  have hplan : d.plan messages f kind = .ok a := by
    cases hp : d.plan messages f kind with
    | error e =>
      rw [hp] at hplan
      cases hplan
    | ok b =>
      rw [hp] at hplan
      exact congrArg Except.ok (Option.some.inj hplan)
  obtain ⟨n, e, hevent, htarget, -, -⟩ := exists_of_planAt hplan
  have hremoval : d.plan messages f .removeModifier =
      .ok ⟨messages.removeModifierTitle, ⟨(d.spanOf n).start, f.rule.nodeKind⟩, none⟩ := by
    rw [plan, planAt, hevent]
    rfl
  exact ⟨_, List.mem_filterMap.2 ⟨.removeModifier, by decide, by rw [hremoval]; rfl⟩, rfl,
    htarget.symm⟩

end Document

/-- A removal that was planned on a document succeeds there, an extraction is offered only together
with a removal, and whatever was planned anywhere, a fix of this document succeeds or finds no
declaration or no modifier. All its cuts are between characters, in the text between the two edits
of an extraction as in any other. -/
theorem FixAction.apply_safe (text : Text) :
    (∀ messages rule offset a,
      (Document.ofText text).planAt messages rule offset .removeModifier = .ok a →
        ∃ text', a.apply (.ofText text) = .ok (.ofText text')) ∧
    (∀ messages f, ∀ a ∈ (Document.ofText text).fixes messages f, a.kind = .extractRaiseMethod →
      ∃ b ∈ (Document.ofText text).fixes messages f, b.kind = .removeModifier ∧
        b.target = a.target) ∧
    ∀ a : FixAction,
      ((∃ text', a.apply (.ofText text) = .ok (.ofText text')) ∨
        a.apply (.ofText text) = .error (.declarationNotFound a.target.start) ∨
        a.apply (.ofText text) = .error (.modifierMissing "virtual")) ∧
      ∀ offset ∈ a.target.cuts (.ofText text), Edit.isBoundary text offset = true :=
  ⟨fun _ _ _ _ h => Document.exists_apply_of_planAt h,
    fun _ _ _ ha _ => Document.exists_removeModifier_mem_fixes ha,
    fun a => ⟨ends_apply a text, fun _ h => Target.isBoundary_of_mem_cuts h⟩⟩

/-- A diagnostic in the middle of an event, and a text in which the event is static by now. -/
theorem FixAction.apply_safe_changed :
    let d := Document.ofText "class C \x7b /*é*/ virtual event A<B> X; \x7d".toList
    let f : Diagnostic := ⟨.fieldEvent, "", [], "", 1, 1, ⟨25, 26⟩⟩
    let changed := "class C \x7b /*é*/ static\n event A<B> X; \x7d".toList
    ∃ a b, (d.planAt {} f.rule f.span.start .removeModifier = .ok a ∧
        ∃ text', a.apply d = .ok (.ofText text')) ∧
      (b ∈ d.fixes {} f ∧ b.kind = .extractRaiseMethod ∧
        ∃ c ∈ d.fixes {} f, c.kind = .removeModifier ∧ c.target = b.target) ∧
      b.target.cuts (.ofText changed) = [17, 38, 38] ∧
      ∀ offset ∈ b.target.cuts (.ofText changed), Edit.isBoundary changed offset = true := by
  intro d f changed
  have hplan : (d.planAt {} f.rule f.span.start .removeModifier).toOption.isSome = true := by
    decide +kernel
  have hfix : ((d.fixes {} f).any fun b => b.kind = .extractRaiseMethod ∧
      b.target.cuts (.ofText changed) = [17, 38, 38]) = true := by
    decide +kernel
  obtain ⟨hremove, hoffer, -⟩ := apply_safe "class C \x7b /*é*/ virtual event A<B> X; \x7d".toList
  obtain ⟨-, -, hends⟩ := apply_safe changed
  obtain ⟨b, hb, hk⟩ := List.any_eq_true.1 hfix
  obtain ⟨hk, hcuts⟩ := of_decide_eq_true hk
  cases ha : d.planAt {} f.rule f.span.start .removeModifier with
  | error e => rw [ha] at hplan; cases hplan
  | ok a =>
    exact ⟨a, b, ⟨rfl, hremove _ _ _ a ha⟩, ⟨hb, hk, hoffer _ _ b hb hk⟩, hcuts, (hends b).2⟩

end EventLint
