import EventLint.Proofs.AddedMethod
import EventLint.Proofs.Positions

/-!
# One fix

A fix changes one declaration and may add lines behind it. Main statement: after a fix of either
kind the events in front of the declaration are what they were, the fixed one says `virtual` once
less, and those behind it are seen the same further down.
-/

namespace EventLint

open Text Token

namespace Document

open EventLint.Tree

/-! ## 1. The lines of members -/

/-- The line on which a declaration ends. -/
def endLine (text : Text) (n : Tree) : Nat :=
  (LineIndex.ofText text).line ((ofText text).spanOf n).stop

section

variable {text : Text} {met more : List (Bool × Tree)} {x y : Bool × Tree} {e : Event}
  {s : Sighting}

theorem mem_eventNodes_of_mem_members (hx : x ∈ members text) :
    x.2 ∈ (ofText text).root.eventNodes := by
  rw [← map_snd_taggedEvents false]
  exact List.mem_map_of_mem hx

theorem mem_preorder_of_mem_members (hx : x ∈ members text) :
    x.2 ∈ (ofText text).root.preorder :=
  (mem_preorder_of_mem_eventNodes _ (mem_eventNodes_of_mem_members hx)).1

/-- The tokens of a member come before those of the next. -/
theorem pairwise_members (text : Text) : (members text).Pairwise fun y z =>
    ∀ u ∈ y.2.leaves, ∀ w ∈ z.2.leaves, u.stop ≤ w.start := by
  have hleaves : (members text).flatMap (fun y => y.2.leaves) =
      (ofTokens (scan text)).eventNodes.flatMap leaves := by
    rw [← map_snd_taggedEvents false, List.flatMap_map]
    rfl
  have hsub := leaves_eventNodes_sublist (ofTokens (scan text))
  rw [leaves_ofTokens, ← hleaves] at hsub
  exact (List.pairwise_flatMap.1 ((scan_inPlace text).inOrder.before.sublist hsub)).2

theorem exists_of_mem_sightings {xs : List (Bool × Tree)}
    (hs : s ∈ xs.filterMap (sightingIn? text)) :
    ∃ y ∈ xs, ∃ e, Event.ofTree? y.2 = some e ∧ e.nameToken ∈ y.2.leaves ∧
      s.line = (LineIndex.ofText text).line e.nameToken.start := by
  obtain ⟨y, hy, hseen⟩ := List.mem_filterMap.1 hs
  obtain ⟨e, he, rfl⟩ := Option.map_eq_some_iff.1 hseen
  exact ⟨y, hy, e, he, (Event.views_of_ofTree? he).name, rfl⟩

theorem line_le_endLine (hx : x ∈ members text) {u : Token} (hu : u ∈ x.2.leaves) :
    (LineIndex.ofText text).line u.start ≤ endLine text x.2 := by
  have ho := inOrder_of_mem (mem_preorder_of_mem_members hx)
  have hspan := span_token (ofText text).eof ho hu
  exact LineIndex.line_le (Nat.le_trans (Nat.le_of_lt (ho.pos u hu)) hspan.2) text

theorem leaves_ne_nil_of_mem_members (hx : x ∈ members text) : x.2.leaves ≠ [] := by
  obtain ⟨before, behind, h⟩ := List.append_of_mem (mem_eventNodes_of_mem_members hx)
  obtain ⟨p⟩ := exists_eventPlace h
  exact List.ne_nil_of_mem p.keyword_mem

theorem endLine_le_line (h : members text = met ++ x :: more) (hy : y ∈ more) {u : Token}
    (hu : u ∈ y.2.leaves) : endLine text x.2 ≤ (LineIndex.ofText text).line u.start := by
  have hx : x ∈ members text := by simp [h]
  obtain ⟨first, last, -, hlast, -, -, hspan⟩ :=
    exists_span (ofText text).eof (leaves_ne_nil_of_mem_members hx)
  have hpairs := pairwise_members text
  rw [h] at hpairs
  have hstop := (List.pairwise_cons.1 (List.pairwise_append.1 hpairs).2.1).1 y hy last hlast u hu
  rw [endLine, spanOf, hspan]
  exact LineIndex.line_le hstop text

/-- Behind a declaration, events have their names on the line of its end or below. -/
theorem endLine_le_of_behind (h : members text = met ++ x :: more)
    (hs : s ∈ more.filterMap (sightingIn? text)) : endLine text x.2 ≤ s.line := by
  obtain ⟨y, hy, e, -, hname, hline⟩ := exists_of_mem_sightings hs
  rw [hline]
  exact endLine_le_line h hy hname

theorem endLine_le_endLine (h : members text = met ++ x :: more) (hy : y ∈ met) :
    endLine text y.2 ≤ endLine text x.2 := by
  have hx : x ∈ members text := by simp [h]
  obtain ⟨u, hu⟩ := List.exists_mem_of_ne_nil _ (leaves_ne_nil_of_mem_members hx)
  obtain ⟨a, b, rfl⟩ := List.append_of_mem hy
  rw [List.append_assoc, List.cons_append] at h
  exact Nat.le_trans (endLine_le_line h (by simp) hu) (line_le_endLine hx hu)

theorem le_endLine_of_front (h : members text = met ++ x :: more)
    (hs : s ∈ met.filterMap (sightingIn? text)) : s.line ≤ endLine text x.2 := by
  obtain ⟨y, hy, e, -, hname, hline⟩ := exists_of_mem_sightings hs
  rw [hline]
  exact Nat.le_trans (line_le_endLine (by rw [h]; exact List.mem_append_left _ hy) hname)
    (endLine_le_endLine h hy)

theorem Kept.endLine {text' : Text} (h : Kept met text text') (hy : y ∈ met)
    (hne : y.2.leaves ≠ []) : endLine text' y.2 = endLine text y.2 := by
  obtain ⟨first, last, -, hmem, hfirst, hlast, -⟩ := exists_span (ofText text).eof hne
  rw [Document.endLine, Document.endLine, spanOf, spanOf, span_of_leaves _ hfirst hlast,
    span_of_leaves _ hfirst hlast]
  exact (h y hy last hmem).2

end

/-! ## 2. What a fix does -/

/-- A fix of the event seen as `s`, behind the members `met` and in front of the events seen as
`more`: it puts `d` lines into line `l`. -/
structure Step (text text' : Text) (met : List (Bool × Tree)) (s : Sighting) (more : List Sighting)
    (l d : Nat) : Prop where
  kept : Kept met text text'
  seen : ∃ rest, members text' = met ++ rest ∧
    rest.filterMap (sightingIn? text') = s.less :: more.map (Sighting.lower d)
  cut : Suppression.Inserted (Suppression.ofText text) (Suppression.ofText text') l d

section

variable {text : Text} {met more : List (Bool × Tree)} {x : Bool × Tree} {e : Event}

theorem exists_step_removal (h : members text = met ++ x :: more) (he : Event.ofTree? x.2 = some e)
    {v : Token} (hv : e.modifier? (.keyword .virtualKw) = some v) (l : Nat) :
    ∃ text', Edit.applyAll [Modifier.removal text v] text = .ok text' ∧
      Step text text' met (e.sighting (LineIndex.ofText text).line x.1)
        (more.filterMap (sightingIn? text)) l 0 := by
  obtain ⟨text', rest, happly, hkept, hmembers, hseen, hlookup⟩ := exists_removed h he hv
  refine ⟨text', happly, hkept, ⟨rest, hmembers, ?_⟩, fun k _ => hlookup k, ?_,
    fun k _ => hlookup k⟩
  · rw [hseen, show Sighting.lower 0 = id from rfl, List.map_id]
  · rw [hlookup, Nat.add_zero, hlookup, Option.or_self]

/-- The two phases of an extraction. -/
theorem exists_step_extraction (h : members text = met ++ x :: more)
    (he : Event.ofTree? x.2 = some e) {v : Token}
    (hv : e.modifier? (.keyword .virtualKw) = some v) {m : RaiseMethod}
    (hm : e.raiseMethod = .ok m) (hc : x.2.isComplete = true) (hname : e.name.head? ≠ some '@')
    (htype : m.argumentType ∉ openingWords.map String.toList)
    (hangles : anglesClose 0 ((scanFrom false 0 m.argumentType).map Token.kind) = true)
    (start : Nat) :
    ∃ extended text' d, Edit.applyAll [(ofText text).addition x.2 start m] text = .ok extended ∧
      x ∈ members extended ∧ Edit.applyAll [Modifier.removal extended v] extended = .ok text' ∧
      Step text text' met (e.sighting (LineIndex.ofText text).line x.1)
        (more.filterMap (sightingIn? text)) (endLine text x.2) d := by
  obtain ⟨extended, behind, d, hadd, hkept, hmembers, hbehind, hcut⟩ :=
    exists_added h he hm hc hname htype hangles start
  obtain ⟨text', rest, hremove, hkept', hrest, hseen, hlookup⟩ := exists_removed hmembers he hv
  have hfront : Kept met text extended := fun y hy => hkept y (List.mem_append_left _ hy)
  -- the name of the event is on the line where it was
  have hsame := hkept.sighting (List.mem_append_right met (List.mem_singleton_self x)) he
  refine ⟨extended, text', d, hadd, by rw [hmembers]; simp, hremove, hfront.trans hkept',
    ⟨rest, hrest, by rw [hseen, hsame, hbehind]⟩, fun k hk => ?_, ?_, fun k hk => ?_⟩
  · rw [hlookup]
    exact hcut.above k hk
  · rw [hlookup, hlookup]
    exact hcut.cut
  · rw [hlookup]
    exact hcut.below k hk

end

end Document

/-! ## 3. The fix of a diagnostic -/

namespace FixOutcome

open EventLint.Tree

section

variable {text : Text} {e : Event} {f : Diagnostic} (messages : Messages)
  (hn : e.node ∈ (Document.ofText text).root.preorder) (he : Event.ofTree? e.node = some e)
  (hf : IsFor f e)

include hn he hf

/-- A method is added behind the event, which is found again where it starts. -/
theorem tryFix_extractRaiseMethod {extended text' : Text} {m : RaiseMethod} {v : Token}
    (hm : e.raiseMethod = .ok m) (hv : e.modifier? (.keyword .virtualKw) = some v)
    (hadd : Edit.applyAll [(Document.ofText text).addition e.node
      ((Document.ofText text).spanOf e.node).start m] text = .ok extended)
    (hn' : e.node ∈ (Document.ofText extended).root.preorder)
    (hremove : Edit.applyAll [Modifier.removal extended v] extended = .ok text') :
    ∃ action, tryFix (Document.ofText text) messages .extractRaiseMethod f =
      .ok (action, Document.ofText text') := by
  have hvirtual : e.isVirtual = true := by
    rw [Event.isVirtual, hv]
    rfl
  have hviews := Event.views_of_ofTree? he
  have hstart : ((Document.ofText extended).spanOf e.node).start =
      ((Document.ofText text).spanOf e.node).start := by
    obtain ⟨first, last, -, -, hfirst, hlast, -⟩ :=
      exists_span (Document.ofText text).eof (List.ne_nil_of_mem hviews.name)
    rw [Document.spanOf, Document.spanOf, span_of_leaves _ hfirst hlast,
      span_of_leaves _ hfirst hlast]
  have hagain := Document.locate_start hn' he
  rw [hstart] at hagain
  rw [hviews.modifier?] at hv
  have hextend : (Document.ofText text).withEdits [(Document.ofText text).addition e.node
      ((Document.ofText text).spanOf e.node).start m] = .ok (Document.ofText extended) := by
    rw [Document.withEdits, Document.text_ofText, hadd]
    rfl
  refine ⟨⟨messages.extractRaiseMethodTitle, ⟨((Document.ofText text).spanOf e.node).start,
    (Rule.ofShape e.shape).nodeKind⟩, some m⟩, ?_⟩
  rw [tryFix, plan_extractRaiseMethod messages hn he hf hvirtual, hm]
  simp only [Except.map, bind, Except.bind, pure, Except.pure, FixAction.apply,
    FixAction.removeVirtual, Document.locate_start hn he, hextend, Except.mapError, hagain,
    Document.removeModifier_eq hv hremove]

end

end FixOutcome

end EventLint
