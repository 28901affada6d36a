import EventLint.Fix.All
import EventLint.Proofs.RemoveModifier

/-!
# Fixes change the text

Removing a modifier takes a letter away that nothing puts back, and a method that is added has a
parenthesis that no removal takes away. Main statement: fixing a text changes it exactly if a fix
was applied.
-/

namespace EventLint

open Text

/-! ## 1. What the edits do to the characters of a text -/

namespace Modifier

open Token

/-- The characters of a text after the removal of a token, blanks apart. -/
theorem count_removal {text text' : Text} {t : Token} (ht : t ∈ scan text)
    (h : Edit.applyAll [removal text t] text = .ok text') {c : Char} (hc : isIndent c = false) :
    text'.count c + t.text.count c = text.count c := by
  -- only blanks go with the token: those at the end of what stands before it, or behind it
  obtain ⟨before, after, hscan⟩ := List.append_of_mem ht
  obtain ⟨rest, hcut, hstart⟩ := exists_cut_of_scan hscan
  obtain ⟨x, b, b', l, hx, hl, hb, hb', -, hedit⟩ :=
    exists_removal_eq (source before ++ t.leading) (source after ++ rest) hstart
  rw [← hcut] at hedit
  have happly := applyAll_removal_eq (by rw [← hx, ← hl]; exact hcut) hedit
  rw [h] at happly
  have hb : b.count c = 0 := List.count_eq_zero.2 fun hm => by
    rcases hb with rfl | rfl
    · cases hm
    · rw [isIndent_of_mem_blanksAtEnd hm] at hc
      cases hc
  have hb' : b'.count c = 0 := List.count_eq_zero.2 fun hm => by
    rcases hb' with rfl | rfl
    · cases hm
    · rw [List.all_eq_true.1 List.all_takeWhile c hm] at hc
      cases hc
  rw [Except.ok.inj happly, hcut, hx, hl]
  simp only [List.count_append, hb, hb']
  omega

end Modifier

namespace Token

/-- A keyword is spelled as it is written. -/
theorem text_of_keyword {text : Text} {t : Token} {k : Keyword} (ht : t ∈ scan text)
    (hk : t.kind = .keyword k) : t.text = k.text.toList := by
  obtain ⟨c, u, w, htext, hl⟩ := exists_lexeme rfl ht
  rw [hk] at hl
  have hspell := text_of_lexeme hl
  rwa [List.take_left, ← htext] at hspell

end Token

namespace Document

open EventLint.Tree Token

theorem mem_preorder_of_ancestor? {d : Document} {offset : Nat} {accepts : Tree → Bool} {n : Tree}
    (h : d.ancestor? offset accepts = some n) : n ∈ d.root.preorder := by
  have hmem := List.mem_reverse.1 (List.mem_of_find?_eq_some h)
  rw [coveringPath, Tree.coveringPath] at hmem
  split at hmem
  · exact pathDown_subset _ hmem
  · cases hmem

/-- What the edit of one document makes of it. -/
theorem exists_of_withEdits {text : Text} {edits : List Edit} {next : Document}
    (h : ((ofText text).withEdits edits).mapError FixError.refused = .ok next) :
    ∃ text', next = ofText text' ∧ Edit.applyAll edits text = .ok text' := by
  rw [withEdits, text_ofText] at h
  cases happly : Edit.applyAll edits text with
  | error e =>
    rw [happly] at h
    cases h
  | ok text' =>
    rw [happly] at h
    exact ⟨text', (Except.ok.inj h).symm, rfl⟩

/-- A modifier that is removed was there. -/
theorem exists_of_removeModifier {text : Text} {n : Tree} {k : TokenKind} {next : Document}
    (h : (ofText text).removeModifier n k = .ok next) :
    ∃ v text', Modifier.token? n k = some v ∧ next = ofText text' ∧
      Edit.applyAll [Modifier.removal text v] text = .ok text' := by
  rw [removeModifier, Modifier.removal?] at h
  cases hv : Modifier.token? n k with
  | none =>
    rw [hv] at h
    cases h
  | some v =>
    rw [hv, Option.map_some] at h
    obtain ⟨text', hnext, happly⟩ := exists_of_withEdits h
    exact ⟨v, text', rfl, hnext, happly⟩

/-- Removing `virtual` takes its letters away. -/
theorem count_removeVirtual {text : Text} {target : Target} {next : Document}
    (h : FixAction.removeVirtual target (ofText text) = .ok next) :
    ∃ text', next = ofText text' ∧
      ∀ c, isIndent c = false → text'.count c + "virtual".toList.count c = text.count c := by
  rw [FixAction.removeVirtual, Target.locate] at h
  split at h
  · rename_i n hfind
    have hn := mem_preorder_of_ancestor? hfind
    have h : (ofText text).removeModifier n (.keyword .virtualKw) = .ok next := h
    obtain ⟨v, text', hv, rfl, happly⟩ := exists_of_removeModifier h
    have hmem := mem_scan_of_mem_leaves hn (mem_leaves_of_token? hv)
    have hkind : v.kind = .keyword .virtualKw := by
      obtain ⟨list, -, hlist⟩ := Option.bind_eq_some_iff.1 hv
      simpa using List.find?_some hlist
    refine ⟨text', rfl, fun c hc => ?_⟩
    rw [← Modifier.count_removal hmem happly hc, text_of_keyword hmem hkind]
    rfl
  · cases h

theorem paren_mem_render (m : RaiseMethod) (indent newline : Text) :
    '(' ∈ m.render indent newline := by
  simp [RaiseMethod.render, RaiseMethod.lines]

/-- Adding a method takes nothing away and adds a parenthesis. -/
theorem count_addition {text : Text} {n : Tree} {start : Nat} {method : RaiseMethod}
    {next : Document}
    (h : ((ofText text).withEdits [(ofText text).addition n start method]).mapError
      FixError.refused = .ok next) :
    ∃ text', next = ofText text' ∧ text.count '(' < text'.count '(' := by
  obtain ⟨text', rfl, happly⟩ := exists_of_withEdits h
  obtain ⟨a, b, c, rfl, hstart, hstop, rfl⟩ := Edit.exists_of_applyAll happly
  refine ⟨_, rfl, ?_⟩
  -- the range of an insertion is empty
  have hb : b = [] := by
    by_contra hne
    have := byteSize_pos hne
    have hsame : byteSize a = byteSize (a ++ b) := hstart.symm.trans hstop
    rw [byteSize_append] at hsame
    omega
  have hpos := List.count_pos_iff.2 (paren_mem_render method ((ofText (a ++ b ++ c)).indentAt start)
    (ofText (a ++ b ++ c)).newline)
  rw [addition, Edit.insert, hb] at *
  simp only [List.count_append, List.count_nil]
  omega

end Document

/-! ## 2. What a fix does -/

/-- A measure of the text moves one way: each kind of fix has a character whose number every fix of
this kind changes in the same direction. -/
def FixKind.Advances : FixKind → Text → Text → Prop
  | removeModifier, old, new => new.count 'v' < old.count 'v'
  | extractRaiseMethod, old, new => old.count '(' < new.count '('

namespace FixKind

theorem Advances.trans {kind : FixKind} {a b c : Text} (hab : kind.Advances a b)
    (hbc : kind.Advances b c) : kind.Advances a c := by
  cases kind
  · exact Nat.lt_trans hbc hab
  · exact Nat.lt_trans hab hbc

theorem Advances.ne {kind : FixKind} {a b : Text} (h : kind.Advances a b) : b ≠ a := by
  rintro rfl
  cases kind <;> exact Nat.lt_irrefl _ h

end FixKind

/-- What succeeds in two steps succeeds in both. -/
theorem exists_of_bind {ε α β : Type} {x : Except ε α} {f : α → Except ε β} {b : β}
    (h : x >>= f = .ok b) : ∃ a, x = .ok a ∧ f a = .ok b := by
  cases x with
  | error e => cases h
  | ok a => exact ⟨a, rfl, h⟩

namespace Document

/-- A fix that was planned is for a virtual event, and of the kind that was asked for. -/
theorem exists_of_planAt {d : Document} {messages : Messages} {rule : Rule} {offset : Nat}
    {kind : FixKind} {action : FixAction} (h : d.planAt messages rule offset kind = .ok action) :
    ∃ n e, d.virtualEventAt rule offset = .ok (n, e) ∧
      action.target = ⟨(d.spanOf n).start, rule.nodeKind⟩ ∧ action.kind = kind ∧
      ∀ m ∈ action.method, e.raiseMethod = .ok m := by
  obtain ⟨⟨n, e⟩, hevent, h⟩ := exists_of_bind h
  refine ⟨n, e, hevent, ?_⟩
  cases kind with
  | removeModifier =>
    obtain rfl := Except.ok.inj h
    exact ⟨rfl, rfl, fun m hm => by cases hm⟩
  | extractRaiseMethod =>
    obtain ⟨method, hmethod, h⟩ := exists_of_bind h
    obtain rfl := Except.ok.inj h
    exact ⟨rfl, rfl, fun m hm => Option.some.inj hm ▸ hmethod⟩

end Document

/-- A fix that is performed advances the text. -/
theorem FixAction.advances {text : Text} {action : FixAction} {next : Document}
    (h : action.apply (.ofText text) = .ok next) :
    ∃ text', next = .ofText text' ∧ action.kind.Advances text text' := by
  rw [FixAction.apply] at h
  cases hm : action.method with
  | none =>
    rw [hm] at h
    obtain ⟨text', rfl, hcount⟩ := Document.count_removeVirtual h
    have hv : text'.count 'v' + 1 = text.count 'v' := hcount 'v' (by decide)
    refine ⟨text', rfl, ?_⟩
    rw [FixAction.kind, hm]
    exact Nat.lt_of_succ_le (Nat.le_of_eq hv)
  | some method =>
    rw [hm] at h
    obtain ⟨member, -, h⟩ := exists_of_bind h
    obtain ⟨extended, hadd, h⟩ := exists_of_bind h
    -- the method adds a parenthesis, and the removal after it takes none away
    obtain ⟨text₁, rfl, hmore⟩ := Document.count_addition hadd
    obtain ⟨text', rfl, hcount⟩ := Document.count_removeVirtual h
    have hp : text'.count '(' + 0 = text₁.count '(' := hcount '(' (by decide)
    rw [← hp] at hmore
    refine ⟨text', rfl, ?_⟩
    rw [FixAction.kind, hm]
    exact hmore

namespace FixOutcome

theorem tryFix_advances {text : Text} {messages : Messages} {kind : FixKind} {f : Diagnostic}
    {action : FixAction} {next : Document}
    (h : tryFix (.ofText text) messages kind f = .ok (action, next)) :
    ∃ text', next = .ofText text' ∧ kind.Advances text text' := by
  obtain ⟨planned, hplan, h⟩ := exists_of_bind h
  obtain ⟨done, happly, h⟩ := exists_of_bind h
  obtain ⟨rfl, rfl⟩ := Prod.mk.inj (Except.ok.inj h)
  obtain ⟨text', hnext, hadvances⟩ := FixAction.advances happly
  obtain ⟨-, -, -, -, hkind, -⟩ := Document.exists_of_planAt hplan
  exact ⟨text', hnext, hkind ▸ hadvances⟩

/-! ## 3. All fixes of a text -/

/-- How far the fixes of a text have come: without an applied fix it is as it was. -/
structure Came (kind : FixKind) (text : Text) (p : Progress) : Prop where
  document : p.document = .ofText p.document.text
  text_eq : p.applied = [] → p.document.text = text
  advances : p.applied ≠ [] → kind.Advances text p.document.text

theorem Came.step {kind : FixKind} {text : Text} {p : Progress} (h : Came kind text p)
    (messages : Messages) (f : Diagnostic) : Came kind text (p.step messages kind f) := by
  rw [Progress.step]
  split
  · rename_i action next htry
    rw [h.document] at htry
    obtain ⟨text', rfl, hnext⟩ := tryFix_advances htry
    refine ⟨rfl, fun hnil => absurd hnil (by simp), fun _ => ?_⟩
    by_cases hnil : p.applied = []
    · exact h.text_eq hnil ▸ hnext
    · exact (h.advances hnil).trans hnext
  · exact ⟨h.document, h.text_eq, h.advances⟩

theorem Came.run {kind : FixKind} {text : Text} {p : Progress} (h : Came kind text p)
    (messages : Messages) (fs : List Diagnostic) :
    Came kind text (fs.foldl (Progress.step messages kind) p) := by
  induction fs generalizing p with
  | nil => exact h
  | cons f fs ih => exact ih (h.step messages f)

end FixOutcome

/-- Fixing a text changes it exactly if a fix was applied. -/
theorem fixText_text_eq_iff (settings : Settings) (file : String) (kind : FixKind) (text : Text) :
    (fixText settings file kind text).text = text ↔
      (fixText settings file kind text).applied = [] := by
  have hstart : FixOutcome.Came kind text { document := .ofText text } :=
    ⟨rfl, fun _ => rfl, fun h => absurd rfl h⟩
  have hcame := hstart.run settings.messages
    ((Document.ofText text).diagnostics settings file).reverse
  refine ⟨fun h => ?_, hcame.text_eq⟩
  by_contra hne
  exact (hcame.advances hne).ne h

end EventLint
