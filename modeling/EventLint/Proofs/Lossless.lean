import EventLint.Document
import EventLint.Proofs.Placement
import EventLint.Proofs.Reading

/-!
# Documents are lossless

Main statement: the leaves of a document are the tokens of its text, the tokens with what stands in
front of them are slices of the text, in order and without a gap, and only trivia follows the last.
-/

namespace EventLint.Document

open Token

/-- Nothing of a source text is lost, repeated or moved on the way to its tree. -/
theorem ofText_lossless (text : Text) :
    (ofText text).root.leaves = scan text ∧
    (∀ t ∈ scan text, t.start < t.stop) ∧
    (scan text).Pairwise (fun t u => t.stop ≤ u.start) ∧
    (∀ before t after, scan text = before ++ t :: after →
      Text.slice t.start t.stop text = some t.text ∧
      Text.slice (lastStop before) t.start text = some t.leading ∧
      Trivia.Only (before.flatMap written) t.leading) ∧
    ∃ rest, (scan text).flatMap written ++ rest = text ∧
      Trivia.Only ((scan text).flatMap written) rest := by
  have hplace := scan_inPlace text
  have hsep := scan_separated text
  obtain ⟨rest, hsource, hrest⟩ := scan_source text
  refine ⟨Tree.leaves_ofTokens _, ?_, hplace.pairwise, ?_, rest, hsource, hrest⟩
  · intro t ht
    exact start_lt_stop (hplace.text_ne_nil ht)
  · intro before t after h
    rw [h] at hplace hsep hsource
    have hslices := hplace.slices rest
    rw [hsource] at hslices
    exact ⟨hslices.1, hslices.2, (Separated.append_iff.1 hsep).2.1⟩

/-- The second of two tokens, with a comment in front of it and one after it. -/
theorem ofText_lossless_comments :
    let text := "a /*b*/ c // d".toList
    let a : Token := ⟨.ident, [], ['a'], 0⟩
    let c : Token := ⟨.ident, " /*b*/ ".toList, ['c'], 8⟩
    scan text = [a] ++ c :: [] ∧ c.start < c.stop ∧ a.stop ≤ c.start ∧
      Text.slice c.start c.stop text = some c.text ∧
      Text.slice (lastStop [a]) c.start text = some c.leading ∧
      Trivia.Only ([a].flatMap written) c.leading := by
  intro text a c
  have hscan : scan text = [a] ++ c :: [] := by decide +kernel
  obtain ⟨-, hpos, hpair, hslices, -⟩ := ofText_lossless text
  refine ⟨hscan, hpos c (by rw [hscan]; simp), ?_, hslices [a] c [] hscan⟩
  rw [hscan] at hpair
  exact List.rel_of_pairwise_cons hpair (List.mem_singleton_self c)

end EventLint.Document
