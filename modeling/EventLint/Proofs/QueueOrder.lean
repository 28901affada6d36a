import EventLint.Proofs.Substitution

/-!
# The order of the queue

Edits at one place are performed in the order in which they were queued. Main statement: for edits
at different places that order does not matter, and a batch of them gives what the edits give one at
a time, from the last place in the text to the first.
-/

namespace EventLint.Edit

open Text

/-- No two of the edits start at the same place. -/
def DistinctStarts (edits : List Edit) : Prop :=
  edits.Pairwise fun e f => e.start ≠ f.start

instance (edits : List Edit) : Decidable (DistinctStarts edits) :=
  inferInstanceAs (Decidable (edits.Pairwise fun e f => e.start ≠ f.start))

/-- Performs edits one after the other, each as a batch of its own on the text so far. -/
def applyEach (edits : List Edit) (source : Text) : Except EditError Text :=
  edits.foldlM (fun text e => applyAll [e] text) source

/-! ## 1. One order by places -/

/-- Edits at different places can be put in the order of their places in one way only. -/
theorem eq_of_perm_of_pairwise {edits edits' : List Edit} (hperm : edits.Perm edits')
    (h : edits.Pairwise fun e f => e.start < f.start)
    (h' : edits'.Pairwise fun e f => e.start < f.start) : edits = edits' :=
  hperm.eq_of_pairwise (fun _ _ _ _ hlt hgt => absurd hlt (Nat.lt_asymm hgt)) h h'

theorem DistinctStarts.perm {edits edits' : List Edit} (h : DistinctStarts edits)
    (hperm : edits.Perm edits') : DistinctStarts edits' :=
  (hperm.pairwise_iff Ne.symm).1 h

theorem DistinctStarts.sorted_pairwise_lt {edits : List Edit} (h : DistinctStarts edits) :
    (sorted edits).Pairwise fun e f => e.start < f.start :=
  ((sorted_pairwise edits).and (h.perm (sorted_perm edits).symm)).imp
    fun ⟨hle, hne⟩ => Nat.lt_of_le_of_ne hle hne

/-! ## 2. One edit at a time -/

theorem keepsOrder_of_lt {e f : Edit} (h : e.start < f.start) : KeepsOrder e f :=
  fun hstart => absurd hstart (Nat.ne_of_lt h)

/-- A batch of edits at different places replaces all their ranges at the same time. -/
theorem applyAll_of_distinctStarts {source : Text} {edits : List Edit} (hfits : Fits source edits)
    (hdistinct : DistinctStarts edits) :
    applyAll edits source = .ok (substitute (sorted edits) 0 source) := by
  rw [applyAll, batchFault?_eq_none_iff.2 hfits]
  exact foldrM_splice hfits.sorted (sorted_pairwise edits)
    (hdistinct.sorted_pairwise_lt.imp keepsOrder_of_lt)

/-- Each edit fits the text that those behind it have left, and does there what it does in the
batch. -/
theorem foldrM_applyAll {source : Text} {edits : List Edit} (hfits : Fits source edits)
    (hlt : edits.Pairwise fun e f => e.start < f.start) :
    edits.foldrM (fun e text => applyAll [e] text) source = .ok (substitute edits 0 source) := by
  induction edits with
  | nil => exact congrArg _ (substitute_nil source).symm
  | cons e es ih =>
    obtain ⟨hfirst, hrest⟩ := List.pairwise_cons.1 hlt
    have hbehind : ∀ f ∈ es, Behind e f := fun f hf =>
      hfits.behind hf (Nat.le_of_lt (hfirst f hf)) (keepsOrder_of_lt (hfirst f hf))
    rw [List.foldrM_cons, ih hfits.of_cons hrest]
    obtain ⟨a, b, c, rfl, hstart, hstop⟩ := hfits.piece e List.mem_cons_self
    -- what stands in front of the end of `e` is still the old text
    have hnext : Fits (substitute es 0 (a ++ b ++ c)) [e] :=
      fits_singleton.2 ⟨a, b, _, substitute_behind hbehind hstop, hstart, hstop⟩
    exact (applyAll_of_fits hnext).trans (splice_substitute hbehind hstart hstop)

/-- One at a time, from the last place to the first, edits give the same text as in a batch. -/
theorem applyEach_eq {source : Text} {edits queue : List Edit} (hfits : Fits source edits)
    (hdistinct : DistinctStarts edits) (hperm : queue.Perm edits)
    (hqueue : queue.Pairwise fun e f => f.start < e.start) :
    applyEach queue source = applyAll edits source := by
  have hsorted : queue.reverse = sorted edits :=
    eq_of_perm_of_pairwise ((queue.reverse_perm.trans hperm).trans (sorted_perm edits).symm)
      (List.pairwise_reverse.2 hqueue) hdistinct.sorted_pairwise_lt
  rw [applyAll_of_distinctStarts hfits hdistinct, applyEach, ← queue.reverse_reverse,
    List.foldlM_reverse, hsorted]
  exact foldrM_applyAll hfits.sorted hdistinct.sorted_pairwise_lt

/-- Of edits at different places, one order of the queue is accepted exactly if the other is, and
both give the text that the edits give one at a time, from the last place to the first. -/
theorem applyAll_perm (source : Text) {edits edits' : List Edit} (hdistinct : DistinctStarts edits)
    (hperm : edits.Perm edits') :
    (∀ text, applyAll edits source = .ok text ↔ applyAll edits' source = .ok text) ∧
      ∀ text, applyAll edits source = .ok text →
        ∀ queue : List Edit, queue.Perm edits → (queue.Pairwise fun e f => f.start < e.start) →
          applyEach queue source = .ok text := by
  have hdistinct' := hdistinct.perm hperm
  have hsorted : sorted edits = sorted edits' :=
    eq_of_perm_of_pairwise (((sorted_perm edits).trans hperm).trans (sorted_perm edits').symm)
      hdistinct.sorted_pairwise_lt hdistinct'.sorted_pairwise_lt
  -- the order of the queue is lost in sorting, so only acceptance is left to compare
  have hsame : Fits source edits → applyAll edits source = applyAll edits' source := fun hfits => by
    rw [applyAll_of_distinctStarts hfits hdistinct,
      applyAll_of_distinctStarts (hfits.perm hperm) hdistinct', hsorted]
  refine ⟨fun text => ⟨fun h => ?_, fun h => ?_⟩, fun text h queue hqueue hlast => ?_⟩
  · rwa [← hsame (fits_of_applyAll h)]
  · rwa [hsame ((fits_of_applyAll h).perm hperm.symm)]
  · rwa [applyEach_eq (fits_of_applyAll h) hdistinct hqueue hlast]

/-- A replacement of a character of two bytes, an insertion right at the end of its range and a
deletion, in two orders. -/
theorem applyAll_perm_adjacent :
    let source := "aébcd".toList
    let edits : List Edit := [insert 3 ['X'], delete 4 5, ⟨1, 3, "Z".toList⟩]
    let edits' : List Edit := [⟨1, 3, "Z".toList⟩, insert 3 ['X'], delete 4 5]
    let queue : List Edit := [delete 4 5, insert 3 ['X'], ⟨1, 3, "Z".toList⟩]
    DistinctStarts edits ∧ edits.Perm edits' ∧ queue.Perm edits ∧
      (queue.Pairwise fun e f => f.start < e.start) ∧
      applyAll edits source = .ok "aZXbd".toList ∧ applyAll edits' source = .ok "aZXbd".toList ∧
      applyEach queue source = .ok "aZXbd".toList := by
  intro source edits edits' queue
  have hdistinct : DistinctStarts edits := by decide
  have hperm : edits.Perm edits' := by decide
  have hqueue : queue.Perm edits := by decide
  have hlast : queue.Pairwise fun e f => f.start < e.start := by decide
  have haccepted : batchFault? source edits' = none := by decide +kernel
  have hsorted : edits'.mergeSort (fun a b => a.start ≤ b.start) = edits' :=
    List.mergeSort_of_pairwise (by decide)
  have happly : applyAll edits' source = .ok "aZXbd".toList := by
    rw [applyAll, haccepted]
    dsimp only
    rw [hsorted]
    decide +kernel
  obtain ⟨hiff, heach⟩ := applyAll_perm source hdistinct hperm
  have hedits := (hiff _).2 happly
  exact ⟨hdistinct, hperm, hqueue, hlast, hedits, happly, heach _ hedits queue hqueue hlast⟩

end EventLint.Edit
