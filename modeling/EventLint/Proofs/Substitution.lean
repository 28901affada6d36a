import EventLint.Edit
import EventLint.Proofs.Placement

/-!
# Edits as one substitution

A batch of edits is performed one edit after the other, from the last place in the text to the
first. Main statement: a batch that is not refused gives the text in which every range is replaced
at the same time, unless something is inserted where an edit queued before replaces characters.
-/

namespace EventLint

namespace Text

/-- Of two fronts of a text, the one with fewer bytes is a front of the other. -/
theorem prefix_of_byteSize_le {a b cs : Text} (ha : a <+: cs) (hb : b <+: cs)
    (h : byteSize a ≤ byteSize b) : a <+: b := by
  rcases List.prefix_or_prefix_of_prefix ha hb with hab | ⟨x, rfl⟩
  · exact hab
  · rw [byteSize_append] at h
    by_cases hx : x = []
    · exact ⟨[], by rw [hx, List.append_nil, List.append_nil]⟩
    · have := byteSize_pos hx
      omega

end Text

namespace Edit

open Text

/-! ## 1. What is accepted -/

/-- A batch that fits its text: each edit replaces a piece of the text, and no two edits overlap. -/
structure Fits (source : Text) (edits : List Edit) : Prop where
  piece : ∀ e ∈ edits, ∃ a b c, source = a ++ b ++ c ∧ e.start = byteSize a ∧
    e.stop = byteSize (a ++ b)
  apart : edits.Pairwise fun a b => a.overlaps b = false

theorem isBoundary_iff {source : Text} {offset : Nat} :
    isBoundary source offset = true ↔ ∃ a b, source = a ++ b ∧ offset = byteSize a := by
  constructor
  · intro h
    obtain ⟨⟨a, b⟩, hs⟩ := Option.isSome_iff_exists.1 h
    obtain ⟨hcs, hsize⟩ := append_of_splitAtByte hs
    exact ⟨a, b, hcs.symm, hsize.symm⟩
  · rintro ⟨a, b, rfl, rfl⟩
    rw [isBoundary, splitAtByte_append]
    rfl

theorem fault?_eq_none_iff {source : Text} {index : Nat} {e : Edit} :
    fault? source index e = none ↔ ∃ a b c, source = a ++ b ++ c ∧ e.start = byteSize a ∧
      e.stop = byteSize (a ++ b) := by
  constructor
  · intro h
    unfold fault? at h
    split at h
    · cases h
    rename_i hbounds
    split at h
    · cases h
    rename_i hstart
    split at h
    · cases h
    rename_i hstop
    -- both ends are boundaries, so the shorter prefix is one of the longer
    obtain ⟨a, x, hax, ha⟩ := isBoundary_iff.1 (by simpa using hstart)
    obtain ⟨y, c, hyc, hy⟩ := isBoundary_iff.1 (by simpa using hstop)
    obtain ⟨b, rfl⟩ := prefix_of_byteSize_le ⟨x, hax.symm⟩ ⟨c, hyc.symm⟩ (by omega)
    exact ⟨a, b, c, hyc, ha, hy⟩
  · rintro ⟨a, b, c, rfl, hstart, hstop⟩
    have hbounds : ¬ (e.stop < e.start ∨ byteSize (a ++ b ++ c) < e.stop) := by
      rw [hstart, hstop, byteSize_append (a ++ b) c, byteSize_append]
      omega
    have hfirst : isBoundary (a ++ b ++ c) e.start = true :=
      isBoundary_iff.2 ⟨a, b ++ c, List.append_assoc a b c, hstart⟩
    have hlast : isBoundary (a ++ b ++ c) e.stop = true := isBoundary_iff.2 ⟨a ++ b, c, rfl, hstop⟩
    rw [fault?, if_neg hbounds, hfirst, hlast]
    rfl

theorem overlap?_eq_none_iff {index : Nat} {edits : List Edit} :
    overlap? index edits = none ↔ edits.Pairwise fun a b => a.overlaps b = false := by
  induction edits generalizing index with
  | nil => exact iff_of_true rfl List.Pairwise.nil
  | cons e es ih =>
    rw [List.pairwise_cons, ← @ih (index + 1), overlap?]
    cases hf : es.findIdx? e.overlaps with
    | some n =>
      refine iff_of_false (by simp) fun h => ?_
      rw [List.findIdx?_eq_none_iff.2 h.1] at hf
      cases hf
    | none => exact ⟨fun h => ⟨List.findIdx?_eq_none_iff.1 hf, h⟩, fun h => h.2⟩

/-- A batch is accepted exactly if it fits. -/
theorem batchFault?_eq_none_iff {source : Text} {edits : List Edit} :
    batchFault? source edits = none ↔ Fits source edits := by
  rw [batchFault?, Option.or_eq_none_iff, overlap?_eq_none_iff, List.findSome?_eq_none_iff]
  constructor
  · rintro ⟨hfault, hapart⟩
    refine ⟨fun e he => ?_, hapart⟩
    rw [← List.zipIdx_map_fst 0 edits] at he
    obtain ⟨x, hx, rfl⟩ := List.mem_map.1 he
    exact fault?_eq_none_iff.1 (hfault x hx)
  · intro h
    exact ⟨fun x hx => fault?_eq_none_iff.2 (h.piece x.1 (List.fst_mem_of_mem_zipIdx hx)), h.apart⟩

/-! ## 2. One edit -/

theorem splice_eq (e : Edit) {a b c : Text} (hstart : e.start = byteSize a)
    (hstop : e.stop = byteSize (a ++ b)) :
    splice e (a ++ b ++ c) = .ok (a ++ e.replacement ++ c) := by
  rw [splice, hstart, hstop, splitAtByte_append (a ++ b) c, List.append_assoc a b c,
    splitAtByte_append]

theorem fits_singleton {source : Text} {e : Edit} :
    Fits source [e] ↔ ∃ a b c, source = a ++ b ++ c ∧ e.start = byteSize a ∧
      e.stop = byteSize (a ++ b) :=
  ⟨fun h => h.piece e (List.mem_singleton_self e), fun h =>
    ⟨fun _ hf => List.mem_singleton.1 hf ▸ h, List.pairwise_singleton _ e⟩⟩

theorem applyAll_of_fits {source : Text} {e : Edit} (h : Fits source [e]) :
    applyAll [e] source = splice e source := by
  rw [applyAll, batchFault?_eq_none_iff.2 h]
  dsimp only
  rw [List.mergeSort_singleton, List.foldrM_cons, List.foldrM_nil, pure_bind]

/-- One edit replaces a piece of the text. -/
theorem applyAll_singleton (a b c r : Text) :
    applyAll [⟨byteSize a, byteSize (a ++ b), r⟩] (a ++ b ++ c) = .ok (a ++ r ++ c) := by
  rw [applyAll_of_fits (fits_singleton.2 ⟨a, b, c, rfl, rfl, rfl⟩)]
  exact splice_eq _ rfl rfl

theorem applyAll_delete (a b c : Text) :
    applyAll [delete (byteSize a) (byteSize (a ++ b))] (a ++ b ++ c) = .ok (a ++ c) := by
  have h := applyAll_singleton a b c []
  rwa [List.append_nil] at h

/-- A batch that is not refused fits. -/
theorem fits_of_applyAll {source result : Text} {edits : List Edit}
    (h : applyAll edits source = .ok result) : Fits source edits := by
  refine batchFault?_eq_none_iff.1 ?_
  rw [applyAll] at h
  cases hf : batchFault? source edits with
  | none => rfl
  | some fault =>
    rw [hf] at h
    cases h

/-- What an edit did that was not refused. -/
theorem exists_of_applyAll {source result : Text} {e : Edit}
    (h : applyAll [e] source = .ok result) :
    ∃ a b c, source = a ++ b ++ c ∧ e.start = byteSize a ∧ e.stop = byteSize (a ++ b) ∧
      result = a ++ e.replacement ++ c := by
  have hfits := fits_of_applyAll h
  obtain ⟨a, b, c, rfl, hstart, hstop⟩ := fits_singleton.1 hfits
  rw [applyAll_of_fits hfits, splice_eq e hstart hstop] at h
  exact ⟨a, b, c, rfl, hstart, hstop, (Except.ok.inj h).symm⟩

/-! ## 3. All edits at once -/

/-- The replacements of the edits that start at byte `offset`, in the order of the queue. -/
def insertedAt (edits : List Edit) (offset : Nat) : Text :=
  (edits.filter (·.start = offset)).flatMap (·.replacement)

/-- Byte `offset` lies in the range of an edit. -/
def replacedAt (edits : List Edit) (offset : Nat) : Bool :=
  edits.any fun e => e.start ≤ offset && offset < e.stop

/-- The text `cs`, which stands at byte `offset`, with all edits performed at the same time: in
front of each character what is put in there, and the character if no range holds it. -/
def rewritten (edits : List Edit) (offset : Nat) : Text → Text
  | [] => []
  | c :: cs =>
    insertedAt edits offset ++ (if replacedAt edits offset then [] else [c]) ++
      rewritten edits (offset + c.utf8Size) cs

/-- The same with what is put in after the last character. -/
def substitute (edits : List Edit) (offset : Nat) (cs : Text) : Text :=
  rewritten edits offset cs ++ insertedAt edits (offset + byteSize cs)

theorem rewritten_append (edits : List Edit) (offset : Nat) (a b : Text) :
    rewritten edits offset (a ++ b) =
      rewritten edits offset a ++ rewritten edits (offset + byteSize a) b := by
  induction a generalizing offset with
  | nil => rfl
  | cons c a ih =>
    rw [List.cons_append, rewritten, rewritten, ih, byteSize_cons, Nat.add_assoc,
      List.append_assoc _ (rewritten edits _ a)]

theorem substitute_append (edits : List Edit) (offset : Nat) (a b : Text) :
    substitute edits offset (a ++ b) =
      rewritten edits offset a ++ substitute edits (offset + byteSize a) b := by
  rw [substitute, substitute, rewritten_append, byteSize_append, Nat.add_assoc, List.append_assoc]

/-- Two batches do the same to a text if they do the same at each of its places. -/
theorem rewritten_congr {es fs : List Edit} {offset : Nat} {cs : Text}
    (hin : ∀ i, offset ≤ i → i < offset + byteSize cs → insertedAt es i = insertedAt fs i)
    (hre : ∀ i, offset ≤ i → i < offset + byteSize cs → replacedAt es i = replacedAt fs i) :
    rewritten es offset cs = rewritten fs offset cs := by
  induction cs generalizing offset with
  | nil => rfl
  | cons c cs ih =>
    have hc := c.utf8Size_pos
    rw [byteSize_cons] at hin hre
    rw [rewritten, rewritten, hin offset (by omega) (by omega), hre offset (by omega) (by omega),
      ih (fun i hi hlt => hin i (by omega) (by omega)) fun i hi hlt => hre i (by omega) (by omega)]

theorem substitute_congr {es fs : List Edit} {offset : Nat} {cs : Text}
    (hin : ∀ i, offset ≤ i → insertedAt es i = insertedAt fs i)
    (hre : ∀ i, offset ≤ i → replacedAt es i = replacedAt fs i) :
    substitute es offset cs = substitute fs offset cs := by
  rw [substitute, substitute, hin _ (Nat.le_add_right _ _),
    rewritten_congr (fun i hi _ => hin i hi) fun i hi _ => hre i hi]

/-- A text that no edit touches stays as it is. -/
theorem rewritten_eq_self {edits : List Edit} {offset : Nat} {cs : Text}
    (hin : ∀ i, offset ≤ i → i < offset + byteSize cs → insertedAt edits i = [])
    (hre : ∀ i, offset ≤ i → i < offset + byteSize cs → replacedAt edits i = false) :
    rewritten edits offset cs = cs := by
  induction cs generalizing offset with
  | nil => rfl
  | cons c cs ih =>
    have hc := c.utf8Size_pos
    rw [byteSize_cons] at hin hre
    rw [rewritten, hin offset (by omega) (by omega), hre offset (by omega) (by omega),
      ih (fun i hi hlt => hin i (by omega) (by omega)) fun i hi hlt => hre i (by omega) (by omega)]
    rfl

/-- Of a text that is replaced as a whole remains what is put in. -/
theorem rewritten_of_replaced {edits : List Edit} {offset : Nat} {cs : Text}
    (hin : ∀ i, offset < i → i < offset + byteSize cs → insertedAt edits i = [])
    (hre : ∀ i, offset ≤ i → i < offset + byteSize cs → replacedAt edits i = true) (hne : cs ≠ []) :
    rewritten edits offset cs = insertedAt edits offset := by
  induction cs generalizing offset with
  | nil => exact absurd rfl hne
  | cons c cs ih =>
    have hc := c.utf8Size_pos
    rw [byteSize_cons] at hin hre
    rw [rewritten, hre offset (by omega) (by omega), if_pos rfl, List.append_nil]
    cases cs with
    | nil => exact List.append_nil _
    | cons d ds =>
      have hnext : insertedAt edits (offset + c.utf8Size) = [] := by
        have := byteSize_pos (List.cons_ne_nil d ds)
        exact hin _ (by omega) (by omega)
      rw [ih (fun i hi hlt => hin i (by omega) (by omega))
        (fun i hi hlt => hre i (by omega) (by omega)) (List.cons_ne_nil d ds), hnext,
        List.append_nil]

/-! ## 4. One edit after the other -/

theorem insertedAt_cons (e : Edit) (es : List Edit) (i : Nat) :
    insertedAt (e :: es) i = (if e.start = i then e.replacement else []) ++ insertedAt es i := by
  unfold insertedAt
  by_cases h : e.start = i <;> simp [h]

theorem replacedAt_cons (e : Edit) (es : List Edit) (i : Nat) :
    replacedAt (e :: es) i = (decide (e.start ≤ i ∧ i < e.stop) || replacedAt es i) := by
  rw [replacedAt, List.any_cons, Bool.decide_and]
  rfl

theorem insertedAt_eq_nil {edits : List Edit} {i : Nat}
    (h : ∀ e ∈ edits, e.start = i → e.replacement = []) : insertedAt edits i = [] := by
  refine List.flatMap_eq_nil_iff.2 fun e he => ?_
  obtain ⟨hmem, hstart⟩ := List.mem_filter.1 he
  exact h e hmem (of_decide_eq_true hstart)

theorem replacedAt_eq_false {edits : List Edit} {i : Nat}
    (h : ∀ e ∈ edits, e.start ≤ i → e.stop ≤ i) : replacedAt edits i = false := by
  refine List.any_eq_false.2 fun e he hin => ?_
  simp only [Bool.and_eq_true, decide_eq_true_eq] at hin
  have := h e he hin.1
  omega

/-- What may be queued after an edit that replaces characters: at the same place nothing is
inserted any more. -/
def KeepsOrder (e f : Edit) : Prop :=
  e.start = f.start → e.start < e.stop → f.replacement = []

/-- What stands behind an edit of a batch that fits and is in order. -/
structure Behind (e f : Edit) : Prop where
  le : f.start ≤ f.stop
  behind : e.start ≤ f.start
  apart : e.overlaps f = false
  order : KeepsOrder e f

/-- An edit behind `e` that touches the text in front of the end of `e` is an empty one at its
start. -/
theorem Behind.cases {e f : Edit} (h : Behind e f) :
    e.stop ≤ f.start ∨ f.stop = e.start ∧ f.start = e.start := by
  obtain ⟨hle, hbehind, hapart, -⟩ := h
  simp only [overlaps, Bool.and_eq_false_iff, decide_eq_false_iff_not] at hapart
  omega

section

variable {e : Edit} {es : List Edit} {a b c : Text}

/-- The edits behind `e` leave what stands in front of its end as it is. -/
theorem substitute_behind (h : ∀ f ∈ es, Behind e f) (hstop : e.stop = byteSize (a ++ b)) :
    substitute es 0 (a ++ b ++ c) = a ++ b ++ substitute es e.stop c := by
  rw [substitute_append, Nat.zero_add, ← hstop, rewritten_eq_self]
  · intro i _ hi
    refine insertedAt_eq_nil fun f hf hs => ?_
    rcases (h f hf).cases with hf' | ⟨-, hstart⟩
    · omega
    · exact (h f hf).order hstart.symm (by omega)
  · intro i _ hi
    refine replacedAt_eq_false fun f hf hs => ?_
    rcases (h f hf).cases with hf' | hf' <;> omega

/-- An insertion goes in front of everything that is put in at its place. -/
theorem substitute_cons_insertion (hempty : e.stop = e.start) (c : Text) :
    substitute (e :: es) e.start c = e.replacement ++ substitute es e.start c := by
  have hin : ∀ i, e.start < i → insertedAt (e :: es) i = insertedAt es i := fun i hi => by
    rw [insertedAt_cons, if_neg (by omega), List.nil_append]
  have hre : ∀ i, replacedAt (e :: es) i = replacedAt es i := fun i => by
    rw [replacedAt_cons, decide_eq_false (by omega), Bool.false_or]
  have hat : insertedAt (e :: es) e.start = e.replacement ++ insertedAt es e.start := by
    rw [insertedAt_cons, if_pos rfl]
  cases c with
  | nil => exact hat
  | cons d c =>
    have hd := d.utf8Size_pos
    rw [substitute, substitute, rewritten, rewritten, hat, hre,
      hin _ (by rw [byteSize_cons]; omega),
      rewritten_congr (fun i hi _ => hin i (by omega)) fun i _ _ => hre i]
    simp only [List.append_assoc]

/-- An edit puts its replacement in place of its range, and leaves what stands behind to the
others. -/
theorem substitute_cons (h : ∀ f ∈ es, Behind e f) (hstart : e.start = byteSize a)
    (hstop : e.stop = byteSize (a ++ b)) :
    substitute (e :: es) 0 (a ++ b ++ c) = a ++ e.replacement ++ substitute es e.stop c := by
  have hfront : rewritten (e :: es) 0 a = a := by
    have hbehind : ∀ f ∈ e :: es, e.start ≤ f.start :=
      List.forall_mem_cons.2 ⟨Nat.le_refl _, fun f hf => (h f hf).behind⟩
    refine rewritten_eq_self (fun i _ hi => insertedAt_eq_nil fun f hf hs => ?_)
      fun i _ hi => replacedAt_eq_false fun f hf hs => ?_ <;>
    · have := hbehind f hf
      omega
  rw [List.append_assoc, substitute_append, hfront, Nat.zero_add, ← hstart, List.append_assoc]
  refine congrArg (a ++ ·) ?_
  rw [byteSize_append, ← hstart] at hstop
  -- only an edit with an empty range shares its place with what is put in behind it
  by_cases hb : b = []
  · subst hb
    rw [List.nil_append, hstop, byteSize_nil, Nat.add_zero]
    exact substitute_cons_insertion hstop c
  · have hpos := byteSize_pos hb
    have hat : insertedAt (e :: es) e.start = e.replacement := by
      rw [insertedAt_cons, if_pos rfl, insertedAt_eq_nil, List.append_nil]
      exact fun f hf hs => (h f hf).order hs.symm (by omega)
    rw [substitute_append, rewritten_of_replaced _ _ hb, hat, ← hstop]
    · refine congrArg (e.replacement ++ ·) (substitute_congr (fun i hi => ?_) fun i hi => ?_)
      · rw [insertedAt_cons, if_neg (by omega), List.nil_append]
      · rw [replacedAt_cons, decide_eq_false (by omega), Bool.false_or]
    · intro i hi hlt
      rw [insertedAt_cons, if_neg (by omega), List.nil_append]
      refine insertedAt_eq_nil fun f hf hs => ?_
      rcases (h f hf).cases with hf' | hf' <;> omega
    · intro i hi hlt
      rw [replacedAt_cons, decide_eq_true (by omega), Bool.true_or]

/-- An edit performed after those behind it. -/
theorem splice_substitute (h : ∀ f ∈ es, Behind e f) (hstart : e.start = byteSize a)
    (hstop : e.stop = byteSize (a ++ b)) :
    splice e (substitute es 0 (a ++ b ++ c)) = .ok (substitute (e :: es) 0 (a ++ b ++ c)) := by
  rw [substitute_behind h hstop, substitute_cons h hstart hstop, splice_eq e hstart hstop]

end

theorem Fits.of_cons {source : Text} {e : Edit} {es : List Edit} (h : Fits source (e :: es)) :
    Fits source es :=
  ⟨fun f hf => h.piece f (List.mem_cons_of_mem e hf), h.apart.of_cons⟩

theorem Fits.behind {source : Text} {e f : Edit} {es : List Edit} (h : Fits source (e :: es))
    (hf : f ∈ es) (hbehind : e.start ≤ f.start) (horder : KeepsOrder e f) : Behind e f := by
  refine ⟨?_, hbehind, List.rel_of_pairwise_cons h.apart hf, horder⟩
  obtain ⟨a, b, c, -, hstart, hstop⟩ := h.of_cons.piece f hf
  rw [hstart, hstop, byteSize_append]
  omega

theorem substitute_nil (source : Text) : substitute [] 0 source = source := by
  rw [substitute, rewritten_eq_self (fun _ _ _ => rfl) fun _ _ _ => rfl]
  exact List.append_nil source

/-- Edits in the order of their places, performed from the last to the first. -/
theorem foldrM_splice {source : Text} {edits : List Edit} (hfits : Fits source edits)
    (hsorted : edits.Pairwise fun e f => e.start ≤ f.start) (horder : edits.Pairwise KeepsOrder) :
    edits.foldrM splice source = .ok (substitute edits 0 source) := by
  -- the edits behind the first one are performed before it, each of them in the old text
  induction edits with
  | nil => exact congrArg _ (substitute_nil source).symm
  | cons e es ih =>
    obtain ⟨hle, hsorted⟩ := List.pairwise_cons.1 hsorted
    obtain ⟨hkeeps, horder⟩ := List.pairwise_cons.1 horder
    have hbehind : ∀ f ∈ es, Behind e f := fun f hf => hfits.behind hf (hle f hf) (hkeeps f hf)
    rw [List.foldrM_cons, ih hfits.of_cons hsorted horder]
    obtain ⟨a, b, c, rfl, hstart, hstop⟩ := hfits.piece e List.mem_cons_self
    exact splice_substitute hbehind hstart hstop

/-! ## 5. The order of the queue -/

/-- The edits in the order of their places, those at one place in the order of the queue. -/
def sorted (edits : List Edit) : List Edit :=
  edits.mergeSort fun a b => a.start ≤ b.start

theorem sorted_perm (edits : List Edit) : (sorted edits).Perm edits :=
  List.mergeSort_perm _ _

theorem start_le_trans (a b c : Edit) (hab : decide (a.start ≤ b.start) = true)
    (hbc : decide (b.start ≤ c.start) = true) : decide (a.start ≤ c.start) = true := by
  simp only [decide_eq_true_eq] at hab hbc ⊢
  omega

theorem start_le_total (a b : Edit) :
    (decide (a.start ≤ b.start) || decide (b.start ≤ a.start)) = true := by
  simp only [Bool.or_eq_true, decide_eq_true_eq]
  omega

theorem sorted_pairwise (edits : List Edit) :
    (sorted edits).Pairwise fun e f => e.start ≤ f.start :=
  (List.pairwise_mergeSort start_le_trans start_le_total edits).imp of_decide_eq_true

/-- Sorting keeps the order of the edits at one place. -/
theorem filter_sorted (edits : List Edit) (i : Nat) :
    (sorted edits).filter (·.start = i) = edits.filter (·.start = i) := by
  have hsub : (edits.filter (·.start = i)).Sublist (sorted edits) := by
    refine List.sublist_mergeSort start_le_trans start_le_total ?_ List.filter_sublist
    refine List.pairwise_of_forall_mem_list fun e he f hf => ?_
    have hes := of_decide_eq_true (List.mem_filter.1 he).2
    have hfs := of_decide_eq_true (List.mem_filter.1 hf).2
    exact decide_eq_true (by omega)
  -- both sides hold the same edits, so the one that is part of the other is all of it
  have hfilter := hsub.filter fun e : Edit => decide (e.start = i)
  simp only [List.filter_filter, Bool.and_self] at hfilter
  exact (hfilter.eq_of_length ((sorted_perm edits).filter _).length_eq.symm).symm

theorem insertedAt_sorted (edits : List Edit) (i : Nat) :
    insertedAt (sorted edits) i = insertedAt edits i := by
  rw [insertedAt, filter_sorted, insertedAt]

theorem replacedAt_sorted (edits : List Edit) (i : Nat) :
    replacedAt (sorted edits) i = replacedAt edits i :=
  (sorted_perm edits).any_eq

/-- Whether a batch fits does not depend on the order of its edits. -/
theorem Fits.perm {source : Text} {edits edits' : List Edit} (h : Fits source edits)
    (hperm : edits.Perm edits') : Fits source edits' := by
  refine ⟨fun e he => h.piece e (hperm.mem_iff.2 he), ?_⟩
  refine (hperm.pairwise_iff fun {a b} hab => ?_).1 h.apart
  rw [overlaps, Bool.and_comm]
  exact hab

theorem Fits.sorted {source : Text} {edits : List Edit} (h : Fits source edits) :
    Fits source (sorted edits) :=
  h.perm (sorted_perm edits).symm

/-- Edits at one place come in the order of the queue, so what holds of their order in the queue
holds of it among the sorted ones. -/
theorem keepsOrder_sorted {edits : List Edit} (h : edits.Pairwise KeepsOrder) :
    (sorted edits).Pairwise KeepsOrder := by
  refine List.pairwise_iff_forall_sublist.2 fun {e f} hsub hstart => ?_
  have hpair := hsub.filter fun x : Edit => decide (x.start = e.start)
  have hself : [e, f].filter (fun x => decide (x.start = e.start)) = [e, f] :=
    List.filter_eq_self.2 (by simp [hstart])
  rw [filter_sorted, hself] at hpair
  exact List.pairwise_iff_forall_sublist.1 h (hpair.trans List.filter_sublist) hstart

/-- A batch that is accepted replaces all its ranges at the same time, if nothing is inserted where
an edit queued before replaces characters. -/
theorem applyAll_eq_substitute {source : Text} {edits : List Edit}
    (haccepted : batchFault? source edits = none) (horder : edits.Pairwise KeepsOrder) :
    applyAll edits source = .ok (substitute edits 0 source) := by
  have hfits := batchFault?_eq_none_iff.1 haccepted
  have hsorted : substitute (sorted edits) 0 source = substitute edits 0 source :=
    substitute_congr (fun i _ => insertedAt_sorted edits i) fun i _ => replacedAt_sorted edits i
  rw [applyAll, haccepted, ← hsorted]
  exact foldrM_splice hfits.sorted (sorted_pairwise edits) (keepsOrder_sorted horder)

instance (e f : Edit) : Decidable (KeepsOrder e f) :=
  inferInstanceAs (Decidable (e.start = f.start → e.start < e.stop → f.replacement = []))

/-- Two insertions in front of a character of two bytes that is replaced, a deletion right after
it, and an insertion at the end. -/
theorem applyAll_eq_substitute_ties :
    let source := "aébcd".toList
    let edits : List Edit := [insert 6 ['!'], insert 1 ['X'], insert 1 ['Y'], ⟨1, 3, ['Z']⟩,
      delete 3 4]
    batchFault? source edits = none ∧ edits.Pairwise KeepsOrder ∧
      applyAll edits source = .ok (substitute edits 0 source) ∧
      substitute edits 0 source = "aXYZcd!".toList := by
  intro source edits
  have haccepted : batchFault? source edits = none := by decide +kernel
  have horder : edits.Pairwise KeepsOrder := by decide +kernel
  exact ⟨haccepted, horder, applyAll_eq_substitute haccepted horder, by decide +kernel⟩

/-- What is inserted after a deletion was queued at the same place is deleted in its stead. -/
theorem applyAll_delete_insert :
    let edits := [delete 1 3, insert 1 "XY".toList]
    batchFault? "abcd".toList edits = none ∧
      applyAll edits "abcd".toList = .ok "abcd".toList ∧
      substitute edits 0 "abcd".toList = "aXYd".toList := by
  intro edits
  have haccepted : batchFault? "abcd".toList edits = none := by decide +kernel
  have hsorted : edits.mergeSort (fun a b => a.start ≤ b.start) = edits :=
    List.mergeSort_of_pairwise (by decide)
  refine ⟨haccepted, ?_, by decide +kernel⟩
  rw [applyAll, haccepted]
  dsimp only
  rw [hsorted]
  decide +kernel

end Edit

end EventLint
