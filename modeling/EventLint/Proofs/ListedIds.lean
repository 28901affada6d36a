import EventLint.Proofs.LineSuppression
import Mathlib

/-!
# Lists of ids in a comment

A comment that suppresses may list ids behind a colon. Main statement: it suppresses exactly these
ids, and every rule if the family `EVS` is one of them, in whatever case the marker and the ids are
written and whatever blanks stand around them.
-/

namespace EventLint

namespace Suppression

open Text

/-! ## 1. Comments with a list -/

/-- A character that ids are made of. -/
def isIdChar (c : Char) : Bool :=
  c.isAlphanum || c = '_' || c = '-'

/-- A character that may stand in a list of ids. The long s and the Kelvin sign are letters of it,
as they differ from `s` and `k` in case only. -/
def isListChar (c : Char) : Bool :=
  isIdChar c || c = '\u017f' || c = '\u212a' || c = ',' || isBlank c

/-- The texts are equal up to the case of their letters. -/
def sameLetters (a b : Text) : Bool :=
  a.map Char.toLower = b.map Char.toLower

/-- An id in a list, with the blanks around it. -/
structure ListedId where
  before : Text
  id : Text
  after : Text
  before_blank : ∀ c ∈ before, isBlank c = true
  id_ne_nil : id ≠ []
  id_chars : ∀ c ∈ id, isIdChar c = true
  after_blank : ∀ c ∈ after, isBlank c = true

def ListedId.text (i : ListedId) : Text :=
  i.before ++ i.id ++ i.after

/-- Ids with commas between them. -/
def listText (items : List ListedId) : Text :=
  [','].intercalate (items.map ListedId.text)

/-- A line with a comment that lists ids, from what stands in front of the comment to what follows
the list. -/
structure ListingLine where
  front : Text
  gap : Text
  marker : Text
  items : List ListedId
  tail : Text
  front_noSlash : '/' ∉ front
  gap_blank : ∀ c ∈ gap, isBlank c = true
  marker_spelled : marker.map foldCase = "noqa".toList ∨
    marker.map foldCase = "eventscan-ignore".toList
  items_ne_nil : items ≠ []
  tail_apart : ∀ c ∈ tail.head?, isListChar c = false

namespace ListingLine

def text (l : ListingLine) : Text :=
  l.front ++ ['/', '/'] ++ l.gap ++ l.marker ++ [':'] ++ listText l.items ++ l.tail

def ids (l : ListingLine) : List Text :=
  l.items.map ListedId.id

end ListingLine

/-! ## 2. Characters -/

theorem foldCase_eq {c : Char} (hs : c ≠ '\u017f') (hk : c ≠ '\u212a') :
    foldCase c = c.toLower := by
  rw [foldCase, if_neg hs, if_neg hk]

/-- The class of the list is closed under case folding. -/
theorem isListed_eq (c : Char) : isListed c = isListChar c := by
  by_cases hs : c = '\u017f'
  · rw [hs]
    decide
  by_cases hk : c = '\u212a'
  · rw [hk]
    decide
  rw [isListed, isListChar, isIdChar, foldCase_eq hs hk, decide_eq_false hs, decide_eq_false hk,
    Bool.or_false, Bool.or_false]
  by_cases hupper : c.isUpper = true
  · -- an upper-case letter and its lower case are both listed
    have halpha : c.isAlpha = true := by rw [Char.isAlpha, hupper, Bool.true_or]
    simp [Char.isAlphanum, halpha]
  · rw [Char.toLower_eq_of_not_isUpper hupper]

theorem upperCase_of_isIdChar {c : Char} (h : isIdChar c = true) : upperCase c = c.toUpper := by
  refine if_neg ?_
  rintro rfl
  exact absurd h (by decide)

/-- A blank is no character of an id, and case folding makes it no letter of a marker. -/
theorem isIdChar_of_isBlank {c : Char} (h : isBlank c = true) :
    isIdChar c = false ∧ foldCase c ≠ 'n' ∧ foldCase c ≠ 'e' := by
  have hpoints : ∀ n ∈ blankPoints, isIdChar (Char.ofNat n) = false ∧
      foldCase (Char.ofNat n) ≠ 'n' ∧ foldCase (Char.ofNat n) ≠ 'e' := by decide +kernel
  have hc := hpoints c.toNat (mem_blankPoints h)
  rwa [Char.ofNat_toNat] at hc

theorem isBlank_of_isIdChar {c : Char} (h : isIdChar c = true) : isBlank c = false := by
  refine Bool.eq_false_iff.2 fun hblank => ?_
  rw [(isIdChar_of_isBlank hblank).1] at h
  cases h

/-- A text in upper case is another one in upper case exactly if the two differ in case only. -/
theorem map_toUpper_eq_iff {id rule : Text} (hrule : rule.map Char.toUpper = rule) :
    id.map Char.toUpper = rule ↔ sameLetters id rule = true := by
  rw [sameLetters, decide_eq_true_eq]
  constructor
  · intro h
    have hlower := congrArg (List.map Char.toLower) h
    rw [List.map_map] at hlower
    rw [← hlower]
    exact List.map_congr_left fun c _ => (Char.toLower_toUpper_eq_toLower c).symm
  · intro h
    have hupper := congrArg (List.map Char.toUpper) h
    rw [List.map_map, List.map_map] at hupper
    have hcase : Char.toUpper ∘ Char.toLower = Char.toUpper :=
      funext Char.toUpper_toLower_eq_toUpper
    rwa [hcase, hrule] at hupper

/-! ## 3. Reading the list -/

theorem dropWhile_isBlank_append {a w : Text} (ha : ∀ c ∈ a, isBlank c = true)
    (hw : ∀ c ∈ w.head?, isBlank c = false) : (a ++ w).dropWhile isBlank = w := by
  rw [List.dropWhile_append_of_pos ha]
  cases w with
  | nil => rfl
  | cons c w => rw [List.dropWhile_cons_of_neg (by rw [hw c rfl]; decide)]

/-- Blanks around an id do not count. -/
theorem trim_text (i : ListedId) : trim i.text = i.id := by
  have hid : ∀ c ∈ i.id, isBlank c = false := fun c hc => isBlank_of_isIdChar (i.id_chars c hc)
  have hstart : ∀ c ∈ (i.id ++ i.after).head?, isBlank c = false := by
    intro c hc
    rw [List.head?_append_of_ne_nil _ i.id_ne_nil] at hc
    exact hid c (List.mem_of_mem_head? hc)
  have hend : ∀ c ∈ i.id.reverse.head?, isBlank c = false := fun c hc =>
    hid c (List.mem_reverse.1 (List.mem_of_mem_head? hc))
  rw [trim, trimStart, ListedId.text, List.append_assoc,
    dropWhile_isBlank_append i.before_blank hstart, trimEnd, List.reverse_append,
    dropWhile_isBlank_append (fun c hc => i.after_blank c (List.mem_reverse.1 hc)) hend,
    List.reverse_reverse]

/-- An id with its blanks holds no comma and nothing that would end the list. -/
theorem mem_text {i : ListedId} {c : Char} (h : c ∈ i.text) : c ≠ ',' ∧ isListed c = true := by
  rw [isListed_eq, isListChar]
  rw [ListedId.text, List.mem_append, List.mem_append] at h
  rcases h with (h | h) | h
  · have hblank := i.before_blank c h
    exact ⟨by rintro rfl; exact absurd hblank (by decide), by rw [hblank, Bool.or_true]⟩
  · have hid := i.id_chars c h
    exact ⟨by rintro rfl; exact absurd hid (by decide), by simp [hid]⟩
  · have hblank := i.after_blank c h
    exact ⟨by rintro rfl; exact absurd hblank (by decide), by rw [hblank, Bool.or_true]⟩

theorem isListed_of_mem_listText {items : List ListedId} {c : Char} (h : c ∈ listText items) :
    isListed c = true := by
  induction items with
  | nil => cases h
  | cons i items ih =>
    cases items with
    | nil =>
      rw [listText, List.map_singleton, List.intercalate_singleton] at h
      exact (mem_text h).2
    | cons j items =>
      rw [listText, List.map_cons, List.map_cons, List.intercalate_cons_cons, List.mem_append,
        List.mem_append] at h
      rcases h with (h | h) | h
      · exact (mem_text h).2
      · rw [List.mem_singleton.1 h]
        decide
      · exact ih h

theorem idsOf_listText {items : List ListedId} (hne : items ≠ []) :
    idsOf (listText items) = items.map fun i => i.id.map Char.toUpper := by
  have hcomma : ∀ w ∈ items.map ListedId.text, ',' ∉ w := by
    intro w hw hmem
    obtain ⟨i, -, rfl⟩ := List.mem_map.1 hw
    exact (mem_text hmem).1 rfl
  have hpieces : (listText items).splitOn ',' = items.map ListedId.text :=
    List.splitOn_intercalate ',' hcomma (by simpa using hne)
  rw [idsOf, hpieces, List.map_map]
  refine List.map_congr_left fun i _ => ?_
  rw [Function.comp_apply, trim_text]
  exact List.map_congr_left fun c hc => upperCase_of_isIdChar (i.id_chars c hc)

/-- A list suppresses its ids, or everything if the family is one of them. -/
theorem ofList_listText {items : List ListedId} (hne : items ≠ []) :
    ofList (listText items) =
      if (items.map ListedId.id).any (sameLetters · "EVS".toList) then .all
      else .only ((items.map ListedId.id).map (List.map Char.toUpper)).eraseDups := by
  have hfamily : ∀ id : Text, isFamily (id.map Char.toUpper) = sameLetters id "EVS".toList :=
    fun id => by
      rw [isFamily, Bool.eq_iff_iff, decide_eq_true_eq]
      exact map_toUpper_eq_iff (by decide)
  have hany : (items.map fun i => i.id.map Char.toUpper).any isFamily =
      (items.map ListedId.id).any (sameLetters · "EVS".toList) := by
    rw [List.any_map, List.any_map]
    exact congrArg items.any (funext fun i => hfamily i.id)
  have hfilter : (items.map fun i => i.id.map Char.toUpper).filter (fun id => !id.isEmpty) =
      (items.map ListedId.id).map (List.map Char.toUpper) := by
    rw [List.map_map, List.filter_eq_self.2]
    · rfl
    · intro id hid
      obtain ⟨i, -, rfl⟩ := List.mem_map.1 hid
      simpa using i.id_ne_nil
  rw [ofList, idsOf_listText hne, hany, hfilter]
  split
  · rfl
  · -- a list that is not empty stays so without its repetitions
    obtain ⟨i, rest, rfl⟩ := List.exists_cons_of_ne_nil hne
    rw [List.map_cons, List.map_cons, List.eraseDups_cons]

/-! ## 4. Reading the line -/

theorem afterWord?_append {word marker : Text} (h : marker.map foldCase = word) (rest : Text) :
    afterWord? word (marker ++ rest) = some rest := by
  subst h
  induction marker with
  | nil => rfl
  | cons c marker ih =>
    rw [List.map_cons, List.cons_append, afterWord?, if_pos rfl]
    exact ih

theorem exists_marker (l : ListingLine) :
    ∃ c rest, l.marker = c :: rest ∧ (foldCase c = 'n' ∨ foldCase c = 'e') := by
  have hspelled := l.marker_spelled
  cases hmarker : l.marker with
  | nil =>
    rw [hmarker] at hspelled
    exact absurd hspelled (by decide)
  | cons c rest =>
    rw [hmarker, List.map_cons] at hspelled
    exact ⟨c, rest, rfl, hspelled.imp (fun h => (List.cons.inj h).1) fun h => (List.cons.inj h).1⟩

/-- A marker is found in whatever case it is written, in front of a colon. -/
theorem afterMarker?_marker (l : ListingLine) (rest : Text) :
    afterMarker? markers (l.marker ++ ':' :: rest) = some (':' :: rest) := by
  have hfound : markers.findSome? (fun word => afterWord? word.toList (l.marker ++ ':' :: rest)) =
      some (':' :: rest) := by
    rcases l.marker_spelled with h | h
    · -- the other marker does not stand here: it starts with another letter
      have hother : afterWord? "eventscan-ignore".toList (l.marker ++ ':' :: rest) = none := by
        obtain ⟨c, marker, hmarker⟩ : ∃ c marker, l.marker = c :: marker :=
          List.exists_cons_of_ne_nil fun hnil => by rw [hnil] at h; cases h
        rw [hmarker, List.map_cons] at h
        rw [hmarker]
        refine if_neg ?_
        rw [(List.cons.inj h).1]
        decide
      rw [markers, List.findSome?_cons, hother, List.findSome?_cons, afterWord?_append h]
    · rw [markers, List.findSome?_cons, afterWord?_append h]
  have hcolon : isWord ':' = false := by decide
  rw [afterMarker?, hfound, Option.filter_some, List.head?_cons, Option.any_some, hcolon]
  rfl

/-- The text behind the slashes suppresses what its list does. -/
theorem ofComment?_listing (l : ListingLine) :
    ofComment? (l.gap ++ (l.marker ++ ':' :: (listText l.items ++ l.tail))) =
      some (ofList (listText l.items)) := by
  have hstart : ∀ c ∈ (l.marker ++ ':' :: (listText l.items ++ l.tail)).head?,
      isBlank c = false := by
    obtain ⟨c, marker, hmarker, hletter⟩ := exists_marker l
    rw [hmarker]
    rintro _ ⟨⟩
    refine Bool.eq_false_iff.2 fun hblank => ?_
    obtain ⟨-, hn, he⟩ := isIdChar_of_isBlank hblank
    exact hletter.elim hn he
  have hlist : (listText l.items ++ l.tail).takeWhile isListed = listText l.items := by
    rw [List.takeWhile_append_of_pos fun c hc => isListed_of_mem_listText hc]
    cases htail : l.tail with
    | nil => exact List.append_nil _
    | cons c tail =>
      have hc := l.tail_apart c (by rw [htail]; rfl)
      rw [List.takeWhile_cons_of_neg (by rw [isListed_eq, hc]; decide), List.append_nil]
  rw [ofComment?, trimStart, dropWhile_isBlank_append l.gap_blank hstart, afterMarker?_marker,
    Option.map_some]
  exact congrArg (fun list => some (ofList list)) hlist

theorem ofLine?_listing (l : ListingLine) : ofLine? l.text = some (ofList (listText l.items)) := by
  have htext : l.text = l.front ++ '/' :: '/' :: (l.gap ++
      (l.marker ++ ':' :: (listText l.items ++ l.tail))) := by
    simp [ListingLine.text]
  rw [htext, ofLine?_append l.front_noSlash, ofLine?, ofComment?_listing, Option.some_or]

/-- A comment with a list suppresses every rule if the family is listed, and otherwise exactly the
ids of the list, in upper case. So a rule whose id is in upper case is suppressed exactly if its id
or the family is listed, in any case. -/
theorem ofLine?_round_trip (l : ListingLine) :
    ofLine? l.text = some
      (if l.ids.any (sameLetters · "EVS".toList) then .all
        else .only (l.ids.map (List.map Char.toUpper)).eraseDups) ∧
    ∀ (suppressed : Lines) (n : Nat) (rule : Text), suppressed.lookup n = ofLine? l.text →
      rule.map Char.toUpper = rule →
      (suppressed.suppresses n rule = true ↔
        (∃ id ∈ l.ids, sameLetters id rule = true) ∨
          ∃ id ∈ l.ids, sameLetters id "EVS".toList = true) := by
  have hline := ofLine?_listing l
  rw [ofList_listText l.items_ne_nil, ← ListingLine.ids] at hline
  refine ⟨hline, fun suppressed n rule hlookup hrule => ?_⟩
  have hfamily : l.ids.any (sameLetters · "EVS".toList) = true ↔
      ∃ id ∈ l.ids, sameLetters id "EVS".toList = true := List.any_eq_true
  rw [suppresses_eq, hlookup, hline, Option.any_some, ← hfamily]
  split
  · exact iff_of_true rfl (Or.inr ‹_›)
  · rename_i hnone
    -- ids are compared in upper case, which forgets as much as lower case does
    rw [covers, List.contains_eq_mem, decide_eq_true_eq, List.mem_eraseDups, List.mem_map,
      or_iff_left hnone]
    exact exists_congr fun id => and_congr_right fun _ => map_toUpper_eq_iff hrule

/-- Ids in mixed case with blanks around them, one of them twice, up to the end of the comment. -/
theorem ofLine?_round_trip_mixedCase :
    let ids := ["EVS-V001".toList, "EVS-V002".toList]
    let suppressed : Lines := [(7, .only ids)]
    let rule := "EVS-V002".toList
    rule.map Char.toUpper = rule ∧
      ∃ l : ListingLine, l.text = "x; //\tNoQA: evs-v001 ,EVS-V002,Evs-v001*/".toList ∧
        ofLine? l.text = some (.only ids) ∧
        suppressed.lookup 7 = ofLine? l.text ∧ suppressed.suppresses 7 rule = true := by
  intro ids suppressed rule
  have hrule : rule.map Char.toUpper = rule := by decide
  let first : ListedId := ⟨[' '], "evs-v001".toList, [' '], List.all_eq_true.1 (by decide),
    by decide, List.all_eq_true.1 (by decide), List.all_eq_true.1 (by decide)⟩
  let second : ListedId := ⟨[], "EVS-V002".toList, [], List.all_eq_true.1 (by decide),
    by decide, List.all_eq_true.1 (by decide), List.all_eq_true.1 (by decide)⟩
  let third : ListedId := ⟨[], "Evs-v001".toList, [], List.all_eq_true.1 (by decide),
    by decide, List.all_eq_true.1 (by decide), List.all_eq_true.1 (by decide)⟩
  let l : ListingLine := ⟨"x; ".toList, ['\t'], "NoQA".toList, [first, second, third],
    "*/".toList, by decide, List.all_eq_true.1 (by decide), Or.inl (by decide), by decide,
    by simp [isListChar, isIdChar]; decide⟩
  obtain ⟨hline, hsuppresses⟩ := ofLine?_round_trip l
  have hids : ofLine? l.text = some (.only ids) := hline.trans (by decide +kernel)
  have hlookup : suppressed.lookup 7 = ofLine? l.text := hids.symm
  refine ⟨hrule, l, by decide +kernel, hids, hlookup, (hsuppresses _ 7 rule hlookup hrule).2 ?_⟩
  exact Or.inl ⟨second.id, by simp [ListingLine.ids, l], by decide⟩

end Suppression

end EventLint
