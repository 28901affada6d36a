import EventLint.FileTree

/-!
# Writing a file

Main statement: replacing what one file holds keeps every path leading where it led, and keeps what
every other file holds.
-/

namespace EventLint.FileTree

/-! ## 1. Places -/

/-- What a file holds; a folder holds nothing itself. -/
def Found.content? : Found → Option Content
  | file content => some content
  | folder _ => none

/-- What is seen of a place without looking into folders: nothing, a folder, or a file with what it
holds. -/
def view (tree : FileTree) (names : List String) : Option (Option Content) :=
  (tree.at? names).map Found.content?

theorem view_cons (tree : FileTree) (n : String) (names : List String) :
    tree.view (n :: names) =
      match tree.find? fun e => e.name = n with
      | none => none
      | some (.folder _ entries) => view entries names
      | some (.file _ content) => if names = [] then some (some content) else none := by
  rw [view, at?]
  cases tree.find? fun e => e.name = n with
  | none => rfl
  | some e =>
    cases e with
    | folder m entries => rfl
    | file m content =>
      dsimp only
      split <;> rfl

theorem find?_alter (n : String) (f : Option Entry → Entry) (hf : ∀ old, (f old).name = n)
    (tree : FileTree) (m : String) :
    (alter n f tree).find? (fun e => e.name = m) =
      if m = n then some (f (tree.find? fun e => e.name = n))
      else tree.find? fun e => e.name = m := by
  -- the entry that is altered, and any other
  by_cases h : m = n
  · subst h
    induction tree with
    | nil => simp [alter, hf]
    | cons e tree ih => by_cases he : e.name = m <;> simp_all [alter]
  · have hne : ∀ old, (f old).name ≠ m := fun old he => h (he.symm.trans (hf old))
    rw [if_neg h]
    induction tree with
    | nil => simp [alter, hne]
    | cons e tree ih =>
      rw [alter]
      by_cases he : e.name = n
      · rw [if_pos he, List.find?_cons_of_neg (by simp [hne]), List.find?_cons_of_neg]
        simp [he, Ne.symm h]
      · rw [if_neg he, List.find?_cons, List.find?_cons, ih]

/-- A place that holds a file is below folders only. -/
theorem exists_of_view_cons {tree : FileTree} {n : String} {names : List String} {content : Content}
    (h : tree.view (n :: names) = some (some content)) :
    (∃ m old, names = [] ∧ tree.find? (fun e => e.name = n) = some (.file m old)) ∨
      ∃ m entries, tree.find? (fun e => e.name = n) = some (.folder m entries) ∧
        view entries names = some (some content) := by
  rw [view_cons] at h
  split at h
  · cases h
  · rename_i m entries hf
    exact Or.inr ⟨m, entries, hf, h⟩
  · rename_i m old hf
    split at h
    · rename_i hn
      exact Or.inl ⟨m, old, hn, hf⟩
    · cases h

theorem write_below (tree : FileTree) (content : Content) (n n' : String) (names : List String) :
    tree.write content (n :: n' :: names) =
      tree.alter n fun old => .folder n (write (entriesOf old) content (n' :: names)) := rfl

/-- Writing a file that exists changes what is seen at its place and nowhere else. -/
theorem view_write {names : List String} {tree : FileTree} {old : Content}
    (h : tree.view names = some (some old)) (content : Content) (place : List String) :
    (tree.write content names).view place =
      if place = names then some (some content) else tree.view place := by
  induction names generalizing tree place with
  | nil => cases h
  | cons n names ih =>
    cases place with
    | nil => rfl
    | cons m place =>
      rcases exists_of_view_cons h with ⟨k, c, rfl, hf⟩ | ⟨k, entries, hf, hinner⟩
      · -- the file stands in this folder
        rw [write, view_cons, find?_alter n (fun _ => .file n content) fun _ => rfl, view_cons]
        by_cases hm : m = n
        · rw [hm, if_pos rfl, hf]
          by_cases hp : place = [] <;> simp [hp]
        · rw [if_neg hm, if_neg fun he => hm (List.cons.inj he).1]
      · -- the file stands further down
        obtain ⟨n', names, rfl⟩ : ∃ n' more, names = n' :: more :=
          List.exists_cons_of_ne_nil fun hnil => by
            rw [hnil] at hinner
            cases hinner
        let inside (old : Option Entry) : Entry :=
          .folder n (write (entriesOf old) content (n' :: names))
        rw [write_below, view_cons, find?_alter n inside fun _ => rfl, view_cons]
        by_cases hm : m = n
        · rw [hm, if_pos rfl, hf]
          dsimp only [inside, entriesOf]
          rw [ih hinner]
          simp
        · rw [if_neg hm, if_neg fun he => hm (List.cons.inj he).1]

/-! ## 2. Paths -/

theorem view_isSome (tree : FileTree) (names : List String) :
    (tree.view names).isSome = (tree.at? names).isSome :=
  Option.isSome_map

theorem view_eq_some_none {tree : FileTree} {names : List String} :
    tree.view names = some none ↔ ∃ entries, tree.at? names = some (.folder entries) := by
  rw [view, Option.map_eq_some_iff]
  constructor
  · rintro ⟨found, hat, hfound⟩
    cases found with
    | file c => cases hfound
    | folder entries => exact ⟨entries, hat⟩
  · rintro ⟨entries, hat⟩
    exact ⟨_, hat, rfl⟩

/-- Paths are followed by what is seen of places. -/
theorem follow_eq (tree : FileTree) (names : List String) (segment : Text) :
    tree.follow names segment =
      if tree.view names = some none then
        if (tree.view (Path.step names segment)).isSome then some (Path.step names segment)
        else none
      else none := by
  rw [follow]
  split
  · rename_i entries hat
    rw [if_pos (view_eq_some_none.2 ⟨entries, hat⟩), view_isSome]
  · -- nothing is inside a file
    rename_i hat
    rw [if_neg fun hv => ?_]
    obtain ⟨entries, he⟩ := view_eq_some_none.1 hv
    exact hat entries he

/-- Trees in which the same places hold folders and the same places hold files. -/
theorem place?_congr {tree tree' : FileTree}
    (hfolder : ∀ names, tree'.view names = some none ↔ tree.view names = some none)
    (hsome : ∀ names, (tree'.view names).isSome = (tree.view names).isSome) (path : String)
    (working : List String) : tree'.place? path working = tree.place? path working := by
  have hfollow : tree'.follow = tree.follow := by
    funext names segment
    simp only [follow_eq, hfolder, hsome]
  rw [place?, place?, hfollow]

theorem read?_eq (tree : FileTree) (path : String) (working : List String) :
    tree.read? path working =
      (tree.place? path working).bind fun names => (tree.view names).join := by
  rw [read?, lookup?]
  cases tree.place? path working with
  | none => rfl
  | some names =>
    rw [Option.bind_some, Option.bind_some, view]
    rcases tree.at? names with _ | (c | entries) <;> rfl

section

variable {tree : FileTree} {working : List String} {file : String} {old : Content}

theorem exists_place_of_read? (h : tree.read? file working = some old) :
    ∃ names, tree.place? file working = some names ∧ tree.view names = some (some old) := by
  rw [read?_eq] at h
  obtain ⟨names, hplace, hview⟩ := Option.bind_eq_some_iff.1 h
  exact ⟨names, hplace, Option.join_eq_some_iff.1 hview⟩

/-- Every path leads to the same place after a file was replaced. -/
theorem place?_replace (h : tree.read? file working = some old) (content : Content)
    (path : String) :
    (tree.replace file content working).place? path working = tree.place? path working := by
  obtain ⟨names, hplace, hview⟩ := exists_place_of_read? h
  rw [replace, hplace]
  refine place?_congr (fun place => ?_) (fun place => ?_) path working <;>
  · rw [view_write hview]
    by_cases hp : place = names <;> simp [hp, hview]

/-- Only the paths to a file see that it was replaced. -/
theorem read?_replace (h : tree.read? file working = some old) (content : Content)
    (path : String) :
    (tree.replace file content working).read? path working =
      if tree.place? path working = tree.place? file working then some content
      else tree.read? path working := by
  rw [read?_eq, place?_replace h, read?_eq]
  obtain ⟨names, hplace, hview⟩ := exists_place_of_read? h
  rw [replace, hplace]
  cases tree.place? path working with
  | none => rfl
  | some place =>
    dsimp only [Option.bind_some]
    rw [view_write hview]
    by_cases hn : place = names <;> simp [hn]

end

end EventLint.FileTree
