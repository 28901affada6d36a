import EventLint.Discovery
import EventLint.Proofs.PathOrder

/-!
# The files that are collected

A file may be reached over several roots and be spelled in several ways. Main statement: every path
that is collected leads to a file, no two have the same components, and two paths without `..` lead
to one file only if they differ in the `.` that one of them starts with, or one starts at the root
and the other at the working folder. So no file is collected twice if the roots are written alike.
-/

namespace EventLint

namespace Path

/-! ## 1. Names below a path -/

/-- The name of an entry: one segment of a path that stands for itself. -/
def isName (n : String) : Bool :=
  !isFiller n.toList && n.toList ≠ ['.', '.'] && !n.toList.contains '/'

/-- The path leaves a folder upwards. -/
def climbs (path : String) : Bool :=
  (components path).contains .up

/-- The path starts with a `.` of its own. -/
def isDotted (path : String) : Bool :=
  (components path).contains .here

/-- What the segments stand for without the start of the path. -/
def steps (path : String) : List Component :=
  (segments path).filterMap Component.ofSegment?

theorem ofSegment?_of_isName {n : String} (h : isName n = true) :
    Component.ofSegment? n.toList = some (.name n.toList) := by
  simp only [isName, isFiller, Bool.and_eq_true, Bool.not_eq_true', Bool.or_eq_false_iff,
    decide_eq_false_iff_not, decide_eq_true_eq] at h
  rw [Component.ofSegment?, if_neg (not_or.2 h.1.1), if_neg h.1.2]

theorem segments_of_isName {n : String} (h : isName n = true) : segments n = [n.toList] := by
  simp only [isName, Bool.and_eq_true, Bool.not_eq_true'] at h
  rw [segments, List.splitOn_eq_splitOnP]
  refine List.splitOnP_eq_singleton fun c hc => ?_
  rw [beq_eq_false_iff_ne]
  rintro rfl
  rw [List.contains_eq_mem, decide_eq_false_iff_not] at h
  exact h.2 hc

theorem segments_append_slash (a b : Text) :
    (a ++ '/' :: b).splitOn '/' = a.splitOn '/' ++ b.splitOn '/' :=
  List.splitOn_append_cons_of_beq a b (beq_self_eq_true '/')

/-- A name below a path becomes its last segment. A slash at the end of the path leaves an empty
segment in front of it, which is dropped. -/
theorem segments_join {path n : String} (hpath : path ≠ "") (hn : isName n = true) :
    isAbsolute (join path n) = isAbsolute path ∧
      ∃ segs, segs ≠ [] ∧ (segments path = segs ∨ segments path = segs ++ [[]]) ∧
        segments (join path n) = segs ++ [n.toList] := by
  have hne : path.toList ≠ [] := fun h => hpath (String.toList_inj.1 h)
  have hname := segments_of_isName hn
  rw [segments] at hname
  -- the slash is added unless the path ends with one
  by_cases hslash : path.toList.getLast? = some '/'
  · have hjoin : (join path n).toList = path.toList ++ n.toList := by
      rw [join, if_pos (Or.inr hslash), String.toList_append]
    obtain ⟨q, hq⟩ := List.getLast?_eq_some_iff.1 hslash
    refine ⟨by rw [isAbsolute, isAbsolute, hjoin, List.head?_append_of_ne_nil _ hne],
      q.splitOn '/', by rw [List.splitOn_eq_splitOnP]; exact List.splitOnP_ne_nil _ q,
      Or.inr ?_, ?_⟩
    · rw [segments, hq, segments_append_slash, List.splitOn_nil]
    · rw [segments, hjoin, hq, List.append_assoc, List.singleton_append, segments_append_slash,
        hname]
  · have hjoin : (join path n).toList = path.toList ++ '/' :: n.toList := by
      rw [join, if_neg (not_or.2 ⟨hne, hslash⟩), String.toList_append, String.toList_append,
        List.append_assoc]
      rfl
    refine ⟨by rw [isAbsolute, isAbsolute, hjoin, List.head?_append_of_ne_nil _ hne],
      segments path, ?_, Or.inl rfl, ?_⟩
    · rw [segments, List.splitOn_eq_splitOnP]
      exact List.splitOnP_ne_nil _ _
    · rw [segments, hjoin, segments_append_slash, hname, segments]

theorem components_join {path n : String} (hpath : path ≠ "") (hn : isName n = true) :
    components (join path n) = components path ++ [.name n.toList] := by
  obtain ⟨habsolute, segs, hne, hsegments, hjoin⟩ := segments_join hpath hn
  have hhead : (segments path).head? = segs.head? ∧
      (segments path).filterMap Component.ofSegment? = segs.filterMap Component.ofSegment? := by
    rcases hsegments with h | h
    · rw [h]
      exact ⟨rfl, rfl⟩
    · rw [h, List.head?_append_of_ne_nil _ hne, List.filterMap_append]
      exact ⟨rfl, List.append_nil _⟩
  rw [components, components, habsolute, hjoin, List.head?_append_of_ne_nil _ hne, hhead.1, hhead.2,
    List.filterMap_append, List.filterMap_cons, ofSegment?_of_isName hn, List.filterMap_nil,
    List.append_assoc]

theorem join_ne_empty {path n : String} (hpath : path ≠ "") (hn : isName n = true) :
    join path n ≠ "" := by
  intro hempty
  have hlength := congrArg List.length (components_join hpath hn)
  rw [hempty, List.length_append] at hlength
  exact absurd hlength (Nat.ne_of_lt (Nat.succ_pos _))

theorem ofSegment?_cases (segment : Text) :
    (isFiller segment = true ∧ Component.ofSegment? segment = none) ∨
      (segment = ['.', '.'] ∧ Component.ofSegment? segment = some .up) ∨
      (isFiller segment = false ∧ segment ≠ ['.', '.'] ∧
        Component.ofSegment? segment = some (.name segment)) := by
  by_cases hfiller : segment = [] ∨ segment = ['.']
  · exact Or.inl ⟨by simpa [isFiller] using hfiller, by rw [Component.ofSegment?, if_pos hfiller]⟩
  by_cases hup : segment = ['.', '.']
  · exact Or.inr (Or.inl ⟨hup, by rw [Component.ofSegment?, if_neg hfiller, if_pos hup]⟩)
  · refine Or.inr (Or.inr ⟨by simpa [isFiller] using hfiller, hup, ?_⟩)
    rw [Component.ofSegment?, if_neg hfiller, if_neg hup]

/-- A step is none of the components that a path starts with. -/
theorem rank_of_mem_steps {path : String} {c : Component} (h : c ∈ steps path) : 1 < c.rank := by
  obtain ⟨segment, -, hc⟩ := List.mem_filterMap.1 h
  rcases ofSegment?_cases segment with ⟨-, hs⟩ | ⟨-, hs⟩ | ⟨-, -, hs⟩ <;> rw [hs] at hc <;> cases hc
  · exact (by decide : 1 < 2)
  · exact (by decide : 1 < 3)

theorem root_notMem_steps (path : String) : .root ∉ steps path := fun h =>
  absurd (rank_of_mem_steps h) (by decide)

theorem here_notMem_steps (path : String) : .here ∉ steps path := fun h =>
  absurd (rank_of_mem_steps h) (by decide)

/-- The components of a path: where it starts, and its steps. -/
theorem components_eq (path : String) :
    components path =
      (if isAbsolute path then [.root] else if isDotted path then [.here] else []) ++
        steps path := by
  have hstart : components path =
      (if isAbsolute path then [Component.root]
        else if (segments path).head? = some ['.'] then [Component.here] else []) ++
        steps path := rfl
  rw [isDotted, hstart]
  by_cases habsolute : isAbsolute path = true
  · rw [if_pos habsolute, if_pos habsolute]
  · rw [if_neg habsolute, if_neg habsolute]
    by_cases hdot : (segments path).head? = some ['.'] <;> simp [hdot, here_notMem_steps]

theorem isAbsolute_iff {path : String} : isAbsolute path = true ↔ .root ∈ components path := by
  rw [components_eq]
  cases isAbsolute path <;> cases isDotted path <;> simp [root_notMem_steps]

theorem climbs_iff {path : String} : climbs path = true ↔ .up ∈ steps path := by
  rw [climbs, components_eq]
  cases isAbsolute path <;> cases isDotted path <;> simp

/-- The steps of a path that is not absolute are its components without a `.` in front. -/
theorem steps_eq_filter {path : String} (h : isAbsolute path = false) :
    steps path = (components path).filter (· ≠ .here) := by
  have hsteps : (steps path).filter (· ≠ .here) = steps path :=
    List.filter_eq_self.2 fun c hc => decide_eq_true fun he => here_notMem_steps path (he ▸ hc)
  rw [components_eq, h, if_neg Bool.false_ne_true, List.filter_append, hsteps]
  cases isDotted path <;> rfl

/-- Components of different ranks decide the order of the paths that start with them. -/
theorem leAll_of_rank {a b : Component} (h : b.rank < a.rank) (as bs : List Component) :
    leAll (a :: as) (b :: bs) = false := by
  have hne : a ≠ b := by
    rintro rfl
    exact lt_irrefl _ h
  rw [leAll, if_neg hne]
  cases a <;> cases b <;> simp_all [Component.before, Component.rank]

/-- What starts at the root comes first. -/
theorem isAbsolute_of_le {p q : String} (hp : steps p ≠ []) (hle : le p q = true)
    (hq : isAbsolute q = true) : isAbsolute p = true := by
  obtain ⟨c, more, hc⟩ := List.exists_cons_of_ne_nil hp
  have hrank : 1 < c.rank := rank_of_mem_steps (hc ▸ List.mem_cons_self)
  rw [← Bool.not_eq_false]
  intro hp
  rw [le, components_eq, components_eq, hp, hq, hc, if_neg Bool.false_ne_true, if_pos rfl] at hle
  cases hd : isDotted p <;> rw [hd] at hle
  · have hlater := leAll_of_rank (b := .root) (Nat.zero_lt_of_lt hrank) more (steps q)
    exact absurd (hlater.symm.trans hle) Bool.false_ne_true
  · have hlater := leAll_of_rank (a := .here) (b := .root) (by decide) (c :: more) (steps q)
    exact absurd (hlater.symm.trans hle) Bool.false_ne_true

/-- Of two paths with the same steps from the working folder the one with a `.` comes first. -/
theorem components_of_steps {p q : String} (hp : isAbsolute p = false) (hq : isAbsolute q = false)
    (hsteps : steps p = steps q) (hne : steps p ≠ []) (hpq : Precedes p q) :
    isDotted p ≠ isDotted q ∧ components p = .here :: components q := by
  obtain ⟨c, more, hc⟩ := List.exists_cons_of_ne_nil hne
  have hrank : 1 < c.rank := rank_of_mem_steps (hc ▸ List.mem_cons_self)
  obtain ⟨hle, hdiffer⟩ := hpq
  rw [le] at hle
  rw [components_eq p, components_eq q, hp, hq, ← hsteps, hc] at hle hdiffer ⊢
  cases hdp : isDotted p <;> cases hdq : isDotted q <;> rw [hdp, hdq] at hle hdiffer
  · exact absurd rfl hdiffer
  · exact absurd ((leAll_of_rank (b := .here) hrank _ _).symm.trans hle) Bool.false_ne_true
  · exact ⟨by decide, rfl⟩
  · exact absurd rfl hdiffer

theorem step_of_isName {n : String} (h : isName n = true) (names : List String) :
    step names n.toList = names ++ [n] := by
  rw [isName, Bool.and_eq_true, Bool.and_eq_true, Bool.not_eq_true', decide_eq_true_eq] at h
  rw [step, h.1.1, if_neg Bool.false_ne_true, if_neg h.1.2, String.ofList_toList]

/-- Without `..` segments lead down their names. -/
theorem foldl_step {segs : List Text} (hup : .up ∉ segs.filterMap Component.ofSegment?)
    (names : List String) :
    (segs.foldl step names).map (fun n => Component.name n.toList) =
      names.map (fun n => .name n.toList) ++ segs.filterMap Component.ofSegment? := by
  induction segs generalizing names with
  | nil => simp
  | cons seg segs ih =>
    rcases ofSegment?_cases seg with ⟨hfiller, hs⟩ | ⟨-, hs⟩ | ⟨hfiller, hdots, hs⟩
    · -- nothing is entered
      rw [List.filterMap_cons_none hs] at hup ⊢
      rw [List.foldl_cons, step, if_pos hfiller, ih hup]
    · rw [List.filterMap_cons_some hs] at hup
      exact absurd List.mem_cons_self hup
    · rw [List.filterMap_cons_some hs] at hup ⊢
      rw [List.foldl_cons, step, hfiller, if_neg Bool.false_ne_true, if_neg hdots,
        ih fun h => hup (List.mem_cons_of_mem _ h), List.map_append, List.append_assoc]
      simp

end Path

/-! ## 2. Well-formed trees -/

mutual

/-- Entries have names, and no two entries of a folder share one. -/
def Entry.wellFormed : Entry → Bool
  | .file n _ => Path.isName n
  | .folder n entries => Path.isName n && wellFormedAll entries

def Entry.wellFormedAll : List Entry → Bool
  | [] => true
  | e :: entries =>
    e.wellFormed && wellFormedAll entries && entries.all fun other => other.name ≠ e.name

end

namespace FileTree

def wellFormed (tree : FileTree) : Bool :=
  Entry.wellFormedAll tree

theorem wellFormed_cons {e : Entry} {entries : FileTree} (h : wellFormed (e :: entries) = true) :
    e.wellFormed = true ∧ wellFormed entries = true ∧ ∀ other ∈ entries, other.name ≠ e.name := by
  rw [wellFormed, Entry.wellFormedAll, Bool.and_eq_true, Bool.and_eq_true] at h
  refine ⟨h.1.1, h.1.2, fun other hmem => ?_⟩
  exact of_decide_eq_true (List.all_eq_true.1 h.2 other hmem)

theorem wellFormed_of_mem {tree : FileTree} {e : Entry} (h : tree.wellFormed = true)
    (he : e ∈ tree) : e.wellFormed = true := by
  induction tree with
  | nil => cases he
  | cons f tree ih =>
    obtain ⟨hf, htree, -⟩ := wellFormed_cons h
    rcases List.mem_cons.1 he with rfl | he
    · exact hf
    · exact ih htree he

/-! ## 3. Places -/

theorem name_of_find? {tree : FileTree} {n : String} {e : Entry}
    (h : tree.find? (fun e => e.name = n) = some e) : e.name = n := by
  simpa using List.find?_some h

/-- A place below the first of its names is found in a folder of that name; a file has nothing below
it. -/
theorem at?_cons_eq_some {tree : FileTree} {n : String} {names : List String} {found : Found} :
    tree.at? (n :: names) = some found ↔
      (∃ m entries, tree.find? (fun e => e.name = n) = some (.folder m entries) ∧
        at? entries names = some found) ∨
      ∃ m content, tree.find? (fun e => e.name = n) = some (.file m content) ∧ names = [] ∧
        found = .file content := by
  rw [at?]
  cases tree.find? fun e => e.name = n with
  | none => simp
  | some e =>
    cases e with
    | folder m entries => simp
    | file m content => by_cases hnames : names = [] <;> simp [hnames, eq_comm]

/-- What stands below a folder is found from the folder. -/
theorem at?_append {tree entries : FileTree} {names : List String}
    (h : tree.at? names = some (.folder entries)) (more : List String) :
    tree.at? (names ++ more) = entries.at? more := by
  induction names generalizing tree with
  | nil =>
    rw [at?] at h
    cases h
    rfl
  | cons n names ih =>
    rcases at?_cons_eq_some.1 h with ⟨m, inner, hfind, hinner⟩ | ⟨m, content, -, -, hfile⟩
    · rw [List.cons_append, at?, hfind]
      exact ih hinner
    · cases hfile

theorem wellFormed_at? {tree entries : FileTree} {names : List String}
    (htree : tree.wellFormed = true) (h : tree.at? names = some (.folder entries)) :
    entries.wellFormed = true := by
  induction names generalizing tree with
  | nil =>
    rw [at?] at h
    cases h
    exact htree
  | cons n names ih =>
    rcases at?_cons_eq_some.1 h with ⟨m, inner, hfind, hinner⟩ | ⟨m, content, -, -, hfile⟩
    · have hfolder := wellFormed_of_mem htree (List.mem_of_find?_eq_some hfind)
      rw [Entry.wellFormed, Bool.and_eq_true] at hfolder
      exact ih hfolder.2 hinner
    · cases hfile

/-- A segment is followed from a folder, to a place that there is. -/
theorem follow_eq_some {tree : FileTree} {names next : List String} {segment : Text} :
    tree.follow names segment = some next ↔
      (∃ entries, tree.at? names = some (.folder entries)) ∧ next = Path.step names segment ∧
        (tree.at? next).isSome = true := by
  rw [follow]
  rcases tree.at? names with _ | (content | entries)
  · simp
  · simp
  · dsimp only
    constructor
    · intro h
      split at h
      · rename_i hsome
        obtain rfl := Option.some.inj h
        exact ⟨⟨entries, rfl⟩, rfl, hsome⟩
      · cases h
    · rintro ⟨-, rfl, hsome⟩
      rw [if_pos hsome]

section

variable {tree entries : FileTree} {path : String} {working names : List String}

theorem ne_empty_of_place? (h : tree.place? path working = some names) : path ≠ "" := by
  rintro rfl
  rw [place?, if_pos rfl] at h
  cases h

theorem place?_eq (hpath : path ≠ "") :
    tree.place? path working = (Path.segments path).foldlM tree.follow
      (if Path.isAbsolute path then [] else working) := by
  rw [place?, if_neg hpath]

theorem follow_concat (tree : FileTree) (segs : List Text) (last : Text) (names : List String) :
    (segs ++ [last]).foldlM tree.follow names =
      (segs.foldlM tree.follow names).bind (tree.follow · last) := by
  simp [List.foldlM_append]

/-- A name below a folder leads to the entry of that name. -/
theorem place?_join {n : String} (hplace : tree.place? path working = some names)
    (hfolder : tree.at? names = some (.folder entries)) (hn : Path.isName n = true)
    (hentry : (entries.at? [n]).isSome = true) :
    tree.place? (Path.join path n) working = some (names ++ [n]) := by
  have hpath := ne_empty_of_place? hplace
  obtain ⟨habsolute, segs, -, hsegments, hjoin⟩ := Path.segments_join hpath hn
  rw [place?_eq hpath] at hplace
  -- in front of the name the path leads to the folder, with or without a slash at its end
  have hbefore : segs.foldlM tree.follow (if Path.isAbsolute path then [] else working) =
      some names := by
    rcases hsegments with h | h
    · rwa [h] at hplace
    · rw [h, follow_concat] at hplace
      obtain ⟨place, hsegs, hlast⟩ := Option.bind_eq_some_iff.1 hplace
      rw [hsegs, (follow_eq_some.1 hlast).2.1]
      rfl
  rw [place?_eq (Path.join_ne_empty hpath hn), habsolute, hjoin, follow_concat, hbefore,
    Option.bind_some, follow_eq_some, Path.step_of_isName hn, at?_append hfolder]
  exact ⟨⟨entries, hfolder⟩, rfl, hentry⟩

end

/-- The path that names lead to, one below the other. -/
def below (path : String) (names : List String) : String :=
  names.foldl Path.join path

theorem components_below {path : String} {names : List String} (hpath : path ≠ "")
    (hnames : ∀ n ∈ names, Path.isName n = true) :
    Path.components (below path names) =
      Path.components path ++ names.map fun n => .name n.toList := by
  induction names generalizing path with
  | nil => exact (List.append_nil _).symm
  | cons n names ih =>
    obtain ⟨hn, hrest⟩ := List.forall_mem_cons.1 hnames
    rw [show below path (n :: names) = below (Path.join path n) names from rfl,
      ih (Path.join_ne_empty hpath hn) hrest, Path.components_join hpath hn, List.append_assoc]
    rfl

/-- Names below a folder lead to the file that stands there. -/
theorem place?_below {tree entries : FileTree} {path : String} {working names more : List String}
    {content : Content} (hplace : tree.place? path working = some names)
    (hfolder : tree.at? names = some (.folder entries)) (hnames : ∀ n ∈ more, Path.isName n = true)
    (hfile : entries.at? more = some (.file content)) :
    tree.place? (below path more) working = some (names ++ more) := by
  induction more generalizing path names entries with
  | nil => cases hfile
  | cons n more ih =>
    obtain ⟨hn, hrest⟩ := List.forall_mem_cons.1 hnames
    rcases at?_cons_eq_some.1 hfile with ⟨m, inner, hfind, hinner⟩ | ⟨m, c, hfind, rfl, -⟩
    · have hentry : entries.at? [n] = some (.folder inner) :=
        at?_cons_eq_some.2 (Or.inl ⟨m, inner, hfind, rfl⟩)
      have hjoin := place?_join hplace hfolder hn (by rw [hentry]; rfl)
      have hmore := ih hjoin (by rw [at?_append hfolder, hentry]) hrest hinner
      rwa [List.append_assoc] at hmore
    · exact place?_join hplace hfolder hn (by rw [hfile]; rfl)

/-! ## 4. Spellings of a place -/

/-- Segments lead where they say. -/
theorem foldl_step_of_follow {tree : FileTree} {segs : List Text} {names found : List String}
    (h : segs.foldlM tree.follow names = some found) : found = segs.foldl Path.step names := by
  induction segs generalizing names with
  | nil => exact (Option.some.inj h).symm
  | cons seg segs ih =>
    rw [List.foldlM_cons] at h
    obtain ⟨next, hnext, hrest⟩ := Option.bind_eq_some_iff.1 h
    rw [List.foldl_cons, ← (follow_eq_some.1 hnext).2.1]
    exact ih hrest

/-- Without `..` a path leads down its steps, from the root or from the working folder. -/
theorem names_of_place? {tree : FileTree} {path : String} {working names : List String}
    (h : tree.place? path working = some names) (hclimbs : Path.climbs path = false) :
    names.map (fun n => Component.name n.toList) =
      (if Path.isAbsolute path then [] else working).map (fun n => .name n.toList) ++
        Path.steps path := by
  rw [place?_eq (ne_empty_of_place? h)] at h
  rw [foldl_step_of_follow h]
  refine Path.foldl_step (fun hup => ?_) _
  rw [Path.climbs_iff.2 hup] at hclimbs
  cases hclimbs

/-- A file is not where its path starts from. -/
theorem steps_ne_nil {tree : FileTree} {path : String} {working names : List String}
    {content : Content} (h : tree.place? path working = some names)
    (hfile : tree.at? names = some (.file content)) (hclimbs : Path.climbs path = false) :
    Path.steps path ≠ [] := by
  intro hsteps
  have hnames := names_of_place? h hclimbs
  rw [hsteps, List.append_nil] at hnames
  have hinj : Function.Injective fun n : String => Component.name n.toList := fun a b hab =>
    String.toList_inj.1 (Component.name.inj hab)
  rw [place?_eq (ne_empty_of_place? h), ← List.map_injective_iff.2 hinj hnames] at h
  -- the first segment is followed from a folder
  obtain ⟨seg, segs, hsegs⟩ : ∃ seg segs, Path.segments path = seg :: segs :=
    List.exists_cons_of_ne_nil (by
      rw [Path.segments, List.splitOn_eq_splitOnP]
      exact List.splitOnP_ne_nil _ _)
  rw [hsegs, List.foldlM_cons] at h
  obtain ⟨next, hnext, -⟩ := Option.bind_eq_some_iff.1 h
  obtain ⟨⟨entries, hfolder⟩, -⟩ := follow_eq_some.1 hnext
  rw [hfile] at hfolder
  cases hfolder

/-! ## 5. The walk -/

theorem at?_cons_left {e : Entry} {names : List String} {content : Content}
    (h : at? [e] names = some (.file content)) (entries : FileTree) :
    at? (e :: entries) names = some (.file content) := by
  cases names with
  | nil => cases h
  | cons n names =>
    rw [at?] at h ⊢
    by_cases hn : e.name = n
    · rw [List.find?_cons_of_pos (by simpa using hn)] at h ⊢
      exact h
    · rw [List.find?_cons_of_neg (by simpa using hn)] at h
      cases h

theorem at?_cons_right {e : Entry} {entries : FileTree} {names : List String} {content : Content}
    (h : at? entries names = some (.file content))
    (hdistinct : ∀ other ∈ entries, other.name ≠ e.name) :
    at? (e :: entries) names = some (.file content) := by
  cases names with
  | nil => cases h
  | cons n names =>
    have hn : e.name ≠ n := by
      rintro rfl
      rcases at?_cons_eq_some.1 h with ⟨m, inner, hfind, -⟩ | ⟨m, c, hfind, -⟩ <;>
        exact hdistinct _ (List.mem_of_find?_eq_some hfind) (name_of_find? hfind)
    rw [at?] at h ⊢
    rwa [List.find?_cons_of_neg (by simpa using hn)]

/-- The path leads from `start` down some names to a file. -/
def FileBelow (start : String) (entries : FileTree) (path : String) : Prop :=
  ∃ names content, (∀ n ∈ names, Path.isName n = true) ∧
    entries.at? names = some (.file content) ∧ path = below start names

mutual

theorem fileBelow_visit {patterns : List String} (layers : List Ignore.Layer) (start : String)
    (e : Entry) (he : e.wellFormed = true) {path : String}
    (h : path ∈ (e.visit patterns layers start).files) : FileBelow start [e] path := by
  cases e with
  | file n content =>
    rw [Entry.wellFormed] at he
    rw [Entry.visit] at h
    split at h
    · cases h
    split at h
    · refine ⟨[n], content, by simpa using he, ?_, List.mem_singleton.1 h⟩
      simp [at?, Entry.name]
    · cases h
  | folder n entries =>
    rw [Entry.wellFormed, Bool.and_eq_true] at he
    rw [Entry.visit] at h
    split at h
    · cases h
    -- the walk through the folder is by the mutual induction
    obtain ⟨names, content, hnames, hfile, rfl⟩ := fileBelow_visitAll _ _ entries he.2 h
    refine ⟨n :: names, content, ?_, ?_, rfl⟩
    · simpa [he.1] using hnames
    · simpa [at?, Entry.name] using hfile

theorem fileBelow_visitAll {patterns : List String} (layers : List Ignore.Layer) (start : String)
    (entries : FileTree) (hentries : entries.wellFormed = true) {path : String}
    (h : path ∈ (Entry.visitAll patterns layers start entries).files) :
    FileBelow start entries path := by
  cases entries with
  | nil => cases h
  | cons e entries =>
    obtain ⟨he, hrest, hdistinct⟩ := wellFormed_cons hentries
    rw [Entry.visitAll, Visit.append] at h
    rcases List.mem_append.1 h with h | h
    · obtain ⟨names, content, hnames, hfile, rfl⟩ := fileBelow_visit layers start e he h
      exact ⟨names, content, hnames, at?_cons_left hfile entries, rfl⟩
    · obtain ⟨names, content, hnames, hfile, rfl⟩ := fileBelow_visitAll layers start entries hrest h
      exact ⟨names, content, hnames, at?_cons_right hfile hdistinct, rfl⟩

end

/-- A path that is collected at a root leads to a file, and goes on from the root with names. -/
theorem mem_collectAt {tree : FileTree} (htree : tree.wellFormed = true)
    {exclude included working : List String} {root path : String}
    (h : path ∈ (tree.collectAt exclude included root working).files) :
    (∃ names content, tree.place? path working = some names ∧
      tree.at? names = some (.file content)) ∧
    ∃ more : List String, Path.components path =
      Path.components root ++ more.map fun n => .name n.toList := by
  rw [collectAt] at h
  split at h
  · cases h
  · rename_i names hplace
    split at h
    · cases h
    · rename_i content hfile
      split at h
      · -- the root is the file itself
        obtain rfl := List.mem_singleton.1 h
        exact ⟨⟨names, content, hplace, hfile⟩, [], (List.append_nil _).symm⟩
      · cases h
    · rename_i entries hfolder
      rw [List.mem_mergeSort] at h
      obtain ⟨more, content, hnames, hfile, rfl⟩ :=
        fileBelow_visitAll _ _ entries (wellFormed_at? htree hfolder) h
      exact ⟨⟨_, content, place?_below hplace hfolder hnames hfile,
        by rw [at?_append hfolder, hfile]⟩, more,
        components_below (ne_empty_of_place? hplace) hnames⟩

/-! ## 6. Files that are collected twice -/

/-- The roots that are walked. -/
def starts (roots : List String) : List String :=
  if roots.isEmpty then ["."] else roots

/-- The paths start from the same place, and both with a `.` or both without. -/
def Alike (p q : String) : Prop :=
  Path.isAbsolute p = Path.isAbsolute q ∧ Path.isDotted p = Path.isDotted q

instance (p q : String) : Decidable (Alike p q) :=
  inferInstanceAs (Decidable (_ ∧ _))

section

variable {tree : FileTree} (htree : tree.wellFormed = true)
  {exclude included roots working : List String}

include htree

theorem mem_collect {path : String} (h : path ∈ tree.collect exclude included roots working) :
    (∃ names content, tree.place? path working = some names ∧
      tree.at? names = some (.file content)) ∧
    ∃ root ∈ starts roots, Path.climbs path = Path.climbs root ∧ Alike path root := by
  have hsorted := List.mem_mergeSort.1 (Path.mem_of_mem_dropRepeats h)
  obtain ⟨root, hroot, hpath⟩ := List.mem_flatMap.1 hsorted
  obtain ⟨hplace, more, hcomponents⟩ := mem_collectAt htree hpath
  refine ⟨hplace, root, hroot, ?_, ?_, ?_⟩
  · rw [Path.climbs, Path.climbs, hcomponents]
    simp
  · rw [Bool.eq_iff_iff, Path.isAbsolute_iff, Path.isAbsolute_iff, hcomponents]
    simp
  · rw [Path.isDotted, Path.isDotted, hcomponents]
    simp

/-- Two collected paths that lead to one file without `..` are not alike. The first of them starts
with a `.` that the other lacks, or at the root and the other at the working folder. -/
theorem components_of_same_place {p q : String}
    (hp : p ∈ tree.collect exclude included roots working) (hpq : Path.Precedes p q)
    (hplace : tree.place? p working = tree.place? q working) (hclimbs : Path.climbs p = false)
    (hclimbs' : Path.climbs q = false) :
    ¬ Alike p q ∧ (Path.components p = .here :: Path.components q ∨
      Path.components p = .root :: (working.map (fun n => .name n.toList) ++
        (Path.components q).filter (· ≠ .here))) := by
  obtain ⟨⟨names, content, hnames, hfile⟩, -⟩ := mem_collect htree hp
  have hp' := names_of_place? hnames hclimbs
  have hq' := names_of_place? (hplace ▸ hnames) hclimbs'
  rw [hp'] at hq'
  have hne := steps_ne_nil hnames hfile hclimbs
  cases haq : Path.isAbsolute q with
  | true =>
    have hap := Path.isAbsolute_of_le hne hpq.1 haq
    rw [hap, haq] at hq'
    refine absurd ?_ hpq.2
    rw [Path.components_eq p, Path.components_eq q, hap, haq, List.append_cancel_left hq']
    rfl
  | false =>
    cases hap : Path.isAbsolute p with
    | true =>
      refine ⟨fun h => ?_, Or.inr ?_⟩
      · rw [Alike, hap, haq] at h
        cases h.1
      · rw [hap, haq] at hq'
        rw [← Path.steps_eq_filter haq, Path.components_eq p, hap]
        exact congrArg (Component.root :: ·) hq'
    | false =>
      rw [hap, haq] at hq'
      obtain ⟨hdotted, hhere⟩ :=
        Path.components_of_steps hap haq (List.append_cancel_left hq') hne hpq
      exact ⟨fun h => hdotted h.2, Or.inl hhere⟩

end

/-- What is found at a root is collected, under its own path or one with the same components, and
every path that is collected leads to a file. The paths are sorted and no two have the same
components, so that two of them without `..` lead to one file only if the first is the second with a
`.` in front, or the first leads from the root where the second leads from the working folder. Where
the roots are written alike, no two lead to one file. -/
theorem collect_distinct {tree : FileTree} (htree : tree.wellFormed = true)
    (working exclude included roots : List String) :
    let files := tree.collect exclude included roots working
    (∀ r ∈ starts roots, ∀ p ∈ (tree.collectAt exclude included r working).files,
        ∃ q ∈ files, Path.components q = Path.components p) ∧
      (∀ p ∈ files, tree.isFile p working = true) ∧
      (files.Pairwise fun p q => Path.Precedes p q ∧
        (tree.place? p working = tree.place? q working →
          Path.climbs p = true ∨ Path.climbs q = true ∨
          Path.components p = .here :: Path.components q ∨
          Path.components p = .root :: (working.map (fun n => .name n.toList) ++
            (Path.components q).filter (· ≠ .here)))) ∧
      ((∀ r ∈ roots, Path.climbs r = false) → (∀ r ∈ roots, ∀ r' ∈ roots, Alike r r') →
        files.Pairwise fun p q => tree.place? p working ≠ tree.place? q working) := by
  intro files
  have hordered : files.Pairwise Path.Precedes := Path.pairwise_dropRepeats_mergeSort _
  refine ⟨fun r hr p hp => ?_, fun p hp => ?_, ?_, fun hclimbs halike => ?_⟩
  · exact Path.exists_mem_dropRepeats (List.mem_mergeSort.2 (List.mem_flatMap.2 ⟨r, hr, hp⟩))
  · obtain ⟨⟨names, content, hplace, hfile⟩, -⟩ := mem_collect htree hp
    rw [isFile, read?, lookup?, hplace, Option.bind_some, hfile]
    rfl
  · refine hordered.imp_of_mem fun {p q} hp _ hpq => ⟨hpq, fun hplace => ?_⟩
    by_cases hp' : Path.climbs p = true
    · exact Or.inl hp'
    by_cases hq' : Path.climbs q = true
    · exact Or.inr (Or.inl hq')
    rw [Bool.not_eq_true] at hp' hq'
    exact Or.inr (Or.inr (components_of_same_place htree hp hpq hplace hp' hq').2)
  · refine hordered.imp_of_mem fun {p q} hp hq hpq hplace => ?_
    obtain ⟨-, r, hr, hup, hpr⟩ := mem_collect htree hp
    obtain ⟨-, r', hr', hup', hqr⟩ := mem_collect htree hq
    have hroots : ∀ r ∈ starts roots, Path.climbs r = false ∧ ∀ r' ∈ starts roots, Alike r r' := by
      cases roots with
      | nil => decide +kernel
      | cons first rest => exact fun r hr => ⟨hclimbs r hr, halike r hr⟩
    refine (components_of_same_place htree hp hpq hplace (hup.trans (hroots r hr).1)
      (hup'.trans (hroots r' hr').1)).1 ?_
    obtain ⟨habsolute, hdotted⟩ := (hroots r hr).2 r' hr'
    exact ⟨(hpr.1.trans habsolute).trans hqr.1.symm, (hpr.2.trans hdotted).trans hqr.2.symm⟩

/-- Files that are found in order stay so. -/
theorem collect_of_sorted {tree : FileTree} {working exclude included roots found : List String}
    (hfound : (starts roots).flatMap
      (fun r => (tree.collectAt exclude included r working).files) = found)
    (hsorted : found.Pairwise fun a b => Path.le a b = true) :
    tree.collect exclude included roots working = Path.dropRepeats found := by
  subst hfound
  exact congrArg Path.dropRepeats (List.mergeSort_of_pairwise hsorted)

/-- Roots inside each other, with slashes that do not count, from the root of the file system. -/
theorem collect_distinct_overlapping :
    let tree : FileTree := [.folder "src" [.file "A.txt" (.text []),
      .folder "Models" [.file "B.cs" (.text [])]]]
    let roots := ["/src/", "//src//Models", "/src/Models/B.cs"]
    tree.wellFormed = true ∧ (∀ r ∈ roots, Path.climbs r = false) ∧
      (∀ r ∈ roots, ∀ r' ∈ roots, Alike r r') ∧
      tree.collect [] [] roots ["src"] = ["/src/Models/B.cs"] ∧
      (tree.collect [] [] roots ["src"]).Pairwise fun p q =>
        tree.place? p ["src"] ≠ tree.place? q ["src"] := by
  intro tree roots
  have htree : tree.wellFormed = true := by decide +kernel
  have hclimbs : ∀ r ∈ roots, Path.climbs r = false := by decide +kernel
  have halike : ∀ r ∈ roots, ∀ r' ∈ roots, Alike r r' := by decide +kernel
  have hfound : (starts roots).flatMap (fun r => (tree.collectAt [] [] r ["src"]).files) =
      ["/src/Models/B.cs", "//src//Models/B.cs", "/src/Models/B.cs"] := by
    decide +kernel
  refine ⟨htree, hclimbs, halike, ?_,
    (collect_distinct htree ["src"] [] [] roots).2.2.2 hclimbs halike⟩
  rw [collect_of_sorted hfound (by decide +kernel)]
  decide +kernel

/-- A file that is reached over `.` or from the root, and under its own name, is collected twice. -/
theorem collect_twice :
    let tree : FileTree := [.folder "w" [.file "a.cs" (.text [])]]
    tree.collect [] [] [".", "a.cs"] ["w"] = ["./a.cs", "a.cs"] ∧
      tree.collect [] [] ["/w/a.cs", "a.cs"] ["w"] = ["/w/a.cs", "a.cs"] ∧
      ∀ p ∈ ["./a.cs", "/w/a.cs", "a.cs"], tree.place? p ["w"] = some ["w", "a.cs"] := by
  intro tree
  have hdotted : (starts [".", "a.cs"]).flatMap (fun r => (tree.collectAt [] [] r ["w"]).files) =
      ["./a.cs", "a.cs"] := by
    decide +kernel
  have habsolute : (starts ["/w/a.cs", "a.cs"]).flatMap
      (fun r => (tree.collectAt [] [] r ["w"]).files) = ["/w/a.cs", "a.cs"] := by
    decide +kernel
  refine ⟨?_, ?_, by decide +kernel⟩
  · rw [collect_of_sorted hdotted (by decide +kernel)]
    decide +kernel
  · rw [collect_of_sorted habsolute (by decide +kernel)]
    decide +kernel

end FileTree

end EventLint
