import EventLint.Proofs.Collected

/-!
# Excluded folders and what is found below a root

Main statement: where no ignore files stand above or below it, a root that is a folder gives exactly
the source files below it that are reached through no excluded folder, in order and each once. The
name of the root itself does not count, and the folders that are listed for the user are those that
are excluded.
-/

namespace EventLint

/-! ## 1. Excluded names -/

namespace Folder

/-- A folder of this name is not entered: a pattern that was asked for or stands by default fits it,
and is not to be included. -/
def Pruned (exclude included : List String) (name : String) : Prop :=
  ∃ p, (p ∈ exclude ∨ p ∈ defaults) ∧ p ∉ included ∧ fits name p = true

theorem isExcluded_filter_iff {name : String} {patterns included : List String} :
    isExcluded name (patterns.filter fun p => !included.contains p) = true ↔
      ∃ p, p ∈ patterns ∧ p ∉ included ∧ fits name p = true := by
  simp [isExcluded]

/-- The patterns in force exclude what is pruned. -/
theorem isExcluded_patterns_iff {name : String} {exclude included : List String} :
    isExcluded name (patterns exclude included) = true ↔ Pruned exclude included name := by
  rw [patterns, isExcluded_filter_iff]
  simp only [List.mem_append, Pruned]

instance (exclude included : List String) (name : String) :
    Decidable (Pruned exclude included name) :=
  decidable_of_iff _ isExcluded_patterns_iff

theorem mem_addNew {listed folders : List String} {p : String} :
    p ∈ addNew listed folders ↔ p ∈ listed ∨ p ∈ folders := by
  induction folders generalizing listed with
  | nil => simp [addNew]
  | cons f folders ih =>
    rw [addNew, List.foldl_cons, ← addNew, ih, List.mem_cons]
    split
    · rename_i hlisted
      -- a folder that is listed already is not added, and was there before
      have hf : f ∈ listed := by simpa using hlisted
      constructor
      · exact fun h => h.imp_right Or.inr
      · rintro (h | rfl | h)
        · exact Or.inl h
        · exact Or.inl hf
        · exact Or.inr h
    · rw [List.mem_append, List.mem_singleton, or_assoc]

/-- The folders that are listed exclude the same names, though they are put together in another
order. -/
theorem isExcluded_listing_iff {name : String} {exclude included : List String} :
    isExcluded name (listing exclude true included) = true ↔ Pruned exclude included name := by
  rw [listing, isExcluded_filter_iff]
  simp only [if_true, mem_addNew, Pruned, or_comm]

end Folder

/-! ## 2. Source files -/

namespace Path

/-- The name of a source file: something in front of the extension `cs`. -/
def IsSourceName (name : String) : Prop :=
  ∃ stem : String, stem ≠ "" ∧ name = stem ++ ".cs"

theorem extensionOf?_append {stem ext : Text} (hstem : stem ≠ []) (hext : '.' ∉ ext) :
    extensionOf? (stem ++ '.' :: ext) = some ext := by
  have hrest : (stem ++ '.' :: ext).reverse = ext.reverse ++ '.' :: stem.reverse := by simp
  have hafter : (stem ++ '.' :: ext).reverse.takeWhile (· ≠ '.') = ext.reverse := by
    rw [hrest, List.takeWhile_append_of_pos, List.takeWhile_cons_of_neg (by decide),
      List.append_nil]
    intro c hc
    refine decide_eq_true fun hdot => hext ?_
    rwa [hdot, List.mem_reverse] at hc
  obtain ⟨c, more, hmore⟩ := List.exists_cons_of_ne_nil (List.reverse_ne_nil_iff.2 hstem)
  rw [extensionOf?, hafter, hrest, List.drop_left, hmore, List.reverse_reverse]

theorem exists_of_extensionOf? {name ext : Text} (h : extensionOf? name = some ext) :
    ∃ stem, stem ≠ [] ∧ name = stem ++ '.' :: ext := by
  rw [extensionOf?] at h
  have hsplit :=
    List.takeWhile_append_dropWhile (p := fun c => decide (c ≠ '.')) (l := name.reverse)
  -- read backwards: the ending, the last point and what stands in front of it
  have hdrop : name.reverse.drop (name.reverse.takeWhile (· ≠ '.')).length =
      name.reverse.dropWhile (· ≠ '.') :=
    (congrArg (List.drop _) hsplit.symm).trans List.drop_left
  rw [hdrop] at h
  split at h
  · cases h
  · cases h
  · rename_i hnone hone
    cases hrest : name.reverse.dropWhile (· ≠ '.') with
    | nil => exact absurd hrest hnone
    | cons dot stem =>
      have hdot : dot = '.' := by
        have hhead := List.head?_dropWhile_not (fun c => decide (c ≠ '.')) name.reverse
        rw [hrest] at hhead
        simpa using hhead
      rw [hrest, hdot, ← List.reverse_inj, List.reverse_reverse] at hsplit
      -- a name that starts with its only point has no ending
      refine ⟨stem.reverse, fun hnil => hone dot ?_, ?_⟩
      · rw [hrest, List.reverse_eq_nil_iff.1 hnil]
      · rw [← hsplit, ← Option.some.inj h]
        simp

theorem isSource_join {path n : String} (hpath : path ≠ "") (hn : isName n = true) :
    isSource (join path n) = true ↔ IsSourceName n := by
  rw [isSource, extension?, components_join hpath hn, List.getLast?_concat, decide_eq_true_eq]
  constructor
  · intro h
    obtain ⟨stem, hstem, hname⟩ := exists_of_extensionOf? h
    refine ⟨String.ofList stem, fun hempty => hstem ?_, ?_⟩
    · simpa using congrArg String.toList hempty
    · rw [← String.toList_inj, hname]
      simp
  · rintro ⟨stem, hstem, rfl⟩
    dsimp only
    rw [String.toList_append]
    exact extensionOf?_append (fun hnil => hstem (String.toList_inj.1 hnil)) (by decide)

end Path

/-! ## 3. Trees without ignore files -/

/-- The entry is an ignore file or starts a repository. Outside a repository the file `.gitignore`
does not count. -/
def Entry.isRule : Entry → Bool
  | .file n _ => n = ".ignore" || n = ".git"
  | .folder n _ => n = ".git"

mutual

/-- Neither the entry nor anything below it is a rule. -/
def Entry.isUnruled : Entry → Bool
  | .file n content => !(Entry.file n content).isRule
  | .folder n entries => !(Entry.folder n entries).isRule && isUnruledAll entries

def Entry.isUnruledAll : List Entry → Bool
  | [] => true
  | e :: entries => e.isUnruled && isUnruledAll entries

end

namespace FileTree

def isUnruled (tree : FileTree) : Bool :=
  Entry.isUnruledAll tree

def hasRules (tree : FileTree) : Bool :=
  tree.any Entry.isRule

/-- The folders on the way to a place hold no rules. -/
def isUnruledTo (tree : FileTree) : List String → Bool
  | [] => !tree.hasRules
  | n :: names =>
    !tree.hasRules && isUnruledTo (entriesOf (tree.find? fun e => e.name = n)) names

theorem hasRules_of_isUnruled {tree : FileTree} (h : tree.isUnruled = true) :
    tree.hasRules = false := by
  induction tree with
  | nil => rfl
  | cons e tree ih =>
    rw [isUnruled, Entry.isUnruledAll, Bool.and_eq_true] at h
    have he : e.isRule = false := by
      cases e with
      | file n content => exact Bool.not_eq_true' _ ▸ h.1
      | folder n entries => exact Bool.not_eq_true' _ ▸ (Bool.and_eq_true_iff.1 h.1).1
    rw [hasRules, List.any_cons, he, Bool.false_or]
    exact ih h.2

theorem isRule_of_find? {tree : FileTree} (h : tree.hasRules = false) {n : String} {e : Entry}
    (hfind : tree.find? (fun e => e.name = n) = some e) : e.isRule = false :=
  Bool.eq_false_of_not_eq_true (List.any_eq_false.1 h e (List.mem_of_find?_eq_some hfind))

end FileTree

namespace Ignore

/-- The layer says nothing of any entry. -/
structure Layer.Silent (l : Layer) : Prop where
  general : l.general = []
  noRepository : l.isRepository = false

theorem Layer.silent_ofFolder {entries : FileTree} (h : entries.hasRules = false) :
    (Layer.ofFolder entries).Silent := by
  refine ⟨?_, ?_⟩
  · show Patterns.ofFile entries [".ignore"] = []
    unfold Patterns.ofFile
    split
    · rename_i text hfile
      rcases FileTree.at?_cons_eq_some.1 hfile with ⟨m, inner, -, hinner⟩ | ⟨m, content, hfind, -⟩
      · cases hinner
      · have hentry := FileTree.isRule_of_find? h hfind
        rw [Entry.isRule, show m = ".ignore" from FileTree.name_of_find? hfind] at hentry
        cases hentry
    · rfl
  · show (entries.at? [".git"]).isSome = false
    have hfind : entries.find? (fun e => e.name = ".git") = none := by
      refine Option.eq_none_iff_forall_ne_some.2 fun e hfind => ?_
      have hentry := FileTree.isRule_of_find? h hfind
      have hname := FileTree.name_of_find? hfind
      cases e <;> simp_all [Entry.name, Entry.isRule]
    rw [FileTree.at?, hfind]
    rfl

theorem isIgnored_of_silent {layers : List Layer} (h : ∀ l ∈ layers, l.Silent) (name : String)
    (isFolder : Bool) : isIgnored layers name isFolder = false := by
  have hgeneral : layers.findSome? (fun l => l.general.verdict? (l.path name) isFolder) = none :=
    List.findSome?_eq_none_iff.2 fun l hl => by rw [(h l hl).general]; rfl
  have hrepository : layers.any Layer.isRepository = false :=
    List.any_eq_false.2 fun l hl => by rw [(h l hl).noRepository]; decide
  rw [isIgnored, hgeneral, hrepository]
  rfl

theorem Layer.Silent.enter {l : Layer} (h : l.Silent) (n : String) : (l.enter n).Silent :=
  ⟨h.general, h.noRepository⟩

theorem silent_map_enter {layers : List Layer} (n : String) (h : ∀ l ∈ layers, l.Silent) :
    ∀ l ∈ layers.map (·.enter n), l.Silent :=
  List.forall_mem_map.2 fun l hl => (h l hl).enter n

/-- Below a folder that says nothing the layers stay silent. -/
theorem silent_enter {entries : FileTree} {layers : List Layer} (n : String)
    (h : entries.isUnruled = true) (hlayers : ∀ l ∈ layers, l.Silent) :
    ∀ l ∈ Layer.ofFolder entries :: layers.map (·.enter n), l.Silent :=
  List.forall_mem_cons.2
    ⟨Layer.silent_ofFolder (FileTree.hasRules_of_isUnruled h), silent_map_enter n hlayers⟩

theorem silent_layers {tree : FileTree} {above : List Layer} {names : List String}
    (h : tree.isUnruledTo names = true) (habove : ∀ l ∈ above, l.Silent) :
    ∀ l ∈ tree.layers above names, l.Silent := by
  induction names generalizing tree above with
  | nil =>
    rw [FileTree.isUnruledTo, Bool.not_eq_true'] at h
    exact List.forall_mem_cons.2 ⟨Layer.silent_ofFolder h, habove⟩
  | cons n names ih =>
    rw [FileTree.isUnruledTo, Bool.and_eq_true, Bool.not_eq_true'] at h
    have hhere := List.forall_mem_cons.2 ⟨Layer.silent_ofFolder h.1, habove⟩
    exact ih h.2 (silent_map_enter n hhere)

end Ignore

/-! ## 4. The walk -/

namespace FileTree

open Folder Path

theorem at?_file_iff {n : String} {c content : Content} {names : List String} :
    at? [.file n c] names = some (.file content) ↔ names = [n] ∧ content = c := by
  cases names with
  | nil => simp [at?]
  | cons m names =>
    by_cases hm : n = m
    · by_cases hnames : names = [] <;> simp [at?, Entry.name, hm, hnames, eq_comm]
    · simp [at?, Entry.name, hm, Ne.symm hm]

theorem at?_folder_iff {n : String} {inner : FileTree} {content : Content} {names : List String} :
    at? [.folder n inner] names = some (.file content) ↔
      ∃ more, names = n :: more ∧ at? inner more = some (.file content) := by
  cases names with
  | nil => simp [at?]
  | cons m names =>
    by_cases hm : n = m
    · simp [at?, Entry.name, hm]
    · simp [at?, Entry.name, hm, Ne.symm hm]

/-- A file below several entries is a file below one of them. -/
theorem at?_cons_iff {e : Entry} {entries : FileTree} {names : List String} {content : Content}
    (hdistinct : ∀ other ∈ entries, other.name ≠ e.name) :
    at? (e :: entries) names = some (.file content) ↔
      at? [e] names = some (.file content) ∨ at? entries names = some (.file content) := by
  refine ⟨fun h => ?_, fun h => h.elim (at?_cons_left · entries) (at?_cons_right · hdistinct)⟩
  cases names with
  | nil => cases h
  | cons n names =>
    rw [at?] at h
    by_cases hn : e.name = n
    · rw [List.find?_cons_of_pos (by simpa using hn)] at h
      refine Or.inl ?_
      rwa [at?, List.find?_cons_of_pos (by simpa using hn)]
    · rw [List.find?_cons_of_neg (by simpa using hn)] at h
      exact Or.inr h

/-- The path leads from `start` to a source file, through folders that are not excluded. -/
def SourceBelow (patterns : List String) (start : String) (entries : FileTree) (path : String) :
    Prop :=
  ∃ folders file content, entries.at? (folders ++ [file]) = some (.file content) ∧
    path = below start (folders ++ [file]) ∧ IsSourceName file ∧
    ∀ f ∈ folders, isExcluded f patterns = false

section

variable {patterns : List String} {start path : String}

theorem sourceBelow_file {n : String} {content : Content} :
    SourceBelow patterns start [.file n content] path ↔ IsSourceName n ∧ path = join start n := by
  constructor
  · rintro ⟨folders, file, c, hfile, rfl, hsource, -⟩
    obtain ⟨rfl, hn⟩ := List.append_eq_singleton_iff.1 (at?_file_iff.1 hfile).1 |>.resolve_right
      fun h => List.cons_ne_nil _ _ h.2
    obtain rfl := List.singleton_inj.1 hn
    exact ⟨hsource, rfl⟩
  · rintro ⟨hsource, rfl⟩
    exact ⟨[], n, content, at?_file_iff.2 ⟨rfl, rfl⟩, rfl, hsource, by simp⟩

theorem sourceBelow_folder {n : String} {inner : FileTree} :
    SourceBelow patterns start [.folder n inner] path ↔
      isExcluded n patterns = false ∧ SourceBelow patterns (join start n) inner path := by
  constructor
  · rintro ⟨folders, file, content, hfile, rfl, hsource, hfolders⟩
    obtain ⟨more, hnames, hinner⟩ := at?_folder_iff.1 hfile
    cases folders with
    | nil =>
      -- the folder itself is no file
      rw [List.nil_append, List.cons.injEq] at hnames
      rw [← hnames.2] at hinner
      cases hinner
    | cons f folders =>
      rw [List.cons_append, List.cons.injEq] at hnames
      obtain ⟨rfl, rfl⟩ := hnames
      obtain ⟨hn, hmore⟩ := List.forall_mem_cons.1 hfolders
      exact ⟨hn, folders, file, content, hinner, rfl, hsource, hmore⟩
  · rintro ⟨hn, folders, file, content, hinner, rfl, hsource, hfolders⟩
    exact ⟨n :: folders, file, content, at?_folder_iff.2 ⟨_, rfl, hinner⟩, rfl, hsource,
      List.forall_mem_cons.2 ⟨hn, hfolders⟩⟩

theorem sourceBelow_cons {e : Entry} {entries : FileTree}
    (hdistinct : ∀ other ∈ entries, other.name ≠ e.name) :
    SourceBelow patterns start (e :: entries) path ↔
      SourceBelow patterns start [e] path ∨ SourceBelow patterns start entries path := by
  simp only [SourceBelow, at?_cons_iff hdistinct, or_and_right, exists_or]

end

mutual

/-- An entry gives the source files at or below it that are reached through no excluded folder. -/
theorem mem_visit_iff {patterns : List String} {layers : List Ignore.Layer} {start : String}
    (e : Entry) (hstart : start ≠ "") (he : e.wellFormed = true) (hrules : e.isUnruled = true)
    (hlayers : ∀ l ∈ layers, l.Silent) {path : String} :
    path ∈ (e.visit patterns layers start).files ↔ SourceBelow patterns start [e] path := by
  cases e with
  | file n content =>
    rw [Entry.wellFormed] at he
    rw [Entry.visit, Ignore.isIgnored_of_silent hlayers, if_neg Bool.false_ne_true,
      sourceBelow_file, ← isSource_join hstart he]
    split <;> simp_all
  | folder n entries =>
    rw [Entry.wellFormed, Bool.and_eq_true] at he
    rw [Entry.isUnruled, Bool.and_eq_true] at hrules
    rw [Entry.visit, Ignore.isIgnored_of_silent hlayers, Bool.false_or, sourceBelow_folder]
    split
    · rename_i hexcluded
      simp [hexcluded]
    · rename_i hexcluded
      rw [Bool.not_eq_true] at hexcluded
      rw [and_iff_right hexcluded]
      -- the layers stay silent inside: no folder brings rules of its own
      exact mem_visitAll_iff entries (join_ne_empty hstart he.1) he.2 hrules.2
        (Ignore.silent_enter n hrules.2 hlayers)

theorem mem_visitAll_iff {patterns : List String} {layers : List Ignore.Layer} {start : String}
    (entries : FileTree) (hstart : start ≠ "") (hentries : entries.wellFormed = true)
    (hrules : entries.isUnruled = true) (hlayers : ∀ l ∈ layers, l.Silent) {path : String} :
    path ∈ (Entry.visitAll patterns layers start entries).files ↔
      SourceBelow patterns start entries path := by
  cases entries with
  | nil =>
    refine iff_of_false List.not_mem_nil ?_
    rintro ⟨folders, file, content, hfile, -⟩
    cases folders <;> cases hfile
  | cons e entries =>
    obtain ⟨he, hrest, hdistinct⟩ := wellFormed_cons hentries
    rw [isUnruled, Entry.isUnruledAll, Bool.and_eq_true] at hrules
    rw [Entry.visitAll, Visit.append, List.mem_append, sourceBelow_cons hdistinct,
      mem_visit_iff e hstart he hrules.1 hlayers,
      mem_visitAll_iff entries hstart hrest hrules.2 hlayers]

end

/-! ## 5. Each file once -/

theorem mem_visitAll {patterns : List String} {layers : List Ignore.Layer} {start path : String}
    {entries : FileTree} (h : path ∈ (Entry.visitAll patterns layers start entries).files) :
    ∃ e ∈ entries, path ∈ (e.visit patterns layers start).files := by
  induction entries with
  | nil => cases h
  | cons e entries ih =>
    rw [Entry.visitAll, Visit.append] at h
    rcases List.mem_append.1 h with h | h
    · exact ⟨e, List.mem_cons_self, h⟩
    · obtain ⟨other, hother, h⟩ := ih h
      exact ⟨other, List.mem_cons_of_mem e hother, h⟩

/-- What an entry gives goes on from the start with the name of the entry. -/
theorem components_of_mem_visit {patterns : List String} {layers : List Ignore.Layer}
    {start path : String} {e : Entry} (hstart : start ≠ "") (he : e.wellFormed = true)
    (h : path ∈ (e.visit patterns layers start).files) :
    ∃ more, components path = components start ++ .name e.name.toList :: more := by
  obtain ⟨names, content, hnames, hfile, rfl⟩ := fileBelow_visit layers start e he h
  obtain ⟨more, rfl⟩ : ∃ more, names = e.name :: more := by
    cases e with
    | file n c => exact ⟨[], (at?_file_iff.1 hfile).1⟩
    | folder n inner =>
      obtain ⟨more, hmore, -⟩ := at?_folder_iff.1 hfile
      exact ⟨more, hmore⟩
  exact ⟨_, components_below hstart hnames⟩

mutual

theorem pairwise_visit {patterns : List String} {layers : List Ignore.Layer} {start : String}
    (e : Entry) (hstart : start ≠ "") (he : e.wellFormed = true) :
    (e.visit patterns layers start).files.Pairwise fun p q => components p ≠ components q := by
  cases e with
  | file n content =>
    rw [Entry.visit]
    split
    · exact .nil
    · split
      · exact List.pairwise_singleton ..
      · exact .nil
  | folder n entries =>
    rw [Entry.wellFormed, Bool.and_eq_true] at he
    rw [Entry.visit]
    split
    · exact .nil
    · exact pairwise_visitAll entries (join_ne_empty hstart he.1) he.2

theorem pairwise_visitAll {patterns : List String} {layers : List Ignore.Layer} {start : String}
    (entries : FileTree) (hstart : start ≠ "") (hentries : entries.wellFormed = true) :
    (Entry.visitAll patterns layers start entries).files.Pairwise
      fun p q => components p ≠ components q := by
  cases entries with
  | nil => exact .nil
  | cons e entries =>
    obtain ⟨he, hrest, hdistinct⟩ := wellFormed_cons hentries
    refine List.pairwise_append.2
      ⟨pairwise_visit e hstart he, pairwise_visitAll entries hstart hrest, fun p hp q hq hpq => ?_⟩
    obtain ⟨other, hother, hq⟩ := mem_visitAll hq
    obtain ⟨more, hp⟩ := components_of_mem_visit hstart he hp
    obtain ⟨more', hq⟩ := components_of_mem_visit hstart (wellFormed_of_mem hrest hother) hq
    -- the two paths part where the names of their entries stand
    rw [hp, hq, List.append_cancel_left_eq, List.cons.injEq, Component.name.injEq,
      String.toList_inj] at hpq
    exact hdistinct other hother hpq.1.symm

end

/-- A root that is a folder gives, in order and each once, the source files below it that no pruned
folder holds, whatever the root itself is called. The folders that are listed for the user are those
that are pruned. -/
theorem collectAt_folder {tree entries : FileTree} {root : String} {working names : List String}
    (htree : tree.wellFormed = true) (hplace : tree.place? root working = some names)
    (hfolder : tree.at? names = some (.folder entries)) (habove : tree.isUnruledTo names = true)
    (hrules : entries.isUnruled = true) (exclude included : List String) :
    let files := (tree.collectAt exclude included root working).files
    files.Pairwise Path.Precedes ∧
      (∀ path, path ∈ files ↔
        ∃ folders file content, entries.at? (folders ++ [file]) = some (.file content) ∧
          path = below root (folders ++ [file]) ∧ IsSourceName file ∧
          ∀ f ∈ folders, ¬ Pruned exclude included f) ∧
      ∀ name, isExcluded name (listing exclude true included) = true ↔
        Pruned exclude included name := by
  intro files
  have hfiles : files = (Entry.visitAll (patterns exclude included) (tree.layers [] names) root
      entries).files.mergeSort Path.le := by
    simp only [files, collectAt, hplace, hfolder]
  have hstart := ne_empty_of_place? hplace
  have hentries := wellFormed_at? htree hfolder
  refine ⟨?_, fun path => ?_, fun name => isExcluded_listing_iff⟩
  · -- sorting gives the order, and equal neighbours are ruled out by what the walk gives
    rw [hfiles]
    refine (List.pairwise_mergeSort Path.le_of_le_of_le Path.le_or_le _).and ?_
    exact ((List.mergeSort_perm ..).pairwise_iff Ne.symm).2
      (pairwise_visitAll entries hstart hentries)
  · rw [hfiles, List.mem_mergeSort, mem_visitAll_iff entries hstart hentries hrules
      (Ignore.silent_layers habove (by simp))]
    simp only [SourceBelow, ← Bool.not_eq_true, isExcluded_patterns_iff]

/-- The root is named from the root of the file system and called like an excluded folder, a folder
inside it is included after all, and another one is excluded by its ending. -/
theorem collectAt_folder_nested :
    let entries : FileTree := [.file "Main.cs" (.text []),
      .folder "bin" [.file "Kept.cs" (.text []), .folder "obj" [.file "Gone.cs" (.text [])]],
      .folder "Form.Designer" []]
    let tree : FileTree :=
      [.folder "home" [.folder ".git" []], .folder "tmp" [.folder "obj" entries]]
    let files := (tree.collectAt ["*.Designer"] ["bin"] "/tmp/obj" ["home"]).files
    tree.wellFormed = true ∧ tree.place? "/tmp/obj" ["home"] = some ["tmp", "obj"] ∧
      tree.isUnruledTo ["tmp", "obj"] = true ∧ entries.isUnruled = true ∧
      files.Pairwise Path.Precedes ∧ "/tmp/obj/Main.cs" ∈ files ∧ "/tmp/obj/bin/Kept.cs" ∈ files ∧
      isExcluded "Form.Designer" (listing ["*.Designer"] true ["bin"]) = true := by
  intro entries tree files
  have htree : tree.wellFormed = true := by decide +kernel
  have hplace : tree.place? "/tmp/obj" ["home"] = some ["tmp", "obj"] := by decide +kernel
  have habove : tree.isUnruledTo ["tmp", "obj"] = true := by decide +kernel
  have hrules : entries.isUnruled = true := by decide +kernel
  have hfolder : tree.at? ["tmp", "obj"] = some (.folder entries) := rfl
  obtain ⟨hsorted, hmem, hlisted⟩ :=
    collectAt_folder htree hplace hfolder habove hrules ["*.Designer"] ["bin"]
  refine ⟨htree, hplace, habove, hrules, hsorted, (hmem _).2 ?_, (hmem _).2 ?_,
    (hlisted _).2 (by decide +kernel)⟩
  · exact ⟨[], "Main.cs", .text [], rfl, by decide +kernel, ⟨"Main", by decide, by decide⟩,
      by decide +kernel⟩
  · exact ⟨["bin"], "Kept.cs", .text [], rfl, by decide +kernel, ⟨"Kept", by decide, by decide⟩,
      by decide +kernel⟩

end FileTree

end EventLint
