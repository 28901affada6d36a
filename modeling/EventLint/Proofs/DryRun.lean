import EventLint.Discovery
import EventLint.Fix.Files
import EventLint.Proofs.Changes
import EventLint.Proofs.Files

/-!
# Dry runs

Files are read, fixed, reported and written one after the other. Main statement: if the files are
different ones, a run does to each of them what it does to that file alone, and a dry run writes
nothing and reports the same.
-/

namespace EventLint

namespace FileTree

section

variable {tree tree' : FileTree} {working : List String} {file : String}

theorem readText_eq_ok {text : Text} :
    tree.readText file working = .ok text ↔ tree.read? file working = some (.text text) := by
  unfold readText
  rcases tree.read? file working with _ | (t | bytes) <;> simp

theorem readText_congr (h : tree'.read? file working = tree.read? file working) :
    tree'.readText file working = tree.readText file working := by
  rw [readText, readText, h]

end

/-- No two of these paths lead to the same file. -/
def Distinct (tree : FileTree) (working files : List String) : Prop :=
  files.Pairwise fun f g =>
    tree.isFile f working = true → tree.place? f working ≠ tree.place? g working

end FileTree

/-! ## 1. The report -/

section

variable (settings : Settings) (kind : FixKind) (working : List String)

namespace FixReport

/-- Adds what happens to one file of the tree. -/
def note (tree : FileTree) (r : FixReport) (file : String) : FixReport :=
  match tree.readText file working with
  | .error e => r.addError file e
  | .ok text => r.add file (fixText settings file kind text)

/-- The readable files of the tree with their outcomes. -/
def outcomes (tree : FileTree) (files : List String) : List (String × FixOutcome) :=
  files.filterMap fun f =>
    (tree.readText f working).toOption.map fun text => (f, fixText settings f kind text)

/-- The files of the tree that cannot be read. -/
def unreadable (tree : FileTree) (files : List String) : List FileError :=
  files.filterMap fun f =>
    match tree.readText f working with
    | .error e => some ⟨f, e.message⟩
    | .ok _ => none

/-- The report on files that are all read from one tree: each file adds its own fixes or its own
error. -/
def ofFiles (tree : FileTree) (files : List String) : FixReport where
  applied := (outcomes settings kind working tree files).flatMap (·.2.applied)
  skipped := (outcomes settings kind working tree files).flatMap (·.2.skipped)
  filesChanged :=
    ((outcomes settings kind working tree files).filter fun o => !o.2.applied.isEmpty).map (·.1)
  fileErrors := unreadable working tree files

variable {settings kind working}

theorem outcomes_cons_of_error {tree : FileTree} {f : String} {e : ReadError}
    (h : tree.readText f working = .error e) (files : List String) :
    outcomes settings kind working tree (f :: files) = outcomes settings kind working tree files ∧
      unreadable working tree (f :: files) = ⟨f, e.message⟩ :: unreadable working tree files := by
  simp [outcomes, unreadable, h, Except.toOption]

theorem outcomes_cons_of_ok {tree : FileTree} {f : String} {text : Text}
    (h : tree.readText f working = .ok text) (files : List String) :
    outcomes settings kind working tree (f :: files) =
        (f, fixText settings f kind text) :: outcomes settings kind working tree files ∧
      unreadable working tree (f :: files) = unreadable working tree files := by
  simp [outcomes, unreadable, h, Except.toOption]

/-- Noting files one after the other gives the report on all of them. -/
theorem foldl_note (tree : FileTree) (files : List String) (r : FixReport) :
    files.foldl (note settings kind working tree) r =
      { applied := r.applied ++ (ofFiles settings kind working tree files).applied
        skipped := r.skipped ++ (ofFiles settings kind working tree files).skipped
        filesChanged := r.filesChanged ++ (ofFiles settings kind working tree files).filesChanged
        fileErrors := r.fileErrors ++ (ofFiles settings kind working tree files).fileErrors
        dryRun := r.dryRun } := by
  induction files generalizing r with
  | nil => simp [ofFiles, outcomes, unreadable]
  | cons f files ih =>
    rw [List.foldl_cons, ih]
    cases hread : tree.readText f working with
    | error e =>
      obtain ⟨ho, hu⟩ := @outcomes_cons_of_error settings kind working tree f e hread files
      simp [note, hread, addError, ofFiles, ho, hu]
    | ok text =>
      obtain ⟨ho, hu⟩ := @outcomes_cons_of_ok settings kind working tree f text hread files
      cases happlied : (fixText settings f kind text).applied <;>
        simp [note, hread, add, happlied, ofFiles, ho, hu]

theorem mem_filesChanged {tree : FileTree} {files : List String} {f : String} :
    f ∈ (ofFiles settings kind working tree files).filesChanged ↔
      f ∈ files ∧ ∃ text, tree.readText f working = .ok text ∧
        (fixText settings f kind text).applied ≠ [] := by
  simp only [ofFiles, outcomes, List.mem_map, List.mem_filter, List.mem_filterMap,
    Option.map_eq_some_iff, Bool.not_eq_true', List.isEmpty_eq_false_iff]
  constructor
  · rintro ⟨o, ⟨⟨g, hg, text, htext, rfl⟩, happlied⟩, rfl⟩
    refine ⟨hg, text, ?_, happlied⟩
    cases hread : tree.readText g working with
    | error e => rw [hread] at htext; cases htext
    | ok t => rw [hread] at htext; rw [Option.some.inj htext]
  · rintro ⟨hf, text, hread, happlied⟩
    exact ⟨_, ⟨⟨f, hf, text, by rw [hread]; rfl, rfl⟩, happlied⟩, rfl⟩

end FixReport

/-! ## 2. The files -/

variable {settings kind working}

/-- What was done to files of the tree: every path leads where it led, each readable file holds its
fixed text, and all other files hold what they held. -/
structure Fixed (settings : Settings) (kind : FixKind) (working files : List String)
    (tree after : FileTree) : Prop where
  place : ∀ p, after.place? p working = tree.place? p working
  text : ∀ f ∈ files, ∀ text, tree.readText f working = .ok text →
    after.readText f working = .ok (fixText settings f kind text).text
  others : ∀ p, (∀ f ∈ files, ∀ text, tree.readText f working = .ok text →
    tree.place? p working ≠ tree.place? f working) → after.read? p working = tree.read? p working

theorem fixFile_report (r : FixReport) (tree : FileTree) (f : String) :
    (fixFile settings kind working (r, tree) f).1 = r.note settings kind working tree f := by
  rw [fixFile, FixReport.note]
  cases tree.readText f working <;> rfl

theorem fixFile_dry {r : FixReport} (hdry : r.dryRun = true) (tree : FileTree) (f : String) :
    (fixFile settings kind working (r, tree) f).2 = tree := by
  rw [fixFile]
  cases tree.readText f working with
  | error e => rfl
  | ok text => simp [hdry]

/-- One file is fixed and no other changes. -/
theorem fixed_fixFile {r : FixReport} (hreal : r.dryRun = false) (tree : FileTree) (f : String) :
    Fixed settings kind working [f] tree (fixFile settings kind working (r, tree) f).2 := by
  rw [fixFile]
  cases hread : tree.readText f working with
  | error e =>
    refine ⟨fun _ => rfl, fun g hg text htext => ?_, fun _ _ => rfl⟩
    rw [List.mem_singleton.1 hg, hread] at htext
    cases htext
  | ok text =>
    have hold := FileTree.readText_eq_ok.1 hread
    dsimp only
    rw [hreal, Bool.or_false]
    by_cases happlied : (fixText settings f kind text).applied = []
    · -- nothing was applied, so the text is as it was and need not be written
      rw [if_pos (by rw [happlied]; rfl)]
      refine ⟨fun _ => rfl, fun g hg t ht => ?_, fun _ _ => rfl⟩
      obtain rfl := List.mem_singleton.1 hg
      obtain rfl := Except.ok.inj (hread.symm.trans ht)
      rw [hread, (fixText_text_eq_iff settings g kind text).2 happlied]
    · rw [if_neg (by simpa using happlied)]
      refine ⟨FileTree.place?_replace hold _, fun g hg t ht => ?_, fun p hp => ?_⟩
      · obtain rfl := List.mem_singleton.1 hg
        obtain rfl := Except.ok.inj (hread.symm.trans ht)
        rw [FileTree.readText_eq_ok, FileTree.read?_replace hold, if_pos rfl]
      · rw [FileTree.read?_replace hold, if_neg (hp f (List.mem_singleton_self f) text hread)]

theorem dryRun_note (tree : FileTree) (r : FixReport) (f : String) :
    (r.note settings kind working tree f).dryRun = r.dryRun := by
  rw [FixReport.note]
  cases tree.readText f working with
  | error e => rfl
  | ok text =>
    dsimp only [FixReport.add]
    split <;> rfl

/-- A dry run leaves the tree and notes what it sees in it. -/
theorem foldl_fixFile_dry {r : FixReport} (hdry : r.dryRun = true) (tree : FileTree)
    (files : List String) :
    files.foldl (fixFile settings kind working) (r, tree) =
      (files.foldl (FixReport.note settings kind working tree) r, tree) := by
  induction files generalizing r with
  | nil => rfl
  | cons f files ih =>
    have hstep : fixFile settings kind working (r, tree) f =
        (r.note settings kind working tree f, tree) :=
      Prod.ext (fixFile_report r tree f) (fixFile_dry hdry tree f)
    rw [List.foldl_cons, List.foldl_cons, hstep, ih (by rw [dryRun_note, hdry])]

/-- A run fixes different files as if each were alone, and notes what a dry run notes. -/
theorem foldl_fixFile_real {r : FixReport} (hreal : r.dryRun = false) {tree : FileTree}
    {files : List String} (hdistinct : tree.Distinct working files) :
    (files.foldl (fixFile settings kind working) (r, tree)).1 =
        files.foldl (FixReport.note settings kind working tree) r ∧
      Fixed settings kind working files tree
        (files.foldl (fixFile settings kind working) (r, tree)).2 := by
  induction files generalizing r tree with
  | nil => exact ⟨rfl, fun _ => rfl, fun f hf => absurd hf List.not_mem_nil, fun _ _ => rfl⟩
  | cons f files ih =>
    obtain ⟨hfirst, hmore⟩ := List.pairwise_cons.1 hdistinct
    have hstep : Fixed settings kind working [f] tree _ := fixed_fixFile hreal tree f
    have hreport : _ = r.note settings kind working tree f := fixFile_report r tree f
    rw [List.foldl_cons, List.foldl_cons, ← hreport]
    generalize fixFile settings kind working (r, tree) f = state at hstep hreport
    obtain ⟨r', tree'⟩ := state
    -- the files still to come are as they were
    have hread : ∀ g ∈ files, tree'.read? g working = tree.read? g working := by
      refine fun g hg => hstep.others g fun e he text htext => ?_
      rw [List.mem_singleton.1 he] at htext ⊢
      refine (hfirst g hg ?_).symm
      rw [FileTree.isFile, FileTree.readText_eq_ok.1 htext]
      rfl
    have hreadText : ∀ g ∈ files, tree'.readText g working = tree.readText g working := fun g hg =>
      FileTree.readText_congr (hread g hg)
    have hdistinct' : tree'.Distinct working files := by
      refine (List.Pairwise.and_mem.1 hmore).imp fun {g h} hgh hfile => ?_
      rw [hstep.place, hstep.place]
      refine hgh.2.2 ?_
      rwa [FileTree.isFile, ← hread g hgh.1]
    have hreal' : r'.dryRun = false := by
      rw [show r' = r.note settings kind working tree f from hreport, dryRun_note, hreal]
    obtain ⟨hnotes, hrest⟩ := ih hreal' hdistinct'
    refine ⟨?_, ?_, ?_, ?_⟩
    · rw [hnotes]
      refine List.foldl_ext _ _ _ fun q g hg => ?_
      rw [FixReport.note, FixReport.note, hreadText g hg]
    · exact fun p => (hrest.place p).trans (hstep.place p)
    · intro g hg text htext
      rcases List.mem_cons.1 hg with rfl | hg
      · have hdone := hstep.text g (List.mem_singleton_self g) text htext
        rw [← hdone]
        refine FileTree.readText_congr (hrest.others g fun h hh t ht => ?_)
        rw [hstep.place, hstep.place]
        refine hfirst h hh ?_
        rw [FileTree.isFile, FileTree.readText_eq_ok.1 htext]
        rfl
      · exact hrest.text g hg text (by rw [hreadText g hg, htext])
    · intro p hp
      rw [hrest.others p fun g hg text htext => ?_]
      · refine hstep.others p fun g hg => hp g ?_
        rw [List.mem_singleton.1 hg]
        exact List.mem_cons_self
      · rw [hstep.place, hstep.place]
        rw [hreadText g hg] at htext
        exact hp g (List.mem_cons_of_mem f hg) text htext

/-! ## 3. Runs on the files that were collected -/

/-- A dry run changes nothing and reports what a run reports. A run leaves each readable file with
its fixed text and every other file as it was, reports each unreadable file once, and lists the
files that it changed. -/
theorem fixFiles_collect (settings : Settings) (kind : FixKind) (tree : FileTree)
    (working exclude included roots : List String)
    (hdistinct : tree.Distinct working (tree.collect exclude included roots working)) :
    let files := tree.collect exclude included roots working
    let dry := fixFiles settings kind true tree working files
    let real := fixFiles settings kind false tree working files
    dry.2 = tree ∧ dry.1 = { real.1 with dryRun := true } ∧
      real.1 = .ofFiles settings kind working tree files ∧
      (∀ f ∈ files, ∀ text, tree.readText f working = .ok text →
        real.2.readText f working = .ok (fixText settings f kind text).text) ∧
      (∀ p, (∀ f ∈ files, ∀ text, tree.readText f working = .ok text →
          tree.place? p working ≠ tree.place? f working) →
        real.2.read? p working = tree.read? p working) ∧
      ∀ f, f ∈ real.1.filesChanged ↔
        f ∈ files ∧ real.2.read? f working ≠ tree.read? f working := by
  intro files dry real
  have hdry : dry = _ := foldl_fixFile_dry rfl tree files
  obtain ⟨hnotes, hfixed⟩ :=
    @foldl_fixFile_real settings kind working { dryRun := false } rfl tree files hdistinct
  have hreport : real.1 = .ofFiles settings kind working tree files := by
    rw [show real.1 = _ from hnotes, FixReport.foldl_note]
    rfl
  refine ⟨by rw [hdry], ?_, hreport, hfixed.text, hfixed.others, fun f => ?_⟩
  · rw [hdry, hreport, FixReport.foldl_note]
    rfl
  · rw [hreport, FixReport.mem_filesChanged]
    refine and_congr_right fun hf => ?_
    cases hread : tree.readText f working with
    | ok text =>
      have hafter := FileTree.readText_eq_ok.1 (hfixed.text f hf text hread)
      rw [show real.2.read? f working = _ from hafter, FileTree.readText_eq_ok.1 hread]
      simp [fixText_text_eq_iff]
    | error e =>
      -- no readable file is at the place of an unreadable one
      have hsame : real.2.read? f working = tree.read? f working := by
        refine hfixed.others f fun g _ text htext hplace => ?_
        have hg := FileTree.readText_eq_ok.1 htext
        rw [FileTree.read?_eq, ← hplace, ← FileTree.read?_eq] at hg
        rw [FileTree.readText_eq_ok.2 hg] at hread
        cases hread
      simp [hsame]

/-- One file is named from the root and one from the working folder. -/
theorem fixFiles_collect_pair :
    let tree : FileTree := [.folder "tmp"
      [.file "A.cs" (.text "class C \x7b virtual event A<B> X; \x7d".toList),
        .file "B.cs" (.bytes [255])]]
    let files := tree.collect [] [] ["/tmp/A.cs", "B.cs"] ["tmp"]
    let real := fixFiles {} .removeModifier false tree ["tmp"] files
    tree.Distinct ["tmp"] files ∧
      (fixFiles {} .removeModifier true tree ["tmp"] files).2 = tree ∧
      real.2.readText "/tmp/A.cs" ["tmp"] = .ok "class C \x7b event A<B> X; \x7d".toList ∧
      real.1.filesChanged = ["/tmp/A.cs"] ∧ real.1.fileErrors.length = 1 := by
  intro tree files real
  have hfiles : tree.collect [] [] ["/tmp/A.cs", "B.cs"] ["tmp"] = ["/tmp/A.cs", "B.cs"] := by
    show Path.dropRepeats (["/tmp/A.cs", "B.cs"].mergeSort Path.le) = _
    rw [List.mergeSort_of_pairwise (by decide +kernel)]
    decide +kernel
  have hdistinct : tree.Distinct ["tmp"] files := by
    rw [show files = _ from hfiles, FileTree.Distinct]
    decide +kernel
  obtain ⟨hdry, -, hreport, htext, -, -⟩ := fixFiles_collect {} .removeModifier tree ["tmp"] [] []
    ["/tmp/A.cs", "B.cs"] hdistinct
  have hread : tree.readText "/tmp/A.cs" ["tmp"] =
      .ok "class C \x7b virtual event A<B> X; \x7d".toList := by
    decide +kernel
  refine ⟨hdistinct, hdry, ?_, ?_, ?_⟩
  · rw [show real.2.readText "/tmp/A.cs" ["tmp"] = _ from
      htext "/tmp/A.cs" (by rw [hfiles]; decide) _ hread]
    decide +kernel
  · rw [show real.1 = _ from hreport, hfiles]
    decide +kernel
  · rw [show real.1 = _ from hreport, hfiles]
    decide +kernel

end

end EventLint
