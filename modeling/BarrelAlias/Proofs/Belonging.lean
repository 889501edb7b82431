import BarrelAlias.Proofs.Entries
import BarrelAlias.Proofs.Lookalike
import BarrelAlias.Proofs.Sorting

/-!
Which files belong to a project. Without exclude files the walk of a project leaves out by name
alone, so it finds every file that lies below no folder with such a name. Main statement: the files
of a project are those that it lists and those found with the right extension and patterns, in order
and each once.
-/

namespace BarrelAlias

/-! ### Scopes that say nothing -/

namespace Ignore

structure Scope.Silent (s : Scope) : Prop where
  rules : s.rules = []
  gitRules : s.gitRules = []
  excludeRules : s.excludeRules = []

theorem nearest?_of_no_rules {scopes : List Scope} {rules : Scope → List Rule}
    (h : ∀ s ∈ scopes, rules s = []) (isFolder : Bool) (entry : Location) :
    nearest? scopes rules isFolder entry = none := by
  rw [nearest?, List.findSome?_eq_none_iff]
  intro s hs
  simp [verdict?, h s hs]

theorem mem_of_mem_repositoryScopes {scopes : List Scope} {s : Scope}
    (h : s ∈ repositoryScopes scopes) : s ∈ scopes := by
  induction scopes with
  | nil => exact h
  | cons r scopes ih =>
    rw [repositoryScopes] at h
    split at h
    · rw [List.mem_singleton.1 h]
      exact List.mem_cons_self ..
    · exact (List.mem_cons.1 h).elim (fun h => by simp [h]) fun h => by simp [ih h]

/-- Scopes that say nothing leave nothing out. -/
theorem isLeftOut_of_silent {scopes : List Scope} (h : ∀ s ∈ scopes, s.Silent) (isFolder : Bool)
    (entry : Location) : isLeftOut scopes isFolder entry = false := by
  have inside : ∀ s ∈ (if scopes.any (·.isRepository) then repositoryScopes scopes else []),
      s.Silent := by
    intro s hs
    split at hs
    · exact h s (mem_of_mem_repositoryScopes hs)
    · cases hs
  rw [isLeftOut, nearest?_of_no_rules fun s hs => (h s hs).rules,
    nearest?_of_no_rules fun s hs => (inside s hs).gitRules,
    nearest?_of_no_rules fun s hs => (inside s hs).excludeRules]
  rfl

end Ignore

namespace FileTree

variable {t : FileTree}

/-- No repository has a file `info/exclude`, in its folder `.git` or where its file `.git` leads. -/
def NoExcludes (t : FileTree) : Prop :=
  ∀ (folder : Location) (git : Path), Ignore.repositoryFolder? t folder.path = some git →
    ¬ t.isFile (git.join ⟨false, ["info", "exclude"]⟩)

/-- Where every `.git` is a folder, the exclude files stand in them. -/
theorem noExcludes_of_folders
    (folders : ∀ loc : Location, ¬ t.isFile (loc.path.join ⟨false, [".git"]⟩))
    (none : ∀ loc : Location, ¬ t.isFile (loc.path.join ⟨false, [".git", "info", "exclude"]⟩)) :
    t.NoExcludes := by
  intro loc git hgit
  rw [Ignore.repositoryFolder?, if_neg (folders loc)] at hgit
  obtain rfl := Option.some.inj hgit
  have twice : (loc.path.join ⟨false, [".git"]⟩).join ⟨false, ["info", "exclude"]⟩ =
      loc.path.join ⟨false, [".git", "info", "exclude"]⟩ := by
    unfold Path.join
    by_cases hl : loc.path.parts = [] <;> simp [hl]
  rw [twice]
  exact none loc

/-- A file has the name that a path to it ends with. -/
theorem exists_named_of_isFile {p : Path} (hp : p.rooted) (front : List String) {n : String}
    (hn : Path.IsName n) (h : t.isFile (p.join ⟨false, front ++ [n]⟩)) :
    ∃ loc c, t.node? loc = some (.file c) ∧ loc.getLast? = some n := by
  obtain ⟨loc, c, hl, hc⟩ := isFile_iff.1 h
  refine ⟨loc, c, hc, ?_⟩
  have last : Path.stepsOf false [n] = [.name n] := Path.stepsOf_names (by simpa using hn)
  rw [(locate_ok hl).2, Path.steps_join hp rfl, Path.stepsOf_append, last]
  simp [Location.ofSteps, Location.move]

theorem rulesAt_of_not_isFile {p : Path} (h : ¬ t.isFile p) : Ignore.rulesAt t p = ([], []) := by
  unfold Ignore.rulesAt
  split
  · next s hs =>
    obtain ⟨loc, hl, hn⟩ := read_ok hs
    exact absurd (isFile_iff.2 ⟨loc, _, hl, hn⟩) h
  · rfl

/-- The walk of a project looks at exclude files alone. -/
theorem scopeOf_project (h : t.NoExcludes) (isAbove : Bool) (loc : Location) :
    (Ignore.scopeOf t Config.projectWalk.sources isAbove loc).1.Silent ∧
      (Ignore.scopeOf t Config.projectWalk.sources isAbove loc).2 = [] := by
  unfold Ignore.scopeOf
  simp only [Config.projectWalk, Bool.false_eq_true, if_false, if_true]
  cases hgit : Ignore.repositoryFolder? t loc.path with
  | none => exact ⟨⟨rfl, rfl, rfl⟩, rfl⟩
  | some git =>
    have excludes := rulesAt_of_not_isFile (h loc git hgit)
    exact ⟨⟨rfl, rfl, by simp [excludes]⟩, by simp [excludes]⟩

/-! ### What a walk finds -/

/-- Where nothing is left out but by name, the walk finds all files below the folder that no such
name stands before. The places below the folder are at most as many names long as there are nodes,
so the fuel is enough for the longest of them. -/
theorem WellFormed.mem_filesBelow_iff (h : t.WellFormed) {w : Walk}
    (silent : ∀ loc, (Ignore.scopeOf t w.sources false loc).1.Silent) {fuel : Nat}
    {scopes : List Ignore.Scope} {folder found : Location} (hscopes : ∀ s ∈ scopes, s.Silent)
    (hfuel : t.nodes.size < fuel + folder.length) :
    found ∈ t.filesBelow w fuel scopes folder ↔
      ∃ way, found = folder ++ way ∧ way ≠ [] ∧ (∃ c, t.node? found = some (.file c)) ∧
        ∀ n ∈ way, n ∉ w.skipped := by
  induction fuel generalizing scopes folder with
  | zero =>
    constructor
    · intro hm
      simp [filesBelow] at hm
    · rintro ⟨way, rfl, _, ⟨c, hc⟩, _⟩
      have : (folder ++ way).length ≤ t.nodes.size := h.length_le (by simp [hc])
      rw [List.length_append] at this
      omega
  | succ fuel ih =>
    have scopes' : ∀ s ∈ (Ignore.scopeOf t w.sources false folder).1 :: scopes, s.Silent :=
      List.forall_mem_cons.2 ⟨silent folder, hscopes⟩
    have below : ∀ name : String, t.nodes.size < fuel + (folder ++ [name]).length := by
      intro name
      rw [List.length_append, List.length_singleton]
      omega
    rw [filesBelow, List.mem_flatMap]
    simp only [Ignore.isLeftOut_of_silent scopes', Bool.or_false, decide_eq_true_eq]
    constructor
    · rintro ⟨⟨name, node⟩, hchild, hm⟩
      have hnode := h.node?_of_mem_children hchild
      simp only at hm
      split at hm
      · cases hm
      · next hname =>
        cases node with
        | file c =>
          obtain rfl := List.mem_singleton.1 hm
          exact ⟨[name], rfl, by simp, ⟨c, hnode⟩, by simpa using hname⟩
        | folder =>
          obtain ⟨way, rfl, _, hfile, hway⟩ := (ih scopes' (below name)).1 hm
          exact ⟨name :: way, by simp, by simp, hfile, List.forall_mem_cons.2 ⟨hname, hway⟩⟩
    · rintro ⟨way, rfl, hne, ⟨c, hc⟩, hway⟩
      obtain ⟨name, way, rfl⟩ := List.exists_cons_of_ne_nil hne
      obtain ⟨hname, hrest⟩ := List.forall_mem_cons.1 hway
      by_cases hw : way = []
      · subst hw
        exact ⟨(name, .file c), h.mem_children_iff.2 hc, by simp [hname]⟩
      · have split : folder ++ name :: way = (folder ++ [name]) ++ way := by simp
        have placed := (h.placed hc).1
        rw [split] at placed
        have hfolder : t.node? (folder ++ [name]) = some .folder := by
          simpa [hasFolder] using placed.hasFolder_of_append hw
        refine ⟨(name, .folder), h.mem_children_iff.2 hfolder, ?_⟩
        simp only [if_neg hname]
        exact (ih scopes' (below name)).2 ⟨way, split, hw, ⟨c, hc⟩, hrest⟩

/-- The walk of a project finds the files below the folder that lie in no skipped folder. -/
theorem WellFormed.mem_projectWalk_iff (h : t.WellFormed) (noExcludes : t.NoExcludes)
    {folder : Path} {loc : Location} (located : t.locate folder = .ok loc)
    (isFolder : t.hasFolder loc) :
    ∃ ways, t.walk Config.projectWalk folder = .ok ways ∧ ∀ way, way ∈ ways ↔
      way ≠ [] ∧ (∃ c, t.node? (loc ++ way) = some (.file c)) ∧
        ∀ n ∈ way, n ∉ Extension.skippedFolders := by
  have faultless : ((((foldersAbove loc).map
      (Ignore.scopeOf t Config.projectWalk.sources true)).reverse.map (·.2)).flatten).isEmpty := by
    simp [(scopeOf_project noExcludes true _).2]
  have above : ∀ s ∈ ((foldersAbove loc).map
      (Ignore.scopeOf t Config.projectWalk.sources true)).map (·.1), s.Silent := by
    intro s hs
    simp only [List.map_map, List.mem_map, Function.comp_apply] at hs
    obtain ⟨l, _, rfl⟩ := hs
    exact (scopeOf_project noExcludes true l).1
  refine ⟨_, by simp only [walk, located, isFolder, faultless, if_true]; rfl, fun way => ?_⟩
  rw [List.mem_map]
  simp only [h.mem_filesBelow_iff (fun l => (scopeOf_project noExcludes false l).1) above
    (show t.nodes.size < t.nodes.size + 1 + loc.length by omega)]
  constructor
  · rintro ⟨_, ⟨way, rfl, found⟩, rfl⟩
    rw [Ignore.wayFrom, List.drop_left]
    exact found
  · intro found
    exact ⟨loc ++ way, ⟨way, rfl, found⟩, by rw [Ignore.wayFrom, List.drop_left]⟩

end FileTree

/-! ### What belongs to a project -/

namespace Config

open BarrelAlias.Path (IsName)

namespace ProjectConfig

/-- Whether the include patterns name the way; if none are given, all ways are included, or none if
files are given. -/
def Includes (c : ProjectConfig) (includes : List Glob.Pattern) (way : List String) : Prop :=
  match c.includes with
  | some _ => anyMatches includes way = true
  | none => c.files = none

/-- A file is found if it lies below the folder and in no skipped one, has the extension of a script
and is included, but not excluded. -/
structure Finds (c : ProjectConfig) (t : FileTree) (folder : Path) (loc : Location)
    (includes excludes : List Glob.Pattern) (way : List String) : Prop where
  below : way ≠ []
  isFile : ∃ content, t.node? (loc ++ way) = some (.file content)
  entered : ∀ n ∈ way, n ∉ Extension.skippedFolders
  isScript : FileTree.hasExtension Extension.scripts (folder.join ⟨false, way⟩) = true
  included : c.Includes includes way
  notExcluded : anyMatches excludes way = false

/-- A path belongs to the project if it is listed and a file, or found. -/
def Owns (c : ProjectConfig) (t : FileTree) (folder : Path) (loc : Location)
    (includes excludes : List Glob.Pattern) (p : Path) : Prop :=
  (∃ f ∈ c.files.getD [], p = folder.join (Path.ofText f) ∧ t.isFile p = true) ∨
    ∃ way, p = folder.join ⟨false, way⟩ ∧ c.Finds t folder loc includes excludes way

/-- The include patterns compile if those that are given do, and name what is included. -/
theorem compile_includeEntries {c : ProjectConfig} {includes : List Glob.Pattern}
    (h : compileAll (c.includes.getD []) = .ok includes) :
    ∃ ps, compileAll c.includeEntries = .ok ps ∧
      ∀ way, anyMatches ps way = true ↔ c.Includes includes way := by
  unfold includeEntries Includes
  cases hi : c.includes with
  | some entries =>
    rw [hi] at h
    exact ⟨includes, h, fun way => Iff.rfl⟩
  | none =>
    cases hf : c.files with
    | some files => exact ⟨[], rfl, fun way => by simp [anyMatches]⟩
    | none =>
      refine ⟨[⟨[.anyFolders, .anySequence]⟩], rfl, fun way => ?_⟩
      simp [anyMatches, Glob.Pattern.matches, Glob.accepts_everything]

/-- The ways that a project keeps of those that a walk finds. -/
theorem mem_kept_iff {c : ProjectConfig} {t : FileTree} {folder : Path} {loc : Location}
    {includes excludes ps : List Glob.Pattern} {ways : List (List String)}
    (included : ∀ way, anyMatches ps way = true ↔ c.Includes includes way)
    (found : ∀ way, way ∈ ways ↔
      way ≠ [] ∧ (∃ content, t.node? (loc ++ way) = some (.file content)) ∧
        ∀ n ∈ way, n ∉ Extension.skippedFolders) (way : List String) :
    way ∈ ways.filter (fun way =>
        FileTree.hasExtension Extension.scripts (FileTree.wayPath folder way)
          && anyMatches ps way && !anyMatches excludes way) ↔
      c.Finds t folder loc includes excludes way := by
  rw [List.mem_filter, found]
  constructor
  · rintro ⟨⟨below, isFile, entered⟩, kept⟩
    simp only [FileTree.wayPath, List.isEmpty_iff, below, if_false, Bool.and_eq_true,
      Bool.not_eq_true'] at kept
    exact ⟨below, isFile, entered, kept.1.1, (included way).1 kept.1.2, kept.2⟩
  · intro finds
    refine ⟨⟨finds.below, finds.isFile, finds.entered⟩, ?_⟩
    simp [FileTree.wayPath, finds.below, finds.isScript, (included way).2 finds.included,
      finds.notExcluded]

/-- For every configuration whose patterns compile, the files of the project in a folder are exactly
the paths that belong to it, in strict order; of several spellings of a path one stands for all. -/
theorem projectFiles_owned {t : FileTree} (h : t.WellFormed) (noExcludes : t.NoExcludes)
    {c : ProjectConfig} {folder : Path} {loc : Location} (located : t.locate folder = .ok loc)
    (isFolder : t.hasFolder loc) {includes excludes : List Glob.Pattern}
    (hin : compileAll (c.includes.getD []) = .ok includes)
    (hout : compileAll (c.excludes.getD []) = .ok excludes) :
    ∃ files, c.projectFiles t folder = .ok files ∧ files.Pairwise Path.Before ∧
      (∀ p ∈ files, c.Owns t folder loc includes excludes p) ∧
      ∀ p, c.Owns t folder loc includes excludes p → ∃ q ∈ files, q.same p := by
  obtain ⟨ps, hps, included⟩ := compile_includeEntries hin
  obtain ⟨ways, hways, found⟩ := h.mem_projectWalk_iff noExcludes located isFolder
  let listed := ((c.files.getD []).map fun f => folder.join (Path.ofText f)).filter t.isFile
  let kept := ways.filter fun way =>
    FileTree.hasExtension Extension.scripts (FileTree.wayPath folder way)
      && anyMatches ps way && !anyMatches excludes way
  have owned : ∀ p, p ∈ listed ++ kept.map (FileTree.wayPath folder) ↔
      c.Owns t folder loc includes excludes p := by
    intro p
    rw [List.mem_append, List.mem_map]
    refine or_congr ?_ (exists_congr fun way => ?_)
    · simp only [listed, List.mem_filter, List.mem_map]
      constructor
      · rintro ⟨⟨f, hf, rfl⟩, isFile⟩
        exact ⟨f, hf, rfl, isFile⟩
      · rintro ⟨f, hf, rfl, isFile⟩
        exact ⟨⟨f, hf, rfl⟩, isFile⟩
    · rw [mem_kept_iff included found, and_comm]
      refine and_congr_left fun finds => ?_
      rw [FileTree.wayPath, if_neg (by simpa using finds.below)]
      exact eq_comm
  refine ⟨Glob.sortPaths (listed ++ kept.map (FileTree.wayPath folder)), ?_,
    Glob.sortPaths_before _, fun p hp => (owned p).1 (Glob.mem_of_mem_sortPaths hp), fun p hp => ?_⟩
  · simp only [projectFiles, hps, hout, hways, listed, kept]
    rfl
  · obtain ⟨q, hq, same⟩ := Glob.exists_mem_sortPaths ((owned p).2 hp)
    exact ⟨q, hq, by simp [Path.same, same]⟩

/-- A project in a repository, with a listed note, two scripts and a module of someone else. -/
def notedProject : FileTree := ⟨⟨[
  (["p"], .folder), (["p", ".git"], .folder), (["p", "a.ts"], .file (.text "")),
  (["p", "b.ts"], .file (.text "")), (["p", "notes.md"], .file (.text "")),
  (["p", "node_modules"], .folder), (["p", "node_modules", "c.ts"], .file (.text ""))]⟩⟩

/-- It lists the note and one script, includes all that lies at the top and excludes the other
script. -/
def notedConfig : ProjectConfig := ⟨none, some ["./notes.md", "a.ts"], some ["*"], some ["b.?s"]⟩

theorem notedProject_wellFormed : notedProject.WellFormed := FileTree.wellFormed_of_check (by decide)

theorem notedProject_noExcludes : notedProject.NoExcludes := by
  have named : ∀ loc c, notedProject.node? loc = some (.file c) →
      loc.getLast? ≠ some ".git" ∧ loc.getLast? ≠ some "exclude" := by
    intro loc c hc
    have entries : ∀ e ∈ notedProject.nodes.entries, e.2 ≠ .folder →
        e.1.getLast? ≠ some ".git" ∧ e.1.getLast? ≠ some "exclude" := by decide
    have hne : loc ≠ [] := by
      rintro rfl
      cases hc
    rw [FileTree.node?, if_neg hne] at hc
    have hmem := (Table.mem_entries_iff notedProject.nodes notedProject_wellFormed.nodup _ _).2 hc
    exact entries _ hmem (by simp)
  refine FileTree.noExcludes_of_folders (fun loc hgit => ?_) fun loc hexclude => ?_
  · obtain ⟨l, c, hc, hlast⟩ :=
      FileTree.exists_named_of_isFile rfl [] (by simp [IsName]) hgit
    exact (named l c hc).1 hlast
  · obtain ⟨l, c, hc, hlast⟩ :=
      FileTree.exists_named_of_isFile rfl [".git", "info"] (by simp [IsName]) hexclude
    exact (named l c hc).2 hlast

theorem notedProject_owned :
    notedProject.WellFormed ∧ notedProject.NoExcludes ∧
      notedProject.locate ⟨true, ["p"]⟩ = .ok ["p"] ∧ notedProject.hasFolder ["p"] ∧
      compileAll (notedConfig.includes.getD []) = .ok [⟨[.anySequence]⟩] ∧
      compileAll (notedConfig.excludes.getD []) =
        .ok [⟨[.char 'b', .char '.', .anyChar, .char 's']⟩] ∧
      ∃ files, notedConfig.projectFiles notedProject ⟨true, ["p"]⟩ = .ok files ∧
        files.Pairwise Path.Before ∧
        (∀ p ∈ files, notedConfig.Owns notedProject ⟨true, ["p"]⟩ ["p"] [⟨[.anySequence]⟩]
          [⟨[.char 'b', .char '.', .anyChar, .char 's']⟩] p) ∧
        ∀ p, notedConfig.Owns notedProject ⟨true, ["p"]⟩ ["p"] [⟨[.anySequence]⟩]
          [⟨[.char 'b', .char '.', .anyChar, .char 's']⟩] p → ∃ q ∈ files, q.same p := by
  have located : notedProject.locate ⟨true, ["p"]⟩ = .ok ["p"] := by decide
  have isFolder : notedProject.hasFolder ["p"] := by decide
  have included : compileAll (notedConfig.includes.getD []) = .ok [⟨[.anySequence]⟩] := rfl
  have excluded : compileAll (notedConfig.excludes.getD []) =
      .ok [⟨[.char 'b', .char '.', .anyChar, .char 's']⟩] := rfl
  exact ⟨notedProject_wellFormed, notedProject_noExcludes, located, isFolder, included, excluded,
    projectFiles_owned notedProject_wellFormed notedProject_noExcludes located isFolder included
      excluded⟩

end ProjectConfig

end Config

end BarrelAlias
