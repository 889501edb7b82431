import BarrelAlias.Proofs.Lookalike

/-!
Which files are chosen for a barrel. The choice looks at names and at the files that say what to leave
out, and at nothing else: in trees that look alike, and in which these files read the same, the same
files are chosen, in the same order.
-/

namespace BarrelAlias

open BarrelAlias.Path (IsName)

namespace FileTree

variable {t t' : FileTree} {new : Location → Prop}

/-- What stands at the end of a path is the same in both trees if it is the same at its place. -/
theorem Lookalike.nodeAt?_eq (h : t.Lookalike t' new)
    (hnew : ∀ loc, new loc → t'.node? loc ≠ t.node? loc) {p : Path}
    (hp : ∀ loc, t.locate p = .ok loc ∨ t'.locate p = .ok loc → t'.node? loc = t.node? loc) :
    t'.nodeAt? p = t.nodeAt? p := by
  have hkept : ∀ loc, t.locate p = .ok loc ∨ t'.locate p = .ok loc → ¬ new loc :=
    fun loc hl hn => hnew loc hn (hp loc hl)
  unfold nodeAt?
  cases hl : t.locate p with
  | ok loc => simp [h.locate hl (hkept loc (.inl hl)), hp loc (.inl hl), Except.toOption]
  | error e =>
    cases hl' : t'.locate p with
    | error e' => rfl
    | ok loc =>
      have := h.symm.locate hl' (hkept loc (.inr hl'))
      simp [hl] at this

/-- What is read at the end of a path is settled by what stands there. -/
theorem read_toOption_congr {p : Path} (h : t'.nodeAt? p = t.nodeAt? p) :
    (t'.read p).toOption = (t.read p).toOption := by
  have hread (t : FileTree) (s : String) :
      (t.read p).toOption = some s ↔ t.nodeAt? p = some (.file (.text s)) := by
    unfold read nodeAt?
    cases t.locate p with
    | error e => simp [Except.toOption, bind, Except.bind]
    | ok loc =>
      simp only [Except.toOption, Option.bind_some, bind, Except.bind]
      cases t.node? loc with
      | none => simp [throw, throwThe, MonadExceptOf.throw]
      | some node =>
        cases node with
        | folder => simp [throw, throwThe, MonadExceptOf.throw]
        | file c => cases c <;> simp [pure, Except.pure, throw, throwThe, MonadExceptOf.throw]
  exact Option.ext fun s => by rw [hread, hread, h]

end FileTree

namespace Ignore

/-- The paths that are looked at for what to leave out below a folder: its ignore files, its `.git`, and
what that leads to. -/
inductive Controls (t : FileTree) (folder : Path) : Path → Prop
  | ignoreFile : Controls t folder (folder.join ⟨false, [".ignore"]⟩)
  | gitIgnore : Controls t folder (folder.join ⟨false, [".gitignore"]⟩)
  | git : Controls t folder (folder.join ⟨false, [".git"]⟩)
  | commonDir {line target : String} : t.read (folder.join ⟨false, [".git"]⟩) = .ok line →
      Text.afterHead? "gitdir: " (firstLine line) = some target →
      Controls t folder ((Path.ofText target).join ⟨false, ["commondir"]⟩)
  | exclude {git : Path} : repositoryFolder? t folder = some git →
      Controls t folder (git.join ⟨false, ["info", "exclude"]⟩)

structure SameControls (t t' : FileTree) : Prop where
  files : ∀ (folder : Location) p, Controls t folder.path p → t'.nodeAt? p = t.nodeAt? p
  marks : ∀ folder : Location, (t'.nodeAt? (folder.path.join ⟨false, [".jj"]⟩)).isSome =
    (t.nodeAt? (folder.path.join ⟨false, [".jj"]⟩)).isSome

variable {t t' : FileTree}

theorem rulesAt_congr {p : Path} (h : t'.nodeAt? p = t.nodeAt? p) : rulesAt t' p = rulesAt t p := by
  have hread := FileTree.read_toOption_congr h
  unfold rulesAt
  cases ht : t.read p <;> cases ht' : t'.read p <;> simp_all [Except.toOption]

theorem repositoryFolder?_congr {folder : Path}
    (h : ∀ p, Controls t folder p → t'.nodeAt? p = t.nodeAt? p) :
    repositoryFolder? t' folder = repositoryFolder? t folder := by
  have hgit := h _ .git
  have hfile : t'.isFile (folder.join ⟨false, [".git"]⟩) =
      t.isFile (folder.join ⟨false, [".git"]⟩) := by
    rw [FileTree.isFile, FileTree.isFile, hgit]
  unfold repositoryFolder?
  simp only [hfile, FileTree.read_toOption_congr hgit]
  cases hline : t.read (folder.join ⟨false, [".git"]⟩) with
  | error e => rfl
  | ok line =>
    cases htarget : Text.afterHead? "gitdir: " (firstLine line) with
    | none => simp [Except.toOption, htarget]
    | some target =>
      have hcommon := FileTree.read_toOption_congr (h _ (.commonDir hline htarget))
      simp only [Except.toOption, htarget, Option.bind_eq_bind, Option.bind_some] at hcommon ⊢
      rw [hcommon]

theorem scopeOf_congr (h : SameControls t t') : scopeOf t' = scopeOf t := by
  funext src isAbove loc
  have hcontrols := h.files loc
  have hrules := rulesAt_congr (hcontrols _ .ignoreFile)
  have hgitRules := rulesAt_congr (hcontrols _ .gitIgnore)
  have hexclude : ∀ git, repositoryFolder? t loc.path = some git →
      rulesAt t' (git.join ⟨false, ["info", "exclude"]⟩) =
        rulesAt t (git.join ⟨false, ["info", "exclude"]⟩) :=
    fun git hgit => rulesAt_congr (hcontrols _ (.exclude hgit))
  unfold scopeOf
  simp only [hrules, hgitRules, repositoryFolder?_congr hcontrols, hcontrols _ .git, h.marks loc]
  cases hgit : repositoryFolder? t loc.path with
  | none => rfl
  | some git => simp only [hexclude git hgit]

end Ignore

/-- A file that is the same at its place reads the same under any spelling of its path. -/
theorem FileTree.Lookalike.readModule_eq {t t' : FileTree} {new : Location → Prop}
    (h : t.Lookalike t' new) (hnew : ∀ loc, new loc → t'.node? loc ≠ t.node? loc) {q : Path}
    {loc : Location} (hp : t.Placed loc) (hq : q.steps = loc.path.steps)
    (hsame : t'.node? loc = t.node? loc) : Linkage.readModule t' q = Linkage.readModule t q := by
  have hplace : ∀ {t : FileTree} {l : Location}, t.locate q = .ok l → l = loc := by
    intro t₁ l hl
    rw [(locate_ok hl).2, hq, ← (locate_ok hp.locate_path).2]
  have hread := read_toOption_congr <| h.nodeAt?_eq hnew (p := q) <| by
    rintro l (hl | hl)
    · rw [hplace hl]
      exact hsame
    · rw [hplace hl]
      exact hsame
  unfold Linkage.readModule
  cases hr : t.read q <;> cases hr' : t'.read q <;> simp_all [Except.toOption]

namespace FileTree

variable {t t' : FileTree} {new : Location → Prop}

/-- What a walk finds in one tree it finds in the other one. -/
theorem Lookalike.mem_filesBelow (h : t.Lookalike t' new) (ht : t.WellFormed) (ht' : t'.WellFormed)
    (hscope : Ignore.scopeOf t' = Ignore.scopeOf t) {w : Walk} {fuel fuel' : Nat}
    {scopes : List Ignore.Scope} {folder loc : Location}
    (hm : loc ∈ t.filesBelow w fuel scopes folder) (hn : ¬ new loc)
    (hfuel : t'.nodes.size < folder.length + fuel') : loc ∈ t'.filesBelow w fuel' scopes folder := by
  induction fuel generalizing fuel' scopes folder with
  | zero => simp [filesBelow] at hm
  | succ fuel ih =>
    rw [filesBelow] at hm
    obtain ⟨⟨name, node⟩, hchild, hm⟩ := List.mem_flatMap.mp hm
    have hnode := ht.mem_children_iff.mp hchild
    have hfolder : t'.hasFolder folder := by
      rw [h.folders]
      exact (ht.child hchild).1
    have hle := ht'.length_le (isSome_of_hasFolder hfolder)
    obtain ⟨fuel', rfl⟩ : ∃ n, fuel' = n + 1 := ⟨fuel' - 1, by omega⟩
    simp only at hm
    split at hm
    · cases hm
    · next hkept =>
      have hstays : ¬ new (folder ++ [name]) := by
        cases node with
        | file c =>
          cases List.mem_singleton.mp hm
          exact hn
        | folder => exact h.not_new (by simp [hasFolder, hnode])
      obtain ⟨node', hchild', hsame⟩ := h.exists_child ht ht' hchild hstays
      rw [filesBelow]
      refine List.mem_flatMap.mpr ⟨(name, node'), hchild', ?_⟩
      simp only [hscope, hsame]
      rw [if_neg hkept]
      cases node with
      | file c =>
        cases node' with
        | file c' => exact hm
        | folder => exact absurd (hsame.mp rfl) (by simp)
      | folder =>
        cases hsame.mpr rfl
        refine ih hm ?_
        rw [List.length_append, List.length_singleton]
        omega

/-- What a walk from a place finds is named by its path without detours. -/
theorem WellFormed.wayPath_of_mem (h : t.WellFormed) {folder loc : Location} (hp : t.Placed folder)
    {w : Walk} {fuel : Nat} {scopes : List Ignore.Scope}
    (hm : loc ∈ t.filesBelow w fuel scopes folder) :
    wayPath folder.path (Ignore.wayFrom folder loc) = loc.path ∧ t.IsPlain loc.path := by
  obtain ⟨⟨c, hc⟩, way, hway, rfl⟩ := h.mem_filesBelow hm
  refine ⟨?_, h.isPlain hc⟩
  rw [Ignore.wayFrom, List.drop_left, wayPath, if_neg (by simpa using hway)]
  exact Path.join_names hp.isName hway

/-- The files with these extensions among those that a walk found. -/
theorem WellFormed.mem_sorted_found (h : t.WellFormed) {folder loc : Location}
    (hp : t.Placed folder) {w : Walk} {fuel : Nat} {scopes : List Ignore.Scope}
    (exts : List String) :
    loc.path ∈ Glob.sortPaths (((((t.filesBelow w fuel scopes folder).map
        (Ignore.wayFrom folder)).map (wayPath folder.path)).filter (hasExtension exts)).map
          t.canonical) ↔
      loc ∈ t.filesBelow w fuel scopes folder ∧ hasExtension exts loc.path := by
  have hpaths : ((t.filesBelow w fuel scopes folder).map (Ignore.wayFrom folder)).map
      (wayPath folder.path) = (t.filesBelow w fuel scopes folder).map Location.path := by
    rw [List.map_map]
    exact List.map_congr_left fun loc hm => (h.wayPath_of_mem hp hm).1
  have hplain : ∀ p ∈ ((t.filesBelow w fuel scopes folder).map Location.path).filter
      (hasExtension exts), t.IsPlain p := by
    intro p hm
    obtain ⟨found, hfound, rfl⟩ := List.mem_map.mp (List.mem_filter.mp hm).1
    exact (h.wayPath_of_mem hp hfound).2
  rw [hpaths, Glob.mem_sortPaths_canonical fun p hm => (hplain p hm).isFile]
  constructor
  · rintro ⟨p, hm, hl⟩
    obtain ⟨hpath, hext⟩ := List.mem_filter.mp hm
    obtain ⟨found, hfound, rfl⟩ := List.mem_map.mp hpath
    obtain ⟨loc', c, hplaced, _, he⟩ := hplain _ hm
    cases he
    cases hplaced.locate_path.symm.trans hl
    exact ⟨hfound, hext⟩
  · rintro ⟨hfound, hext⟩
    have hm := List.mem_filter.mpr ⟨List.mem_map_of_mem hfound, hext⟩
    obtain ⟨loc', c, hplaced, _, he⟩ := hplain _ hm
    cases he
    exact ⟨loc.path, hm, hplaced.locate_path⟩

/-- The walk from a place finds the same files in both trees. -/
theorem Lookalike.sourcesBelow (h : t.Lookalike t' new) (ht : t.WellFormed) (ht' : t'.WellFormed)
    (hscope : Ignore.scopeOf t' = Ignore.scopeOf t) {folder : Location} (hp : t.Placed folder)
    (hp' : t'.Placed folder) (exts : List String) :
    SameFiles new (t.sourcesBelow folder.path exts) (t'.sourcesBelow folder.path exts) := by
  have hbelow : ∀ {t : FileTree}, t.nodes.size < folder.length + (t.nodes.size + 1) := by omega
  unfold FileTree.sourcesBelow walk
  rw [hp.locate_path, hp'.locate_path]
  simp only [h.folders, hscope]
  by_cases hf : t.hasFolder folder
  · simp only [hf, ↓reduceIte]
    split
    · intro loc hn
      rw [ht.mem_sorted_found hp, ht'.mem_sorted_found hp']
      refine and_congr_left fun _ => ⟨?_, ?_⟩
      · exact fun hm => h.mem_filesBelow ht ht' hscope hm hn hbelow
      · exact fun hm => h.symm.mem_filesBelow ht' ht hscope.symm hm hn hbelow
    · exact rfl
  · -- the walk starts at a file and finds nothing else
    have hcanonical := canonical_of_locate hp.locate_path
    have hcanonical' := canonical_of_locate hp'.locate_path
    simp only [hf, Bool.false_eq_true, ↓reduceIte]
    intro loc _
    simp only [List.map_cons, List.map_nil, wayPath, List.isEmpty_nil, ↓reduceIte, List.filter_cons,
      List.filter_nil]
    split
    · simp [hcanonical, hcanonical']
    · rfl

end FileTree

theorem SameFiles.cases {new : Location → Prop} {r r' : Except Failure (List Path)}
    (h : SameFiles new r r') :
    (∃ e, r = .error e ∧ r' = .error e) ∨
      ∃ fs fs', r = .ok fs ∧ r' = .ok fs' ∧ SameFiles new (.ok fs) (.ok fs') := by
  match r, r', h with
  | .ok fs, .ok fs', h => exact Or.inr ⟨fs, fs', rfl, rfl, h⟩
  | .error e, .error _, rfl => exact Or.inl ⟨e, rfl, rfl⟩

/-- The files stand in order, each by its path without detours. -/
structure FileTree.Listed (t : FileTree) (files : List Path) : Prop where
  before : files.Pairwise Path.Before
  isPlain : ∀ g ∈ files, t.IsPlain g

variable {t t' : FileTree} {new : Location → Prop}

theorem Glob.listed_of_expand {base : Path} {patterns : List String} {files : List Path}
    (h : expand t base patterns = .ok files) : t.Listed files where
  before := by
    obtain ⟨_, _, h⟩ := Except.bind_eq_ok.mp h
    cases h
    exact sortPaths_before _
  isPlain _ := isPlain_of_expand h

theorem FileTree.WellFormed.listed_of_sourcesBelow (ht : t.WellFormed) {folder : Location}
    (hp : t.Placed folder) {exts : List String} {files : List Path}
    (h : t.sourcesBelow folder.path exts = .ok files) : t.Listed files where
  before := by
    obtain ⟨_, _, h⟩ := Except.bind_eq_ok.mp h
    cases h
    exact Glob.sortPaths_before _
  isPlain _ := ht.isPlain_of_sourcesBelow hp h

theorem FileTree.Listed.steps_mem_iff {files : List Path} (h : t.Listed files) {p : Path}
    (hp : t.IsPlain p) : p.steps ∈ files.map Path.steps ↔ p ∈ files := by
  constructor
  · intro hm
    obtain ⟨g, hg, hsteps⟩ := List.mem_map.mp hm
    rw [← (h.isPlain g hg).eq_of_steps_eq hp hsteps]
    exact hg
  · exact List.mem_map_of_mem

/-- Whether a list holds a file in any spelling. -/
theorem FileTree.Listed.any_same_iff {files : List Path} (h : t.Listed files) {p : Path}
    (hp : t.IsPlain p) : files.any p.same ↔ p ∈ files := by
  rw [← h.steps_mem_iff hp, List.any_eq_true, List.mem_map]
  simp only [Path.same, beq_iff_eq, @eq_comm _ p.steps]

/-- Listed files are settled by which ones they are. -/
theorem FileTree.Listed.eq_of_same {files files' : List Path} (h : t.Listed files)
    (h' : t'.Listed files') (hsame : SameFiles (fun _ => False) (.ok files) (.ok files')) :
    files' = files := by
  refine Path.eq_of_before h'.before h.before fun p => ⟨?_, ?_⟩
  · intro hm
    obtain ⟨loc, _, _, _, rfl⟩ := h'.isPlain p hm
    exact (hsame loc not_false).mpr hm
  · intro hm
    obtain ⟨loc, _, _, _, rfl⟩ := h.isPlain p hm
    exact (hsame loc not_false).mp hm

namespace Barrel

theorem Job.listed_of_candidates {j : Job} (ht : t.WellFormed) {base : Path} {folder : Location}
    (hp : t.Placed folder) {files : List Path} (h : j.candidates t base folder.path = .ok files) :
    t.Listed files := by
  unfold candidates at h
  split at h
  · exact ht.listed_of_sourcesBelow hp h
  · exact Glob.listed_of_expand h

theorem Job.candidates_same (h : t.Lookalike t' new) (ht : t.WellFormed) (ht' : t'.WellFormed)
    (j : Job) (hscope : j.sources = [] → Ignore.scopeOf t' = Ignore.scopeOf t) (base : Path)
    {folder : Location} (hp : t.Placed folder) (hp' : t'.Placed folder) :
    SameFiles new (j.candidates t base folder.path) (j.candidates t' base folder.path) := by
  unfold candidates
  split
  · next hnone => exact h.sourcesBelow ht ht' (hscope (List.isEmpty_iff.mp hnone)) hp hp' _
  · exact h.expand ht ht' base j.sources

theorem mem_inputs {output : Path}
    (hnew : ∀ loc, new loc → ∀ excluded, ¬ isInput output excluded loc.path)
    {files files' excluded excluded' : List Path} (hf : t.Listed files) (hf' : t'.Listed files')
    (he : t.Listed excluded) (he' : t'.Listed excluded')
    (hfiles : ∀ loc : Location, ¬ new loc → loc.path ∈ files → loc.path ∈ files')
    (hexcluded : ∀ loc : Location, ¬ new loc → loc.path ∈ excluded' → loc.path ∈ excluded) {p : Path}
    (hm : p ∈ files.filter (isInput output excluded)) :
    p ∈ files'.filter (isInput output excluded') := by
  obtain ⟨hmem, hinput⟩ := List.mem_filter.mp hm
  obtain ⟨loc, _, _, _, rfl⟩ := id (hf.isPlain p hmem)
  have hkept : ¬ new loc := fun hn => hnew loc hn excluded hinput
  simp only [isInput, Bool.and_eq_true, Bool.not_eq_true'] at hinput
  obtain ⟨⟨hother, hnot⟩, hext⟩ := hinput
  have hmem' := hfiles loc hkept hmem
  have hnot' : ¬ excluded'.any loc.path.same := by
    rw [he'.any_same_iff (hf'.isPlain _ hmem')]
    intro hm'
    rw [(he.any_same_iff (hf.isPlain _ hmem)).mpr (hexcluded loc hkept hm')] at hnot
    cases hnot
  refine List.mem_filter.mpr ⟨hmem', ?_⟩
  simp [isInput, hother, hnot', hext]

/-- The inputs are the same if nothing that is new can be an input. -/
theorem inputs_eq {output : Path}
    (hnew : ∀ loc, new loc → ∀ excluded, ¬ isInput output excluded loc.path)
    {files files' excluded excluded' : List Path} (hf : t.Listed files) (hf' : t'.Listed files')
    (he : t.Listed excluded) (he' : t'.Listed excluded')
    (hfiles : SameFiles new (.ok files) (.ok files'))
    (hexcluded : SameFiles new (.ok excluded) (.ok excluded')) :
    files'.filter (isInput output excluded') = files.filter (isInput output excluded) := by
  refine Path.eq_of_before (hf'.before.filter _) (hf.before.filter _) fun p => ⟨?_, ?_⟩
  · exact mem_inputs hnew hf' hf he' he (fun loc hn => (hfiles loc hn).mpr)
      fun loc hn => (hexcluded loc hn).mp
  · exact mem_inputs hnew hf hf' he he' (fun loc hn => (hfiles loc hn).mp)
      fun loc hn => (hexcluded loc hn).mpr

/-- The same failure, or plans that agree but for new files among the excluded ones. -/
def SamePlan (new : Location → Prop) : Except Failure Plan → Except Failure Plan → Prop
  | .ok p, .ok p' => p'.output = p.output ∧ p'.folder = p.folder ∧ p'.files = p.files ∧
      SameFiles new (.ok p.excluded) (.ok p'.excluded)
  | .error e, .error e' => e = e'
  | _, _ => False

/-- A job plans the same in both trees if its base and its output are the same and nothing that is new
can be an input. -/
theorem Job.plan_same (h : t.Lookalike t' new) (ht : t.WellFormed) (ht' : t'.WellFormed) (j : Job)
    (current : Option Path) (hscope : j.sources = [] → Ignore.scopeOf t' = Ignore.scopeOf t)
    (hbase : j.base ⟨t', current⟩ = j.base ⟨t, current⟩)
    (houtput : ∀ base, j.base ⟨t, current⟩ = .ok base →
      outputPath t' base j.out = outputPath t base j.out ∧
        ∀ output, outputPath t base j.out = .ok output → ∀ loc, new loc → ∀ excluded,
          ¬ isInput output excluded loc.path) :
    SamePlan new (j.plan ⟨t, current⟩) (j.plan ⟨t', current⟩) := by
  unfold plan
  rw [hbase]
  cases hb : j.base ⟨t, current⟩ with
  | error e => exact rfl
  | ok base =>
    obtain ⟨hout, hnew⟩ := houtput base hb
    simp only [bind, Except.bind, hout]
    cases ho : outputPath t base j.out with
    | error e => exact rfl
    | ok output =>
      obtain ⟨folder, name, hp, hname, rfl⟩ := outputPath_ok ho
      obtain ⟨folder', name', hp', _, he⟩ := outputPath_ok (hout.trans ho)
      obtain ⟨rfl, rfl⟩ : folder = folder' ∧ name = name' := by simpa using he
      have hparent : (Path.parent? ⟨true, folder ++ [name]⟩).getD base = folder.path := by
        rw [Path.parent?_concat hp.isName hname]
        rfl
      simp only [hparent]
      have hcandidates := candidates_same h ht ht' j hscope base hp hp'
      have hexcluded := h.expand ht ht' base j.excludes
      rcases hcandidates.cases with ⟨e, hc, hc'⟩ | ⟨files, files', hc, hc', hfiles⟩
      · simp only [hc, hc', SamePlan]
      rcases hexcluded.cases with ⟨e, hx, hx'⟩ | ⟨excluded, excluded', hx, hx', hexcluded⟩
      · simp only [hc, hc', hx, hx', SamePlan]
      have hinputs := inputs_eq (hnew _ ho) (listed_of_candidates ht hp hc)
        (listed_of_candidates ht' hp' hc') (Glob.listed_of_expand hx) (Glob.listed_of_expand hx')
        hfiles hexcluded
      simp only [hc, hc', hx, hx', hinputs]
      split
      · exact rfl
      · exact ⟨rfl, rfl, rfl, hexcluded⟩

/-- A plan takes no file that it excludes. -/
theorem Job.plan_open {j : Job} {w : Workspace} {p : Plan} (h : j.plan w = .ok p) {g : Path}
    (hg : g ∈ p.files) : g.steps ∉ p.excluded.map Path.steps := by
  obtain ⟨_, _, _, _, _, _, _, hfiles⟩ := Job.plan_ok h
  rw [hfiles, sortParentFirst, List.mem_mergeSort] at hg
  have hinput := (List.mem_filter.mp hg).2
  simp only [isInput, Bool.and_eq_true, Bool.not_eq_true'] at hinput
  intro hm
  obtain ⟨e, he, hsteps⟩ := List.mem_map.mp hm
  have hsame := List.any_eq_false.mp hinput.1.2 e he
  simp [Path.same, hsteps] at hsame

end Barrel

end BarrelAlias
