import BarrelAlias.Proofs.Choosing
import BarrelAlias.Proofs.Published
import BarrelAlias.Proofs.Tandem
import BarrelAlias.Proofs.Written

/-!
Excluded files are never read. A loader that is asked for files that are not sealed keeps nothing about a
sealed one, however the files take from each other. So what excluded files hold makes no difference to a
barrel, nor to the way in which making it fails, unless it is looked at for what to leave out.
-/

namespace BarrelAlias

open BarrelAlias.Path (IsName)

namespace Linkage

open Loader

def Query.files : Query → List Path
  | preload files => files
  | exports file => [file]

section

variable {t t' : FileTree} {S S' : List (List Step)} {R : List Step → Prop} {l : Loader}

/-- A question about files in `R` leaves the loader confined to `R`. -/
theorem Query.after_confined (hA : Parallel t t' S S' R) {q : Query} (hq : ∀ f ∈ q.files, R f.steps)
    (hl : l.Confined t S R) : (q.after t l).Confined t S R := by
  cases q with
  | preload files => exact (inTandem_preload hA hq hl).2.1
  | exports file => exact (inTandem_exportsOf hA (hq file (List.mem_singleton.mpr rfl)) hl).2.1

theorem asked_confined {sealedFiles : List Path}
    (hA : Parallel t t' (sealedFiles.map Path.steps) S' R) {qs : List Query}
    (hqs : ∀ q ∈ qs, ∀ f ∈ q.files, R f.steps) :
    (asked t sealedFiles qs).Confined t (sealedFiles.map Path.steps) R := by
  unfold asked
  have hstart := confined_sealing t sealedFiles R
  generalize sealing sealedFiles = l at hstart
  induction qs generalizing l with
  | nil => exact hstart
  | cons q qs ih =>
    refine ih (fun q' hq' => hqs q' (List.mem_cons_of_mem q hq')) _ ?_
    exact q.after_confined hA (hqs q (List.mem_cons_self ..)) hstart

/-- From files that are not sealed, no load comes to one that is. -/
theorem parallel_unsealed (t : FileTree) (S : List (List Step)) : Parallel t t S S (· ∉ S) where
  reads _ _ := rfl
  leads _ _ _ _ _ _ _ := rfl
  shut _ _ _ _ _ _ _ _ _ := Iff.rfl
  closed _ _ _ _ _ _ _ _ _ _ hopen := hopen

end

end Linkage

namespace FileTree

variable {t t' : FileTree} {new : Location → Prop}

theorem Lookalike.canonical_eq (h : t.Lookalike t' fun _ => False) (p : Path) :
    t'.canonical p = t.canonical p := by
  rw [canonical, canonical, canonical?, canonical?, h.locate_eq]

theorem Lookalike.isFile_eq (h : t.Lookalike t' fun _ => False) (p : Path) :
    t'.isFile p = t.isFile p := by
  rw [Bool.eq_iff_iff, isFile_iff_locate, isFile_iff_locate, h.locate_eq]
  simp only [h.folders]

theorem Lookalike.resolve?_eq (h : t.Lookalike t' fun _ => False) (p : Path) (source : String) :
    Linkage.resolve? t' p source = Linkage.resolve? t p source := by
  have hisFile : t'.isFile = t.isFile := funext h.isFile_eq
  have hcanonical : t'.canonical = t.canonical := funext h.canonical_eq
  rw [Linkage.resolve?, Linkage.resolve?, Linkage.fileFor?, Linkage.fileFor?, hisFile, hcanonical]

theorem Lookalike.putFile (h : t.Lookalike t' new) {loc : Location} (hne : loc ≠ []) (c c' : Content) :
    (t.putFile loc c).Lookalike (t'.putFile loc c') new where
  folders l := by
    rw [hasFolder, hasFolder, node?_putFile t hne, node?_putFile t' hne]
    split
    · rfl
    · exact h.folders l
  standing l hl := by
    rw [node?_putFile t hne, node?_putFile t' hne]
    split
    · rfl
    · exact h.standing l hl
  leaves l hl := by
    rw [hasFolder, node?_putFile t hne]
    split
    · simp
    · exact h.leaves l hl

/-- A path whose folder is there names the same place in both trees. -/
theorem Lookalike.target?_eq (h : t.Lookalike t' new) (p : Path) : t'.target? p = t.target? p := by
  have hcarries : ∀ {t t' : FileTree}, t.Lookalike t' new → ∀ loc, t.target? p = some loc →
      t'.target? p = some loc := by
    intro t t' h loc ht
    unfold target? at ht ⊢
    split at ht
    · next name hname =>
      split at ht
      · next hn =>
        split at ht
        · next folder hfolder =>
          split at ht
          · next hf =>
            rw [if_pos hn, h.locate hfolder (h.not_new hf)]
            simpa [h.folders, hf] using ht
          · cases ht
        · cases ht
      · cases ht
    · cases ht
  exact Option.ext fun loc => ⟨hcarries h.symm loc, hcarries h loc⟩

theorem Lookalike.writable?_eq (h : t.Lookalike t' new) (p : Path) :
    t'.writable? p = t.writable? p := by
  rw [writable?, writable?, h.target?_eq]
  simp only [h.folders]

theorem Lookalike.moveFile?_isSome (h : t.Lookalike t' fun _ => False) (source target : Path) :
    (t'.moveFile? source target).isSome = (t.moveFile? source target).isSome := by
  unfold moveFile?
  rw [h.locate_eq, h.writable?_eq]
  split
  · next loc _ _ _ =>
    have hfolder := h.folders loc
    have hsome := h.standing loc not_false
    unfold hasFolder at hfolder
    cases hn : t.node? loc with
    | none =>
      have hn' : t'.node? loc = none := by simpa [hn] using hsome
      rw [hn']
    | some node =>
      obtain ⟨node', hn'⟩ : ∃ node', t'.node? loc = some node' := by
        rw [hn] at hsome
        exact Option.isSome_iff_exists.mp hsome
      rw [hn, hn'] at hfolder
      rw [hn']
      cases node <;> cases node' <;> simp_all
  · rfl

/-- Whether a file can be replaced does not hang on what files hold. -/
theorem Lookalike.replaceFile_eq (h : t.Lookalike t' fun _ => False) (p : Path) (s : String) :
    (t'.replaceFile p s).1 = (t.replaceFile p s).1 := by
  unfold replaceFile
  cases p.fileName? with
  | none => rfl
  | some name =>
    simp only [write?, h.writable?_eq]
    cases hw : t.writable? (p.withFileName (stagedName name)) with
    | none => rfl
    | some loc =>
      obtain ⟨_, folder, last, rfl, _⟩ := writable?_eq_some hw
      have hput := h.putFile (List.concat_ne_nil last folder) (.text s) (.text s)
      have hmove := hput.moveFile?_isSome (p.withFileName (stagedName name)) p
      simp only [Option.map_some]
      split
      · next ht' =>
        rw [ht'] at hmove
        obtain ⟨_, ht⟩ := Option.isSome_iff_exists.mp hmove.symm
        rw [ht]
      · next ht' =>
        rw [ht'] at hmove
        have ht := Option.isSome_eq_false_iff.mp hmove.symm
        rw [Option.isNone_iff_eq_none.mp ht]

end FileTree

def Ignore.IsControl (t : FileTree) (loc : Location) : Prop :=
  ∃ (folder : Location) (p : Path), Controls t folder.path p ∧ t.locate p = .ok loc

/-- A path that ends with a name leads to a place with that name. -/
theorem FileTree.getLast?_of_locate_join {t : FileTree} {p : Path} {front : List String}
    {name : String} (hn : IsName name) {loc : Location}
    (h : t.locate (p.join ⟨false, front ++ [name]⟩) = .ok loc) : loc.getLast? = some name := by
  obtain ⟨hr, hloc⟩ := locate_ok h
  have hp : p.rooted := by
    unfold Path.join at hr
    simp only [Bool.false_eq_true, ↓reduceIte] at hr
    split at hr
    · exact hr
    · exact hr
  rw [Path.steps_join hp rfl, Path.stepsOf_concat false front hn, Location.ofSteps, ← List.append_assoc,
    List.foldl_append] at hloc
  simp [hloc, Location.move]

/-- The names of files that are looked at for what to leave out. -/
def Ignore.controlNames : List String := [".ignore", ".gitignore", ".git", "commondir", "exclude"]

theorem Ignore.IsControl.name_mem {t : FileTree} {loc : Location} (h : IsControl t loc) :
    ∃ name ∈ controlNames, loc.getLast? = some name := by
  have hname : ∀ (p : Path) (front : List String), ∀ name ∈ controlNames,
      t.locate (p.join ⟨false, front ++ [name]⟩) = .ok loc →
        ∃ name ∈ controlNames, loc.getLast? = some name := by
    intro p front name hmem hl
    refine ⟨name, hmem, FileTree.getLast?_of_locate_join ?_ hl⟩
    simp only [controlNames, List.mem_cons, List.not_mem_nil, or_false] at hmem
    rcases hmem with rfl | rfl | rfl | rfl | rfl <;> exact ⟨by decide, by decide, by decide⟩
  obtain ⟨folder, p, hcontrols, hl⟩ := h
  cases hcontrols with
  | ignoreFile => exact hname _ [] ".ignore" (by decide) hl
  | gitIgnore => exact hname _ [] ".gitignore" (by decide) hl
  | git => exact hname _ [] ".git" (by decide) hl
  | commonDir => exact hname _ [] "commondir" (by decide) hl
  | exclude => exact hname _ ["info"] "exclude" (by decide) hl

namespace Barrel

open Linkage

/-- One of the globs of files to leave out names the file at this place. -/
def Job.Excludes (j : Job) (w : Workspace) (loc : Location) : Prop :=
  ∃ base pattern files p, j.base w = .ok base ∧ pattern ∈ j.excludes ∧
    Glob.filesOf w.tree base pattern = .ok files ∧ p ∈ files ∧ w.tree.locate p = .ok loc

/-- The trees differ only in what excluded files hold that do not say what to leave out. -/
structure Job.DifferInExcluded (j : Job) (current : Option Path) (t t' : FileTree) : Prop where
  excluded : ∀ loc, t'.node? loc ≠ t.node? loc → j.Excludes ⟨t, current⟩ loc
  stands : ∀ loc, t'.node? loc ≠ t.node? loc → ∃ c, t'.node? loc = some (.file c)
  uncontrolled : ∀ loc, t'.node? loc ≠ t.node? loc → ¬ Ignore.IsControl t loc

variable {j : Job} {current : Option Path} {t t' : FileTree}

theorem Job.Excludes.isFile {loc : Location} (h : j.Excludes ⟨t, current⟩ loc) :
    ∃ c, t.node? loc = some (.file c) := by
  obtain ⟨base, pattern, files, p, _, _, hfiles, hp, hl⟩ := h
  unfold Glob.filesOf at hfiles
  split at hfiles
  · cases hfiles
    obtain ⟨loc', c, hl', hc⟩ := FileTree.isFile_iff.mp (List.mem_filter.mp hp).2
    cases hl.symm.trans hl'
    exact ⟨c, hc⟩
  · cases hfiles

theorem Job.DifferInExcluded.lookalike (h : j.DifferInExcluded current t t') :
    t.Lookalike t' fun _ => False := by
  have hkind : ∀ loc, t'.hasFolder loc = t.hasFolder loc ∧
      (t'.node? loc).isSome = (t.node? loc).isSome := by
    intro loc
    unfold FileTree.hasFolder
    by_cases hd : t'.node? loc = t.node? loc
    · rw [hd]
      exact ⟨rfl, rfl⟩
    · obtain ⟨c, hc⟩ := (h.excluded loc hd).isFile
      obtain ⟨c', hc'⟩ := h.stands loc hd
      rw [hc, hc']
      exact ⟨rfl, rfl⟩
  exact ⟨fun loc => (hkind loc).1, fun loc _ => (hkind loc).2, fun _ => False.elim⟩

theorem Job.DifferInExcluded.sameControls (h : j.DifferInExcluded current t t') :
    Ignore.SameControls t t' where
  files folder p hp := by
    unfold FileTree.nodeAt?
    rw [h.lookalike.locate_eq]
    cases hl : t.locate p with
    | error e => rfl
    | ok loc =>
      have hsame : t'.node? loc = t.node? loc := by
        by_contra hd
        exact h.uncontrolled loc hd ⟨folder, p, hp, hl⟩
      simpa [Except.toOption] using hsame
  marks folder := by
    rw [Bool.eq_iff_iff, FileTree.isSome_nodeAt?_iff, FileTree.isSome_nodeAt?_iff,
      h.lookalike.locate_eq]

theorem Job.DifferInExcluded.plan_eq (h : j.DifferInExcluded current t t') (ht : t.WellFormed)
    (ht' : t'.WellFormed) : j.plan ⟨t', current⟩ = j.plan ⟨t, current⟩ := by
  have hlook := h.lookalike
  have hbase : j.base ⟨t', current⟩ = j.base ⟨t, current⟩ := by
    unfold base Workspace.absolute
    simp only [hlook.canonical_eq]
  have houtput : ∀ base, outputPath t' base j.out = outputPath t base j.out := by
    intro base
    unfold outputPath FileTree.canonical?
    simp only [hlook.locate_eq]
  have hsame := Job.plan_same hlook ht ht' j current
    (fun _ => Ignore.scopeOf_congr h.sameControls) hbase
    fun base _ => ⟨houtput base, fun _ _ _ hn => hn.elim⟩
  cases hp : j.plan ⟨t, current⟩ with
  | error e =>
    cases hp' : j.plan ⟨t', current⟩ with
    | error e' =>
      rw [hp, hp'] at hsame
      exact congrArg Except.error hsame.symm
    | ok p' =>
      rw [hp, hp'] at hsame
      exact hsame.elim
  | ok p =>
    cases hp' : j.plan ⟨t', current⟩ with
    | error e' =>
      rw [hp, hp'] at hsame
      exact hsame.elim
    | ok p' =>
      rw [hp, hp'] at hsame
      obtain ⟨ho, hfo, hfi, hex⟩ := hsame
      obtain ⟨_, _, _, _, _, _, hx, _⟩ := Job.plan_ok hp
      obtain ⟨_, _, _, _, _, _, hx', _⟩ := Job.plan_ok hp'
      have hexcluded := (Glob.listed_of_expand hx).eq_of_same (Glob.listed_of_expand hx') hex
      obtain ⟨output, folder, files, excluded⟩ := p
      cases ho
      cases hfo
      cases hfi
      cases hexcluded
      rfl

/-- A plan lists every file that an exclude names. -/
theorem Job.Excludes.mem_excluded {loc : Location} (h : j.Excludes ⟨t, current⟩ loc) {p : Plan}
    (hp : j.plan ⟨t, current⟩ = .ok p) : loc.path ∈ p.excluded := by
  obtain ⟨base, pattern, files, q, hbase, hpattern, hfiles, hq, hl⟩ := h
  obtain ⟨base', _, hbase', _, _, _, hexcluded, _⟩ := Job.plan_ok hp
  cases hbase.symm.trans hbase'
  obtain ⟨found, hfound, hsorted⟩ := Except.bind_eq_ok.mp hexcluded
  rw [← Except.ok.inj hsorted, Glob.mem_sortPaths_canonical]
  · obtain ⟨files', hmem, hfiles'⟩ := exists_mem_of_mapM_ok hfound hpattern
    cases hfiles.symm.trans hfiles'
    exact ⟨q, List.mem_flatten.mpr ⟨files, hmem, hq⟩, hl⟩
  · intro g hg
    obtain ⟨gs, hgs, hg⟩ := List.mem_flatten.mp hg
    obtain ⟨pattern', _, hgs'⟩ := mem_of_mapM_ok hfound hgs
    unfold Glob.filesOf at hgs'
    split at hgs'
    · cases hgs'
      exact (List.mem_filter.mp hg).2
    · cases hgs'

/-- From files that a plan does not exclude, both trees look the same. -/
theorem Job.DifferInExcluded.parallel (h : j.DifferInExcluded current t t') {p : Plan}
    (hp : j.plan ⟨t, current⟩ = .ok p) :
    Parallel t t' (p.excluded.map Path.steps) (p.excluded.map Path.steps) fun k =>
      k ∉ p.excluded.map Path.steps ∧ ∃ loc, t.Placed loc ∧ k = loc.path.steps where
  reads q := by
    rintro ⟨hopen, loc, hplaced, hsteps⟩
    refine h.lookalike.readModule_eq (fun _ => False.elim) hplaced hsteps ?_
    by_contra hd
    rw [hsteps] at hopen
    exact hopen (List.mem_map_of_mem ((h.excluded loc hd).mem_excluded hp))
  leads q _ source _ _ _ _ := h.lookalike.resolve?_eq q source
  shut _ _ _ _ _ _ _ _ _ := Iff.rfl
  closed q _ source _ g _ _ _ hg _ hopen := by
    obtain ⟨loc, _, hplaced, _, rfl⟩ := isPlain_of_resolve? hg
    exact ⟨hopen, loc, hplaced, rfl⟩

theorem Job.DifferInExcluded.make_eq (h : j.DifferInExcluded current t t') (ht : t.WellFormed)
    (ht' : t'.WellFormed) : j.make ⟨t', current⟩ = j.make ⟨t, current⟩ := by
  unfold make
  rw [h.plan_eq ht ht']
  cases hp : j.plan ⟨t, current⟩ with
  | error e => simp only [bind, Except.bind]
  | ok p =>
    have hdraft : p.draft t' = p.draft t := by
      obtain ⟨_, _, _, _, _, _, hinputs⟩ := Job.plan_places ht hp
      refine Plan.draft_eq (h.parallel hp) rfl rfl ?_
      intro f hf
      obtain ⟨loc, _, hplaced, _, rfl⟩ := (hinputs f hf).1
      exact ⟨Job.plan_open hp hf, loc, hplaced, rfl⟩
    simp only [bind, Except.bind, hdraft]

/-- What excluded files hold does not show in the outcome of a job, unless they say what to leave out;
and a loader that is only asked for files that are not sealed never comes to know a sealed one. -/
theorem Job.run_unread {j : Job} {current : Option Path} {t t' : FileTree} (ht : t.WellFormed)
    (ht' : t'.WellFormed) (h : j.DifferInExcluded current t t') :
    (j.run ⟨t', current⟩).1 = (j.run ⟨t, current⟩).1 ∧
      ∀ (sealedFiles : List Path) (qs : List Query),
        (∀ q ∈ qs, ∀ f ∈ q.files, f.steps ∉ sealedFiles.map Path.steps) →
        ∀ k ∈ sealedFiles.map Path.steps,
          (Loader.asked t sealedFiles qs).modules.find? k = none := by
  constructor
  · unfold run
    rw [h.make_eq ht ht']
    cases j.make ⟨t, current⟩ with
    | error e => rfl
    | ok o =>
      have hreplace := h.lookalike.replaceFile_eq o.output o.text
      simp only
      split
      · rcases hr : t.replaceFile o.output o.text with ⟨r, t₁⟩
        rcases hr' : t'.replaceFile o.output o.text with ⟨r', t₁'⟩
        rw [hr, hr'] at hreplace
        cases hreplace
        cases r with
        | ok u => rfl
        | error e => rfl
      · rfl
  · intro sealedFiles qs hqs k hk
    have hconfined := asked_confined (parallel_unsealed t (sealedFiles.map Path.steps)) hqs
    cases hfind : (Loader.asked t sealedFiles qs).modules.find? k with
    | none => rfl
    | some s => exact absurd hk (hconfined.modules_ok k s hfind).1

/-- A file that passes on all of another one and takes a name from it, with this in the other one. -/
def besideSecret (secret : String) : FileTree := ⟨⟨[
  (["a.ts"], .file (.text "export*from'./b';export{z}from'./b'")),
  (["b.ts"], .file (.text secret))]⟩⟩

def secretJob : Job := ⟨["a.ts"], ["b.ts"], ⟨false, ["index.ts"]⟩, false, .double, none⟩

def secretPlan : Plan := ⟨⟨true, ["index.ts"]⟩, .top, [⟨true, ["a.ts"]⟩], [⟨true, ["b.ts"]⟩]⟩

theorem besideSecret_wellFormed (secret : String) : (besideSecret secret).WellFormed :=
  FileTree.wellFormed_of_check rfl

theorem besideSecret_node? (secret secret' : String) {loc : Location} (h : loc ≠ ["b.ts"]) :
    (besideSecret secret').node? loc = (besideSecret secret).node? loc := by
  have hb : ["b.ts"] ≠ loc := fun he => h he.symm
  simp [FileTree.node?, Table.find?, besideSecret, List.find?_cons, hb]

theorem secretJob_differs (secret : String)
    (hglob : Glob.filesOf (besideSecret secret) .top "b.ts" = .ok [⟨true, ["b.ts"]⟩])
    (hplace : (besideSecret secret).locate ⟨true, ["b.ts"]⟩ = .ok ["b.ts"]) (secret' : String) :
    secretJob.DifferInExcluded (some .top) (besideSecret secret) (besideSecret secret') := by
  have honly : ∀ loc, (besideSecret secret').node? loc ≠ (besideSecret secret).node? loc →
      loc = ["b.ts"] := by
    intro loc hd
    by_contra hne
    exact hd (besideSecret_node? secret secret' hne)
  refine ⟨?_, ?_, ?_⟩
  · intro loc hd
    cases honly loc hd
    exact ⟨.top, "b.ts", _, _, rfl, List.mem_singleton.mpr rfl, hglob, List.mem_singleton.mpr rfl,
      hplace⟩
  · intro loc hd
    cases honly loc hd
    exact ⟨.text secret', rfl⟩
  · intro loc hd hcontrol
    cases honly loc hd
    obtain ⟨name, hname, hlast⟩ := hcontrol.name_mem
    cases hlast
    revert hname
    decide

theorem secretJob_plan :
    secretJob.plan ⟨besideSecret "export\x7b", some .top⟩ = .ok secretPlan := by
  apply Job.plan_single .top ⟨true, ["index.ts"]⟩ rfl rfl
  · exact Glob.expand_single (by decide +kernel) (by decide +kernel)
  · exact Glob.expand_single (by decide +kernel) (by decide +kernel)
  · decide +kernel

/-- The draft of that plan has a line for the name that is taken from the other file. -/
theorem secretPlan_draft : ∃ d, secretPlan.draft (besideSecret "export\x7b") = .ok d ∧
    d.registry.lines = [⟨"./a", [("z", "z")]⟩] := by
  have hentries : (Load.exec (do
      preload (besideSecret "export\x7b") [⟨true, ["a.ts"]⟩]
      exportsOf (besideSecret "export\x7b") ⟨true, ["a.ts"]⟩)
        (.sealing secretPlan.excluded)).1.toOption.map (·.entries) = some [("z", [0])] := by
    decide +kernel
  obtain ⟨l, hl⟩ := Draft.exec_ofFiles_single hentries
  refine ⟨_, congrArg Prod.fst hl, ?_⟩
  rw [Draft.exportList_single]
  decide +kernel

/-- That barrel is the same whether the other file can be parsed or not. -/
theorem secretJob_unread : ∃ o,
    (secretJob.run ⟨besideSecret "export\x7b", some .top⟩).1 = .ok o ∧
      (secretJob.run ⟨besideSecret "export{y}", some .top⟩).1 = .ok o ∧
      o.text = Line.text .double ⟨"./a", [("z", "z")]⟩ := by
  obtain ⟨d, hdraft, hlines⟩ := secretPlan_draft
  have hdiffer := secretJob_differs "export\x7b" (by decide +kernel) rfl "export{y}"
  have hwrite : secretJob.write = false := rfl
  obtain ⟨o, ho, hout⟩ : ∃ o, (secretJob.run ⟨besideSecret "export\x7b", some .top⟩).1 = .ok o ∧
      o.text = d.text secretJob.quote := by
    simp [Job.run, Job.make, secretJob_plan, hdraft, hwrite, bind, Except.bind, pure, Except.pure]
  have hsame := (Job.run_unread (besideSecret_wellFormed _) (besideSecret_wellFormed _) hdiffer).1
  exact ⟨o, ho, hsame.trans ho, hout.trans (Draft.text_single hlines .double)⟩

end Barrel

end BarrelAlias
