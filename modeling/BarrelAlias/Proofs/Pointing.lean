import BarrelAlias.Proofs.History
import BarrelAlias.Proofs.Inputs
import BarrelAlias.Proofs.Published
import BarrelAlias.Proofs.Specifier
import BarrelAlias.Proofs.Written

/-!
Where the clauses of a barrel point. Each clause comes from an input that exports what the clause names,
bound to a declaration that is registered for the clause. The specifier of its line leads to that input
exactly if the way to it can be spelled and no path that is tried before it is a file, both before the
barrel is written and after it.
-/

namespace BarrelAlias.Barrel

open Linkage
open BarrelAlias.Path (IsName)

/-- A loader that has answered remembers all its answers. -/
theorem Draft.Answered.find? {t : FileTree} {S : List (List Step)} {l l' : Loader}
    {files : List Path} {ms : List ExportMap} (h : Answered t l files ms l') (hs : l.Sound t S) :
    l'.Sound t S ∧ l.Grows l' ∧
      ∀ file m, (file, m) ∈ files.zip ms → l'.exports.find? file.steps = some m := by
  induction h with
  | nil l => exact ⟨hs, .refl l, by simp⟩
  | @cons l l₁ l' file files m ms hm _ ih =>
    obtain ⟨hs₁, hg₁, hfind⟩ := find?_of_exec_exportsOf hs hm
    obtain ⟨hs', hg', hrest⟩ := ih hs₁
    refine ⟨hs', hg₁.trans hg', ?_⟩
    intro file' m' hmem
    rw [List.zip_cons_cons, List.mem_cons] at hmem
    rcases hmem with he | hmem
    · cases he
      exact hg'.exports _ _ hfind
    · exact hrest file' m' hmem

/-- The draft of a plan, and what is known once it is made. -/
def Plan.Drafted (p : Plan) (t : FileTree) (d : Draft) (l : Loader) : Prop :=
  Load.exec (do
    preload t p.files
    Draft.ofFiles t p.folder p.files) (.sealing p.excluded) = (.ok d, l)

theorem Plan.exists_drafted {p : Plan} {t : FileTree} {d : Draft} (h : p.draft t = .ok d) :
    ∃ l, p.Drafted t d l :=
  ⟨_, Prod.ext h rfl⟩

/-- The file exports what the clause names, bound to a declaration that is registered for the clause:
one that stands under its name, from its origin. -/
def BroughtBy (t : FileTree) (l : Loader) (r : Registry) (o : String) (c : Clause) (g : Path) : Prop :=
  ∃ m ids id, (exportsOf t g).exec l = (.ok m, l) ∧ (c.exported, ids) ∈ m.entries ∧ id ∈ ids ∧
    (id, o) ∈ r.bindings c.name

theorem Plan.Drafted.sound {p : Plan} {t : FileTree} {d : Draft} {l : Loader}
    (h : p.Drafted t d l) : d.registry.Sound := by
  obtain ⟨_, _, _, hfiles⟩ := Load.exec_bind_ok.mp h
  obtain ⟨ms, _, hr⟩ := Draft.exec_ofFiles hfiles
  rw [hr]
  exact Registry.sound_empty.enterAll _

/-- Each clause is brought by a file of the plan, which its origin is the specifier of. -/
theorem Plan.Drafted.exists_file {p : Plan} {t : FileTree} {d : Draft} {l : Loader}
    (h : p.Drafted t d l) {o : String} {c : Clause} (hc : c ∈ d.registry.clauses o) :
    ∃ g ∈ p.files, o = specifierOf p.folder g ∧ BroughtBy t l d.registry o c g := by
  obtain ⟨_, l₁, hpre, hfiles⟩ := Load.exec_bind_ok.mp h
  obtain ⟨ms, hanswered, hr⟩ := Draft.exec_ofFiles hfiles
  have hstart : (Loader.sealing p.excluded).Sound t (p.excluded.map Path.steps) :=
    Loader.sound_empty t _
  have hs₁ : l₁.Sound t (p.excluded.map Path.steps) := by
    have := (preload_quiet hstart p.files).2
    rw [hpre] at this
    exact this
  obtain ⟨hs, _, hfind⟩ := hanswered.find? hs₁
  rw [hr] at hc
  rcases Registry.clauses_enterAll hc with hc | ⟨q, hq, ⟨rfl, rfl⟩, hbound⟩
  · simp at hc
  · obtain ⟨g, m, hmem, hq⟩ := Draft.mem_allRequests hq
    obtain ⟨_, horigin, ids, hids, hid⟩ := Draft.mem_requests hq
    refine ⟨g, (List.of_mem_zip hmem).1, horigin, m, ids, q.decl, ?_, hids, hid, hr ▸ hbound⟩
    exact exec_exportsOf_of_find? hs (hfind g m hmem)

theorem Job.make_ok {j : Job} {w : Workspace} {o : Outcome} (h : j.make w = .ok o) :
    ∃ p d, j.plan w = .ok p ∧ p.draft w.tree = .ok d ∧ o.text = d.text j.quote ∧
      o.output = p.output ∧ o.files = p.files := by
  obtain ⟨p, hp, h⟩ := Except.bind_eq_ok.mp h
  obtain ⟨d, hd, h⟩ := Except.bind_eq_ok.mp h
  cases h
  exact ⟨p, d, hp, hd, rfl, rfl, rfl⟩

/-- A run that succeeds makes the barrel, and leaves the tree or replaces the output in it. -/
theorem Job.run_ok {j : Job} {w : Workspace} {o : Outcome} (h : (j.run w).1 = .ok o) :
    ∃ o', j.make w = .ok o' ∧ o.text = o'.text ∧ o.output = o'.output ∧ o.files = o'.files ∧
      ((j.run w).2 = w.tree ∨ w.tree.replaceFile o.output o.text = (.ok (), (j.run w).2)) := by
  unfold Job.run at h ⊢
  cases hm : j.make w with
  | error f => simp [hm] at h
  | ok o' =>
    simp only [hm] at h ⊢
    refine ⟨o', rfl, ?_⟩
    split at h
    · next hwrite =>
      rcases hr : w.tree.replaceFile o'.output o'.text with ⟨r, t⟩
      cases r with
      | error f => simp [hr] at h
      | ok u =>
        simp only [hr] at h
        cases h
        simp [hwrite, hr]
    · next hwrite =>
      cases h
      simp [hwrite]

/-- A file that a barrel takes does not have the name of a staged file. -/
theorem not_isStaged {loc : Location} (h : FileTree.hasExtension Extension.barrel loc.path) :
    ¬ FileTree.IsStaged loc := by
  rintro ⟨front, x, rfl⟩
  obtain ⟨stem, ext, hext, _, he, _⟩ :=
    exists_extension (Path.fileName?_concat true front (FileTree.isName_staged x)) h
  have hlast : (stem ++ ("." ++ ext)).toList.getLast? = some 'p' := by
    rw [← he]
    simp
  simp only [Extension.barrel, List.mem_cons, List.not_mem_nil, or_false] at hext
  rcases hext with rfl | rfl | rfl | rfl <;> simp at hlast

/-- A tree in which a barrel stands in a place and its inputs are files by their own paths. -/
structure Stands (t : FileTree) (folder : Location) (files : List Path) : Prop where
  placed : t.Placed folder
  isPlain : ∀ g ∈ files, t.IsPlain g

/-- So it is in the tree that a job starts from, and in the one that it leaves. -/
theorem Job.stands {j : Job} {w : Workspace} {o : Outcome} (hw : w.tree.WellFormed)
    (h : (j.run w).1 = .ok o) :
    ∃ p d folder name, j.plan w = .ok p ∧ p.draft w.tree = .ok d ∧ o.text = d.text j.quote ∧
      o.output = p.output ∧ o.files = p.files ∧ p.folder = folder.path ∧
      p.output = ⟨true, folder ++ [name]⟩ ∧ IsName name ∧
      (∀ g ∈ p.files, FileTree.hasExtension Extension.barrel g) ∧
      Stands w.tree folder p.files ∧ Stands (j.run w).2 folder p.files := by
  obtain ⟨o', hmake, htext, houtput, hfiles, htree⟩ := Job.run_ok h
  obtain ⟨p, d, hp, hd, htext', houtput', hfiles'⟩ := Job.make_ok hmake
  obtain ⟨folder, name, hplaced, hname, hfolder, hout, hinputs⟩ := Job.plan_places hw hp
  have hstart : Stands w.tree folder p.files := ⟨hplaced, fun g hg => (hinputs g hg).1⟩
  refine ⟨p, d, folder, name, hp, hd, htext.trans htext', houtput.trans houtput',
    hfiles.trans hfiles', hfolder, hout, hname, fun g hg => (hinputs g hg).2.2, hstart, ?_⟩
  rcases htree with htree | hreplace
  · rw [htree]
    exact hstart
  · rw [houtput, houtput', hout] at hreplace
    obtain ⟨hkeeps, hin⟩ := FileTree.replaceFile_keeps hplaced.isName hname hreplace
    have hnode : (j.run w).2.node? folder = some .folder := by
      simpa [FileTree.hasFolder] using hin
    refine ⟨hkeeps.placed hplaced (by simp [hnode]), ?_⟩
    intro g hg
    obtain ⟨hplain, hne, hext⟩ := hinputs g hg
    obtain ⟨loc, _, _, _, rfl⟩ := id hplain
    refine hkeeps.isPlain hplain ?_
    rintro (rfl | hstaged)
    · exact hne hout.symm
    · exact not_isStaged hext hstaged

/-- Each clause of the barrel is brought by an input, and the specifier of its line leads to that input
exactly if the way there can be spelled and no path that is tried before the input is a file. This is so
in the tree that the job starts from and in the one that it leaves. -/
theorem Job.clause_points_iff {j : Job} {w : Workspace} {o : Outcome} (hw : w.tree.WellFormed)
    (h : (j.run w).1 = .ok o) :
    ∃ p d l, j.plan w = .ok p ∧ o.output = p.output ∧ o.files = p.files ∧ p.Drafted w.tree d l ∧
      o.text = "\n".intercalate (d.registry.lines.map (Line.text j.quote)) ∧
      ∀ ln ∈ d.registry.lines, ∀ shown ∈ ln.shown, ∃ c ∈ d.registry.clauses ln.origin,
        shown = d.registry.shownAs ln.origin c ∧
        ∃ g ∈ o.files, BroughtBy w.tree l d.registry ln.origin c g ∧
          ∃ way, g.relativeTo? p.folder = some way ∧
            ∀ t, t = w.tree ∨ t = (j.run w).2 →
              (resolve? t o.output ln.origin = some g ↔ Spellable way ∧
                ∀ q ∈ (probes (namedPath o.output ln.origin)).takeWhile (· ≠ g), ¬ t.isFile q) := by
  obtain ⟨p, d, folder, name, hp, hd, htext, houtput, hfiles, hfolder, hout, hname, hext, hstart,
    hend⟩ := Job.stands hw h
  obtain ⟨l, hl⟩ := Plan.exists_drafted hd
  refine ⟨p, d, l, hp, houtput, hfiles, hl, ?_, ?_⟩
  · rw [htext, Draft.text, Registry.render_eq_lines]
  intro ln hln shown hshown
  rw [hl.sound.mem_lines hln] at hshown
  obtain ⟨c, hc, rfl⟩ := List.mem_map.mp hshown
  obtain ⟨g, hg, horigin, hbrought⟩ := hl.exists_file hc
  refine ⟨c, hc, rfl, g, hfiles ▸ hg, hbrought, ?_⟩
  have hr : p.output.rooted := by rw [hout]
  have hparent : (p.output.parent?.getD .top).steps = .root :: folder.map .name := by
    rw [hout, Path.parent?_concat hstart.placed.isName hname]
    exact Path.steps_names hstart.placed.isName
  have hslash := hw.slash_not_mem (hstart.isPlain g hg)
  have hpoints : ∀ t, Stands t folder p.files → _ := fun t ht =>
    resolve?_specifierOf_iff ht.placed hr hparent (ht.isPlain g hg) hslash (hext g hg)
  obtain ⟨way, hway, hiff⟩ := hpoints w.tree hstart
  obtain ⟨way', hway', hiff'⟩ := hpoints (j.run w).2 hend
  cases hway.symm.trans hway'
  rw [horigin, houtput, hfolder]
  refine ⟨way, hway, ?_⟩
  rintro t (rfl | rfl)
  · exact hiff
  · exact hiff'

/-- A script beside the source that it is emitted from. -/
def emittedBeside : FileTree :=
  ⟨⟨[(["a.js"], .file (.text "export{y}")), (["a.ts"], .file (.text "export{x}"))]⟩⟩

def emittedJob : Job := ⟨["a.js"], [], ⟨false, ["index.ts"]⟩, false, .double, none⟩

def emittedPlan : Plan := ⟨⟨true, ["index.ts"]⟩, .top, [⟨true, ["a.js"]⟩], []⟩

theorem emittedBeside_wellFormed : emittedBeside.WellFormed :=
  FileTree.wellFormed_of_check (by decide)

theorem emittedJob_plan : emittedJob.plan ⟨emittedBeside, some .top⟩ = .ok emittedPlan := by
  apply Job.plan_single .top ⟨true, ["index.ts"]⟩ rfl rfl
  · exact Glob.expand_single (by decide +kernel) (by decide +kernel)
  · exact Glob.expand_nil emittedBeside .top
  · decide +kernel

/-- The draft of that plan has one line with one clause. -/
theorem emittedPlan_drafted : ∃ d l, emittedPlan.Drafted emittedBeside d l ∧
    d.registry.lines = [⟨"./a", [("y", "y")]⟩] := by
  have hentries : (Load.exec (do
      preload emittedBeside [⟨true, ["a.js"]⟩]
      exportsOf emittedBeside ⟨true, ["a.js"]⟩) (.sealing [])).1.toOption.map (·.entries) =
        some [("y", [0])] := by
    decide +kernel
  obtain ⟨l, hl⟩ := Draft.exec_ofFiles_single hentries
  refine ⟨_, l, hl, ?_⟩
  rw [Draft.exportList_single]
  decide +kernel

/-- That barrel names the script by a specifier that leads to its source, which is no input. -/
theorem emittedJob_points_to_source : ∃ o,
    (emittedJob.run ⟨emittedBeside, some .top⟩).1 = .ok o ∧ o.files = [⟨true, ["a.js"]⟩] ∧
      o.text = Line.text .double ⟨"./a", [("y", "y")]⟩ ∧
      resolve? emittedBeside o.output "./a" ≠ some ⟨true, ["a.js"]⟩ ∧
      resolve? emittedBeside o.output "./a" = some ⟨true, ["a.ts"]⟩ := by
  obtain ⟨d, l, hd, hlines⟩ := emittedPlan_drafted
  have hdraft : emittedPlan.draft emittedBeside = .ok d := congrArg Prod.fst hd
  have hwrite : emittedJob.write = false := rfl
  obtain ⟨o, ho, hout⟩ : ∃ o, (emittedJob.run ⟨emittedBeside, some .top⟩).1 = .ok o ∧
      o.output = emittedPlan.output := by
    simp [Job.run, Job.make, emittedJob_plan, hdraft, hwrite, bind, Except.bind, pure, Except.pure]
  obtain ⟨p, d', l', hp, _, hfiles, hd', htext, hpoints⟩ :=
    Job.clause_points_iff emittedBeside_wellFormed ho
  cases emittedJob_plan.symm.trans hp
  cases hd.symm.trans hd'
  have hfiles : o.files = [⟨true, ["a.js"]⟩] := hfiles
  rw [hlines] at htext hpoints
  refine ⟨o, ho, hfiles, ?_, ?_, ?_⟩
  · rw [htext, List.map_singleton, String.intercalate_singleton]
    rfl
  · obtain ⟨c, _, _, g, hg, _, way, _, hiff⟩ :=
      hpoints _ (List.mem_singleton.mpr rfl) _ (List.mem_singleton.mpr rfl)
    rw [hfiles] at hg
    cases List.mem_singleton.mp hg
    intro hres
    have hbefore := ((hiff _ (Or.inl rfl)).mp hres).2
    rw [hout] at hbefore
    exact hbefore ⟨true, ["a.ts"]⟩ (by decide +kernel) (by decide +kernel)
  · rw [hout]
    decide +kernel

end BarrelAlias.Barrel
