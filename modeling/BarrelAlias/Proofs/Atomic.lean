import BarrelAlias.Proofs.Rerun

/-!
Replacing a file is all or nothing. Where nothing stands under the name of the staged text, a
replacement that fails leaves the tree as it was, whatever step of it failed, and one that succeeds
changes the file and nothing else. Making a barrel writes in no other way, so a run that fails or that
was not asked to write leaves the tree as it was, and one that writes changes its output only.
-/

namespace BarrelAlias

namespace FileTree

variable {t : FileTree} {p : Path} {loc : Location}

def Unstaged (t : FileTree) (p : Path) : Prop :=
  ∀ name, p.fileName? = some name → t.nodeAt? (p.withFileName (stagedName name)) = none

theorem lookalike_putFile (hne : loc ≠ []) (hnot : ¬ t.hasFolder loc) (c : Content) :
    t.Lookalike (t.putFile loc c) (· = loc) where
  folders l := by
    rw [hasFolder, node?_putFile t hne]
    split
    · next hl =>
      rw [Bool.not_eq_true] at hnot
      simp [hl, hnot]
    · rfl
  standing l hl := by rw [node?_putFile t hne, if_neg hl]
  leaves l hl := hl ▸ hnot

/-- A path that can be written leads to the place that is written once something stands there. -/
theorem locate_of_writable? (h : t.writable? p = some loc) (hn : (t.node? loc).isSome) :
    t.locate p = .ok loc := by
  obtain ⟨htarget, _⟩ := Option.filter_eq_some_iff.mp h
  obtain ⟨_, folder, name, rfl, hf, hlast, hfolder⟩ := writable?_eq_some h
  have hname : isName name := by
    unfold target? at htarget
    rw [hlast] at htarget
    by_contra hnot
    simp [hnot] at htarget
  obtain ⟨hne, hdot, hup⟩ := isName_of_isName hname
  obtain ⟨rooted, parts⟩ := p
  obtain rfl : rooted = true := (locate_ok hfolder).1
  have hparts : parts.dropLast ++ [name] = parts := List.dropLast_append_getLast? name hlast
  have hfollow : t.follow [] parts.dropLast = .ok folder := hfolder
  change t.follow [] parts = _
  rw [← hparts, follow_append, hfollow]
  simp [follow, hf, hne, hdot, hup, hn]

/-- The path has a file name, and both the staged text and the file itself can be written. -/
def CanReplace (t : FileTree) (p : Path) : Prop :=
  ∃ name, p.fileName? = some name ∧ (t.writable? (p.withFileName (stagedName name))).isSome ∧
    (t.writable? p).isSome

/-- All that replacing a file can do where nothing is staged. -/
theorem replaceFile_cases (h : t.Unstaged p) (s : String) :
    (∃ f, t.replaceFile p s = (.error f, t) ∧ ¬ t.CanReplace p) ∨
      ∃ loc, t.writable? p = some loc ∧ t.CanReplace p ∧
        t.replaceFile p s = (.ok (), t.putFile loc (.text s)) := by
  unfold replaceFile CanReplace
  cases hname : p.fileName? with
  | none => exact .inl ⟨_, rfl, by simp⟩
  | some name =>
    have hfree := h name hname
    simp only [write?, Option.some.injEq, exists_eq_left']
    generalize p.withFileName (stagedName name) = staged at hfree
    cases hw : t.writable? staged with
    | none => exact .inl ⟨_, rfl, by simp⟩
    | some place =>
      obtain ⟨hnot, folder, last, hat, _⟩ := writable?_eq_some hw
      have hne : place ≠ [] := hat ▸ List.concat_ne_nil last folder
      have hnone : t.node? place = none := by
        by_contra hsome
        have hsome := Option.isSome_iff_ne_none.mpr hsome
        have hstands := isSome_nodeAt?_iff.mpr ⟨place, locate_of_writable? hw hsome⟩
        simp [hfree] at hstands
      have hlook := lookalike_putFile hne hnot (.text s)
      have hnode : (t.putFile place (.text s)).node? place = some (.file (.text s)) := by
        rw [node?_putFile t hne, if_pos rfl]
      have hlocate : (t.putFile place (.text s)).locate staged = .ok place :=
        locate_of_writable? ((hlook.writable?_eq staged).trans hw) (by simp [hnode])
      -- without the staged text the tree is as it was
      have hback : (t.putFile place (.text s)).erase place = t := by
        rw [node?, if_neg hne] at hnone
        unfold putFile erase
        rw [Table.erase_insert _ hnone]
      simp only [Option.map_some, moveFile?, hlocate, hlook.writable?_eq p]
      cases hp : t.writable? p with
      | none => exact .inl ⟨.notReplaced p, by simp [removeFile?, hlocate, hnode, hback], by simp⟩
      | some new => exact .inr ⟨new, rfl, ⟨rfl, rfl⟩, by simp [hnode, hback]⟩

/-- A file that was put where a path can be written is found under that path. -/
theorem locate_putFile (h : t.writable? p = some loc) (c : Content) :
    (t.putFile loc c).locate p = .ok loc ∧ (t.putFile loc c).node? loc = some (.file c) := by
  obtain ⟨hnot, folder, name, hloc, _⟩ := writable?_eq_some h
  have hne : loc ≠ [] := hloc ▸ List.concat_ne_nil name folder
  have hnode : (t.putFile loc c).node? loc = some (.file c) := by
    rw [node?_putFile t hne, if_pos rfl]
  have hwritable := ((lookalike_putFile hne hnot c).writable?_eq p).trans h
  exact ⟨locate_of_writable? hwritable (by simp [hnode]), hnode⟩

/-- A file that was put takes nothing away from paths that lead elsewhere. -/
theorem nodeAt?_putFile (h : t.writable? p = some loc) (c : Content) {q : Path}
    (hq : (t.putFile loc c).locate q ≠ .ok loc) : (t.putFile loc c).nodeAt? q = t.nodeAt? q := by
  obtain ⟨hnot, folder, name, hloc, _⟩ := writable?_eq_some h
  have hne : loc ≠ [] := hloc ▸ List.concat_ne_nil name folder
  have hlook : t.Lookalike (t.putFile loc c) (NewIn t (t.putFile loc c)) :=
    lookalike_of_folders (lookalike_putFile hne hnot c).folders
  refine hlook.nodeAt?_eq (fun l hnew he => hnew (by rw [he])) ?_
  have hkept : ∀ l, l ≠ loc → (t.putFile loc c).node? l = t.node? l := by
    intro l hl
    rw [node?_putFile t hne, if_neg hl]
  rintro l (hl | hl)
  · refine hkept l ?_
    rintro rfl
    -- where something stood before, paths lead as they did
    refine hq (hlook.locate hl fun hnew => hnew ?_)
    rw [node?_putFile t hne, if_pos rfl, (placed_of_locate hl).isSome, Option.isSome_some]
  · exact hkept l fun he => hq (he ▸ hl)

/-- The staged text has another name than the file. -/
theorem locate_staged_ne (h : t.writable? p = some loc) {name : String}
    (hname : p.fileName? = some name) (t' : FileTree) :
    t'.locate (p.withFileName (stagedName name)) ≠ .ok loc := by
  intro hstaged
  obtain ⟨_, folder, last, rfl, _, hlast, hfolder⟩ := writable?_eq_some h
  have hrooted : p.rooted := (locate_ok hfolder).1
  have hparent : (p.parent?.getD p).rooted := by
    have hup := (Path.steps_parent hrooted).1
    cases hpar : p.parent? with
    | none => exact hrooted
    | some q => rwa [hpar] at hup
  obtain ⟨front, stem, htext⟩ := exists_ofText_staged name
  rw [Path.withFileName, hname, Option.isSome_some, if_pos rfl, htext] at hstaged
  have hplace := (locate_ok hstaged).2
  rw [Path.steps_join hparent rfl, Path.stepsOf_concat false front (isName_staged stem),
    ← List.append_assoc, Location.ofSteps, List.foldl_append] at hplace
  change _ = _ ++ [stem ++ ".tstf-tmp"] at hplace
  have hat : last = stem ++ ".tstf-tmp" := by simpa using congrArg List.getLast? hplace
  rw [← hat] at htext
  have hparts : p = ⟨p.rooted, p.parts.dropLast ++ [last]⟩ := by
    rw [List.dropLast_append_getLast? last hlast]
  rw [hparts, Path.fileName?_concat _ _ (hat ▸ isName_staged stem), Option.some.injEq] at hname
  subst hname
  have hslash : '/' ∉ last.toList :=
    (Path.mem_parts_ofText (s := stagedName last) (by simp [htext])).1
  rw [ofText_stagedName hslash] at htext
  have hsame : stagedName last = last := by
    simpa using congrArg (fun q => q.parts.getLast?) htext
  exact staged_ne last hsame

/-- Replacing a file is atomic. It succeeds exactly if the path has a file name and both the staged text
and the file itself can be written; then the path leads to the text, and nothing else in the tree has
changed, neither what stands at the other places nor what the other paths lead to. When it fails, for
whatever reason, the tree is as it was. In either case nothing is staged afterwards. -/
theorem replaceFile_atomic (t : FileTree) (p : Path) (s : String) (h : t.Unstaged p) :
    (t.replaceFile p s).2.Unstaged p ∧
    (∀ f t', t.replaceFile p s = (.error f, t') → t' = t) ∧
    (∀ t', t.replaceFile p s = (.ok (), t') →
      t'.read p = .ok s ∧
      (∃ loc, t'.locate p = .ok loc ∧ ∀ other, other ≠ loc → t'.node? other = t.node? other) ∧
      ∀ q, t'.locate q ≠ t'.locate p → t'.nodeAt? q = t.nodeAt? q) ∧
    ((t.replaceFile p s).1 = .ok () ↔ t.CanReplace p) := by
  rcases replaceFile_cases h s with ⟨f, hf, hcannot⟩ | ⟨loc, hloc, hcan, hok⟩
  · rw [hf]
    exact ⟨h, by simp, by simp, by simpa using hcannot⟩
  · obtain ⟨hlocate, hnode⟩ := locate_putFile hloc (.text s)
    obtain ⟨_, folder, name, hat, _⟩ := writable?_eq_some hloc
    have hne : loc ≠ [] := hat ▸ List.concat_ne_nil name folder
    rw [hok]
    refine ⟨?_, by simp, ?_, by simpa using hcan⟩
    · intro name hname
      rw [nodeAt?_putFile hloc _ (locate_staged_ne hloc hname _)]
      exact h name hname
    · rintro t' he
      cases he
      refine ⟨read_of_locate hlocate hnode, ⟨loc, hlocate, fun other hother => ?_⟩, fun q hq => ?_⟩
      · rw [node?_putFile t hne, if_neg hother]
      · exact nodeAt?_putFile hloc _ (hlocate ▸ hq)

def oldBeside : FileTree := ⟨⟨[
  (["src"], .folder),
  (["src", "a.ts"], .file (.text "old")),
  (["src", "b.ts"], .file (.text "other"))]⟩⟩

/-- The file is replaced and the one beside it stays; the folder cannot be replaced by a text. -/
theorem oldBeside_replaced :
    (∃ t', oldBeside.replaceFile ⟨true, ["src", "a.ts"]⟩ "new" = (.ok (), t') ∧
      t'.read ⟨true, ["src", "a.ts"]⟩ = .ok "new" ∧
      t'.nodeAt? ⟨true, ["src", "b.ts"]⟩ = some (.file (.text "other"))) ∧
    ∃ f, oldBeside.replaceFile ⟨true, ["src"]⟩ "new" = (.error f, oldBeside) := by
  have hfree : ∀ p name, p.fileName? = some name →
      oldBeside.nodeAt? (p.withFileName (stagedName name)) = none → oldBeside.Unstaged p := by
    intro p name hname hnone name' hname'
    cases hname.symm.trans hname'
    exact hnone
  have hfile := hfree ⟨true, ["src", "a.ts"]⟩ "a.ts" (by decide +kernel) (by decide +kernel)
  have hfolder := hfree ⟨true, ["src"]⟩ "src" (by decide +kernel) (by decide +kernel)
  constructor
  · obtain ⟨_, _, hwritten, hcan⟩ := replaceFile_atomic oldBeside ⟨true, ["src", "a.ts"]⟩ "new" hfile
    have hok := hcan.mpr ⟨"a.ts", by decide +kernel, by decide +kernel, by decide +kernel⟩
    rcases hrun : oldBeside.replaceFile ⟨true, ["src", "a.ts"]⟩ "new" with ⟨r, t'⟩
    rw [hrun] at hok
    cases hok
    obtain ⟨hread, ⟨loc, hloc, _⟩, hothers⟩ := hwritten t' hrun
    have hapart : t'.locate ⟨true, ["src", "b.ts"]⟩ ≠ t'.locate ⟨true, ["src", "a.ts"]⟩ := by
      intro he
      rw [hloc] at he
      have hsame := (locate_ok he).2.symm.trans (locate_ok hloc).2
      revert hsame
      decide +kernel
    refine ⟨t', rfl, hread, ?_⟩
    rw [hothers _ hapart]
    decide +kernel
  · obtain ⟨_, hfailed, _, hcan⟩ := replaceFile_atomic oldBeside ⟨true, ["src"]⟩ "new" hfolder
    have hcannot : ¬ oldBeside.CanReplace ⟨true, ["src"]⟩ := by
      rintro ⟨_, _, _, hsome⟩
      revert hsome
      decide +kernel
    rcases hrun : oldBeside.replaceFile ⟨true, ["src"]⟩ "new" with ⟨r, t'⟩
    cases r with
    | ok _ => exact absurd (hcan.mp (by rw [hrun])) hcannot
    | error f => exact ⟨f, by rw [hfailed f t' hrun]⟩

end FileTree

namespace Barrel

variable {j : Job} {w : Workspace}

def Job.Unstaged (j : Job) (w : Workspace) : Prop :=
  ∀ base output, j.base w = .ok base → outputPath w.tree base j.out = .ok output →
    w.tree.Unstaged output

theorem Job.Unstaged.output (h : j.Unstaged w) {o : Outcome} (hmake : j.make w = .ok o) :
    w.tree.Unstaged o.output := by
  obtain ⟨p, d, hplan, _, _, houtput, _⟩ := Job.make_ok hmake
  obtain ⟨base, _, hbase, hpath, _⟩ := Job.plan_ok hplan
  rw [houtput]
  exact h base p.output hbase hpath

theorem Job.make_unwritten {o : Outcome} (h : j.make w = .ok o) : o.written = false := by
  obtain ⟨_, _, h⟩ := Except.bind_eq_ok.mp h
  obtain ⟨_, _, h⟩ := Except.bind_eq_ok.mp h
  cases h
  rfl

/-- All that a run can do: fail, or make the barrel and keep it to itself, or put it in its place. -/
theorem Job.run_cases (h : j.Unstaged w) :
    (∃ f, j.run w = (.error f, w.tree)) ∨
      ∃ o, j.make w = .ok o ∧
        (j.write = false ∧ j.run w = (.ok o, w.tree) ∨
          j.write = true ∧ ∃ loc, w.tree.writable? o.output = some loc ∧
            j.run w = (.ok { o with written := true }, w.tree.putFile loc (.text o.text))) := by
  unfold Job.run
  cases hmake : j.make w with
  | error f => exact .inl ⟨f, rfl⟩
  | ok o =>
    cases hwrite : j.write with
    | false => exact .inr ⟨o, rfl, .inl ⟨rfl, rfl⟩⟩
    | true =>
      rcases FileTree.replaceFile_cases (h.output hmake) o.text with
        ⟨f, hf, _⟩ | ⟨loc, hloc, _, hok⟩
      · exact .inl ⟨f, by simp [hf]⟩
      · exact .inr ⟨o, rfl, .inr ⟨rfl, loc, hloc, by simp [hok]⟩⟩

/-- A run that fails, at whatever stage, or that was not asked to write leaves the tree as it was. One
that writes leaves the text that it returns in its output, all else as it was, and returns what it would
have returned without writing. -/
theorem Job.run_changes_output_only (j : Job) (w : Workspace) (h : j.Unstaged w) :
    (∀ f t', j.run w = (.error f, t') → t' = w.tree) ∧
    (j.write = false → (j.run w).2 = w.tree) ∧
    ∀ o t', j.write = true → j.run w = (.ok o, t') →
      t'.read o.output = .ok o.text ∧
      (∃ loc, t'.locate o.output = .ok loc ∧
        ∀ other, other ≠ loc → t'.node? other = w.tree.node? other) ∧
      ({ j with write := false } : Job).run w = (.ok { o with written := false }, w.tree) := by
  rcases Job.run_cases h with ⟨f, hf⟩ | ⟨o, hmake, ⟨hwrite, hrun⟩ | ⟨hwrite, loc, hloc, hrun⟩⟩
  · simp [hf]
  · simp [hrun, hwrite]
  · refine ⟨by simp [hrun], by simp [hwrite], ?_⟩
    rintro o' t' _ hok
    cases hrun.symm.trans hok
    obtain ⟨hlocate, hnode⟩ := FileTree.locate_putFile hloc (.text o.text)
    obtain ⟨_, folder, name, hat, _⟩ := FileTree.writable?_eq_some hloc
    have hne : loc ≠ [] := hat ▸ List.concat_ne_nil name folder
    refine ⟨FileTree.read_of_locate hlocate hnode, ⟨loc, hlocate, ?_⟩, ?_⟩
    · intro other hother
      rw [FileTree.node?_putFile w.tree hne, if_neg hother]
    · have hpreview : ({ j with write := false } : Job).make w = .ok o := hmake
      have hsame : ({ o with written := false } : Outcome) = o := by rw [← Job.make_unwritten hmake]
      rw [Job.run, hpreview, hsame]
      rfl

theorem renewJob_unstaged : renewJob.Unstaged ⟨besideOld, some .top⟩ := by
  intro base output hbase houtput
  have hbase' : renewJob.base ⟨besideOld, some .top⟩ = .ok .top := rfl
  have houtput' : outputPath besideOld .top renewJob.out = .ok ⟨true, ["index.ts"]⟩ := rfl
  cases hbase.symm.trans hbase'
  cases houtput.symm.trans houtput'
  intro name hname
  have hname' : Path.fileName? ⟨true, ["index.ts"]⟩ = some "index.ts" := by decide +kernel
  cases hname.symm.trans hname'
  decide +kernel

/-- The new barrel takes the place of the old one, and the files beside it stay. -/
theorem renewJob_changes_output_only : ∃ o t', renewJob.run ⟨besideOld, some .top⟩ = (.ok o, t') ∧
    t'.node? ["index.ts"] = some (.file (.text o.text)) ∧
    t'.node? ["a.ts"] = besideOld.node? ["a.ts"] ∧
    ({ renewJob with write := false } : Job).run ⟨besideOld, some .top⟩ =
      (.ok { o with written := false }, besideOld) := by
  obtain ⟨d, hdraft, _⟩ := renewPlan_draft
  have hmake : ∃ o, renewJob.make ⟨besideOld, some .top⟩ = .ok o ∧
      o.output = ⟨true, ["index.ts"]⟩ := by
    simp only [Job.make, renewJob_plan, hdraft, bind, Except.bind]
    exact ⟨_, rfl, rfl⟩
  obtain ⟨o, hmake, houtput⟩ := hmake
  have hslash : '/' ∉ "index.ts".toList := by decide
  have hreplace := besideOld_replaceable.replaceFile_eq hslash o.text
  have hrun := (Job.run_written rfl).mpr ⟨o, hmake, rfl, houtput ▸ hreplace⟩
  obtain ⟨_, _, hwritten⟩ := Job.run_changes_output_only _ _ renewJob_unstaged
  obtain ⟨hread, ⟨loc, hloc, hothers⟩, hpreview⟩ := hwritten _ _ rfl hrun
  obtain ⟨loc', hloc', hnode⟩ := FileTree.read_ok hread
  cases hloc.symm.trans hloc'
  have hat : loc = ["index.ts"] := by
    rw [(FileTree.locate_ok hloc).2]
    change Location.ofSteps o.output.steps = _
    rw [houtput]
    decide +kernel
  subst hat
  exact ⟨_, _, hrun, hnode, hothers ["a.ts"] (by decide), hpreview⟩

end Barrel

end BarrelAlias
