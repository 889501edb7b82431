import BarrelAlias.Alias.Job
import BarrelAlias.Proofs.Atomic
import BarrelAlias.Proofs.Rewriting

/-!
Aliases in all files of a project. All files are read before the first one is written, and each of them
is replaced in one step, so a run either leaves the tree as it was or has come to its writes; and then
every file holds its old text or its new one, and a run that succeeds leaves the new text in every file
that has edits. Two files of a project can be one file under two spellings, but then they are given one
text.
-/

namespace BarrelAlias

open BarrelAlias.Path (IsName stepsOf)

namespace FileTree

variable {t t' : FileTree} {p q : Path} {loc : Location}

def NoneStaged (t : FileTree) : Prop := ∀ folder name, t.node? (stagedAt folder name) = none

structure Finds (t : FileTree) (p : Path) (loc : Location) : Prop where
  locate : t.locate p = .ok loc
  file : ¬ t.hasFolder loc

theorem finds_of_read {s : String} (h : t.read p = .ok s) :
    ∃ loc, t.Finds p loc ∧ t.node? loc = some (.file (.text s)) := by
  obtain ⟨loc, hl, hn⟩ := read_ok h
  exact ⟨loc, ⟨hl, by simp [hasFolder, hn]⟩, hn⟩

theorem Lookalike.finds_iff (h : t.Lookalike t' fun _ => False) :
    t'.Finds p loc ↔ t.Finds p loc := by
  have hlocate := h.locate_eq p
  have hfolder := h.folders loc
  constructor <;> rintro ⟨hp, hf⟩
  · exact ⟨hlocate.symm.trans hp, hfolder ▸ hf⟩
  · exact ⟨hlocate.trans hp, hfolder ▸ hf⟩

theorem Lookalike.noneStaged (h : t.Lookalike t' fun _ => False) (hs : t.NoneStaged) :
    t'.NoneStaged := by
  intro folder name
  have hstands := h.standing (stagedAt folder name) not_false
  simpa [hs folder name] using hstands

/-- A path to a file ends with the name of the file, after a path to its folder. -/
theorem Finds.exists_name (h : t.Finds p loc) :
    ∃ front folder name, p = ⟨true, front ++ [name]⟩ ∧ IsName name ∧
      t.locate ⟨true, front⟩ = .ok folder ∧ loc = folder ++ [name] := by
  obtain ⟨rooted, parts⟩ := p
  obtain rfl : rooted = true := (locate_ok h.locate).1
  have hfollow : t.follow [] parts = .ok loc := h.locate
  rcases List.eq_nil_or_concat parts with rfl | ⟨front, name, rfl⟩
  · cases hfollow
    exact absurd rfl h.file
  · rw [List.concat_eq_append, follow_append] at hfollow
    cases hfront : t.follow [] front with
    | error e =>
      rw [hfront] at hfollow
      cases hfollow
    | ok folder =>
      rw [hfront] at hfollow
      have hplaced : t.Placed folder := Placed.top.follow hfront
      simp only [follow] at hfollow
      split at hfollow
      · next hf =>
        split at hfollow
        · cases hfollow
          exact absurd hf h.file
        · next hname =>
          rw [not_or] at hname
          split at hfollow
          · cases hfollow
            -- going up leads to a folder
            refine absurd ?_ h.file
            cases hplaced with
            | top => rfl
            | inside _ hup _ _ _ _ =>
              rw [List.dropLast_concat]
              exact hup
          · next hup =>
            split at hfollow
            · cases hfollow
              exact ⟨front, folder, name, by rw [List.concat_eq_append], ⟨hname.1, hname.2, hup⟩,
                hfront, rfl⟩
            · cases hfollow
      · cases hfollow

/-- What is written under the path of a file is written in its place. -/
theorem Finds.writable? (h : t.Finds p loc) {loc' : Location} (hw : t.writable? p = some loc') :
    loc' = loc := by
  obtain ⟨front, folder, name, rfl, _, hfolder, rfl⟩ := h.exists_name
  obtain ⟨_, folder', name', rfl, _, hlast, hfolder'⟩ := writable?_eq_some hw
  rw [List.dropLast_concat, hfolder] at hfolder'
  cases hfolder'
  have hname : name = name' := by simpa using hlast
  rw [hname]

/-- The directory of a path to a file leads to the folder of the file. -/
theorem Finds.parent (h : t.Finds p loc) :
    (p.parent?.getD .top).rooted ∧ ∃ name, p.fileName? = some name ∧
      loc = Location.ofSteps (p.parent?.getD .top).steps ++ [name] := by
  obtain ⟨front, folder, name, rfl, hname, hfolder, rfl⟩ := h.exists_name
  obtain ⟨hrooted, hsteps⟩ := Path.steps_parent (p := ⟨true, front ++ [name]⟩) rfl
  refine ⟨hrooted, name, Path.fileName?_concat true front hname, ?_⟩
  rw [hsteps, Path.stepsOf_concat false front hname, List.dropLast_concat, (locate_ok hfolder).2]
  rfl

theorem parent?_of_fileName? {name : String} (hr : p.rooted) (h : p.fileName? = some name) :
    p.parent?.getD p = p.parent?.getD .top := by
  unfold Path.parent?
  split
  · next htrim =>
    have hsteps := Path.steps_trimmed hr
    have hrooted : p.trimmed.rooted := hr
    rw [Path.steps_of_rooted hrooted, htrim] at hsteps
    rw [Path.fileName?, ← hsteps] at h
    cases h
  · rfl

/-- Nothing is staged for a file whose name has no slash if nothing is staged anywhere. -/
theorem Finds.unstaged (h : t.Finds p loc) (hs : t.NoneStaged)
    (hslash : ∀ m ∈ loc, '/' ∉ m.toList) : t.Unstaged p := by
  intro name hname
  obtain ⟨hrooted, name', hname', hloc⟩ := h.parent
  cases hname.symm.trans hname'
  have htext := ofText_stagedName (hslash name (by simp [hloc]))
  rw [Path.withFileName, hname, Option.isSome_some, if_pos rfl, htext,
    parent?_of_fileName? (locate_ok h.locate).1 hname]
  by_contra hsome
  obtain ⟨l, hl⟩ := isSome_nodeAt?_iff.mp (Option.isSome_iff_ne_none.mpr hsome)
  have hat : l = stagedAt (Location.ofSteps (p.parent?.getD .top).steps) name := by
    have hstaged := isName_staged ("." ++ name)
    rw [(locate_ok hl).2, Path.steps_join hrooted rfl, Location.ofSteps, List.foldl_append,
      ← List.nil_append [stagedName name], stagedName, Path.stepsOf_concat false [] hstaged]
    rfl
  have hstands := (placed_of_locate hl).isSome
  rw [hat, hs] at hstands
  cases hstands

/-- All that replacing a file that is there can do. -/
theorem Finds.replaceFile_cases (h : t.Finds p loc) (hs : t.NoneStaged)
    (hslash : ∀ m ∈ loc, '/' ∉ m.toList) (s : String) :
    (∃ f, t.replaceFile p s = (.error f, t)) ∨
      t.replaceFile p s = (.ok (), t.putFile loc (.text s)) := by
  rcases FileTree.replaceFile_cases (h.unstaged hs hslash) s with
    ⟨f, hf, _⟩ | ⟨loc', hloc', _, hok⟩
  · exact .inl ⟨f, hf⟩
  · rw [h.writable? hloc'] at hok
    exact .inr hok

/-- Putting a text where a file stands adds nothing to the tree and takes nothing away. -/
theorem Finds.lookalike (h : t.Finds p loc) (s : String) :
    t.Lookalike (t.putFile loc (.text s)) fun _ => False := by
  obtain ⟨front, folder, name, _, _, _, hloc⟩ := h.exists_name
  have hne : loc ≠ [] := hloc ▸ List.concat_ne_nil name folder
  have hput := lookalike_putFile hne h.file (.text s)
  refine ⟨hput.folders, ?_, fun _ => False.elim⟩
  intro l _
  by_cases hl : l = loc
  · rw [hl, node?_putFile t hne, if_pos rfl, (placed_of_locate h.locate).isSome]
    rfl
  · exact hput.standing l hl

theorem Finds.node?_putFile (h : t.Finds p loc) (s : String) (l : Location) :
    (t.putFile loc (.text s)).node? l = if l = loc then some (.file (.text s)) else t.node? l := by
  obtain ⟨front, folder, name, _, _, _, hloc⟩ := h.exists_name
  exact FileTree.node?_putFile t (hloc ▸ List.concat_ne_nil name folder) (.text s) l

end FileTree

namespace Alias

open FileTree

variable {t t' : FileTree} {d : Directory} {quote : QuoteStyle} {rs : List Revision} {loc : Location}

def Standing (t : FileTree) (rs : List Revision) : Prop :=
  ∀ r ∈ rs, ∃ loc, t.Finds r.file loc ∧ ∀ m ∈ loc, '/' ∉ m.toList

/-- All that the first of several writes can do: it fails, or it puts a text in the place of a file and
leaves the rest standing where they stood. -/
theorem writeAll_cons {r : Revision} (hs : t.NoneStaged) (hrs : Standing t (r :: rs)) :
    (∃ f, writeAll t (r :: rs) = (.error f, t)) ∨
      ∃ loc, t.Finds r.file loc ∧ (t.putFile loc (.text r.text)).NoneStaged ∧
        Standing (t.putFile loc (.text r.text)) rs ∧
        writeAll t (r :: rs) = writeAll (t.putFile loc (.text r.text)) rs := by
  obtain ⟨loc, hfinds, hslash⟩ := hrs r (List.mem_cons_self ..)
  have hlook := hfinds.lookalike r.text
  rcases hfinds.replaceFile_cases hs hslash r.text with ⟨f, hf⟩ | hok
  · exact .inl ⟨f, by simp [writeAll, hf]⟩
  · refine .inr ⟨loc, hfinds, hlook.noneStaged hs, ?_, by simp [writeAll, hok]⟩
    intro r' hr'
    obtain ⟨loc', hfinds', hslash'⟩ := hrs r' (List.mem_cons_of_mem r hr')
    exact ⟨loc', hlook.finds_iff.mpr hfinds', hslash'⟩

/-- However many of the writes are made, each place is as it was or holds a text that was to be written
there. -/
theorem node?_writeAll (hs : t.NoneStaged) (hrs : Standing t rs) (loc : Location) :
    (writeAll t rs).2.node? loc = t.node? loc ∨
      ∃ r ∈ rs, t.Finds r.file loc ∧
        (writeAll t rs).2.node? loc = some (.file (.text r.text)) := by
  induction rs generalizing t with
  | nil => exact .inl rfl
  | cons r rs ih =>
    rcases writeAll_cons hs hrs with ⟨f, hf⟩ | ⟨first, hfinds, hs', hrs', hok⟩
    · exact .inl (by rw [hf])
    · rw [hok]
      rcases ih hs' hrs' with hkept | ⟨r', hr', hfinds', hput⟩
      · rw [hkept, hfinds.node?_putFile]
        split
        · next hloc => exact .inr ⟨r, List.mem_cons_self .., hloc ▸ hfinds, rfl⟩
        · exact .inl rfl
      · exact .inr ⟨r', List.mem_cons_of_mem r hr', (hfinds.lookalike r.text).finds_iff.mp hfinds',
          hput⟩

/-- Once all writes are made, each file holds a text that was to be written there. -/
theorem node?_of_writeAll (hs : t.NoneStaged) (hrs : Standing t rs)
    (h : writeAll t rs = (.ok (), t')) {r : Revision} (hr : r ∈ rs) (hloc : t.Finds r.file loc) :
    ∃ r' ∈ rs, t.Finds r'.file loc ∧ t'.node? loc = some (.file (.text r'.text)) := by
  induction rs generalizing t with
  | nil => cases hr
  | cons first rs ih =>
    rcases writeAll_cons hs hrs with ⟨f, hf⟩ | ⟨place, hfinds, hs', hrs', hok⟩
    · rw [hf] at h
      cases h
    · have hback : ∀ {p l}, (t.putFile place (.text first.text)).Finds p l ↔ t.Finds p l :=
        (hfinds.lookalike first.text).finds_iff
      rw [hok] at h
      rcases List.mem_cons.mp hr with rfl | hr
      · cases hloc.locate.symm.trans hfinds.locate
        -- the text is in its place unless a later write puts another there
        rcases node?_writeAll hs' hrs' loc with hkept | ⟨r', hr', hfinds', hput⟩
        · rw [h, hfinds.node?_putFile, if_pos rfl] at hkept
          exact ⟨r, List.mem_cons_self .., hloc, hkept⟩
        · rw [h] at hput
          exact ⟨r', List.mem_cons_of_mem r hr', hback.mp hfinds', hput⟩
      · obtain ⟨r', hr', hfinds', hput⟩ := ih hs' hrs' h hr (hback.mpr hloc)
        exact ⟨r', List.mem_cons_of_mem first hr', hback.mp hfinds', hput⟩

/-- A specifier names the same path in all spellings of a directory. -/
theorem Directory.resolved_congr {dir dir' : Path} (h : dir.rooted) (h' : dir'.rooted)
    (he : Location.ofSteps dir.steps = Location.ofSteps dir'.steps) (rel : String) :
    resolved dir rel = resolved dir' rel := by
  unfold resolved
  cases hr : (Path.ofText rel).rooted with
  | true => simp [Path.join, hr]
  | false =>
    rw [Path.clean_of_rooted (Path.rooted_join h), Path.clean_of_rooted (Path.rooted_join h'),
      Path.steps_join h hr, Path.steps_join h' hr, Location.ofSteps, List.foldl_append]
    rw [Location.ofSteps, Location.ofSteps] at he
    rw [he, ← List.foldl_append]
    rfl

theorem sites_of_shorten {file : Path} {source : String} {out : String × List Edit}
    (h : shorten d quote file source = .ok out) : ∃ ss, Linkage.sites file source = .ok ss := by
  obtain ⟨ss, hss, _⟩ := Except.bind_eq_ok.mp h
  exact ⟨ss, hss⟩

theorem sites_congr {p q : Path} (h : p.fileName? = q.fileName?) {source : String}
    {ss : List Linkage.Site} (hp : Linkage.sites p source = .ok ss) :
    Linkage.sites q source = .ok ss := by
  have hd : Script.Dialect.ofPath p = Script.Dialect.ofPath q := by
    unfold Script.Dialect.ofPath Path.extension?
    rw [h]
  unfold Linkage.sites Linkage.statementsOf at hp ⊢
  rw [← hd]
  cases hparse : Script.parse? (.ofPath p) source.toList with
  | none => simp [hparse, Except.map] at hp
  | some ss => simpa [hparse] using hp

theorem replacements_congr (quote : QuoteStyle) {dir dir' : Path}
    (h : ∀ rel, d.aliasFor? dir rel = d.aliasFor? dir' rel) (source : List Char)
    (ss : List Linkage.Site) :
    replacements d quote dir source ss = replacements d quote dir' source ss := by
  have hsite : ∀ s, replacement? d quote dir source s = replacement? d quote dir' source s := by
    intro s
    unfold replacement?
    rw [h]
  unfold replacements
  rw [funext hsite]

/-- A file is given one text under all its spellings. -/
theorem shorten_spellings {p q : Path} (hp : t.Finds p loc) (hq : t.Finds q loc)
    {source out out' : String} {edits edits' : List Edit}
    (h : shorten d quote p source = .ok (out, edits))
    (h' : shorten d quote q source = .ok (out', edits')) : out = out' := by
  obtain ⟨hrp, name, hname, hloc⟩ := hp.parent
  obtain ⟨hrq, name', hname', hloc'⟩ := hq.parent
  obtain ⟨hfolder, hlast⟩ := List.append_inj' (hloc.symm.trans hloc') rfl
  cases hlast
  have halias : ∀ rel,
      d.aliasFor? (p.parent?.getD .top) rel = d.aliasFor? (q.parent?.getD .top) rel :=
    fun rel => congrArg d.aliasOf? (Directory.resolved_congr hrp hrq hfolder rel)
  obtain ⟨ss, hss⟩ := sites_of_shorten h
  have hss' := sites_congr (hname.trans hname'.symm) hss
  have hsame := replacements_congr quote halias source.toList ss
  rw [shorten_of_sites hss, hsame] at h
  rw [shorten_of_sites hss'] at h'
  cases h
  cases h'
  rfl

theorem shortenFile_ok {file : Path} {r : Revision} (h : shortenFile t d quote file = .ok r) :
    r.file = file ∧ ∃ source, t.read file = .ok source ∧
      shorten d quote file source = .ok (r.text, r.edits) := by
  unfold shortenFile at h
  cases hread : t.read file with
  | error fault => simp [hread] at h
  | ok source =>
    simp only [hread] at h
    cases hshorten : shorten d quote file source with
    | error f => simp [hshorten, Except.map] at h
    | ok out =>
      simp only [hshorten, Except.map] at h
      cases h
      exact ⟨rfl, source, rfl, hshorten⟩

namespace Job

variable {j : Job} {w : Workspace}

/-- The job finds these directories and these files in its project. -/
def Surveys (j : Job) (w : Workspace) (d : Directory) (files : List Path) : Prop :=
  ∃ config c mapping, w.absolute j.project = .ok config ∧
    Config.ProjectConfig.load w.tree config = .ok c ∧ c.pathMapping config = .ok mapping ∧
    d = .build (config.parent?.getD .top) mapping ∧
    c.projectFiles w.tree (config.parent?.getD .top) = .ok files

/-- The project can be surveyed, and all its files can be read and parse. -/
def Parses (j : Job) (w : Workspace) : Prop :=
  ∃ d files, j.Surveys w d files ∧ ∀ file ∈ files, ∃ source ss, w.tree.read file = .ok source ∧
    Linkage.sites file source = .ok ss

/-- A file of the project stands here, it has edits, and they lead to this text. -/
def Revises (j : Job) (w : Workspace) (loc : Location) (text : String) : Prop :=
  ∃ d files, j.Surveys w d files ∧ ∃ file ∈ files, ∃ source edits, w.tree.locate file = .ok loc ∧
    w.tree.node? loc = some (.file (.text source)) ∧
    shorten d j.quote file source = .ok (text, edits) ∧ edits ≠ []

theorem plan_ok {p : Plan} (h : j.plan w = .ok p) :
    ∃ d files, j.Surveys w d files ∧
      files.mapM (shortenFile w.tree d j.quote) = .ok p.revisions := by
  obtain ⟨config, hconfig, h⟩ := Except.bind_eq_ok.mp h
  obtain ⟨c, hc, h⟩ := Except.bind_eq_ok.mp h
  obtain ⟨mapping, hmapping, h⟩ := Except.bind_eq_ok.mp h
  obtain ⟨files, hfiles, h⟩ := Except.bind_eq_ok.mp h
  obtain ⟨revisions, hrevisions, h⟩ := Except.bind_eq_ok.mp h
  cases h
  exact ⟨_, files, ⟨config, c, mapping, hconfig, hc, hmapping, rfl, hfiles⟩, hrevisions⟩

theorem Surveys.unique {d d' : Directory} {files files' : List Path} (h : j.Surveys w d files)
    (h' : j.Surveys w d' files') : d = d' ∧ files = files' := by
  obtain ⟨config, c, mapping, hconfig, hc, hmapping, hd, hfiles⟩ := h
  obtain ⟨config', c', mapping', hconfig', hc', hmapping', hd', hfiles'⟩ := h'
  cases hconfig.symm.trans hconfig'
  cases hc.symm.trans hc'
  cases hmapping.symm.trans hmapping'
  exact ⟨hd.trans hd'.symm, Except.ok.inj (hfiles.symm.trans hfiles')⟩

theorem plan_changed {p : Plan} (h : j.plan w = .ok p) {r : Revision} (hr : r ∈ p.changed) :
    ∃ d files, j.Surveys w d files ∧ r.file ∈ files ∧ r.edits ≠ [] ∧ ∃ source,
      w.tree.read r.file = .ok source ∧
      shorten d j.quote r.file source = .ok (r.text, r.edits) := by
  obtain ⟨d, files, hsurvey, hrevisions⟩ := plan_ok h
  obtain ⟨hr, hedits⟩ := List.mem_filter.mp hr
  obtain ⟨file, hfile, hshorten⟩ := mem_of_mapM_ok hrevisions hr
  obtain ⟨rfl, hread⟩ := shortenFile_ok hshorten
  exact ⟨d, files, hsurvey, hfile, by simpa using hedits, hread⟩

theorem parses_of_plan {p : Plan} (h : j.plan w = .ok p) : j.Parses w := by
  obtain ⟨d, files, hsurvey, hrevisions⟩ := plan_ok h
  refine ⟨d, files, hsurvey, ?_⟩
  intro file hfile
  obtain ⟨r, _, hshorten⟩ := exists_mem_of_mapM_ok hrevisions hfile
  obtain ⟨_, source, hread, hshorten⟩ := shortenFile_ok hshorten
  obtain ⟨ss, hss⟩ := sites_of_shorten hshorten
  exact ⟨source, ss, hread, hss⟩

theorem standing_changed (hw : w.tree.WellFormed) {p : Plan} (h : j.plan w = .ok p) :
    Standing w.tree p.changed := by
  intro r hr
  obtain ⟨_, _, _, _, _, source, hread, _⟩ := plan_changed h hr
  obtain ⟨loc, hfinds, hnode⟩ := finds_of_read hread
  exact ⟨loc, hfinds, (hw.placed hnode).2⟩

/-- What a plan writes to a place is what the place is to hold. -/
theorem revises_of_changed {p : Plan} (h : j.plan w = .ok p) {r : Revision} (hr : r ∈ p.changed)
    (hloc : w.tree.Finds r.file loc) : j.Revises w loc r.text := by
  obtain ⟨d, files, hsurvey, hfile, hedits, source, hread, hshorten⟩ := plan_changed h hr
  obtain ⟨loc', hfinds, hnode⟩ := finds_of_read hread
  cases hloc.locate.symm.trans hfinds.locate
  exact ⟨d, files, hsurvey, r.file, hfile, source, r.edits, hloc.locate, hnode, hshorten, hedits⟩

theorem Revises.exists_changed {text : String} (h : j.Revises w loc text) {p : Plan}
    (hp : j.plan w = .ok p) : ∃ r ∈ p.changed, w.tree.Finds r.file loc := by
  obtain ⟨d, files, hsurvey, file, hfile, source, edits, hlocate, hnode, hshorten, hedits⟩ := h
  obtain ⟨d', files', hsurvey', hrevisions⟩ := plan_ok hp
  obtain ⟨rfl, rfl⟩ := hsurvey.unique hsurvey'
  obtain ⟨r, hr, hr'⟩ := exists_mem_of_mapM_ok hrevisions hfile
  obtain ⟨rfl, source', hread, hshorten'⟩ := shortenFile_ok hr'
  cases hread.symm.trans (read_of_locate hlocate hnode)
  cases hshorten.symm.trans hshorten'
  exact ⟨r, List.mem_filter.mpr ⟨hr, by simpa using hedits⟩, hlocate, by simp [hasFolder, hnode]⟩

/-- A place is to hold one text only, however many files of the project it is. -/
theorem Revises.unique {text text' : String} (h : j.Revises w loc text)
    (h' : j.Revises w loc text') : text = text' := by
  obtain ⟨d, files, hsurvey, file, _, source, _, hlocate, hnode, hshorten, _⟩ := h
  obtain ⟨d', files', hsurvey', file', _, source', _, hlocate', hnode', hshorten', _⟩ := h'
  obtain ⟨rfl, rfl⟩ := hsurvey.unique hsurvey'
  cases hnode.symm.trans hnode'
  have hfile : ¬ w.tree.hasFolder loc := by simp [hasFolder, hnode]
  exact shorten_spellings ⟨hlocate, hfile⟩ ⟨hlocate', hfile⟩ hshorten hshorten'

/-- All that a run can do: fail before its writes, or find a plan and keep it to itself, or write the
files that the plan changes as far as that goes. -/
theorem run_cases (j : Job) (w : Workspace) :
    (∃ f, j.plan w = .error f ∧ j.run w = (.error f, w.tree)) ∨
      ∃ p, j.plan w = .ok p ∧
        (j.write = false ∧ j.run w = (.ok (p.outcome false), w.tree) ∨
          j.write = true ∧ (writeAll w.tree p.changed).2 = (j.run w).2 ∧
            (j.run w).1 = (writeAll w.tree p.changed).1.map fun _ => p.outcome true) := by
  unfold run
  cases hplan : j.plan w with
  | error f => exact .inl ⟨f, rfl, rfl⟩
  | ok p =>
    refine .inr ⟨p, rfl, ?_⟩
    cases hwrite : j.write with
    | false => exact .inl ⟨rfl, rfl⟩
    | true =>
      refine .inr ⟨rfl, ?_⟩
      rcases hall : writeAll w.tree p.changed with ⟨f | _, t'⟩ <;> simp [hall, Except.map]

/-- A run that was not asked to write, or whose project cannot be read or parsed in full, leaves the
tree as it was. A run that writes and succeeds leaves its new text in each file that has edits and all
else as it was, and returns what it would have returned without writing. However a run fails, each place
is as it was or holds its new text. -/
theorem run_all_or_nothing (j : Job) (w : Workspace) (hw : w.tree.WellFormed)
    (hs : w.tree.NoneStaged) :
    (j.write = false → (j.run w).2 = w.tree) ∧
    (¬ j.Parses w → ∃ f, j.run w = (.error f, w.tree)) ∧
    (∀ o t', j.write = true → j.run w = (.ok o, t') →
      (∀ loc text, j.Revises w loc text → t'.node? loc = some (.file (.text text))) ∧
      (∀ loc, (¬ ∃ text, j.Revises w loc text) → t'.node? loc = w.tree.node? loc) ∧
      ({ j with write := false } : Job).run w = (.ok { o with written := false }, w.tree)) ∧
    ∀ f t', j.run w = (.error f, t') → ∀ loc, t'.node? loc = w.tree.node? loc ∨
      ∃ text, j.Revises w loc text ∧ t'.node? loc = some (.file (.text text)) := by
  rcases run_cases j w with ⟨f, hplan, hrun⟩ | ⟨p, hplan, ⟨hwrite, hrun⟩ | ⟨hwrite, htree, hout⟩⟩
  · simp [hrun]
  · simp [hrun, hwrite, parses_of_plan hplan]
  · have hstanding := standing_changed hw hplan
    have hplaces := node?_writeAll hs hstanding
    rw [htree] at hplaces
    refine ⟨by simp [hwrite], fun h => absurd (parses_of_plan hplan) h, ?_, ?_⟩
    · intro o t' _ hok
      rw [hok] at hplaces hout htree
      rcases hall : writeAll w.tree p.changed with ⟨f | _, t''⟩
      · simp [hall, Except.map] at hout
      rw [hall] at hout htree
      cases htree
      cases hout
      refine ⟨?_, ?_, ?_⟩
      · intro loc text hrevises
        obtain ⟨r, hr, hfinds⟩ := hrevises.exists_changed hplan
        obtain ⟨r', hr', hfinds', hnode⟩ := node?_of_writeAll hs hstanding hall hr hfinds
        rw [hrevises.unique (revises_of_changed hplan hr' hfinds')]
        exact hnode
      · intro loc hnone
        rcases hplaces loc with hkept | ⟨r, hr, hfinds, _⟩
        · exact hkept
        · exact absurd ⟨r.text, revises_of_changed hplan hr hfinds⟩ hnone
      · have hpreview : ({ j with write := false } : Job).plan w = .ok p := hplan
        rw [run, hpreview]
        rfl
    · intro f t' herror loc
      rw [herror] at hplaces
      rcases hplaces loc with hkept | ⟨r, hr, hfinds, hnode⟩
      · exact .inl hkept
      · exact .inr ⟨r.text, revises_of_changed hplan hr hfinds, hnode⟩

theorem plan_of_surveys {files : List Path} (h : j.Surveys w d files)
    (hrs : files.mapM (shortenFile w.tree d j.quote) = .ok rs) :
    ∃ p, j.plan w = .ok p ∧ p.revisions = rs := by
  obtain ⟨config, c, mapping, hconfig, hc, hmapping, rfl, hfiles⟩ := h
  simp [plan, hconfig, hc, hmapping, hfiles, hrs, bind, Except.bind, pure, Except.pure]

theorem run_of_writeAll {p : Plan} (hplan : j.plan w = .ok p) (hwrite : j.write = true)
    (h : (writeAll w.tree p.changed).1.toOption.isSome) : ∃ o t', j.run w = (.ok o, t') := by
  rcases hall : writeAll w.tree p.changed with ⟨f | _, t'⟩
  · simp [hall, Except.toOption] at h
  · exact ⟨p.outcome true, t', by simp [run, hplan, hwrite, hall]⟩

end Job

def smallProject : FileTree := ⟨⟨[
  (["a.ts"], .file (.text "import'./lib/x'")),
  (["b.ts"], .file (.text "import'lib/x'")),
  (["tsconfig.json"], .file (.text ("\x7b\"compilerOptions\":\x7b\"baseUrl\":\".\",\"paths\":" ++
    "\x7b\"@/*\":[\"lib/*\"]\x7d\x7d,\"files\":[\"a.ts\",\"b.ts\"]\x7d")))]⟩⟩

def smallJob : Job := ⟨⟨false, ["tsconfig.json"]⟩, true, .single⟩

def smallDirectory : Directory := ⟨[⟨"/lib", "@"⟩]⟩

def smallEdit : Edit := ⟨⟨true, ["a.ts"]⟩, "./lib/x", "@/x", "import'./lib/x'", "import'@/x'"⟩

theorem smallProject_wellFormed : smallProject.WellFormed := FileTree.wellFormed_of_check (by decide)

theorem smallProject_noneStaged : smallProject.NoneStaged := by
  intro folder name
  rw [Option.eq_none_iff_forall_ne_some]
  intro n hn
  -- no name in the tree begins with a dot
  have hdot : ∀ loc ∈ smallProject.nodes.keys,
      loc.getLast?.map (·.toList.head?) ≠ some (some '.') := by
    decide +kernel
  refine hdot _ (mem_keys_of_node? hn (List.concat_ne_nil _ folder)) ?_
  simp [stagedAt, stagedName]

theorem smallProject_load :
    ∃ c, Config.ProjectConfig.load smallProject ⟨true, ["tsconfig.json"]⟩ = .ok c ∧
      c.pathMapping ⟨true, ["tsconfig.json"]⟩ = .ok ⟨".", [("@/*", ["lib/*"])]⟩ ∧
      c.files = some ["a.ts", "b.ts"] ∧ c.includes = none ∧ c.excludes = none := by
  have hload : (Config.ProjectConfig.load smallProject ⟨true, ["tsconfig.json"]⟩).toOption.map
      (fun c => ((c.pathMapping ⟨true, ["tsconfig.json"]⟩).toOption, c.files, c.includes, c.excludes)) =
        some (some ⟨".", [("@/*", ["lib/*"])]⟩, some ["a.ts", "b.ts"], none, none) := by
    decide +kernel
  obtain ⟨c, hc, hread⟩ := Option.map_eq_some_iff.mp hload
  rw [Prod.mk.injEq, Prod.mk.injEq, Prod.mk.injEq] at hread
  exact ⟨c, Except.eq_ok_of_toOption hc, Except.eq_ok_of_toOption hread.1, hread.2⟩

theorem smallProject_files {c : Config.ProjectConfig} (hfiles : c.files = some ["a.ts", "b.ts"])
    (hincludes : c.includes = none) (hexcludes : c.excludes = none) :
    c.projectFiles smallProject .top = .ok [⟨true, ["a.ts"]⟩, ⟨true, ["b.ts"]⟩] := by
  have hwalk : (smallProject.walk Config.projectWalk .top).toOption.isSome := by decide +kernel
  obtain ⟨ways, hways⟩ := Option.isSome_iff_exists.mp hwalk
  have hlisted : [Path.top.join (Path.ofText "a.ts"), Path.top.join (Path.ofText "b.ts")].filter
      smallProject.isFile = [⟨true, ["a.ts"]⟩, ⟨true, ["b.ts"]⟩] := by
    decide +kernel
  have hsorted : Glob.sortPaths [⟨true, ["a.ts"]⟩, ⟨true, ["b.ts"]⟩] =
      [⟨true, ["a.ts"]⟩, ⟨true, ["b.ts"]⟩] := by
    unfold Glob.sortPaths
    rw [List.mergeSort_of_pairwise (by decide +kernel)]
    decide +kernel
  have hentries : c.includeEntries = [] := by
    simp [Config.ProjectConfig.includeEntries, hincludes, hfiles]
  have hnone : ∀ way, Config.anyMatches [] way = false := fun _ => rfl
  simp [Config.ProjectConfig.projectFiles, Config.compileAll, hentries, hexcludes, hfiles, hlisted,
    Except.eq_ok_of_toOption hways, hnone, hsorted, bind, Except.bind, pure, Except.pure]

theorem smallJob_surveys : smallJob.Surveys ⟨smallProject, some .top⟩ smallDirectory
    [⟨true, ["a.ts"]⟩, ⟨true, ["b.ts"]⟩] := by
  obtain ⟨c, hload, hmapping, hfiles, hincludes, hexcludes⟩ := smallProject_load
  refine ⟨⟨true, ["tsconfig.json"]⟩, c, ⟨".", [("@/*", ["lib/*"])]⟩, ?_, hload, hmapping, ?_, ?_⟩
  · exact Except.eq_ok_of_toOption (by decide +kernel)
  · decide +kernel
  · exact smallProject_files hfiles hincludes hexcludes

theorem smallProject_shorten :
    shorten smallDirectory .single ⟨true, ["a.ts"]⟩ "import'./lib/x'" =
      .ok ("import'@/x'", [smallEdit]) ∧
    shorten smallDirectory .single ⟨true, ["b.ts"]⟩ "import'lib/x'" = .ok ("import'lib/x'", []) :=
  ⟨Except.eq_ok_of_toOption (by decide +kernel), Except.eq_ok_of_toOption (by decide +kernel)⟩

theorem smallJob_run : ∃ o t', smallJob.run ⟨smallProject, some .top⟩ = (.ok o, t') := by
  obtain ⟨hfirst, hsecond⟩ := smallProject_shorten
  have hread : smallProject.read ⟨true, ["a.ts"]⟩ = .ok "import'./lib/x'" :=
    Except.eq_ok_of_toOption (by decide +kernel)
  have hread' : smallProject.read ⟨true, ["b.ts"]⟩ = .ok "import'lib/x'" :=
    Except.eq_ok_of_toOption (by decide +kernel)
  have hrevisions : [⟨true, ["a.ts"]⟩, ⟨true, ["b.ts"]⟩].mapM
      (shortenFile smallProject smallDirectory .single) =
        .ok [⟨⟨true, ["a.ts"]⟩, "import'@/x'", [smallEdit]⟩,
          ⟨⟨true, ["b.ts"]⟩, "import'lib/x'", []⟩] := by
    simp [shortenFile, hread, hread', hfirst, hsecond, Except.map, bind, Except.bind, pure,
      Except.pure]
  obtain ⟨p, hplan, hp⟩ := Job.plan_of_surveys smallJob_surveys hrevisions
  refine Job.run_of_writeAll hplan rfl ?_
  rw [Plan.changed, hp]
  decide +kernel

/-- The first file holds its new text, and the second one is as it was. -/
theorem smallJob_all_or_nothing : ∃ o t', smallJob.run ⟨smallProject, some .top⟩ = (.ok o, t') ∧
    t'.node? ["a.ts"] = some (.file (.text "import'@/x'")) ∧
    t'.node? ["b.ts"] = smallProject.node? ["b.ts"] ∧
    ({ smallJob with write := false } : Job).run ⟨smallProject, some .top⟩ =
      (.ok { o with written := false }, smallProject) := by
  obtain ⟨hfirst, hsecond⟩ := smallProject_shorten
  obtain ⟨o, t', hrun⟩ := smallJob_run
  obtain ⟨_, _, hwritten, _⟩ := Job.run_all_or_nothing smallJob ⟨smallProject, some .top⟩
    smallProject_wellFormed smallProject_noneStaged
  obtain ⟨hrevised, hkept, hpreview⟩ := hwritten o t' rfl hrun
  have ha : smallProject.locate ⟨true, ["a.ts"]⟩ = .ok ["a.ts"] := by decide +kernel
  have hb : smallProject.locate ⟨true, ["b.ts"]⟩ = .ok ["b.ts"] := by decide +kernel
  refine ⟨o, t', hrun, hrevised _ _ ?_, hkept _ ?_, hpreview⟩
  · exact ⟨_, _, smallJob_surveys, ⟨true, ["a.ts"]⟩, by simp, "import'./lib/x'", [smallEdit], ha,
      by decide +kernel, hfirst, by simp⟩
  · rintro ⟨text, d, files, hsurvey, file, hfile, source, edits, hlocate, hnode, hshorten, hedits⟩
    obtain ⟨rfl, rfl⟩ := hsurvey.unique smallJob_surveys
    simp only [List.mem_cons, List.not_mem_nil, or_false] at hfile
    rcases hfile with rfl | rfl
    · simp [ha] at hlocate
    · have hnode' : smallProject.node? ["b.ts"] = some (.file (.text "import'lib/x'")) := by
        decide +kernel
      cases hnode.symm.trans hnode'
      cases hsecond.symm.trans hshorten
      exact hedits rfl

end Alias

end BarrelAlias
