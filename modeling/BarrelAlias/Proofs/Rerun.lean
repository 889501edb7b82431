import BarrelAlias.Proofs.Acyclic
import BarrelAlias.Proofs.Pointing
import BarrelAlias.Proofs.Unread

/-!
Making a barrel again. The output is no input, but the inputs may take from it, so what was written can
come back in the next barrel. If no file that the inputs lead to takes from a place that the write has
changed, and the write has not changed what is left out, then the second barrel is the first one, and
writing it leaves the tree as it is.
-/

namespace BarrelAlias

open BarrelAlias.Path (IsName)

namespace Table

variable {κ ν : Type} [DecidableEq κ]

/-- Entering what is there already changes nothing. -/
theorem insert_self {t : Table κ ν} {k : κ} {v : ν} (h : t.find? k = some v) : t.insert k v = t := by
  obtain ⟨es⟩ := t
  unfold insert
  unfold find? at h
  congr 1
  induction es with
  | nil => cases h
  | cons e es ih =>
    rw [put]
    split
    · next he =>
      have hv : e.2 = v := by simpa [List.find?_cons, he] using h
      rw [← hv]
    · next he =>
      refine congrArg (e :: ·) (ih ?_)
      simpa [List.find?_cons, he] using h

end Table

namespace FileTree

variable {t : FileTree} {folder : Location} {name : String}

def stagedAt (folder : Location) (name : String) : Location := folder ++ [stagedName name]

/-- A file that can be replaced: it stands in a folder or can be put there, and so can its new text. -/
structure Replaceable (t : FileTree) (folder : Location) (name : String) : Prop where
  placed : t.Placed folder
  inFolder : t.hasFolder folder
  named : isName name
  namedStaged : isName (stagedName name)
  free : ¬ t.hasFolder (folder ++ [name])
  freeStaged : ¬ t.hasFolder (stagedAt folder name)

def replaced (t : FileTree) (folder : Location) (name s : String) : FileTree :=
  ((t.putFile (stagedAt folder name) (.text s)).erase (stagedAt folder name)).putFile
    (folder ++ [name]) (.text s)

theorem writable?_iff (hp : t.Placed folder) {n : String} {loc : Location} :
    t.writable? ⟨true, folder ++ [n]⟩ = some loc ↔
      loc = folder ++ [n] ∧ isName n ∧ t.hasFolder folder ∧ ¬ t.hasFolder (folder ++ [n]) := by
  have hlocate : t.locate ⟨true, folder⟩ = .ok folder := hp.locate_path
  simp only [writable?, target?, List.getLast?_concat, List.dropLast_concat, hlocate,
    Option.filter_eq_some_iff, Option.ite_none_right_eq_some, Option.some.injEq]
  constructor
  · rintro ⟨⟨hn, hf, rfl⟩, hfree⟩
    exact ⟨rfl, hn, hf, by simpa using hfree⟩
  · rintro ⟨rfl, hn, hf, hfree⟩
    exact ⟨⟨hn, hf, rfl⟩, by simpa using hfree⟩

theorem staged_ne (name : String) : stagedName name ≠ name := by
  intro h
  have hlen := congrArg String.length h
  simp only [stagedName, String.length_append] at hlen
  have hdot : ".".length = 1 := rfl
  omega

theorem isName_of_isName {n : String} (h : isName n) : IsName n := by
  simp only [isName, Bool.and_eq_true, decide_eq_true_eq] at h
  exact ⟨h.1.1.1.1, h.1.1.1.2, h.1.1.2⟩

theorem ofText_stagedName (hslash : '/' ∉ name.toList) :
    Path.ofText (stagedName name) = ⟨false, [stagedName name]⟩ := by
  have hstaged : '/' ∉ (stagedName name).toList := by
    simp [stagedName, hslash]
  have hne : stagedName name ≠ "" := by
    intro he
    have := congrArg String.toList he
    simp [stagedName] at this
  have hone : Path.ofText ("/".intercalate [stagedName name]) = ⟨false, [stagedName name]⟩ :=
    Path.ofText_relative hne (by simpa using hstaged)
  rwa [String.intercalate_singleton] at hone

/-- The path under which the new text is staged. -/
theorem withFileName_stagedAt (hf : ∀ m ∈ folder, IsName m) (hn : IsName name)
    (hslash : '/' ∉ name.toList) :
    Path.withFileName ⟨true, folder ++ [name]⟩ (stagedName name) = (stagedAt folder name).path := by
  have htext := ofText_stagedName hslash
  rw [Path.withFileName, Path.fileName?_concat true folder hn, Option.isSome_some, if_pos rfl,
    Path.parent?_concat hf hn, Option.getD_some, htext, Path.join_names hf (List.cons_ne_nil _ _)]
  rfl

/-- The name of a file that was put into a tree as a file system holds it has no slash. -/
theorem WellFormed.slash_of_replaceFile {t' : FileTree} (ht' : t'.WellFormed) {s : String}
    (h : t.replaceFile ⟨true, folder ++ [name]⟩ s = (.ok (), t')) : '/' ∉ name.toList := by
  obtain ⟨_, stagedAt, source, target, c, _, _, _, _, htarget, rfl⟩ := replaceFile_ok h
  obtain ⟨_, folder', name', rfl, _, hlast, _⟩ := writable?_eq_some htarget
  have hname : name = name' := by simpa using hlast
  have hnode := node?_putFile ((t.putFile stagedAt (.text s)).erase source)
    (List.concat_ne_nil name' folder') c (folder' ++ [name'])
  rw [if_pos rfl] at hnode
  rw [hname]
  exact (ht'.placed hnode).2 name' (by simp)

/-- What stands in the tree with the file replaced. -/
theorem node?_replaced (t : FileTree) (folder : Location) (name s : String) (loc : Location) :
    (t.replaced folder name s).node? loc =
      if loc = folder ++ [name] then some (.file (.text s))
      else if loc = stagedAt folder name then none else t.node? loc := by
  have hstaged : stagedAt folder name ≠ [] := List.concat_ne_nil _ _
  rw [replaced, node?_putFile _ (List.concat_ne_nil name folder), node?_erase _ hstaged,
    node?_putFile _ hstaged]
  split
  · rfl
  · split
    · rfl
    · rfl

theorem Replaceable.replaceFile_eq (h : t.Replaceable folder name) (hslash : '/' ∉ name.toList)
    (s : String) :
    t.replaceFile ⟨true, folder ++ [name]⟩ s = (.ok (), t.replaced folder name s) := by
  have hn := isName_of_isName h.named
  have hne : stagedAt folder name ≠ [] := List.concat_ne_nil _ _
  have hpath := withFileName_stagedAt h.placed.isName hn hslash
  have hwrite : t.writable? (stagedAt folder name).path = some (stagedAt folder name) :=
    (writable?_iff h.placed).mpr ⟨rfl, h.namedStaged, h.inFolder, h.freeStaged⟩
  -- the staged text stands in the same folder, which is as it was
  have hkeeps := keepsBut_putFile hne h.freeStaged (.text s)
  have hfolder := hkeeps.folders folder h.inFolder
  have hplaced := hkeeps.placed h.placed (isSome_of_hasFolder hfolder)
  have hnode : (t.putFile (stagedAt folder name) (.text s)).node? (stagedAt folder name) =
      some (.file (.text s)) := by
    rw [node?_putFile t hne, if_pos rfl]
  have hlocate : (t.putFile (stagedAt folder name) (.text s)).locate (stagedAt folder name).path =
      .ok (stagedAt folder name) := by
    have hsn := isName_of_isName h.namedStaged
    have hstands := Option.isSome_iff_exists.mpr ⟨_, hnode⟩
    exact (hplaced.inside hfolder hsn.1 hsn.2.1 hsn.2.2 hstands).locate_path
  have hfree : ¬ (t.putFile (stagedAt folder name) (.text s)).hasFolder (folder ++ [name]) := by
    rw [hasFolder, node?_putFile t hne]
    split
    · simp
    · exact h.free
  have htarget := (writable?_iff hplaced).mpr ⟨rfl, h.named, hfolder, hfree⟩
  simp only [replaceFile, Path.fileName?_concat true folder hn, hpath, write?, hwrite, Option.map_some,
    moveFile?, hlocate, htarget, hnode]
  rfl

theorem replaceable_of_ok {s : String} {t' : FileTree} (hp : t.Placed folder)
    (hn : IsName name) (hslash : '/' ∉ name.toList)
    (h : t.replaceFile ⟨true, folder ++ [name]⟩ s = (.ok (), t')) : t.Replaceable folder name := by
  obtain ⟨name', stagedAt', source, target, c, hname, hstaged, _, _, htarget, _⟩ := replaceFile_ok h
  rw [Path.fileName?_concat true folder hn] at hname
  cases hname
  rw [withFileName_stagedAt hp.isName hn hslash] at hstaged
  obtain ⟨rfl, hns, hf, hfreeStaged⟩ := (writable?_iff hp).mp hstaged
  have hkeeps := keepsBut_putFile (List.concat_ne_nil _ _) hfreeStaged (.text s)
  have hplaced := hkeeps.placed hp (isSome_of_hasFolder (hkeeps.folders folder hf))
  obtain ⟨_, hnamed, _, hfree⟩ := (writable?_iff hplaced).mp htarget
  exact ⟨hp, hf, hnamed, hns, fun hfolder => hfree (hkeeps.folders _ hfolder), hfreeStaged⟩

/-- Whether something stands at a place in only one of two trees. -/
def NewIn (t t' : FileTree) (loc : Location) : Prop := (t'.node? loc).isSome ≠ (t.node? loc).isSome

theorem lookalike_of_folders {t' : FileTree} (h : ∀ loc, t'.hasFolder loc = t.hasFolder loc) :
    t.Lookalike t' (NewIn t t') where
  folders := h
  standing loc hloc := not_not.mp hloc
  leaves loc hloc hf := by
    have hf' : t'.hasFolder loc := by
      rw [h]
      exact hf
    exact hloc (by rw [isSome_of_hasFolder hf, isSome_of_hasFolder hf'])

/-- Replacing a file changes no folder. -/
theorem Replaceable.lookalike (h : t.Replaceable folder name) (s : String) :
    t.Lookalike (t.replaced folder name s) (NewIn t (t.replaced folder name s)) := by
  apply lookalike_of_folders
  intro loc
  rw [hasFolder, node?_replaced]
  split
  · next hloc => simpa [hloc] using h.free
  · split
    · next hloc => simpa [hloc] using h.freeStaged
    · rfl

/-- A tree as a file system holds it stays one when a file in it is replaced. -/
theorem Replaceable.wellFormed (h : t.Replaceable folder name) (ht : t.WellFormed)
    (hslash : '/' ∉ name.toList) (s : String) : (t.replaced folder name s).WellFormed where
  nodup := by
    unfold replaced putFile erase
    refine Table.nodup_keys_insert _ _ _ (List.Nodup.sublist ?_ (Table.nodup_keys_insert
      t.nodes (stagedAt folder name) (.file (.text s)) ht.nodup))
    exact List.Sublist.map _ List.filter_sublist
  inside := by
    intro loc hloc
    have hfolders := (h.lookalike s).folders
    obtain ⟨node, hnode⟩ := (Table.mem_keys_iff _ loc).mp hloc
    by_cases hout : loc = folder ++ [name]
    · refine ⟨folder, name, hout, ?_, isName_of_isName h.named, hslash⟩
      rw [hfolders]
      exact h.inFolder
    · have hkey : loc ∈ t.nodes.keys := by
        unfold replaced putFile erase at hnode
        rw [Table.find?_insert, if_neg hout, Table.find?_erase] at hnode
        split at hnode
        · cases hnode
        · next hstaged =>
          rw [Table.find?_insert, if_neg hstaged] at hnode
          exact (Table.mem_keys_iff _ loc).mpr ⟨node, hnode⟩
      obtain ⟨folder', name', he, hf, hn⟩ := ht.inside loc hkey
      refine ⟨folder', name', he, ?_, hn⟩
      rw [hfolders]
      exact hf

/-- Nothing is new where a file was replaced that stood there before. -/
theorem Replaceable.lookalike_of_file (h : t.Replaceable folder name) (s : String)
    (hfile : (t.node? (folder ++ [name])).isSome) (hstaged : t.node? (stagedAt folder name) = none) :
    t.Lookalike (t.replaced folder name s) fun _ => False where
  folders := (h.lookalike s).folders
  standing loc _ := by
    rw [node?_replaced]
    split
    · next hloc => simp [hloc, hfile]
    · split
      · next hloc => simp [hloc, hstaged]
      · rfl
  leaves _ := False.elim

/-- Replacing a file twice by the same text is replacing it once. -/
theorem Replaceable.replaced_replaced (h : t.Replaceable folder name) (s : String) :
    (t.replaced folder name s).Replaceable folder name ∧
      (t.replaced folder name s).replaced folder name s = t.replaced folder name s := by
  have hne : folder ++ [name] ≠ [] := List.concat_ne_nil _ _
  have hneStaged : stagedAt folder name ≠ [] := List.concat_ne_nil _ _
  have hdiffer : stagedAt folder name ≠ folder ++ [name] := by
    simp [stagedAt, staged_ne name]
  have hout := node?_replaced t folder name s (folder ++ [name])
  have hstaged := node?_replaced t folder name s (stagedAt folder name)
  rw [if_pos rfl] at hout
  rw [if_neg hdiffer, if_pos rfl] at hstaged
  constructor
  · have hlook := h.lookalike s
    have hlocate := hlook.locate h.placed.locate_path (hlook.not_new h.inFolder)
    refine ⟨placed_of_locate hlocate, ?_, h.named, h.namedStaged, ?_, ?_⟩
    · rw [hlook.folders]
      exact h.inFolder
    · rw [hlook.folders]
      exact h.free
    · rw [hlook.folders]
      exact h.freeStaged
  · generalize t.replaced folder name s = t' at hout hstaged
    obtain ⟨nodes⟩ := t'
    rw [node?, if_neg hne] at hout
    rw [node?, if_neg hneStaged] at hstaged
    unfold replaced putFile erase
    simp only [Table.erase_insert _ hstaged, Table.insert_self hout]

end FileTree

namespace Barrel

open Linkage
open Relation (ReflTransGen)

/-- The inputs of the plan lead to the file with these steps. -/
def Plan.Reaches (p : Plan) (t : FileTree) (k : List Step) : Prop :=
  ∃ f ∈ p.files, ReflTransGen (Follows t (p.excluded.map Path.steps)) f.steps k

/-- What the files that the inputs lead to take from stays: their specifiers lead to the same files in
the tree `t'`, and these are the same unless they are excluded or taken as a whole. -/
def Plan.Undisturbed (p : Plan) (t t' : FileTree) : Prop :=
  ∀ (q : Path) s source what, p.Reaches t q.steps → SummaryOf t q.steps s → s.Takes source what →
    resolve? t' q source = resolve? t q source ∧
      ∀ loc : Location, resolve? t q source = some loc.path → what ≠ some .all →
        loc.path.steps ∉ p.excluded.map Path.steps → t'.node? loc = t.node? loc

variable {t t' : FileTree} {p p' : Plan}

/-- Every file that the inputs lead to stands where it stood and is the same. -/
theorem Plan.Undisturbed.unchanged (h : p.Undisturbed t t')
    (hinputs : ∀ f ∈ p.files, ∃ loc, t.Placed loc ∧ f = loc.path ∧ t'.node? loc = t.node? loc)
    {k : List Step} (hk : p.Reaches t k) :
    ∃ loc, t.Placed loc ∧ k = loc.path.steps ∧ t'.node? loc = t.node? loc := by
  obtain ⟨f, hf, hreach⟩ := hk
  cases hreach with
  | refl =>
    obtain ⟨loc, hp, rfl, hsame⟩ := hinputs f hf
    exact ⟨loc, hp, rfl, hsame⟩
  | tail hreach hstep =>
    obtain ⟨q, s, rfl, hread, part, hpart, g, hg, rfl⟩ := hstep
    obtain ⟨source, what, htakes, hres, hne, hopen⟩ := takes_of_mem_parts hpart hg
    obtain ⟨loc, _, hp, _, rfl⟩ := isPlain_of_resolve? hres
    refine ⟨loc, hp, rfl, ?_⟩
    exact (h q s source what ⟨f, hf, hreach⟩ ⟨q, rfl, hread⟩ htakes).2 loc hres hne hopen

/-- From the files that the inputs lead to, both trees look the same. -/
theorem Plan.Undisturbed.parallel (h : p.Undisturbed t t')
    (hlook : t.Lookalike t' (FileTree.NewIn t t'))
    (hinputs : ∀ f ∈ p.files, ∃ loc, t.Placed loc ∧ f = loc.path ∧ t'.node? loc = t.node? loc)
    (hx : t.Listed p.excluded) (hx' : t'.Listed p'.excluded)
    (hexcluded : SameFiles (FileTree.NewIn t t') (.ok p.excluded) (.ok p'.excluded)) :
    Parallel t t' (p.excluded.map Path.steps) (p'.excluded.map Path.steps) (p.Reaches t) where
  reads q hq := by
    obtain ⟨loc, hp, hsteps, hsame⟩ := h.unchanged hinputs hq
    refine hlook.readModule_eq ?_ hp hsteps hsame
    exact fun l hnew he => hnew (congrArg Option.isSome he)
  leads q s source what hq hsum htakes := (h q s source what hq hsum htakes).1
  shut q s source what g hq hsum htakes hg := by
    have hg' := ((h q s source what hq hsum htakes).1).trans hg
    have hplain := isPlain_of_resolve? hg
    have hplain' := isPlain_of_resolve? hg'
    rw [hx.steps_mem_iff hplain, hx'.steps_mem_iff hplain']
    obtain ⟨loc, c, _, hn, rfl⟩ := hplain
    obtain ⟨loc', c', _, hn', he⟩ := hplain'
    cases he
    exact (hexcluded loc fun hnew => hnew (by simp [hn, hn'])).symm
  closed q s source what g hq hsum htakes hg hne hopen := by
    obtain ⟨f, hf, hreach⟩ := hq
    obtain ⟨part, hpart, htarget⟩ := htakes.exists_part hg hne hopen
    exact ⟨f, hf, hreach.tail (follows_of_mem_parts hsum hpart htarget)⟩

/-- Nothing that replacing the output adds or takes away can be an input. -/
theorem not_isInput_of_newIn {folder : Location} {name s : String} {loc : Location}
    (h : FileTree.NewIn t (t.replaced folder name s) loc) (excluded : List Path) :
    ¬ isInput ⟨true, folder ++ [name]⟩ excluded loc.path := by
  intro hinput
  simp only [isInput, Bool.and_eq_true, Bool.not_eq_true'] at hinput
  unfold FileTree.NewIn at h
  rw [FileTree.node?_replaced] at h
  split at h
  · next hloc =>
    subst hloc
    simp [Path.same, Location.path] at hinput
  · split at h
    · next hloc =>
      refine not_isStaged hinput.2 ⟨folder, "." ++ name, ?_⟩
      simp [hloc, FileTree.stagedAt, FileTree.stagedName]
    · exact h rfl

/-- The base of a job stays what it is if it is a folder. -/
theorem Job.base_eq {j : Job} {current : Option Path} {new : Location → Prop}
    (h : t.Lookalike t' new) {base : Path} (hbase : j.base ⟨t, current⟩ = .ok base)
    (hfolder : t.isFolder base) : j.base ⟨t', current⟩ = .ok base := by
  unfold Job.base Workspace.absolute at hbase ⊢
  cases current with
  | none => cases hbase
  | some folder =>
    simp only [Except.ok.injEq] at hbase ⊢
    obtain ⟨loc, hl, hf⟩ := FileTree.isFolder_iff_locate.mp hfolder
    cases hp : t.locate (folder.join (j.root.getD .empty)) with
    | ok loc' =>
      rw [FileTree.canonical_of_locate hp] at hbase
      rw [← hbase, (FileTree.placed_of_locate hp).locate_path] at hl
      cases hl
      rw [FileTree.canonical_of_locate (h.locate hp (h.not_new hf))]
      exact hbase
    | error e =>
      have hpath : base = folder.join (j.root.getD .empty) := by
        rw [← hbase]
        simp [FileTree.canonical, FileTree.canonical?, hp, Except.toOption]
      rw [hpath, hp] at hl
      cases hl

/-- So does the output if it stands in a folder. -/
theorem outputPath_eq {new : Location → Prop} (h : t.Lookalike t' new) {base out : Path}
    {folder : Location} {name : String} (hf : t.hasFolder folder)
    (ho : outputPath t base out = .ok ⟨true, folder ++ [name]⟩) :
    outputPath t' base out = .ok ⟨true, folder ++ [name]⟩ := by
  unfold outputPath at ho ⊢
  simp only at ho ⊢
  split at ho
  · cases ho
  · next name' hname =>
    split at ho
    · next path hpath =>
      cases hl : t.locate ((base.join out).parent?.getD base) with
      | error e => simp [FileTree.canonical?, hl, Except.toOption] at hpath
      | ok loc =>
        have he : path = loc.path := by
          simpa [FileTree.canonical?, hl, Except.toOption] using hpath.symm
        have hloc : loc = folder := by
          rw [he, Location.path, Path.join_names (FileTree.placed_of_locate hl).isName (by simp)] at ho
          simpa using (List.append_inj' (Path.mk.inj (Except.ok.inj ho)).2 rfl).1
        subst hloc
        have hpath' : t'.canonical? ((base.join out).parent?.getD base) = some path := by
          rw [he]
          simp [FileTree.canonical?, h.locate hl (h.not_new hf), Except.toOption]
        rw [hpath']
        exact ho
    · cases ho

/-- A job plans the same again in a tree that looks alike, if its base and the place of its output are
folders and nothing that is new can be an input. -/
theorem Job.exists_plan {j : Job} {current : Option Path} {new : Location → Prop}
    (h : t.Lookalike t' new) (ht : t.WellFormed) (ht' : t'.WellFormed)
    (hp : j.plan ⟨t, current⟩ = .ok p) (hroot : ∀ base, j.base ⟨t, current⟩ = .ok base → t.isFolder base)
    {folder : Location} {name : String} (hf : t.hasFolder folder)
    (hout : p.output = ⟨true, folder ++ [name]⟩)
    (hscope : j.sources = [] → Ignore.scopeOf t' = Ignore.scopeOf t)
    (hnew : ∀ loc, new loc → ∀ excluded, ¬ isInput ⟨true, folder ++ [name]⟩ excluded loc.path) :
    ∃ p', j.plan ⟨t', current⟩ = .ok p' ∧ p'.output = p.output ∧ p'.folder = p.folder ∧
      p'.files = p.files ∧ SameFiles new (.ok p.excluded) (.ok p'.excluded) := by
  obtain ⟨base, _, hbase, houtput, _⟩ := Job.plan_ok hp
  rw [hout] at houtput
  have hbase' := Job.base_eq h hbase (hroot base hbase)
  have houtput' := outputPath_eq h hf houtput
  have hsame := Job.plan_same h ht ht' j current hscope (hbase'.trans hbase.symm) <| by
    intro base₁ hbase₁
    cases hbase.symm.trans hbase₁
    refine ⟨houtput'.trans houtput.symm, ?_⟩
    intro output₁ houtput₁
    cases houtput.symm.trans houtput₁
    exact hnew
  rw [hp] at hsame
  cases hp' : j.plan ⟨t', current⟩ with
  | error e =>
    rw [hp'] at hsame
    exact hsame.elim
  | ok p' =>
    rw [hp'] at hsame
    exact ⟨p', rfl, hsame⟩

/-- A job that writes makes the barrel and replaces the output by it. -/
theorem Job.run_written {j : Job} {w : Workspace} {o : Outcome} (hwrite : j.write = true) :
    j.run w = (.ok o, t') ↔ ∃ o', j.make w = .ok o' ∧ o = { o' with written := true } ∧
      w.tree.replaceFile o'.output o'.text = (.ok (), t') := by
  unfold Job.run
  cases hm : j.make w with
  | error f => simp
  | ok o' =>
    simp only [hwrite, ↓reduceIte]
    rcases hr : w.tree.replaceFile o'.output o'.text with ⟨r, t₁⟩
    cases r with
    | error f => simp [hr]
    | ok u =>
      simp only [Prod.mk.injEq, Except.ok.injEq, exists_eq_left', hr, true_and]
      exact and_congr_left' eq_comm

/-- Plans that agree are made into the same barrel if they are drafted alike. -/
theorem Job.make_eq {j : Job} {w w' : Workspace} (hp : j.plan w = .ok p) (hp' : j.plan w' = .ok p')
    (houtput : p'.output = p.output) (hfiles : p'.files = p.files)
    (hdraft : p'.draft w'.tree = p.draft w.tree) : j.make w' = j.make w := by
  unfold Job.make
  rw [hp, hp']
  simp only [bind, Except.bind, hdraft, houtput, hfiles]

/-- A barrel that disturbs nothing that its inputs take from, nor what is left out, is made again as it
was, and writing it again leaves the tree as it is. -/
theorem Job.rerun_of_undisturbed {j : Job} {current : Option Path} {t t' : FileTree} {o : Outcome}
    {p : Plan} (ht : t.WellFormed) (ht' : t'.WellFormed) (hwrite : j.write = true)
    (hrun : j.run ⟨t, current⟩ = (.ok o, t')) (hplan : j.plan ⟨t, current⟩ = .ok p)
    (hroot : ∀ base, j.base ⟨t, current⟩ = .ok base → t.isFolder base)
    (hcontrols : j.sources = [] → Ignore.SameControls t t') (hfeed : p.Undisturbed t t') :
    j.run ⟨t', current⟩ = (.ok o, t') := by
  obtain ⟨o', hmake, ho, hreplace⟩ := (Job.run_written hwrite).mp hrun
  obtain ⟨_, _, hp, _, _, houtput, _⟩ := Job.make_ok hmake
  cases hplan.symm.trans hp
  obtain ⟨folder, name, hplaced, hname, _, hout, hinputs⟩ := Job.plan_places ht hplan
  rw [houtput, hout] at hreplace
  have hslash := ht'.slash_of_replaceFile hreplace
  have hable := FileTree.replaceable_of_ok hplaced hname hslash hreplace
  have htree : t' = t.replaced folder name o'.text := by
    rw [hable.replaceFile_eq hslash] at hreplace
    exact (Prod.mk.inj hreplace).2.symm
  subst htree
  have hlook := hable.lookalike o'.text
  -- the second plan is the first one but for new files among the excluded ones
  obtain ⟨p', hplan', houtput', hfolder', hfiles', hexcluded⟩ :=
    Job.exists_plan hlook ht ht' hplan hroot hable.inFolder hout
      (fun h => Ignore.scopeOf_congr (hcontrols h)) fun loc hn => not_isInput_of_newIn hn
  have hunchanged : ∀ f ∈ p.files, ∃ loc, t.Placed loc ∧ f = loc.path ∧
      (t.replaced folder name o'.text).node? loc = t.node? loc := by
    intro f hf
    obtain ⟨hplain, hne, hext⟩ := hinputs f hf
    obtain ⟨loc, _, hloc, _, rfl⟩ := hplain
    refine ⟨loc, hloc, rfl, ?_⟩
    rw [FileTree.node?_replaced, if_neg, if_neg]
    · rintro rfl
      exact not_isStaged hext ⟨folder, "." ++ name, rfl⟩
    · rintro rfl
      exact hne hout.symm
  obtain ⟨_, _, _, _, _, _, hx, _⟩ := Job.plan_ok hplan
  obtain ⟨_, _, _, _, _, _, hx', _⟩ := Job.plan_ok hplan'
  have hparallel := hfeed.parallel hlook hunchanged (Glob.listed_of_expand hx)
    (Glob.listed_of_expand hx') hexcluded
  have hdraft := Plan.draft_eq hparallel hfolder' hfiles' fun f hf => ⟨f, hf, .refl⟩
  obtain ⟨hable', hsame⟩ := hable.replaced_replaced o'.text
  refine (Job.run_written hwrite).mpr ⟨o', ?_, ho, ?_⟩
  · exact (Job.make_eq hplan hplan' houtput' hfiles' hdraft).trans hmake
  · rw [houtput, hout, hable'.replaceFile_eq hslash, hsame]

/-- A file that takes a name from another one, beside an old barrel. -/
def besideOld : FileTree := ⟨⟨[
  (["a.ts"], .file (.text "export{x}from'./c'")),
  (["c.ts"], .file (.text "export{x}")),
  (["index.ts"], .file (.text "export{old}from'./c'"))]⟩⟩

def renewJob : Job := ⟨["a.ts"], [], ⟨false, ["index.ts"]⟩, true, .double, none⟩

def renewPlan : Plan := ⟨⟨true, ["index.ts"]⟩, .top, [⟨true, ["a.ts"]⟩], []⟩

theorem besideOld_wellFormed : besideOld.WellFormed := FileTree.wellFormed_of_check (by decide)

theorem besideOld_replaceable : besideOld.Replaceable [] "index.ts" :=
  ⟨.top, by decide, by decide +kernel, by decide +kernel, by decide +kernel, by decide +kernel⟩

/-- The inputs of that plan lead to files that take from nothing but the second one. -/
theorem renewPlan_undisturbed (s : String) :
    renewPlan.Undisturbed besideOld (besideOld.replaced [] "index.ts" s) := by
  have horder : inOrder besideOld [] [⟨true, ["a.ts"]⟩, ⟨true, ["c.ts"]⟩] := by decide +kernel
  have hlook := besideOld_replaceable.lookalike_of_file s (by decide) (by decide +kernel)
  intro q summary source what hreach hsum htakes
  refine ⟨hlook.resolve?_eq q source, ?_⟩
  intro loc hres hne hopen
  -- what is taken from is one of the two files, so it is not the output
  have hmem : loc.path.steps ∈ [⟨true, ["a.ts"]⟩, ⟨true, ["c.ts"]⟩].map Path.steps := by
    obtain ⟨f, hf, hreach⟩ := hreach
    cases List.mem_singleton.mp hf
    obtain ⟨part, hpart, htarget⟩ := htakes.exists_part hres hne hopen
    have hstep := follows_of_mem_parts hsum hpart htarget
    exact mem_of_inOrder horder (List.mem_cons_self ..) (hreach.tail hstep)
  rw [FileTree.node?_replaced, if_neg, if_neg]
  · rintro rfl
    revert hmem
    decide +kernel
  · rintro rfl
    revert hmem
    decide +kernel

theorem renewJob_plan : renewJob.plan ⟨besideOld, some .top⟩ = .ok renewPlan := by
  apply Job.plan_single .top ⟨true, ["index.ts"]⟩ rfl rfl
  · exact Glob.expand_single (by decide +kernel) (by decide +kernel)
  · exact Glob.expand_nil besideOld .top
  · decide +kernel

theorem renewPlan_draft : ∃ d, renewPlan.draft besideOld = .ok d ∧
    d.registry.lines = [⟨"./a", [("x", "x")]⟩] := by
  have hentries : (Load.exec (do
      preload besideOld [⟨true, ["a.ts"]⟩]
      exportsOf besideOld ⟨true, ["a.ts"]⟩) (.sealing renewPlan.excluded)).1.toOption.map (·.entries) =
        some [("x", [0])] := by
    decide +kernel
  obtain ⟨l, hl⟩ := Draft.exec_ofFiles_single hentries
  refine ⟨_, congrArg Prod.fst hl, ?_⟩
  rw [Draft.exportList_single]
  decide +kernel

/-- The new barrel replaces the old one, and is made again as it is. -/
theorem renewJob_rerun : ∃ o t', renewJob.run ⟨besideOld, some .top⟩ = (.ok o, t') ∧
    o.text = Line.text .double ⟨"./a", [("x", "x")]⟩ ∧ t'.read ⟨true, ["index.ts"]⟩ = .ok o.text ∧
      renewJob.run ⟨t', some .top⟩ = (.ok o, t') := by
  obtain ⟨d, hdraft, hlines⟩ := renewPlan_draft
  have hslash : '/' ∉ "index.ts".toList := by decide
  have hreplace := besideOld_replaceable.replaceFile_eq hslash (d.text .double)
  obtain ⟨o, hrun, ho⟩ : ∃ o, renewJob.run ⟨besideOld, some .top⟩ =
      (.ok o, besideOld.replaced [] "index.ts" (d.text .double)) ∧ o.text = d.text .double := by
    refine ⟨_, (Job.run_written rfl).mpr ⟨⟨d.text .double, ⟨true, ["index.ts"]⟩, [⟨true, ["a.ts"]⟩],
      d.conflicts, d.allWarnings, false⟩, ?_, rfl, hreplace⟩, rfl⟩
    simp only [Job.make, renewJob_plan, hdraft, bind, Except.bind]
    rfl
  have hwell := besideOld_replaceable.wellFormed besideOld_wellFormed hslash (d.text .double)
  refine ⟨o, _, hrun, ho.trans (Draft.text_single hlines .double), ?_, ?_⟩
  · have hplace : (besideOld.replaced [] "index.ts" (d.text .double)).locate ⟨true, ["index.ts"]⟩ =
        .ok ["index.ts"] := rfl
    rw [ho]
    refine FileTree.read_of_locate hplace ?_
    rw [FileTree.node?_replaced]
    rfl
  · refine Job.rerun_of_undisturbed besideOld_wellFormed hwell rfl hrun renewJob_plan ?_
      (by simp [renewJob]) (renewPlan_undisturbed _)
    intro base hbase
    cases hbase
    decide

end Barrel

end BarrelAlias
