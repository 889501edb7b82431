import BarrelAlias.Barrel.Job
import BarrelAlias.Proofs.Probe

/-!
What goes into a barrel. In a tree as a file system holds it, the walk from a folder finds files only,
and so does the search for globs by itself; the plan of a barrel names each of them by its path without
detours, and puts the output into the folder that it is named in.
-/

namespace BarrelAlias

open BarrelAlias.Path (IsName)

namespace FileTree

/-- A tree as a file system holds it: a place stands once, in a folder, under a name of its own. -/
structure WellFormed (t : FileTree) : Prop where
  nodup : t.nodes.keys.Nodup
  inside : ∀ loc ∈ t.nodes.keys, ∃ folder name, loc = folder ++ [name] ∧ t.hasFolder folder ∧
    IsName name ∧ '/' ∉ name.toList

variable {t : FileTree}

/-- Whether a place ends in a name of its own, in a folder of the tree. -/
def standsInFolder (t : FileTree) (loc : Location) : Bool :=
  match loc.getLast? with
  | some name =>
    t.hasFolder loc.dropLast && name ≠ "" && name ≠ "." && name ≠ ".." && !name.toList.contains '/'
  | none => false

def isWellFormed (t : FileTree) : Bool :=
  decide t.nodes.keys.Nodup && t.nodes.keys.all t.standsInFolder

theorem exists_name_of_standsInFolder {loc : Location} (h : t.standsInFolder loc = true) :
    ∃ folder name, loc = folder ++ [name] ∧ t.hasFolder folder ∧ IsName name ∧
      '/' ∉ name.toList := by
  unfold standsInFolder at h
  split at h
  · next name hlast =>
    simp only [Bool.and_eq_true, decide_eq_true_eq, Bool.not_eq_true', List.contains_eq_mem,
      decide_eq_false_iff_not] at h
    obtain ⟨⟨⟨⟨hfolder, hempty⟩, hdot⟩, htwo⟩, hslash⟩ := h
    have he : loc = loc.dropLast ++ [name] := (List.dropLast_append_getLast? name hlast).symm
    exact ⟨loc.dropLast, name, he, hfolder, ⟨hempty, hdot, htwo⟩, hslash⟩
  · cases h

theorem wellFormed_of_check (h : t.isWellFormed = true) : t.WellFormed := by
  obtain ⟨hnodup, hall⟩ := Bool.and_eq_true_iff.mp h
  constructor
  · exact of_decide_eq_true hnodup
  · intro loc hloc
    exact exists_name_of_standsInFolder (List.all_eq_true.mp hall loc hloc)

/-- A place that is no folder is a file. -/
theorem Placed.isFile_of_not_hasFolder {loc : Location} (h : t.Placed loc)
    (hf : ¬ t.hasFolder loc) : ∃ c, t.node? loc = some (.file c) := by
  cases h with
  | top => exact absurd rfl hf
  | inside _ _ _ _ _ hn =>
    obtain ⟨node, hnode⟩ := Option.isSome_iff_exists.mp hn
    cases node with
    | file c => exact ⟨c, hnode⟩
    | folder => exact absurd (by simp [hasFolder, hnode]) hf

theorem mem_keys_of_node? {loc : Location} {n : Node} (h : t.node? loc = some n) (hne : loc ≠ []) :
    loc ∈ t.nodes.keys := by
  rw [node?, if_neg hne] at h
  exact (Table.mem_keys_iff t.nodes loc).mpr ⟨n, h⟩

/-- What stands in the tree is led to by names without a slash. -/
theorem WellFormed.placed (h : t.WellFormed) {loc : Location} {n : Node}
    (hn : t.node? loc = some n) : t.Placed loc ∧ ∀ m ∈ loc, '/' ∉ m.toList := by
  induction loc using List.reverseRecOn generalizing n with
  | nil => exact ⟨.top, by simp⟩
  | append_singleton folder name ih =>
    obtain ⟨folder', name', he, hf, hname, hslash⟩ :=
      h.inside _ (mem_keys_of_node? hn (List.concat_ne_nil name folder))
    obtain ⟨rfl, hlast⟩ := List.append_inj' he rfl
    cases hlast
    have hfolder : t.node? folder = some .folder := by simpa [hasFolder] using hf
    obtain ⟨hp, hslashes⟩ := ih hfolder
    refine ⟨hp.inside hf hname.1 hname.2.1 hname.2.2 (by simp [hn]), ?_⟩
    intro m hm
    rcases List.mem_append.mp hm with hm | hm
    · exact hslashes m hm
    · rw [List.mem_singleton.mp hm]
      exact hslash

theorem WellFormed.isPlain (h : t.WellFormed) {loc : Location} {c : Content}
    (hn : t.node? loc = some (.file c)) : t.IsPlain loc.path :=
  ⟨loc, c, (h.placed hn).1, hn, rfl⟩

theorem WellFormed.slash_not_mem (h : t.WellFormed) {g : Path} (hg : t.IsPlain g) :
    ∀ n ∈ g.parts, '/' ∉ n.toList := by
  obtain ⟨loc, c, _, hn, rfl⟩ := hg
  exact (h.placed hn).2

theorem WellFormed.node?_of_mem_children (h : t.WellFormed) {loc : Location} {name : String}
    {node : Node} (hm : (name, node) ∈ t.children loc) : t.node? (loc ++ [name]) = some node := by
  obtain ⟨⟨l, n⟩, he, hl⟩ := List.mem_filterMap.mp hm
  have hfind := (Table.mem_entries_iff t.nodes h.nodup l n).mp he
  cases hlast : l.getLast? with
  | none => simp [hlast] at hl
  | some last =>
    by_cases hd : l.dropLast = loc
    · simp only [hlast, hd, ↓reduceIte, Option.some.injEq, Prod.mk.injEq] at hl
      obtain ⟨rfl, rfl⟩ := hl
      have hl : loc ++ [last] = l := hd ▸ List.dropLast_append_getLast? last hlast
      rw [hl, node?, if_neg (by simp [← hl])]
      exact hfind
    · simp [hlast, hd] at hl

/-- A walk finds files below the folder that it starts from. -/
theorem WellFormed.mem_filesBelow (h : t.WellFormed) {w : Walk} {fuel : Nat}
    {scopes : List Ignore.Scope} {folder loc : Location}
    (hm : loc ∈ t.filesBelow w fuel scopes folder) :
    (∃ c, t.node? loc = some (.file c)) ∧ ∃ way, way ≠ [] ∧ loc = folder ++ way := by
  induction fuel generalizing scopes folder with
  | zero => simp [filesBelow] at hm
  | succ fuel ih =>
    rw [filesBelow] at hm
    obtain ⟨⟨name, node⟩, hchild, hm⟩ := List.mem_flatMap.mp hm
    have hnode := h.node?_of_mem_children hchild
    simp only at hm
    split at hm
    · simp at hm
    · cases node with
      | file c =>
        cases List.mem_singleton.mp hm
        exact ⟨⟨c, hnode⟩, [name], by simp, rfl⟩
      | folder =>
        obtain ⟨hfile, way, _, rfl⟩ := ih hm
        exact ⟨hfile, name :: way, by simp, by simp⟩

theorem WellFormed.isFile_of_walk (h : t.WellFormed) {loc : Location} (hp : t.Placed loc) {w : Walk}
    {ways : List (List String)} (hw : t.walk w loc.path = .ok ways) {way : List String}
    (hm : way ∈ ways) : t.isFile (wayPath loc.path way) := by
  unfold walk at hw
  rw [hp.locate_path] at hw
  simp only at hw
  split at hw
  · split at hw
    · cases hw
      obtain ⟨found, hfound, rfl⟩ := List.mem_map.mp hm
      obtain ⟨⟨c, hc⟩, way, hway, rfl⟩ := h.mem_filesBelow hfound
      have hpath : wayPath loc.path (Ignore.wayFrom loc (loc ++ way)) = Location.path (loc ++ way) := by
        rw [Ignore.wayFrom, List.drop_left, wayPath, if_neg (by simpa using hway)]
        exact Path.join_names hp.isName hway
      rw [hpath]
      exact (h.isPlain hc).isFile
    · cases hw
  · next hf =>
    cases hw
    cases List.mem_singleton.mp hm
    -- the walk starts at a file and finds nothing else
    obtain ⟨c, hc⟩ := hp.isFile_of_not_hasFolder hf
    exact (h.isPlain hc).isFile

end FileTree

theorem Except.bind_eq_ok {ε α β : Type} {x : Except ε α} {f : α → Except ε β} {b : β} :
    (x >>= f) = .ok b ↔ ∃ a, x = .ok a ∧ f a = .ok b := by
  cases x <;> simp [bind, Except.bind]

theorem Except.eq_ok_of_toOption {ε α : Type} {x : Except ε α} {a : α} (h : x.toOption = some a) :
    x = .ok a := by
  cases x with
  | error e => cases h
  | ok b => exact congrArg _ (Option.some.inj h)

theorem mem_of_mapM_ok {ε α β : Type} {f : α → Except ε β} {xs : List α} {ys : List β}
    (h : xs.mapM f = .ok ys) {y : β} (hy : y ∈ ys) : ∃ x ∈ xs, f x = .ok y := by
  induction xs generalizing ys with
  | nil =>
    cases h
    simp at hy
  | cons x xs ih =>
    rw [List.mapM_cons] at h
    obtain ⟨first, hfirst, h⟩ := Except.bind_eq_ok.mp h
    obtain ⟨rest, hrest, h⟩ := Except.bind_eq_ok.mp h
    cases h
    rcases List.mem_cons.mp hy with rfl | hy
    · exact ⟨x, List.mem_cons_self .., hfirst⟩
    · obtain ⟨x', hx', he⟩ := ih hrest hy
      exact ⟨x', List.mem_cons_of_mem x hx', he⟩

theorem exists_mem_of_mapM_ok {ε α β : Type} {f : α → Except ε β} {xs : List α} {ys : List β}
    (h : xs.mapM f = .ok ys) {x : α} (hx : x ∈ xs) : ∃ y ∈ ys, f x = .ok y := by
  induction xs generalizing ys with
  | nil => cases hx
  | cons x' xs ih =>
    rw [List.mapM_cons] at h
    obtain ⟨first, hfirst, h⟩ := Except.bind_eq_ok.mp h
    obtain ⟨rest, hrest, h⟩ := Except.bind_eq_ok.mp h
    cases h
    rcases List.mem_cons.mp hx with rfl | hx
    · exact ⟨first, List.mem_cons_self .., hfirst⟩
    · obtain ⟨y, hy, he⟩ := ih hrest hx
      exact ⟨y, List.mem_cons_of_mem first hy, he⟩

namespace Glob

theorem mem_of_mem_sortPaths {ps : List Path} {p : Path} (h : p ∈ sortPaths ps) : p ∈ ps := by
  suffices p ∈ ps.mergeSort fun a b => (compare a b).isLE from List.mem_mergeSort.mp this
  unfold sortPaths at h
  generalize ps.mergeSort _ = sorted at h ⊢
  induction sorted with
  | nil => exact h
  | cons q sorted ih =>
    simp only [List.foldr_cons] at h ih
    generalize sorted.foldr _ [] = rest at ih h
    cases rest with
    | nil =>
      rw [List.mem_singleton.mp h]
      exact List.mem_cons_self ..
    | cons first rest =>
      rw [List.mem_cons]
      simp only at h
      split at h
      · exact (List.mem_cons.mp h).imp_right fun h => ih (List.mem_cons_of_mem first h)
      · exact (List.mem_cons.mp h).imp_right ih

/-- Globs name files, each by its path without detours. -/
theorem isPlain_of_expand {t : FileTree} {base : Path} {patterns : List String} {files : List Path}
    (h : expand t base patterns = .ok files) {g : Path} (hg : g ∈ files) : t.IsPlain g := by
  obtain ⟨found, hfound, h⟩ := Except.bind_eq_ok.mp h
  cases h
  obtain ⟨p, hp, rfl⟩ := List.mem_map.mp (mem_of_mem_sortPaths hg)
  obtain ⟨ps, hps, hp⟩ := List.mem_flatten.mp hp
  obtain ⟨pattern, _, hfiles⟩ := mem_of_mapM_ok hfound hps
  unfold filesOf at hfiles
  split at hfiles
  · cases hfiles
    exact FileTree.isPlain_canonical (List.mem_filter.mp hp).2
  · cases hfiles

theorem expand_nil (t : FileTree) (base : Path) : expand t base [] = .ok [] := by
  simp [expand, sortPaths, bind, Except.bind, pure, Except.pure]

/-- A glob that names one file. -/
theorem expand_single {t : FileTree} {base p : Path} {pattern : String}
    (hfiles : filesOf t base pattern = .ok [p]) (hcanonical : t.canonical p = p) :
    expand t base [pattern] = .ok [p] := by
  simp [expand, hfiles, hcanonical, sortPaths, bind, Except.bind, pure, Except.pure]

end Glob

/-- So do the files below a place. -/
theorem FileTree.WellFormed.isPlain_of_sourcesBelow {t : FileTree} (h : t.WellFormed)
    {loc : Location} (hp : t.Placed loc) {exts : List String} {files : List Path}
    (hf : t.sourcesBelow loc.path exts = .ok files) {g : Path} (hg : g ∈ files) : t.IsPlain g := by
  obtain ⟨ways, hways, hf⟩ := Except.bind_eq_ok.mp hf
  cases hf
  obtain ⟨p, hmem, rfl⟩ := List.mem_map.mp (Glob.mem_of_mem_sortPaths hg)
  obtain ⟨way, hway, rfl⟩ := List.mem_map.mp (List.mem_filter.mp hmem).1
  exact isPlain_canonical (h.isFile_of_walk hp hways hway)

namespace Barrel

/-- The output is a name in a place of the tree. -/
theorem outputPath_ok {t : FileTree} {base out output : Path}
    (h : outputPath t base out = .ok output) :
    ∃ folder name, t.Placed folder ∧ IsName name ∧ output = ⟨true, folder ++ [name]⟩ := by
  unfold outputPath at h
  simp only at h
  split at h
  · cases h
  · next name hname =>
    split at h
    · next folder hfolder =>
      cases h
      unfold FileTree.canonical? at hfolder
      cases hl : t.locate ((base.join out).parent?.getD base) with
      | error e => simp [hl, Except.toOption] at hfolder
      | ok loc =>
        have hpath : folder = loc.path := by simpa [hl, Except.toOption] using hfolder.symm
        have hp := FileTree.placed_of_locate hl
        refine ⟨loc, name, hp, Path.isName_of_fileName? hname, ?_⟩
        rw [hpath]
        exact Path.join_names hp.isName (List.cons_ne_nil name [])
    · cases h

/-- The plan of a barrel of one file. -/
theorem Job.plan_single {j : Job} {w : Workspace} (base output : Path) {file : Path}
    {excluded : List Path} (hbase : j.base w = .ok base) (houtput : outputPath w.tree base j.out = .ok output)
    (hcandidates : j.candidates w.tree base (output.parent?.getD base) = .ok [file])
    (hexcluded : Glob.expand w.tree base j.excludes = .ok excluded)
    (hinput : isInput output excluded file = true) :
    j.plan w = .ok ⟨output, output.parent?.getD base, [file], excluded⟩ := by
  simp [Job.plan, hbase, houtput, hcandidates, hexcluded, hinput, sortParentFirst, bind, Except.bind,
    pure, Except.pure]

/-- What a plan is made of. -/
theorem Job.plan_ok {j : Job} {w : Workspace} {p : Plan} (h : j.plan w = .ok p) :
    ∃ base candidates, j.base w = .ok base ∧ outputPath w.tree base j.out = .ok p.output ∧
      p.folder = p.output.parent?.getD base ∧
      j.candidates w.tree base p.folder = .ok candidates ∧
      Glob.expand w.tree base j.excludes = .ok p.excluded ∧
      p.files = sortParentFirst (candidates.filter (isInput p.output p.excluded)) := by
  obtain ⟨base, hbase, h⟩ := Except.bind_eq_ok.mp h
  obtain ⟨output, houtput, h⟩ := Except.bind_eq_ok.mp h
  obtain ⟨candidates, hcandidates, h⟩ := Except.bind_eq_ok.mp h
  obtain ⟨excluded, hexcluded, h⟩ := Except.bind_eq_ok.mp h
  simp only at h
  split at h
  · cases h
  · cases h
    exact ⟨base, candidates, hbase, houtput, rfl, hcandidates, hexcluded, rfl⟩

/-- A plan puts the output into a place of the tree, and takes other files by their paths without
detours, with extensions that a specifier may leave out. -/
theorem Job.plan_places {j : Job} {w : Workspace} {p : Plan} (hw : w.tree.WellFormed)
    (h : j.plan w = .ok p) :
    ∃ folder name, w.tree.Placed folder ∧ IsName name ∧ p.folder = folder.path ∧
      p.output = ⟨true, folder ++ [name]⟩ ∧
      ∀ g ∈ p.files, w.tree.IsPlain g ∧ g ≠ p.output ∧
        FileTree.hasExtension Extension.barrel g := by
  obtain ⟨base, candidates, _, houtput, hfolder, hcandidates, _, hfiles⟩ := Job.plan_ok h
  obtain ⟨folder, name, hp, hname, he⟩ := outputPath_ok houtput
  have hparent : p.folder = folder.path := by
    rw [hfolder, he, Path.parent?_concat hp.isName hname]
    rfl
  refine ⟨folder, name, hp, hname, hparent, he, ?_⟩
  intro g hg
  rw [hfiles, sortParentFirst, List.mem_mergeSort] at hg
  obtain ⟨hcand, hinput⟩ := List.mem_filter.mp hg
  unfold isInput at hinput
  simp only [Bool.and_eq_true] at hinput
  refine ⟨?_, ?_, hinput.2⟩
  · unfold Job.candidates at hcandidates
    split at hcandidates
    · rw [hparent] at hcandidates
      exact hw.isPlain_of_sourcesBelow hp hcandidates hcand
    · exact Glob.isPlain_of_expand hcandidates hcand
  · rintro rfl
    simp [Path.same] at hinput

end Barrel

end BarrelAlias
