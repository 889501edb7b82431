import BarrelAlias.Proofs.Mapping

/-!
The directories of a mapping in the order of its declarations. A directory stands where a target names it
first, and has the alias of the declaration that names it last, however the targets are spelled. What is
declared for new directories comes after all others, so a path that has an alias keeps it.
-/

namespace BarrelAlias.Alias

section

variable {α : Type} [DecidableEq α]

/-- An item that is added at the end stays if it has not been there before. -/
theorem eraseDups_concat (xs : List α) (x : α) :
    (xs ++ [x]).eraseDups = if x ∈ xs then xs.eraseDups else xs.eraseDups ++ [x] := by
  rw [List.eraseDups_append]
  by_cases h : x ∈ xs <;> simp [List.removeAll, h, List.eraseDups_cons]

theorem nodup_eraseDups (xs : List α) : xs.eraseDups.Nodup := by
  induction xs using List.reverseRecOn with
  | nil => simp
  | append_singleton xs x ih =>
    rw [eraseDups_concat]
    split
    · exact ih
    · next h =>
      refine List.nodup_append.mpr ⟨ih, List.pairwise_singleton _ x, ?_⟩
      rintro y hy z hz rfl
      rw [List.mem_singleton.mp hz, List.mem_eraseDups] at hy
      exact h hy

end

def foldersOf (base : Path) (targets : List String) : List String :=
  targets.map fun target => (folderPath base target).slashed

def declare (base : Path) (es : List Entry) (d : String × List String) : List Entry :=
  (foldersOf base d.2).foldl (fun es folder => assign folder (withoutWildcard d.1) es) es

theorem entries_build (configDir : Path) (m : Config.PathMapping) :
    (Directory.build configDir m).entries = m.paths.foldl (declare (baseOf configDir m)) [] := by
  simp only [Directory.build, Directory.declared, List.foldl_flatMap]
  congr 1
  funext es d
  rw [declare, foldersOf, List.foldl_map, List.foldl_map]
  rfl

/-- A new directory comes after all others. -/
theorem assign_of_not_mem {folder : String} (short : String) {es : List Entry}
    (h : folder ∉ es.map (·.folder)) : assign folder short es = es ++ [⟨folder, short⟩] := by
  induction es with
  | nil => rfl
  | cons e es ih =>
    rw [List.map_cons, List.mem_cons, not_or] at h
    rw [assign, if_neg (Ne.symm h.1), ih h.2, List.cons_append]

/-- A directory that is already there keeps its place. -/
theorem folders_assign_of_mem {folder : String} (short : String) {es : List Entry}
    (h : folder ∈ es.map (·.folder)) : (assign folder short es).map (·.folder) = es.map (·.folder) := by
  induction es with
  | nil => simp at h
  | cons e es ih =>
    rw [assign]
    split
    · next he => rw [List.map_cons, List.map_cons, he]
    · next he =>
      have hmem := (List.mem_cons.mp h).resolve_left (Ne.symm he)
      rw [List.map_cons, List.map_cons, ih hmem]

/-- Where each directory stands once, only the one that takes the alias changes. -/
theorem mem_assign_cases {folder short : String} {e : Entry} {es : List Entry}
    (hnodup : (es.map (·.folder)).Nodup) (h : e ∈ assign folder short es) :
    e = ⟨folder, short⟩ ∨ e ∈ es ∧ e.folder ≠ folder := by
  induction es with
  | nil => exact Or.inl (List.mem_singleton.mp h)
  | cons e' es ih =>
    rw [List.map_cons, List.nodup_cons] at hnodup
    rw [assign] at h
    split at h
    · next he =>
      refine (List.mem_cons.mp h).imp_right fun hmem => ⟨List.mem_cons_of_mem e' hmem, ?_⟩
      rintro rfl
      exact hnodup.1 (he ▸ List.mem_map_of_mem hmem)
    · next he =>
      rcases List.mem_cons.mp h with rfl | h
      · exact Or.inr ⟨List.mem_cons_self, he⟩
      · exact (ih hnodup.2 h).imp_right fun hold => ⟨List.mem_cons_of_mem e' hold.1, hold.2⟩

/-- The entries that stand for some directories, in the order in which those are named. -/
def Ordered (folders : List String) (es : List Entry) : Prop :=
  es.map (·.folder) = folders.eraseDups

theorem Ordered.nodup {folders : List String} {es : List Entry} (h : Ordered folders es) :
    (es.map (·.folder)).Nodup := by
  rw [h]
  exact nodup_eraseDups folders

theorem Ordered.assign {folders : List String} {es : List Entry} (h : Ordered folders es)
    (folder short : String) : Ordered (folders ++ [folder]) (assign folder short es) := by
  have hmem : folder ∈ es.map (·.folder) ↔ folder ∈ folders := by rw [h, List.mem_eraseDups]
  rw [Ordered, eraseDups_concat, ← h]
  by_cases hf : folder ∈ folders
  · rw [if_pos hf, folders_assign_of_mem short (hmem.mpr hf)]
  · rw [if_neg hf, assign_of_not_mem short (mt hmem.mp hf), List.map_append]
    rfl

/-- One alias for some directories keeps the order, and leaves the entries of other directories. -/
theorem Ordered.foldl_assign {folders : List String} {es : List Entry} (h : Ordered folders es)
    (short : String) (fs : List String) :
    Ordered (folders ++ fs) (fs.foldl (fun es folder => Alias.assign folder short es) es) ∧
      ∀ e ∈ fs.foldl (fun es folder => Alias.assign folder short es) es,
        e.folder ∈ fs ∧ e.short = short ∨ e ∈ es ∧ e.folder ∉ fs := by
  induction fs generalizing folders es with
  | nil => exact ⟨by rwa [List.append_nil], fun e he => Or.inr ⟨he, by simp⟩⟩
  | cons f fs ih =>
    obtain ⟨hordered, hcases⟩ := ih (h.assign f short)
    rw [List.append_assoc] at hordered
    refine ⟨hordered, fun e he => ?_⟩
    rcases hcases e he with ⟨hmem, hshort⟩ | ⟨hmem, hnot⟩
    · exact Or.inl ⟨List.mem_cons_of_mem f hmem, hshort⟩
    · rcases mem_assign_cases h.nodup hmem with rfl | ⟨hold, hne⟩
      · exact Or.inl ⟨List.mem_cons_self, rfl⟩
      · exact Or.inr ⟨hold, by simp [hne, hnot]⟩

def LastOf (base : Path) (ds : List (String × List String)) (e : Entry) : Prop :=
  ∃ before pattern targets after, ds = before ++ (pattern, targets) :: after ∧
    e.folder ∈ foldersOf base targets ∧ (∀ d ∈ after, e.folder ∉ foldersOf base d.2) ∧
    e.short = withoutWildcard pattern

def declaredFolders (base : Path) (ds : List (String × List String)) : List String :=
  ds.flatMap fun d => foldersOf base d.2

structure Declared (base : Path) (ds : List (String × List String)) (es : List Entry) : Prop where
  ordered : Ordered (declaredFolders base ds) es
  last : ∀ e ∈ es, LastOf base ds e

variable {base : Path} {ds : List (String × List String)} {es : List Entry}

theorem Declared.declare (h : Declared base ds es) (d : String × List String) :
    Declared base (ds ++ [d]) (declare base es d) := by
  obtain ⟨hordered, hcases⟩ := h.ordered.foldl_assign (withoutWildcard d.1) (foldersOf base d.2)
  have hfolders : declaredFolders base (ds ++ [d]) = declaredFolders base ds ++ foldersOf base d.2 := by
    simp [declaredFolders]
  refine ⟨hfolders ▸ hordered, fun e he => ?_⟩
  rcases hcases e he with ⟨hmem, hshort⟩ | ⟨hmem, hnot⟩
  · exact ⟨ds, d.1, d.2, [], rfl, hmem, by simp, hshort⟩
  · -- an entry that stays has its alias from an earlier declaration, and this one does not name it
    obtain ⟨before, pattern, targets, after, rfl, hfolder, hafter, hshort⟩ := h.last e hmem
    refine ⟨before, pattern, targets, after ++ [d], by simp, hfolder, ?_, hshort⟩
    intro d' hd'
    rcases List.mem_append.mp hd' with hd' | hd'
    · exact hafter d' hd'
    · rw [List.mem_singleton.mp hd']
      exact hnot

theorem Declared.foldl (h : Declared base ds es) (more : List (String × List String)) :
    Declared base (ds ++ more) (more.foldl (Alias.declare base) es) := by
  induction more generalizing ds es with
  | nil => simpa using h
  | cons d more ih => simpa using ih (h.declare d)

theorem declared_build (configDir : Path) (m : Config.PathMapping) :
    Declared (baseOf configDir m) m.paths (Directory.build configDir m).entries := by
  have hstart : Declared (baseOf configDir m) [] [] := ⟨rfl, fun e he => absurd he List.not_mem_nil⟩
  rw [entries_build]
  exact hstart.foldl m.paths

theorem prefix_assign {folder : String} (short : String) {old es : List Entry} (h : old <+: es)
    (hnew : folder ∉ old.map (·.folder)) : old <+: assign folder short es := by
  obtain ⟨added, rfl⟩ := h
  induction old with
  | nil => exact List.nil_prefix
  | cons e old ih =>
    rw [List.map_cons, List.mem_cons, not_or] at hnew
    rw [List.cons_append, assign, if_neg (Ne.symm hnew.1)]
    exact List.cons_prefix_cons.mpr ⟨rfl, ih hnew.2⟩

/-- Declarations of other directories leave the entries where they are. -/
theorem prefix_declare {old : List Entry} (h : old <+: es) {d : String × List String}
    (hnew : ∀ f ∈ foldersOf base d.2, f ∉ old.map (·.folder)) : old <+: declare base es d := by
  unfold declare
  generalize foldersOf base d.2 = fs at hnew
  induction fs generalizing es with
  | nil => exact h
  | cons f fs ih =>
    rw [List.forall_mem_cons] at hnew
    exact ih (prefix_assign _ h hnew.1) hnew.2

theorem prefix_foldl_declare {old : List Entry} (h : old <+: es) {more : List (String × List String)}
    (hnew : ∀ f ∈ declaredFolders base more, f ∉ old.map (·.folder)) :
    old <+: more.foldl (declare base) es := by
  induction more generalizing es with
  | nil => exact h
  | cons d more ih =>
    rw [declaredFolders, List.flatMap_cons, List.forall_mem_append] at hnew
    exact ih (prefix_declare h hnew.1) hnew.2

/-- A lookup that finds something looks no further. -/
theorem Directory.aliasOf?_of_prefix {d d' : Directory} (h : d.entries <+: d'.entries)
    {path s : String} (hs : d.aliasOf? path = some s) : d'.aliasOf? path = some s := by
  obtain ⟨added, hadded⟩ := h
  unfold aliasOf? at *
  rw [← hadded, List.findSome?_append, hs]
  rfl

/-- Each directory that the targets name stands once, where it is named first, with the alias of the
declaration that names it last. Declarations of new directories change no lookup that has found
something. -/
theorem build_first_place_last_alias (configDir : Path) (m : Config.PathMapping) :
    let base := baseOf configDir m
    let es := (Directory.build configDir m).entries
    (es.map (·.folder)).Nodup ∧
    es.map (·.folder) = (declaredFolders base m.paths).eraseDups ∧
    (∀ e ∈ es, ∃ before pattern targets after, m.paths = before ++ (pattern, targets) :: after ∧
      e.folder ∈ foldersOf base targets ∧ (∀ d ∈ after, e.folder ∉ foldersOf base d.2) ∧
      e.short = withoutWildcard pattern) ∧
    ∀ more, (∀ f ∈ declaredFolders base more, f ∉ declaredFolders base m.paths) →
      ∀ dir rel s, (Directory.build configDir m).aliasFor? dir rel = some s →
        (Directory.build configDir ⟨m.baseUrl, m.paths ++ more⟩).aliasFor? dir rel = some s := by
  intro base es
  have h : Declared base m.paths es := declared_build configDir m
  refine ⟨h.ordered.nodup, h.ordered, h.last, fun more hnew dir rel s hs => ?_⟩
  have hmore : (Directory.build configDir ⟨m.baseUrl, m.paths ++ more⟩).entries =
      more.foldl (declare base) es := by
    have hbase : baseOf configDir ⟨m.baseUrl, m.paths ++ more⟩ = base := rfl
    rw [entries_build, hbase, List.foldl_append, ← entries_build]
  refine Directory.aliasOf?_of_prefix ?_ hs
  rw [hmore]
  refine prefix_foldl_declare (List.prefix_refl es) fun f hf hmem => hnew f hf ?_
  rwa [h.ordered, List.mem_eraseDups] at hmem

/-- Two directories, one of them named in two ways by two patterns. -/
def sharedMapping : Config.PathMapping :=
  ⟨"./code", [("a/*", ["src/*", "./lib"]), ("b/*", ["../code/src/./*"]), ("c", ["lib/"])]⟩

/-- A directory below one of them. -/
def laterDeclarations : List (String × List String) := [("widgets/*", ["src/widgets/*"])]

/-- The directory keeps its place and has the later alias, and a path below it keeps that one although the
last declaration names a directory that is nearer. -/
theorem sharedMapping_keeps :
    (∀ f ∈ declaredFolders (baseOf (Path.ofText "/p") sharedMapping) laterDeclarations,
      f ∉ declaredFolders (baseOf (Path.ofText "/p") sharedMapping) sharedMapping.paths) ∧
    (Directory.build (Path.ofText "/p") sharedMapping).aliasFor? (Path.ofText "/p/code/src")
      "./widgets/button" = some "b/widgets/button" ∧
    ((Directory.build (Path.ofText "/p") sharedMapping).entries.map (·.folder)) =
      ["/p/code/src", "/p/code/lib"] ∧
    (Directory.build (Path.ofText "/p") ⟨"./code", sharedMapping.paths ++ laterDeclarations⟩).aliasFor?
      (Path.ofText "/p/code/src") "./widgets/button" = some "b/widgets/button" := by
  have hnew : ∀ f ∈ declaredFolders (baseOf (Path.ofText "/p") sharedMapping) laterDeclarations,
      f ∉ declaredFolders (baseOf (Path.ofText "/p") sharedMapping) sharedMapping.paths := by
    decide +kernel
  have hfound : (Directory.build (Path.ofText "/p") sharedMapping).aliasFor?
      (Path.ofText "/p/code/src") "./widgets/button" = some "b/widgets/button" := by
    decide +kernel
  obtain ⟨_, horder, _, hkeep⟩ := build_first_place_last_alias (Path.ofText "/p") sharedMapping
  refine ⟨hnew, hfound, ?_, hkeep laterDeclarations hnew _ _ _ hfound⟩
  rw [horder]
  decide +kernel

end BarrelAlias.Alias
