import BarrelAlias.Proofs.Acyclic
import BarrelAlias.Proofs.Assembling
import BarrelAlias.Proofs.Coverage
import BarrelAlias.Proofs.Derivation

/-!
The names of files that pass on each other. Where no explicit export of a file has to be looked up in
another file, only passing on leads from file to file, and what a file exports is settled by what stands
in the files that are reached in this way: every name of theirs shows, on cycles too and whatever the
loader was asked before, and stands for what one of them exports explicitly.
-/

namespace BarrelAlias.Linkage

open Script (Imported)
open Loader Relation

def ExportEntry.exportedAs? : ExportEntry → Option String
  | .named exported _ => some exported
  | .default _ => some "default"
  | .reexport exported _ _ => some exported
  | .star _ => none

def Summary.explicitNames (s : Summary) : List String := s.exports.filterMap ExportEntry.exportedAs?

/-- What is taken from a specifier, if it is not looked up in the file that it leads to. -/
def takenWhole (t : FileTree) (file : Path) (source : String) (imported : Imported) : Identity :=
  match resolve? t file source with
  | none => ⟨.package source, importedName imported, .value⟩
  | some g => ⟨.file g.steps, importedName imported, .value⟩

/-- The declarations that a name of a module stands for, if none is looked up in another file. -/
def ownKeys (t : FileTree) (file : Path) (s : Summary) (name : String) : List Identity :=
  match s.imports.find? name with
  | some b => [takenWhole t file b.source b.imported]
  | none => (spacesOf s name).map fun space => ⟨.file file.steps, name, space⟩

/-- The declarations of an explicit export, if none is looked up in another file. -/
def ExportEntry.keys (t : FileTree) (file : Path) (s : Summary) : ExportEntry → List Identity
  | .named _ name => ownKeys t file s name
  | .default (some name) => ownKeys t file s name
  | .default none => [⟨.file file.steps, "default", .value⟩]
  | .reexport _ source imported => [takenWhole t file source imported]
  | .star _ => []

/-- The declarations of some explicit exports under a name, each of them once. -/
def keysUnder (t : FileTree) (file : Path) (s : Summary) (es : List ExportEntry) (n : String) :
    List Identity := (es.filter (·.exportedAs? = some n)).flatMap (·.keys t file s)

/-- The file with these steps exports these declarations under the name explicitly. -/
def OwnExport (t : FileTree) (k : List Step) (n : String) (ks : List Identity) : Prop :=
  ∃ p s, p.steps = k ∧ readModule t p = .ok s ∧ n ∈ s.explicitNames ∧
    ks = addUnique [] (keysUnder t p s s.exports n)

/-- The first file can be read and passes on all of the second one, which is not sealed. -/
def PassesOn (t : FileTree) (S : List (List Step)) (a b : List Step) : Prop :=
  ∃ p s source g, p.steps = a ∧ readModule t p = .ok s ∧ .star source ∈ s.exports ∧
    resolve? t p source = some g ∧ g.steps ∉ S ∧ g.steps = b

/-- No explicit export of the module has to be looked up in another file: what it takes from a
specifier is a module as a whole, or the specifier leads to no file or to a sealed one. -/
def SelfContained (t : FileTree) (S : List (List Step)) (file : Path) (s : Summary) : Prop :=
  ∀ source imported, s.Takes source (some imported) →
    imported = .all ∨ ∀ g, resolve? t file source = some g → g.steps ∈ S

section

variable {t : FileTree} {S : List (List Step)} {file : Path} {s : Summary}

theorem spacesOf_ne_nil (s : Summary) (name : String) : spacesOf s name ≠ [] := by
  dsimp only [spacesOf]
  split <;> simp

theorem ExportEntry.keys_ne_nil {e : ExportEntry} {n : String} (h : e.exportedAs? = some n) :
    e.keys t file s ≠ [] := by
  have hown : ∀ name, ownKeys t file s name ≠ [] := by
    intro name
    unfold ownKeys
    split
    · simp
    · simp [spacesOf_ne_nil]
  cases e with
  | named exported name => exact hown name
  | default name =>
    cases name with
    | some name => exact hown name
    | none => simp [keys]
  | reexport exported source imported => simp [keys]
  | star source => cases h

theorem addUnique_ne_nil {ks new : List Identity} (h : ks ≠ [] ∨ new ≠ []) :
    addUnique ks new ≠ [] := by
  unfold addUnique
  induction new generalizing ks with
  | nil => simpa using h
  | cons k new ih =>
    rw [List.foldl_cons]
    refine ih (Or.inl ?_)
    split
    · next hk => exact List.ne_nil_of_mem hk
    · simp

theorem keysUnder_ne_nil {n : String} (hn : n ∈ s.explicitNames) :
    keysUnder t file s s.exports n ≠ [] := by
  obtain ⟨e, he, hname⟩ := List.mem_filterMap.mp hn
  have hmem : e ∈ s.exports.filter (·.exportedAs? = some n) :=
    List.mem_filter.mpr ⟨he, decide_eq_true hname⟩
  intro hnil
  exact e.keys_ne_nil hname (List.flatMap_eq_nil_iff.mp hnil e hmem)

/-- An explicit export is of something. -/
theorem OwnExport.ne_nil {k : List Step} {n : String} {ks : List Identity} (h : OwnExport t k n ks) :
    ks ≠ [] := by
  obtain ⟨p, s, _, _, hn, rfl⟩ := h
  exact addUnique_ne_nil (Or.inr (keysUnder_ne_nil hn))

theorem SelfContained.importedSource_eq (h : SelfContained t S file s) {source : String}
    {imported : Imported} (htakes : s.Takes source (some imported)) :
    importedSource t S file source imported = .known [takenWhole t file source imported] := by
  unfold importedSource takenWhole
  cases hr : resolve? t file source with
  | none => rfl
  | some g =>
    have hshut : imported = .all ∨ S.contains g.steps :=
      (h source imported htakes).imp_right fun hS => List.contains_iff_mem.mpr (hS g hr)
    simp only [hshut, ↓reduceIte]

theorem SelfContained.namedSource_eq (h : SelfContained t S file s) {name : String}
    (htakes : ∀ b, s.imports.find? name = some b → s.Takes b.source (some b.imported)) :
    namedSource t S file s name = .known (ownKeys t file s name) := by
  unfold namedSource ownKeys
  cases hb : s.imports.find? name with
  | some b => exact h.importedSource_eq (htakes b hb)
  | none => rfl

/-- The part of an explicit export that is not looked up elsewhere holds its declarations. -/
theorem SelfContained.entryPart?_eq (h : SelfContained t S file s) {e : ExportEntry}
    (he : e ∈ s.exports) :
    (e.exportedAs? = none ∧ entryPart? t S file s e = none) ∨
      ∃ n kept, e.exportedAs? = some n ∧
        entryPart? t S file s e = some (.entry n (.known (e.keys t file s)) kept) := by
  cases e with
  | named exported name =>
    refine Or.inr ⟨exported, true, rfl, ?_⟩
    rw [entryPart?, h.namedSource_eq fun b hb => .named he hb]
    rfl
  | default name =>
    cases name with
    | some name =>
      refine Or.inr ⟨"default", true, rfl, ?_⟩
      rw [entryPart?, h.namedSource_eq fun b hb => .default he hb]
      rfl
    | none => exact Or.inr ⟨"default", true, rfl, rfl⟩
  | reexport exported source imported =>
    refine Or.inr ⟨exported, false, rfl, ?_⟩
    rw [entryPart?, h.importedSource_eq (.reexport he)]
    rfl
  | star source => exact Or.inl ⟨rfl, rfl⟩

/-- What stands under a name after explicit exports that are not looked up elsewhere. -/
theorem SelfContained.find?_addAll (h : SelfContained t S file s) {es : List ExportEntry}
    (hes : ∀ e ∈ es, e ∈ s.exports) {answers : List KeyMap}
    (hlen : (es.filterMap (entryPart? t S file s)).length = answers.length) (m : KeyMap) (n : String) :
    (addAll m ((es.filterMap (entryPart? t S file s)).zip answers)).find? n =
      if n ∈ es.filterMap ExportEntry.exportedAs? then
        some (addUnique ((m.find? n).getD []) (keysUnder t file s es n))
      else m.find? n := by
  induction es generalizing m answers with
  | nil => rfl
  | cons e es ih =>
    obtain ⟨he, hes⟩ := List.forall_mem_cons.mp hes
    rcases h.entryPart?_eq he with ⟨hname, hpart⟩ | ⟨name, kept, hname, hpart⟩
    · rw [List.filterMap_cons_none hpart] at hlen ⊢
      rw [List.filterMap_cons_none hname, ih hes hlen, keysUnder, keysUnder,
        List.filter_cons_of_neg (by simp [hname])]
    · rw [List.filterMap_cons_some hpart] at hlen ⊢
      rw [List.filterMap_cons_some hname]
      obtain ⟨a, rest, rfl⟩ : ∃ a rest, answers = a :: rest := by
        cases answers with
        | nil => cases hlen
        | cons a rest => exact ⟨a, rest, rfl⟩
      have hadd : (Part.entry name (.known (e.keys t file s)) kept).add m a =
          addUnder m name (e.keys t file s) := by
        have hne : (e.keys t file s).isEmpty = false :=
          List.isEmpty_eq_false_iff.mpr (e.keys_ne_nil hname)
        simp [Part.add, Source.keys, hne]
      rw [List.zip_cons_cons, addAll, List.foldl_cons]
      change (addAll (Part.add m a _) _).find? n = _
      rw [hadd, ih hes (by simpa using hlen), find?_addUnder]
      by_cases hn : n = name
      · subst hn
        rw [keysUnder, keysUnder, List.filter_cons_of_pos (by simp [hname]), List.flatMap_cons,
          addUnique_append]
        by_cases hmem : n ∈ es.filterMap ExportEntry.exportedAs?
        · simp [hmem]
        · have hnil : es.filter (·.exportedAs? = some n) = [] := by
            rw [List.filter_eq_nil_iff]
            intro e' he' heq
            exact hmem (List.mem_filterMap.mpr ⟨e', he', by simpa using heq⟩)
          simp [hmem, hnil, addUnique]
      · rw [keysUnder, keysUnder, List.filter_cons_of_neg (by simp [hname, Ne.symm hn])]
        simp [hn]

/-- What a self-contained module exports: its explicit exports, and behind them the names of the files
that it passes on. -/
theorem SelfContained.find?_assemble (h : SelfContained t S file s) {as₁ as₂ : List (Found KeyMap)}
    (hlen₁ : (s.exports.filterMap (entryPart? t S file s)).length = as₁.length)
    (hlen₂ : ((starSources s.exports).filterMap (starPart? t S file)).length = as₂.length) {n : String}
    (hne : ∀ a ∈ as₂, ∀ ks, a.value.find? n = some ks → ks ≠ []) :
    (assemble (parts t S file s) ((as₁ ++ as₂).map Found.value)).find? n =
      if n ∈ s.explicitNames then some (addUnique [] (keysUnder t file s s.exports n))
      else if n = "default" then none else as₂.findSome? fun a => a.value.find? n := by
  have hvalues : ∀ as : List (Found KeyMap), (as.map Found.value).length = as.length :=
    fun _ => List.length_map _
  rw [← hvalues] at hlen₁ hlen₂
  rw [Linkage.find?_assemble, parts, List.map_append, List.zip_append hlen₁, addAll_append,
    find?_addAll_stars (fun _ hp => exists_all_of_mem hp) hlen₂, h.find?_addAll (fun _ he => he) hlen₁, Table.find?_empty,
    List.findSome?_map, ← Summary.explicitNames]
  by_cases hn : n ∈ s.explicitNames
  · have hkeys : keysUnder t file s s.exports n ≠ [] := keysUnder_ne_nil hn
    simp [hn, addUnique_ne_nil (Or.inr hkeys)]
  · simp only [hn, ↓reduceIte, Option.none_or]
    split
    · rfl
    · cases hf : as₂.findSome? fun a => a.value.find? n with
      | none => simp [Function.comp_def, hf]
      | some ks =>
        obtain ⟨a, ha, hks⟩ := List.exists_of_findSome?_eq_some hf
        simp [Function.comp_def, hf, hne a ha ks hks]

end

/-- The file with these steps, or one that it passes on, exports the declarations explicitly under the
name; a default export is not passed on. -/
def OwnReached (t : FileTree) (S : List (List Step)) (k : List Step) (n : String)
    (ks : List Identity) : Prop :=
  ∃ k', ReflTransGen (PassesOn t S) k k' ∧ (k' = k ∨ n ≠ "default") ∧ OwnExport t k' n ks

/-- An answer about the file with the steps `k` that holds only what is exported explicitly in the files
that are reached. -/
structure Gathered (t : FileTree) (S : List (List Step)) (k : List Step) (km : KeyMap) : Prop where
  nodup : km.keys.Nodup
  own : ∀ n ks, km.find? n = some ks → OwnReached t S k n ks

/-- The answer about the file with the steps `k` has the names of the file with the steps `k'`. -/
def HasNames (t : FileTree) (k k' : List Step) (km : KeyMap) : Prop :=
  ∀ n ks, OwnExport t k' n ks →
    (k' = k → km.find? n = some ks) ∧ (n ≠ "default" → ∃ ks', km.find? n = some ks')

section

variable {t : FileTree} {S : List (List Step)} {file : Path} {s : Summary}

theorem keys_congr {p q : Path} (h : p.steps = q.steps) (hp : p.rooted) (e : ExportEntry) :
    e.keys t p s = e.keys t q s := by
  have htaken : ∀ source imported, takenWhole t p source imported = takenWhole t q source imported := by
    intro source imported
    rw [takenWhole, takenWhole, resolve?_congr h hp]
  have hown : ∀ name, ownKeys t p s name = ownKeys t q s name := by
    intro name
    unfold ownKeys
    split
    · rw [htaken]
    · rw [h]
  cases e with
  | named exported name => exact hown name
  | default name =>
    cases name with
    | some name => exact hown name
    | none => simp [ExportEntry.keys, h]
  | reexport exported source imported => simp [ExportEntry.keys, htaken]
  | star source => rfl

/-- The explicit exports of a file that has been read. -/
theorem ownExport_iff (hsum : SummaryOf t file.steps s) {n : String} {ks : List Identity} :
    OwnExport t file.steps n ks ↔
      n ∈ s.explicitNames ∧ ks = addUnique [] (keysUnder t file s s.exports n) := by
  have hkeys : ∀ p s', p.steps = file.steps → readModule t p = .ok s' →
      s' = s ∧ keysUnder t p s s.exports n = keysUnder t file s s.exports n := by
    intro p s' hp hread
    refine ⟨SummaryOf.unique ⟨p, hp, hread⟩ hsum, ?_⟩
    unfold keysUnder
    congr 1
    funext e
    exact keys_congr hp (rooted_of_readModule hread) e
  constructor
  · rintro ⟨p, s', hp, hread, hn, rfl⟩
    obtain ⟨rfl, hk⟩ := hkeys p s' hp hread
    exact ⟨hn, by rw [hk]⟩
  · rintro ⟨hn, rfl⟩
    obtain ⟨p, hp, hread⟩ := hsum
    obtain ⟨_, hk⟩ := hkeys p s hp hread
    exact ⟨p, s, hp, hread, hn, by rw [hk]⟩

theorem forall₂_append_left {α β : Type} {R : α → β → Prop} {xs ys : List α} {zs : List β}
    (h : List.Forall₂ R (xs ++ ys) zs) :
    ∃ zs₁ zs₂, zs = zs₁ ++ zs₂ ∧ List.Forall₂ R xs zs₁ ∧ List.Forall₂ R ys zs₂ := by
  induction xs generalizing zs with
  | nil => exact ⟨[], zs, rfl, .nil, h⟩
  | cons x xs ih =>
    cases h with
    | @cons _ z _ zs hxz h =>
      obtain ⟨zs₁, zs₂, rfl, h₁, h₂⟩ := ih h
      exact ⟨z :: zs₁, zs₂, rfl, .cons hxz h₁, h₂⟩

/-- A module that is read passes on the file of each of its star parts. -/
theorem passesOn_of_mem (hsum : SummaryOf t file.steps s) {p : Part}
    (hp : p ∈ (starSources s.exports).filterMap (starPart? t S file)) :
    ∃ g, p = .all g ∧ PassesOn t S file.steps g.steps := by
  obtain ⟨source, hsource, hpart⟩ := List.mem_filterMap.mp hp
  obtain ⟨g, rfl, hres, hopen⟩ := exists_all_of_starPart? hpart
  obtain ⟨q, hq, hread⟩ := hsum
  rw [← resolve?_congr hq (rooted_of_readModule hread)] at hres
  exact ⟨g, rfl, q, s, source, g, hq, hread, mem_starSources hsource, hres, hopen, rfl⟩

/-- The explicit exports of a self-contained module point to no file. -/
theorem SelfContained.target_eq_none (h : SelfContained t S file s) {p : Part}
    (hp : p ∈ s.exports.filterMap (entryPart? t S file s)) : p.target? = none := by
  obtain ⟨e, he, hpart⟩ := List.mem_filterMap.mp hp
  rcases h.entryPart?_eq he with ⟨_, hnone⟩ | ⟨n, kept, _, hsome⟩
  · rw [hnone] at hpart
    cases hpart
  · rw [hsome] at hpart
    cases hpart
    rfl

theorem SelfContained.congr (h : SelfContained t S file s) {q : Path} (hq : q.steps = file.steps)
    (hr : q.rooted) : SelfContained t S q s := by
  intro source imported htakes
  rw [resolve?_congr hq hr]
  exact h source imported htakes

/-- From a self-contained file the walk leads only to files that it passes on. -/
theorem SelfContained.passesOn (h : SelfContained t S file s) (hsum : SummaryOf t file.steps s)
    {k : List Step} (hk : Follows t S file.steps k) : PassesOn t S file.steps k := by
  obtain ⟨q, s', hq, hread, p, hp, g, hg, rfl⟩ := hk
  cases hsum.unique ⟨q, hq, hread⟩
  rw [parts_congr t S hq (rooted_of_readModule hread)] at hp
  rcases List.mem_append.mp hp with hp | hp
  · rw [h.target_eq_none hp] at hg
    cases hg
  · obtain ⟨g', rfl, hpass⟩ := passesOn_of_mem hsum hp
    cases hg
    exact hpass

end

section

variable {t : FileTree} {S : List (List Step)} {root file : Path} {s : Summary}

/-- The files that are reached from `root` by passing on are self-contained. -/
def AllSelfContained (t : FileTree) (S : List (List Step)) (root : Path) : Prop :=
  ∀ p s, ReflTransGen (PassesOn t S) root.steps p.steps → readModule t p = .ok s →
    SelfContained t S p s

theorem AllSelfContained.selfContained (h : AllSelfContained t S root)
    (hR : ReflTransGen (PassesOn t S) root.steps file.steps) (hsum : SummaryOf t file.steps s) :
    SelfContained t S file s := by
  obtain ⟨q, hq, hread⟩ := hsum
  have hR' : ReflTransGen (PassesOn t S) root.steps q.steps := hq ▸ hR
  exact (h q s hR' hread).congr hq.symm
    (Path.rooted_of_steps_eq hq (rooted_of_readModule hread))

/-- The answers to the files that a module passes on, among those to all of its parts. What comes of
the run is the explicit exports and behind them the first of these answers that has the name. -/
theorem SelfContained.exists_passed (h : SelfContained t S file s) (hsum : SummaryOf t file.steps s)
    {as : List (Found KeyMap)}
    (has : List.Forall₂ (Answers fun g a => Gathered t S g.steps a.value) (parts t S file s) as) :
    ∃ passed : List (Found KeyMap),
      (∀ a ∈ passed, ∃ g : Path, PassesOn t S file.steps g.steps ∧ Gathered t S g.steps a.value) ∧
      (∀ p a g, (p, a) ∈ (parts t S file s).zip as → p.target? = some g → a ∈ passed) ∧
      ∀ n, (assemble (parts t S file s) (as.map Found.value)).find? n =
        if n ∈ s.explicitNames then some (addUnique [] (keysUnder t file s s.exports n))
        else if n = "default" then none else passed.findSome? fun a => a.value.find? n := by
  obtain ⟨as₁, as₂, rfl, has₁, has₂⟩ := forall₂_append_left has
  have hgathered : ∀ a ∈ as₂, ∃ g : Path, PassesOn t S file.steps g.steps ∧
      Gathered t S g.steps a.value := by
    intro a ha
    obtain ⟨p, hp, hans⟩ := exists_part_of_mem has₂ ha
    obtain ⟨g, rfl, hpass⟩ := passesOn_of_mem hsum hp
    exact ⟨g, hpass, hans.of_target? rfl⟩
  refine ⟨as₂, hgathered, ?_, ?_⟩
  · intro p a g hpa hg
    rw [parts, List.zip_append has₁.length_eq] at hpa
    rcases List.mem_append.mp hpa with hpa | hpa
    · rw [h.target_eq_none (List.of_mem_zip hpa).1] at hg
      cases hg
    · exact (List.of_mem_zip hpa).2
  · intro n
    refine h.find?_assemble has₁.length_eq has₂.length_eq ?_
    intro a ha ks hks
    obtain ⟨g, _, hg⟩ := hgathered a ha
    obtain ⟨k, _, _, hown⟩ := hg.own n ks hks
    exact hown.ne_nil

/-- Among self-contained files, an answer gathers the explicit exports of the files that are passed
on. -/
theorem AllSelfContained.spreads (h : AllSelfContained t S root) :
    Spreads t S (ReflTransGen (PassesOn t S) root.steps) (Gathered t S) (HasNames t) where
  closed a b hR hab := by
    obtain ⟨q, s, rfl, hread, _⟩ := id hab
    exact hR.tail ((h q s hR hread).passesOn ⟨q, rfl, hread⟩ hab)
  cut k _ := ⟨List.nodup_nil, by simp⟩
  made file s as hR hsum has := by
    obtain ⟨passed, hpassed, hmem, hfind⟩ := (h.selfContained hR hsum).exists_passed hsum has
    have hself : HasNames t file.steps file.steps
        (assemble (parts t S file s) (as.map Found.value)) := by
      intro n ks hown
      obtain ⟨hn, rfl⟩ := (ownExport_iff hsum).mp hown
      have hk := hfind n
      rw [if_pos hn] at hk
      exact ⟨fun _ => hk, fun _ => ⟨_, hk⟩⟩
    refine ⟨⟨nodup_keys_assemble _ _, ?_⟩, hself, ?_⟩
    · intro n ks hks
      rw [hfind n] at hks
      split at hks
      · next hn =>
        cases hks
        exact ⟨file.steps, .refl, Or.inl rfl, (ownExport_iff hsum).mpr ⟨hn, rfl⟩⟩
      · split at hks
        · cases hks
        · next hdef =>
          obtain ⟨a, ha, hks⟩ := List.exists_of_findSome?_eq_some hks
          obtain ⟨g, hpass, hg⟩ := hpassed a ha
          obtain ⟨k, hreach, _, hown⟩ := hg.own n ks hks
          exact ⟨k, .head hpass hreach, Or.inr hdef, hown⟩
    · intro p a g hpa hg k hnames n ks hown
      constructor
      · rintro rfl
        exact (hself n ks hown).1 rfl
      · intro hdef
        obtain ⟨ks', hks'⟩ := (hnames n ks hown).2 hdef
        rw [hfind n]
        split
        · exact ⟨_, rfl⟩
        · rw [← Option.isSome_iff_exists, List.findSome?_isSome_iff]
          exact ⟨a, hmem p a g hpa hg, by simp [hks']⟩

theorem PassesOn.follows {a b : List Step} (h : PassesOn t S a b) : Follows t S a b := by
  obtain ⟨p, s, source, g, hp, hread, hmem, hres, hopen, hb⟩ := h
  rw [follows_eq_draws]
  exact ⟨p, s, source, none, g, hp, hread, .star hmem, by simp, hres, hopen, hb⟩

/-- Self-contained files can all be read if those that are reached by passing on can. -/
theorem AllSelfContained.allRead (h : AllSelfContained t S root)
    (hread : ∀ g, g = root ∨ t.IsPlain g → ReflTransGen (PassesOn t S) root.steps g.steps →
      ∃ s, readModule t g = .ok s) : AllRead t S root := by
  have hreach : ∀ k, ReflTransGen (Follows t S) root.steps k →
      ReflTransGen (PassesOn t S) root.steps k := by
    intro k hk
    induction hk with
    | refl => exact .refl
    | tail _ hab ih => exact h.spreads.closed _ _ ih hab
  exact fun g hg hk => hread g hg (hreach _ hk)

end

/-- The files can all be read, look nothing up in another file, and pass on only each other. -/
def passWithin (t : FileTree) (S : List (List Step)) (ps : List Path) : Bool :=
  ps.all fun p =>
    match readModule t p with
    | .error _ => false
    | .ok s =>
      (s.exports.filterMap (entryPart? t S p s)).all (fun part => part.target?.isNone) &&
        (parts t S p s).all fun part => part.target?.all fun g => (ps.map Path.steps).contains g.steps

section

variable {t : FileTree} {S : List (List Step)} {file : Path} {s : Summary} {ps : List Path}

theorem selfContained_of_target
    (h : ∀ p ∈ s.exports.filterMap (entryPart? t S file s), p.target? = none) :
    SelfContained t S file s := by
  have htarget : ∀ {e : ExportEntry} {p : Part}, e ∈ s.exports → entryPart? t S file s e = some p →
      p.target? = none :=
    fun he hp => h _ (List.mem_filterMap.mpr ⟨_, he, hp⟩)
  intro source imported htakes
  have hnone : (importedSource t S file source imported).target? = none := by
    cases htakes with
    | reexport he => exact htarget he rfl
    | @named exported name b he hb =>
      have hpart := htarget he rfl
      rwa [Part.target?, namedSource, hb] at hpart
    | @default name b he hb =>
      have hpart := htarget he rfl
      rwa [Part.target?, namedSource, hb] at hpart
  by_cases hall : imported = .all
  · exact Or.inl hall
  · refine Or.inr fun g hg => ?_
    by_contra hopen
    simp [importedSource, hg, hall, hopen, Source.target?] at hnone

theorem passWithin_summary (h : passWithin t S ps) {k : List Step} (hk : k ∈ ps.map Path.steps) :
    ∃ s, SummaryOf t k s ∧ (∀ p, p.steps = k → readModule t p = .ok s → SelfContained t S p s) ∧
      ∀ k', Follows t S k k' → k' ∈ ps.map Path.steps := by
  obtain ⟨p, hp, rfl⟩ := List.mem_map.mp hk
  have hall := List.all_eq_true.mp h p hp
  cases hread : readModule t p with
  | error e =>
    rw [hread] at hall
    cases hall
  | ok s =>
    rw [hread] at hall
    obtain ⟨hentries, hparts⟩ := (Bool.and_eq_true_iff).mp hall
    have hself : SelfContained t S p s := by
      refine selfContained_of_target fun part hpart => ?_
      simpa using List.all_eq_true.mp hentries part hpart
    refine ⟨s, ⟨p, rfl, hread⟩, ?_, ?_⟩
    · intro q hq hread'
      exact hself.congr hq (rooted_of_readModule hread')
    · rintro k' ⟨q, s', hq, hread', part, hpart, g, hg, rfl⟩
      cases SummaryOf.unique ⟨q, hq, hread'⟩ ⟨p, rfl, hread⟩
      rw [parts_congr t S hq (rooted_of_readModule hread')] at hpart
      simpa [hg] using List.all_eq_true.mp hparts part hpart

/-- Files that pass on only each other are self-contained, and all that is reached can be read. -/
theorem allSelfContained_of_passWithin (h : passWithin t S ps) {p : Path} (hp : p ∈ ps) :
    AllSelfContained t S p ∧ ∀ g, g = p ∨ t.IsPlain g →
      ReflTransGen (PassesOn t S) p.steps g.steps → ∃ s, readModule t g = .ok s := by
  have hin : ∀ k, ReflTransGen (PassesOn t S) p.steps k → k ∈ ps.map Path.steps := by
    intro k hk
    induction hk with
    | refl => exact List.mem_map_of_mem hp
    | tail _ hab ih =>
      obtain ⟨_, _, _, hclosed⟩ := passWithin_summary h ih
      exact hclosed _ hab.follows
  constructor
  · intro q s hreach hread
    obtain ⟨s', hsum, hself, _⟩ := passWithin_summary h (hin _ hreach)
    cases hsum.unique ⟨q, rfl, hread⟩
    exact hself q rfl hread
  · rintro g hg hreach
    obtain ⟨s, hsum, _⟩ := passWithin_summary h (hin _ hreach)
    rcases hg with rfl | hg
    · have hall := List.all_eq_true.mp h g hp
      cases hread : readModule t g with
      | error e =>
        rw [hread] at hall
        cases hall
      | ok s => exact ⟨s, rfl⟩
    · exact ⟨s, readModule_of_isFile hg.isFile hsum⟩

end

/-- What a loader answers, after any history of questions, about a file from which only self-contained
files are reached by passing on, all of which can be read: the explicit names of the file, and those of
all files that are reached but `default`. Under each name stand the declarations that one of these files
exports explicitly under it, and that file is the one asked for if it has the name. -/
theorem exports_names_of_selfContained (t : FileTree) (sealedFiles : List Path) (qs : List Query)
    (file : Path) (hself : AllSelfContained t (sealedFiles.map Path.steps) file)
    (hread : ∀ g, g = file ∨ t.IsPlain g →
      ReflTransGen (PassesOn t (sealedFiles.map Path.steps)) file.steps g.steps →
      ∃ s, readModule t g = .ok s) :
    ∃ m l', (exportsOf t file).exec (asked t sealedFiles qs) = (.ok m, l') ∧
      (∀ n, n ∈ m.keys ↔ ∃ k ks,
        ReflTransGen (PassesOn t (sealedFiles.map Path.steps)) file.steps k ∧
        (k = file.steps ∨ n ≠ "default") ∧ OwnExport t k n ks) ∧
      ∀ n ids, (n, ids) ∈ m.entries → ∃ k ks,
        ReflTransGen (PassesOn t (sealedFiles.map Path.steps)) file.steps k ∧
        (k = file.steps ∨ n ≠ "default") ∧ OwnExport t k n ks ∧
        List.Forall₂ l'.decls.Names ids ks ∧
        ((∃ ks', OwnExport t file.steps n ks') → k = file.steps) := by
  obtain ⟨hs, hl⟩ := asked_keeps t sealedFiles qs
  rcases hx : (exportsOf t file).exec (asked t sealedFiles qs) with ⟨r, l'⟩
  cases r with
  | error e =>
    have hunread := unread_of_exec_exportsOf hs hl hx
    exact absurd hunread ((hself.allRead hread).not_unread e)
  | ok m =>
    obtain ⟨km, hkm, hgathered, hnames⟩ := exports_cover hself.spreads .refl hx
    have hshows : ∀ k n ks, ReflTransGen (PassesOn t (sealedFiles.map Path.steps)) file.steps k →
        OwnExport t k n ks → (k = file.steps → km.find? n = some ks) ∧
          (n ≠ "default" → ∃ ks', km.find? n = some ks') := by
      intro k n ks hreach
      exact hnames k (ReflTransGen.mono (fun _ _ => PassesOn.follows) _ _ hreach) n ks
    refine ⟨m, l', rfl, ?_, ?_⟩
    · intro n
      have hhas : n ∈ m.keys ↔ ∃ ks, km.find? n = some ks := by
        rw [Table.mem_keys_iff, ← Option.isSome_iff_exists, ← Option.isSome_iff_exists]
        exact Bool.eq_iff_iff.mp (hkm.has n)
      rw [hhas]
      constructor
      · rintro ⟨ks, hks⟩
        obtain ⟨k, hreach, hdef, hown⟩ := hgathered.own n ks hks
        exact ⟨k, ks, hreach, hdef, hown⟩
      · rintro ⟨k, ks, hreach, hk | hdef, hown⟩
        · exact ⟨ks, (hshows k n ks hreach hown).1 hk⟩
        · exact (hshows k n ks hreach hown).2 hdef
    · intro n ids hmem
      obtain ⟨⟨n', ks⟩, hentry, rfl, hids⟩ := exists_related_of_mem hkm hmem
      have hks := (Table.mem_entries_iff km hgathered.nodup n ks).mp hentry
      by_cases hfile : ∃ ks', OwnExport t file.steps n ks'
      · obtain ⟨ks', hown⟩ := hfile
        cases hks.symm.trans ((hshows _ n ks' .refl hown).1 rfl)
        exact ⟨file.steps, ks, .refl, Or.inl rfl, hown, hids, fun _ => rfl⟩
      · obtain ⟨k, hreach, hdef, hown⟩ := hgathered.own n ks hks
        exact ⟨k, ks, hreach, hdef, hown, hids, fun h => absurd h hfile⟩

/-- Three files that pass on each other in a ring, the first one itself too; what they take from others
is a file as a whole, something from a package, and something from a sealed file that cannot be parsed. -/
def ring : FileTree := ⟨⟨[
  (["a.ts"], .file (.text "export*from'./b';export*from'./a';export{p as x,q as default}")),
  (["b.ts"], .file (.text "export*from'./c';export*as n from'./a';export{z}from'lib'")),
  (["c.ts"], .file (.text "export*from'./a';export*from'./d';export{w as x};export{u}from'./d'")),
  (["d.ts"], .file (.text "export\x7b"))]⟩⟩

/-- The second file of the ring, after the third one was asked for and the sealed one was read in
vain. -/
theorem ring_exports_names :
    let qs := [.exports ⟨true, ["c.ts"]⟩, .preload [⟨true, ["d.ts"]⟩]]
    let S := [[.root, .name "d.ts"]]
    revealed ring (asked ring [⟨true, ["d.ts"]⟩] qs) ⟨true, ["b.ts"]⟩ = some
      [("n", [some ⟨.file [.root, .name "a.ts"], "*", .value⟩]),
        ("z", [some ⟨.package "lib", "z", .value⟩]),
        ("x", [some ⟨.file [.root, .name "c.ts"], "w", .value⟩]),
        ("u", [some ⟨.file [.root, .name "d.ts"], "u", .value⟩])] ∧
    ∃ m l', (exportsOf ring ⟨true, ["b.ts"]⟩).exec (asked ring [⟨true, ["d.ts"]⟩] qs) = (.ok m, l') ∧
      ∀ n, n ∈ m.keys ↔ ∃ k ks, ReflTransGen (PassesOn ring S) [.root, .name "b.ts"] k ∧
        (k = [.root, .name "b.ts"] ∨ n ≠ "default") ∧ OwnExport ring k n ks := by
  intro qs S
  have hwithin : passWithin ring S [⟨true, ["a.ts"]⟩, ⟨true, ["b.ts"]⟩, ⟨true, ["c.ts"]⟩] := by
    decide +kernel
  obtain ⟨hself, hread⟩ := allSelfContained_of_passWithin hwithin (p := ⟨true, ["b.ts"]⟩) (by simp)
  obtain ⟨m, l', hx, hnames, _⟩ :=
    exports_names_of_selfContained ring [⟨true, ["d.ts"]⟩] qs ⟨true, ["b.ts"]⟩ hself hread
  refine ⟨?_, m, l', hx, hnames⟩
  decide +kernel

end BarrelAlias.Linkage
