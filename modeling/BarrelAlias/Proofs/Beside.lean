import BarrelAlias.Proofs.QueryOrder
import BarrelAlias.Proofs.Revising

/-!
Two trees that differ in the text of one file. As long as a walk is in that file it cannot enter it again,
so the walk finds the same in both trees behind it: whatever comes back to the file is cut, and every other
file reads the same. A question about the file itself then comes down to its own parts in each tree.
-/

namespace BarrelAlias.Linkage

open Script (Imported)
open Loader

/-- The trees lead from specifiers to the same files, and no file reads differently but the one with
these steps. -/
structure Beside (t t' : FileTree) (k : List Step) : Prop where
  leads : ∀ p source, resolve? t' p source = resolve? t p source
  files : ∀ p, t'.isFile p = t.isFile p
  reads : ∀ p, t.IsPlain p → p.steps ≠ k → readModule t' p = readModule t p

section

variable {t t' : FileTree} {S : List (List Step)} {k : List Step} {file g : Path}

theorem Beside.refl (t : FileTree) (k : List Step) : Beside t t k :=
  ⟨fun _ _ => rfl, fun _ => rfl, fun _ _ _ => rfl⟩

theorem Beside.importedSource_eq (h : Beside t t' k) (source : String) (imported : Imported) :
    importedSource t' S file source imported = importedSource t S file source imported := by
  rw [importedSource, importedSource, h.leads]

theorem Beside.namedSource_eq (h : Beside t t' k) {s s' : Summary} {name : String}
    (himports : s'.imports.find? name = s.imports.find? name) (hlocals : s'.locals = s.locals) :
    namedSource t' S file s' name = namedSource t S file s name := by
  have hspaces : spacesOf s' name = spacesOf s name := by
    rw [spacesOf, spacesOf, hlocals]
  rw [namedSource, namedSource, himports, hspaces]
  split
  · exact h.importedSource_eq _ _
  · rfl

theorem Beside.starPart?_eq (h : Beside t t' k) (source : String) :
    starPart? t' S file source = starPart? t S file source := by
  rw [starPart?, starPart?, h.leads]

def ExportEntry.inner? : ExportEntry → Option String
  | .named _ name => some name
  | .default name => name
  | _ => none

theorem Beside.entryPart?_eq (h : Beside t t' k) {s s' : Summary} (hlocals : s'.locals = s.locals)
    {e : ExportEntry}
    (himports : ∀ name, e.inner? = some name → s'.imports.find? name = s.imports.find? name) :
    entryPart? t' S file s' e = entryPart? t S file s e := by
  cases e with
  | named exported name =>
    rw [entryPart?, entryPart?, h.namedSource_eq (himports name rfl) hlocals]
  | default name =>
    cases name with
    | some name => rw [entryPart?, entryPart?, h.namedSource_eq (himports name rfl) hlocals]
    | none => rfl
  | reexport exported source imported =>
    rw [entryPart?, entryPart?, h.importedSource_eq]
  | star source => rfl

theorem Beside.parts_eq (h : Beside t t' k) (s : Summary) :
    parts t' S file s = parts t S file s := by
  have hentry : entryPart? t' S file s = entryPart? t S file s :=
    funext fun e => h.entryPart?_eq rfl fun _ _ => rfl
  have hstar : starPart? t' S file = starPart? t S file := funext h.starPart?_eq
  rw [parts, parts, hentry, hstar]

structure Twins (t t' : FileTree) (S : List (List Step)) (l₁ l₂ : Loader) : Prop where
  sound₁ : l₁.Sound t S
  sound₂ : l₂.Sound t' S
  same : ∀ k km, l₁.Remembers k km ↔ l₂.Remembers k km

variable {l₁ l₂ m₁ m₂ : Loader}

theorem Twins.of_quiet (h : Twins t t' S l₁ l₂) (hq₁ : l₁.Quiet m₁) (hq₂ : l₂.Quiet m₂)
    (hs₁ : m₁.Sound t S) (hs₂ : m₂.Sound t' S) : Twins t t' S m₁ m₂ := by
  refine ⟨hs₁, hs₂, fun k km => ?_⟩
  rw [remembers_congr hq₁ h.sound₁, remembers_congr hq₂ h.sound₂]
  exact h.same k km

theorem Twins.settle (h : Twins t t' S l₁ l₂) (k : List Step) {e₁ e₂ : ExportMap} {km : KeyMap}
    (hm₁ : Shows l₁.decls e₁ km) (hm₂ : Shows l₂.decls e₂ km) :
    Twins t t' S (l₁.settle k e₁) (l₂.settle k e₂) :=
  ⟨h.sound₁.settle hm₁, h.sound₂.settle hm₂, fun k' => remembers_settle_iff hm₁ hm₂ (h.same k')⟩

theorem Twins.find?_eq_none (h : Twins t t' S l₁ l₂) {k : List Step}
    (hnone : l₁.exports.find? k = none) : l₂.exports.find? k = none := by
  cases hf : l₂.exports.find? k with
  | none => rfl
  | some m =>
    obtain ⟨km, hkm⟩ := h.sound₂.exports_ok k m hf
    obtain ⟨m', hm', _⟩ := (h.same k km).mpr ⟨m, hf, hkm⟩
    simp [hnone] at hm'

/-- How steps end that have run through the parts of a file with the same answers. -/
theorem Twins.ended (h : Twins t t' S l₁ l₂) {ps : List Part} {depth : Nat} {k : List Step}
    {rs : Except Failure (List (Found KeyMap))} {r₁ r₂ : Except Failure (Found ExportMap)}
    (h₁ : Ended ps depth k l₁ rs r₁ m₁) (h₂ : Ended ps depth k l₂ rs r₂ m₂) :
    Together (Twins t t' S) (fun f₁ f₂ => ∀ km₁ km₂, Shows m₁.decls f₁.value km₁ →
      Shows m₂.decls f₂.value km₂ → (⟨km₁, f₁.low⟩ : Found KeyMap) = ⟨km₂, f₂.low⟩) r₁ r₂ m₁ m₂ := by
  cases h₁ with
  | broken e =>
    cases h₂
    exact Or.inl ⟨e, rfl, rfl⟩
  | @done as e₁ hm₁ =>
    cases h₂ with
    | @done _ e₂ hm₂ =>
      refine Or.inr ⟨_, _, rfl, rfl, ?_, ?_⟩
      · intro km₁ km₂ hkm₁ hkm₂
        rw [decls_settled] at hkm₁ hkm₂
        rw [hkm₁.unique hm₁, hkm₂.unique hm₂]
      · split
        · exact h.settle k hm₁ hm₂
        · exact h

/-- A file that the walk is in, and that is not remembered, is cut. -/
theorem Walked.cut_of_mem {fuel : Nat} {trail : Trail} {l l' : Loader}
    {r : Except Failure (Found ExportMap)} (h : Walked t S fuel trail file l r l')
    (hfind : l.exports.find? file.steps = none) (hmem : file.steps ∈ trail) :
    ∃ d, depthIn? file.steps trail = some d ∧ r = .ok ⟨.empty, some d⟩ ∧ l' = l := by
  rcases h.miss_cases hfind with hcut | ⟨hnot, _⟩ | ⟨hnot, _⟩
  · exact hcut
  · exact absurd hmem hnot
  · exact absurd hmem hnot

/-- Any other file that is not remembered cannot be read, or is run through. -/
theorem Walked.new_cases {fuel : Nat} {trail : Trail} {l l' : Loader}
    {r : Except Failure (Found ExportMap)} (h : Walked t S fuel trail file l r l')
    (hfile : t.isFile file) (hfind : l.exports.find? file.steps = none)
    (hnot : file.steps ∉ trail) :
    (∃ e, readModule t file = .error e ∧ r = .error e) ∨
      ∃ s, readModule t file = .ok s ∧ ∃ rs l₁,
        Ran t S (walkExports t fuel (file.steps :: trail)) l (parts t S file s) rs l₁ ∧
        Ended (parts t S file s) trail.length file.steps l₁ rs r l' := by
  rcases h.miss_cases hfind with ⟨d, hd, _⟩ | ⟨_, hunread⟩ | ⟨_, s, hsum, hrun⟩
  · exact absurd (mem_of_depthIn? hd) hnot
  · exact Or.inl hunread
  · exact Or.inr ⟨s, readModule_of_isFile hfile hsum, hrun⟩

/-- Runs through parts that point to the same files find the same, if entering the files does. -/
theorem Twins.ran (hT : Twins t t' S l₁ l₂) {enter₁ enter₂ : Enter} {ps qs : List Part}
    (hsame : List.Forall₂ (fun p q => p.target? = q.target?) ps qs)
    (he : ∀ p ∈ ps, ∀ g, p.target? = some g → EntersTogether (Twins t t' S) Eq enter₁ enter₂ g)
    {r₁ r₂ : Except Failure (List (Found KeyMap))} (h₁ : Ran t S enter₁ l₁ ps r₁ m₁)
    (h₂ : Ran t' S enter₂ l₂ qs r₂ m₂) :
    (∃ e, r₁ = .error e ∧ r₂ = .error e) ∨ ∃ as, r₁ = .ok as ∧ r₂ = .ok as ∧ Twins t t' S m₁ m₂ := by
  have hquiet : ∀ l₁ l₂ m₁ m₂, Twins t t' S l₁ l₂ → l₁.Quiet m₁ → l₂.Quiet m₂ → m₁.Sound t S →
      m₂.Sound t' S → Twins t t' S m₁ m₂ := fun _ _ _ _ hT hq₁ hq₂ hs₁ hs₂ =>
    hT.of_quiet hq₁ hq₂ hs₁ hs₂
  rcases Ran.together hquiet rfl hsame he hT h₁ h₂ with he | ⟨as, bs, h₁, h₂, heq, hend⟩
  · exact Or.inl he
  · rw [List.forall₂_eq_eq_eq] at heq
    subst heq
    exact Or.inr ⟨as, h₁, h₂, hend⟩

/-- What two loaders remember, they find alike. -/
theorem Twins.hit (h : Twins t t' S l₁ l₂) {k : List Step} {e₁ e₂ : ExportMap}
    (hfind₁ : l₁.exports.find? k = some e₁) (hfind₂ : l₂.exports.find? k = some e₂) {low : Low}
    {km₁ km₂ : KeyMap} (h₁ : Shows l₁.decls e₁ km₁) (h₂ : Shows l₂.decls e₂ km₂) :
    (⟨km₁, low⟩ : Found KeyMap) = ⟨km₂, low⟩ := by
  have hrem : l₂.Remembers k km₁ := (h.same k km₁).mp ⟨e₁, hfind₁, h₁⟩
  rw [hrem.unique ⟨e₂, hfind₂, h₂⟩]

theorem Twins.cut (h : Twins t t' S l₁ l₂) (low : Low) :
    Together (Twins t t' S) (fun f₁ f₂ : Found ExportMap => ∀ km₁ km₂,
      Shows l₁.decls f₁.value km₁ → Shows l₂.decls f₂.value km₂ →
        (⟨km₁, f₁.low⟩ : Found KeyMap) = ⟨km₂, f₂.low⟩)
      (.ok ⟨.empty, low⟩) (.ok ⟨.empty, low⟩) l₁ l₂ := by
  refine Or.inr ⟨_, _, rfl, rfl, ?_, h⟩
  intro km₁ km₂ h₁ h₂
  rw [h₁.unique (shows_empty _), h₂.unique (shows_empty _)]

/-- As long as the walk is in the file that may differ, it goes the same way in both trees. -/
theorem walk_twins (hB : Beside t t' k) (fuel : Nat) (trail : Trail) (hk : k ∈ trail)
    (hg : t.IsPlain g) :
    EntersTogether (Twins t t' S) Eq (walkExports t fuel trail) (walkExports t' fuel trail) g := by
  induction fuel generalizing trail g with
  | zero =>
    intro l₁ l₂ r₁ r₂ l₁' l₂' hT hx₁ hx₂
    cases hx₁
    cases hx₂
    exact hT.cut _
  | succ fuel ih =>
    intro l₁ l₂ r₁ r₂ l₁' l₂' hT hx₁ hx₂
    have hw₁ := walked_of_exec hT.sound₁ hx₁
    have hw₂ := walked_of_exec hT.sound₂ hx₂
    cases hfind₁ : l₁.exports.find? g.steps with
    | some m =>
      obtain ⟨km, hkm⟩ := hT.sound₁.exports_ok _ m hfind₁
      obtain ⟨m', hfind₂, _⟩ := (hT.same _ km).mp ⟨m, hfind₁, hkm⟩
      obtain ⟨rfl, rfl⟩ := hw₁.of_find? hfind₁
      obtain ⟨rfl, rfl⟩ := hw₂.of_find? hfind₂
      exact Or.inr ⟨_, _, rfl, rfl, fun _ _ h₁ h₂ => hT.hit hfind₁ hfind₂ h₁ h₂, hT⟩
    | none =>
      have hfind₂ := hT.find?_eq_none hfind₁
      by_cases hmem : g.steps ∈ trail
      · obtain ⟨d₁, hd₁, rfl, rfl⟩ := hw₁.cut_of_mem hfind₁ hmem
        obtain ⟨d₂, hd₂, rfl, rfl⟩ := hw₂.cut_of_mem hfind₂ hmem
        cases hd₁.symm.trans hd₂
        exact hT.cut _
      · -- the file that may differ is on the trail, so this one reads the same in both trees
        have hreads := hB.reads g hg fun e => hmem (e ▸ hk)
        have hfile' : t'.isFile g := (hB.files g).trans hg.isFile
        rcases hw₁.new_cases hg.isFile hfind₁ hmem with ⟨e, hread₁, rfl⟩ | ⟨s, hread₁, rs₁, n₁, hrun₁, hend₁⟩
        · rcases hw₂.new_cases hfile' hfind₂ hmem with
            ⟨e', hread₂, rfl⟩ | ⟨s', hread₂, _⟩
          · cases hread₂.symm.trans (hreads.trans hread₁)
            exact Or.inl ⟨e, rfl, rfl⟩
          · cases hread₂.symm.trans (hreads.trans hread₁)
        · rcases hw₂.new_cases hfile' hfind₂ hmem with
            ⟨e', hread₂, rfl⟩ | ⟨s', hread₂, rs₂, n₂, hrun₂, hend₂⟩
          · cases hread₂.symm.trans (hreads.trans hread₁)
          · cases hread₂.symm.trans (hreads.trans hread₁)
            rw [hB.parts_eq] at hrun₂ hend₂
            have hchild : ∀ p ∈ parts t S g s, ∀ g', p.target? = some g' →
                EntersTogether (Twins t t' S) Eq (walkExports t fuel (g.steps :: trail))
                  (walkExports t' fuel (g.steps :: trail)) g' :=
              fun p hp g' hg' => ih (g.steps :: trail) (List.mem_cons_of_mem _ hk)
                (isPlain_of_mem_parts hp hg')
            rcases hT.ran (List.forall₂_same.mpr fun _ _ => rfl) hchild hrun₁ hrun₂ with
              ⟨e, rfl, rfl⟩ | ⟨as, rfl, rfl, hT'⟩
            · cases hend₁
              cases hend₂
              exact Or.inl ⟨e, rfl, rfl⟩
            · exact hT'.ended hend₁ hend₂

end

section

variable {t : FileTree} {loc : Location}

/-- The trees are of one size, so that walks have the same fuel in them. -/
theorem size_putFile (h : t.Finds loc.path loc) (text : String) :
    (t.putFile loc (.text text)).nodes.size = t.nodes.size := by
  obtain ⟨_, folder, name, _, _, _, hloc⟩ := h.exists_name
  obtain ⟨node, hnode⟩ :=
    Option.isSome_iff_exists.mp (FileTree.placed_of_locate h.locate).isSome
  have hmem : loc ∈ t.nodes.keys :=
    FileTree.mem_keys_of_node? hnode (hloc ▸ List.concat_ne_nil name folder)
  have hkeys := Table.keys_insert t.nodes loc (.file (.text text))
  rw [if_pos hmem] at hkeys
  simpa [FileTree.putFile, Table.keys, Table.size] using congrArg List.length hkeys

/-- Where a file gets another text, the tree is as it was but for that file. -/
theorem beside_putFile (h : t.Finds loc.path loc) (text : String) :
    Beside t (t.putFile loc (.text text)) loc.path.steps where
  leads := (h.lookalike text).resolve?_eq
  files := (h.lookalike text).isFile_eq
  reads := by
    rintro p ⟨loc', c, hplaced, hnode, rfl⟩ hne
    refine (h.lookalike text).readModule_eq (fun _ => False.elim) hplaced rfl ?_
    have hother : loc' ≠ loc := fun e => hne (e ▸ rfl)
    rw [h.node?_putFile, if_neg hother]

theorem readModule_putFile (h : t.Finds loc.path loc) {text : String} {s : Summary}
    (hsum : summarize loc.path text = .ok s) :
    readModule (t.putFile loc (.text text)) loc.path = .ok s := by
  have hlocate := ((h.lookalike text).locate_eq loc.path).trans h.locate
  refine readModule_ok.mpr ⟨text, FileTree.read_of_locate hlocate ?_, hsum⟩
  rw [h.node?_putFile, if_pos rfl]

/-- The first question to a loader that it can read the file for is a run through the parts of that file,
from which the reply is assembled. -/
theorem ran_of_fresh (t : FileTree) (sealedFiles : List Path) {file : Path} {s : Summary}
    (hfile : t.isFile file) (hread : readModule t file = .ok s) :
    ∃ rs l, Ran t (sealedFiles.map Path.steps) (walkExports t (t.nodes.size + 1) [file.steps])
        (.sealing sealedFiles) (parts t (sealedFiles.map Path.steps) file s) rs l ∧
      Replies t (.sealing sealedFiles) file
        (rs.map fun as => assemble (parts t (sealedFiles.map Path.steps) file s)
          (as.map Found.value)) := by
  have hs : (sealing sealedFiles).Sound t (sealedFiles.map Path.steps) := sound_empty t _
  have hfuel : walkFuel t (.sealing sealedFiles) = t.nodes.size + 1 + 1 := rfl
  have hexp := exec_exportsOf t file (.sealing sealedFiles)
  rcases hx : (walkExports t (walkFuel t (.sealing sealedFiles)) [] file).exec
    (.sealing sealedFiles) with ⟨r, l'⟩
  rw [hx] at hexp
  rw [hfuel] at hx
  rcases (walked_of_exec hs hx).new_cases hfile rfl List.not_mem_nil with
    ⟨e, hunread, _⟩ | ⟨s', hread', rs, l, hran, hend⟩
  · cases hread.symm.trans hunread
  · cases hread.symm.trans hread'
    refine ⟨rs, l, hran, ?_⟩
    cases hend with
    | broken e => exact ⟨_, hexp⟩
    | @done as m hm =>
      refine ⟨m, _, hexp, ?_⟩
      rw [decls_settled]
      exact hm

end

end BarrelAlias.Linkage
