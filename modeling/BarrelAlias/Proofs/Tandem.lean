import BarrelAlias.Barrel.Job
import BarrelAlias.Proofs.History

/-!
One load in two trees. As long as the files that are asked for read the same in both trees, and their
specifiers lead to the same files, sealed in both or in neither, the load does the same things in the
same order: it ends in the same way, and what is known afterwards is the same but for the list of sealed
files. How the rest of the trees differs does not show.
-/

namespace BarrelAlias.Linkage

open Script (Imported)
open Loader

/-- What a module takes from a specifier for its own exports: something under a name, the module as a
whole, or, if nothing is said, all that it exports. -/
inductive Summary.Takes (s : Summary) : String → Option Imported → Prop
  | star {source : String} : .star source ∈ s.exports → s.Takes source none
  | reexport {exported source : String} {imported : Imported} :
      .reexport exported source imported ∈ s.exports → s.Takes source (some imported)
  | named {exported name : String} {b : ImportBinding} : .named exported name ∈ s.exports →
      s.imports.find? name = some b → s.Takes b.source (some b.imported)
  | default {name : String} {b : ImportBinding} : .default (some name) ∈ s.exports →
      s.imports.find? name = some b → s.Takes b.source (some b.imported)

/-- The trees look the same from the files in `R`, with `S` sealed in one and `S'` in the other. -/
structure Parallel (t t' : FileTree) (S S' : List (List Step)) (R : List Step → Prop) : Prop where
  reads : ∀ p : Path, R p.steps → readModule t' p = readModule t p
  leads : ∀ (p : Path) s source what, R p.steps → SummaryOf t p.steps s → s.Takes source what →
    resolve? t' p source = resolve? t p source
  shut : ∀ (p : Path) s source what g, R p.steps → SummaryOf t p.steps s → s.Takes source what →
    resolve? t p source = some g → (g.steps ∈ S' ↔ g.steps ∈ S)
  closed : ∀ (p : Path) s source what g, R p.steps → SummaryOf t p.steps s → s.Takes source what →
    resolve? t p source = some g → what ≠ some .all → g.steps ∉ S → R g.steps

namespace Loader

/-- The loader has read files in `R` only, and what it knows of them is true. -/
structure Confined (t : FileTree) (S : List (List Step)) (R : List Step → Prop) (l : Loader) :
    Prop where
  sealed_eq : l.sealedFiles = S
  modules_ok : ∀ k s, l.modules.find? k = some s → R k ∧ SummaryOf t k s
  resolved_ok : ∀ p : Path, p.rooted → ∀ src a,
    l.resolved.find? (p.steps, src) = some a → resolve? t p src = a

def reseal (l : Loader) (S' : List (List Step)) : Loader := { l with sealedFiles := S' }

theorem confined_sealing (t : FileTree) (files : List Path) (R : List Step → Prop) :
    (sealing files).Confined t (files.map Path.steps) R where
  sealed_eq := rfl
  modules_ok := by simp [sealing, empty]
  resolved_ok := by simp [sealing, empty]

theorem Confined.isSealed_iff {t : FileTree} {S : List (List Step)} {R : List Step → Prop}
    {l : Loader} (h : l.Confined t S R) (file : Path) : l.isSealed file ↔ file.steps ∈ S := by
  rw [isSealed, h.sealed_eq, decide_eq_true_iff]

end Loader

/-- The two loads end in the same way from the loader `l`, with a result as `Q` says, and leave the same
known but for the sealed files. -/
def InTandem {α : Type} (t : FileTree) (S S' : List (List Step)) (R : List Step → Prop) (l : Loader)
    (x x' : Load α) (Q : α → Prop) : Prop :=
  x'.exec (l.reseal S') = ((x.exec l).1, (x.exec l).2.reseal S') ∧
    (x.exec l).2.Confined t S R ∧ ∀ a, (x.exec l).1 = .ok a → Q a

section

variable {α β : Type} {t t' : FileTree} {S S' : List (List Step)} {R : List Step → Prop} {l : Loader}

theorem InTandem.bind {x x' : Load α} {f f' : α → Load β} {P : α → Prop} {Q : β → Prop}
    (hx : InTandem t S S' R l x x' P)
    (hf : ∀ a l₁, P a → l₁.Confined t S R → InTandem t S S' R l₁ (f a) (f' a) Q) :
    InTandem t S S' R l (x >>= f) (x' >>= f') Q := by
  obtain ⟨hexec, hconf, hP⟩ := hx
  unfold InTandem
  rw [Load.exec_bind, Load.exec_bind, hexec]
  rcases hr : x.exec l with ⟨r, l₁⟩
  rw [hr] at hconf hP
  cases r with
  | ok a => exact hf a l₁ (hP a rfl) hconf
  | error e => exact ⟨rfl, hconf, by simp⟩

theorem inTandem_pure (hl : l.Confined t S R) {a : α} {Q : α → Prop} (ha : Q a) :
    InTandem t S S' R l (pure a) (pure a) Q := by
  refine ⟨rfl, hl, ?_⟩
  intro b hb
  cases hb
  exact ha

theorem inTandem_get {f f' : Loader → Load α} {Q : α → Prop}
    (h : InTandem t S S' R l (f l) (f' (l.reseal S')) Q) :
    InTandem t S S' R l (get >>= f) (get >>= f') Q := by
  unfold InTandem
  rw [Load.exec_bind_of_ok (Load.exec_get _), Load.exec_bind_of_ok (Load.exec_get _)]
  exact h

/-- Numbering a declaration touches neither files nor specifiers. -/
theorem inTandem_intern (hl : l.Confined t S R) (k : DeclKey) :
    InTandem t S S' R l (intern k) (intern k) fun _ => True :=
  ⟨rfl, ⟨hl.sealed_eq, hl.modules_ok, hl.resolved_ok⟩, fun _ _ => trivial⟩

theorem inTandem_follow (hl : l.Confined t S R) {file : Path} (hr : file.rooted) {source : String}
    (h : resolve? t' file source = resolve? t file source) :
    InTandem t S S' R l (follow t file source) (follow t' file source)
      (· = resolve? t file source) := by
  have hx : ∀ (t : FileTree) (l : Loader), (follow t file source).exec l =
      (.ok (resolveOnce t l.resolved file source).1,
        { l with resolved := (resolveOnce t l.resolved file source).2 }) := fun _ _ => rfl
  have honce : resolveOnce t' l.resolved file source = resolveOnce t l.resolved file source := by
    rw [resolveOnce, resolveOnce, h]
  unfold InTandem
  rw [hx, hx, reseal, honce]
  refine ⟨rfl, ⟨hl.sealed_eq, hl.modules_ok, ?_⟩, ?_⟩
  · intro p hp src a ha
    unfold resolveOnce at ha
    split at ha
    · exact hl.resolved_ok p hp src a ha
    · simp only [Table.find?_insert] at ha
      split at ha
      · next e =>
        obtain ⟨hsteps, rfl⟩ := Prod.mk.inj e
        cases ha
        exact resolve?_congr hsteps hp src
      · exact hl.resolved_ok p hp src a ha
  · intro a ha
    cases ha
    unfold resolveOnce
    split
    · next known hknown => exact (hl.resolved_ok file hr source known hknown).symm
    · rfl

theorem inTandem_moduleOf (hl : l.Confined t S R) {file : Path} (hR : R file.steps)
    (h : readModule t' file = readModule t file) :
    InTandem t S S' R l (moduleOf t file) (moduleOf t' file) (SummaryOf t file.steps) := by
  unfold InTandem moduleOf
  rw [Load.exec_bind_of_ok (Load.exec_get _), Load.exec_bind_of_ok (Load.exec_get _), h]
  dsimp only [reseal]
  cases hm : l.modules.find? file.steps with
  | some s =>
    refine ⟨rfl, hl, ?_⟩
    intro s' hs
    cases hs
    exact (hl.modules_ok _ s hm).2
  | none =>
    cases hr : readModule t file with
    | error e => exact ⟨rfl, hl, fun _ hs => by cases hs⟩
    | ok s =>
      refine ⟨rfl, ⟨hl.sealed_eq, ?_, hl.resolved_ok⟩, ?_⟩
      · intro k s' hk
        change (l.modules.insert file.steps s).find? k = some s' at hk
        rw [Table.find?_insert] at hk
        split at hk
        · next e =>
          cases hk
          exact e ▸ ⟨hR, file, rfl, hr⟩
        · exact hl.modules_ok k s' hk
      · intro s' hs
        cases hs
        exact ⟨file, rfl, hr⟩

/-- Both loads turn to the same side at a file that is sealed in both trees or in neither. -/
theorem inTandem_sealed (hl : l.Confined t S R) {g : Path} (hg : g.steps ∈ S' ↔ g.steps ∈ S)
    {b : Bool} {x x' y y' : Load α} {Q : α → Prop}
    (hx : InTandem t S S' R l x x' Q) (hy : b = false → g.steps ∉ S → InTandem t S S' R l y y' Q) :
    InTandem t S S' R l (do if b || (← get).isSealed g then x else y)
      (do if b || (← get).isSealed g then x' else y') Q := by
  apply inTandem_get
  have hsealed : (l.reseal S').isSealed g = l.isSealed g := by
    rw [Bool.eq_iff_iff, hl.isSealed_iff, ← hg, isSealed, reseal, decide_eq_true_iff]
  rw [hsealed]
  by_cases hc : (b || l.isSealed g) = true
  · simp only [hc, ↓reduceIte]
    exact hx
  · simp only [hc, Bool.false_eq_true, ↓reduceIte]
    rw [Bool.not_eq_true, Bool.or_eq_false_iff] at hc
    exact hy hc.1 fun hm => by simp [(hl.isSealed_iff g).mpr hm] at hc

theorem inTandem_foldlM {γ : Type} {f f' : β → γ → Load β} {cs : List γ} (b : β)
    (h : ∀ c ∈ cs, ∀ b l₁, l₁.Confined t S R → InTandem t S S' R l₁ (f b c) (f' b c) fun _ => True)
    (hl : l.Confined t S R) :
    InTandem t S S' R l (cs.foldlM f b) (cs.foldlM f' b) fun _ => True := by
  induction cs generalizing b l with
  | nil => exact inTandem_pure hl trivial
  | cons c cs ih =>
    rw [List.foldlM_cons, List.foldlM_cons]
    refine (h c (List.mem_cons_self ..) b l hl).bind ?_
    intro b₁ l₁ _ hl₁
    exact ih b₁ (fun c' hc' => h c' (List.mem_cons_of_mem c hc')) hl₁

theorem inTandem_mapM_internIn (hl : l.Confined t S R) (file : Path) (name : String)
    (spaces : List Space) :
    InTandem t S S' R l (spaces.mapM (internIn file name)) (spaces.mapM (internIn file name))
      fun _ => True := by
  induction spaces generalizing l with
  | nil => exact inTandem_pure hl trivial
  | cons space spaces ih =>
    rw [List.mapM_cons]
    refine (inTandem_intern hl _).bind ?_
    intro id l₁ _ hl₁
    refine (ih hl₁).bind ?_
    intro ids l₂ _ hl₂
    exact inTandem_pure hl₂ trivial

end

section

variable {t t' : FileTree} {S S' : List (List Step)} {R : List Step → Prop} {l : Loader}
  {file : Path} {s : Summary} {enter enter' : Enter}

/-- Entering the files that a module takes from comes to the same in both trees. -/
def EntersInTandem (t : FileTree) (S S' : List (List Step)) (R : List Step → Prop)
    (enter enter' : Enter) (file : Path) (s : Summary) : Prop :=
  ∀ source what g, s.Takes source what → resolve? t file source = some g → what ≠ some .all →
    g.steps ∉ S → ∀ l : Loader, l.Confined t S R →
      InTandem t S S' R l (enter g) (enter' g) fun _ => True

theorem inTandem_importedDecls (hA : Parallel t t' S S' R) (hR : R file.steps)
    (hsum : SummaryOf t file.steps s) (he : EntersInTandem t S S' R enter enter' file s)
    {source : String} {imported : Imported} (htakes : s.Takes source (some imported))
    (hl : l.Confined t S R) :
    InTandem t S S' R l (importedDecls t enter file source imported)
      (importedDecls t' enter' file source imported) fun _ => True := by
  have hlead := hA.leads file s source _ hR hsum htakes
  refine (inTandem_follow hl (rooted_of_summaryOf hsum) hlead).bind ?_
  rintro answer l₁ hans hl₁
  cases answer with
  | none =>
    refine (inTandem_intern hl₁ _).bind ?_
    intro id l₂ _ hl₂
    exact inTandem_pure hl₂ trivial
  | some g =>
    refine inTandem_sealed hl₁ (hA.shut file s source _ g hR hsum htakes hans.symm) ?_ ?_
    · refine (inTandem_intern hl₁ _).bind ?_
      intro id l₂ _ hl₂
      exact inTandem_pure hl₂ trivial
    · intro hname hopen
      have hne : some imported ≠ some .all := by simpa using hname
      refine (he source _ g htakes hans.symm hne hopen l₁ hl₁).bind ?_
      intro found l₂ _ hl₂
      exact inTandem_pure hl₂ trivial

theorem inTandem_namedDecls (hA : Parallel t t' S S' R) (hR : R file.steps)
    (hsum : SummaryOf t file.steps s) (he : EntersInTandem t S S' R enter enter' file s) {name : String}
    (htakes : ∀ b, s.imports.find? name = some b → s.Takes b.source (some b.imported))
    (hl : l.Confined t S R) :
    InTandem t S S' R l (namedDecls t enter file s name) (namedDecls t' enter' file s name)
      fun _ => True := by
  unfold namedDecls
  cases hb : s.imports.find? name with
  | some b => exact inTandem_importedDecls hA hR hsum he (htakes b hb) hl
  | none =>
    refine (inTandem_mapM_internIn hl file name _).bind ?_
    intro ids l₁ _ hl₁
    exact inTandem_pure hl₁ trivial

theorem inTandem_addEntry (hA : Parallel t t' S S' R) (hR : R file.steps)
    (hsum : SummaryOf t file.steps s) (he : EntersInTandem t S S' R enter enter' file s)
    {e : ExportEntry} (hmem : e ∈ s.exports) (acc : Found ExportMap) (hl : l.Confined t S R) :
    InTandem t S S' R l (addEntry t enter file s acc e) (addEntry t' enter' file s acc e)
      fun _ => True := by
  cases e with
  | named exported name =>
    refine (inTandem_namedDecls hA hR hsum he (fun b hb => .named hmem hb) hl).bind ?_
    intro ids l₁ _ hl₁
    exact inTandem_pure hl₁ trivial
  | default name =>
    cases name with
    | some name =>
      refine (inTandem_namedDecls hA hR hsum he (fun b hb => .default hmem hb) hl).bind ?_
      intro ids l₁ _ hl₁
      exact inTandem_pure hl₁ trivial
    | none =>
      refine (inTandem_intern hl _).bind ?_
      intro id l₁ _ hl₁
      exact inTandem_pure hl₁ trivial
  | reexport exported source imported =>
    refine (inTandem_importedDecls hA hR hsum he (.reexport hmem) hl).bind ?_
    intro ids l₁ _ hl₁
    exact inTandem_pure hl₁ trivial
  | star source => exact inTandem_pure hl trivial

theorem inTandem_followStar (hA : Parallel t t' S S' R) (hR : R file.steps)
    (hsum : SummaryOf t file.steps s) (he : EntersInTandem t S S' R enter enter' file s)
    {source : String} (hmem : .star source ∈ s.exports) (acc : Found ExportMap)
    (hl : l.Confined t S R) :
    InTandem t S S' R l (followStar t enter file acc source) (followStar t' enter' file acc source)
      fun _ => True := by
  have hlead := hA.leads file s source _ hR hsum (.star hmem)
  refine (inTandem_follow hl (rooted_of_summaryOf hsum) hlead).bind ?_
  intro answer l₁ hans hl₁
  cases answer with
  | none => exact inTandem_pure hl₁ trivial
  | some g =>
    have hshut := hA.shut file s source _ g hR hsum (.star hmem) hans.symm
    refine inTandem_sealed (b := false) hl₁ hshut (inTandem_pure hl₁ trivial) ?_
    intro _ hopen
    refine (he source _ g (.star hmem) hans.symm (by simp) hopen l₁ hl₁).bind ?_
    intro found l₂ _ hl₂
    exact inTandem_pure hl₂ trivial

theorem inTandem_collect (hA : Parallel t t' S S' R) (hR : R file.steps)
    (hsum : SummaryOf t file.steps s) (he : EntersInTandem t S S' R enter enter' file s)
    (hl : l.Confined t S R) :
    InTandem t S S' R l (collect t enter file s) (collect t' enter' file s) fun _ => True := by
  refine (inTandem_foldlM _ ?_ hl).bind ?_
  · intro e hmem acc l₁ hl₁
    exact inTandem_addEntry hA hR hsum he hmem acc hl₁
  · intro acc l₁ _ hl₁
    refine (inTandem_foldlM _ ?_ hl₁).bind ?_
    · intro source hmem acc l₂ hl₂
      exact inTandem_followStar hA hR hsum he (mem_starSources hmem) acc hl₂
    · intro acc l₂ _ hl₂
      exact inTandem_pure hl₂ trivial

/-- What a module takes from an open file is a part of it that points there. -/
theorem Summary.Takes.exists_part {source : String} {what : Option Imported}
    (h : s.Takes source what) {g : Path} (hg : resolve? t file source = some g)
    (hne : what ≠ some .all) (hopen : g.steps ∉ S) :
    ∃ p ∈ parts t S file s, p.target? = some g := by
  have himported : ∀ imported : Imported, imported ≠ .all →
      (importedSource t S file source imported).target? = some g := by
    intro imported hne
    simp [importedSource, hg, hne, hopen, Source.target?]
  have hnamed : ∀ name b, s.imports.find? name = some b → b.source = source → b.imported ≠ .all →
      (namedSource t S file s name).target? = some g := by
    rintro name b hb rfl hne
    rw [namedSource, hb]
    exact himported b.imported hne
  cases h with
  | star hmem =>
    refine ⟨.all g, List.mem_append_right _ (List.mem_filterMap.mpr ⟨source, ?_, ?_⟩), rfl⟩
    · exact List.mem_filterMap.mpr ⟨_, hmem, rfl⟩
    · simp [starPart?, hg, hopen]
  | reexport hmem =>
    refine ⟨_, List.mem_append_left _ (List.mem_filterMap.mpr ⟨_, hmem, rfl⟩), ?_⟩
    exact himported _ fun he => hne (congrArg some he)
  | named hmem hb =>
    refine ⟨_, List.mem_append_left _ (List.mem_filterMap.mpr ⟨_, hmem, rfl⟩), ?_⟩
    exact hnamed _ _ hb rfl fun he => hne (congrArg some he)
  | default hmem hb =>
    refine ⟨_, List.mem_append_left _ (List.mem_filterMap.mpr ⟨_, hmem, rfl⟩), ?_⟩
    exact hnamed _ _ hb rfl fun he => hne (congrArg some he)

theorem takes_of_importedSource {g : Path} {source : String} {imported : Imported}
    (htakes : s.Takes source (some imported))
    (h : (importedSource t S file source imported).target? = some g) :
    ∃ source what, s.Takes source what ∧ resolve? t file source = some g ∧ what ≠ some .all ∧
      g.steps ∉ S := by
  obtain ⟨hg, hopen⟩ := target_importedSource h
  refine ⟨source, some imported, htakes, hg, ?_, hopen⟩
  rintro he
  cases he
  simp [importedSource, hg, Source.target?] at h

/-- A part that points to a file is something that the module takes from it. -/
theorem takes_of_mem_parts {g : Path} {p : Part} (hp : p ∈ parts t S file s)
    (hg : p.target? = some g) :
    ∃ source what, s.Takes source what ∧ resolve? t file source = some g ∧ what ≠ some .all ∧
      g.steps ∉ S := by
  have hnamed : ∀ name, (∀ b, s.imports.find? name = some b → s.Takes b.source (some b.imported)) →
      (namedSource t S file s name).target? = some g → ∃ source what, s.Takes source what ∧
        resolve? t file source = some g ∧ what ≠ some .all ∧ g.steps ∉ S := by
    intro name htakes h
    unfold namedSource at h
    split at h
    · next b hb => exact takes_of_importedSource (htakes b hb) h
    · cases h
  obtain ⟨e, he, hpart⟩ := exists_standsFor hp
  cases hpart with
  | @named exported name => exact hnamed name (fun b hb => .named he hb) hg
  | @default name => exact hnamed name (fun b hb => .default he hb) hg
  | anonymous => cases hg
  | reexport => exact takes_of_importedSource (.reexport he) hg
  | @star source target hres hopen =>
    cases hg
    exact ⟨source, none, .star he, hres, by simp, hopen⟩

theorem Parallel.summaryOf (hA : Parallel t t' S S' R) (hR : R file.steps)
    (hsum : SummaryOf t file.steps s) : SummaryOf t' file.steps s := by
  obtain ⟨p, hp, hread⟩ := hsum
  exact ⟨p, hp, (hA.reads p (hp ▸ hR)).trans hread⟩

/-- The walk into a file does the same in both trees; the fuel of each is enough for its own. -/
theorem inTandem_walk (hA : Parallel t t' S S' R) {root : Path} {fuel fuel' : Nat} {trail : Trail}
    (hc : Call t S root fuel trail file) (hc' : Call t' S' root fuel' trail file) (hR : R file.steps)
    (hl : l.Confined t S R) :
    InTandem t S S' R l (walkExports t fuel trail file) (walkExports t' fuel' trail file)
      fun _ => True := by
  induction fuel generalizing fuel' trail file l with
  | zero =>
    obtain ⟨n, hn⟩ := hc.fuel_pos
    cases hn
  | succ fuel ih =>
    obtain ⟨fuel', rfl⟩ := hc'.fuel_pos
    rw [walkExports, walkExports]
    apply inTandem_get
    dsimp only [reseal]
    cases hfind : l.exports.find? file.steps with
    | some known => exact inTandem_pure hl trivial
    | none =>
      cases hdepth : depthIn? file.steps trail with
      | some depth => exact inTandem_pure hl trivial
      | none =>
        have hnot := depthIn?_eq_none_iff.mp hdepth
        refine (inTandem_moduleOf hl hR (hA.reads file hR)).bind ?_
        intro s l₁ hsum hl₁
        have he : EntersInTandem t S S' R (walkExports t fuel (file.steps :: trail))
            (walkExports t' fuel' (file.steps :: trail)) file s := by
          intro source what g htakes hg hne hopen l₂ hl₂
          obtain ⟨p, hp, htarget⟩ := htakes.exists_part hg hne hopen
          have hg' := (hA.leads file s source what hR hsum htakes).trans hg
          have hopen' := mt (hA.shut file s source what g hR hsum htakes hg).mp hopen
          obtain ⟨p', hp', htarget'⟩ := htakes.exists_part hg' hne hopen'
          exact ih (hc.child hnot hsum hp htarget)
            (hc'.child hnot (hA.summaryOf hR hsum) hp' htarget')
            (hA.closed file s source what g hR hsum htakes hg hne hopen) hl₂
        refine (inTandem_collect hA hR hsum he hl₁).bind ?_
        intro found l₂ _ hl₂
        by_cases hw : found.low.isWithin trail.length
        · simp only [hw, ↓reduceIte]
          exact ⟨rfl, ⟨hl₂.sealed_eq, hl₂.modules_ok, hl₂.resolved_ok⟩, fun _ _ => trivial⟩
        · simp only [hw, Bool.false_eq_true, ↓reduceIte]
          exact inTandem_pure hl₂ trivial

theorem inTandem_exportsOf (hA : Parallel t t' S S' R) (hR : R file.steps) (hl : l.Confined t S R) :
    InTandem t S S' R l (exportsOf t file) (exportsOf t' file) fun _ => True := by
  apply inTandem_get
  refine (inTandem_walk hA (Call.start S file (le_walkFuel t l))
    (Call.start S' file (le_walkFuel t' _)) hR hl).bind ?_
  intro found l₁ _ hl₁
  exact inTandem_pure hl₁ trivial

theorem inTandem_preload (hA : Parallel t t' S S' R) {files : List Path}
    (hR : ∀ f ∈ files, R f.steps) (hl : l.Confined t S R) :
    InTandem t S S' R l (preload t files) (preload t' files) fun _ => True := by
  induction files generalizing l with
  | nil => exact inTandem_pure hl trivial
  | cons f files ih =>
    have hf := hR f (List.mem_cons_self ..)
    have hread : InTandem t S S' R l (do let _ ← moduleOf t f) (do let _ ← moduleOf t' f)
        fun _ => True := by
      refine (inTandem_moduleOf hl hf (hA.reads f hf)).bind ?_
      intro s l₁ _ hl₁
      exact inTandem_pure hl₁ trivial
    refine hread.bind ?_
    intro _ l₁ _ hl₁
    exact ih (fun g hg => hR g (List.mem_cons_of_mem f hg)) hl₁

/-- A barrel of files in `R` is the same in both trees. -/
theorem inTandem_ofFiles (hA : Parallel t t' S S' R) (outDir : Path) {files : List Path}
    (hR : ∀ f ∈ files, R f.steps) (hl : l.Confined t S R) :
    InTandem t S S' R l (Barrel.Draft.ofFiles t outDir files) (Barrel.Draft.ofFiles t' outDir files)
      fun _ => True := by
  refine inTandem_foldlM Barrel.Draft.empty ?_ hl
  intro f hf d l₁ hl₁
  refine (inTandem_exportsOf hA (hR f hf) hl₁).bind ?_
  intro m l₂ _ hl₂
  exact inTandem_pure hl₂ trivial

end

end BarrelAlias.Linkage

namespace BarrelAlias.Barrel

open Linkage

/-- Plans that take the same files in `R` are drafted alike in both trees, each with its own excluded
files. -/
theorem Plan.draft_eq {t t' : FileTree} {p p' : Plan} {R : List Step → Prop}
    (h : Parallel t t' (p.excluded.map Path.steps) (p'.excluded.map Path.steps) R)
    (hfolder : p'.folder = p.folder) (hfiles : p'.files = p.files) (hR : ∀ f ∈ p.files, R f.steps) :
    p'.draft t' = p.draft t := by
  have hstart := Loader.confined_sealing t p.excluded R
  have htandem : InTandem t (p.excluded.map Path.steps) (p'.excluded.map Path.steps) R
      (.sealing p.excluded)
      (do preload t p.files; Draft.ofFiles t p.folder p.files)
      (do preload t' p.files; Draft.ofFiles t' p.folder p.files) fun _ => True := by
    refine (inTandem_preload h hR hstart).bind ?_
    intro _ l₁ _ hl₁
    exact inTandem_ofFiles h p.folder hR hl₁
  have hend := congrArg Prod.fst htandem.1
  unfold Plan.draft
  rw [hfolder, hfiles]
  exact hend

end BarrelAlias.Barrel
