import BarrelAlias.Proofs.Loader

/-!
What the exports of a module come down to once its specifiers are resolved. Each entry is a part:
declarations that are known on the spot, something that another file exports under a name, or all of
another file. Collecting the exports of a module is one run through its parts, in which the files
that they point to are entered in turn, and the map that comes out is assembled from the answers.
-/

namespace BarrelAlias.Linkage

open Script (Imported)
open Loader

inductive Source
  | known (keys : List Identity)
  /-- What the file `target` exports as `name`. -/
  | taken (target : Path) (name : String)

namespace Source

def target? : Source → Option Path
  | known _ => none
  | taken target _ => some target

def keys (answer : KeyMap) : Source → List Identity
  | known keys => keys
  | taken _ name => (answer.find? name).getD []

end Source

/-- What an entry of a module contributes to its exports. -/
inductive Part
  /-- Declarations under a name; without any, the name is there only if it is `kept`. -/
  | entry (exported : String) (source : Source) (kept : Bool)
  /-- All that the file `target` exports. -/
  | all (target : Path)

namespace Part

def target? : Part → Option Path
  | entry _ source _ => source.target?
  | all target => some target

/-- Adds the part to what was found before, given what its target exports. -/
def add (found answer : KeyMap) : Part → KeyMap
  | entry exported source kept =>
    let keys := source.keys answer
    if keys.isEmpty && !kept then found else addUnder found exported keys
  | all _ => addStar found answer

def answer (M : Path → KeyMap) (p : Part) : KeyMap := (p.target?.map M).getD .empty

end Part

def importedSource (t : FileTree) (S : List (List Step)) (file : Path) (source : String)
    (imported : Imported) : Source :=
  match resolve? t file source with
  | none => .known [⟨.package source, importedName imported, .value⟩]
  | some target =>
    if imported = .all ∨ S.contains target.steps then
      .known [⟨.file target.steps, importedName imported, .value⟩]
    else .taken target (importedName imported)

def namedSource (t : FileTree) (S : List (List Step)) (file : Path) (s : Summary) (name : String) :
    Source :=
  match s.imports.find? name with
  | some b => importedSource t S file b.source b.imported
  | none => .known ((spacesOf s name).map fun space => ⟨.file file.steps, name, space⟩)

def entryPart? (t : FileTree) (S : List (List Step)) (file : Path) (s : Summary) :
    ExportEntry → Option Part
  | .named exported name => some (.entry exported (namedSource t S file s name) true)
  | .default (some name) => some (.entry "default" (namedSource t S file s name) true)
  | .default none => some (.entry "default" (.known [⟨.file file.steps, "default", .value⟩]) true)
  | .reexport exported source imported =>
    some (.entry exported (importedSource t S file source imported) false)
  | .star _ => none

def starPart? (t : FileTree) (S : List (List Step)) (file : Path) (source : String) : Option Part :=
  match resolve? t file source with
  | none => none
  | some target => if S.contains target.steps then none else some (.all target)

def parts (t : FileTree) (S : List (List Step)) (file : Path) (s : Summary) : List Part :=
  s.exports.filterMap (entryPart? t S file s) ++
    (starSources s.exports).filterMap (starPart? t S file)

def addAll (found : KeyMap) (ps : List (Part × KeyMap)) : KeyMap :=
  ps.foldl (fun found p => p.1.add found p.2) found

/-- The exports of a module with these parts, given the answers to them in order. -/
def assemble (ps : List Part) (answers : List KeyMap) : KeyMap :=
  (addAll .empty (ps.zip answers)).keep fun _ ks => !ks.isEmpty

theorem importedSource_congr (t : FileTree) (S : List (List Step)) {p q : Path}
    (h : p.steps = q.steps) (hp : p.rooted) (source : String) (imported : Imported) :
    importedSource t S p source imported = importedSource t S q source imported := by
  rw [importedSource, importedSource, resolve?_congr h hp]

/-- The parts are settled by the steps of the file. -/
theorem parts_congr (t : FileTree) (S : List (List Step)) {p q : Path} (h : p.steps = q.steps)
    (hp : p.rooted) (s : Summary) : parts t S p s = parts t S q s := by
  have hnamed : ∀ name, namedSource t S p s name = namedSource t S q s name := by
    intro name
    unfold namedSource
    split
    · exact importedSource_congr t S h hp _ _
    · rw [h]
  have hentry : entryPart? t S p s = entryPart? t S q s := by
    funext e
    cases e with
    | named exported name => simp [entryPart?, hnamed]
    | default name =>
      cases name with
      | none => simp [entryPart?, h]
      | some name => simp [entryPart?, hnamed]
    | reexport exported source imported =>
      simp [entryPart?, importedSource_congr t S h hp]
    | star source => rfl
  have hstar : starPart? t S p = starPart? t S q := by
    funext source
    rw [starPart?, starPart?, resolve?_congr h hp]
  rw [parts, parts, hentry, hstar]

theorem target_importedSource {t : FileTree} {S : List (List Step)} {file : Path} {source : String}
    {imported : Imported} {g : Path}
    (h : (importedSource t S file source imported).target? = some g) :
    resolve? t file source = some g ∧ g.steps ∉ S := by
  unfold importedSource at h
  split at h
  · cases h
  · next target hr =>
    split at h
    · cases h
    · next hn =>
      cases h
      exact ⟨hr, fun hm => hn (Or.inr (List.contains_iff_mem.mpr hm))⟩

theorem target_namedSource {t : FileTree} {S : List (List Step)} {file : Path} {s : Summary}
    {name : String} {g : Path} (h : (namedSource t S file s name).target? = some g) :
    ∃ source, resolve? t file source = some g ∧ g.steps ∉ S := by
  unfold namedSource at h
  split at h
  · exact ⟨_, target_importedSource h⟩
  · cases h

theorem mem_starSources {es : List ExportEntry} {source : String} (h : source ∈ starSources es) :
    .star source ∈ es := by
  obtain ⟨e, he, hs⟩ := List.mem_filterMap.mp h
  cases e with
  | star source' =>
    cases hs
    exact he
  | named exported name => cases hs
  | default name => cases hs
  | reexport exported source' imported => cases hs

theorem exists_all_of_starPart? {t : FileTree} {S : List (List Step)} {file : Path} {source : String}
    {p : Part} (h : starPart? t S file source = some p) :
    ∃ g, p = .all g ∧ resolve? t file source = some g ∧ g.steps ∉ S := by
  unfold starPart? at h
  split at h
  · cases h
  · next g hr =>
    split at h
    · cases h
    · next hn =>
      cases h
      exact ⟨g, rfl, hr, fun hm => hn (List.contains_iff_mem.mpr hm)⟩

inductive StandsFor (t : FileTree) (S : List (List Step)) (file : Path) (s : Summary) :
    ExportEntry → Part → Prop
  | named {exported name : String} : StandsFor t S file s (.named exported name)
      (.entry exported (namedSource t S file s name) true)
  | default {name : String} : StandsFor t S file s (.default (some name))
      (.entry "default" (namedSource t S file s name) true)
  | anonymous : StandsFor t S file s (.default none)
      (.entry "default" (.known [⟨.file file.steps, "default", .value⟩]) true)
  | reexport {exported source : String} {imported : Imported} :
      StandsFor t S file s (.reexport exported source imported)
        (.entry exported (importedSource t S file source imported) false)
  | star {source : String} {g : Path} : resolve? t file source = some g → g.steps ∉ S →
      StandsFor t S file s (.star source) (.all g)

/-- Each part of a module is that of one of its entries. -/
theorem exists_standsFor {t : FileTree} {S : List (List Step)} {file : Path} {s : Summary} {p : Part}
    (hp : p ∈ parts t S file s) : ∃ e ∈ s.exports, StandsFor t S file s e p := by
  rcases List.mem_append.mp hp with hp | hp
  · obtain ⟨e, he, hpart⟩ := List.mem_filterMap.mp hp
    refine ⟨e, he, ?_⟩
    cases e with
    | named exported name =>
      cases hpart
      exact .named
    | default name =>
      cases name with
      | some name =>
        cases hpart
        exact .default
      | none =>
        cases hpart
        exact .anonymous
    | reexport exported source imported =>
      cases hpart
      exact .reexport
    | star source => cases hpart
  · obtain ⟨source, hsource, hpart⟩ := List.mem_filterMap.mp hp
    obtain ⟨g, rfl, hres, hopen⟩ := exists_all_of_starPart? hpart
    exact ⟨.star source, mem_starSources hsource, .star hres hopen⟩

/-- A part points to a file that a specifier of the module leads to and that is not sealed. -/
theorem target_of_mem_parts {t : FileTree} {S : List (List Step)} {file : Path} {s : Summary}
    {p : Part} {g : Path} (hp : p ∈ parts t S file s) (hg : p.target? = some g) :
    ∃ source, resolve? t file source = some g ∧ g.steps ∉ S := by
  obtain ⟨e, _, hpart⟩ := exists_standsFor hp
  cases hpart with
  | named => exact target_namedSource hg
  | default => exact target_namedSource hg
  | anonymous => cases hg
  | @reexport exported source imported => exact ⟨source, target_importedSource hg⟩
  | @star source g' hres hopen =>
    cases hg
    exact ⟨source, hres, hopen⟩

theorem isPlain_of_mem_parts {t : FileTree} {S : List (List Step)} {file : Path} {s : Summary}
    {p : Part} {g : Path} (hp : p ∈ parts t S file s) (hg : p.target? = some g) : t.IsPlain g := by
  obtain ⟨source, hr, _⟩ := target_of_mem_parts hp hg
  exact isPlain_of_resolve? hr

/-- Entering a file keeps what is known true, loses nothing and gives a map of declarations. -/
def Keeps (t : FileTree) (S : List (List Step)) (enter : Enter) : Prop :=
  ∀ g l r l', l.Sound t S → (enter g).exec l = (r, l') →
    l'.Sound t S ∧ l.Grows l' ∧ ∀ found, r = .ok found → ∃ km, Shows l'.decls found.value km

/-- How a part is met: on the spot, or by entering the file that it points to, which may fail. -/
inductive Met (t : FileTree) (S : List (List Step)) (enter : Enter) (l : Loader) :
    Option Path → Except Failure (Found KeyMap) → Loader → Prop
  | known {l' : Loader} : l.Quiet l' → l'.Sound t S → Met t S enter l none (.ok ⟨.empty, none⟩) l'
  | entered {g : Path} {l₁ l₂ : Loader} {found : Found ExportMap} {km : KeyMap} :
      l.Quiet l₁ → l₁.Sound t S → (enter g).exec l₁ = (.ok found, l₂) → l₁.Grows l₂ →
      l₂.Sound t S → Shows l₂.decls found.value km →
      Met t S enter l (some g) (.ok ⟨km, found.low⟩) l₂
  | failed {g : Path} {l₁ l₂ : Loader} {e : Failure} :
      l.Quiet l₁ → l₁.Sound t S → (enter g).exec l₁ = (.error e, l₂) → l₁.Grows l₂ →
      l₂.Sound t S → Met t S enter l (some g) (.error e) l₂

/-- How parts are met one after the other when none of them fails. -/
inductive AllMet (t : FileTree) (S : List (List Step)) (enter : Enter) :
    Loader → List Part → List (Found KeyMap) → Loader → Prop
  | nil {l l' : Loader} : l.Quiet l' → l'.Sound t S → AllMet t S enter l [] [] l'
  | cons {l l₁ l' : Loader} {p : Part} {ps : List Part} {a : Found KeyMap}
      {as : List (Found KeyMap)} :
      Met t S enter l p.target? (.ok a) l₁ → AllMet t S enter l₁ ps as l' →
      AllMet t S enter l (p :: ps) (a :: as) l'

/-- How parts are met one after the other until one of them fails. -/
inductive Breaks (t : FileTree) (S : List (List Step)) (enter : Enter) :
    Loader → List Part → Failure → Loader → Prop
  | here {l l' : Loader} {p : Part} {ps : List Part} {e : Failure} :
      Met t S enter l p.target? (.error e) l' → Breaks t S enter l (p :: ps) e l'
  | later {l l₁ l' : Loader} {p : Part} {ps : List Part} {a : Found KeyMap} {e : Failure} :
      Met t S enter l p.target? (.ok a) l₁ → Breaks t S enter l₁ ps e l' →
      Breaks t S enter l (p :: ps) e l'

section

variable {t : FileTree} {S : List (List Step)} {enter : Enter} {l l₁ l' : Loader}

theorem Met.grows {g : Option Path} {r : Except Failure (Found KeyMap)}
    (h : Met t S enter l g r l') : l.Grows l' := by
  cases h with
  | known hq _ => exact hq.grows
  | entered hq _ _ hg _ _ => exact hq.grows.trans hg
  | failed hq _ _ hg _ => exact hq.grows.trans hg

theorem Met.sound {g : Option Path} {r : Except Failure (Found KeyMap)}
    (h : Met t S enter l g r l') : l'.Sound t S := by
  cases h with
  | known _ hs => exact hs
  | entered _ _ _ _ hs _ => exact hs
  | failed _ _ _ _ hs => exact hs

theorem Met.of_quiet (hq : l.Quiet l₁) {g : Option Path} {r : Except Failure (Found KeyMap)}
    (h : Met t S enter l₁ g r l') : Met t S enter l g r l' := by
  cases h with
  | known hq' hs => exact .known (hq.trans hq') hs
  | entered hq' hs hx hg hs' hsh => exact .entered (hq.trans hq') hs hx hg hs' hsh
  | failed hq' hs hx hg hs' => exact .failed (hq.trans hq') hs hx hg hs'

theorem AllMet.of_quiet (hq : l.Quiet l₁) {ps : List Part} {as : List (Found KeyMap)}
    (h : AllMet t S enter l₁ ps as l') : AllMet t S enter l ps as l' := by
  cases h with
  | nil hq' hs => exact .nil (hq.trans hq') hs
  | cons hm h => exact .cons (hm.of_quiet hq) h

theorem AllMet.append {ps qs : List Part} {as bs : List (Found KeyMap)}
    (h : AllMet t S enter l ps as l₁) (h' : AllMet t S enter l₁ qs bs l') :
    AllMet t S enter l (ps ++ qs) (as ++ bs) l' := by
  induction h with
  | nil hq _ => exact h'.of_quiet hq
  | cons hm _ ih => exact .cons hm (ih h')

theorem AllMet.grows {ps : List Part} {as : List (Found KeyMap)}
    (h : AllMet t S enter l ps as l') : l.Grows l' := by
  induction h with
  | nil hq _ => exact hq.grows
  | cons hm _ ih => exact hm.grows.trans ih

theorem AllMet.sound {ps : List Part} {as : List (Found KeyMap)}
    (h : AllMet t S enter l ps as l') : l'.Sound t S := by
  induction h with
  | nil _ hs => exact hs
  | cons _ _ ih => exact ih

theorem Breaks.of_quiet (hq : l.Quiet l₁) {ps : List Part} {e : Failure}
    (h : Breaks t S enter l₁ ps e l') : Breaks t S enter l ps e l' := by
  cases h with
  | here hm => exact .here (hm.of_quiet hq)
  | later hm h => exact .later (hm.of_quiet hq) h

theorem Breaks.append {ps : List Part} {e : Failure} (h : Breaks t S enter l ps e l')
    (qs : List Part) : Breaks t S enter l (ps ++ qs) e l' := by
  induction h with
  | here hm => exact .here hm
  | later hm _ ih => exact .later hm ih

theorem AllMet.breaks {ps qs : List Part} {as : List (Found KeyMap)} {e : Failure}
    (h : AllMet t S enter l ps as l₁) (h' : Breaks t S enter l₁ qs e l') :
    Breaks t S enter l (ps ++ qs) e l' := by
  induction h with
  | nil hq _ => exact h'.of_quiet hq
  | cons hm _ ih => exact .later hm (ih h')

theorem Breaks.grows {ps : List Part} {e : Failure} (h : Breaks t S enter l ps e l') :
    l.Grows l' := by
  induction h with
  | here hm => exact hm.grows
  | later hm _ ih => exact hm.grows.trans ih

theorem Breaks.sound {ps : List Part} {e : Failure} (h : Breaks t S enter l ps e l') :
    l'.Sound t S := by
  induction h with
  | here hm => exact hm.sound
  | later _ _ ih => exact ih

/-- How parts are met one after the other, up to the first failure. -/
def Ran (t : FileTree) (S : List (List Step)) (enter : Enter) (l : Loader) (ps : List Part)
    (r : Except Failure (List (Found KeyMap))) (l' : Loader) : Prop :=
  match r with
  | .ok as => AllMet t S enter l ps as l'
  | .error e => Breaks t S enter l ps e l'

/-- The first part of a run fails, or the rest is a run. -/
theorem Ran.cons_cases {p : Part} {ps : List Part} {r : Except Failure (List (Found KeyMap))}
    (h : Ran t S enter l (p :: ps) r l') :
    (∃ e, r = .error e ∧ Met t S enter l p.target? (.error e) l') ∨
      ∃ a l₁ r', Met t S enter l p.target? (.ok a) l₁ ∧ Ran t S enter l₁ ps r' l' ∧
        r = r'.map (a :: ·) := by
  cases r with
  | ok as =>
    cases h with
    | cons hm h => exact Or.inr ⟨_, _, .ok _, hm, h, rfl⟩
  | error e =>
    cases h with
    | here hm => exact Or.inl ⟨e, rfl, hm⟩
    | later hm h => exact Or.inr ⟨_, _, .error e, hm, h, rfl⟩

theorem AllMet.length_eq {ps : List Part} {as : List (Found KeyMap)}
    (h : AllMet t S enter l ps as l') : ps.length = as.length := by
  induction h with
  | nil _ _ => rfl
  | cons _ _ ih => rw [List.length_cons, List.length_cons, ih]

/-- The answer to a part is as `Q` says, and empty if the part points to no file. -/
def Answers (Q : Path → Found KeyMap → Prop) (p : Part) (a : Found KeyMap) : Prop :=
  match p.target? with
  | none => a = ⟨.empty, none⟩
  | some g => Q g a

theorem Answers.imp {Q Q' : Path → Found KeyMap → Prop} {p : Part} {a : Found KeyMap}
    (h : ∀ g, p.target? = some g → Q g a → Q' g a) (ha : Answers Q p a) : Answers Q' p a := by
  unfold Answers at ha ⊢
  cases hg : p.target? with
  | none => simpa [hg] using ha
  | some g =>
    rw [hg] at ha
    exact h g hg ha

/-- Every answer is the answer to one of the parts. -/
theorem exists_part_of_mem {Q : Path → Found KeyMap → Prop} {ps : List Part}
    {as : List (Found KeyMap)} (h : List.Forall₂ (Answers Q) ps as) {a : Found KeyMap} (ha : a ∈ as) :
    ∃ p ∈ ps, Answers Q p a := by
  induction h with
  | nil => cases ha
  | @cons p b ps as hpb _ ih =>
    rcases List.mem_cons.mp ha with rfl | ha
    · exact ⟨p, List.mem_cons_self .., hpb⟩
    · obtain ⟨q, hq, hqa⟩ := ih ha
      exact ⟨q, List.mem_cons_of_mem p hq, hqa⟩

/-- What entering the file `g` comes to: `P` stays true of the loader, an answer is as `Q` says, and
a failure as `E` says. -/
def Enters (t : FileTree) (S : List (List Step)) (enter : Enter) (P : Loader → Prop)
    (Q : Loader → Path → Found KeyMap → Prop) (E : Failure → Prop) (g : Path) : Prop :=
  ∀ l r l', l.Sound t S → P l → (enter g).exec l = (r, l') →
    P l' ∧ (∀ e, r = .error e → E e) ∧
      ∀ found km, r = .ok found → Shows l'.decls found.value km → Q l' g ⟨km, found.low⟩

variable {P : Loader → Prop} {Q : Loader → Path → Found KeyMap → Prop} {E : Failure → Prop}

theorem Met.spec (hP : ∀ l l', l.Quiet l' → l.Sound t S → P l → P l') {p : Part}
    (he : ∀ g, p.target? = some g → Enters t S enter P Q E g)
    {r : Except Failure (Found KeyMap)} (h : Met t S enter l p.target? r l') (hs : l.Sound t S)
    (hl : P l) :
    P l' ∧ (∀ e, r = .error e → E e) ∧ ∀ a, r = .ok a → Answers (Q l') p a := by
  unfold Answers
  generalize p.target? = target at h he
  cases h with
  | known hq _ =>
    refine ⟨hP l l' hq hs hl, by simp, ?_⟩
    intro a ha
    cases ha
    rfl
  | @entered g l₁ _ found km hq hs₁ hx _ _ hsh =>
    obtain ⟨hl', _, hQ⟩ := he g rfl l₁ _ l' hs₁ (hP l l₁ hq hs hl) hx
    refine ⟨hl', by simp, ?_⟩
    intro a ha
    cases ha
    exact hQ found km rfl hsh
  | @failed g l₁ _ e hq hs₁ hx _ _ =>
    obtain ⟨hl', hE, _⟩ := he g rfl l₁ _ l' hs₁ (hP l l₁ hq hs hl) hx
    refine ⟨hl', ?_, by simp⟩
    intro e' he'
    cases he'
    exact hE e rfl

/-- What holds of entering each file holds of meeting all parts. -/
theorem AllMet.spec (hP : ∀ l l', l.Quiet l' → l.Sound t S → P l → P l')
    (hQ : ∀ l l' g a, l.Grows l' → Q l g a → Q l' g a) {ps : List Part}
    (he : ∀ p ∈ ps, ∀ g, p.target? = some g → Enters t S enter P Q E g)
    {as : List (Found KeyMap)} (h : AllMet t S enter l ps as l') (hs : l.Sound t S) (hl : P l) :
    P l' ∧ List.Forall₂ (Answers (Q l')) ps as := by
  induction h with
  | nil hq _ => exact ⟨hP _ _ hq hs hl, .nil⟩
  | @cons l l₁ l' p ps a as hm hms ih =>
    obtain ⟨hl₁, _, ha⟩ := hm.spec hP (he p (List.mem_cons_self ..)) hs hl
    obtain ⟨hl', has⟩ := ih (fun q hq => he q (List.mem_cons_of_mem p hq)) hm.sound hl₁
    refine ⟨hl', .cons ?_ has⟩
    exact (ha a rfl).imp fun g _ hg => hQ l₁ l' g a hms.grows hg

theorem Breaks.spec (hP : ∀ l l', l.Quiet l' → l.Sound t S → P l → P l') {ps : List Part}
    (he : ∀ p ∈ ps, ∀ g, p.target? = some g → Enters t S enter P Q E g) {e : Failure}
    (h : Breaks t S enter l ps e l') (hs : l.Sound t S) (hl : P l) : P l' ∧ E e := by
  induction h with
  | here hm =>
    obtain ⟨hl', hE, _⟩ := hm.spec hP (he _ (List.mem_cons_self ..)) hs hl
    exact ⟨hl', hE _ rfl⟩
  | later hm _ ih =>
    obtain ⟨hl₁, _, _⟩ := hm.spec hP (he _ (List.mem_cons_self ..)) hs hl
    exact ih (fun q hq => he q (List.mem_cons_of_mem _ hq)) hm.sound hl₁

end

end BarrelAlias.Linkage
