import BarrelAlias.Proofs.Derivation
import BarrelAlias.Proofs.Interning
import BarrelAlias.Proofs.Registry

/-!
Numbers in export maps. Whatever a loader is asked, of whatever trees, and whether it answers or not,
its table of declarations only grows, and every map that it returns or remembers lists numbers of that
table, at least one under each name and none of them twice. Nothing of this depends on what the files
hold, so it is shown for every load from every loader in order, the trees changing between questions.
-/

namespace BarrelAlias.Linkage

open Loader
open Script (Imported)

section Lists

variable {d d' : DeclTable} {ids new : List DeclId} {m : ExportMap}

def InUse (d : DeclTable) (ids : List DeclId) : Prop := ∀ id ∈ ids, id < d.keys.length

def Listed (d : DeclTable) (ids : List DeclId) : Prop := ids.Nodup ∧ InUse d ids

def Tidy (d : DeclTable) (m : ExportMap) : Prop := m.All fun _ ids => ids ≠ [] ∧ Listed d ids

theorem InUse.mono (h : d.keys.length ≤ d'.keys.length) (hi : InUse d ids) : InUse d' ids :=
  fun id hid => Nat.lt_of_lt_of_le (hi id hid) h

theorem Listed.mono (h : d.keys.length ≤ d'.keys.length) (hi : Listed d ids) : Listed d' ids :=
  ⟨hi.1, hi.2.mono h⟩

theorem Tidy.mono (h : d.keys.length ≤ d'.keys.length) (hm : Tidy d m) : Tidy d' m :=
  fun n ids he => ⟨(hm n ids he).1, (hm n ids he).2.mono h⟩

theorem Listed.addUnique (h : Listed d ids) (hnew : InUse d new) : Listed d (addUnique ids new) := by
  refine ⟨Barrel.nodup_foldl_firstOccurrences new ids h.1, ?_⟩
  intro id hid
  exact (mem_addUnique hid).elim (h.2 id) (hnew id)

theorem all_listed_addUnder (h : m.All fun _ ids => Listed d ids) (n : String)
    (hnew : InUse d new) : (addUnder m n new).All fun _ ids => Listed d ids := by
  refine h.insert (Listed.addUnique ?_ hnew)
  cases hf : m.find? n with
  | none => exact ⟨List.nodup_nil, by simp [InUse]⟩
  | some ids => exact h.of_find? hf

/-- The numbers under a name are in use, and there are none if the name is not there. -/
theorem Tidy.inUse_getD (h : Tidy d m) (n : String) : InUse d ((m.find? n).getD []) := by
  cases hf : m.find? n with
  | none => simp [InUse]
  | some ids => exact (h.of_find? hf).2.2

/-- Names without numbers are left out at the end. -/
theorem tidy_keep (h : m.All fun _ ids => Listed d ids) :
    Tidy d (m.keep fun _ ids => !ids.isEmpty) := by
  intro n ids he
  obtain ⟨hmem, hne⟩ := List.mem_filter.mp he
  exact ⟨by simpa using hne, h n ids hmem⟩

end Lists

/-- No declaration has two numbers, and what is remembered lists numbers of the table. -/
structure Loader.Orderly (l : Loader) : Prop where
  distinct : l.decls.Distinct
  tidy : ∀ k m, l.exports.find? k = some m → Tidy l.decls m

/-- The load leaves the loader in order, whether it fails or not, and what it gives is as `Q` says of
the table at that time. -/
structure Load.Yields {α : Type} (x : Load α) (l : Loader) (Q : DeclTable → α → Prop) : Prop where
  orderly : (x.exec l).2.Orderly
  grown : l.decls.Grown (x.exec l).2.decls
  result : ∀ a, (x.exec l).1 = .ok a → Q (x.exec l).2.decls a

section Yields

open Load

variable {α β : Type} {l : Loader} {x : Load α} {Q : DeclTable → α → Prop}
  {Q' : DeclTable → β → Prop}

theorem Loader.Orderly.length_le (h : l.Orderly) {l' : Loader} (hg : l.decls.Grown l'.decls) :
    l.decls.keys.length ≤ l'.decls.keys.length := hg.length_le h.distinct

theorem yields_pure (h : l.Orderly) {a : α} (ha : Q l.decls a) : (pure a : Load α).Yields l Q where
  orderly := h
  grown := .refl _
  result := by
    rintro _ ⟨⟩
    exact ha

theorem yields_throw (h : l.Orderly) (e : Failure) : (throw e : Load α).Yields l Q where
  orderly := h
  grown := .refl _
  result := by simp

/-- What follows a load starts in order, from a table that has grown. -/
theorem Load.Yields.bind {f : α → Load β} (hx : x.Yields l Q)
    (hf : ∀ a l₁, l₁.Orderly → l.decls.Grown l₁.decls → Q l₁.decls a → (f a).Yields l₁ Q') :
    (x >>= f).Yields l Q' := by
  obtain ⟨ho, hg, hr⟩ := hx
  rcases he : x.exec l with ⟨r, l₁⟩
  rw [he] at ho hg hr
  cases r with
  | error e =>
    have hb : (x >>= f).exec l = (.error e, l₁) := by rw [exec_bind, he]
    exact ⟨hb ▸ ho, hb ▸ hg, by simp [hb]⟩
  | ok a =>
    obtain ⟨ho', hg', hr'⟩ := hf a l₁ ho hg (hr a rfl)
    have hb := exec_bind_of_ok (f := f) he
    exact ⟨hb ▸ ho', hb ▸ hg.trans hg', hb ▸ hr'⟩

/-- What every turn keeps is there at the end of a loop. -/
theorem yields_foldlM {γ : Type} {f : β → γ → Load β} {xs : List γ}
    (hf : ∀ x b l, l.Orderly → Q' l.decls b → (f b x).Yields l Q') {b : β} {l : Loader}
    (h : l.Orderly) (hb : Q' l.decls b) : (xs.foldlM f b).Yields l Q' := by
  induction xs generalizing b l with
  | nil => exact yields_pure h hb
  | cons x xs ih =>
    rw [List.foldlM_cons]
    refine (hf x b l h hb).bind ?_
    intro b' l₁ ho _ hb'
    exact ih ho hb'

theorem yields_intern (h : l.Orderly) (k : DeclKey) :
    (intern k).Yields l fun d id => id < d.keys.length := by
  obtain ⟨hpre, ⟨key, hget, _⟩, hdist⟩ := l.decls.intern_spec k h.distinct
  refine ⟨⟨hdist, ?_⟩, l.decls.grown_intern k, ?_⟩
  · exact fun k' m hm => (h.tidy k' m hm).mono hpre.length_le
  · rintro _ ⟨⟩
    exact (List.getElem?_eq_some_iff.mp hget).1

theorem yields_intern_spaces (h : l.Orderly) (file : Path) (name : String) (spaces : List Space) :
    (spaces.mapM (internIn file name)).Yields l InUse := by
  induction spaces generalizing l with
  | nil => exact yields_pure h (by simp [InUse])
  | cons space spaces ih =>
    rw [List.mapM_cons]
    refine (yields_intern h _).bind ?_
    intro id l₁ h₁ _ hid
    refine (ih h₁).bind ?_
    intro ids l₂ h₂ hg hids
    have hid' := Nat.lt_of_lt_of_le hid (h₁.length_le hg)
    exact yields_pure h₂ (List.forall_mem_cons.mpr ⟨hid', hids⟩)

theorem yields_get {f : Loader → Load β} (h : (f l).Yields l Q') : (get >>= f).Yields l Q' :=
  ⟨h.orderly, h.grown, h.result⟩

variable {t : FileTree} {enter : Enter} {file : Path} {s : Summary}

/-- Resolving a specifier is no matter of numbers. -/
theorem yields_follow (h : l.Orderly) (source : String) :
    (follow t file source).Yields l fun _ _ => True :=
  ⟨⟨h.distinct, h.tidy⟩, .refl _, fun _ _ => trivial⟩

/-- Nor is reading a file. -/
theorem yields_moduleOf (h : l.Orderly) (file : Path) :
    (moduleOf t file).Yields l fun _ _ => True := by
  unfold moduleOf
  refine yields_get ?_
  split
  · exact yields_pure h trivial
  · split
    · exact ⟨⟨h.distinct, h.tidy⟩, .refl _, fun _ _ => trivial⟩
    · exact yields_throw h _

/-- Entering a file gives a map in order. -/
def Tidies (enter : Enter) : Prop :=
  ∀ (g : Path) (l : Loader), l.Orderly → (enter g).Yields l fun d a => Tidy d a.value

theorem yields_importedDecls (he : Tidies enter) (h : l.Orderly) (source : String)
    (imported : Imported) :
    (importedDecls t enter file source imported).Yields l fun d a => InUse d a.value := by
  unfold importedDecls
  refine (yields_follow h source).bind ?_
  intro target l₁ h₁ _ _
  have hone : ∀ k : DeclKey, (do return ⟨[← intern k], none⟩ : Load (Found (List DeclId))).Yields l₁
      fun d a => InUse d a.value := by
    intro k
    refine (yields_intern h₁ k).bind ?_
    intro id l₂ h₂ _ hid
    exact yields_pure h₂ (by simpa [InUse] using hid)
  cases target with
  | none => exact hone _
  | some target =>
    refine yields_get ?_
    split
    · exact hone _
    · refine (he target l₁ h₁).bind ?_
      intro found l₂ h₂ _ hfound
      exact yields_pure h₂ (hfound.inUse_getD _)

theorem yields_namedDecls (he : Tidies enter) (h : l.Orderly) (name : String) :
    (namedDecls t enter file s name).Yields l fun d a => InUse d a.value := by
  unfold namedDecls
  split
  · exact yields_importedDecls he h _ _
  · refine (yields_intern_spaces h file name _).bind ?_
    intro ids l₁ h₁ _ hids
    exact yields_pure h₁ hids

/-- What is collected so far lists numbers in use, if perhaps none under some names. -/
def Collected (d : DeclTable) (acc : Found ExportMap) : Prop :=
  acc.value.All fun _ ids => Listed d ids

theorem Collected.mono {d d' : DeclTable} {acc : Found ExportMap}
    (h : d.keys.length ≤ d'.keys.length) (ha : Collected d acc) : Collected d' acc :=
  fun n ids he => (ha n ids he).mono h

theorem yields_addEntry (he : Tidies enter) {acc : Found ExportMap} (h : l.Orderly)
    (ha : Collected l.decls acc) (e : ExportEntry) :
    (addEntry t enter file s acc e).Yields l Collected := by
  -- numbers that come from anywhere are added to what is collected
  have hadd : ∀ {x : Load (Found (List DeclId))} (n : String),
      (x.Yields l fun d a => InUse d a.value) →
      (do
        let ids ← x
        return ⟨addUnder acc.value n ids.value, acc.low.min ids.low⟩ :
          Load (Found ExportMap)).Yields l Collected := by
    intro x n hx
    refine hx.bind ?_
    intro ids l₁ h₁ hg hids
    exact yields_pure h₁ (all_listed_addUnder (ha.mono (h.length_le hg)) n hids)
  cases e with
  | named exported name => exact hadd exported (yields_namedDecls he h name)
  | default name =>
    cases name with
    | some name => exact hadd "default" (yields_namedDecls he h name)
    | none =>
      refine (yields_intern h _).bind ?_
      intro id l₁ h₁ hg hid
      refine yields_pure h₁ (all_listed_addUnder (ha.mono (h.length_le hg)) "default" ?_)
      simpa [InUse] using hid
  | reexport exported source imported =>
    refine (yields_importedDecls he h source imported).bind ?_
    intro ids l₁ h₁ hg hids
    have ha₁ := ha.mono (h.length_le hg)
    refine yields_pure h₁ ?_
    unfold Collected
    dsimp only
    split
    · exact ha₁
    · exact all_listed_addUnder ha₁ exported hids
  | star source => exact yields_pure h ha

theorem yields_followStar (he : Tidies enter) {acc : Found ExportMap} (h : l.Orderly)
    (ha : Collected l.decls acc) (source : String) :
    (followStar t enter file acc source).Yields l Collected := by
  unfold followStar
  refine (yields_follow h source).bind ?_
  intro target l₁ h₁ hg₁ _
  have ha₁ := ha.mono (h.length_le hg₁)
  cases target with
  | none => exact yields_pure h₁ ha₁
  | some target =>
    refine yields_get ?_
    split
    · exact yields_pure h₁ ha₁
    · refine (he target l₁ h₁).bind ?_
      intro found l₂ h₂ hg₂ hfound
      refine yields_pure h₂ (all_addStar (ha₁.mono (h₁.length_le hg₂)) ?_)
      exact fun n ids hmem _ => (hfound n ids hmem).2

theorem yields_collect (he : Tidies enter) (h : l.Orderly) :
    (collect t enter file s).Yields l fun d a => Tidy d a.value := by
  unfold collect
  have hempty : Collected l.decls ⟨.empty, none⟩ := Table.all_empty
  refine (yields_foldlM (fun e acc l h ha => yields_addEntry he h ha e) h hempty).bind ?_
  intro acc l₁ h₁ _ ha
  refine (yields_foldlM (fun src acc l h ha => yields_followStar he h ha src) h₁ ha).bind ?_
  intro acc' l₂ h₂ _ ha'
  exact yields_pure h₂ (tidy_keep ha')

/-- Remembering a map in order. -/
theorem Loader.Orderly.settle (h : l.Orderly) (k : List Step) {m : ExportMap}
    (hm : Tidy l.decls m) : (l.settle k m).Orderly := by
  refine ⟨h.distinct, ?_⟩
  intro k' m' hk
  rw [Loader.settle, Table.find?_insert] at hk
  split at hk
  · cases hk
    exact hm
  · exact h.tidy k' m' hk

theorem tidies_walkExports (t : FileTree) (fuel : Nat) (trail : Trail) :
    Tidies (walkExports t fuel trail) := by
  induction fuel generalizing trail with
  | zero => exact fun g l h => yields_pure h Table.all_empty
  | succ fuel ih =>
    intro g l h
    unfold walkExports
    refine yields_get ?_
    split
    · next known hknown => exact yields_pure h (h.tidy _ known hknown)
    · split
      · exact yields_pure h Table.all_empty
      · refine (yields_moduleOf h g).bind ?_
        intro s l₁ h₁ _ _
        refine (yields_collect (ih _) h₁).bind ?_
        intro found l₂ h₂ _ hfound
        split
        · refine ⟨h₂.settle g.steps hfound, .refl _, ?_⟩
          rintro _ ⟨⟩
          exact hfound
        · exact yields_pure h₂ hfound

theorem yields_exportsOf (t : FileTree) (file : Path) (h : l.Orderly) :
    (exportsOf t file).Yields l Tidy := by
  unfold exportsOf
  refine yields_get ?_
  refine (tidies_walkExports t _ _ file l h).bind ?_
  intro found l₁ h₁ _ hfound
  exact yields_pure h₁ hfound

theorem yields_preload (t : FileTree) (files : List Path) (h : l.Orderly) :
    (preload t files).Yields l fun _ _ => True := by
  unfold preload
  induction files generalizing l with
  | nil => exact yields_pure h trivial
  | cons file files ih =>
    have hread : (do let _ ← moduleOf t file : Load Unit).Yields l fun _ _ => True :=
      (yields_moduleOf h file).bind fun _ _ h₁ _ _ => yields_pure h₁ trivial
    exact hread.bind fun _ _ h₁ _ _ => ih h₁

end Yields

theorem orderly_sealing (sealedFiles : List Path) : (sealing sealedFiles).Orderly where
  distinct := List.nodup_nil
  tidy := by simp [sealing, empty]

/-- A question leaves the loader in order, whether it is answered or not. -/
theorem Query.after_orderly (t : FileTree) {l : Loader} (h : l.Orderly) (q : Query) :
    (q.after t l).Orderly ∧ l.decls.Grown (q.after t l).decls := by
  cases q with
  | preload files => exact ⟨(yields_preload t files h).orderly, (yields_preload t files h).grown⟩
  | exports file => exact ⟨(yields_exportsOf t file h).orderly, (yields_exportsOf t file h).grown⟩

/-- What a loader knows after some questions, each of them about the tree as it was at that time. -/
def Loader.served (l : Loader) (past : List (FileTree × Query)) : Loader :=
  past.foldl (fun l tq => tq.2.after tq.1 l) l

theorem Loader.Orderly.served {l : Loader} (h : l.Orderly) (past : List (FileTree × Query)) :
    (l.served past).Orderly ∧ l.decls.Grown (l.served past).decls := by
  induction past generalizing l with
  | nil => exact ⟨h, .refl _⟩
  | cons tq past ih =>
    obtain ⟨ho, hg⟩ := Query.after_orderly tq.1 h tq.2
    obtain ⟨ho', hg'⟩ := ih ho
    exact ⟨ho', hg.trans hg'⟩

/-- At any time the table is lawful, and the maps that are remembered list numbers of it. From then on
the table only grows, and a map that is returned lists numbers of the table of that and any later
time. -/
theorem numbers_last (sealedFiles : List Path) (past : List (FileTree × Query)) :
    let l := (sealing sealedFiles).served past
    l.decls.Lawful ∧ (∀ k m, l.exports.find? k = some m → Tidy l.decls m) ∧
      (∀ more, l.decls.Grown (l.served more).decls) ∧
      ∀ t file m l', (exportsOf t file).exec l = (.ok m, l') →
        ∀ more, Tidy (l'.served more).decls m := by
  obtain ⟨h, _⟩ := (orderly_sealing sealedFiles).served past
  refine ⟨DeclTable.lawful_of_distinct h.distinct, h.tidy, fun more => (h.served more).2, ?_⟩
  intro t file m l' hx more
  obtain ⟨ho, _, hm⟩ := yields_exportsOf t file h
  rw [hx] at ho hm
  obtain ⟨_, hg⟩ := ho.served more
  exact (hm m rfl).mono (ho.length_le hg)

end BarrelAlias.Linkage
