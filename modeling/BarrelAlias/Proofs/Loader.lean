import BarrelAlias.Proofs.Declaration
import BarrelAlias.Proofs.Load
import BarrelAlias.Proofs.Place

/-!
What a loader knows about a tree. A sound loader holds only summaries and resolved specifiers that
the tree would give again, and its export maps stand for declarations. Numbering a declaration,
resolving a specifier and reading a file are quiet: they leave the remembered exports alone.
-/

namespace BarrelAlias.Linkage

namespace Loader

/-- What the loader knows is true of the tree, and the sealed files are these. -/
structure Sound (t : FileTree) (S : List (List Step)) (l : Loader) : Prop where
  sealed_eq : l.sealedFiles = S
  distinct : l.decls.Distinct
  modules_ok : ∀ k s, l.modules.find? k = some s → SummaryOf t k s
  resolved_ok : ∀ p : Path, p.rooted → ∀ src a,
    l.resolved.find? (p.steps, src) = some a → resolve? t p src = a
  exports_ok : ∀ k m, l.exports.find? k = some m → ∃ km, Shows l.decls m km

/-- Declarations may have got numbers, but no exports were settled. -/
structure Quiet (l l' : Loader) : Prop where
  decls : l.decls.keys <+: l'.decls.keys
  exports : l'.exports = l.exports

structure Grows (l l' : Loader) : Prop where
  decls : l.decls.keys <+: l'.decls.keys
  exports : ∀ k m, l.exports.find? k = some m → l'.exports.find? k = some m

theorem sound_empty (t : FileTree) (S : List (List Step)) :
    Sound t S { empty with sealedFiles := S } where
  sealed_eq := rfl
  distinct := List.nodup_nil
  modules_ok := by simp [empty]
  resolved_ok := by simp [empty]
  exports_ok := by simp [empty]

theorem Sound.isSealed_eq {t : FileTree} {S : List (List Step)} {l : Loader} (h : l.Sound t S)
    (file : Path) : l.isSealed file = S.contains file.steps := by
  rw [isSealed, h.sealed_eq, List.contains_eq_mem]

theorem Quiet.refl (l : Loader) : l.Quiet l := ⟨List.prefix_rfl, rfl⟩

theorem Quiet.trans {l l₁ l₂ : Loader} (h : l.Quiet l₁) (h' : l₁.Quiet l₂) : l.Quiet l₂ :=
  ⟨h.decls.trans h'.decls, h'.exports.trans h.exports⟩

theorem Quiet.grows {l l' : Loader} (h : l.Quiet l') : l.Grows l' :=
  ⟨h.decls, fun k m hk => by rw [h.exports]; exact hk⟩

theorem Grows.refl (l : Loader) : l.Grows l := (Quiet.refl l).grows

theorem Grows.trans {l l₁ l₂ : Loader} (h : l.Grows l₁) (h' : l₁.Grows l₂) : l.Grows l₂ :=
  ⟨h.decls.trans h'.decls, fun k m hk => h'.exports k m (h.exports k m hk)⟩

def Remembers (l : Loader) (k : List Step) (km : KeyMap) : Prop :=
  ∃ m, l.exports.find? k = some m ∧ Shows l.decls m km

theorem Remembers.unique {l : Loader} {k : List Step} {km km' : KeyMap} (h : l.Remembers k km)
    (h' : l.Remembers k km') : km = km' := by
  obtain ⟨m, hm, hs⟩ := h
  obtain ⟨m', hm', hs'⟩ := h'
  cases hm.symm.trans hm'
  exact hs.unique hs'

theorem Remembers.mono {l l' : Loader} (hg : l.Grows l') {k : List Step} {km : KeyMap}
    (h : l.Remembers k km) : l'.Remembers k km := by
  obtain ⟨m, hm, hs⟩ := h
  exact ⟨m, hg.exports k m hm, hs.mono hg.decls⟩

theorem remembers_congr {l l' : Loader} (h : l.Quiet l') {t : FileTree} {S : List (List Step)}
    (hs : l.Sound t S) {k : List Step} {km : KeyMap} :
    l'.Remembers k km ↔ l.Remembers k km := by
  constructor
  · rintro ⟨m, hm, hm'⟩
    rw [h.exports] at hm
    obtain ⟨km', hk⟩ := hs.exports_ok k m hm
    cases hm'.unique (hk.mono h.decls)
    exact ⟨m, hm, hk⟩
  · exact Remembers.mono h.grows

end Loader

open Loader

variable {t : FileTree} {S : List (List Step)} {l : Loader}

/-- A declaration that is asked for gets a number, which stands for it from then on. -/
theorem exec_intern (hs : l.Sound t S) (k : DeclKey) :
    ∃ id l', (intern k).exec l = (.ok id, l') ∧ l.Quiet l' ∧ l'.Sound t S ∧
      l'.decls.Names id k.identity := by
  obtain ⟨hpre, hnames, hdist⟩ := l.decls.intern_spec k hs.distinct
  refine ⟨_, _, rfl, ⟨hpre, rfl⟩, ⟨hs.sealed_eq, hdist, hs.modules_ok, hs.resolved_ok, ?_⟩,
    hnames⟩
  intro k' m hm
  obtain ⟨km, hkm⟩ := hs.exports_ok k' m hm
  exact ⟨km, hkm.mono hpre⟩

theorem exec_mapM_internIn (hs : l.Sound t S) (file : Path) (name : String)
    (spaces : List Space) :
    ∃ ids l', Load.exec (spaces.mapM (internIn file name)) l = (.ok ids, l') ∧ l.Quiet l' ∧
      l'.Sound t S ∧
      List.Forall₂ l'.decls.Names ids
        (spaces.map fun space => ⟨.file file.steps, name, space⟩) := by
  induction spaces generalizing l with
  | nil => exact ⟨[], l, rfl, .refl l, hs, .nil⟩
  | cons space spaces ih =>
    obtain ⟨id, l₁, h₁, hq₁, hs₁, hn⟩ := exec_intern hs ⟨.file file, name, space⟩
    change (internIn file name space).exec l = _ at h₁
    obtain ⟨ids, l₂, h₂, hq₂, hs₂, hns⟩ := ih hs₁
    refine ⟨id :: ids, l₂, ?_, hq₁.trans hq₂, hs₂, .cons (hn.mono hq₂.decls) hns⟩
    rw [List.mapM_cons, Load.exec_bind_of_ok h₁, Load.exec_bind_of_ok h₂]
    rfl

/-- Following a specifier gives what the tree gives, remembered or not. -/
theorem exec_follow (hs : l.Sound t S) {file : Path} (hr : file.rooted) (src : String) :
    ∃ l', (follow t file src).exec l = (.ok (resolve? t file src), l') ∧ l.Quiet l' ∧
      l'.Sound t S := by
  have hx : (follow t file src).exec l =
      (.ok (resolveOnce t l.resolved file src).1,
        { l with resolved := (resolveOnce t l.resolved file src).2 }) := rfl
  cases hf : l.resolved.find? (file.steps, src) with
  | some a =>
    have ha := hs.resolved_ok file hr src a hf
    refine ⟨l, ?_, .refl l, hs⟩
    rw [hx]
    simp [resolveOnce, hf, ha]
  | none =>
    refine ⟨{ l with resolved := l.resolved.insert (file.steps, src) (resolve? t file src) }, ?_,
      ⟨List.prefix_rfl, rfl⟩,
      ⟨hs.sealed_eq, hs.distinct, hs.modules_ok, ?_, hs.exports_ok⟩⟩
    · rw [hx]
      simp [resolveOnce, hf]
    · intro p hp src' a ha
      simp only [Table.find?_insert] at ha
      split at ha
      · next e =>
        obtain ⟨hsteps, rfl⟩ := Prod.mk.inj e
        cases ha
        exact resolve?_congr hsteps hp src'
      · exact hs.resolved_ok p hp src' a ha

/-- Asking for the summary of a file gives its summary, or fails because it cannot be read. -/
theorem exec_moduleOf (hs : l.Sound t S) (file : Path) :
    (∃ s l', (moduleOf t file).exec l = (.ok s, l') ∧ SummaryOf t file.steps s ∧
        l.Quiet l' ∧ l'.Sound t S) ∨
      ∃ e, (moduleOf t file).exec l = (.error e, l) ∧ l.modules.find? file.steps = none ∧
        readModule t file = .error e := by
  unfold moduleOf
  rw [Load.exec_bind_of_ok (Load.exec_get l)]
  cases hm : l.modules.find? file.steps with
  | some s =>
    exact Or.inl ⟨s, l, Load.exec_pure s l, hs.modules_ok _ s hm, .refl l, hs⟩
  | none =>
    cases hr : readModule t file with
    | error e =>
      exact Or.inr ⟨e, Load.exec_throw e l, rfl, rfl⟩
    | ok s =>
      have hsum : SummaryOf t file.steps s := ⟨file, rfl, hr⟩
      refine Or.inl ⟨s, { l with modules := l.modules.insert file.steps s }, ?_, hsum,
        ⟨List.prefix_rfl, rfl⟩, ⟨hs.sealed_eq, hs.distinct, ?_, hs.resolved_ok, hs.exports_ok⟩⟩
      · rfl
      · intro k s' hk
        rw [Table.find?_insert] at hk
        split at hk
        · next e =>
          cases hk
          exact e ▸ hsum
        · exact hs.modules_ok k s' hk

end BarrelAlias.Linkage
