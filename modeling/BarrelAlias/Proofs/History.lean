import BarrelAlias.Proofs.Remembered

/-!
Loaders that have been asked things before. A loader starts out knowing nothing and is asked to read
files ahead or for the exports of a file, and each of these may fail. Whatever the history, what the
loader knows is true of the tree, and what it remembers is consistent.
-/

namespace BarrelAlias.Linkage

open Loader

inductive Query
  | preload (files : List Path)
  | exports (file : Path)

def Query.after (t : FileTree) (l : Loader) : Query → Loader
  | preload files => ((Linkage.preload t files).exec l).2
  | exports file => ((exportsOf t file).exec l).2

def Loader.asked (t : FileTree) (sealedFiles : List Path) (qs : List Query) : Loader :=
  qs.foldl (Query.after t) (.sealing sealedFiles)

section

variable {t : FileTree} {S : List (List Step)} {l : Loader}

/-- Reading ahead is quiet. -/
theorem preload_quiet (hs : l.Sound t S) (files : List Path) :
    l.Quiet ((preload t files).exec l).2 ∧ ((preload t files).exec l).2.Sound t S := by
  induction files generalizing l with
  | nil => exact ⟨.refl l, hs⟩
  | cons f files ih =>
    have hstep : (preload t (f :: files)).exec l =
        Load.exec ((moduleOf t f >>= fun _ => pure PUnit.unit) >>= fun _ => preload t files) l :=
      rfl
    rw [bind_assoc] at hstep
    rw [hstep]
    rcases exec_moduleOf hs f with ⟨s, l₁, hm, _, hq, hs₁⟩ | ⟨e, hm, _, _⟩
    · obtain ⟨hq', hs'⟩ := ih hs₁
      rw [Load.exec_bind_of_ok hm]
      exact ⟨hq.trans hq', hs'⟩
    · rw [Load.exec_bind, hm]
      exact ⟨.refl l, hs⟩

theorem le_walkFuel (t : FileTree) (l : Loader) : t.nodes.size + 2 ≤ walkFuel t l := by
  unfold walkFuel
  omega

/-- Asking for the exports of a file is a walk into it that comes from nowhere. -/
theorem exec_exportsOf (t : FileTree) (file : Path) (l : Loader) :
    (exportsOf t file).exec l =
      match (walkExports t (walkFuel t l) [] file).exec l with
      | (.ok found, l') => (.ok found.value, l')
      | (.error e, l') => (.error e, l') := by
  rw [exportsOf, Load.exec_bind_of_ok (Load.exec_get l), Load.exec_bind]
  rcases (walkExports t (walkFuel t l) [] file).exec l with ⟨r, l'⟩
  cases r with
  | ok found => rfl
  | error e => rfl

/-- What a loader remembers of a file is its answer, and nothing new is learned. -/
theorem exec_exportsOf_of_find? (hs : l.Sound t S) {file : Path} {m : ExportMap}
    (hfind : l.exports.find? file.steps = some m) : (exportsOf t file).exec l = (.ok m, l) := by
  obtain ⟨n, hn⟩ := (Call.start S file (le_walkFuel t l)).fuel_pos
  rcases hx : (walkExports t (walkFuel t l) [] file).exec l with ⟨r, l'⟩
  have hexp := exec_exportsOf t file l
  rw [hx] at hexp
  rw [hn] at hx
  obtain ⟨rfl, rfl⟩ := (walked_of_exec hs hx).of_find? hfind
  exact hexp

/-- An answer is remembered. -/
theorem find?_of_exec_exportsOf (hs : l.Sound t S) {file : Path} {m : ExportMap} {l' : Loader}
    (h : (exportsOf t file).exec l = (.ok m, l')) :
    l'.Sound t S ∧ l.Grows l' ∧ l'.exports.find? file.steps = some m := by
  obtain ⟨n, hn⟩ := (Call.start S file (le_walkFuel t l)).fuel_pos
  rcases hx : (walkExports t (walkFuel t l) [] file).exec l with ⟨r, l''⟩
  have hexp := exec_exportsOf t file l
  rw [hx, h] at hexp
  clear h
  obtain ⟨hs', hg, _⟩ := walk_keeps t S _ _ file l r l'' hs hx
  rw [hn] at hx
  cases r with
  | error e => cases hexp
  | ok found =>
    cases hexp
    refine ⟨hs', hg, ?_⟩
    cases walked_of_exec hs hx with
    | hit hfind => exact hfind
    | cut _ hcut => cases hcut
    | @done s as m l₁ _ _ _ _ _ =>
      have hwithin : ∀ low : Low, low.isWithin ([] : Trail).length = true := by
        intro low
        cases low with
        | none => rfl
        | some d => simp [Low.isWithin]
      rw [if_pos (hwithin _), settle, Table.find?_insert, if_pos rfl]

theorem Query.after_sound (hs : l.Sound t S) (q : Query) : (q.after t l).Sound t S := by
  cases q with
  | preload files => exact (preload_quiet hs files).2
  | exports file =>
    rw [Query.after, exec_exportsOf]
    rcases hx : (walkExports t (walkFuel t l) [] file).exec l with ⟨r, l'⟩
    obtain ⟨hs', _, _⟩ := walk_keeps t S _ _ file l r l' hs hx
    cases r with
    | ok found => exact hs'
    | error e => exact hs'

/-- What quiet steps keep, and walks that come from nowhere, is kept by a question. -/
theorem Query.after_preserves {I : Loader → Prop}
    (hquiet : ∀ {l l' : Loader}, l.Quiet l' → l.Sound t S → I l → I l')
    (hwalk : ∀ {l l' : Loader} {fuel : Nat} {r : Except Failure (Found ExportMap)} (file : Path),
      t.nodes.size + 2 ≤ fuel → l.Sound t S → I l →
        (walkExports t fuel [] file).exec l = (r, l') → I l')
    (hs : l.Sound t S) (hl : I l) (q : Query) : I (q.after t l) := by
  cases q with
  | preload files => exact hquiet (preload_quiet hs files).1 hs hl
  | exports file =>
    rw [Query.after, exec_exportsOf]
    rcases hx : (walkExports t (walkFuel t l) [] file).exec l with ⟨r, l'⟩
    have hl' := hwalk file (le_walkFuel t l) hs hl hx
    cases r with
    | ok found => exact hl'
    | error e => exact hl'

theorem asked_concat (t : FileTree) (sealedFiles : List Path) (qs : List Query) (q : Query) :
    asked t sealedFiles (qs ++ [q]) = q.after t (asked t sealedFiles qs) := by
  rw [asked, List.foldl_append]
  rfl

theorem asked_sound (t : FileTree) (sealedFiles : List Path) (qs : List Query) :
    (asked t sealedFiles qs).Sound t (sealedFiles.map Path.steps) := by
  induction qs using List.reverseRecOn with
  | nil => exact sound_empty t _
  | append_singleton qs q ih =>
    rw [asked_concat]
    exact q.after_sound ih

/-- What every question keeps holds after any history of questions. -/
theorem asked_preserves {I : Loader → Prop} {sealedFiles : List Path}
    (hquery : ∀ {l : Loader}, l.Sound t (sealedFiles.map Path.steps) → I l → ∀ q : Query,
      I (q.after t l))
    (hstart : I (sealing sealedFiles)) (qs : List Query) : I (asked t sealedFiles qs) := by
  induction qs using List.reverseRecOn with
  | nil => exact hstart
  | append_singleton qs q ih =>
    rw [asked_concat]
    exact hquery (asked_sound t sealedFiles qs) ih q

theorem not_remembers_sealing (sealedFiles : List Path) (k : List Step) (km : KeyMap) :
    ¬ (sealing sealedFiles).Remembers k km := by
  rintro ⟨m, hm, _⟩
  simp [sealing, empty] at hm

theorem Query.after_consistent (hs : l.Sound t S) (hl : l.Consistent t S) (q : Query) :
    (q.after t l).Consistent t S := by
  refine q.after_preserves (fun hq hs h => h.of_quiet hq hs) ?_ hs hl
  intro l l' fuel r file hfuel hs hl hx
  exact (walk_enters (Call.start S file hfuel) l r l' hs hl hx).1

/-- Whatever a loader was asked, it is sound and consistent. -/
theorem asked_keeps (t : FileTree) (sealedFiles : List Path) (qs : List Query) :
    (asked t sealedFiles qs).Sound t (sealedFiles.map Path.steps) ∧
      (asked t sealedFiles qs).Consistent t (sealedFiles.map Path.steps) := by
  refine ⟨asked_sound t sealedFiles qs, asked_preserves Query.after_consistent ?_ qs⟩
  exact fun k km _ h => absurd h (not_remembers_sealing sealedFiles k km)

end

end BarrelAlias.Linkage
