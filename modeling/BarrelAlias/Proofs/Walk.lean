import BarrelAlias.Proofs.Collect
import Mathlib.Data.List.Perm.Subperm
import Mathlib.Logic.Relation

/-!
The walk through files that pass on exports of each other. One step of it is a look into what is
remembered, a cut, a failure to read, or a run through the parts of the file, after which the
exports are settled unless a cut reaches above the file. The walk keeps what is known, never settles
a file that it has not left, and never runs out of fuel.
-/

namespace BarrelAlias.Linkage

open Loader

section Trail

variable {k : List Step} {trail : Trail}

theorem depthIn?_eq_none_iff : depthIn? k trail = none ↔ k ∉ trail := by
  induction trail with
  | nil => simp [depthIn?]
  | cons f fs ih =>
    rw [depthIn?]
    split
    · next h => simp [h]
    · next h => simp [ih, Ne.symm h]

theorem mem_of_depthIn? {d : Nat} (h : depthIn? k trail = some d) : k ∈ trail := by
  by_contra hk
  rw [depthIn?_eq_none_iff.mpr hk] at h
  cases h

theorem depthIn?_lt {d : Nat} (h : depthIn? k trail = some d) : d < trail.length := by
  induction trail with
  | nil => cases h
  | cons f fs ih =>
    rw [depthIn?] at h
    rw [List.length_cons]
    split at h
    · cases h
      omega
    · have := ih h
      omega

/-- A depth above the file that was entered last is one in the trail before it. -/
theorem depthIn?_of_lt {a : List Step} {d : Nat} (h : depthIn? a (k :: trail) = some d)
    (hd : d < trail.length) : depthIn? a trail = some d := by
  rw [depthIn?] at h
  split at h
  · cases h
    omega
  · exact h

end Trail

namespace Loader

def settle (l : Loader) (k : List Step) (m : ExportMap) : Loader :=
  { l with exports := l.exports.insert k m }

variable {t : FileTree} {S : List (List Step)} {l : Loader} {k : List Step} {m : ExportMap}
  {km : KeyMap}

theorem Sound.settle (hs : l.Sound t S) (hm : Shows l.decls m km) : (l.settle k m).Sound t S where
  sealed_eq := hs.sealed_eq
  distinct := hs.distinct
  modules_ok := hs.modules_ok
  resolved_ok := hs.resolved_ok
  exports_ok := by
    intro k' m' h
    rw [Loader.settle, Table.find?_insert] at h
    split at h
    · cases h
      exact ⟨km, hm⟩
    · exact hs.exports_ok k' m' h

theorem grows_settle (hk : l.exports.find? k = none) : l.Grows (l.settle k m) where
  decls := List.prefix_rfl
  exports := by
    intro k' m' h
    rw [Loader.settle, Table.find?_insert]
    split
    · next e =>
      rw [e, hk] at h
      cases h
    · exact h

theorem remembers_settle_self (hm : Shows l.decls m km) : (l.settle k m).Remembers k km := by
  refine ⟨m, ?_, hm⟩
  rw [Loader.settle, Table.find?_insert, if_pos rfl]

theorem remembers_settle_of_ne {k' : List Step} (h : k' ≠ k) {km' : KeyMap} :
    (l.settle k m).Remembers k' km' ↔ l.Remembers k' km' := by
  unfold Remembers Loader.settle
  rw [Table.find?_insert, if_neg h]

end Loader

/-- One step of the walk from the loader `l`. -/
inductive Walked (t : FileTree) (S : List (List Step)) (fuel : Nat) (trail : Trail) (file : Path)
    (l : Loader) : Except Failure (Found ExportMap) → Loader → Prop
  | hit {m : ExportMap} : l.exports.find? file.steps = some m →
      Walked t S fuel trail file l (.ok ⟨m, none⟩) l
  | cut {d : Nat} : l.exports.find? file.steps = none → depthIn? file.steps trail = some d →
      Walked t S fuel trail file l (.ok ⟨.empty, some d⟩) l
  | unread {e : Failure} : l.exports.find? file.steps = none → file.steps ∉ trail →
      l.modules.find? file.steps = none → readModule t file = .error e →
      Walked t S fuel trail file l (.error e) l
  | broken {s : Summary} {e : Failure} {l' : Loader} : l.exports.find? file.steps = none →
      file.steps ∉ trail → SummaryOf t file.steps s →
      Breaks t S (walkExports t fuel (file.steps :: trail)) l (parts t S file s) e l' →
      Walked t S fuel trail file l (.error e) l'
  | done {s : Summary} {as : List (Found KeyMap)} {m : ExportMap} {l' : Loader} :
      l.exports.find? file.steps = none → file.steps ∉ trail → SummaryOf t file.steps s →
      AllMet t S (walkExports t fuel (file.steps :: trail)) l (parts t S file s) as l' →
      Shows l'.decls m (assemble (parts t S file s) (as.map Found.value)) →
      Walked t S fuel trail file l (.ok ⟨m, Low.lowest none as⟩)
        (if (Low.lowest none as).isWithin trail.length then l'.settle file.steps m else l')

section

variable {t : FileTree} {S : List (List Step)} {fuel : Nat} {trail : Trail} {file : Path}
  {l l' : Loader} {r : Except Failure (Found ExportMap)}

theorem rooted_of_summaryOf {s : Summary} (h : SummaryOf t file.steps s) : file.rooted := by
  obtain ⟨p, hp, hr⟩ := h
  exact Path.rooted_of_steps_eq hp (rooted_of_readModule hr)

/-- A file that is remembered is not walked into. -/
theorem Walked.of_find? (h : Walked t S fuel trail file l r l') {m : ExportMap}
    (hfind : l.exports.find? file.steps = some m) : r = .ok ⟨m, none⟩ ∧ l' = l := by
  cases h with
  | hit h =>
    cases hfind.symm.trans h
    exact ⟨rfl, rfl⟩
  | cut h => simp [hfind] at h
  | unread h => simp [hfind] at h
  | broken h => simp [hfind] at h
  | done h => simp [hfind] at h

/-- How a step ends that has run through the parts of a file with these answers, or broken off. -/
inductive Ended (ps : List Part) (depth : Nat) (k : List Step) (l : Loader) :
    Except Failure (List (Found KeyMap)) → Except Failure (Found ExportMap) → Loader → Prop
  | broken (e : Failure) : Ended ps depth k l (.error e) (.error e) l
  | done {as : List (Found KeyMap)} {m : ExportMap} :
      Shows l.decls m (assemble ps (as.map Found.value)) →
      Ended ps depth k l (.ok as) (.ok ⟨m, Low.lowest none as⟩)
        (if (Low.lowest none as).isWithin depth then l.settle k m else l)

/-- A file that is not remembered is on the trail, cannot be read, or is run through. -/
theorem Walked.miss_cases (h : Walked t S fuel trail file l r l')
    (hfind : l.exports.find? file.steps = none) :
    (∃ d, depthIn? file.steps trail = some d ∧ r = .ok ⟨.empty, some d⟩ ∧ l' = l) ∨
    (file.steps ∉ trail ∧ ∃ e, readModule t file = .error e ∧ r = .error e) ∨
    (file.steps ∉ trail ∧ ∃ s, SummaryOf t file.steps s ∧ ∃ rs l₁,
      Ran t S (walkExports t fuel (file.steps :: trail)) l (parts t S file s) rs l₁ ∧
      Ended (parts t S file s) trail.length file.steps l₁ rs r l') := by
  cases h with
  | hit h => simp [hfind] at h
  | cut _ hdepth => exact Or.inl ⟨_, hdepth, rfl, rfl⟩
  | unread _ hnot _ hread => exact Or.inr (Or.inl ⟨hnot, _, hread, rfl⟩)
  | @broken s e l' _ hnot hsum hb =>
    exact Or.inr (Or.inr ⟨hnot, s, hsum, .error e, l', hb, .broken e⟩)
  | @done s as m l₁ _ hnot hsum hm hsh =>
    exact Or.inr (Or.inr ⟨hnot, s, hsum, .ok as, l₁, hm, .done hsh⟩)

/-- What is left to do for a file that has been read. -/
theorem exec_collect_settle (hk : Keeps t S (walkExports t fuel (file.steps :: trail)))
    {l₁ : Loader} {s : Summary} (hq : l.Quiet l₁) (hs₁ : l₁.Sound t S) (hfind : l.exports.find? file.steps = none)
    (hnot : file.steps ∉ trail) (hsum : SummaryOf t file.steps s)
    (hx : Load.exec (do
        let found ← collect t (walkExports t fuel (file.steps :: trail)) file s
        if found.low.isWithin trail.length then
          modify fun l => { l with exports := l.exports.insert file.steps found.value }
        return found) l₁ = (r, l')) :
    Walked t S fuel trail file l r l' := by
  rcases exec_collect hk hs₁ (rooted_of_summaryOf hsum) s with
    ⟨as, l₂, m, hm, hc, hsh⟩ | ⟨e, l₂, hb, hc⟩
  · rw [Load.exec_bind_of_ok hc] at hx
    have hdone := Walked.done hfind hnot hsum (hm.of_quiet hq) hsh
    by_cases hw : (Low.lowest none as).isWithin trail.length
    · simp only [hw, ↓reduceIte] at hx hdone
      cases hx
      exact hdone
    · simp only [hw, Bool.false_eq_true, ↓reduceIte] at hx hdone
      cases hx
      exact hdone
  · rw [Load.exec_bind, hc] at hx
    cases hx
    exact .broken hfind hnot hsum (hb.of_quiet hq)

/-- Every step of the walk is one of the steps described. -/
theorem walk_cases (hs : l.Sound t S) (hk : Keeps t S (walkExports t fuel (file.steps :: trail)))
    (hx : (walkExports t (fuel + 1) trail file).exec l = (r, l')) :
    Walked t S fuel trail file l r l' := by
  rw [walkExports, Load.exec_bind_of_ok (Load.exec_get l)] at hx
  cases hfind : l.exports.find? file.steps with
  | some m =>
    rw [hfind] at hx
    cases hx
    exact .hit hfind
  | none =>
    rw [hfind] at hx
    cases hdepth : depthIn? file.steps trail with
    | some d =>
      rw [hdepth] at hx
      cases hx
      exact .cut hfind hdepth
    | none =>
      rw [hdepth] at hx
      have hnot := depthIn?_eq_none_iff.mp hdepth
      rcases exec_moduleOf hs file with ⟨s, l₁, hm, hsum, hq, hs₁⟩ | ⟨e, hm, hunread, hr⟩
      · simp only [Load.exec_bind_of_ok hm] at hx
        exact exec_collect_settle hk hq hs₁ hfind hnot hsum hx
      · simp only [Load.exec_bind (moduleOf t file), hm] at hx
        cases hx
        exact .unread hfind hnot hunread hr

/-- Entering a file settles nothing about the file with the steps `k`. -/
def Spares (t : FileTree) (S : List (List Step)) (enter : Enter) (k : List Step) : Prop :=
  ∀ g l r l', l.Sound t S → (enter g).exec l = (r, l') → l.exports.find? k = none →
    l'.exports.find? k = none

theorem Spares.enters {enter : Enter} {k : List Step} (h : Spares t S enter k) (g : Path) :
    Enters t S enter (fun l => l.exports.find? k = none) (fun _ _ _ => True) (fun _ => True) g := by
  intro l r l' hs hl hx
  exact ⟨h g l r l' hs hx hl, fun _ _ => trivial, fun _ _ _ _ => trivial⟩

theorem Spares.allMet {enter : Enter} {k : List Step} (h : Spares t S enter k) {ps : List Part}
    {as : List (Found KeyMap)} (hm : AllMet t S enter l ps as l') (hs : l.Sound t S)
    (hl : l.exports.find? k = none) : l'.exports.find? k = none :=
  (hm.spec (fun _ _ hq _ hl => by rw [hq.exports]; exact hl) (fun _ _ _ _ _ hQ => hQ)
    (fun _ _ g _ => h.enters g) hs hl).1

theorem Spares.breaks {enter : Enter} {k : List Step} (h : Spares t S enter k) {ps : List Part}
    {e : Failure} (hb : Breaks t S enter l ps e l') (hs : l.Sound t S)
    (hl : l.exports.find? k = none) : l'.exports.find? k = none :=
  (hb.spec (fun _ _ hq _ hl => by rw [hq.exports]; exact hl) (fun _ _ g _ => h.enters g) hs hl).1

/-- A step of the walk keeps what is known if the walks into other files do. -/
theorem Walked.keeps (h : Walked t S fuel trail file l r l') (hs : l.Sound t S)
    (hspare : Spares t S (walkExports t fuel (file.steps :: trail)) file.steps) :
    l'.Sound t S ∧ l.Grows l' ∧ ∀ found, r = .ok found → ∃ km, Shows l'.decls found.value km := by
  cases h with
  | @hit m hfind =>
    refine ⟨hs, .refl l, ?_⟩
    rintro found hr
    cases hr
    exact hs.exports_ok _ m hfind
  | cut =>
    refine ⟨hs, .refl l, ?_⟩
    rintro found hr
    cases hr
    exact ⟨.empty, shows_empty l.decls⟩
  | unread => exact ⟨hs, .refl l, by simp⟩
  | broken _ _ _ hb => exact ⟨hb.sound, hb.grows, by simp⟩
  | @done s as m l₁ hfind _ _ hm hsh =>
    have hnone : l₁.exports.find? file.steps = none := hspare.allMet hm hs hfind
    split
    · refine ⟨hm.sound.settle hsh, hm.grows.trans (grows_settle hnone), ?_⟩
      rintro found hr
      cases hr
      exact ⟨_, hsh⟩
    · refine ⟨hm.sound, hm.grows, ?_⟩
      rintro found hr
      cases hr
      exact ⟨_, hsh⟩

/-- A step of the walk settles no other file if the walks into other files do not. -/
theorem Walked.spares (h : Walked t S fuel trail file l r l') (hs : l.Sound t S) {k : List Step}
    (hk : k ∈ trail) (hspare : Spares t S (walkExports t fuel (file.steps :: trail)) k)
    (hl : l.exports.find? k = none) : l'.exports.find? k = none := by
  cases h with
  | hit => exact hl
  | cut => exact hl
  | unread => exact hl
  | broken _ _ _ hb => exact hspare.breaks hb hs hl
  | @done s as m l₁ _ hnot _ hm _ =>
    have hnone : l₁.exports.find? k = none := hspare.allMet hm hs hl
    split
    · have hne : k ≠ file.steps := fun e => hnot (e ▸ hk)
      rw [Loader.settle, Table.find?_insert, if_neg hne]
      exact hnone
    · exact hnone

/-- The walk keeps what is known and settles no file that it has not left. -/
theorem walk_keeps_and_spares (t : FileTree) (S : List (List Step)) (fuel : Nat) (trail : Trail) :
    Keeps t S (walkExports t fuel trail) ∧ ∀ k ∈ trail, Spares t S (walkExports t fuel trail) k := by
  induction fuel generalizing trail with
  | zero =>
    constructor
    · intro g l r l' hs hx
      cases hx
      refine ⟨hs, .refl l, ?_⟩
      rintro found hr
      cases hr
      exact ⟨.empty, shows_empty l.decls⟩
    · intro k _ g l r l' _ hx hl
      cases hx
      exact hl
  | succ fuel ih =>
    constructor
    · intro g l r l' hs hx
      obtain ⟨hk, hspare⟩ := ih (g.steps :: trail)
      exact (walk_cases hs hk hx).keeps hs (hspare g.steps (List.mem_cons_self ..))
    · intro k hmem g l r l' hs hx hl
      obtain ⟨hk, hspare⟩ := ih (g.steps :: trail)
      exact (walk_cases hs hk hx).spares hs hmem (hspare k (List.mem_cons_of_mem _ hmem)) hl

theorem walk_keeps (t : FileTree) (S : List (List Step)) (fuel : Nat) (trail : Trail) :
    Keeps t S (walkExports t fuel trail) := (walk_keeps_and_spares t S fuel trail).1

theorem walked_of_exec (hs : l.Sound t S)
    (hx : (walkExports t (fuel + 1) trail file).exec l = (r, l')) :
    Walked t S fuel trail file l r l' :=
  walk_cases hs (walk_keeps t S fuel (file.steps :: trail)) hx

end

/-- The walk leads from one file into another: the first can be read, and one of its parts points
to the second. -/
def Follows (t : FileTree) (S : List (List Step)) (a b : List Step) : Prop :=
  ∃ p s, p.steps = a ∧ readModule t p = .ok s ∧
    ∃ part ∈ parts t S p s, ∃ g, part.target? = some g ∧ g.steps = b

def OnCycle (t : FileTree) (S : List (List Step)) (k : List Step) : Prop :=
  Relation.TransGen (Follows t S) k k

/-- A walk into a file that started from the file `root`. -/
structure Call (t : FileTree) (S : List (List Step)) (root : Path) (fuel : Nat) (trail : Trail)
    (file : Path) : Prop where
  enough : t.nodes.size + 2 ≤ fuel + trail.length
  nodup : trail.Nodup
  known : ∀ k ∈ trail, k = root.steps ∨ ∃ p, t.IsPlain p ∧ p.steps = k
  here : file = root ∨ t.IsPlain file
  reached : Relation.ReflTransGen (Follows t S) root.steps file.steps
  leads : ∀ k ∈ trail, Relation.TransGen (Follows t S) k file.steps

section

variable {t : FileTree} {S : List (List Step)} {root : Path} {fuel : Nat} {trail : Trail}
  {file : Path}

theorem follows_of_mem_parts {s : Summary} (hsum : SummaryOf t file.steps s) {p : Part}
    (hp : p ∈ parts t S file s) {g : Path} (hg : p.target? = some g) :
    Follows t S file.steps g.steps := by
  obtain ⟨q, hq, hr⟩ := hsum
  refine ⟨q, s, hq, hr, p, ?_, g, hg, rfl⟩
  rw [parts_congr t S hq (rooted_of_readModule hr) s]
  exact hp

theorem Call.start (S : List (List Step)) (file : Path) (h : t.nodes.size + 2 ≤ fuel) :
    Call t S file fuel [] file where
  enough := h
  nodup := List.nodup_nil
  known := by simp
  here := Or.inl rfl
  reached := .refl
  leads := by simp

theorem Call.child (h : Call t S root (fuel + 1) trail file) (hnot : file.steps ∉ trail)
    {s : Summary} (hsum : SummaryOf t file.steps s) {p : Part} (hp : p ∈ parts t S file s)
    {g : Path} (hg : p.target? = some g) : Call t S root fuel (file.steps :: trail) g where
  enough := by
    have := h.enough
    rw [List.length_cons]
    omega
  nodup := List.nodup_cons.mpr ⟨hnot, h.nodup⟩
  known := by
    intro k hk
    rcases List.mem_cons.mp hk with rfl | hk
    · exact h.here.imp (congrArg Path.steps) fun hf => ⟨file, hf, rfl⟩
    · exact h.known k hk
  here := Or.inr (isPlain_of_mem_parts hp hg)
  reached := h.reached.tail (follows_of_mem_parts hsum hp hg)
  leads := by
    have hfol := follows_of_mem_parts hsum hp hg
    intro k hk
    rcases List.mem_cons.mp hk with rfl | hk
    · exact .single hfol
    · exact (h.leads k hk).tail hfol

/-- A trail holds no more files than there are. -/
theorem Call.length_le (h : Call t S root fuel trail file) : trail.length ≤ t.nodes.size + 1 := by
  have hsub : trail ⊆ root.steps :: t.nodes.keys.map fun loc => loc.path.steps := by
    intro k hk
    rcases h.known k hk with rfl | ⟨p, hp, rfl⟩
    · exact List.mem_cons_self ..
    · obtain ⟨loc, hloc, rfl⟩ := hp.mem_nodes
      exact List.mem_cons_of_mem _ (List.mem_map.mpr ⟨loc, hloc, rfl⟩)
  have hle := (List.subperm_of_subset h.nodup hsub).length_le
  simpa [Table.keys, Table.size] using hle

/-- The walk never runs out of fuel. -/
theorem Call.fuel_pos (h : Call t S root fuel trail file) : ∃ n, fuel = n + 1 := by
  have henough := h.enough
  have hle := h.length_le
  refine ⟨fuel - 1, ?_⟩
  omega

/-- The file is on no cycle that the walk has entered unless it is on one itself. -/
theorem Call.not_mem_trail (h : Call t S root fuel trail file) (hc : ¬ OnCycle t S file.steps) :
    file.steps ∉ trail := fun hmem => hc (h.leads _ hmem)

end

end BarrelAlias.Linkage
