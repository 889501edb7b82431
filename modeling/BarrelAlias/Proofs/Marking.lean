import BarrelAlias.Proofs.Walk

/-!
The walk with marks. `walkExports` is told which files it is in, and returns how far up it was cut.
Here both are marks that one walk sets and takes back: the files that it is in with their depths, and
the depth of the topmost file where it was cut. The marks also list all the cuts, so that it can be
said what becomes of them. The walk may nest only so many calls and has no result if it needs more.

The two walks are run side by side: with calls to spare they find the same, fail alike and know the
same afterwards, and the marks come to what `walkExports` is told and returns.
-/

namespace BarrelAlias.Linkage

open Script (Imported)

/-- A file that the walk was in when it came to it again, and its depth. -/
abbrev Cut := List Step × Nat

def Low.lowered (low : Low) (cuts : List Cut) : Low := cuts.foldl (fun low c => low.min (some c.2)) low

structure Marks where
  loader : Loader
  /-- The files that the walk is in. -/
  depths : Table (List Step) Nat
  /-- The topmost cut below the file that the walk is in. -/
  low : Low
  cuts : List Cut

namespace Marks

def cut (w : Marks) (k : List Step) (depth : Nat) : Marks :=
  { w with low := w.low.min (some depth), cuts := w.cuts ++ [(k, depth)] }

def enter (w : Marks) (k : List Step) : Marks :=
  { w with depths := w.depths.insert k w.depths.size, low := none }

def leave (w' w : Marks) (k : List Step) (m : ExportMap) : Marks where
  loader := if w'.low.isWithin w.depths.size then w'.loader.settle k m else w'.loader
  depths := w'.depths.erase k
  low := w'.low.min w.low
  cuts := w'.cuts

end Marks

/-- A part of a walk with marks. It may fail; it has no result if it nests too many calls. -/
abbrev March := ExceptT Failure (StateT Marks Option)

namespace March

def exec {α : Type} (x : March α) (w : Marks) : Option (Except Failure α × Marks) := x.run.run w

def load {α : Type} (x : Load α) : March α := fun w =>
  let (r, l) := x.exec w.loader
  some (r, { w with loader := l })

abbrev Enter := Path → March ExportMap

/-! Each of these does what its namesake without marks does, but leaves in the marks how far up it was cut. -/

def importedDecls (t : FileTree) (enter : Enter) (file : Path) (source : String)
    (imported : Imported) : March (List DeclId) := do
  let name := importedName imported
  match ← load (follow t file source) with
  | none => return [← load (intern ⟨.package source, name, .value⟩)]
  | some target =>
    if imported = .all || (← get).loader.isSealed target then
      return [← load (internIn target name .value)]
    else
      let found ← enter target
      return (found.find? name).getD []

def namedDecls (t : FileTree) (enter : Enter) (file : Path) (s : Summary) (name : String) :
    March (List DeclId) :=
  match s.imports.find? name with
  | some b => importedDecls t enter file b.source b.imported
  | none => load ((spacesOf s name).mapM (internIn file name))

def addEntry (t : FileTree) (enter : Enter) (file : Path) (s : Summary) (m : ExportMap)
    (e : ExportEntry) : March ExportMap := do
  match e with
  | .named exported name =>
    let ids ← namedDecls t enter file s name
    return addUnder m exported ids
  | .default (some name) =>
    let ids ← namedDecls t enter file s name
    return addUnder m "default" ids
  | .default none =>
    let id ← load (internIn file "default" .value)
    return addUnder m "default" [id]
  | .reexport exported source imported =>
    let ids ← importedDecls t enter file source imported
    return if ids.isEmpty then m else addUnder m exported ids
  | .star _ => return m

def followStar (t : FileTree) (enter : Enter) (file : Path) (m : ExportMap) (source : String) :
    March ExportMap := do
  match ← load (follow t file source) with
  | none => return m
  | some target =>
    if (← get).loader.isSealed target then return m
    else
      let found ← enter target
      return addStar m found

def collect (t : FileTree) (enter : Enter) (file : Path) (s : Summary) : March ExportMap := do
  let m ← s.exports.foldlM (addEntry t enter file s) .empty
  let m ← (starSources s.exports).foldlM (followStar t enter file) m
  return m.keep fun _ ids => !ids.isEmpty

/-- Walks into a file, coming from the files that are marked; nests at most so many calls. -/
def walk (t : FileTree) : Nat → Path → March ExportMap
  | 0, _ => fun _ => none
  | calls + 1, file => do
    let w ← get
    match w.loader.exports.find? file.steps with
    | some known => return known
    | none =>
      match w.depths.find? file.steps with
      | some depth =>
        set (w.cut file.steps depth)
        return .empty
      | none =>
        set (w.enter file.steps)
        let s ← load (moduleOf t file)
        let m ← collect t (walk t calls) file s
        modify fun w' => w'.leave w file.steps m
        return m

section

variable {α β : Type}

theorem exec_bind (x : March α) (f : α → March β) (w : Marks) :
    exec (x >>= f) w =
      match exec x w with
      | some (.ok a, w₁) => exec (f a) w₁
      | some (.error e, w₁) => some (.error e, w₁)
      | none => none := by
  have hb : exec (x >>= f) w = (exec x w).bind fun r => ExceptT.bindCont f r.1 r.2 := rfl
  rw [hb]
  rcases exec x w with _ | ⟨r, w₁⟩
  · rfl
  · cases r <;> rfl

theorem exec_bind_of_ok {x : March α} {f : α → March β} {w w₁ : Marks} {a : α}
    (h : exec x w = some (.ok a, w₁)) : exec (x >>= f) w = exec (f a) w₁ := by
  rw [exec_bind, h]

@[simp] theorem exec_pure (a : α) (w : Marks) : exec (pure a) w = some (.ok a, w) := rfl

@[simp] theorem exec_get (w : Marks) : exec get w = some (.ok w, w) := rfl

@[simp] theorem exec_set (w' w : Marks) : exec (set w') w = some (.ok ⟨⟩, w') := rfl

@[simp] theorem exec_modify (f : Marks → Marks) (w : Marks) :
    exec (modify f) w = some (.ok ⟨⟩, f w) := rfl

theorem exec_load (x : Load α) (w : Marks) :
    exec (load x) w = some ((x.exec w.loader).1, { w with loader := (x.exec w.loader).2 }) := rfl

end

end March

/-- The marks are those of a walk that is in the files of the trail: the file that it went into first has
depth zero, and each later one the next depth. -/
structure Marks.On (w : Marks) (trail : Trail) : Prop where
  depths : ∀ k, w.depths.find? k = depthIn? k trail
  size : w.depths.size = trail.length

/-- Files that are not in `K` are not in the tree, and no remembered specifier leads to one. -/
structure Loader.Within (t : FileTree) (K : List (List Step)) (l : Loader) : Prop where
  plain : ∀ p, t.IsPlain p → p.steps ∈ K
  resolved : ∀ key g, l.resolved.find? key = some (some g) → g.steps ∈ K

/-- What becomes of the marks in a part of the walk, which was cut so often. -/
structure Marks.Passed (w : Marks) (cuts : List Cut) (w' : Marks) : Prop where
  depths_eq : w'.depths = w.depths
  low_eq : w'.low = w.low.lowered cuts
  cuts_eq : w'.cuts = w.cuts ++ cuts
  /-- A cut lies at a file that the walk was in before, or deeper than all of them. -/
  placed : ∀ c ∈ cuts, w.depths.find? c.1 = some c.2 ∨
    (w.depths.find? c.1 = none ∧ w.depths.size ≤ c.2)
  /-- Nothing becomes known about the exports of the files that the walk is in. -/
  kept : ∀ k, w.depths.find? k ≠ none → w'.loader.exports.find? k = w.loader.exports.find? k

/-- From the marks `w`, and with `N` calls or more, the walk with marks ends like the one without: it
fails alike, or finds the same. The cuts come to what the other returns if `low` is what it had before. -/
inductive Tracks {α : Type} (t : FileTree) (K : List (List Step)) (N : Nat) (w : Marks) (low : Low)
    (y : Nat → March α) (x : Nat → Load (Found α)) : Prop
  | failed (e : Failure) (w' : Marks) :
      (∀ n, N ≤ n → (y n).exec w = some (.error e, w') ∧
        (x n).exec w.loader = (.error e, w'.loader)) → Tracks t K N w low y x
  | passed (a : α) (cuts : List Cut) (w' : Marks) :
      (∀ n, N ≤ n → (y n).exec w = some (.ok a, w') ∧
        (x n).exec w.loader = (.ok ⟨a, low.lowered cuts⟩, w'.loader)) →
      w.Passed cuts w' → w'.loader.Within t K → Tracks t K N w low y x

namespace Low

theorem min_assoc (a b c : Low) : (a.min b).min c = a.min (b.min c) := by
  cases a <;> cases b <;> cases c <;> simp [Low.min, Nat.min_assoc]

theorem min_comm (a b : Low) : a.min b = b.min a := by
  cases a <;> cases b <;> simp [Low.min, Nat.min_comm]

theorem isWithin_min {a b : Low} {n : Nat} :
    (a.min b).isWithin n ↔ a.isWithin n ∧ b.isWithin n := by
  cases a <;> cases b <;>
    simp only [Low.min, isWithin, decide_eq_true_eq, Nat.le_min, true_and, and_true]

theorem lowered_append (low : Low) (cs ds : List Cut) :
    low.lowered (cs ++ ds) = (low.lowered cs).lowered ds := List.foldl_append

theorem min_lowered (a b : Low) (cuts : List Cut) :
    a.min (b.lowered cuts) = (a.min b).lowered cuts := by
  induction cuts generalizing b with
  | nil => rfl
  | cons c cuts ih =>
    change a.min ((b.min (some c.2)).lowered cuts) = ((a.min b).min (some c.2)).lowered cuts
    rw [ih, min_assoc]

theorem isWithin_lowered {low : Low} {cuts : List Cut} {n : Nat} :
    (low.lowered cuts).isWithin n ↔ low.isWithin n ∧ ∀ c ∈ cuts, n ≤ c.2 := by
  induction cuts generalizing low with
  | nil => simp [lowered]
  | cons c cuts ih =>
    change ((low.min (some c.2)).lowered cuts).isWithin n ↔ _
    rw [ih, isWithin_min, List.forall_mem_cons, and_assoc]
    simp [isWithin]

end Low

section

variable {α β : Type} {t : FileTree} {K : List (List Step)} {N : Nat} {w w₁ w₂ : Marks} {low : Low}
  {trail : Trail}

/-- A load that says nothing about exports leaves the marks as they are. -/
theorem Marks.passed_of_exports {l : Loader} (h : l.exports = w.loader.exports) :
    w.Passed [] { w with loader := l } where
  depths_eq := rfl
  low_eq := rfl
  cuts_eq := (List.append_nil _).symm
  placed := by simp
  kept k _ := by rw [h]

theorem Marks.Passed.refl (w : Marks) : w.Passed [] w := passed_of_exports rfl

theorem Marks.Passed.trans {cs ds : List Cut} (h : w.Passed cs w₁) (h' : w₁.Passed ds w₂) :
    w.Passed (cs ++ ds) w₂ where
  depths_eq := h'.depths_eq.trans h.depths_eq
  low_eq := by rw [h'.low_eq, h.low_eq, Low.lowered_append]
  cuts_eq := by rw [h'.cuts_eq, h.cuts_eq, List.append_assoc]
  placed := by
    intro c hc
    rcases List.mem_append.mp hc with hc | hc
    · exact h.placed c hc
    · have := h'.placed c hc
      rwa [h.depths_eq] at this
  kept := by
    intro k hk
    rw [h'.kept k (by rwa [h.depths_eq]), h.kept k hk]

theorem Marks.On.of_passed {cuts : List Cut} (hw : w.On trail) (h : w.Passed cuts w₁) :
    w₁.On trail where
  depths k := by rw [h.depths_eq, hw.depths]
  size := by rw [h.depths_eq, hw.size]

theorem Tracks.pure (hl : w.loader.Within t K) (a : α) :
    Tracks t K N w low (fun _ => pure a) (fun _ => pure ⟨a, low⟩) :=
  .passed a [] w (fun _ _ => ⟨rfl, rfl⟩) (.refl w) hl

/-- How the walks came to where they stand does not matter to how they go on. -/
theorem Tracks.after {y y' : Nat → March α} {x x' : Nat → Load (Found α)} {cuts : List Cut}
    (h : Tracks t K N w₁ (low.lowered cuts) y' x') (hp : w.Passed cuts w₁)
    (hy : ∀ n, N ≤ n → (y n).exec w = (y' n).exec w₁)
    (hx : ∀ n, N ≤ n → (x n).exec w.loader = (x' n).exec w₁.loader) : Tracks t K N w low y x := by
  cases h with
  | failed e w₂ h =>
    refine .failed e w₂ (fun n hn => ?_)
    rw [hy n hn, hx n hn]
    exact h n hn
  | passed a ds w₂ h hp' hl =>
    refine .passed a (cuts ++ ds) w₂ (fun n hn => ?_) (hp.trans hp') hl
    rw [hy n hn, hx n hn, Low.lowered_append]
    exact h n hn

theorem Tracks.bind {y : Nat → March α} {x : Nat → Load (Found α)} {f : Nat → α → March β}
    {g : Nat → Found α → Load (Found β)} (hx : Tracks t K N w low y x)
    (hf : ∀ a cuts w', w.Passed cuts w' → w'.loader.Within t K →
      Tracks t K N w' (low.lowered cuts) (fun n => f n a) fun n => g n ⟨a, low.lowered cuts⟩) :
    Tracks t K N w low (fun n => y n >>= f n) (fun n => x n >>= g n) := by
  cases hx with
  | failed e w₁ h =>
    refine .failed e w₁ (fun n hn => ?_)
    rw [March.exec_bind, (h n hn).1, Load.exec_bind, (h n hn).2]
    exact ⟨rfl, rfl⟩
  | passed a cuts w₁ h hp hl =>
    refine (hf a cuts w₁ hp hl).after hp ?_ ?_
    · exact fun n hn => March.exec_bind_of_ok (h n hn).1
    · exact fun n hn => Load.exec_bind_of_ok (h n hn).2

/-- What is found is put to what there was. -/
theorem Tracks.put {y : Nat → March α} {x : Nat → Load (Found α)} (hx : Tracks t K N w none y x)
    (f : α → β) :
    Tracks t K N w low (fun n => do let a ← y n; return f a)
      fun n => do let found ← x n; return ⟨f found.value, low.min found.low⟩ := by
  cases hx with
  | failed e w₁ h =>
    refine .failed e w₁ (fun n hn => ?_)
    rw [March.exec_bind, (h n hn).1, Load.exec_bind, (h n hn).2]
    exact ⟨rfl, rfl⟩
  | passed a cuts w₁ h hp hl =>
    have hlow : low.min (Low.lowered none cuts) = low.lowered cuts := by
      rw [Low.min_lowered, Low.min_none_right]
    refine .passed (f a) cuts w₁ (fun n hn => ?_) hp hl
    rw [March.exec_bind_of_ok (h n hn).1, Load.exec_bind_of_ok (h n hn).2, ← hlow]
    exact ⟨rfl, rfl⟩

theorem Tracks.get {f : Nat → Marks → March α} {g : Nat → Loader → Load (Found α)}
    (h : Tracks t K N w low (fun n => f n w) fun n => g n w.loader) :
    Tracks t K N w low (fun n => MonadState.get >>= f n) fun n => MonadState.get >>= g n := by
  have h : Tracks t K N w (low.lowered []) (fun n => f n w) fun n => g n w.loader := h
  refine h.after (.refl w) ?_ ?_
  · exact fun n _ => March.exec_bind_of_ok (March.exec_get w)
  · exact fun n _ => Load.exec_bind_of_ok (Load.exec_get w.loader)

/-- The load says nothing about exports, and leads to no file outside `K`. -/
def Calm (t : FileTree) (K : List (List Step)) (x : Load α) (P : α → Prop) : Prop :=
  ∀ l a l', l.Within t K → x.exec l = (.ok a, l') → l'.Within t K ∧ l'.exports = l.exports ∧ P a

theorem Tracks.load {x : Load α} {P : α → Prop} {f : Nat → α → March β}
    {g : Nat → α → Load (Found β)} (hx : Calm t K x P) (hl : w.loader.Within t K)
    (hf : ∀ a w', w.Passed [] w' → w'.loader.Within t K → P a →
      Tracks t K N w' low (fun n => f n a) fun n => g n a) :
    Tracks t K N w low (fun n => March.load x >>= f n) fun n => x >>= g n := by
  rcases hr : x.exec w.loader with ⟨r, l'⟩
  have hload : (March.load x).exec w = some (r, { w with loader := l' }) := by
    rw [March.exec_load, hr]
  cases r with
  | error e =>
    refine .failed e { w with loader := l' } (fun n _ => ?_)
    rw [March.exec_bind, hload, Load.exec_bind, hr]
    exact ⟨rfl, rfl⟩
  | ok a =>
    -- nothing was cut, so the rest starts with the same `low`
    obtain ⟨hl', hexports, hP⟩ := hx _ a l' hl hr
    have hp : w.Passed [] { w with loader := l' } := Marks.passed_of_exports hexports
    refine (hf a _ hp hl' hP).after hp ?_ ?_
    · exact fun n _ => March.exec_bind_of_ok hload
    · exact fun n _ => Load.exec_bind_of_ok hr

theorem Tracks.load_pure {x : Load α} {P : α → Prop} (hx : Calm t K x P)
    (hl : w.loader.Within t K) :
    Tracks t K N w low (fun _ => March.load x) fun _ => do let a ← x; return ⟨a, low⟩ := by
  have h : Tracks t K N w low (fun _ => March.load x >>= Pure.pure)
      fun _ => do let a ← x; return ⟨a, low⟩ := by
    refine .load hx hl ?_
    intro a w₁ _ hl₁ _
    exact .pure hl₁ a
  simpa only [bind_pure] using h

theorem Tracks.foldlM {γ : Type} {f : Nat → α → γ → March α}
    {g : Nat → Found α → γ → Load (Found α)} {cs : List γ} (hw : w.On trail)
    (hl : w.loader.Within t K)
    (h : ∀ c ∈ cs, ∀ a low w', w'.On trail → w'.loader.Within t K →
      Tracks t K N w' low (fun n => f n a c) fun n => g n ⟨a, low⟩ c) (a : α) :
    Tracks t K N w low (fun n => cs.foldlM (f n) a) fun n => cs.foldlM (g n) ⟨a, low⟩ := by
  induction cs generalizing w low a with
  | nil => exact .pure hl a
  | cons c cs ih =>
    simp only [List.foldlM_cons]
    refine (h c List.mem_cons_self a low w hw hl).bind ?_
    intro a₁ cuts w₁ hp hl₁
    exact ih (hw.of_passed hp) hl₁ (fun c' hc' => h c' (List.mem_cons_of_mem c hc')) a₁

theorem calm_intern (k : DeclKey) : Calm t K (intern k) fun _ => True := by
  intro l a l' hl hx
  cases hx
  exact ⟨⟨hl.plain, hl.resolved⟩, rfl, trivial⟩

theorem calm_mapM_internIn (file : Path) (name : String) (spaces : List Space) :
    Calm t K (spaces.mapM (internIn file name)) fun _ => True := by
  induction spaces with
  | nil =>
    intro l a l' hl hx
    cases hx
    exact ⟨hl, rfl, trivial⟩
  | cons space spaces ih =>
    intro l a l' hl hx
    rw [List.mapM_cons] at hx
    obtain ⟨id, l₁, hid, hx⟩ := Load.exec_bind_ok.mp hx
    obtain ⟨ids, l₂, hids, hx⟩ := Load.exec_bind_ok.mp hx
    obtain ⟨hl₁, he₁, -⟩ := calm_intern _ l id l₁ hl hid
    obtain ⟨hl₂, he₂, -⟩ := ih l₁ ids l₂ hl₁ hids
    cases hx
    exact ⟨hl₂, he₂.trans he₁, trivial⟩

/-- A specifier leads to a file in `K`, whether it was asked for before or not. -/
theorem calm_follow (file : Path) (source : String) :
    Calm t K (follow t file source) fun answer => ∀ g, answer = some g → g.steps ∈ K := by
  intro l a l' hl hx
  cases hx
  split
  · next known hknown =>
    refine ⟨hl, rfl, ?_⟩
    rintro g rfl
    exact hl.resolved _ g hknown
  · have hplain : ∀ g, resolve? t file source = some g → g.steps ∈ K :=
      fun g hg => hl.plain g (isPlain_of_resolve? hg)
    refine ⟨⟨hl.plain, ?_⟩, rfl, hplain⟩
    intro key g hfind
    simp only [Table.find?_insert] at hfind
    split at hfind
    · exact hplain g (Option.some.inj hfind)
    · exact hl.resolved key g hfind

theorem calm_moduleOf (file : Path) : Calm t K (moduleOf t file) fun _ => True := by
  intro l s l' hl hx
  unfold moduleOf at hx
  rw [Load.exec_bind_of_ok (Load.exec_get l)] at hx
  split at hx
  · cases hx
    exact ⟨hl, rfl, trivial⟩
  · cases hr : readModule t file with
    | error e =>
      rw [hr] at hx
      cases hx
    | ok s' =>
      rw [hr] at hx
      cases hx
      exact ⟨⟨hl.plain, hl.resolved⟩, rfl, trivial⟩

end

section

variable {t : FileTree} {K : List (List Step)} {N : Nat} {w : Marks} {low : Low} {trail : Trail}
  {enter : Nat → March.Enter} {enter' : Nat → Enter} {file : Path} {s : Summary}

/-- The walks into other files find the same. -/
def EntersAlike (t : FileTree) (K : List (List Step)) (N : Nat) (trail : Trail)
    (enter : Nat → March.Enter) (enter' : Nat → Enter) : Prop :=
  ∀ g : Path, g.steps ∈ K → ∀ w : Marks, w.On trail → w.loader.Within t K →
    Tracks t K N w none (fun n => enter n g) fun n => enter' n g

theorem tracks_importedDecls (he : EntersAlike t K N trail enter enter') (hw : w.On trail)
    (hl : w.loader.Within t K) (source : String) (imported : Imported) :
    Tracks t K N w none (fun n => March.importedDecls t (enter n) file source imported)
      fun n => importedDecls t (enter' n) file source imported := by
  refine .load (calm_follow file source) hl ?_
  intro answer w₁ hp hl₁ hlead
  cases answer with
  | none =>
    refine .load (calm_intern _) hl₁ ?_
    intro id w₂ _ hl₂ _
    exact .pure hl₂ [id]
  | some g =>
    refine .get ?_
    by_cases hc : (imported = .all || w₁.loader.isSealed g) = true
    · simp only [hc, ↓reduceIte]
      refine .load (calm_intern _) hl₁ ?_
      intro id w₂ _ hl₂ _
      exact .pure hl₂ [id]
    · simp only [hc, Bool.false_eq_true, ↓reduceIte]
      exact (he g (hlead g rfl) w₁ (hw.of_passed hp) hl₁).put fun m =>
        (m.find? (importedName imported)).getD []

theorem tracks_namedDecls (he : EntersAlike t K N trail enter enter') (hw : w.On trail)
    (hl : w.loader.Within t K) (name : String) :
    Tracks t K N w none (fun n => March.namedDecls t (enter n) file s name)
      fun n => namedDecls t (enter' n) file s name := by
  unfold March.namedDecls namedDecls
  cases s.imports.find? name with
  | some b => exact tracks_importedDecls he hw hl b.source b.imported
  | none =>
    exact .load_pure (calm_mapM_internIn file name _) hl

theorem tracks_addEntry (he : EntersAlike t K N trail enter enter') (hw : w.On trail)
    (hl : w.loader.Within t K) (m : ExportMap) (e : ExportEntry) :
    Tracks t K N w low (fun n => March.addEntry t (enter n) file s m e)
      fun n => addEntry t (enter' n) file s ⟨m, low⟩ e := by
  cases e with
  | named exported name => exact (tracks_namedDecls he hw hl name).put (addUnder m exported)
  | default name =>
    cases name with
    | some name => exact (tracks_namedDecls he hw hl name).put (addUnder m "default")
    | none =>
      refine .load (calm_intern _) hl ?_
      intro id w₁ _ hl₁ _
      exact .pure hl₁ _
  | reexport exported source imported =>
    exact (tracks_importedDecls he hw hl source imported).put fun ids =>
      if ids.isEmpty then m else addUnder m exported ids
  | star source => exact .pure hl m

theorem tracks_followStar (he : EntersAlike t K N trail enter enter') (hw : w.On trail)
    (hl : w.loader.Within t K) (m : ExportMap) (source : String) :
    Tracks t K N w low (fun n => March.followStar t (enter n) file m source)
      fun n => followStar t (enter' n) file ⟨m, low⟩ source := by
  refine .load (calm_follow file source) hl ?_
  intro answer w₁ hp hl₁ hlead
  cases answer with
  | none => exact .pure hl₁ m
  | some g =>
    refine .get ?_
    by_cases hc : w₁.loader.isSealed g = true
    · simp only [hc, ↓reduceIte]
      exact .pure hl₁ m
    · simp only [hc, Bool.false_eq_true, ↓reduceIte]
      exact (he g (hlead g rfl) w₁ (hw.of_passed hp) hl₁).put (addStar m)

theorem tracks_collect (he : EntersAlike t K N trail enter enter') (hw : w.On trail)
    (hl : w.loader.Within t K) :
    Tracks t K N w none (fun n => March.collect t (enter n) file s)
      fun n => collect t (enter' n) file s := by
  refine (Tracks.foldlM hw hl ?_ _).bind ?_
  · intro e _ m low w₁ hw₁ hl₁
    exact tracks_addEntry he hw₁ hl₁ m e
  · intro m cuts w₁ hp hl₁
    refine (Tracks.foldlM (hw.of_passed hp) hl₁ ?_ m).bind ?_
    · intro source _ m low w₂ hw₂ hl₂
      exact tracks_followStar he hw₂ hl₂ m source
    · intro m cuts' w₂ _ hl₂
      exact .pure hl₂ _

end

end BarrelAlias.Linkage
