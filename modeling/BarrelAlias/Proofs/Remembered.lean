import BarrelAlias.Proofs.Walk

/-!
What the walk remembers. A cut points to a file of the trail that can be reached, so the exports of a
file on no cycle are settled whenever the walk leaves it. They are then built from what the loader
remembers of the files that its parts point to: this is what every loader keeps, whatever it has been
asked before and whether or not it got an answer.
-/

namespace BarrelAlias.Linkage

open Loader Relation

namespace Low

theorem exists_of_not_isWithin {low : Low} {n : Nat} (h : ¬ low.isWithin n) :
    ∃ d, low = some d ∧ d < n := by
  cases low with
  | none => simp [isWithin] at h
  | some d =>
    refine ⟨d, rfl, ?_⟩
    simpa [isWithin] using h

theorem min_eq_some {a b : Low} {d : Nat} (h : a.min b = some d) : a = some d ∨ b = some d := by
  cases a with
  | none =>
    rw [min_none_left] at h
    exact Or.inr h
  | some x =>
    cases b with
    | none => exact Or.inl h
    | some y =>
      have hd : Nat.min x y = d := Option.some.inj h
      rcases Nat.le_total x y with hxy | hxy
      · exact Or.inl (congrArg some ((Nat.min_eq_left hxy).symm.trans hd))
      · exact Or.inr (congrArg some ((Nat.min_eq_right hxy).symm.trans hd))

/-- The topmost of some cuts is one of them. -/
theorem lowest_eq_some {as : List (Found KeyMap)} {low : Low} {d : Nat}
    (h : lowest low as = some d) : low = some d ∨ ∃ a ∈ as, a.low = some d := by
  induction as generalizing low with
  | nil => exact Or.inl h
  | cons a as ih =>
    rcases ih h with hmin | ⟨b, hb, hlow⟩
    · rcases min_eq_some hmin with hlow | hlow
      · exact Or.inl hlow
      · exact Or.inr ⟨a, List.mem_cons_self .., hlow⟩
    · exact Or.inr ⟨b, List.mem_cons_of_mem a hb, hlow⟩

end Low

section

variable {t : FileTree} {S : List (List Step)} {root : Path} {fuel : Nat} {trail : Trail}
  {file : Path}

/-- A cut that reaches into the trail points to a file there that is reached from the file with the
steps `k`. -/
def CutAt (t : FileTree) (S : List (List Step)) (trail : Trail) (k : List Step) (low : Low) : Prop :=
  ∀ d, low = some d → d < trail.length →
    ∃ a, depthIn? a trail = some d ∧ ReflTransGen (Follows t S) k a

/-- The exports of a file on no cycle are settled when the walk leaves it. -/
theorem Call.isWithin (h : Call t S root fuel trail file) (hc : ¬ OnCycle t S file.steps) {low : Low}
    (hcut : CutAt t S trail file.steps low) : low.isWithin trail.length := by
  by_contra hw
  obtain ⟨d, hlow, hd⟩ := Low.exists_of_not_isWithin hw
  obtain ⟨a, ha, hreach⟩ := hcut d hlow hd
  exact hc (TransGen.trans_right hreach (h.leads a (mem_of_depthIn? ha)))

/-- So are those of the files that it points to, on a cycle or not. -/
theorem Call.isWithin_child (h : Call t S root (fuel + 1) trail file)
    (hc : ¬ OnCycle t S file.steps) {g : List Step} (hg : Follows t S file.steps g) {low : Low}
    (hcut : CutAt t S (file.steps :: trail) g low) : low.isWithin (file.steps :: trail).length := by
  by_contra hw
  obtain ⟨d, hlow, hd⟩ := Low.exists_of_not_isWithin hw
  obtain ⟨a, ha, hreach⟩ := hcut d hlow hd
  have hback : TransGen (Follows t S) file.steps a := TransGen.head' hg hreach
  rcases List.mem_cons.mp (mem_of_depthIn? ha) with rfl | hmem
  · exact hc hback
  · exact hc (hback.trans (h.leads a hmem))

/-- The cut of a file is one of those met in its parts. -/
theorem cutAt_lowest {s : Summary} (hsum : SummaryOf t file.steps s) {as : List (Found KeyMap)}
    (h : List.Forall₂ (Answers fun g a => CutAt t S (file.steps :: trail) g.steps a.low)
      (parts t S file s) as) : CutAt t S trail file.steps (Low.lowest none as) := by
  intro d hlow hd
  rcases Low.lowest_eq_some hlow with hnone | ⟨a, ha, hlow⟩
  · cases hnone
  · obtain ⟨p, hp, hans⟩ := exists_part_of_mem h ha
    unfold Answers at hans
    cases hg : p.target? with
    | none =>
      rw [hg] at hans
      subst hans
      cases hlow
    | some g =>
      rw [hg] at hans
      have hlt : d < (file.steps :: trail).length := by
        rw [List.length_cons]
        omega
      obtain ⟨b, hb, hreach⟩ := hans d hlow hlt
      exact ⟨b, depthIn?_of_lt hb hd, .head (follows_of_mem_parts hsum hp hg) hreach⟩

end

/-- The exports of a file as they are built from its parts. What a file on a cycle exports is taken
as it is remembered. -/
inductive Built (t : FileTree) (S : List (List Step)) (R : List Step → KeyMap → Prop) :
    List Step → KeyMap → Prop
  | cyclic {k : List Step} {km : KeyMap} : OnCycle t S k → R k km → Built t S R k km
  | made {k : List Step} {p : Path} {s : Summary} {M : Path → KeyMap} : ¬ OnCycle t S k →
      p.steps = k → readModule t p = .ok s →
      (∀ part ∈ parts t S p s, ∀ g, part.target? = some g → Built t S R g.steps (M g)) →
      Built t S R k (assemble (parts t S p s) ((parts t S p s).map (Part.answer M)))

section

variable {t : FileTree} {S : List (List Step)} {R R' : List Step → KeyMap → Prop} {k : List Step}
  {km km' : KeyMap}

theorem Built.mono (hR : ∀ k km, R k km → R' k km) (h : Built t S R k km) : Built t S R' k km := by
  induction h with
  | cyclic hc hk => exact .cyclic hc (hR _ _ hk)
  | made hc hp hr _ ih => exact .made hc hp hr ih

theorem map_answer_congr {ps : List Part} {M M' : Path → KeyMap}
    (h : ∀ p ∈ ps, ∀ g, p.target? = some g → M g = M' g) :
    ps.map (Part.answer M) = ps.map (Part.answer M') := by
  refine List.map_congr_left ?_
  intro p hp
  unfold Part.answer
  cases hg : p.target? with
  | none => rfl
  | some g => rw [Option.map_some, Option.map_some, h p hp g hg]

/-- What is remembered of the files on cycles settles what is built. -/
theorem Built.unique (hR : ∀ k', ReflTransGen (Follows t S) k k' → OnCycle t S k' →
      ∀ km km', R k' km → R' k' km' → km = km')
    (h : Built t S R k km) (h' : Built t S R' k km') : km = km' := by
  induction h generalizing km' with
  | cyclic hc hk =>
    cases h' with
    | cyclic _ hk' => exact hR _ .refl hc _ _ hk hk'
    | made hc' => exact absurd hc hc'
  | @made k p s M hc hp hr _ ih =>
    cases h' with
    | cyclic hc' => exact absurd hc' hc
    | @made _ p' s' M' _ hp' hr' hM' =>
      have hsteps : p.steps = p'.steps := hp.trans hp'.symm
      cases SummaryOf.unique ⟨p, hsteps, hr⟩ ⟨p', rfl, hr'⟩
      rw [← parts_congr t S hsteps (rooted_of_readModule hr) s] at hM' ⊢
      congr 1
      refine map_answer_congr ?_
      intro part hpart g hg
      refine ih part hpart g hg ?_ (hM' part hpart g hg)
      intro k' hreach
      exact hR k' (.head ⟨p, s, hp, hr, part, hpart, g, hg, rfl⟩ hreach)

/-- Answers that are what `M` gives for the files asked for. -/
theorem map_value_eq {M : Path → KeyMap} {ps : List Part} {as : List (Found KeyMap)}
    (h : List.Forall₂ (Answers fun g a => a.value = M g) ps as) :
    as.map Found.value = ps.map (Part.answer M) := by
  induction h with
  | nil => rfl
  | @cons p a ps as hpa _ ih =>
    rw [List.map_cons, List.map_cons, ih]
    unfold Answers at hpa
    cases hg : p.target? with
    | none =>
      rw [hg] at hpa
      simp [Part.answer, hg, hpa]
    | some g =>
      rw [hg] at hpa
      simp [Part.answer, hg, hpa]

/-- Answers that are settled by the files asked for come from one map of files. -/
theorem exists_map_answer (hR : ∀ k km km', R k km → R k km' → km = km') {ps : List Part}
    {as : List (Found KeyMap)}
    (h : List.Forall₂ (Answers fun g a => R g.steps a.value) ps as) :
    ∃ M : Path → KeyMap,
      List.Forall₂ (Answers fun g a => R g.steps (M g) ∧ a.value = M g) ps as := by
  classical
  refine ⟨fun g => if hg : ∃ km, R g.steps km then hg.choose else .empty, ?_⟩
  refine h.imp fun p a hpa => hpa.imp fun g _ hg => ?_
  have hex : ∃ km, R g.steps km := ⟨a.value, hg⟩
  simp only [dif_pos hex]
  exact ⟨hex.choose_spec, hR _ _ _ hg hex.choose_spec⟩

/-- A part that points to a file has an answer. -/
theorem exists_answer_of_mem {Q : Path → Found KeyMap → Prop} {ps : List Part}
    {as : List (Found KeyMap)} (h : List.Forall₂ (Answers Q) ps as) {p : Part} (hp : p ∈ ps)
    {g : Path} (hg : p.target? = some g) : ∃ a, Q g a := by
  induction h with
  | nil => cases hp
  | @cons q a ps as hqa _ ih =>
    rcases List.mem_cons.mp hp with rfl | hp
    · unfold Answers at hqa
      rw [hg] at hqa
      exact ⟨a, hqa⟩
    · exact ih hp

end

namespace Loader

/-- Whatever the loader remembers of files on no cycle is built from the rest of what it remembers. -/
def Consistent (t : FileTree) (S : List (List Step)) (l : Loader) : Prop :=
  ∀ k km, ¬ OnCycle t S k → l.Remembers k km → Built t S l.Remembers k km

variable {t : FileTree} {S : List (List Step)} {l l' : Loader}

theorem Consistent.built (h : l.Consistent t S) {k : List Step} {km : KeyMap}
    (hk : l.Remembers k km) : Built t S l.Remembers k km := by
  by_cases hc : OnCycle t S k
  · exact .cyclic hc hk
  · exact h k km hc hk

theorem Consistent.of_quiet (hq : l.Quiet l') (hs : l.Sound t S) (h : l.Consistent t S) :
    l'.Consistent t S := by
  intro k km hc hk
  have hk' := (remembers_congr hq hs).mp hk
  exact (h k km hc hk').mono fun _ _ => Remembers.mono hq.grows

/-- A file on no cycle may be settled once all that its parts point to is remembered. -/
theorem Consistent.settle (h : l.Consistent t S) {file : Path} {s : Summary}
    (hsum : SummaryOf t file.steps s) (hnone : l.exports.find? file.steps = none)
    {as : List (Found KeyMap)} {m : ExportMap}
    (hm : Shows l.decls m (assemble (parts t S file s) (as.map Found.value)))
    (has : ¬ OnCycle t S file.steps →
      List.Forall₂ (Answers fun g a => l.Remembers g.steps a.value) (parts t S file s) as) :
    (l.settle file.steps m).Consistent t S := by
  have hmono : ∀ k km, l.Remembers k km → (l.settle file.steps m).Remembers k km :=
    fun _ _ => Remembers.mono (grows_settle hnone)
  intro k km hc hk
  by_cases he : k = file.steps
  · subst he
    cases hk.unique (remembers_settle_self hm)
    have huniq : ∀ k km km', l.Remembers k km → l.Remembers k km' → km = km' :=
      fun _ _ _ => Remembers.unique
    obtain ⟨M, hM⟩ := exists_map_answer huniq (has hc)
    rw [map_value_eq (hM.imp fun _ _ ha => ha.imp fun _ _ hg => hg.2)]
    obtain ⟨p, hp, hr⟩ := hsum
    rw [← parts_congr t S hp (rooted_of_readModule hr) s] at hM ⊢
    refine .made hc hp hr ?_
    intro part hpart g hg
    obtain ⟨a, hrem, _⟩ := exists_answer_of_mem hM hpart hg
    exact (h.built hrem).mono hmono
  · exact (h k km hc ((remembers_settle_of_ne he).mp hk)).mono hmono

end Loader

/-- What is found in a file: its cut points into the trail, and its exports are remembered unless a
cut reaches above it. -/
def Leaves (t : FileTree) (S : List (List Step)) (trail : Trail) (l : Loader) (g : Path)
    (a : Found KeyMap) : Prop :=
  CutAt t S trail g.steps a.low ∧ (a.low.isWithin trail.length → l.Remembers g.steps a.value)

/-- A file that is reached cannot be read, and this is the failure. -/
def Unread (t : FileTree) (S : List (List Step)) (root : Path) (e : Failure) : Prop :=
  ∃ g, (g = root ∨ t.IsPlain g) ∧ ReflTransGen (Follows t S) root.steps g.steps ∧
    readModule t g = .error e

section

variable {t : FileTree} {S : List (List Step)} {root : Path} {fuel : Nat} {trail : Trail}
  {file : Path} {l l' : Loader}

theorem Leaves.mono {g : Path} {a : Found KeyMap} (hg : l.Grows l') (h : Leaves t S trail l g a) :
    Leaves t S trail l' g a := ⟨h.1, fun hw => (h.2 hw).mono hg⟩

theorem leaves_hit {m : ExportMap} {km : KeyMap} (hfind : l.exports.find? file.steps = some m)
    (hm : Shows l.decls m km) : Leaves t S trail l file ⟨km, none⟩ := by
  refine ⟨?_, fun _ => ⟨m, hfind, hm⟩⟩
  intro d hd
  cases hd

/-- A cut points to the file itself, and nothing needs to be remembered. -/
theorem leaves_cut {d : Nat} (hdepth : depthIn? file.steps trail = some d) (km : KeyMap) :
    Leaves t S trail l file ⟨km, some d⟩ := by
  constructor
  · intro d' hd' _
    cases hd'
    exact ⟨file.steps, hdepth, .refl⟩
  · intro hw
    have hlt := depthIn?_lt hdepth
    simp only [Low.isWithin, decide_eq_true_eq] at hw
    omega

/-- The end of a step of the walk that ran through all parts of the file. -/
theorem leaves_done (hcall : Call t S root (fuel + 1) trail file) {s : Summary}
    (hsum : SummaryOf t file.steps s) (hnone : l.exports.find? file.steps = none)
    {as : List (Found KeyMap)} {m : ExportMap}
    (hm : Shows l.decls m (assemble (parts t S file s) (as.map Found.value)))
    (has : List.Forall₂ (Answers (Leaves t S (file.steps :: trail) l)) (parts t S file s) as)
    (hl : l.Consistent t S) :
    let l' := if (Low.lowest none as).isWithin trail.length then l.settle file.steps m else l
    l'.Consistent t S ∧
      ∀ km, Shows l'.decls m km → Leaves t S trail l' file ⟨km, Low.lowest none as⟩ := by
  intro l'
  have hcut : CutAt t S trail file.steps (Low.lowest none as) :=
    cutAt_lowest hsum (has.imp fun _ _ ha => ha.imp fun _ _ hg => hg.1)
  by_cases hw : (Low.lowest none as).isWithin trail.length
  · have hl' : l' = l.settle file.steps m := if_pos hw
    rw [hl']
    constructor
    · refine hl.settle hsum hnone hm ?_
      intro hc
      -- a file on no cycle: none of its parts was cut above it
      refine List.forall₂_iff_zip.mpr ⟨has.length_eq, ?_⟩
      intro p a hpa
      refine (List.forall₂_zip has hpa).imp ?_
      intro g hg hans
      have hp : p ∈ parts t S file s := (List.of_mem_zip hpa).1
      exact hans.2 (hcall.isWithin_child hc (follows_of_mem_parts hsum hp hg) hans.1)
    · intro km hkm
      exact ⟨hcut, fun _ => remembers_settle_self hkm⟩
  · have hl' : l' = l := if_neg hw
    rw [hl']
    exact ⟨hl, fun km _ => ⟨hcut, fun h => absurd h hw⟩⟩

/-- The walk keeps loaders consistent, settles what it leaves, and fails only at files that cannot be
read. -/
theorem walk_enters (hcall : Call t S root fuel trail file) :
    Enters t S (walkExports t fuel trail) (Consistent t S) (Leaves t S trail) (Unread t S root)
      file := by
  induction fuel generalizing trail file with
  | zero =>
    obtain ⟨n, hn⟩ := hcall.fuel_pos
    cases hn
  | succ fuel ih =>
    intro l r l' hs hl hx
    have hchild : ∀ s, SummaryOf t file.steps s → file.steps ∉ trail →
        ∀ p ∈ parts t S file s, ∀ g, p.target? = some g →
          Enters t S (walkExports t fuel (file.steps :: trail)) (Consistent t S)
            (Leaves t S (file.steps :: trail)) (Unread t S root) g :=
      fun s hsum hnot p hp g hg => ih (hcall.child hnot hsum hp hg)
    cases walked_of_exec hs hx with
    | @hit m hfind =>
      refine ⟨hl, by simp, ?_⟩
      intro found km hr hsh
      cases hr
      exact leaves_hit hfind hsh
    | @cut d hfind hdepth =>
      refine ⟨hl, by simp, ?_⟩
      intro found km hr _
      cases hr
      exact leaves_cut hdepth km
    | unread _ _ _ hread =>
      refine ⟨hl, ?_, by simp⟩
      intro e he
      cases he
      exact ⟨file, hcall.here, hcall.reached, hread⟩
    | broken _ hnot hsum hb =>
      obtain ⟨hl', hE⟩ :=
        hb.spec (fun _ _ hq hs h => h.of_quiet hq hs) (hchild _ hsum hnot) hs hl
      refine ⟨hl', ?_, by simp⟩
      intro e he
      cases he
      exact hE
    | @done s as m l₁ hfind hnot hsum hm hsh =>
      obtain ⟨hl₁, has⟩ :=
        hm.spec (fun _ _ hq hs h => h.of_quiet hq hs) (fun _ _ _ _ hg h => h.mono hg)
          (hchild s hsum hnot) hs hl
      have hnone : l₁.exports.find? file.steps = none :=
        ((walk_keeps_and_spares t S fuel (file.steps :: trail)).2 file.steps
          (List.mem_cons_self ..)).allMet hm hs hfind
      obtain ⟨hl', hleaves⟩ := leaves_done hcall hsum hnone hsh has hl₁
      refine ⟨hl', by simp, ?_⟩
      intro found km hr hkm
      cases hr
      exact hleaves km hkm

end

end BarrelAlias.Linkage
