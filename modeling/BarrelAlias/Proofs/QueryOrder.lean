import BarrelAlias.Proofs.History
import BarrelAlias.Proofs.Lockstep

/-!
How far an answer depends on earlier questions. Two loaders that remember the same about the files on
cycles that are reached from a file give the same answer about it, and go on remembering the same.
What is remembered of all other files makes no difference: where one loader remembers such a file
and the other does not, the other builds what the first remembers.
-/

namespace BarrelAlias.Linkage

open Loader Relation

/-- The loaders remember the same about the files on cycles that are reached from `root`. -/
def Agree (t : FileTree) (S : List (List Step)) (root : Path) (l₁ l₂ : Loader) : Prop :=
  ∀ k, ReflTransGen (Follows t S) root.steps k → OnCycle t S k →
    ∀ km, l₁.Remembers k km ↔ l₂.Remembers k km

section

variable {t : FileTree} {S : List (List Step)} {root file : Path} {fuel : Nat} {trail : Trail}
  {l l₁ l₂ l' : Loader}

theorem Agree.symm (h : Agree t S root l₁ l₂) : Agree t S root l₂ l₁ :=
  fun k hreach hc km => (h k hreach hc km).symm

theorem Agree.trans {l₃ : Loader} (h : Agree t S root l₁ l₂) (h' : Agree t S root l₂ l₃) :
    Agree t S root l₁ l₃ :=
  fun k hreach hc km => (h k hreach hc km).trans (h' k hreach hc km)

theorem agree_of_quiet (hq : l.Quiet l') (hs : l.Sound t S) : Agree t S root l l' :=
  fun _ _ _ _ => (remembers_congr hq hs).symm

/-- Settling a file on no cycle makes no difference. -/
theorem agree_settle {k : List Step} (hc : ¬ OnCycle t S k) (m : ExportMap) :
    Agree t S root l (l.settle k m) := by
  intro k' _ hc' km
  have hne : k' ≠ k := fun e => hc (e ▸ hc')
  exact (remembers_settle_of_ne hne).symm

@[simp] theorem decls_settled (b : Bool) (k : List Step) (m : ExportMap) :
    (if b then l.settle k m else l).decls = l.decls := by
  cases b with
  | true => rfl
  | false => rfl

theorem Call.isFile (hcall : Call t S root fuel trail file) (hroot : t.isFile root) :
    t.isFile file := by
  rcases hcall.here with rfl | hp
  · exact hroot
  · exact hp.isFile

/-- What is built in one way in agreeing loaders is the same. -/
theorem Agree.built_unique (h : Agree t S root l₁ l₂) {k : List Step}
    (hreach : ReflTransGen (Follows t S) root.steps k) {km km' : KeyMap}
    (hb : Built t S l₁.Remembers k km) (hb' : Built t S l₂.Remembers k km') : km = km' := by
  refine hb.unique ?_ hb'
  intro k' hk' hc km₁ km₂ h₁ h₂
  exact ((h k' (hreach.trans hk') hc km₁).mp h₁).unique h₂

/-- A loader that agrees with another builds what the other has built, and settles no file on a
cycle on the way. -/
theorem walk_of_built (hroot : t.isFile root) {k : List Step} {km : KeyMap}
    (hb : Built t S l₁.Remembers k km) (hcall : Call t S root fuel trail file)
    (hk : file.steps = k) :
    Enters t S (walkExports t fuel trail) (fun l => l.Consistent t S ∧ Agree t S root l₁ l)
      (fun _ _ a => a.value = km ∧ a.low.isWithin trail.length) (fun _ => False) file := by
  induction hb generalizing fuel trail file with
  | @cyclic k km hc hrem =>
    subst hk
    obtain ⟨n, rfl⟩ := hcall.fuel_pos
    rintro l r l' hs ⟨hl, hag⟩ hx
    obtain ⟨m, hfind, hm⟩ := (hag _ hcall.reached hc km).mp hrem
    obtain ⟨rfl, rfl⟩ := (walked_of_exec hs hx).of_find? hfind
    refine ⟨⟨hl, hag⟩, by simp, ?_⟩
    intro found km' hr hkm'
    cases hr
    exact ⟨hkm'.unique hm, rfl⟩
  | @made k p s M hc hp hr hM ih =>
    subst hk
    obtain ⟨n, rfl⟩ := hcall.fuel_pos
    rintro l r l' hs ⟨hl, hag⟩ hx
    obtain ⟨hl', _, hleaves⟩ := walk_enters hcall l r l' hs hl hx
    have hnot := hcall.not_mem_trail hc
    have hsum : SummaryOf t file.steps s := ⟨p, hp, hr⟩
    rw [parts_congr t S hp (rooted_of_readModule hr) s] at ih hM ⊢
    have hchild : ∀ part ∈ parts t S file s, ∀ g, part.target? = some g →
        Enters t S (walkExports t n (file.steps :: trail))
          (fun l => l.Consistent t S ∧ Agree t S root l₁ l)
          (fun _ g a => a.value = M g ∧ a.low.isWithin (file.steps :: trail).length)
          (fun _ => False) g :=
      fun part hpart g hg => ih part hpart g hg (hcall.child hnot hsum hpart hg) rfl
    have hquiet : ∀ l l', l.Quiet l' → l.Sound t S → l.Consistent t S ∧ Agree t S root l₁ l →
        l'.Consistent t S ∧ Agree t S root l₁ l' :=
      fun _ _ hq hs h => ⟨h.1.of_quiet hq hs, h.2.trans (agree_of_quiet hq hs)⟩
    cases walked_of_exec hs hx with
    | @hit m hfind =>
      refine ⟨⟨hl, hag⟩, by simp, ?_⟩
      intro found km' hr' hkm'
      cases hr'
      have hb' : Built t S l.Remembers file.steps km' := hl _ _ hc ⟨m, hfind, hkm'⟩
      refine ⟨(hag.built_unique hcall.reached ?_ hb').symm, rfl⟩
      rw [← parts_congr t S hp (rooted_of_readModule hr) s] at hM ⊢
      exact .made hc hp hr hM
    | cut _ hdepth => exact absurd (mem_of_depthIn? hdepth) hnot
    | unread _ _ _ hread =>
      rw [readModule_of_isFile (hcall.isFile hroot) hsum] at hread
      cases hread
    | broken _ _ hsum' hbr =>
      cases hsum.unique hsum'
      exact absurd (hbr.spec hquiet hchild hs ⟨hl, hag⟩).2 id
    | @done s' as m l₂ _ _ hsum' hm hsh =>
      cases hsum.unique hsum'
      obtain ⟨⟨_, hag₂⟩, has⟩ := hm.spec hquiet (fun _ _ _ _ _ h => h) hchild hs ⟨hl, hag⟩
      rw [map_value_eq (has.imp fun _ _ ha => ha.imp fun _ _ hg => hg.1)] at hsh
      refine ⟨⟨hl', ?_⟩, by simp, ?_⟩
      · split
        · exact hag₂.trans (agree_settle hc m)
        · exact hag₂
      · intro found km' hr' hkm'
        have hwithin := hcall.isWithin hc (hleaves found km' hr' hkm').1
        cases hr'
        rw [decls_settled] at hkm'
        exact ⟨hkm'.unique hsh, hwithin⟩

end

namespace Low

/-- The cut if it reaches above depth `n`. -/
def above (n : Nat) : Low → Low
  | none => none
  | some d => if d < n then some d else none

theorem above_of_lt {n d : Nat} (h : d < n) : above n (some d) = some d := if_pos h

theorem above_of_le {n d : Nat} (h : n ≤ d) : above n (some d) = none := if_neg (Nat.not_lt.mpr h)

theorem above_eq_none_iff {n : Nat} {low : Low} : low.above n = none ↔ low.isWithin n := by
  cases low with
  | none => simp [above, isWithin]
  | some d => simp [above, isWithin]

theorem above_min (n : Nat) (a b : Low) : (a.min b).above n = (a.above n).min (b.above n) := by
  cases a with
  | none => simp [above]
  | some x =>
    cases b with
    | none => simp [above]
    | some y =>
      have hmin : min (some x) (some y) = some (Nat.min x y) := rfl
      rw [hmin]
      rcases Nat.le_total x y with hxy | hxy
      · have hx : Nat.min x y = x := Nat.min_eq_left hxy
        rw [hx]
        rcases Nat.lt_or_ge y n with hy | hy
        · rw [above_of_lt hy, above_of_lt (Nat.lt_of_le_of_lt hxy hy), hmin, hx]
        · rw [above_of_le hy, min_none_right]
      · have hy : Nat.min x y = y := Nat.min_eq_right hxy
        rw [hy]
        rcases Nat.lt_or_ge x n with hx | hx
        · rw [above_of_lt hx, above_of_lt (Nat.lt_of_le_of_lt hxy hx), hmin, hy]
        · rw [above_of_le hx, min_none_left]

theorem above_above {n n' : Nat} (hn : n ≤ n') (low : Low) : (low.above n').above n = low.above n := by
  cases low with
  | none => rfl
  | some d =>
    rcases Nat.lt_or_ge d n' with hd | hd
    · rw [above_of_lt hd]
    · rw [above_of_le hd, above_of_le (Nat.le_trans hn hd)]
      rfl

theorem above_lowest {n : Nat} {as bs : List (Found KeyMap)} {low low' : Low}
    (h : List.Forall₂ (fun a b => a.low.above n = b.low.above n) as bs)
    (hlow : low.above n = low'.above n) : (lowest low as).above n = (lowest low' bs).above n := by
  induction h generalizing low low' with
  | nil => exact hlow
  | cons hab _ ih =>
    refine ih ?_
    rw [above_min, above_min, hlow, hab]

end Low

/-- What is known in two loaders that may be asked about `root`. -/
structure Peers (t : FileTree) (S : List (List Step)) (root : Path) (l₁ l₂ : Loader) : Prop where
  sound₁ : l₁.Sound t S
  sound₂ : l₂.Sound t S
  consistent₁ : l₁.Consistent t S
  consistent₂ : l₂.Consistent t S
  agree : Agree t S root l₁ l₂

/-- Answers with one value whose cuts above depth `n` are the same. -/
def Alike (n : Nat) (a b : Found KeyMap) : Prop := a.value = b.value ∧ a.low.above n = b.low.above n

/-- Two runs have failed in the same way, or have found the same and ended in peers. -/
def SameEnd (t : FileTree) (S : List (List Step)) (root : Path) (n : Nat)
    (r₁ r₂ : Except Failure (Found ExportMap)) (l₁ l₂ : Loader) : Prop :=
  (∃ e, r₁ = .error e ∧ r₂ = .error e) ∨
    ∃ f₁ f₂ km, r₁ = .ok f₁ ∧ r₂ = .ok f₂ ∧ Shows l₁.decls f₁.value km ∧
      Shows l₂.decls f₂.value km ∧ f₁.low.above n = f₂.low.above n ∧ Peers t S root l₁ l₂

/-- Two ways to enter a file that have the same end from peers. -/
def InStep (t : FileTree) (S : List (List Step)) (root : Path) (n : Nat) (enter₁ enter₂ : Enter)
    (g : Path) : Prop :=
  ∀ l₁ l₂ r₁ r₂ l₁' l₂', Peers t S root l₁ l₂ → (enter₁ g).exec l₁ = (r₁, l₁') →
    (enter₂ g).exec l₂ = (r₂, l₂') → SameEnd t S root n r₁ r₂ l₁' l₂'

section

variable {t : FileTree} {S : List (List Step)} {root file : Path} {n : Nat} {enter₁ enter₂ : Enter}
  {l₁ l₂ l₁' l₂' : Loader}

theorem Peers.symm (h : Peers t S root l₁ l₂) : Peers t S root l₂ l₁ :=
  ⟨h.sound₂, h.sound₁, h.consistent₂, h.consistent₁, h.agree.symm⟩

theorem Peers.of_quiet (h : Peers t S root l₁ l₂) (hq₁ : l₁.Quiet l₁') (hq₂ : l₂.Quiet l₂')
    (hs₁ : l₁'.Sound t S) (hs₂ : l₂'.Sound t S) : Peers t S root l₁' l₂' where
  sound₁ := hs₁
  sound₂ := hs₂
  consistent₁ := h.consistent₁.of_quiet hq₁ h.sound₁
  consistent₂ := h.consistent₂.of_quiet hq₂ h.sound₂
  agree := ((agree_of_quiet hq₁ h.sound₁).symm.trans h.agree).trans (agree_of_quiet hq₂ h.sound₂)

theorem InStep.entersTogether {g : Path} (h : InStep t S root n enter₁ enter₂ g) :
    EntersTogether (Peers t S root) (Alike n) enter₁ enter₂ g := by
  intro l₁ l₂ r₁ r₂ l₁' l₂' hp hx₁ hx₂
  rcases h l₁ l₂ r₁ r₂ l₁' l₂' hp hx₁ hx₂ with
    ⟨e, rfl, rfl⟩ | ⟨f₁, f₂, km, rfl, rfl, hsh₁, hsh₂, hlow, hpeers⟩
  · exact Or.inl ⟨e, rfl, rfl⟩
  · refine Or.inr ⟨f₁, f₂, rfl, rfl, ?_, hpeers⟩
    intro km₁ km₂ h₁ h₂
    exact ⟨(h₁.unique hsh₁).trans (h₂.unique hsh₂).symm, hlow⟩

theorem Ran.inStep {ps : List Part}
    (he : ∀ p ∈ ps, ∀ g, p.target? = some g → InStep t S root n enter₁ enter₂ g)
    (hp : Peers t S root l₁ l₂) (r₁ r₂ : Except Failure (List (Found KeyMap)))
    (h₁ : Ran t S enter₁ l₁ ps r₁ l₁') (h₂ : Ran t S enter₂ l₂ ps r₂ l₂') :
    (∃ e, r₁ = .error e ∧ r₂ = .error e) ∨
      ∃ as bs, r₁ = .ok as ∧ r₂ = .ok bs ∧ List.Forall₂ (Alike n) as bs ∧
        Peers t S root l₁' l₂' := by
  refine Ran.together ?_ ⟨rfl, rfl⟩ (List.forall₂_same.mpr fun _ _ => rfl)
    (fun p hp g hg => (he p hp g hg).entersTogether) hp h₁ h₂
  intro l₁ l₂ m₁ m₂ hp hq₁ hq₂ hs₁ hs₂
  exact hp.of_quiet hq₁ hq₂ hs₁ hs₂

theorem map_value_of_alike {as bs : List (Found KeyMap)} (h : List.Forall₂ (Alike n) as bs) :
    as.map Found.value = bs.map Found.value := by
  induction h with
  | nil => rfl
  | cons hab _ ih => rw [List.map_cons, List.map_cons, ih, hab.1]

theorem above_lowest_of_alike {as bs : List (Found KeyMap)} (h : List.Forall₂ (Alike n) as bs)
    {depth : Nat} (hn : depth ≤ n) :
    (Low.lowest none as).above depth = (Low.lowest none bs).above depth := by
  refine Low.above_lowest (h.imp fun a b hab => ?_) rfl
  rw [← Low.above_above hn, hab.2, Low.above_above hn]

/-- Settling one file alike in both loaders changes nothing about what they remember alike. -/
theorem remembers_settle_iff {k k' : List Step} {m₁ m₂ : ExportMap} {km : KeyMap}
    (hm₁ : Shows l₁.decls m₁ km) (hm₂ : Shows l₂.decls m₂ km)
    (h : ∀ km', l₁.Remembers k' km' ↔ l₂.Remembers k' km') (km' : KeyMap) :
    (l₁.settle k m₁).Remembers k' km' ↔ (l₂.settle k m₂).Remembers k' km' := by
  by_cases he : k' = k
  · subst he
    constructor
    · intro hrem
      rw [hrem.unique (remembers_settle_self hm₁)]
      exact remembers_settle_self hm₂
    · intro hrem
      rw [hrem.unique (remembers_settle_self hm₂)]
      exact remembers_settle_self hm₁
  · rw [remembers_settle_of_ne he, remembers_settle_of_ne he]
    exact h km'

theorem Agree.settle (h : Agree t S root l₁ l₂) (k : List Step) {m₁ m₂ : ExportMap} {km : KeyMap}
    (hm₁ : Shows l₁.decls m₁ km) (hm₂ : Shows l₂.decls m₂ km) :
    Agree t S root (l₁.settle k m₁) (l₂.settle k m₂) :=
  fun k' hreach hc => remembers_settle_iff hm₁ hm₂ (h k' hreach hc)

/-- The end of a step of both walks that ran through all parts of the file. -/
theorem agree_done (h : Agree t S root l₁ l₂) (k : List Step) {as bs : List (Found KeyMap)}
    {m₁ m₂ : ExportMap} {km : KeyMap} (hm₁ : Shows l₁.decls m₁ km) (hm₂ : Shows l₂.decls m₂ km)
    (hlow : (Low.lowest none as).above n = (Low.lowest none bs).above n) :
    Agree t S root (if (Low.lowest none as).isWithin n then l₁.settle k m₁ else l₁)
      (if (Low.lowest none bs).isWithin n then l₂.settle k m₂ else l₂) := by
  by_cases hw : (Low.lowest none as).isWithin n
  · have hw' : (Low.lowest none bs).isWithin n := by
      rw [← Low.above_eq_none_iff, ← hlow, Low.above_eq_none_iff]
      exact hw
    rw [if_pos hw, if_pos hw']
    exact h.settle k hm₁ hm₂
  · have hw' : ¬ (Low.lowest none bs).isWithin n := by
      rw [← Low.above_eq_none_iff, ← hlow, Low.above_eq_none_iff]
      exact hw
    rw [if_neg hw, if_neg hw']
    exact h

end

section

variable {t : FileTree} {S : List (List Step)} {root file : Path} {fuel₁ fuel₂ : Nat}
  {trail : Trail}

/-- Where the first of two loaders remembers the file, the second finds the same. -/
theorem inStep_of_hit (hroot : t.isFile root) {l₁ l₂ l₂' : Loader} (hp : Peers t S root l₁ l₂)
    (hcall₂ : Call t S root fuel₂ trail file) {m : ExportMap}
    (hfind : l₁.exports.find? file.steps = some m) {r₂ : Except Failure (Found ExportMap)}
    (hx₂ : (walkExports t fuel₂ trail file).exec l₂ = (r₂, l₂')) :
    ∃ f km, r₂ = .ok f ∧ Shows l₁.decls m km ∧ Shows l₂'.decls f.value km ∧
      f.low.isWithin trail.length ∧ Peers t S root l₁ l₂' := by
  obtain ⟨km, hkm⟩ := hp.sound₁.exports_ok _ m hfind
  have hb : Built t S l₁.Remembers file.steps km := hp.consistent₁.built ⟨m, hfind, hkm⟩
  obtain ⟨⟨hl₂', hag⟩, hE, hQ⟩ :=
    walk_of_built hroot hb hcall₂ rfl l₂ r₂ l₂' hp.sound₂ ⟨hp.consistent₂, hp.agree⟩ hx₂
  obtain ⟨hs₂', _, hshow⟩ := walk_keeps t S fuel₂ trail file l₂ r₂ l₂' hp.sound₂ hx₂
  cases r₂ with
  | error e => exact absurd (hE e rfl) id
  | ok f =>
    obtain ⟨km', hkm'⟩ := hshow f rfl
    obtain ⟨hval, hwithin⟩ := hQ f km' rfl hkm'
    cases hval
    exact ⟨f, _, rfl, hkm, hkm', hwithin, hp.sound₁, hs₂', hp.consistent₁, hl₂', hag⟩

/-- A step of the walk from two loaders neither of which remembers the file. -/
theorem sameEnd_of_miss (hroot : t.isFile root) (hcall₁ : Call t S root (fuel₁ + 1) trail file)
    (hcall₂ : Call t S root (fuel₂ + 1) trail file)
    (he : ∀ s, SummaryOf t file.steps s → file.steps ∉ trail → ∀ p ∈ parts t S file s, ∀ g,
      p.target? = some g → InStep t S root (file.steps :: trail).length
        (walkExports t fuel₁ (file.steps :: trail)) (walkExports t fuel₂ (file.steps :: trail)) g)
    {l₁ l₂ l₁' l₂' : Loader} (hp : Peers t S root l₁ l₂)
    (hfind₁ : l₁.exports.find? file.steps = none) (hfind₂ : l₂.exports.find? file.steps = none)
    {r₁ r₂ : Except Failure (Found ExportMap)}
    (hx₁ : (walkExports t (fuel₁ + 1) trail file).exec l₁ = (r₁, l₁'))
    (hx₂ : (walkExports t (fuel₂ + 1) trail file).exec l₂ = (r₂, l₂')) :
    SameEnd t S root trail.length r₁ r₂ l₁' l₂' := by
  obtain ⟨hs₁', _, _⟩ := walk_keeps t S _ _ file l₁ r₁ l₁' hp.sound₁ hx₁
  obtain ⟨hs₂', _, _⟩ := walk_keeps t S _ _ file l₂ r₂ l₂' hp.sound₂ hx₂
  obtain ⟨hl₁', _, _⟩ := walk_enters hcall₁ l₁ r₁ l₁' hp.sound₁ hp.consistent₁ hx₁
  obtain ⟨hl₂', _, _⟩ := walk_enters hcall₂ l₂ r₂ l₂' hp.sound₂ hp.consistent₂ hx₂
  have hreads : ∀ {s e}, SummaryOf t file.steps s → readModule t file ≠ .error e := by
    intro s e hsum hread
    rw [readModule_of_isFile (hcall₁.isFile hroot) hsum] at hread
    cases hread
  rcases (walked_of_exec hp.sound₁ hx₁).miss_cases hfind₁ with
    ⟨d₁, hd₁, rfl, rfl⟩ | ⟨hnot₁, e₁, hread₁, rfl⟩ | ⟨hnot₁, s₁, hsum₁, rs₁, k₁, hrun₁, hend₁⟩
  · rcases (walked_of_exec hp.sound₂ hx₂).miss_cases hfind₂ with
      ⟨d₂, hd₂, rfl, rfl⟩ | ⟨hnot₂, _⟩ | ⟨hnot₂, _⟩
    · cases hd₁.symm.trans hd₂
      exact Or.inr ⟨_, _, .empty, rfl, rfl, shows_empty _, shows_empty _, rfl, hp⟩
    · exact absurd (mem_of_depthIn? hd₁) hnot₂
    · exact absurd (mem_of_depthIn? hd₁) hnot₂
  · rcases (walked_of_exec hp.sound₂ hx₂).miss_cases hfind₂ with
      ⟨d₂, hd₂, _⟩ | ⟨_, e₂, hread₂, rfl⟩ | ⟨_, s₂, hsum₂, _⟩
    · exact absurd (mem_of_depthIn? hd₂) hnot₁
    · cases hread₁.symm.trans hread₂
      exact Or.inl ⟨_, rfl, rfl⟩
    · exact absurd hread₁ (hreads hsum₂)
  · rcases (walked_of_exec hp.sound₂ hx₂).miss_cases hfind₂ with
      ⟨d₂, hd₂, _⟩ | ⟨_, e₂, hread₂, _⟩ | ⟨_, s₂, hsum₂, rs₂, k₂, hrun₂, hend₂⟩
    · exact absurd (mem_of_depthIn? hd₂) hnot₁
    · exact absurd hread₂ (hreads hsum₁)
    · cases hsum₁.unique hsum₂
      rcases Ran.inStep (he s₁ hsum₁ hnot₁) hp rs₁ rs₂ hrun₁ hrun₂ with
        ⟨e, rfl, rfl⟩ | ⟨as, bs, rfl, rfl, halike, hpeers⟩
      · cases hend₁
        cases hend₂
        exact Or.inl ⟨e, rfl, rfl⟩
      · cases hend₁ with
        | done hsh₁ =>
          cases hend₂ with
          | done hsh₂ =>
            rw [← map_value_of_alike halike] at hsh₂
            have hlow := above_lowest_of_alike halike (Nat.le_succ trail.length)
            refine Or.inr ⟨_, _, assemble (parts t S file s₁) (as.map Found.value), rfl, rfl, ?_, ?_,
              hlow, hs₁', hs₂', hl₁', hl₂', agree_done hpeers.agree file.steps hsh₁ hsh₂ hlow⟩
            · rw [decls_settled]
              exact hsh₁
            · rw [decls_settled]
              exact hsh₂

/-- The walk into a file goes in step in loaders that are peers. -/
theorem walk_inStep (hroot : t.isFile root) (hcall₁ : Call t S root fuel₁ trail file)
    (hcall₂ : Call t S root fuel₂ trail file) :
    InStep t S root trail.length (walkExports t fuel₁ trail) (walkExports t fuel₂ trail) file := by
  induction fuel₁ generalizing fuel₂ trail file with
  | zero =>
    obtain ⟨n, hn⟩ := hcall₁.fuel_pos
    cases hn
  | succ fuel₁ ih =>
    obtain ⟨fuel₂, rfl⟩ := hcall₂.fuel_pos
    intro l₁ l₂ r₁ r₂ l₁' l₂' hp hx₁ hx₂
    -- a file that only one of the loaders remembers is on no cycle, so the other builds the same
    cases hfind₁ : l₁.exports.find? file.steps with
    | some m =>
      obtain ⟨f, km, rfl, hm, hf, hw, hend⟩ := inStep_of_hit hroot hp hcall₂ hfind₁ hx₂
      obtain ⟨rfl, rfl⟩ := (walked_of_exec hp.sound₁ hx₁).of_find? hfind₁
      exact Or.inr ⟨_, f, km, rfl, rfl, hm, hf, (Low.above_eq_none_iff.mpr hw).symm, hend⟩
    | none =>
      cases hfind₂ : l₂.exports.find? file.steps with
      | some m =>
        obtain ⟨f, km, rfl, hm, hf, hw, hend⟩ := inStep_of_hit hroot hp.symm hcall₁ hfind₂ hx₁
        obtain ⟨rfl, rfl⟩ := (walked_of_exec hp.sound₂ hx₂).of_find? hfind₂
        exact Or.inr ⟨f, _, km, rfl, rfl, hf, hm, Low.above_eq_none_iff.mpr hw, hend.symm⟩
      | none =>
        refine sameEnd_of_miss hroot hcall₁ hcall₂ ?_ hp hfind₁ hfind₂ hx₁ hx₂
        intro s hsum hnot p hpart g hg
        exact ih (hcall₁.child hnot hsum hpart hg) (hcall₂.child hnot hsum hpart hg)

end

def Replies (t : FileTree) (l : Loader) (file : Path) : Except Failure KeyMap → Prop
  | .error e => ∃ l', (exportsOf t file).exec l = (.error e, l')
  | .ok km => ∃ m l', (exportsOf t file).exec l = (.ok m, l') ∧ Shows l'.decls m km

def SameReply (t : FileTree) (l₁ l₂ : Loader) (file : Path) : Prop :=
  ∃ r, Replies t l₁ file r ∧ Replies t l₂ file r

section

variable {t : FileTree} {S : List (List Step)} {root file : Path} {l l₁ l₂ : Loader}

theorem Replies.unique {r r' : Except Failure KeyMap} (h : Replies t l file r)
    (h' : Replies t l file r') : r = r' := by
  cases r with
  | error e =>
    obtain ⟨l', hx⟩ := h
    cases r' with
    | error e' =>
      obtain ⟨l'', hx'⟩ := h'
      cases hx.symm.trans hx'
      rfl
    | ok km =>
      obtain ⟨m, l'', hx', _⟩ := h'
      cases hx.symm.trans hx'
  | ok km =>
    obtain ⟨m, l', hx, hm⟩ := h
    cases r' with
    | error e' =>
      obtain ⟨l'', hx'⟩ := h'
      cases hx.symm.trans hx'
    | ok km' =>
      obtain ⟨m', l'', hx', hm'⟩ := h'
      cases hx.symm.trans hx'
      rw [hm.unique hm']

/-- What a loader remembers is what it replies. -/
theorem Loader.Remembers.replies (hs : l.Sound t S) {km : KeyMap}
    (h : l.Remembers file.steps km) : Replies t l file (.ok km) := by
  obtain ⟨m, hfind, hm⟩ := h
  exact ⟨m, l, exec_exportsOf_of_find? hs hfind, hm⟩

/-- Peers give the same reply. -/
theorem Peers.sameReply (hroot : t.isFile root) (hp : Peers t S root l₁ l₂) :
    SameReply t l₁ l₂ root := by
  rcases hx₁ : (walkExports t (walkFuel t l₁) [] root).exec l₁ with ⟨r₁, l₁'⟩
  rcases hx₂ : (walkExports t (walkFuel t l₂) [] root).exec l₂ with ⟨r₂, l₂'⟩
  have hexp₁ := exec_exportsOf t root l₁
  have hexp₂ := exec_exportsOf t root l₂
  rw [hx₁] at hexp₁
  rw [hx₂] at hexp₂
  have hstep := walk_inStep hroot (Call.start S root (le_walkFuel t l₁))
    (Call.start S root (le_walkFuel t l₂))
  rcases hstep l₁ l₂ r₁ r₂ l₁' l₂' hp hx₁ hx₂ with
    ⟨e, rfl, rfl⟩ | ⟨f₁, f₂, km, rfl, rfl, hf₁, hf₂, _, _⟩
  · exact ⟨.error e, ⟨l₁', hexp₁⟩, ⟨l₂', hexp₂⟩⟩
  · exact ⟨.ok km, ⟨f₁.value, l₁', hexp₁, hf₁⟩, ⟨f₂.value, l₂', hexp₂, hf₂⟩⟩

/-- A file that is reached is the one that the walk started from, or is reached by its plain
path. -/
theorem exists_path_of_reached {k : List Step}
    (h : ReflTransGen (Follows t S) root.steps k) :
    ∃ g, (g = root ∨ t.IsPlain g) ∧ g.steps = k := by
  cases h with
  | refl => exact ⟨root, Or.inl rfl, rfl⟩
  | tail _ hlast =>
    obtain ⟨p, s, _, _, part, hpart, g, hg, hk⟩ := hlast
    exact ⟨g, Or.inr (isPlain_of_mem_parts hpart hg), hk⟩

theorem Peers.of_reached (hp : Peers t S root l₁ l₂) {g : Path}
    (hreach : ReflTransGen (Follows t S) root.steps g.steps) : Peers t S g l₁ l₂ :=
  ⟨hp.sound₁, hp.sound₂, hp.consistent₁, hp.consistent₂,
    fun k hk => hp.agree k (hreach.trans hk)⟩

end

/-- After any two histories of questions, two loaders reply the same about all that is reached from a
file and remember the same of the files on cycles there, exactly if they remember the same *about*
those files on cycles: nothing else that they were asked before makes a difference. -/
theorem same_replies_iff_agree (t : FileTree) (sealedFiles : List Path) (qs₁ qs₂ : List Query)
    (file : Path) (hfile : t.isFile file) :
    ((∀ g, g = file ∨ t.IsPlain g →
        ReflTransGen (Follows t (sealedFiles.map Path.steps)) file.steps g.steps →
        SameReply t (asked t sealedFiles qs₁) (asked t sealedFiles qs₂) g) ∧
      ∀ k, ReflTransGen (Follows t (sealedFiles.map Path.steps)) file.steps k →
        OnCycle t (sealedFiles.map Path.steps) k →
        ((∃ km, (asked t sealedFiles qs₁).Remembers k km) ↔
          ∃ km, (asked t sealedFiles qs₂).Remembers k km)) ↔
      Agree t (sealedFiles.map Path.steps) file (asked t sealedFiles qs₁)
        (asked t sealedFiles qs₂) := by
  obtain ⟨hs₁, hl₁⟩ := asked_keeps t sealedFiles qs₁
  obtain ⟨hs₂, hl₂⟩ := asked_keeps t sealedFiles qs₂
  generalize asked t sealedFiles qs₁ = l₁ at *
  generalize asked t sealedFiles qs₂ = l₂ at *
  constructor
  · rintro ⟨hreply, hknown⟩
    -- a file on a cycle that both remember: asking for it shows what they remember
    have hsame : ∀ k, ReflTransGen (Follows t (sealedFiles.map Path.steps)) file.steps k →
        ∀ km km', l₁.Remembers k km → l₂.Remembers k km' → km = km' := by
      intro k hreach km km' h h'
      obtain ⟨g, hg, rfl⟩ := exists_path_of_reached hreach
      obtain ⟨r, hr₁, hr₂⟩ := hreply g hg hreach
      cases hr₁.unique (h.replies hs₁)
      cases hr₂.unique (h'.replies hs₂)
      rfl
    intro k hreach hc km
    constructor
    · intro h
      obtain ⟨km', h'⟩ := (hknown k hreach hc).mp ⟨km, h⟩
      rw [hsame k hreach km km' h h']
      exact h'
    · intro h
      obtain ⟨km', h'⟩ := (hknown k hreach hc).mpr ⟨km, h⟩
      rw [← hsame k hreach km' km h' h]
      exact h'
  · intro hag
    have hp : Peers t (sealedFiles.map Path.steps) file l₁ l₂ := ⟨hs₁, hs₂, hl₁, hl₂, hag⟩
    constructor
    · rintro g hg hreach
      refine (hp.of_reached hreach).sameReply ?_
      rcases hg with rfl | hg
      · exact hfile
      · exact hg.isFile
    · intro k hreach hc
      exact exists_congr fun km => hag k hreach hc km

def reveal (d : DeclTable) (m : ExportMap) : List (String × List (Option Identity)) :=
  m.entries.map fun e => (e.1, e.2.map fun id => (d.get? id).map DeclKey.identity)

theorem map_names {d : DeclTable} {ids : List DeclId} {ks : List Identity}
    (h : List.Forall₂ d.Names ids ks) :
    (ids.map fun id => (d.get? id).map DeclKey.identity) = ks.map some := by
  induction h with
  | nil => rfl
  | cons hn _ ih =>
    obtain ⟨key, hget, rfl⟩ := hn
    rw [List.map_cons, List.map_cons, ih, hget, Option.map_some]

theorem Shows.reveal_eq {d : DeclTable} {m : ExportMap} {km : KeyMap} (h : Shows d m km) :
    reveal d m = km.entries.map fun e => (e.1, e.2.map some) := by
  unfold reveal
  simp only [Shows, RelatedTables] at h
  generalize m.entries = es at h
  generalize km.entries = es' at h
  induction h with
  | nil => rfl
  | cons he _ ih => rw [List.map_cons, List.map_cons, ih, he.1, map_names he.2]

/-- The reply in full, by the declarations that it is about. -/
def revealed (t : FileTree) (l : Loader) (file : Path) :
    Option (List (String × List (Option Identity))) :=
  match (exportsOf t file).exec l with
  | (.ok m, l') => some (reveal l'.decls m)
  | (.error _, _) => none

/-- A reply in full shows what the loader replies. -/
theorem Replies.revealed_eq {t : FileTree} {l : Loader} {file : Path} {r : Except Failure KeyMap}
    (h : Replies t l file r) :
    revealed t l file = r.toOption.map fun km => km.entries.map fun e => (e.1, e.2.map some) := by
  unfold revealed
  cases r with
  | error e =>
    obtain ⟨l', hx⟩ := h
    rw [hx]
    rfl
  | ok km =>
    obtain ⟨m, l', hx, hm⟩ := h
    rw [hx]
    exact congrArg some hm.reveal_eq

theorem SameReply.revealed_eq {t : FileTree} {l₁ l₂ : Loader} {file : Path}
    (h : SameReply t l₁ l₂ file) : revealed t l₁ file = revealed t l₂ file := by
  obtain ⟨r, h₁, h₂⟩ := h
  rw [h₁.revealed_eq, h₂.revealed_eq]

/-- Two files that pass on each other, and each of them another declaration of one name. -/
def rivals : FileTree := ⟨⟨[
  (["a.ts"], .file (.text "export*from'./b';export*from'./d'")),
  (["b.ts"], .file (.text "export*from'./a';export*from'./c'")),
  (["c.ts"], .file (.text "export{x}")),
  (["d.ts"], .file (.text "export{x}"))]⟩⟩

/-- The reply about the second file depends on whether the first one was asked for before, so the
loaders remember different things of the files on the cycle. -/
theorem rivals_disagree :
    rivals.isFile ⟨true, ["b.ts"]⟩ ∧
      ¬ SameReply rivals (asked rivals [] []) (asked rivals [] [.exports ⟨true, ["a.ts"]⟩])
        ⟨true, ["b.ts"]⟩ ∧
      ¬ Agree rivals [] ⟨true, ["b.ts"]⟩ (asked rivals [] [])
        (asked rivals [] [.exports ⟨true, ["a.ts"]⟩]) := by
  have hfile : rivals.isFile ⟨true, ["b.ts"]⟩ := by decide +kernel
  have hne : ¬ SameReply rivals (asked rivals [] [])
      (asked rivals [] [.exports ⟨true, ["a.ts"]⟩]) ⟨true, ["b.ts"]⟩ := by
    intro h
    have hfresh : revealed rivals (asked rivals [] []) ⟨true, ["b.ts"]⟩ =
        some [("x", [some ⟨.file [.root, .name "d.ts"], "x", .value⟩])] := by decide +kernel
    have hlater : revealed rivals (asked rivals [] [.exports ⟨true, ["a.ts"]⟩]) ⟨true, ["b.ts"]⟩ =
        some [("x", [some ⟨.file [.root, .name "c.ts"], "x", .value⟩])] := by decide +kernel
    have heq := h.revealed_eq
    rw [hfresh, hlater] at heq
    exact absurd heq (by decide)
  refine ⟨hfile, hne, ?_⟩
  intro hag
  have hreply := ((same_replies_iff_agree rivals [] [] [.exports ⟨true, ["a.ts"]⟩]
    ⟨true, ["b.ts"]⟩ hfile).mpr hag).1
  exact hne (hreply _ (Or.inl rfl) .refl)

end BarrelAlias.Linkage
