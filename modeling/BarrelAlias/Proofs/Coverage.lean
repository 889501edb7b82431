import BarrelAlias.Proofs.QueryOrder
import BarrelAlias.Proofs.Tandem

/-!
How much of what can be reached shows in an answer. An answer that was cut covers the files that are
reached without coming to a file where it was cut; so once no cut reaches above a file, its answer
covers all that is reached from it, and only such answers are remembered. Whatever is to be shown about
answers on cycles is then left to one run through the parts of one file. The first use of this is that
no file that cannot be read is ever hidden behind a cut or behind what is remembered.
-/

namespace BarrelAlias.Linkage

open Loader Relation

namespace Low

theorem exists_min_le {a b : Low} {n : Nat} (h : a = some n ∨ b = some n) :
    ∃ n' ≤ n, a.min b = some n' := by
  cases a with
  | none =>
    rw [min_none_left]
    rcases h with h | h
    · cases h
    · exact ⟨n, Nat.le_refl n, h⟩
  | some x =>
    cases b with
    | none =>
      rcases h with h | h
      · exact ⟨n, Nat.le_refl n, h⟩
      · cases h
    | some y =>
      refine ⟨Nat.min x y, ?_, rfl⟩
      rcases h with h | h
      · cases h
        exact Nat.min_le_left n y
      · cases h
        exact Nat.min_le_right x n

/-- The topmost of some cuts is at least as high as each of them. -/
theorem exists_lowest_le {as : List (Found KeyMap)} {low : Low} {n : Nat}
    (h : low = some n ∨ ∃ a ∈ as, a.low = some n) : ∃ n' ≤ n, lowest low as = some n' := by
  induction as generalizing low n with
  | nil =>
    rcases h with h | ⟨a, ha, _⟩
    · exact ⟨n, Nat.le_refl n, h⟩
    · cases ha
  | cons b as ih =>
    have hstep : ∀ {n}, low = some n ∨ b.low = some n →
        ∃ n' ≤ n, lowest low (b :: as) = some n' := by
      intro n hn
      obtain ⟨n₁, hle, hmin⟩ := exists_min_le hn
      obtain ⟨n', hle', hlow⟩ := ih (Or.inl hmin)
      exact ⟨n', Nat.le_trans hle' hle, hlow⟩
    rcases h with h | ⟨a, ha, hlow⟩
    · exact hstep (Or.inl h)
    · rcases List.mem_cons.mp ha with rfl | ha
      · exact hstep (Or.inr hlow)
      · exact ih (Or.inr ⟨a, ha, hlow⟩)

end Low

/-- The file stands in the trail, no higher than the cut: the walk may have been cut there. -/
def Barred (trail : Trail) (low : Low) (k : List Step) : Prop :=
  ∃ n d, low = some n ∧ depthIn? k trail = some d ∧ n ≤ d

/-- The second file is reached from the first, and no file on the way is in `B`, neither end either. -/
inductive Reaches (t : FileTree) (S : List (List Step)) (B : List Step → Prop) :
    List Step → List Step → Prop
  | here {k : List Step} : ¬ B k → Reaches t S B k k
  | step {a b k : List Step} : ¬ B a → Follows t S a b → Reaches t S B b k → Reaches t S B a k

section

variable {t : FileTree} {S : List (List Step)} {B B' : List Step → Prop} {a k : List Step}
  {trail : Trail} {low : Low}

theorem Reaches.mono (hB : ∀ k, B' k → B k) (h : Reaches t S B a k) : Reaches t S B' a k := by
  induction h with
  | here hk => exact .here fun h => hk (hB _ h)
  | step ha hab _ ih => exact .step (fun h => ha (hB _ h)) hab ih

theorem reaches_of_reflTransGen (hB : ∀ k, ¬ B k) (h : ReflTransGen (Follows t S) a k) :
    Reaches t S B a k := by
  induction h using ReflTransGen.head_induction_on with
  | refl => exact .here (hB k)
  | head hab _ ih => exact .step (hB _) hab ih

/-- A way that may come to `f` has a last visit there. -/
theorem Reaches.last_visit (h : Reaches t S B a k) (f : List Step) :
    Reaches t S (fun x => x = f ∨ B x) a k ∨ k = f ∨
      ∃ c, Follows t S f c ∧ Reaches t S (fun x => x = f ∨ B x) c k := by
  induction h with
  | @here k hk =>
    by_cases hf : k = f
    · exact Or.inr (Or.inl hf)
    · exact Or.inl (.here fun h => h.elim hf hk)
  | @step a b k ha hab _ ih =>
    rcases ih with hway | hlast
    · by_cases hf : a = f
      · subst hf
        exact Or.inr (Or.inr ⟨b, hab, hway⟩)
      · exact Or.inl (.step (fun h => h.elim hf ha) hab hway)
    · exact Or.inr hlast

theorem Reaches.not_start (h : Reaches t S B a k) : ¬ B a := by
  cases h with
  | here hk => exact hk
  | step ha => exact ha

theorem Reaches.reflTransGen (h : Reaches t S B a k) : ReflTransGen (Follows t S) a k := by
  induction h with
  | here => exact .refl
  | step _ hab _ ih => exact .head hab ih

theorem not_barred_of_isWithin (h : low.isWithin trail.length) (k : List Step) :
    ¬ Barred trail low k := by
  rintro ⟨n, d, rfl, hd, hle⟩
  have hlt := depthIn?_lt hd
  have hn : trail.length ≤ n := by simpa [Low.isWithin] using h
  omega

/-- What is barred to the files that a file points to is the file itself, or barred to it. -/
theorem Barred.of_child {f : List Step} {as : List (Found KeyMap)} {b : Found KeyMap} (hb : b ∈ as)
    (h : Barred (f :: trail) b.low k) : k = f ∨ Barred trail (Low.lowest none as) k := by
  obtain ⟨n, d, hlow, hd, hle⟩ := h
  obtain ⟨n', hle', hlow'⟩ : ∃ n' ≤ n, Low.lowest none as = some n' :=
    Low.exists_lowest_le (Or.inr ⟨b, hb, hlow⟩)
  rw [depthIn?] at hd
  split at hd
  · next hf => exact Or.inl hf.symm
  · exact Or.inr ⟨n', d, hlow', hd, Nat.le_trans hle' hle⟩

end

/-- How what is known of answers spreads through the files in `R`: every answer about a file is as `C`
says, be it cut, and an answer covers other files as `P` says. A run through the parts of a file covers
the file itself and all that the answers to its parts cover. -/
structure Spreads (t : FileTree) (S : List (List Step)) (R : List Step → Prop)
    (C : List Step → KeyMap → Prop) (P : List Step → List Step → KeyMap → Prop) : Prop where
  closed : ∀ a b, R a → Follows t S a b → R b
  cut : ∀ k, R k → C k .empty
  made : ∀ (file : Path) s as, R file.steps → SummaryOf t file.steps s →
    List.Forall₂ (Answers fun g a => C g.steps a.value) (parts t S file s) as →
    C file.steps (assemble (parts t S file s) (as.map Found.value)) ∧
      P file.steps file.steps (assemble (parts t S file s) (as.map Found.value)) ∧
      ∀ p a g, (p, a) ∈ (parts t S file s).zip as → p.target? = some g →
        ∀ k, P g.steps k a.value →
          P file.steps k (assemble (parts t S file s) (as.map Found.value))

section

variable {t : FileTree} {S : List (List Step)} {R : List Step → Prop}
  {C : List Step → KeyMap → Prop} {P : List Step → List Step → KeyMap → Prop}

/-- What the loader remembers of files in `R` is as `C` says and covers all that is reached. -/
def Loader.Covers (t : FileTree) (S : List (List Step)) (R : List Step → Prop)
    (C : List Step → KeyMap → Prop) (P : List Step → List Step → KeyMap → Prop) (l : Loader) : Prop :=
  ∀ k km, R k → l.Remembers k km →
    C k km ∧ ∀ k', ReflTransGen (Follows t S) k k' → P k k' km

/-- What is found in a file of `R` is as `C` says and covers all that is reached past its cuts. -/
def CoveredTo (t : FileTree) (S : List (List Step)) (R : List Step → Prop)
    (C : List Step → KeyMap → Prop) (P : List Step → List Step → KeyMap → Prop) (trail : Trail)
    (g : Path) (a : Found KeyMap) : Prop :=
  R g.steps → C g.steps a.value ∧
    ∀ k, Reaches t S (Barred trail a.low) g.steps k → P g.steps k a.value

variable {l l' : Loader} {trail : Trail} {file root : Path} {fuel : Nat}

/-- Every part has an answer that stands beside it. -/
theorem exists_mem_zip {Q : Path → Found KeyMap → Prop} {ps : List Part} {as : List (Found KeyMap)}
    (h : List.Forall₂ (Answers Q) ps as) {p : Part} (hp : p ∈ ps) : ∃ a, (p, a) ∈ ps.zip as := by
  induction h with
  | nil => cases hp
  | @cons q b ps as _ _ ih =>
    rcases List.mem_cons.mp hp with rfl | hp
    · exact ⟨b, List.mem_cons_self ..⟩
    · obtain ⟨a, ha⟩ := ih hp
      exact ⟨a, List.mem_cons_of_mem _ ha⟩

theorem Answers.of_target? {Q : Path → Found KeyMap → Prop} {p : Part} {a : Found KeyMap}
    (h : Answers Q p a) {g : Path} (hg : p.target? = some g) : Q g a := by
  unfold Answers at h
  rw [hg] at h
  exact h

theorem Loader.Covers.of_quiet (hq : l.Quiet l') (hs : l.Sound t S) (h : l.Covers t S R C P) :
    l'.Covers t S R C P := fun k km hR hk => h k km hR ((remembers_congr hq hs).mp hk)

/-- The answer to a run through the parts of a file. -/
theorem Spreads.coveredTo (h : Spreads t S R C P) {s : Summary} (hsum : SummaryOf t file.steps s)
    {as : List (Found KeyMap)}
    (has : List.Forall₂ (Answers (CoveredTo t S R C P (file.steps :: trail))) (parts t S file s) as) :
    CoveredTo t S R C P trail file
      ⟨assemble (parts t S file s) (as.map Found.value), Low.lowest none as⟩ := by
  intro hR
  have hchild : ∀ p ∈ parts t S file s, ∀ g, p.target? = some g → R g.steps :=
    fun p hp g hg => h.closed _ _ hR (follows_of_mem_parts hsum hp hg)
  have hC : List.Forall₂ (Answers fun g a => C g.steps a.value) (parts t S file s) as := by
    refine List.forall₂_iff_zip.mpr ⟨has.length_eq, ?_⟩
    intro p a hpa
    refine (List.forall₂_zip has hpa).imp ?_
    intro g hg hcov
    exact (hcov (hchild p (List.of_mem_zip hpa).1 g hg)).1
  obtain ⟨hmade, hself, hpass⟩ := h.made file s as hR hsum hC
  refine ⟨hmade, ?_⟩
  intro k hk
  -- from the last visit to the file on, the way runs through one of its parts
  have hlater : ∀ c, Follows t S file.steps c →
      Reaches t S (fun x => x = file.steps ∨ Barred trail (Low.lowest none as) x) c k →
      P file.steps k (assemble (parts t S file s) (as.map Found.value)) := by
    rintro c ⟨q, s', hq, hread, p, hp, g, hg, rfl⟩ hway
    cases hsum.unique ⟨q, hq, hread⟩
    rw [parts_congr t S hq (rooted_of_readModule hread)] at hp
    obtain ⟨a, hpa⟩ := exists_mem_zip has hp
    refine hpass p a g hpa hg k ?_
    have hans := (List.forall₂_zip has hpa).of_target? hg
    refine (hans (hchild p hp g hg)).2 k (hway.mono ?_)
    intro x hx
    exact hx.of_child (List.of_mem_zip hpa).2
  rcases hk.last_visit file.steps with hway | rfl | ⟨c, hc, hway⟩
  · exact absurd (Or.inl rfl) hway.not_start
  · exact hself
  · exact hlater c hc hway

/-- An answer that no cut reaches above may be remembered. -/
theorem Loader.Covers.settle (h : l.Covers t S R C P) {m : ExportMap} {km : KeyMap} {low : Low}
    (hm : Shows l.decls m km) (hcov : CoveredTo t S R C P trail file ⟨km, low⟩)
    (hw : low.isWithin trail.length) : (l.settle file.steps m).Covers t S R C P := by
  intro k km' hR hk
  by_cases he : k = file.steps
  · subst he
    rw [hk.unique (remembers_settle_self hm)]
    obtain ⟨hC, hP⟩ := hcov hR
    refine ⟨hC, ?_⟩
    intro k' hreach
    exact hP k' (reaches_of_reflTransGen (not_barred_of_isWithin hw) hreach)
  · exact h k km' hR ((remembers_settle_of_ne he).mp hk)

/-- A step of the walk finds what covers all that is reached past its cuts, and remembers only what
covers all. -/
theorem Walked.covers (h : Spreads t S R C P) {r : Except Failure (Found ExportMap)}
    (hstep : Walked t S fuel trail file l r l')
    (he : ∀ s, SummaryOf t file.steps s → file.steps ∉ trail →
      ∀ p ∈ parts t S file s, ∀ g, p.target? = some g →
        Enters t S (walkExports t fuel (file.steps :: trail)) (Covers t S R C P)
          (fun _ => CoveredTo t S R C P (file.steps :: trail)) (fun _ => True) g)
    (hs : l.Sound t S) (hl : l.Covers t S R C P) :
    l'.Covers t S R C P ∧ ∀ found km, r = .ok found → Shows l'.decls found.value km →
      CoveredTo t S R C P trail file ⟨km, found.low⟩ := by
  have hquiet : ∀ l l' : Loader, l.Quiet l' → l.Sound t S → l.Covers t S R C P →
      l'.Covers t S R C P := fun _ _ hq hs h => h.of_quiet hq hs
  cases hstep with
  | @hit m hfind =>
    refine ⟨hl, ?_⟩
    intro found km hr hkm hR
    cases hr
    obtain ⟨hC, hP⟩ := hl _ km hR ⟨m, hfind, hkm⟩
    exact ⟨hC, fun k hk => hP k hk.reflTransGen⟩
  | @cut d _ hdepth =>
    refine ⟨hl, ?_⟩
    intro found km hr hkm hR
    cases hr
    rw [hkm.unique (shows_empty l.decls)]
    refine ⟨h.cut _ hR, ?_⟩
    intro k hk
    exact absurd ⟨d, d, rfl, hdepth, Nat.le_refl d⟩ hk.not_start
  | unread => exact ⟨hl, by simp⟩
  | broken _ hnot hsum hb => exact ⟨(hb.spec hquiet (he _ hsum hnot) hs hl).1, by simp⟩
  | @done s as m l₁ _ hnot hsum hm hsh =>
    obtain ⟨hl₁, has⟩ := hm.spec hquiet (fun _ _ _ _ _ hQ => hQ) (he s hsum hnot) hs hl
    have hcov := h.coveredTo hsum has
    constructor
    · split
      · next hw => exact hl₁.settle hsh hcov hw
      · exact hl₁
    · intro found km hr hkm
      cases hr
      rw [decls_settled] at hkm
      rw [hkm.unique hsh]
      exact hcov

theorem walk_covers (h : Spreads t S R C P) (hcall : Call t S root fuel trail file) :
    Enters t S (walkExports t fuel trail) (Covers t S R C P)
      (fun _ => CoveredTo t S R C P trail) (fun _ => True) file := by
  induction fuel generalizing trail file with
  | zero =>
    obtain ⟨n, hn⟩ := hcall.fuel_pos
    cases hn
  | succ fuel ih =>
    intro l r l' hs hl hx
    obtain ⟨hl', hcov⟩ := (walked_of_exec hs hx).covers h
      (fun s hsum hnot p hp g hg => ih (hcall.child hnot hsum hp hg)) hs hl
    exact ⟨hl', fun _ _ => trivial, hcov⟩

theorem Query.after_covers (h : Spreads t S R C P) (hs : l.Sound t S) (hl : l.Covers t S R C P)
    (q : Query) : (q.after t l).Covers t S R C P := by
  refine q.after_preserves (fun hq hs hl => hl.of_quiet hq hs) ?_ hs hl
  intro l l' fuel r file hfuel hs hl hx
  exact (walk_covers h (Call.start S file hfuel) l r l' hs hl hx).1

end

section

variable {t : FileTree} {sealedFiles : List Path} {R : List Step → Prop}
  {C : List Step → KeyMap → Prop} {P : List Step → List Step → KeyMap → Prop}

/-- What a loader remembers covers all that is reached, whatever it was asked for. -/
theorem asked_covers (h : Spreads t (sealedFiles.map Path.steps) R C P) (qs : List Query) :
    (asked t sealedFiles qs).Covers t (sealedFiles.map Path.steps) R C P :=
  asked_preserves (Query.after_covers h)
    (fun k km _ hk => absurd hk (not_remembers_sealing sealedFiles k km)) qs

/-- An answer about a file in `R` covers all that is reached from it. -/
theorem exports_cover (h : Spreads t (sealedFiles.map Path.steps) R C P) {qs : List Query}
    {file : Path} (hR : R file.steps) {m : ExportMap} {l' : Loader}
    (hx : (exportsOf t file).exec (asked t sealedFiles qs) = (.ok m, l')) :
    ∃ km, Shows l'.decls m km ∧ C file.steps km ∧
      ∀ k, ReflTransGen (Follows t (sealedFiles.map Path.steps)) file.steps k →
        P file.steps k km := by
  have hs := asked_sound t sealedFiles qs
  obtain ⟨hs', _, hfind⟩ := find?_of_exec_exportsOf hs hx
  have hl' := Query.after_covers h hs (asked_covers h qs) (.exports file)
  rw [Query.after, hx] at hl'
  obtain ⟨km, hkm⟩ := hs'.exports_ok _ m hfind
  exact ⟨km, hkm, hl' _ km hR ⟨m, hfind, hkm⟩⟩

end

section

variable {t : FileTree} {S : List (List Step)}

/-- The first file can be read and draws on the second one: it passes it on, or exports something that
it takes from it by name, and the second file is not sealed. -/
def Draws (t : FileTree) (S : List (List Step)) (a b : List Step) : Prop :=
  ∃ p s source what g, p.steps = a ∧ readModule t p = .ok s ∧ s.Takes source what ∧
    what ≠ some .all ∧ resolve? t p source = some g ∧ g.steps ∉ S ∧ g.steps = b

/-- The walk leads to the files that a file draws on. -/
theorem follows_eq_draws : Follows t S = Draws t S := by
  funext a b
  refine propext ⟨?_, ?_⟩
  · rintro ⟨p, s, hp, hread, part, hpart, g, hg, hb⟩
    obtain ⟨source, what, htakes, hres, hne, hopen⟩ := takes_of_mem_parts hpart hg
    exact ⟨p, s, source, what, g, hp, hread, htakes, hne, hres, hopen, hb⟩
  · rintro ⟨p, s, source, what, g, hp, hread, htakes, hne, hres, hopen, hb⟩
    obtain ⟨part, hpart, hg⟩ := htakes.exists_part hres hne hopen
    exact ⟨p, s, hp, hread, part, hpart, g, hg, hb⟩

/-- A loader fails only at a file that is reached and cannot be read. -/
theorem unread_of_exec_exportsOf {l l' : Loader} (hs : l.Sound t S) (hl : l.Consistent t S)
    {file : Path} {e : Failure} (hx : (exportsOf t file).exec l = (.error e, l')) :
    Unread t S file e := by
  rw [exec_exportsOf] at hx
  rcases hw : (walkExports t (walkFuel t l) [] file).exec l with ⟨r, l₁⟩
  obtain ⟨_, hE, _⟩ := walk_enters (Call.start S file (le_walkFuel t l)) l r l₁ hs hl hw
  rw [hw] at hx
  cases r with
  | ok found => cases hx
  | error e' =>
    cases hx
    exact hE e rfl

/-- Every answer covers only files that can be read. -/
theorem spreads_summaryOf (t : FileTree) (S : List (List Step)) :
    Spreads t S (fun _ => True) (fun _ _ => True) fun _ k _ => ∃ s, SummaryOf t k s where
  closed _ _ _ _ := trivial
  cut _ _ := trivial
  made _ s _ _ hsum _ := ⟨trivial, ⟨s, hsum⟩, fun _ _ _ _ _ _ h => h⟩

end

/-- After any history of questions, a loader that is asked for the exports of a file fails exactly if
the file, or one that is reached from it through the files that draw on each other, cannot be read or
parsed. The path is that of a file, or no path with its steps can be read. -/
theorem exports_fail_iff (t : FileTree) (sealedFiles : List Path) (qs : List Query) (file : Path)
    (hfile : t.isFile file ∨ ∀ s, ¬ SummaryOf t file.steps s) :
    (∃ e l', (exportsOf t file).exec (asked t sealedFiles qs) = (.error e, l')) ↔
      ∃ g e, (g = file ∨ t.IsPlain g) ∧
        ReflTransGen (Draws t (sealedFiles.map Path.steps)) file.steps g.steps ∧
        readModule t g = .error e := by
  rw [← follows_eq_draws]
  constructor
  · rintro ⟨e, l', hx⟩
    obtain ⟨hs, hl⟩ := asked_keeps t sealedFiles qs
    obtain ⟨g, hg, hreach, hread⟩ := unread_of_exec_exportsOf hs hl hx
    exact ⟨g, e, hg, hreach, hread⟩
  · rintro ⟨g, e, hg, hreach, hread⟩
    rcases hx : (exportsOf t file).exec (asked t sealedFiles qs) with ⟨r, l'⟩
    cases r with
    | error e' => exact ⟨e', l', rfl⟩
    | ok m =>
      obtain ⟨_, _, _, hcover⟩ := exports_cover (spreads_summaryOf t _) trivial hx
      obtain ⟨s, hsum⟩ := hcover g.steps hreach
      have hgfile : t.isFile g := by
        rcases hg with rfl | hg
        · exact hfile.resolve_right fun h => h s hsum
        · exact hg.isFile
      rw [readModule_of_isFile hgfile hsum] at hread
      cases hread

/-- Two files that pass on each other, a third that takes from both, and a fourth that cannot be
parsed: the first names it as a whole and imports from it what it does not export, the third exports
what it imports from it. -/
def faulty : FileTree := ⟨⟨[
  (["a.ts"], .file (.text "import{u}from'./d';export*from'./b';export*as n from'./d'")),
  (["b.ts"], .file (.text "export*from'./a';export{x}from'./a'")),
  (["c.ts"], .file (.text "import{v}from'./d';export{x}from'./b';export{v as default}")),
  (["d.ts"], .file (.text "export\x7b"))]⟩⟩

/-- The second file is answered for and the third one is not, whichever of them was asked for
before. -/
theorem faulty_fails :
    (∃ e l', (exportsOf faulty ⟨true, ["c.ts"]⟩).exec
        (asked faulty [] [.exports ⟨true, ["b.ts"]⟩]) = (.error e, l')) ∧
      (∃ g e, (g = ⟨true, ["c.ts"]⟩ ∨ faulty.IsPlain g) ∧
        ReflTransGen (Draws faulty []) [.root, .name "c.ts"] g.steps ∧
        readModule faulty g = .error e) ∧
      ¬ ∃ g e, (g = ⟨true, ["b.ts"]⟩ ∨ faulty.IsPlain g) ∧
        ReflTransGen (Draws faulty []) [.root, .name "b.ts"] g.steps ∧
        readModule faulty g = .error e := by
  have hfails : revealed faulty (asked faulty [] [.exports ⟨true, ["b.ts"]⟩]) ⟨true, ["c.ts"]⟩ =
      none := by decide +kernel
  have hanswers : revealed faulty (asked faulty [] [.exports ⟨true, ["c.ts"]⟩]) ⟨true, ["b.ts"]⟩ =
      some [("n", [some ⟨.file [.root, .name "d.ts"], "*", .value⟩])] := by decide +kernel
  have hfile : ∀ p ∈ [⟨true, ["b.ts"]⟩, ⟨true, ["c.ts"]⟩], faulty.isFile p := by decide +kernel
  have hc := exports_fail_iff faulty [] [.exports ⟨true, ["b.ts"]⟩] ⟨true, ["c.ts"]⟩
    (Or.inl (hfile _ (by simp)))
  have hb := exports_fail_iff faulty [] [.exports ⟨true, ["c.ts"]⟩] ⟨true, ["b.ts"]⟩
    (Or.inl (hfile _ (by simp)))
  have herror : ∃ e l', (exportsOf faulty ⟨true, ["c.ts"]⟩).exec
      (asked faulty [] [.exports ⟨true, ["b.ts"]⟩]) = (.error e, l') := by
    unfold revealed at hfails
    split at hfails
    · cases hfails
    · next e l' hx => exact ⟨e, l', hx⟩
  refine ⟨herror, hc.mp herror, ?_⟩
  intro hunread
  obtain ⟨e, l', hx⟩ := hb.mpr hunread
  rw [revealed, hx] at hanswers
  cases hanswers

end BarrelAlias.Linkage
