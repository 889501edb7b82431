import BarrelAlias.Proofs.History

/-!
Exports without cycles. The plain recursion remembers nothing and cuts nothing: it follows each part
of a file into the file that it points to, down to a depth that no chain of different files exceeds.
Where no cycle can be reached from a file and all files that are reached can be read, a loader
answers what the plain recursion gives, whatever it was asked before.
-/

namespace BarrelAlias.Linkage

open Loader Relation

/-- The exports of a file by plain recursion down to a depth. -/
def plainExports (t : FileTree) (S : List (List Step)) : Nat → Path → KeyMap
  | 0, _ => .empty
  | depth + 1, file =>
    match readModule t file with
    | .error _ => .empty
    | .ok s =>
      assemble (parts t S file s)
        ((parts t S file s).map (Part.answer (plainExports t S depth)))

/-- All files that are reached from the file can be read, and it can be read itself. -/
def AllRead (t : FileTree) (S : List (List Step)) (root : Path) : Prop :=
  ∀ g, g = root ∨ t.IsPlain g → ReflTransGen (Follows t S) root.steps g.steps →
    ∃ s, readModule t g = .ok s

/-- No file that is reached from the file is on a cycle. -/
def Acyclic (t : FileTree) (S : List (List Step)) (root : Path) : Prop :=
  ∀ k, ReflTransGen (Follows t S) root.steps k → ¬ OnCycle t S k

section

variable {t : FileTree} {S : List (List Step)} {root : Path}

theorem AllRead.not_unread (h : AllRead t S root) (e : Failure) : ¬ Unread t S root e := by
  rintro ⟨g, hg, hreach, hread⟩
  obtain ⟨s, hs⟩ := h g hg hreach
  rw [hs] at hread
  cases hread

/-- What is built without cycles is what the plain recursion gives. -/
theorem Built.eq_plainExports (hread : AllRead t S root) (hacyc : Acyclic t S root)
    {R : List Step → KeyMap → Prop} {k : List Step} {km : KeyMap} (h : Built t S R k km)
    {fuel : Nat} {trail : Trail} {file : Path} (hcall : Call t S root fuel trail file)
    (hk : file.steps = k) : plainExports t S fuel file = km := by
  induction h generalizing fuel trail file with
  | cyclic hc =>
    subst hk
    exact absurd hc (hacyc _ hcall.reached)
  | @made k p s M hc hp hr _ ih =>
    subst hk
    obtain ⟨n, rfl⟩ := hcall.fuel_pos
    obtain ⟨s', hs'⟩ := hread file hcall.here hcall.reached
    have hsum : SummaryOf t file.steps s' := ⟨file, rfl, hs'⟩
    cases hsum.unique ⟨p, hp, hr⟩
    rw [parts_congr t S hp (rooted_of_readModule hr) s] at ih ⊢
    have hnot := hcall.not_mem_trail hc
    have hmap : (parts t S file s).map (Part.answer (plainExports t S n)) =
        (parts t S file s).map (Part.answer M) := by
      refine map_answer_congr ?_
      intro part hpart g hg
      exact ih part hpart g hg (hcall.child hnot hsum hpart hg) rfl
    rw [plainExports, hs', ← hmap]

/-- A consistent loader that is asked for the exports of a file from which no cycle is reached
answers what the plain recursion gives. -/
theorem exec_exportsOf_of_acyclic {l : Loader} (hs : l.Sound t S) (hl : l.Consistent t S)
    (hread : AllRead t S root) (hacyc : Acyclic t S root) :
    ∃ m l', (exportsOf t root).exec l = (.ok m, l') ∧
      ∀ depth, t.nodes.size + 2 ≤ depth → Shows l'.decls m (plainExports t S depth root) := by
  rw [exec_exportsOf]
  rcases hx : (walkExports t (walkFuel t l) [] root).exec l with ⟨r, l'⟩
  obtain ⟨_, _, hshow⟩ := walk_keeps t S _ _ root l r l' hs hx
  obtain ⟨hl', hunread, hleaves⟩ :=
    walk_enters (Call.start S root (le_walkFuel t l)) l r l' hs hl hx
  cases r with
  | error e => exact absurd (hunread e rfl) (hread.not_unread e)
  | ok found =>
    obtain ⟨km, hkm⟩ := hshow found rfl
    obtain ⟨hcut, hrem⟩ := hleaves found km rfl hkm
    have hroot : ¬ OnCycle t S root.steps := hacyc _ .refl
    have hwithin := (Call.start S root (le_walkFuel t l)).isWithin hroot hcut
    have hbuilt := hl' root.steps km hroot (hrem hwithin)
    refine ⟨found.value, l', rfl, ?_⟩
    intro depth hdepth
    rw [hbuilt.eq_plainExports hread hacyc (Call.start S root hdepth) rfl]
    exact hkm

end

/-- The files can all be read, and each of them passes on only files that come after it. -/
def inOrder (t : FileTree) (S : List (List Step)) : List Path → Bool
  | [] => true
  | p :: ps =>
    let later := ps.map Path.steps
    (match readModule t p with
      | .error _ => false
      | .ok s => (parts t S p s).all fun part => part.target?.all fun g => later.contains g.steps)
      && !later.contains p.steps && inOrder t S ps

section

variable {t : FileTree} {S : List (List Step)}

theorem inOrder_cons {p : Path} {ps : List Path} (h : inOrder t S (p :: ps)) :
    (∃ s, readModule t p = .ok s) ∧
      (∀ k, Follows t S p.steps k → k ∈ ps.map Path.steps) ∧
      p.steps ∉ ps.map Path.steps ∧ inOrder t S ps := by
  rw [inOrder] at h
  simp only [Bool.and_eq_true, Bool.not_eq_true', List.contains_eq_mem,
    decide_eq_false_iff_not] at h
  obtain ⟨⟨hp, hnot⟩, hps⟩ := h
  cases hr : readModule t p with
  | error e =>
    rw [hr] at hp
    cases hp
  | ok s =>
    rw [hr] at hp
    refine ⟨⟨s, rfl⟩, ?_, hnot, hps⟩
    rintro k ⟨q, s', hq, hr', part, hpart, g, hg, rfl⟩
    cases SummaryOf.unique ⟨q, hq, hr'⟩ ⟨p, rfl, hr⟩
    rw [parts_congr t S hq (rooted_of_readModule hr')] at hpart
    have hall := List.all_eq_true.mp hp part hpart
    simpa [hg] using hall

theorem mem_of_inOrder {ps : List Path} (h : inOrder t S ps) {k k' : List Step}
    (hk : k ∈ ps.map Path.steps) (hreach : ReflTransGen (Follows t S) k k') :
    k' ∈ ps.map Path.steps := by
  induction ps generalizing k with
  | nil => cases hk
  | cons p ps ih =>
    obtain ⟨_, hfol, _, hps⟩ := inOrder_cons h
    rw [List.map_cons] at hk ⊢
    rcases List.mem_cons.mp hk with rfl | hk
    · rcases hreach.cases_head with rfl | ⟨c, hc, hrest⟩
      · exact List.mem_cons_self ..
      · exact List.mem_cons_of_mem _ (ih hps (hfol c hc) hrest)
    · exact List.mem_cons_of_mem _ (ih hps hk hreach)

theorem not_onCycle_of_inOrder {ps : List Path} (h : inOrder t S ps) {k : List Step}
    (hk : k ∈ ps.map Path.steps) : ¬ OnCycle t S k := by
  induction ps with
  | nil => cases hk
  | cons p ps ih =>
    obtain ⟨_, hfol, hnot, hps⟩ := inOrder_cons h
    rw [List.map_cons] at hk
    rcases List.mem_cons.mp hk with rfl | hk
    · intro hc
      obtain ⟨c, hpc, hrest⟩ := TransGen.head'_iff.mp hc
      exact hnot (mem_of_inOrder hps (hfol c hpc) hrest)
    · exact ih hps hk

theorem summaryOf_of_inOrder {ps : List Path} (h : inOrder t S ps) {k : List Step}
    (hk : k ∈ ps.map Path.steps) : ∃ s, SummaryOf t k s := by
  induction ps with
  | nil => cases hk
  | cons p ps ih =>
    obtain ⟨⟨s, hs⟩, _, _, hps⟩ := inOrder_cons h
    rw [List.map_cons] at hk
    rcases List.mem_cons.mp hk with rfl | hk
    · exact ⟨s, p, rfl, hs⟩
    · exact ih hps hk

/-- Files in order are read without coming back to any of them. -/
theorem acyclic_of_inOrder {p : Path} {ps : List Path} (h : inOrder t S (p :: ps)) :
    AllRead t S p ∧ Acyclic t S p := by
  have hp : p.steps ∈ (p :: ps).map Path.steps := List.mem_cons_self ..
  constructor
  · rintro g (rfl | hg) hreach
    · exact (inOrder_cons h).1
    · obtain ⟨s, hs⟩ := summaryOf_of_inOrder h (mem_of_inOrder h hp hreach)
      exact ⟨s, readModule_of_isFile hg.isFile hs⟩
  · intro k hreach
    exact not_onCycle_of_inOrder h (mem_of_inOrder h hp hreach)

end

/-- Without cycles a loader answers what the plain recursion gives, after any history of
questions. -/
theorem exports_eq_plain_of_acyclic (t : FileTree) (sealedFiles : List Path) (qs : List Query)
    (file : Path) (hread : AllRead t (sealedFiles.map Path.steps) file)
    (hacyc : Acyclic t (sealedFiles.map Path.steps) file) :
    ∃ m l', (exportsOf t file).exec (asked t sealedFiles qs) = (.ok m, l') ∧
      ∀ depth, t.nodes.size + 2 ≤ depth →
        Shows l'.decls m (plainExports t (sealedFiles.map Path.steps) depth file) := by
  obtain ⟨hs, hl⟩ := asked_keeps t sealedFiles qs
  exact exec_exportsOf_of_acyclic hs hl hread hacyc

/-- Three files without a cycle, and two that pass on each other and the first of the three. -/
def besideCycle : FileTree := ⟨⟨[
  (["a.ts"], .file (.text "export*from'./b';export{x as y}from'./c'")),
  (["b.ts"], .file (.text "import{default as d}from'./c';export{d,d as e}")),
  (["c.ts"], .file (.text "export{p as x,q as default}")),
  (["on.ts"], .file (.text "export*from'./off';export*from'./a'")),
  (["off.ts"], .file (.text "export*from'./on'"))]⟩⟩

/-- The first of the three files, after the cycle was walked and a missing file was asked for. -/
theorem exports_eq_plain_beside_cycle :
    let qs := [.exports ⟨true, ["on.ts"]⟩, .exports ⟨true, ["d.ts"]⟩, .preload [⟨true, ["b.ts"]⟩]]
    AllRead besideCycle [] ⟨true, ["a.ts"]⟩ ∧ Acyclic besideCycle [] ⟨true, ["a.ts"]⟩ ∧
    ∃ m l', (exportsOf besideCycle ⟨true, ["a.ts"]⟩).exec (asked besideCycle [] qs) = (.ok m, l') ∧
      ∀ depth, besideCycle.nodes.size + 2 ≤ depth →
        Shows l'.decls m (plainExports besideCycle [] depth ⟨true, ["a.ts"]⟩) := by
  intro qs
  have h : inOrder besideCycle [] [⟨true, ["a.ts"]⟩, ⟨true, ["b.ts"]⟩, ⟨true, ["c.ts"]⟩] := by
    decide +kernel
  obtain ⟨hread, hacyc⟩ := acyclic_of_inOrder h
  exact ⟨hread, hacyc, exports_eq_plain_of_acyclic besideCycle [] qs ⟨true, ["a.ts"]⟩ hread hacyc⟩

end BarrelAlias.Linkage
