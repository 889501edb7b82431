import BarrelAlias.Proofs.Inputs
import BarrelAlias.Proofs.Table

/-!
Paths in order. The order of steps is a total one, and so is that of paths up to their spelling. A sorted
list of paths holds one spelling of every path in it, in the one possible order: two such lists with the
same members are equal, however the paths were found.
-/

namespace BarrelAlias

namespace Step

/-- The step as a pair that is compared part by part. -/
def key : Step → Nat × String
  | name s => (3, s)
  | s => (s.rank, "")

theorem key_injective {a b : Step} (h : a.key = b.key) : a = b := by
  cases a <;> cases b <;> simp_all [key, rank]

theorem compare_eq_lex : (compare : Step → Step → Ordering) =
    compareLex (compareOn fun a => a.key.1) (compareOn fun a => a.key.2) := by
  funext a b
  cases a <;> cases b <;> rfl

instance : Std.TransOrd Step := by
  have hlex : Std.TransCmp (compareLex (compareOn fun a : Step => a.key.1)
      (compareOn fun a : Step => a.key.2)) := inferInstance
  rw [← compare_eq_lex] at hlex
  exact hlex

instance : Std.LawfulEqOrd Step where
  compare_self := Std.ReflCmp.compare_self
  eq_of_compare := by
    intro a b h
    rw [compare_eq_lex, compareLex, Ordering.then_eq_eq] at h
    exact key_injective (Prod.ext (Std.LawfulEqCmp.eq_of_compare h.1)
      (Std.LawfulEqCmp.eq_of_compare h.2))

end Step

/-- The path stands before another one in order, and is not the same. -/
def Path.Before (p q : Path) : Prop := compare p.steps q.steps = .lt

theorem Path.Before.trans {p q r : Path} (h : p.Before q) (h' : q.Before r) : p.Before r :=
  Std.TransCmp.lt_trans h h'

theorem Path.not_before_self (p : Path) : ¬ p.Before p := by
  simp [Path.Before, Std.ReflCmp.compare_self]

/-- A path that stands no later than another one, and is not the same, stands before it. -/
theorem Path.before_of_isLE {p q : Path} (h : (compare p q).isLE) (hne : p.steps ≠ q.steps) :
    p.Before q := by
  change (compare p.steps q.steps).isLE at h
  have hneq : compare p.steps q.steps ≠ .eq := fun he => hne (Std.LawfulEqCmp.eq_of_compare he)
  unfold Path.Before
  cases hc : compare p.steps q.steps with
  | lt => rfl
  | eq => exact absurd hc hneq
  | gt => simp [hc] at h

/-- Lists in strict order with the same members are equal. -/
theorem Path.eq_of_before {ps qs : List Path} (hp : ps.Pairwise Before) (hq : qs.Pairwise Before)
    (h : ∀ p, p ∈ ps ↔ p ∈ qs) : ps = qs := by
  have hnodup : ∀ {l : List Path}, l.Pairwise Before → l.Nodup := by
    intro l hl
    refine hl.imp ?_
    rintro p q hpq rfl
    exact p.not_before_self hpq
  refine List.Perm.eq_of_pairwise ?_ hp hq ((List.perm_ext_iff_of_nodup (hnodup hp) (hnodup hq)).mpr h)
  intro p q _ _ hpq hqp
  exact absurd (hpq.trans hqp) p.not_before_self

instance : Std.TransOrd Path :=
  inferInstanceAs (Std.TransCmp (compareOn Path.steps))

namespace Glob

/-- Puts a path before others, and in the place of the first of them if it is the same path. -/
def putFirst (p : Path) : List Path → List Path
  | q :: rest => if p.same q then p :: rest else p :: q :: rest
  | [] => [p]

theorem sortPaths_eq (ps : List Path) :
    sortPaths ps = (ps.mergeSort fun a b => (compare a b).isLE).foldr putFirst [] := by
  have hput : putFirst = fun p rest =>
      match rest with
      | q :: _ => if p.same q then p :: rest.drop 1 else p :: rest
      | [] => [p] := by
    funext p rest
    cases rest with
    | nil => rfl
    | cons q rest => rfl
  rw [hput]
  rfl

theorem mem_of_mem_putFirst {p q : Path} {rest : List Path} (h : q ∈ putFirst p rest) :
    q = p ∨ q ∈ rest := by
  cases rest with
  | nil => exact Or.inl (List.mem_singleton.mp h)
  | cons r rest =>
    rw [putFirst] at h
    split at h
    · exact (List.mem_cons.mp h).imp_right (List.mem_cons_of_mem r)
    · exact List.mem_cons.mp h

/-- Each path that was there is still there in one spelling. -/
theorem exists_mem_putFirst {p q : Path} {rest : List Path} (h : q = p ∨ q ∈ rest) :
    ∃ r ∈ putFirst p rest, r.steps = q.steps := by
  cases rest with
  | nil => exact ⟨p, List.mem_singleton.mpr rfl, by simp_all⟩
  | cons r rest =>
    rw [putFirst]
    split
    · next hsame =>
      rcases h with rfl | h
      · exact ⟨q, List.mem_cons_self .., rfl⟩
      · rcases List.mem_cons.mp h with rfl | h
        · exact ⟨p, List.mem_cons_self .., by simpa [Path.same] using hsame⟩
        · exact ⟨q, List.mem_cons_of_mem p h, rfl⟩
    · exact ⟨q, List.mem_cons.mpr h, rfl⟩

theorem putFirst_before {p : Path} {rest : List Path} (hle : ∀ q ∈ rest, (compare p q).isLE)
    (h : rest.Pairwise Path.Before) : (putFirst p rest).Pairwise Path.Before := by
  cases rest with
  | nil => exact List.pairwise_singleton _ p
  | cons r rest =>
    obtain ⟨hfirst, hrest⟩ := List.pairwise_cons.mp h
    rw [putFirst]
    split
    · next hsame =>
      have hsteps : p.steps = r.steps := by simpa [Path.same] using hsame
      refine List.pairwise_cons.mpr ⟨?_, hrest⟩
      intro q hq
      have hbefore := hfirst q hq
      rwa [Path.Before, ← hsteps] at hbefore
    · next hsame =>
      have hpr : p.Before r := by
        refine Path.before_of_isLE (hle r (List.mem_cons_self ..)) ?_
        simpa [Path.same] using hsame
      refine List.pairwise_cons.mpr ⟨?_, h⟩
      intro q hq
      rcases List.mem_cons.mp hq with rfl | hq
      · exact hpr
      · exact hpr.trans (hfirst q hq)

theorem mem_of_mem_foldr_putFirst {q : Path} {ps : List Path} (h : q ∈ ps.foldr putFirst []) :
    q ∈ ps := by
  induction ps with
  | nil => exact h
  | cons p ps ih => exact List.mem_cons.mpr ((mem_of_mem_putFirst h).imp_right ih)

theorem foldr_putFirst_before {ps : List Path} (h : ps.Pairwise fun a b => (compare a b).isLE) :
    (ps.foldr putFirst []).Pairwise Path.Before := by
  induction ps with
  | nil => exact .nil
  | cons p ps ih =>
    obtain ⟨hfirst, hrest⟩ := List.pairwise_cons.mp h
    exact putFirst_before (fun q hq => hfirst q (mem_of_mem_foldr_putFirst hq)) (ih hrest)

/-- Sorted paths stand in strict order. -/
theorem sortPaths_before (ps : List Path) : (sortPaths ps).Pairwise Path.Before := by
  rw [sortPaths_eq]
  exact foldr_putFirst_before (pairwise_mergeSort_compare id ps)

theorem exists_mem_sortPaths {ps : List Path} {p : Path} (h : p ∈ ps) :
    ∃ q ∈ sortPaths ps, q.steps = p.steps := by
  rw [sortPaths_eq]
  have hsorted : p ∈ ps.mergeSort fun a b => (compare a b).isLE := List.mem_mergeSort.mpr h
  generalize (ps.mergeSort fun a b => (compare a b).isLE) = sorted at hsorted
  induction sorted with
  | nil => cases hsorted
  | cons r sorted ih =>
    rw [List.foldr_cons]
    rcases List.mem_cons.mp hsorted with rfl | hmem
    · exact exists_mem_putFirst (Or.inl rfl)
    · obtain ⟨q, hq, hsteps⟩ := ih hmem
      obtain ⟨q', hq', hsteps'⟩ := exists_mem_putFirst (p := r) (Or.inr hq)
      exact ⟨q', hq', hsteps'.trans hsteps⟩

end Glob

end BarrelAlias
