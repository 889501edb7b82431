import BarrelAlias.Barrel.Order
import BarrelAlias.Proofs.Sorting
import Mathlib.Data.List.Nodup

/-!
The order in which a barrel takes its files. It is a total order of paths up to their spelling, so that
paths are sorted in one way, however they were found. In a sorted list all that a directory holds stands
together: first its index files, then its other files, then what lies deeper.
-/

namespace BarrelAlias

section

variable {α : Type} [Ord α]

/-- Lists that begin alike compare as their rests do. -/
theorem compare_append_left [Std.ReflOrd α] (ds xs ys : List α) :
    compare (ds ++ xs) (ds ++ ys) = compare xs ys := by
  induction ds with
  | nil => rfl
  | cons d ds ih =>
    have hd : compare d d = .eq := Std.ReflCmp.compare_self
    rw [List.cons_append, List.cons_append, List.compare_cons_cons, hd, ih]
    rfl

/-- A list that does not begin with another one compares with it as with all that begin with it. -/
theorem compare_append_of_not_prefix [Std.LawfulEqOrd α] {ds xs : List α} (h : ¬ ds <+: xs)
    (ys : List α) : compare xs (ds ++ ys) = compare xs ds := by
  induction ds generalizing xs with
  | nil => exact absurd List.nil_prefix h
  | cons d ds ih =>
    cases xs with
    | nil => rfl
    | cons x xs =>
      rw [List.cons_append, List.compare_cons_cons, List.compare_cons_cons]
      cases hx : compare x d with
      | lt => rfl
      | gt => rfl
      | eq =>
        have heq := Std.LawfulEqCmp.eq_of_compare hx
        subst heq
        exact ih fun hp => h (List.cons_prefix_cons.mpr ⟨rfl, hp⟩)

end

/-- A list along which a number never falls is cut wherever the number reaches a bound. -/
theorem exists_split {α : Type} {f : α → Nat} {l : List α} (h : l.Pairwise fun a b => f a ≤ f b)
    (k : Nat) :
    ∃ front back, l = front ++ back ∧ (∀ x ∈ front, f x < k) ∧ (∀ x ∈ back, k ≤ f x) := by
  induction l with
  | nil => exact ⟨[], [], rfl, by simp, by simp⟩
  | cons a l ih =>
    obtain ⟨hfirst, hrest⟩ := List.pairwise_cons.mp h
    by_cases ha : f a < k
    · obtain ⟨front, back, rfl, hfront, hback⟩ := ih hrest
      exact ⟨a :: front, back, rfl, List.forall_mem_cons.mpr ⟨ha, hfront⟩, hback⟩
    · refine ⟨[], a :: l, rfl, by simp, List.forall_mem_cons.mpr ⟨by omega, fun x hx => ?_⟩⟩
      have := hfirst x hx
      omega

namespace Path

/-- What ends a path without being a step does not count. -/
theorem stepsOf_trimEnd_leading (leading : Bool) (ps : List String) :
    stepsOf leading (trimEnd leading ps) = stepsOf leading ps := by
  cases ps with
  | nil => rfl
  | cons p ps =>
    have hrest := stepsOf_trimEnd ps
    rw [trimEnd, stepsOf]
    cases ht : trimEnd false ps with
    | nil =>
      rw [ht, stepsOf] at hrest
      by_cases hp : counts leading p <;> simp [hp, stepsOf, ← hrest]
    | cons q qs =>
      rw [ht] at hrest
      dsimp only
      rw [stepsOf, hrest]

/-- A path without such an end that is cut at its last part loses its last step. -/
theorem stepsOf_dropLast_trimEnd (leading : Bool) (ps : List String) :
    stepsOf leading (trimEnd leading ps).dropLast = (stepsOf leading ps).dropLast := by
  rw [← stepsOf_trimEnd_leading leading ps]
  cases ps with
  | nil => rfl
  | cons p ps =>
    rw [trimEnd]
    cases ht : trimEnd false ps with
    | nil => by_cases hp : counts leading p <;> simp [hp, stepsOf]
    | cons q qs =>
      obtain ⟨front, last, _, _, hfront, hlast, _⟩ := @trimEnd_split ps (by simp [ht])
      have hends : stepsOf false (front ++ [last]) = stepsOf false front ++ [stepOf last] := by
        rw [stepsOf_append]
        simp [stepsOf, hlast]
      dsimp only
      rw [← ht, hfront, ← List.cons_append, List.dropLast_concat, List.cons_append, stepsOf, stepsOf,
        hends]
      split
      · rw [← List.cons_append, List.dropLast_concat]
      · rw [List.dropLast_concat]

end Path

namespace Barrel

theorem parentFirst_eq_lex : parentFirst =
    compareLex (compareOn folderSteps) (compareLex (compareOn indexRank) compare) := rfl

instance : Std.TransCmp parentFirst := by
  have hlex : Std.TransCmp (compareLex (compareOn folderSteps)
      (compareLex (compareOn indexRank) (compare : Path → Path → Ordering))) := inferInstance
  rw [← parentFirst_eq_lex] at hlex
  exact hlex

/-- The directory of a path takes all of its steps but the last. -/
theorem folderSteps_eq (p : Path) : folderSteps p = p.steps.dropLast := by
  obtain ⟨rooted, parts⟩ := p
  have hends := Path.stepsOf_trimEnd_leading (!rooted) parts
  have hdrop := Path.stepsOf_dropLast_trimEnd (!rooted) parts
  unfold folderSteps Path.parent? Path.trimmed
  dsimp only
  split
  · next h =>
    -- nothing is left of the path but perhaps the root, and that has no directory
    rw [h] at hends
    cases rooted <;> simp_all [Path.steps, Path.stepsOf, Path.empty]
  · next h =>
    cases rooted with
    | false =>
      change Path.stepsOf true (Path.trimEnd true (Path.trimEnd true parts).dropLast) = _
      rw [Path.stepsOf_trimEnd_leading]
      exact hdrop
    | true =>
      obtain ⟨front, last, _, _, hlast, hcounts, _⟩ := Path.trimEnd_split h
      have hne : Path.stepsOf false parts ≠ [] := by
        rw [← Path.stepsOf_trimEnd, hlast, Path.stepsOf_append]
        simp [Path.stepsOf, hcounts]
      change Step.root :: Path.stepsOf false (Path.trimEnd false (Path.trimEnd false parts).dropLast) = _
      rw [Path.stepsOf_trimEnd, Path.steps_of_rooted rfl, List.dropLast_cons_of_ne_nil hne]
      exact congrArg _ hdrop

/-- Only two spellings of one path stand in the same place. -/
theorem parentFirst_eq_iff (a b : Path) : parentFirst a b = .eq ↔ a.steps = b.steps := by
  constructor
  · intro h
    rw [parentFirst, Ordering.then_eq_eq, Ordering.then_eq_eq] at h
    exact Std.LawfulEqCmp.eq_of_compare h.2.2
  · intro h
    have hrank : indexRank a = indexRank b := by
      rw [indexRank, indexRank, isIndex, isIndex, Path.fileName?_congr h]
    have hpath : compare a b = compare a.steps b.steps := rfl
    simp [parentFirst, folderSteps_eq, hpath, hrank, h]

def Sorted (ps : List Path) : Prop := ps.Pairwise fun a b => (parentFirst a b).isLE

instance (ps : List Path) : Decidable (Sorted ps) :=
  inferInstanceAs (Decidable (ps.Pairwise fun a b => (parentFirst a b).isLE))

theorem sorted_sortParentFirst (ps : List Path) : Sorted (sortParentFirst ps) := by
  refine List.pairwise_mergeSort (fun a b c => Std.TransCmp.isLE_trans) (fun a b => ?_) ps
  rw [@Std.OrientedCmp.eq_swap Path parentFirst _ b]
  cases parentFirst a b <;> rfl

theorem perm_sortParentFirst (ps : List Path) : (sortParentFirst ps).Perm ps := List.mergeSort_perm ps _

/-- Paths of which no two are the same can be sorted in one way only. -/
theorem Sorted.eq_of_perm {ps qs : List Path} (hp : Sorted ps) (hq : Sorted qs) (h : ps.Perm qs)
    (hne : (ps.map Path.steps).Nodup) : ps = qs := by
  refine List.Perm.eq_of_pairwise (fun a b ha hb hab hba => ?_) hp hq h
  have heq : parentFirst a b = .eq := Std.OrientedCmp.isLE_antisymm hab hba
  exact List.inj_on_of_nodup_map hne ha (h.mem_iff.mpr hb) ((parentFirst_eq_iff a b).mp heq)

def DirectlyIn (d p : Path) : Prop := ∃ last, p.steps = d.steps ++ [last]

def DeeperIn (d p : Path) : Prop := ∃ next way last, p.steps = d.steps ++ next :: way ++ [last]

/-- Where a path stands as seen from a directory: before all that the directory holds, among its index
files, among its other files, among what lies deeper, or after all that. -/
def zone (d p : Path) : Nat :=
  if d.steps <+: folderSteps p then
    if folderSteps p = d.steps then 1 + indexRank p else 3
  else if compare (folderSteps p) d.steps = .lt then 0 else 4

theorem indexRank_lt (p : Path) : indexRank p < 2 := by
  unfold indexRank
  split <;> omega

/-- A path stands no later than another one if its directory comes before, or if it is the same and the
index files come first. -/
theorem parentFirst_cases {a b : Path} (h : (parentFirst a b).isLE) :
    compare (folderSteps a) (folderSteps b) = .lt ∨
      folderSteps a = folderSteps b ∧ indexRank a ≤ indexRank b := by
  rw [parentFirst, Ordering.isLE_then_iff_or] at h
  refine h.imp_right fun ⟨heq, hrest⟩ => ⟨Std.LawfulEqCmp.eq_of_compare heq, ?_⟩
  exact Nat.isLE_compare.mp (Ordering.isLE_left_of_isLE_then hrest)

/-- A path that stands no later is in no later zone. -/
theorem zone_le (d : Path) {a b : Path} (h : (parentFirst a b).isLE) : zone d a ≤ zone d b := by
  have hlt := indexRank_lt a
  rcases parentFirst_cases h with hbefore | ⟨hsame, hrank⟩
  · by_cases ha : d.steps <+: folderSteps a <;> by_cases hb : d.steps <+: folderSteps b
    · -- the directory itself comes before those below it
      have hne : folderSteps b ≠ d.steps := by
        obtain ⟨way, hway⟩ := ha
        intro hd
        rw [← hway, hd, ← List.append_nil d.steps, List.append_assoc, compare_append_left] at hbefore
        cases way <;> simp at hbefore
      rw [zone, zone, if_pos ha, if_pos hb, if_neg hne]
      split <;> omega
    · obtain ⟨way, hway⟩ := id ha
      have hafter : compare (folderSteps b) d.steps = .gt := by
        rw [← compare_append_of_not_prefix hb way, hway]
        exact Std.OrientedCmp.gt_of_lt hbefore
      rw [zone, zone, if_pos ha, if_neg hb, hafter]
      simp only [reduceCtorEq, ↓reduceIte]
      split <;> omega
    · obtain ⟨way, hway⟩ := id hb
      rw [← hway, compare_append_of_not_prefix ha way] at hbefore
      rw [zone, if_neg ha, if_pos hbefore]
      exact Nat.zero_le _
    · rw [zone, zone, if_neg ha, if_neg hb]
      split
      · exact Nat.zero_le _
      · next hge =>
        have hafter : ¬ compare (folderSteps b) d.steps = .lt :=
          fun hbd => hge (Std.TransCmp.lt_trans hbefore hbd)
        exact Nat.le_of_eq (if_neg hafter).symm
  · rw [zone, zone, hsame]
    split
    · split <;> omega
    · exact Nat.le_refl _

/-- What the zones of a directory are. -/
theorem zone_cases {d : Path} (hd : d.steps ≠ []) (p : Path) :
    (DirectlyIn d p ∧ isIndex p ∧ zone d p = 1) ∨ (DirectlyIn d p ∧ ¬ isIndex p ∧ zone d p = 2) ∨
      (DeeperIn d p ∧ zone d p = 3) ∨
      (¬ DirectlyIn d p ∧ ¬ DeeperIn d p) ∧ (zone d p = 0 ∨ zone d p = 4) := by
  have hfolder := folderSteps_eq p
  by_cases hin : d.steps <+: folderSteps p
  · obtain ⟨way, hway⟩ := id hin
    have hne : p.steps ≠ [] := by
      intro hp
      rw [hfolder, hp, List.dropLast_nil] at hway
      exact hd (List.append_eq_nil_iff.mp hway).1
    have hsteps : p.steps = d.steps ++ way ++ [p.steps.getLast hne] := by
      rw [hway, hfolder, List.dropLast_concat_getLast]
    cases way with
    | nil =>
      rw [List.append_nil] at hway hsteps
      by_cases hindex : isIndex p
      · exact Or.inl ⟨⟨_, hsteps⟩, hindex, by simp [zone, ← hway, indexRank, hindex]⟩
      · exact Or.inr (Or.inl ⟨⟨_, hsteps⟩, hindex, by simp [zone, ← hway, indexRank, hindex]⟩)
    | cons next way =>
      refine Or.inr (Or.inr (Or.inl ⟨⟨next, way, _, hsteps⟩, ?_⟩))
      rw [zone, if_pos hin, if_neg (by simp [← hway])]
  · refine Or.inr (Or.inr (Or.inr ⟨⟨?_, ?_⟩, ?_⟩))
    · rintro ⟨last, hp⟩
      exact hin ⟨[], by rw [hfolder, hp, List.dropLast_concat, List.append_nil]⟩
    · rintro ⟨next, way, last, hp⟩
      exact hin ⟨next :: way, by rw [hfolder, hp, List.dropLast_concat]⟩
    · rw [zone, if_neg hin]
      split <;> simp

/-- In a sorted list all that a directory holds stands together. -/
theorem Sorted.contiguous {ps : List Path} (h : Sorted ps) {d : Path} (hd : d.rooted) :
    ∃ before index others deeper after,
      ps = before ++ (index ++ others ++ deeper) ++ after ∧
      (∀ p ∈ before ++ after, ¬ DirectlyIn d p ∧ ¬ DeeperIn d p) ∧
      (∀ p ∈ index, DirectlyIn d p ∧ isIndex p) ∧ (∀ p ∈ others, DirectlyIn d p ∧ ¬ isIndex p) ∧
      ∀ p ∈ deeper, DeeperIn d p := by
  have hne : d.steps ≠ [] := by simp [Path.steps_of_rooted hd]
  have hzones : ps.Pairwise fun a b => zone d a ≤ zone d b := h.imp fun hab => zone_le d hab
  obtain ⟨before, rest, rfl, hbefore, hrest⟩ := exists_split hzones 1
  obtain ⟨_, hzones, _⟩ := List.pairwise_append.mp hzones
  obtain ⟨index, rest, rfl, hindex, hrest₁⟩ := exists_split hzones 2
  obtain ⟨_, hzones, _⟩ := List.pairwise_append.mp hzones
  obtain ⟨others, rest, rfl, hothers, hrest₂⟩ := exists_split hzones 3
  obtain ⟨_, hzones, _⟩ := List.pairwise_append.mp hzones
  obtain ⟨deeper, after, rfl, hdeeper, hafter⟩ := exists_split hzones 4
  simp only [List.forall_mem_append] at hrest hrest₁ hrest₂
  refine ⟨before, index, others, deeper, after, by simp, fun p hp => ?_, fun p hp => ?_,
    fun p hp => ?_, fun p hp => ?_⟩
  · have hz : zone d p < 1 ∨ 4 ≤ zone d p := (List.mem_append.mp hp).imp (hbefore p) (hafter p)
    rcases zone_cases hne p with ⟨_, _, h⟩ | ⟨_, _, h⟩ | ⟨_, h⟩ | ⟨hout, _⟩
    · omega
    · omega
    · omega
    · exact hout
  · have hlow := hrest.1 p hp
    have hhigh := hindex p hp
    rcases zone_cases hne p with ⟨hin, hidx, _⟩ | ⟨_, _, h⟩ | ⟨_, h⟩ | ⟨_, h⟩
    · exact ⟨hin, hidx⟩
    · omega
    · omega
    · omega
  · have hlow := hrest₁.1 p hp
    have hhigh := hothers p hp
    rcases zone_cases hne p with ⟨_, _, h⟩ | ⟨hin, hidx, _⟩ | ⟨_, h⟩ | ⟨_, h⟩
    · omega
    · exact ⟨hin, hidx⟩
    · omega
    · omega
  · have hlow := hrest₂.1 p hp
    have hhigh := hdeeper p hp
    rcases zone_cases hne p with ⟨_, _, h⟩ | ⟨_, _, h⟩ | ⟨hin, _⟩ | ⟨_, h⟩
    · omega
    · omega
    · exact hin
    · omega

/-- The order is a total one of paths up to their spelling, and so paths of which no two are the same are
sorted in one way only. What a directory holds stands together in every sorted list, its index files
first, then its other files, then what lies deeper. -/
theorem parentFirst_total_and_contiguous :
    (∀ a b, parentFirst b a = (parentFirst a b).swap) ∧
    (∀ a b c, parentFirst a b = .lt → parentFirst b c = .lt → parentFirst a c = .lt) ∧
    (∀ a b, parentFirst a b = .eq ↔ a.steps = b.steps) ∧
    (∀ ps qs, (ps.map Path.steps).Nodup → ps.Perm qs → sortParentFirst ps = sortParentFirst qs) ∧
    (∀ ps, (sortParentFirst ps).Perm ps ∧ Sorted (sortParentFirst ps)) ∧
    ∀ ps, Sorted ps → ∀ d : Path, d.rooted → ∃ before index others deeper after,
      ps = before ++ (index ++ others ++ deeper) ++ after ∧
      (∀ p ∈ before ++ after, ¬ DirectlyIn d p ∧ ¬ DeeperIn d p) ∧
      (∀ p ∈ index, DirectlyIn d p ∧ isIndex p) ∧ (∀ p ∈ others, DirectlyIn d p ∧ ¬ isIndex p) ∧
      ∀ p ∈ deeper, DeeperIn d p := by
  refine ⟨fun a b => Std.OrientedCmp.eq_swap, fun a b c => Std.TransCmp.lt_trans, parentFirst_eq_iff,
    fun ps qs hne h => ?_, fun ps => ⟨perm_sortParentFirst ps, sorted_sortParentFirst ps⟩, ?_⟩
  · refine (sorted_sortParentFirst ps).eq_of_perm (sorted_sortParentFirst qs) ?_ ?_
    · exact (perm_sortParentFirst ps).trans (h.trans (perm_sortParentFirst qs).symm)
    · exact ((perm_sortParentFirst ps).map Path.steps).nodup_iff.mpr hne
  · exact fun ps h d hd => h.contiguous hd

/-- Files in and below a directory beside another one whose name goes on from its own. -/
def nestedFiles : List Path :=
  ["/p/z.ts", "/p/a/index.tsx", "/p/a/x.ts", "/p/a/deep/index.ts", "/p/a-b/y.ts"].map Path.ofText

/-- They stand parent first, whatever order they are sorted from, and those of the directory `a` stand
together although the text of `a-b` comes before that of what lies in `a`. -/
theorem nestedFiles_sorted :
    parentFirst (.ofText "/p/z.ts") (.ofText "/p/a/x.ts") = .lt ∧
      parentFirst (.ofText "/p/a/x.ts") (.ofText "/p/a-b/y.ts") = .lt ∧
      parentFirst (.ofText "/p/z.ts") (.ofText "/p/a-b/y.ts") = .lt ∧
    (nestedFiles.reverse.map Path.steps).Nodup ∧
      sortParentFirst nestedFiles.reverse = sortParentFirst nestedFiles ∧
    Sorted nestedFiles ∧ (Path.ofText "/p/a").rooted ∧
      ∃ before index others deeper after,
        nestedFiles = before ++ (index ++ others ++ deeper) ++ after ∧
        (∀ p ∈ before ++ after, ¬ DirectlyIn (.ofText "/p/a") p ∧ ¬ DeeperIn (.ofText "/p/a") p) ∧
        (∀ p ∈ index, DirectlyIn (.ofText "/p/a") p ∧ isIndex p) ∧
        (∀ p ∈ others, DirectlyIn (.ofText "/p/a") p ∧ ¬ isIndex p) ∧
        ∀ p ∈ deeper, DeeperIn (.ofText "/p/a") p := by
  obtain ⟨_, htrans, _, hperm, _, hblocks⟩ := parentFirst_total_and_contiguous
  have hfirst : parentFirst (.ofText "/p/z.ts") (.ofText "/p/a/x.ts") = .lt := by decide +kernel
  have hnext : parentFirst (.ofText "/p/a/x.ts") (.ofText "/p/a-b/y.ts") = .lt := by decide +kernel
  have hne : (nestedFiles.reverse.map Path.steps).Nodup := by decide +kernel
  have hsorted : Sorted nestedFiles := by decide +kernel
  have hrooted : (Path.ofText "/p/a").rooted := by decide +kernel
  exact ⟨hfirst, hnext, htrans _ _ _ hfirst hnext, hne, hperm _ _ hne (List.reverse_perm nestedFiles),
    hsorted, hrooted, hblocks _ hsorted _ hrooted⟩

end Barrel

end BarrelAlias
