import BarrelAlias.Path
import Mathlib.Data.List.Basic

/-!
Paths by their steps. Below the root a part is a step unless it is empty or a single dot, so the
operations on absolute paths are described by what they do to the list of steps, whatever the
spelling.
-/

namespace BarrelAlias.Path

theorem stepsOf_false (ps : List String) :
    stepsOf false ps = (ps.filter (counts false)).map stepOf := by
  induction ps with
  | nil => rfl
  | cons p ps ih =>
    by_cases h : counts false p
    · simp [stepsOf, h, ih]
    · simp [stepsOf, h, ih]

theorem stepsOf_append (ps qs : List String) :
    stepsOf false (ps ++ qs) = stepsOf false ps ++ stepsOf false qs := by
  simp [stepsOf_false]

theorem steps_of_rooted {p : Path} (h : p.rooted) : p.steps = .root :: stepsOf false p.parts := by
  rw [steps, if_pos h]

theorem stepOf_ne_root (part : String) : stepOf part ≠ .root := by
  unfold stepOf
  split
  · simp
  · split <;> simp

theorem root_not_mem_stepsOf (leading : Bool) (ps : List String) :
    Step.root ∉ stepsOf leading ps := by
  induction ps generalizing leading with
  | nil => simp [stepsOf]
  | cons p ps ih =>
    rw [stepsOf]
    split
    · rw [List.mem_cons, not_or]
      exact ⟨(stepOf_ne_root p).symm, ih false⟩
    · exact ih false

theorem rooted_iff_head (p : Path) : p.rooted ↔ p.steps.head? = some .root := by
  constructor
  · intro h
    rw [steps_of_rooted h]
    rfl
  · intro h
    by_contra hr
    rw [steps, if_neg hr] at h
    exact root_not_mem_stepsOf true p.parts (List.mem_of_head? h)

theorem rooted_of_steps_eq {p q : Path} (h : p.steps = q.steps) (hp : p.rooted) : q.rooted := by
  rw [rooted_iff_head] at hp ⊢
  rw [← h]
  exact hp

/-- Two spellings of an absolute path differ only in parts that are no steps. -/
theorem stepsOf_eq_of_steps_eq {p q : Path} (h : p.steps = q.steps) (hp : p.rooted) :
    stepsOf false p.parts = stepsOf false q.parts := by
  have hq := rooted_of_steps_eq h hp
  rw [steps_of_rooted hp, steps_of_rooted hq] at h
  exact List.tail_eq_of_cons_eq h

theorem trimEnd_eq_nil_iff (ps : List String) :
    trimEnd false ps = [] ↔ ∀ p ∈ ps, counts false p = false := by
  induction ps with
  | nil => simp [trimEnd]
  | cons p ps ih =>
    rw [trimEnd]
    split
    · next h =>
      by_cases hp : counts false p
      · simp [hp]
      · simpa [hp] using ih.mp h
    · next q qs h =>
      constructor
      · intro hn
        simp at hn
      · intro hall
        have := ih.mpr fun r hr => hall r (List.mem_cons_of_mem _ hr)
        rw [h] at this
        simp at this

/-- What stands before the trimmed end, and the step that it ends with. -/
theorem trimEnd_split {ps : List String} (h : trimEnd false ps ≠ []) :
    ∃ front last rest, ps = front ++ last :: rest ∧ trimEnd false ps = front ++ [last] ∧
      counts false last ∧ ∀ p ∈ rest, counts false p = false := by
  induction ps with
  | nil => exact absurd rfl h
  | cons p ps ih =>
    cases ht : trimEnd false ps with
    | nil =>
      have hp : counts false p := by
        by_contra hp
        exact h (by simp [trimEnd, ht, hp])
      exact ⟨[], p, ps, rfl, by simp [trimEnd, ht, hp], hp, (trimEnd_eq_nil_iff ps).mp ht⟩
    | cons q qs =>
      obtain ⟨front, last, rest, he, htr, hl, hr⟩ := ih (by simp [ht])
      refine ⟨p :: front, last, rest, by rw [he]; rfl, ?_, hl, hr⟩
      rw [ht] at htr
      rw [trimEnd, ht, List.cons_append, ← htr]

theorem stepsOf_eq_nil_of_counts {ps : List String} (h : ∀ p ∈ ps, counts false p = false) :
    stepsOf false ps = [] := by
  rw [stepsOf_false, List.filter_eq_nil_iff.mpr, List.map_nil]
  intro p hp
  simp [h p hp]

theorem stepsOf_trimEnd (ps : List String) : stepsOf false (trimEnd false ps) = stepsOf false ps := by
  by_cases h : trimEnd false ps = []
  · rw [h, stepsOf_eq_nil_of_counts ((trimEnd_eq_nil_iff ps).mp h)]
    rfl
  · obtain ⟨front, last, rest, he, ht, hl, hr⟩ := trimEnd_split h
    rw [ht, he, stepsOf_append, stepsOf_append]
    simp [stepsOf, hl, stepsOf_eq_nil_of_counts hr]

theorem steps_trimmed {p : Path} (h : p.rooted) : p.trimmed.steps = p.steps := by
  have hr : p.trimmed.rooted := h
  rw [steps_of_rooted hr, steps_of_rooted h]
  simp [trimmed, h, stepsOf_trimEnd]

/-- The directory of an absolute path takes all steps but the last; the root is its own. -/
theorem steps_parent {p : Path} (h : p.rooted) :
    (p.parent?.getD .top).rooted ∧
      (p.parent?.getD .top).steps = .root :: (stepsOf false p.parts).dropLast := by
  have htp : p.trimmed.parts = trimEnd false p.parts := by simp [trimmed, h]
  unfold parent?
  rw [htp]
  by_cases hn : trimEnd false p.parts = []
  · rw [hn]
    refine ⟨rfl, ?_⟩
    rw [stepsOf_eq_nil_of_counts ((trimEnd_eq_nil_iff _).mp hn)]
    rfl
  · obtain ⟨front, last, rest, he, ht, hl, hr⟩ := trimEnd_split hn
    have hs : stepsOf false p.parts = stepsOf false front ++ [stepOf last] := by
      rw [he, stepsOf_append]
      simp [stepsOf, hl, stepsOf_eq_nil_of_counts hr]
    have hq : ({ p with parts := front } : Path).rooted := h
    rw [ht]
    split
    · next e => simp at e
    · next ps e =>
      rw [List.dropLast_append_of_ne_nil (by simp), List.dropLast_singleton, List.append_nil, hs,
        List.dropLast_append_of_ne_nil (by simp), List.dropLast_singleton, List.append_nil]
      refine ⟨h, ?_⟩
      rw [Option.getD_some, steps_trimmed hq, steps_of_rooted hq]

/-- A relative path joined to an absolute one adds its steps. -/
theorem steps_join {base rel : Path} (hb : base.rooted) (hr : rel.rooted = false) :
    (base.join rel).steps = base.steps ++ stepsOf false rel.parts := by
  have hempty : stepsOf false [""] = [] := by simp [stepsOf, counts]
  unfold join
  rw [hr]
  simp only [Bool.false_eq_true, ↓reduceIte]
  by_cases hp : base.parts = []
  · rw [if_pos (by simp [hp])]
    rw [steps_of_rooted hb, hp, steps, if_pos hb]
    rfl
  · rw [if_neg (by simp [hp])]
    have hfront : stepsOf false
        (if base.parts.getLast? = some "" then base.parts.dropLast else base.parts) =
          stepsOf false base.parts := by
      split
      · next hl =>
        conv_rhs => rw [← List.dropLast_append_getLast? "" hl, stepsOf_append, hempty]
        simp
      · rfl
    have hrel : stepsOf false (if rel.parts.isEmpty then [""] else rel.parts) =
        stepsOf false rel.parts := by
      split
      · next he =>
        rw [List.isEmpty_iff.mp he, hempty]
        rfl
      · rfl
    rw [steps, if_pos hb, stepsOf_append, hfront, hrel, steps_of_rooted hb]
    rfl

theorem rooted_join {base rel : Path} (hb : base.rooted) : (base.join rel).rooted := by
  unfold join
  split
  · assumption
  · split
    · exact hb
    · exact hb

/-- Names are told apart by the steps that they are. -/
theorem map_name_injective : Function.Injective (List.map Step.name) :=
  List.map_injective_iff.mpr fun _ _ h => Step.name.inj h

/-- `clean` looks at the steps only. -/
theorem clean_congr {p q : Path} (h : p.steps = q.steps) : p.clean = q.clean := by
  rw [clean, clean, h]

theorem fileName?_congr {p q : Path} (h : p.steps = q.steps) : p.fileName? = q.fileName? := by
  rw [fileName?, fileName?, h]

end BarrelAlias.Path
