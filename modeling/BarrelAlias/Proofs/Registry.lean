import BarrelAlias.Barrel.Draft
import BarrelAlias.Proofs.Load
import BarrelAlias.Proofs.Table
import Mathlib.Data.List.Nodup

/-!
What the registry holds after any sequence of registrations. A registration does one of three
things: nothing, because the declaration already stands under the name; an entry on both sides and
in the line of its origin; or such an entry that also makes the name overloaded. Every invariant
below is read off these three cases.
-/

namespace BarrelAlias.Barrel

theorem mem_foldl_firstOccurrences {α : Type} [DecidableEq α] (xs seen : List α) (a : α) :
    a ∈ xs.foldl (fun seen x => if x ∈ seen then seen else seen ++ [x]) seen ↔
      a ∈ seen ∨ a ∈ xs := by
  induction xs generalizing seen with
  | nil => simp
  | cons x xs ih =>
    rw [List.foldl_cons, ih]
    by_cases hx : x ∈ seen
    · rw [if_pos hx, List.mem_cons]
      constructor
      · rintro (h | h)
        · exact Or.inl h
        · exact Or.inr (Or.inr h)
      · rintro (h | rfl | h)
        · exact Or.inl h
        · exact Or.inl hx
        · exact Or.inr h
    · rw [if_neg hx, List.mem_append, List.mem_singleton, List.mem_cons, or_assoc]

@[simp] theorem mem_firstOccurrences {α : Type} [DecidableEq α] (xs : List α) (a : α) :
    a ∈ firstOccurrences xs ↔ a ∈ xs := by
  rw [firstOccurrences, mem_foldl_firstOccurrences]
  simp

theorem nodup_foldl_firstOccurrences {α : Type} [DecidableEq α] (xs seen : List α)
    (h : seen.Nodup) :
    (xs.foldl (fun seen x => if x ∈ seen then seen else seen ++ [x]) seen).Nodup := by
  induction xs generalizing seen with
  | nil => exact h
  | cons x xs ih =>
    rw [List.foldl_cons]
    by_cases hx : x ∈ seen
    · rw [if_pos hx]
      exact ih seen h
    · rw [if_neg hx]
      refine ih _ (List.nodup_append.mpr ⟨h, List.nodup_singleton x, ?_⟩)
      intro a ha b hb hab
      rw [List.mem_singleton] at hb
      exact hx (hb ▸ hab ▸ ha)

theorem nodup_firstOccurrences {α : Type} [DecidableEq α] (xs : List α) :
    (firstOccurrences xs).Nodup :=
  nodup_foldl_firstOccurrences xs [] List.nodup_nil

structure Request where
  name : String
  exported : String
  decl : DeclId
  origin : String
deriving DecidableEq, Repr

namespace Registry

def enter (r : Registry) (q : Request) : Registry :=
  (r.register q.name q.exported q.decl q.origin).2

def enterAll (r : Registry) (qs : List Request) : Registry := qs.foldl enter r

def bindRequest (r : Registry) (q : Request) : Registry := r.bind q.name q.exported q.decl q.origin

def markOverloaded (r : Registry) (name : String) : Registry :=
  { r with overloaded := if name ∈ r.overloaded then r.overloaded else r.overloaded ++ [name] }

@[simp] theorem bindings_empty (n : String) : empty.bindings n = [] := rfl

@[simp] theorem clauses_empty (o : String) : empty.clauses o = [] := rfl

theorem bindings_bindRequest (r : Registry) (q : Request) (n : String) :
    (r.bindRequest q).bindings n =
      if n = q.name then r.bindings n ++ [(q.decl, q.origin)] else r.bindings n := by
  simp only [bindRequest, bind, bindings, Table.find?_insert]
  by_cases h : n = q.name
  · simp [h]
  · simp [h]

theorem clauses_bindRequest (r : Registry) (q : Request) (o : String) :
    (r.bindRequest q).clauses o =
      if o = q.origin then r.clauses o ++ [⟨q.exported, q.name⟩] else r.clauses o := by
  simp only [bindRequest, bind, clauses, Table.find?_insert]
  by_cases h : o = q.origin
  · simp [h]
  · simp [h]

@[simp] theorem overloaded_bindRequest (r : Registry) (q : Request) :
    (r.bindRequest q).overloaded = r.overloaded := rfl

@[simp] theorem bindings_markOverloaded (r : Registry) (m n : String) :
    (r.markOverloaded m).bindings n = r.bindings n := rfl

@[simp] theorem clauses_markOverloaded (r : Registry) (m o : String) :
    (r.markOverloaded m).clauses o = r.clauses o := rfl

theorem mem_overloaded_markOverloaded (r : Registry) (m n : String) :
    n ∈ (r.markOverloaded m).overloaded ↔ n = m ∨ n ∈ r.overloaded := by
  simp only [markOverloaded]
  by_cases h : m ∈ r.overloaded
  · rw [if_pos h]
    constructor
    · exact Or.inr
    · rintro (rfl | hn)
      · exact h
      · exact hn
  · rw [if_neg h, List.mem_append, List.mem_singleton, or_comm]

theorem mem_bindings_bindRequest {r : Registry} {q : Request} {n : String} {b : DeclId × String} :
    b ∈ (r.bindRequest q).bindings n ↔
      b ∈ r.bindings n ∨ n = q.name ∧ b = (q.decl, q.origin) := by
  rw [bindings_bindRequest]
  by_cases h : n = q.name
  · simp [h]
  · simp [h]

theorem mem_clauses_bindRequest {r : Registry} {q : Request} {o : String} {c : Clause} :
    c ∈ (r.bindRequest q).clauses o ↔
      c ∈ r.clauses o ∨ o = q.origin ∧ c = ⟨q.exported, q.name⟩ := by
  rw [clauses_bindRequest]
  by_cases h : o = q.origin
  · simp [h]
  · simp [h]

theorem bindings_eq_nil_of_not_mem_keys {r : Registry} {n : String} (h : n ∉ r.names.keys) :
    r.bindings n = [] := by
  rw [bindings, (Table.find?_eq_none_iff r.names n).mpr h]
  rfl

theorem mem_keys_of_mem_bindings {r : Registry} {n : String} {b : DeclId × String}
    (h : b ∈ r.bindings n) : n ∈ r.names.keys := by
  by_contra hn
  rw [bindings_eq_nil_of_not_mem_keys hn] at h
  exact List.not_mem_nil h

/-- All that a registration can do. -/
theorem enter_cases (r : Registry) (q : Request) :
    ((∃ o, (q.decl, o) ∈ r.bindings q.name) ∧ r.enter q = r) ∨
    ((∀ o, (q.decl, o) ∉ r.bindings q.name) ∧
      (q.name ∉ r.names.keys ∨ ∃ d, (d, q.origin) ∈ r.bindings q.name) ∧
      r.enter q = r.bindRequest q) ∨
    ((∀ o, (q.decl, o) ∉ r.bindings q.name) ∧ q.name ∈ r.names.keys ∧
      (∀ d, (d, q.origin) ∉ r.bindings q.name) ∧
      r.enter q = (r.bindRequest q).markOverloaded q.name) := by
  cases hk : r.names.find? q.name with
  | none =>
    have hn : q.name ∉ r.names.keys := (Table.find?_eq_none_iff _ _).mp hk
    refine Or.inr (Or.inl ⟨?_, Or.inl hn, ?_⟩)
    · intro o
      simp [bindings_eq_nil_of_not_mem_keys hn]
    · simp [enter, register, hk, bindRequest]
  | some known =>
    have hb : r.bindings q.name = known := by simp [bindings, hk]
    have hn : q.name ∈ r.names.keys := (Table.mem_keys_iff _ _).mpr ⟨known, hk⟩
    rw [hb]
    cases hd : known.find? (fun b => decide (b.1 = q.decl)) with
    | some b =>
      have h1 : b.1 = q.decl := by simpa using List.find?_some hd
      refine Or.inl ⟨⟨b.2, ?_⟩, ?_⟩
      · rw [← h1]
        exact List.mem_of_find?_eq_some hd
      · simp [enter, register, hk, hd]
    | none =>
      have hfresh : ∀ o, (q.decl, o) ∉ known := by
        intro o ho
        have := List.find?_eq_none.mp hd _ ho
        simp at this
      by_cases hs : known.any (fun b => decide (b.2 = q.origin))
      · obtain ⟨b, hbm, hbo⟩ := List.any_eq_true.mp hs
        have hbo : b.2 = q.origin := by simpa using hbo
        refine Or.inr (Or.inl ⟨hfresh, Or.inr ⟨b.1, hbo ▸ hbm⟩, ?_⟩)
        simp [enter, register, hk, hd, hs, bindRequest]
      · refine Or.inr (Or.inr ⟨hfresh, hn, ?_, ?_⟩)
        · intro d hdm
          exact hs (List.any_eq_true.mpr ⟨_, hdm, by simp⟩)
        · simp only [enter, register, hk, hd, hs]
          rfl

/-- What any sequence of registrations keeps: keys stand once, a clause in a line has its
declaration under its name, and a name with declarations from two origins is overloaded. -/
structure Sound (r : Registry) : Prop where
  names_nodup : r.names.keys.Nodup
  origins_nodup : r.origins.keys.Nodup
  bound : ∀ o c, c ∈ r.clauses o → ∃ d, (d, o) ∈ r.bindings c.name
  overloaded_named : ∀ n ∈ r.overloaded, n ∈ r.names.keys
  one_origin : ∀ n, n ∉ r.overloaded → ∀ b ∈ r.bindings n, ∀ b' ∈ r.bindings n, b.2 = b'.2

theorem sound_empty : Sound empty where
  names_nodup := List.nodup_nil
  origins_nodup := List.nodup_nil
  bound := by simp
  overloaded_named := by simp [empty]
  one_origin := by simp

/-- An entry keeps all but that the name has one origin. -/
theorem Sound.bound_bindRequest {r : Registry} (h : r.Sound) (q : Request) (o : String)
    (c : Clause) (hc : c ∈ (r.bindRequest q).clauses o) :
    ∃ d, (d, o) ∈ (r.bindRequest q).bindings c.name := by
  rcases mem_clauses_bindRequest.mp hc with hc | ⟨rfl, rfl⟩
  · obtain ⟨d, hd⟩ := h.bound o c hc
    exact ⟨d, mem_bindings_bindRequest.mpr (Or.inl hd)⟩
  · exact ⟨q.decl, mem_bindings_bindRequest.mpr (Or.inr ⟨rfl, rfl⟩)⟩

theorem Sound.bindRequest {r : Registry} (h : r.Sound) {q : Request}
    (hq : q.name ∉ r.names.keys ∨ ∃ d, (d, q.origin) ∈ r.bindings q.name) :
    (r.bindRequest q).Sound where
  names_nodup := Table.nodup_keys_insert _ _ _ h.names_nodup
  origins_nodup := Table.nodup_keys_insert _ _ _ h.origins_nodup
  bound := h.bound_bindRequest q
  overloaded_named n hn :=
    (Table.mem_keys_insert _ _ _ _).mpr (Or.inr (h.overloaded_named n hn))
  one_origin n hn := by
    have hold : ∀ b ∈ r.bindings n, n = q.name → b.2 = q.origin := by
      rintro b hb rfl
      rcases hq with hq | ⟨d, hd⟩
      · exact absurd (mem_keys_of_mem_bindings hb) hq
      · exact h.one_origin _ hn b hb _ hd
    intro b hb b' hb'
    rcases mem_bindings_bindRequest.mp hb with hb | ⟨hq, rfl⟩ <;>
      rcases mem_bindings_bindRequest.mp hb' with hb' | ⟨hq', rfl⟩
    · exact h.one_origin n hn b hb b' hb'
    · exact hold b hb hq'
    · exact (hold b' hb' hq).symm
    · rfl

theorem Sound.markOverloaded {r : Registry} (h : r.Sound) (q : Request) :
    ((r.bindRequest q).markOverloaded q.name).Sound where
  names_nodup := Table.nodup_keys_insert _ _ _ h.names_nodup
  origins_nodup := Table.nodup_keys_insert _ _ _ h.origins_nodup
  bound := h.bound_bindRequest q
  overloaded_named n hn := by
    rcases (mem_overloaded_markOverloaded _ _ _).mp hn with rfl | hn
    · exact (Table.mem_keys_insert _ _ _ _).mpr (Or.inl rfl)
    · exact (Table.mem_keys_insert _ _ _ _).mpr (Or.inr (h.overloaded_named n hn))
  one_origin n hn b hb b' hb' := by
    have hne : ¬ n = q.name := fun e => hn ((mem_overloaded_markOverloaded _ _ _).mpr (Or.inl e))
    have hn' : n ∉ r.overloaded :=
      fun e => hn ((mem_overloaded_markOverloaded _ _ _).mpr (Or.inr e))
    rw [bindings_markOverloaded, bindings_bindRequest, if_neg hne] at hb hb'
    exact h.one_origin n hn' b hb b' hb'

theorem Sound.enter {r : Registry} (h : r.Sound) (q : Request) : (r.enter q).Sound := by
  rcases r.enter_cases q with ⟨_, e⟩ | ⟨_, hq, e⟩ | ⟨_, _, _, e⟩
  · rw [e]
    exact h
  · rw [e]
    exact h.bindRequest hq
  · rw [e]
    exact h.markOverloaded q

theorem Sound.enterAll {r : Registry} (h : r.Sound) (qs : List Request) : (r.enterAll qs).Sound := by
  induction qs generalizing r with
  | nil => exact h
  | cons q qs ih => exact ih (h.enter q)

/-- A registration takes no entry away. -/
theorem bindings_enter {r : Registry} {n : String} {b : DeclId × String} (q : Request)
    (hb : b ∈ r.bindings n) : b ∈ (r.enter q).bindings n := by
  rcases r.enter_cases q with ⟨_, e⟩ | ⟨_, _, e⟩ | ⟨_, _, _, e⟩
  · rw [e]
    exact hb
  · rw [e]
    exact mem_bindings_bindRequest.mpr (Or.inl hb)
  · rw [e, bindings_markOverloaded]
    exact mem_bindings_bindRequest.mpr (Or.inl hb)

theorem bindings_enterAll {r : Registry} {n : String} {b : DeclId × String} (qs : List Request)
    (hb : b ∈ r.bindings n) : b ∈ (r.enterAll qs).bindings n := by
  induction qs generalizing r with
  | nil => exact hb
  | cons q qs ih => exact ih (bindings_enter q hb)

/-- A clause comes from a registration that makes an entry. -/
theorem clauses_enter {r : Registry} {q : Request} {o : String} {c : Clause}
    (hc : c ∈ (r.enter q).clauses o) :
    c ∈ r.clauses o ∨ (o = q.origin ∧ c = ⟨q.exported, q.name⟩) ∧
      (q.decl, q.origin) ∈ (r.enter q).bindings q.name := by
  have hbound : (q.decl, q.origin) ∈ (r.bindRequest q).bindings q.name :=
    mem_bindings_bindRequest.mpr (Or.inr ⟨rfl, rfl⟩)
  rcases r.enter_cases q with ⟨_, e⟩ | ⟨_, _, e⟩ | ⟨_, _, _, e⟩
  · rw [e] at hc
    exact Or.inl hc
  · rw [e] at hc ⊢
    exact (mem_clauses_bindRequest.mp hc).imp_right fun hq => ⟨hq, hbound⟩
  · rw [e] at hc ⊢
    exact (mem_clauses_bindRequest.mp hc).imp_right fun hq => ⟨hq, hbound⟩

theorem clauses_enterAll {r : Registry} {qs : List Request} {o : String} {c : Clause}
    (hc : c ∈ (r.enterAll qs).clauses o) :
    c ∈ r.clauses o ∨ ∃ q ∈ qs, (o = q.origin ∧ c = ⟨q.exported, q.name⟩) ∧
      (q.decl, q.origin) ∈ (r.enterAll qs).bindings q.name := by
  induction qs generalizing r with
  | nil => exact Or.inl hc
  | cons q qs ih =>
    rcases ih hc with h | ⟨q', hq', h⟩
    · rcases clauses_enter h with h | ⟨h, hb⟩
      · exact Or.inl h
      · exact Or.inr ⟨q, List.mem_cons_self, h, bindings_enterAll qs hb⟩
    · exact Or.inr ⟨q', List.mem_cons_of_mem _ hq', h⟩

end Registry

end BarrelAlias.Barrel
