import BarrelAlias.Proofs.Registry
import Mathlib.Data.List.Nodup

/-!
The names under which a registry is published. Each overloaded name gets one qualified name for each
of its origins; every name that is given out is new among all names given so far and all plain ones.
So two clauses are published under one name only if they stand in one line under one name.
-/

namespace BarrelAlias.Barrel

namespace Naming

theorem numbered_injective (name : String) : Function.Injective fun n => name ++ Nat.repr n := by
  intro a b h
  have hl : name.toList ++ (Nat.repr a).toList = name.toList ++ (Nat.repr b).toList := by
    simpa using congrArg String.toList h
  have hd : Nat.toDigits 10 a = Nat.toDigits 10 b := by
    simpa only [Nat.toList_repr] using List.append_cancel_left hl
  simpa using congrArg (fun ds => Nat.ofDigitChars 10 ds 0) hd

/-- Among more numbers than there are names taken, one is free. -/
theorem exists_free_number (taken : List String) (name : String) :
    ∃ n ∈ List.range (taken.length + 1), name ++ Nat.repr (n + 2) ∉ taken := by
  by_contra h
  simp only [not_exists, not_and, not_not] at h
  have hsub : (List.range (taken.length + 1)).map (fun n => name ++ Nat.repr (n + 2)) ⊆ taken := by
    intro a ha
    obtain ⟨n, hn, rfl⟩ := List.mem_map.mp ha
    exact h n hn
  have hnd : ((List.range (taken.length + 1)).map fun n => name ++ Nat.repr (n + 2)).Nodup := by
    refine List.Nodup.map ?_ List.nodup_range
    intro a b hab
    have := numbered_injective name hab
    omega
  have hle := hnd.length_le_of_subset hsub
  rw [List.length_map, List.length_range] at hle
  omega

theorem freeNumber_not_mem (taken : List String) (name : String) :
    name ++ Nat.repr (freeNumber taken name) ∉ taken := by
  obtain ⟨m, hm, hfree⟩ := exists_free_number taken name
  unfold freeNumber
  cases hf : (List.range (taken.length + 1)).find?
      (fun n => decide (name ++ Nat.repr (n + 2) ∉ taken)) with
  | none =>
    have := List.find?_eq_none.mp hf m hm
    simp [hfree] at this
  | some n => simpa using List.find?_some hf

/-- An origin is given one name, which was not taken before. -/
theorem assign_spec (name : String) (n : Naming) (c : Choice) :
    ∃ a, a ∉ n.taken ∧ (assign name n c).taken = n.taken ++ [a] ∧
      (assign name n c).aliases = n.aliases.insert (c.origin, name) a := by
  by_cases h : c.pick ∈ n.taken
  · refine ⟨_, freeNumber_not_mem n.taken c.pick, ?_, ?_⟩
    · rw [assign, if_pos h]
    · rw [assign, if_pos h]
  · refine ⟨c.pick, h, ?_, ?_⟩
    · rw [assign, if_neg h]
    · rw [assign, if_neg h]

/-- Qualified names keep apart from each other and from the plain names. -/
structure Apart (plain : List String) (n : Naming) : Prop where
  plain_taken : ∀ a ∈ plain, a ∈ n.taken
  given_taken : ∀ k a, n.aliases.find? k = some a → a ∈ n.taken
  given_not_plain : ∀ k a, n.aliases.find? k = some a → a ∉ plain
  given_inj : ∀ k k' a, n.aliases.find? k = some a → n.aliases.find? k' = some a → k = k'

theorem Apart.assign {plain : List String} {n : Naming} (h : Apart plain n) (name : String)
    (c : Choice) : Apart plain (n.assign name c) := by
  obtain ⟨a, ha, ht, hal⟩ := assign_spec name n c
  have hfind : ∀ k b, (n.assign name c).aliases.find? k = some b →
      (k = (c.origin, name) ∧ b = a) ∨ (k ≠ (c.origin, name) ∧ n.aliases.find? k = some b) := by
    intro k b hk
    rw [hal, Table.find?_insert] at hk
    by_cases e : k = (c.origin, name)
    · rw [if_pos e] at hk
      exact Or.inl ⟨e, (Option.some.inj hk).symm⟩
    · rw [if_neg e] at hk
      exact Or.inr ⟨e, hk⟩
  refine ⟨?_, ?_, ?_, ?_⟩
  · intro b hb
    rw [ht]
    exact List.mem_append_left _ (h.plain_taken b hb)
  · intro k b hk
    rw [ht]
    rcases hfind k b hk with ⟨_, rfl⟩ | ⟨_, hk⟩
    · simp
    · exact List.mem_append_left _ (h.given_taken k b hk)
  · intro k b hk hb
    rcases hfind k b hk with ⟨_, rfl⟩ | ⟨_, hk⟩
    · exact ha (h.plain_taken b hb)
    · exact h.given_not_plain k b hk hb
  · intro k k' b hk hk'
    rcases hfind k b hk with ⟨e, rfl⟩ | ⟨_, hk⟩ <;> rcases hfind k' _ hk' with ⟨e', hb⟩ | ⟨_, hk'⟩
    · rw [e, e']
    · exact absurd (h.given_taken k' _ hk') ha
    · exact absurd (hb ▸ h.given_taken k _ hk) ha
    · exact h.given_inj k k' b hk hk'

theorem has_assign (name : String) (n : Naming) (c : Choice) (k : String × String) :
    ((n.assign name c).aliases.find? k).isSome ↔
      k = (c.origin, name) ∨ (n.aliases.find? k).isSome := by
  obtain ⟨a, _, _, hal⟩ := assign_spec name n c
  rw [hal, Table.find?_insert]
  by_cases e : k = (c.origin, name)
  · simp [e]
  · simp [e]

theorem Apart.foldl_assign {plain : List String} {n : Naming} (h : Apart plain n) (name : String)
    (cs : List Choice) : Apart plain (cs.foldl (Naming.assign name) n) := by
  induction cs generalizing n with
  | nil => exact h
  | cons c cs ih => exact ih (h.assign name c)

theorem has_foldl_assign (name : String) (cs : List Choice) (n : Naming) (k : String × String) :
    ((cs.foldl (Naming.assign name) n).aliases.find? k).isSome ↔
      (k.1 ∈ cs.map (·.origin) ∧ k.2 = name) ∨ (n.aliases.find? k).isSome := by
  induction cs generalizing n with
  | nil => simp
  | cons c cs ih =>
    rw [List.foldl_cons, ih, has_assign, List.map_cons, List.mem_cons, Prod.ext_iff]
    constructor
    · rintro (⟨h, hn⟩ | ⟨h, hn⟩ | h)
      · exact Or.inl ⟨Or.inr h, hn⟩
      · exact Or.inl ⟨Or.inl h, hn⟩
      · exact Or.inr h
    · rintro (⟨h | h, hn⟩ | h)
      · exact Or.inr (Or.inl ⟨h, hn⟩)
      · exact Or.inl ⟨h, hn⟩
      · exact Or.inr (Or.inr h)

end Naming

namespace Choice

theorem origin_widen (c : Choice) : c.widen.origin = c.origin := by
  unfold widen
  split
  · rfl
  · rfl

theorem origins_step (taken : List String) (cs : List Choice) :
    (step taken cs).map (·.origin) = cs.map (·.origin) := by
  rw [step, List.map_map]
  refine List.map_congr_left fun c _ => ?_
  simp only [Function.comp]
  split
  · exact origin_widen c
  · rfl

/-- The search moves from name to name and keeps the origins. -/
theorem origins_settle (taken : List String) (fuel : Nat) (cs : List Choice) :
    (settle taken fuel cs).map (·.origin) = cs.map (·.origin) := by
  induction fuel generalizing cs with
  | zero => rfl
  | succ fuel ih =>
    rw [settle]
    split
    · rfl
    · rw [ih, origins_step]

theorem origin_first (name origin : String) : (first name origin).origin = origin := by
  unfold first
  split
  · rfl
  · rfl

end Choice

namespace Registry

theorem origins_settled (r : Registry) (taken : List String) (name : String) :
    (r.settled taken name).map (·.origin) = r.originsOf name := by
  rw [settled, Choice.origins_settle, List.map_map]
  have h : (fun c : Choice => c.origin) ∘ Choice.first name = id :=
    funext (Choice.origin_first name)
  rw [h, List.map_id]

theorem mem_originsOf {r : Registry} {n o : String} :
    o ∈ r.originsOf n ↔ ∃ d, (d, o) ∈ r.bindings n := by
  simp [originsOf]

theorem apart_foldl_qualifyName (r : Registry) (names : List String) {n : Naming}
    (h : n.Apart r.plainNames) : (names.foldl r.qualifyName n).Apart r.plainNames := by
  induction names generalizing n with
  | nil => exact h
  | cons m names ih => exact ih (h.foldl_assign m _)

theorem has_foldl_qualifyName (r : Registry) (names : List String) (n : Naming)
    (k : String × String) :
    ((names.foldl r.qualifyName n).aliases.find? k).isSome ↔
      (k.2 ∈ names ∧ k.1 ∈ r.originsOf k.2) ∨ (n.aliases.find? k).isSome := by
  induction names generalizing n with
  | nil => simp
  | cons m names ih =>
    rw [List.foldl_cons, ih, qualifyName, Naming.has_foldl_assign, origins_settled, List.mem_cons]
    constructor
    · rintro (⟨hn, ho⟩ | ⟨ho, rfl⟩ | h)
      · exact Or.inl ⟨Or.inr hn, ho⟩
      · exact Or.inl ⟨Or.inl rfl, ho⟩
      · exact Or.inr h
    · rintro (⟨rfl | hn, ho⟩ | h)
      · exact Or.inr (Or.inl ⟨ho, rfl⟩)
      · exact Or.inl ⟨hn, ho⟩
      · exact Or.inr (Or.inr h)

theorem apart_qualify (r : Registry) : r.qualify.Apart r.plainNames := by
  refine apart_foldl_qualifyName r r.overloadedNames ⟨fun _ h => h, ?_, ?_, ?_⟩
  · simp
  · simp
  · simp

/-- Exactly the origins of overloaded names are given qualified names. -/
theorem has_qualify (r : Registry) (o n : String) :
    (r.qualify.aliases.find? (o, n)).isSome ↔ n ∈ r.overloadedNames ∧ o ∈ r.originsOf n := by
  rw [qualify, has_foldl_qualifyName]
  simp

theorem mem_overloadedNames {r : Registry} (h : r.Sound) {n : String} :
    n ∈ r.overloadedNames ↔ n ∈ r.overloaded := by
  simp only [overloadedNames, isOverloaded, List.mem_filter, decide_eq_true_eq]
  exact ⟨fun hn => hn.2, fun hn => ⟨h.overloaded_named n hn, hn⟩⟩

theorem mem_plainNames {r : Registry} {n : String} :
    n ∈ r.plainNames ↔ n ∈ r.names.keys ∧ n ∉ r.overloaded := by
  simp [plainNames, isOverloaded]

/-- A clause under a plain name is published under that name. -/
theorem published_plain {r : Registry} (h : r.Sound) {n : String} (o : String)
    (hn : n ∉ r.overloaded) : published r.qualify o n = n := by
  have hnone : r.qualify.aliases.find? (o, n) = none := by
    rw [← Option.not_isSome_iff_eq_none, has_qualify, mem_overloadedNames h]
    exact fun hh => hn hh.1
  rw [published, hnone]
  rfl

/-- A clause under an overloaded name is published under the name given to its origin. -/
theorem published_overloaded {r : Registry} (h : r.Sound) {o : String} {c : Clause}
    (hc : c ∈ r.clauses o) (hn : c.name ∈ r.overloaded) :
    r.qualify.aliases.find? (o, c.name) = some (published r.qualify o c.name) := by
  have hsome := (has_qualify r o c.name).mpr
    ⟨(mem_overloadedNames h).mpr hn, mem_originsOf.mpr (h.bound o c hc)⟩
  obtain ⟨a, ha⟩ := Option.isSome_iff_exists.mp hsome
  rw [published, ha]
  rfl

theorem Sound.plain_of_clause {r : Registry} (h : r.Sound) {o : String} {c : Clause}
    (hc : c ∈ r.clauses o) (hn : c.name ∉ r.overloaded) : c.name ∈ r.plainNames := by
  obtain ⟨d, hd⟩ := h.bound o c hc
  exact mem_plainNames.mpr ⟨mem_keys_of_mem_bindings hd, hn⟩

/-- Two clauses that are published under one name stand in one line, under one name. -/
theorem published_inj {r : Registry} (h : r.Sound) {o o' : String} {c c' : Clause}
    (hc : c ∈ r.clauses o) (hc' : c' ∈ r.clauses o')
    (heq : published r.qualify o c.name = published r.qualify o' c'.name) :
    o = o' ∧ c.name = c'.name := by
  have hap := r.apart_qualify
  by_cases hn : c.name ∈ r.overloaded <;> by_cases hn' : c'.name ∈ r.overloaded
  · have hk := published_overloaded h hc hn
    have hk' := published_overloaded h hc' hn'
    rw [← heq] at hk'
    exact Prod.ext_iff.mp (hap.given_inj _ _ _ hk hk')
  · have hk := published_overloaded h hc hn
    rw [heq, published_plain h o' hn'] at hk
    exact absurd (h.plain_of_clause hc' hn') (hap.given_not_plain _ _ hk)
  · have hk' := published_overloaded h hc' hn'
    rw [← heq, published_plain h o hn] at hk'
    exact absurd (h.plain_of_clause hc hn) (hap.given_not_plain _ _ hk')
  · rw [published_plain h o hn, published_plain h o' hn'] at heq
    obtain ⟨d, hd⟩ := h.bound o c hc
    obtain ⟨d', hd'⟩ := h.bound o' c' hc'
    rw [← heq] at hd'
    exact ⟨h.one_origin _ hn _ hd _ hd', heq⟩

end Registry

end BarrelAlias.Barrel
