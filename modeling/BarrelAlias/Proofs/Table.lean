import BarrelAlias.Table
import Mathlib.Data.List.Basic

/-!
Tables as finite maps. Every operation is described by what it does to `find?` and to the list of
keys; a table whose keys stand once each is determined by its entries.
-/

namespace BarrelAlias

/-- Items that are sorted by a key stand in the order of their keys. -/
theorem pairwise_mergeSort_compare {α β : Type} [Ord β] [Std.TransOrd β] (key : α → β)
    (xs : List α) :
    (xs.mergeSort fun a b => (compare (key a) (key b)).isLE).Pairwise
      fun a b => (compare (key a) (key b)).isLE := by
  refine List.pairwise_mergeSort ?_ ?_ xs
  · intro a b c
    exact Std.TransCmp.isLE_trans
  · intro a b
    have hswap : compare (key b) (key a) = (compare (key a) (key b)).swap :=
      Std.OrientedCmp.eq_swap
    rw [hswap]
    cases compare (key a) (key b) <;> rfl

theorem mapM_eq_some {α β : Type} {f : α → Option β} {g : α → β} {xs : List α}
    (h : ∀ x ∈ xs, f x = some (g x)) : xs.mapM f = some (xs.map g) := by
  induction xs with
  | nil => rfl
  | cons x xs ih =>
    rw [List.mapM_cons, h x List.mem_cons_self, ih fun y hy => h y (List.mem_cons_of_mem x hy)]
    rfl

namespace Table

variable {κ ν : Type} [DecidableEq κ]

theorem find?_insert (t : Table κ ν) (k j : κ) (v : ν) :
    (t.insert k v).find? j = if j = k then some v else t.find? j := by
  by_cases h : j = k
  · subst h
    simp
  · rw [find?_insert_ne t v h, if_neg h]

theorem find?_erase (t : Table κ ν) (k j : κ) :
    (t.erase k).find? j = if j = k then none else t.find? j := by
  unfold erase find?
  by_cases hj : j = k
  · subst hj
    have hnone : (t.entries.filter (·.1 ≠ j)).find? (·.1 = j) = none := by
      rw [List.find?_eq_none]
      intro e he
      simpa using (List.mem_filter.mp he).2
    rw [hnone, if_pos rfl]
    rfl
  · have hsame : (fun e : κ × ν => decide (e.1 ≠ k) && decide (e.1 = j)) =
        fun e => decide (e.1 = j) := by
      funext e
      by_cases he : e.1 = j
      · simp [he, hj]
      · simp [he]
    rw [if_neg hj, List.find?_filter]
    simpa using congrArg (fun p => (t.entries.find? p).map (·.2)) hsame

theorem mem_keys_iff (t : Table κ ν) (k : κ) : k ∈ t.keys ↔ ∃ v, t.find? k = some v := by
  simp only [keys, find?, List.mem_map, Option.map_eq_some_iff]
  constructor
  · rintro ⟨e, he, rfl⟩
    cases hf : t.entries.find? (fun x => decide (x.1 = e.1)) with
    | none =>
      have := List.find?_eq_none.mp hf e he
      simp at this
    | some x => exact ⟨x.2, x, rfl, rfl⟩
  · rintro ⟨v, e, he, rfl⟩
    exact ⟨e, List.mem_of_find?_eq_some he, by simpa using List.find?_some he⟩

theorem find?_eq_none_iff (t : Table κ ν) (k : κ) : t.find? k = none ↔ k ∉ t.keys := by
  rw [mem_keys_iff]
  cases t.find? k <;> simp

theorem mem_put_keys (k j : κ) (v : ν) (es : List (κ × ν)) :
    j ∈ (put k v es).map (·.1) ↔ j = k ∨ j ∈ es.map (·.1) := by
  induction es with
  | nil => simp [put]
  | cons e es ih =>
    by_cases h : e.1 = k
    · simp [put, h]
    · simp only [put, h, ↓reduceIte, List.map_cons, List.mem_cons, ih]
      exact or_left_comm

theorem mem_keys_insert (t : Table κ ν) (k j : κ) (v : ν) :
    j ∈ (t.insert k v).keys ↔ j = k ∨ j ∈ t.keys :=
  mem_put_keys k j v t.entries

/-- A new key stands after all others. -/
theorem keys_insert (t : Table κ ν) (k : κ) (v : ν) :
    (t.insert k v).keys = if k ∈ t.keys then t.keys else t.keys ++ [k] := by
  obtain ⟨es⟩ := t
  unfold insert keys
  induction es with
  | nil => simp [put]
  | cons e es ih =>
    dsimp only at ih ⊢
    rw [put]
    by_cases he : e.1 = k
    · simp [he]
    · rw [if_neg he, List.map_cons, ih]
      simp only [List.map_cons, List.mem_cons, Ne.symm he, false_or]
      split <;> rfl

theorem nodup_put_keys (k : κ) (v : ν) (es : List (κ × ν)) (h : (es.map (·.1)).Nodup) :
    ((put k v es).map (·.1)).Nodup := by
  induction es with
  | nil => simp [put]
  | cons e es ih =>
    rw [List.map_cons, List.nodup_cons] at h
    by_cases he : e.1 = k
    · subst he
      simp only [put, ↓reduceIte, List.map_cons, List.nodup_cons]
      exact h
    · simp only [put, he, ↓reduceIte, List.map_cons, List.nodup_cons]
      refine ⟨?_, ih h.2⟩
      rw [mem_put_keys]
      rintro (e' | hm)
      · exact he e'
      · exact h.1 hm

theorem nodup_keys_insert (t : Table κ ν) (k : κ) (v : ν) (h : t.keys.Nodup) :
    (t.insert k v).keys.Nodup :=
  nodup_put_keys k v t.entries h

/-- Where no key stands twice, the entries are the graph of `find?`. -/
theorem mem_entries_iff (t : Table κ ν) (h : t.keys.Nodup) (k : κ) (v : ν) :
    (k, v) ∈ t.entries ↔ t.find? k = some v := by
  obtain ⟨es⟩ := t
  simp only [keys] at h
  simp only [find?]
  induction es with
  | nil => simp
  | cons e es ih =>
    rw [List.map_cons, List.nodup_cons] at h
    by_cases he : e.1 = k
    · have hk : (k, v) ∉ es := fun hm => h.1 (he ▸ List.mem_map_of_mem hm)
      subst he
      simp [hk, Prod.ext_iff, eq_comm]
    · simp only [List.mem_cons, ih h.2, List.find?_cons, he, decide_false]
      constructor
      · rintro (rfl | hm)
        · exact absurd rfl he
        · exact hm
      · exact Or.inr

theorem mem_put {k : κ} {v : ν} {es : List (κ × ν)} {e : κ × ν} (h : e ∈ put k v es) :
    e = (k, v) ∨ e ∈ es := by
  induction es with
  | nil => exact Or.inl (List.mem_singleton.mp h)
  | cons first es ih =>
    rw [put] at h
    split at h
    · next hfirst =>
      rcases List.mem_cons.mp h with rfl | h
      · exact Or.inl (Prod.ext hfirst rfl)
      · exact Or.inr (List.mem_cons_of_mem first h)
    · rcases List.mem_cons.mp h with rfl | h
      · exact Or.inr (List.mem_cons_self ..)
      · exact (ih h).imp_right (List.mem_cons_of_mem first)

def All (P : κ → ν → Prop) (t : Table κ ν) : Prop := ∀ k v, (k, v) ∈ t.entries → P k v

section All

variable {P : κ → ν → Prop} {t : Table κ ν} {k : κ} {v : ν}

omit [DecidableEq κ] in
theorem all_empty : (empty : Table κ ν).All P := fun _ _ h => by cases h

omit [DecidableEq κ] in
theorem All.keep (h : t.All P) (p : κ → ν → Bool) : (t.keep p).All P :=
  fun k v he => h k v (List.mem_filter.mp he).1

theorem All.insert (h : t.All P) (hv : P k v) : (t.insert k v).All P := by
  intro k' v' he
  rcases mem_put he with he | he
  · cases he
    exact hv
  · exact h k' v' he

theorem All.of_find? (h : t.All P) (hv : t.find? k = some v) : P k v := by
  obtain ⟨⟨k', v'⟩, he, rfl⟩ := Option.map_eq_some_iff.mp hv
  have hk : k' = k := by simpa using List.find?_some he
  exact hk ▸ h k' v' (List.mem_of_find?_eq_some he)

end All

theorem put_of_not_mem {k : κ} {es : List (κ × ν)} (h : k ∉ es.map (·.1)) (v : ν) :
    put k v es = es ++ [(k, v)] := by
  induction es with
  | nil => rfl
  | cons e es ih =>
    rw [List.map_cons, List.mem_cons, not_or] at h
    rw [put, if_neg (Ne.symm h.1), ih h.2, List.cons_append]

theorem size_insert_of_new {t : Table κ ν} {k : κ} (h : t.find? k = none) (v : ν) :
    (t.insert k v).size = t.size + 1 := by
  rw [find?_eq_none_iff] at h
  rw [size, insert, put_of_not_mem h, List.length_append, List.length_singleton, size]

/-- Taking away what was added gives the table back. -/
theorem erase_insert {t : Table κ ν} {k : κ} (v : ν) (h : t.find? k = none) :
    (t.insert k v).erase k = t := by
  obtain ⟨es⟩ := t
  rw [find?_eq_none_iff, keys] at h
  unfold insert erase
  congr 1
  induction es with
  | nil => simp [put]
  | cons e es ih =>
    rw [List.map_cons, List.mem_cons, not_or] at h
    have he : e.1 ≠ k := fun he => h.1 he.symm
    rw [put, if_neg he, List.filter_cons, if_pos (by simpa using he)]
    exact congrArg (e :: ·) (ih h.2)

section Values

variable {μ : Type}

def mapValues (f : ν → μ) (t : Table κ ν) : Table κ μ := ⟨t.entries.map fun e => (e.1, f e.2)⟩

theorem find?_mapValues (f : ν → μ) (t : Table κ ν) (k : κ) :
    (t.mapValues f).find? k = (t.find? k).map f := by
  simp only [find?, mapValues, List.find?_map, Option.map_map]
  rfl

theorem mapValues_insert (f : ν → μ) (t : Table κ ν) (k : κ) (v : ν) :
    (t.insert k v).mapValues f = (t.mapValues f).insert k (f v) := by
  obtain ⟨es⟩ := t
  simp only [insert, mapValues, mk.injEq]
  induction es with
  | nil => rfl
  | cons e es ih =>
    rw [put, List.map_cons, put]
    by_cases he : e.1 = k
    · rw [if_pos he, if_pos he, List.map_cons]
    · rw [if_neg he, if_neg he, List.map_cons, ih]

omit [DecidableEq κ] in
theorem mapValues_congr {f g : ν → μ} {t : Table κ ν} (h : t.All fun _ v => f v = g v) :
    t.mapValues f = t.mapValues g := by
  refine congrArg Table.mk (List.map_congr_left ?_)
  intro e he
  rw [h e.1 e.2 he]

end Values

def numbering (ks : List κ) : Table κ Nat := ⟨ks.zipIdx⟩

section Numbering

variable {ks : List κ} {k : κ}

omit [DecidableEq κ] in
@[simp] theorem keys_numbering : (numbering ks).keys = ks := List.zipIdx_map_fst 0 ks

theorem find?_numbering : (numbering ks).find? k = ks.findIdx? (· = k) := by
  rw [List.findIdx?_eq_fst_find?_zipIdx]
  rfl

/-- Keys that stand once each are found at their numbers. -/
theorem find?_numbering_eq_some_iff (h : ks.Nodup) {i : Nat} :
    (numbering ks).find? k = some i ↔ ks[i]? = some k := by
  have hkeys : (numbering ks).keys.Nodup := by rwa [keys_numbering]
  rw [← mem_entries_iff _ hkeys]
  exact List.mem_zipIdx_iff_getElem?

theorem find?_numbering_of_mem (h : ks.Nodup) (hk : k ∈ ks) :
    (numbering ks).find? k = some (ks.idxOf k) :=
  (find?_numbering_eq_some_iff h).mpr (List.getElem?_idxOf hk)

theorem find?_numbering_of_not_mem (hk : k ∉ ks) : (numbering ks).find? k = none := by
  rw [find?_eq_none_iff, keys_numbering]
  exact hk

/-- A new key gets the next number. -/
theorem insert_numbering (h : k ∉ ks) :
    (numbering ks).insert k ks.length = numbering (ks ++ [k]) := by
  have hput : put k ks.length ks.zipIdx = ks.zipIdx ++ [(k, ks.length)] :=
    put_of_not_mem (by rwa [List.zipIdx_map_fst]) _
  rw [insert, numbering, hput, numbering, List.zipIdx_append]
  simp

end Numbering

/-- The entries are the keys with their values. -/
theorem entries_eq (t : Table κ ν) (h : t.keys.Nodup) {f : κ → ν}
    (hf : ∀ k ∈ t.keys, t.find? k = some (f k)) : t.entries = t.keys.map fun k => (k, f k) := by
  rw [keys, List.map_map]
  refine (List.map_id t.entries).symm.trans (List.map_congr_left ?_)
  rintro ⟨k, v⟩ he
  have hk : k ∈ t.keys := List.mem_map.mpr ⟨(k, v), he, rfl⟩
  have hv := (mem_entries_iff t h k v).mp he
  rw [hf k hk] at hv
  cases hv
  rfl

end Table

end BarrelAlias
