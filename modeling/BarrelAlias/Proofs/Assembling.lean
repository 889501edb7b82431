import BarrelAlias.Proofs.Parts

/-!
What stands under a name in an assembled map. An explicit export adds to what stands under its name and
leaves all other names alone; passing on a file adds only names that are not there yet, so the first
file that has a name wins; names without declarations are left out in the end.
-/

namespace BarrelAlias

namespace Table

variable {κ ν : Type}

theorem nodup_keys_keep (t : Table κ ν) (h : t.keys.Nodup) (p : κ → ν → Bool) :
    (t.keep p).keys.Nodup :=
  (List.filter_sublist.map Prod.fst).nodup h

variable [DecidableEq κ]

/-- Where no key stands twice, dropping entries drops what is found under their keys. -/
theorem find?_keep (t : Table κ ν) (h : t.keys.Nodup) (p : κ → ν → Bool) (k : κ) :
    (t.keep p).find? k = (t.find? k).filter (p k) := by
  refine Option.ext fun v => ?_
  rw [← mem_entries_iff _ (nodup_keys_keep t h p), Option.filter_eq_some_iff, ← mem_entries_iff _ h]
  exact List.mem_filter

end Table

namespace Linkage

section

variable {α : Type}

theorem addUnique_append [DecidableEq α] (ids new more : List α) :
    addUnique ids (new ++ more) = addUnique (addUnique ids new) more := List.foldl_append

theorem find?_addUnder [DecidableEq α] (m : Table String (List α)) (name : String) (ids : List α)
    (n : String) :
    (addUnder m name ids).find? n =
      if n = name then some (addUnique ((m.find? name).getD []) ids) else m.find? n :=
  Table.find?_insert m name n _

/-- What is passed on stands behind what is there, and a default export is not passed on. -/
theorem find?_addStar (m new : Table String (List α)) (n : String) :
    (addStar m new).find? n =
      (m.find? n).or (if n = "default" then none else new.find? n) := by
  obtain ⟨es⟩ := new
  unfold addStar
  induction es generalizing m with
  | nil =>
    have hnil : (Table.mk ([] : List (String × List α))).find? n = none := rfl
    rw [hnil, ite_self, Option.or_none]
    rfl
  | cons e es ih =>
    obtain ⟨name, ids⟩ := e
    have hcons : (Table.mk ((name, ids) :: es)).find? n =
        if name = n then some ids else (Table.mk es).find? n := by
      by_cases hn : name = n
      · simp [Table.find?, hn]
      · simp [Table.find?, hn]
    rw [List.foldl_cons, ih, hcons]
    by_cases hskip : name = "default" ∨ m.has name
    · simp only [hskip, ↓reduceIte]
      by_cases hn : name = n
      · subst hn
        rcases hskip with hdef | hhas
        · simp [hdef]
        · obtain ⟨v, hv⟩ := Option.isSome_iff_exists.mp hhas
          simp [hv]
      · rw [if_neg hn]
    · simp only [hskip, ↓reduceIte]
      rw [not_or] at hskip
      rw [Table.find?_insert]
      by_cases hn : n = name
      · subst hn
        have hnone : m.find? n = none := by simpa [Table.has] using hskip.2
        simp [hnone, hskip.1]
      · rw [if_neg hn, if_neg (Ne.symm hn)]

theorem nodup_keys_addStar {m : Table String (List α)} (h : m.keys.Nodup)
    (new : Table String (List α)) : (addStar m new).keys.Nodup := by
  obtain ⟨es⟩ := new
  unfold addStar
  induction es generalizing m with
  | nil => exact h
  | cons e es ih =>
    rw [List.foldl_cons]
    refine ih ?_
    dsimp only
    split
    · exact h
    · exact Table.nodup_keys_insert m e.1 e.2 h

end

theorem Part.nodup_keys_add {m : KeyMap} (h : m.keys.Nodup) (answer : KeyMap) (p : Part) :
    (p.add m answer).keys.Nodup := by
  cases p with
  | entry exported source kept =>
    rw [Part.add]
    split
    · exact h
    · exact Table.nodup_keys_insert m exported _ h
  | all target => exact nodup_keys_addStar h answer

theorem addAll_append (m : KeyMap) (ps qs : List (Part × KeyMap)) :
    addAll m (ps ++ qs) = addAll (addAll m ps) qs := List.foldl_append

theorem nodup_keys_addAll {m : KeyMap} (h : m.keys.Nodup) (ps : List (Part × KeyMap)) :
    (addAll m ps).keys.Nodup := by
  unfold addAll
  induction ps generalizing m with
  | nil => exact h
  | cons p ps ih =>
    rw [List.foldl_cons]
    exact ih (p.1.nodup_keys_add h p.2)

theorem nodup_keys_addAll_empty (ps : List (Part × KeyMap)) :
    (addAll .empty ps).keys.Nodup := by
  refine nodup_keys_addAll ?_ ps
  exact List.nodup_nil

/-- Of the files that are passed on, the first one that has a name wins. -/
theorem find?_addAll_stars {ps : List Part} (h : ∀ p ∈ ps, ∃ g, p = .all g) {answers : List KeyMap}
    (hlen : ps.length = answers.length) (m : KeyMap) (n : String) :
    (addAll m (ps.zip answers)).find? n =
      (m.find? n).or (if n = "default" then none else answers.findSome? (·.find? n)) := by
  unfold addAll
  induction ps generalizing answers m with
  | nil =>
    cases answers with
    | nil => simp
    | cons a answers => cases hlen
  | cons p ps ih =>
    cases answers with
    | nil => cases hlen
    | cons a answers =>
      obtain ⟨⟨g, rfl⟩, hps⟩ := List.forall_mem_cons.mp h
      rw [List.zip_cons_cons, List.foldl_cons, ih hps (Nat.succ.inj hlen), Part.add, find?_addStar,
        Option.or_assoc, List.findSome?_cons]
      congr 1
      by_cases hn : n = "default"
      · simp [hn]
      · simp only [hn, ↓reduceIte]
        cases a.find? n <;> rfl

/-- Nothing without declarations is left in an assembled map. -/
theorem find?_assemble (ps : List Part) (answers : List KeyMap) (n : String) :
    (assemble ps answers).find? n =
      ((addAll .empty (ps.zip answers)).find? n).filter fun ks => !ks.isEmpty :=
  Table.find?_keep _ (nodup_keys_addAll_empty _) (fun _ ks => !ks.isEmpty) n

theorem nodup_keys_assemble (ps : List Part) (answers : List KeyMap) :
    (assemble ps answers).keys.Nodup :=
  Table.nodup_keys_keep _ (nodup_keys_addAll_empty _) _

theorem exists_all_of_mem {t : FileTree} {S : List (List Step)} {file : Path} {sources : List String}
    {p : Part} (h : p ∈ sources.filterMap (starPart? t S file)) : ∃ g, p = .all g := by
  obtain ⟨source, _, hpart⟩ := List.mem_filterMap.mp h
  obtain ⟨g, hg, _⟩ := exists_all_of_starPart? hpart
  exact ⟨g, hg⟩

end Linkage

end BarrelAlias
