import BarrelAlias.Proofs.Conflicts
import BarrelAlias.Proofs.Numbering
import Mathlib.Algebra.BigOperators.Group.List.Lemmas
import Mathlib.Algebra.GroupWithZero.Nat
import Mathlib.Data.List.Infix

/-!
How often an overloaded name is reported. Each origin of a name after the first is reported as it comes
up, with all origins so far, so the entries about a name list its first two origins, its first three,
and so on. The number of entries is therefore not that of the overloaded names: the two are equal only if
each of the names has two origins.
-/

namespace BarrelAlias.Barrel

open Linkage (Load Loader)

/-- The entries about each name list the beginnings of its origins that have two or more of them. -/
def ListedInTurn (r : Registry) (cs : List Conflict) : Prop :=
  ∀ n, (cs.filter (·.name = n)).map Conflict.origins = (r.originsOf n).inits.drop 2

/-- One more item adds the whole list to the beginnings of two or more, unless there was none before. -/
theorem drop_inits_concat {α : Type} {xs : List α} (h : xs ≠ []) (x : α) :
    (xs ++ [x]).inits.drop 2 = xs.inits.drop 2 ++ [xs ++ [x]] := by
  have hlen : 2 ≤ xs.inits.length := by
    rw [List.length_inits]
    exact Nat.succ_le_succ (List.length_pos_of_ne_nil h)
  rw [List.inits_append, List.drop_append_of_le_length hlen]
  rfl

namespace Draft

/-- Adding an export goes on with the list of its name. -/
theorem listedInTurn_add {o : String} {d : Draft} {e : Export}
    (hr : Reported d.registry d.conflicts) (h : ListedInTurn d.registry d.conflicts) :
    ListedInTurn (add o d e).registry (add o d e).conflicts := by
  intro n
  rcases add_cases o d e with ⟨hc, hsame | ⟨hq, hbind⟩⟩ | ⟨hc, hn, ho, hmark⟩
  · rw [hc, hsame]
    exact h n
  · rw [hc, hbind, h n, Registry.originsOf_bindRequest]
    split
    · next hnew =>
      obtain ⟨rfl, hnew⟩ := hnew
      have hnone : d.registry.originsOf e.name = [] := by
        have hq := hq.resolve_right hnew
        rw [Registry.originsOf, Registry.bindings_eq_nil_of_not_mem_keys hq]
        rfl
      rw [hnone]
      rfl
    · rfl
  · rw [hc, hmark, Registry.originsOf_markOverloaded, Registry.originsOf_bindRequest,
      List.filter_append, List.map_append, h n]
    by_cases hname : n = e.name
    · subst hname
      rw [if_pos ⟨rfl, ho⟩, drop_inits_concat (hr.held _ hn)]
      simp
    · rw [if_neg fun hnew => hname hnew.1]
      simp [Ne.symm hname]

theorem listedInTurn_ofFiles {t : FileTree} {outDir : Path} {files : List Path} {l l' : Loader}
    {d : Draft} (h : (ofFiles t outDir files).exec l = (.ok d, l')) :
    ListedInTurn d.registry d.conflicts := by
  have hboth := ofFiles_keeps
    (P := fun d => Reported d.registry d.conflicts ∧ ListedInTurn d.registry d.conflicts)
    ⟨reported_empty, fun _ => rfl⟩
    (fun o d e hd => ⟨reported_add hd.1 o e, listedInTurn_add hd.1 hd.2⟩) h
  exact hboth.2

end Draft

/-- A list is as long as the lists of its items under each of the names that occur. -/
theorem length_eq_sum_filter {α : Type} {xs : List α} {name : α → String} {ns : List String}
    (hnd : ns.Nodup) (h : ∀ n, n ∈ ns ↔ ∃ x ∈ xs, name x = n) :
    xs.length = (ns.map fun n => (xs.filter (name · = n)).length).sum := by
  have hperm : ns.Perm (xs.map name).dedup := by
    refine (List.perm_ext_iff_of_nodup hnd (List.nodup_dedup _)).mpr fun n => ?_
    rw [List.mem_dedup, List.mem_map, h]
  have hcount : (fun n => (xs.filter (name · = n)).length) = fun n => (xs.map name).count n := by
    funext n
    rw [List.count_eq_countP, List.countP_map, List.countP_eq_length_filter]
    rfl
  rw [hcount, (hperm.map _).sum_eq, List.sum_map_count_dedup_eq_length, List.length_map]

/-- Numbers that are all at least one add up to how many they are only if each of them is one. -/
theorem sum_eq_length_iff {α : Type} {xs : List α} {f : α → Nat} (h : ∀ x ∈ xs, 1 ≤ f x) :
    (xs.map f).sum = xs.length ↔ ∀ x ∈ xs, f x = 1 := by
  have hle : ∀ ys : List α, (∀ y ∈ ys, 1 ≤ f y) → ys.length ≤ (ys.map f).sum := by
    intro ys hys
    simpa using List.length_le_sum_of_one_le (ys.map f) (by simpa using hys)
  induction xs with
  | nil => simp
  | cons x xs ih =>
    rw [List.forall_mem_cons] at h
    have hxs := hle xs h.2
    rw [List.map_cons, List.sum_cons, List.length_cons, List.forall_mem_cons]
    refine Iff.trans ?_ (and_congr Iff.rfl (ih h.2))
    omega

namespace Draft

/-- For the barrel of any files: the entries about a name list the beginnings of its origins that have
two or more of them, in turn, so the report has an entry less for each overloaded name than the name has
origins. The number of entries is that of the overloaded names, and each of these is listed once, exactly
if each of them has two origins. -/
theorem conflicts_counted {t : FileTree} {outDir : Path} {files : List Path} {l l' : Loader} {d : Draft}
    (h : (ofFiles t outDir files).exec l = (.ok d, l')) :
    (∀ n, (d.conflicts.filter (·.name = n)).map Conflict.origins =
      (d.registry.originsOf n).inits.drop 2) ∧
    d.registry.overloadedNames.Nodup ∧
    (∀ n, n ∈ d.registry.overloadedNames ↔ 2 ≤ (d.registry.originsOf n).length) ∧
    d.conflicts.length =
      (d.registry.overloadedNames.map fun n => (d.registry.originsOf n).length - 1).sum ∧
    (∀ n ∈ d.registry.overloadedNames, (d.conflicts.filter (·.name = n)).length = 1 ↔
      (d.registry.originsOf n).length = 2) ∧
    (d.conflicts.length = d.registry.overloadedNames.length ↔
      ∀ n ∈ d.registry.overloadedNames, (d.registry.originsOf n).length = 2) := by
  have hrep := reported_ofFiles h
  have hturn := listedInTurn_ofFiles h
  have hnd := Registry.nodup_overloadedNames hrep.sound
  have hmem : ∀ n, n ∈ d.registry.overloadedNames ↔ ∃ c ∈ d.conflicts, c.name = n := by
    intro n
    rw [Registry.mem_overloadedNames hrep.sound, hrep.exists_conflict_iff]
  have hcount : ∀ n, (d.conflicts.filter (·.name = n)).length =
      (d.registry.originsOf n).length - 1 := by
    intro n
    have hlen := congrArg List.length (hturn n)
    rwa [List.length_map, List.length_drop, List.length_inits] at hlen
  have htwo : ∀ n, n ∈ d.registry.overloadedNames ↔ 2 ≤ (d.registry.originsOf n).length := by
    intro n
    have hpos : (∃ c ∈ d.conflicts, c.name = n) ↔
        0 < (d.conflicts.filter (·.name = n)).length := by
      rw [List.length_pos_iff_exists_mem]
      simp
    rw [hmem, hpos, hcount]
    omega
  have hsum : d.conflicts.length =
      (d.registry.overloadedNames.map fun n => (d.registry.originsOf n).length - 1).sum := by
    rw [length_eq_sum_filter hnd hmem]
    simp only [hcount]
  refine ⟨hturn, hnd, htwo, hsum, fun n hn => ?_, ?_⟩
  · rw [hcount]
    have := (htwo n).mp hn
    omega
  · have hone : ∀ n ∈ d.registry.overloadedNames, 1 ≤ (d.registry.originsOf n).length - 1 := by
      intro n hn
      have := (htwo n).mp hn
      omega
    rw [hsum, sum_eq_length_iff hone]
    refine forall₂_congr fun n hn => ?_
    have := (htwo n).mp hn
    omega

def threeRivals : FileTree := ⟨⟨[
  (["a.ts"], .file (.text "export{x}")),
  (["b.ts"], .file (.text "export{x}")),
  (["c.ts"], .file (.text "export{x}"))]⟩⟩

/-- That one name is reported twice, first with two of its origins and then with all three. -/
theorem threeRivals_listed_twice : ∃ d l',
    (ofFiles threeRivals .top [⟨true, ["a.ts"]⟩, ⟨true, ["b.ts"]⟩, ⟨true, ["c.ts"]⟩]).exec .empty =
      (.ok d, l') ∧
    d.registry.overloadedNames = ["x"] ∧ d.conflicts.length = 2 ∧
    (d.conflicts.filter (·.name = "x")).map Conflict.origins =
      [["./a", "./b"], ["./a", "./b", "./c"]] := by
  rcases hx : (ofFiles threeRivals .top
    [⟨true, ["a.ts"]⟩, ⟨true, ["b.ts"]⟩, ⟨true, ["c.ts"]⟩]).exec .empty with ⟨r, l'⟩
  have hmade : ((ofFiles threeRivals .top
      [⟨true, ["a.ts"]⟩, ⟨true, ["b.ts"]⟩, ⟨true, ["c.ts"]⟩]).exec .empty).1.toOption.map (fun d =>
        (d.registry.overloadedNames, d.registry.originsOf "x")) =
      some (["x"], ["./a", "./b", "./c"]) := by decide +kernel
  rw [hx] at hmade
  cases r with
  | error f => simp [Except.toOption] at hmade
  | ok d =>
    simp only [Except.toOption, Option.map_some, Option.some.injEq, Prod.mk.injEq] at hmade
    obtain ⟨hnames, horigins⟩ := hmade
    obtain ⟨hturn, _, _, hsum, _⟩ := conflicts_counted hx
    refine ⟨d, l', rfl, hnames, ?_, ?_⟩
    · rw [hsum, hnames]
      simp [horigins]
    · rw [hturn, horigins]
      decide +kernel

end Draft

end BarrelAlias.Barrel
