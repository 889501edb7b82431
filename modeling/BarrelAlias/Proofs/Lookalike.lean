import BarrelAlias.Proofs.Sorting
import Mathlib.Data.List.Nodup
import Mathlib.Data.List.Perm.Subperm

/-!
Trees that look alike. Two trees have the same folders, and the same things stand in them, except at some
places where only one of them may have a file. What a path leads to, what a walk finds and what globs
name is then the same but for files at these places: no content is looked at on the way, save that of
ignore files, and the fuel of a search is more than it can use.
-/

namespace BarrelAlias

open BarrelAlias.Path (IsName)

namespace FileTree

/-- The trees differ in no folder and in no place that stands, except that files may be new at some
places of one or the other. -/
structure Lookalike (t t' : FileTree) (new : Location → Prop) : Prop where
  folders : ∀ loc, t'.hasFolder loc = t.hasFolder loc
  standing : ∀ loc, ¬ new loc → (t'.node? loc).isSome = (t.node? loc).isSome
  leaves : ∀ loc, new loc → ¬ t.hasFolder loc

variable {t t' : FileTree} {new : Location → Prop}

theorem Lookalike.symm (h : t.Lookalike t' new) : t'.Lookalike t new where
  folders loc := (h.folders loc).symm
  standing loc hloc := (h.standing loc hloc).symm
  leaves loc hloc := by
    rw [h.folders]
    exact h.leaves loc hloc

theorem Lookalike.not_new (h : t.Lookalike t' new) {loc : Location} (hf : t.hasFolder loc) :
    ¬ new loc := fun hn => h.leaves loc hn hf

theorem isSome_of_hasFolder {loc : Location} (h : t.hasFolder loc) : (t.node? loc).isSome := by
  have hnode : t.node? loc = some .folder := by simpa [hasFolder] using h
  simp [hnode]

/-- Nothing lies below a place that is no folder. -/
theorem follow_of_not_hasFolder {loc loc' : Location} {ps : List String} (hf : ¬ t.hasFolder loc)
    (h : t.follow loc ps = .ok loc') : ps = [] ∧ loc' = loc := by
  cases ps with
  | nil =>
    cases h
    exact ⟨rfl, rfl⟩
  | cons p ps =>
    rw [follow, if_neg hf] at h
    cases h

theorem Lookalike.follow (h : t.Lookalike t' new) {loc loc' : Location} {ps : List String}
    (hf : t.follow loc ps = .ok loc') (hn : ¬ new loc') : t'.follow loc ps = .ok loc' := by
  induction ps generalizing loc with
  | nil => exact hf
  | cons p ps ih =>
    rw [FileTree.follow] at hf ⊢
    rw [h.folders]
    split at hf
    · next hfolder =>
      rw [if_pos hfolder]
      split at hf
      · next hp =>
        rw [if_pos hp]
        exact ih hf
      · next hp =>
        rw [if_neg hp]
        split at hf
        · next hup =>
          rw [if_pos hup]
          exact ih hf
        · next hup =>
          rw [if_neg hup]
          split at hf
          · next hsome =>
            have hkept : ¬ new (loc ++ [p]) := by
              intro hnew
              obtain ⟨_, rfl⟩ := follow_of_not_hasFolder (h.leaves _ hnew) hf
              exact hn hnew
            rw [h.standing _ hkept, if_pos hsome]
            exact ih hf
          · cases hf
    · cases hf

theorem Lookalike.locate (h : t.Lookalike t' new) {p : Path} {loc : Location}
    (hl : t.locate p = .ok loc) (hn : ¬ new loc) : t'.locate p = .ok loc := by
  unfold FileTree.locate at hl ⊢
  split at hl
  · next hr =>
    rw [if_pos hr]
    exact h.follow hl hn
  · cases hl

/-- Where nothing is new, paths also fail to lead anywhere in the same way. -/
theorem Lookalike.locate_eq (h : t.Lookalike t' fun _ => False) (p : Path) :
    t'.locate p = t.locate p := by
  have hfollow : ∀ loc ps, t'.follow loc ps = t.follow loc ps := by
    intro loc ps
    induction ps generalizing loc with
    | nil => rfl
    | cons p ps ih => simp only [FileTree.follow, h.folders, h.standing _ not_false, ih]
  rw [FileTree.locate, FileTree.locate, hfollow]

theorem canonical_of_locate {p : Path} {loc : Location} (h : t.locate p = .ok loc) :
    t.canonical p = loc.path := by
  simp [canonical, canonical?, h, Except.toOption]

theorem isFile_iff_locate {p : Path} :
    t.isFile p ↔ ∃ loc, t.locate p = .ok loc ∧ ¬ t.hasFolder loc := by
  rw [isFile_iff]
  constructor
  · rintro ⟨loc, c, hl, hn⟩
    exact ⟨loc, hl, by simp [hasFolder, hn]⟩
  · rintro ⟨loc, hl, hf⟩
    obtain ⟨c, hc⟩ := (placed_of_locate hl).isFile_of_not_hasFolder hf
    exact ⟨loc, c, hl, hc⟩

theorem isFolder_iff_locate {p : Path} :
    t.isFolder p ↔ ∃ loc, t.locate p = .ok loc ∧ t.hasFolder loc := by
  unfold isFolder nodeAt?
  cases t.locate p with
  | error e => simp [Except.toOption]
  | ok loc =>
    constructor
    · exact fun h => ⟨loc, rfl, h⟩
    · rintro ⟨_, he, h⟩
      cases he
      exact h

theorem Placed.isSome {loc : Location} (h : t.Placed loc) : (t.node? loc).isSome := by
  cases h with
  | top => rfl
  | inside _ _ _ _ _ hn => exact hn

theorem isSome_nodeAt?_iff {p : Path} : (t.nodeAt? p).isSome ↔ ∃ loc, t.locate p = .ok loc := by
  unfold nodeAt?
  cases hl : t.locate p with
  | error e => simp [Except.toOption]
  | ok loc => simpa [Except.toOption] using (placed_of_locate hl).isSome

/-- A name is looked for where the path before it leads. -/
theorem locate_join {p : Path} {loc : Location} (h : t.locate p = .ok loc) (s : String) :
    t.locate (p.join ⟨false, [s]⟩) = t.follow loc [s] := by
  unfold FileTree.locate at h
  split at h
  · next hr =>
    obtain ⟨rooted, parts⟩ := p
    have hr : rooted = true := hr
    subst hr
    rw [Path.join]
    simp only [Bool.false_eq_true, ↓reduceIte, List.isEmpty_cons]
    split
    · next hempty =>
      rw [List.isEmpty_iff.mp hempty] at h
      cases h
      rfl
    · split
      · next hlast =>
        -- the path ends with a slash, which the name takes the place of
        rw [← List.dropLast_append_getLast? "" hlast] at h
        change t.follow [] (parts.dropLast ++ [""]) = _ at h
        change t.follow [] (parts.dropLast ++ [s]) = _
        rw [follow_append] at h ⊢
        cases hfront : t.follow [] parts.dropLast with
        | error e => simp [hfront] at h
        | ok front =>
          simp only [hfront, FileTree.follow, true_or, ↓reduceIte] at h
          split at h
          · cases h
            rfl
          · cases h
      · change t.follow [] (parts ++ [s]) = _
        change t.follow [] parts = _ at h
        rw [follow_append, h]
  · cases h

/-- A place in a tree as a file system holds it is no deeper than the tree is large. -/
theorem WellFormed.length_le (h : t.WellFormed) {loc : Location} (hn : (t.node? loc).isSome) :
    loc.length ≤ t.nodes.size := by
  obtain ⟨node, hnode⟩ := Option.isSome_iff_exists.mp hn
  have hupper : ∀ i, i < loc.length → loc.take (i + 1) ∈ t.nodes.keys := by
    have hp := (h.placed hnode).1
    clear hnode hn
    induction hp with
    | top => simp
    | @inside loc name _ _ _ _ _ hn ih =>
      intro i hi
      rw [List.length_append, List.length_singleton] at hi
      by_cases hlast : i = loc.length
      · subst hlast
        obtain ⟨node, hnode⟩ := Option.isSome_iff_exists.mp hn
        rw [List.take_of_length_le (by simp)]
        exact mem_keys_of_node? hnode (List.concat_ne_nil name loc)
      · rw [List.take_append_of_le_length (by omega)]
        exact ih i (by omega)
  have hnodup : ((List.range loc.length).map fun i => loc.take (i + 1)).Nodup := by
    refine List.Nodup.map_on ?_ List.nodup_range
    intro i hi j hj he
    have hlen := congrArg List.length he
    rw [List.mem_range] at hi hj
    rw [List.length_take, List.length_take] at hlen
    omega
  have hsub : ((List.range loc.length).map fun i => loc.take (i + 1)) ⊆ t.nodes.keys := by
    intro upper hu
    obtain ⟨i, hi, rfl⟩ := List.mem_map.mp hu
    exact hupper i (List.mem_range.mp hi)
  have hle := (List.subperm_of_subset hnodup hsub).length_le
  simpa [Table.keys, Table.size] using hle

theorem WellFormed.mem_children_iff (h : t.WellFormed) {loc : Location} {name : String}
    {node : Node} : (name, node) ∈ t.children loc ↔ t.node? (loc ++ [name]) = some node := by
  constructor
  · exact h.node?_of_mem_children
  · intro hn
    rw [node?, if_neg (List.concat_ne_nil name loc)] at hn
    refine List.mem_filterMap.mpr ⟨(loc ++ [name], node), ?_, by simp⟩
    exact (Table.mem_entries_iff t.nodes h.nodup _ _).mpr hn

/-- What stands in a folder of one tree stands in that of the other, as the same kind of thing. -/
theorem Lookalike.exists_child (h : t.Lookalike t' new) (ht : t.WellFormed) (ht' : t'.WellFormed)
    {loc : Location} {name : String} {node : Node} (hc : (name, node) ∈ t.children loc)
    (hn : ¬ new (loc ++ [name])) :
    ∃ node', (name, node') ∈ t'.children loc ∧ (node' = .folder ↔ node = .folder) := by
  have hnode := ht.mem_children_iff.mp hc
  have hsome : (t'.node? (loc ++ [name])).isSome := by
    rw [h.standing _ hn, hnode]
    rfl
  obtain ⟨node', hnode'⟩ := Option.isSome_iff_exists.mp hsome
  refine ⟨node', ht'.mem_children_iff.mpr hnode', ?_⟩
  have hfolder := h.folders (loc ++ [name])
  simpa [hasFolder, hnode, hnode'] using hfolder

/-- A thing in a folder is led to from there by a name. -/
theorem WellFormed.child (h : t.WellFormed) {loc : Location} {name : String} {node : Node}
    (hc : (name, node) ∈ t.children loc) :
    t.hasFolder loc ∧ t.follow loc [name] = .ok (loc ++ [name]) := by
  have hnode := h.mem_children_iff.mp hc
  obtain ⟨folder, name', he, hf, hname, _⟩ :=
    h.inside _ (mem_keys_of_node? hnode (List.concat_ne_nil name loc))
  obtain ⟨rfl, hlast⟩ := List.append_inj' he rfl
  cases hlast
  refine ⟨hf, ?_⟩
  simp [FileTree.follow, hf, hname.1, hname.2.1, hname.2.2, hnode]

end FileTree

namespace Glob

open FileTree

variable {t t' : FileTree} {new : Location → Prop}

/-- From a place that is no folder a search finds the place or nothing. -/
theorem search_of_not_hasFolder {fuel : Nat} {ps : List Pattern} {path q : Path} {loc : Location}
    (hl : t.locate path = .ok loc) (hf : ¬ t.hasFolder loc) (hq : q ∈ search t fuel ps path) :
    ps = [] ∧ q = path := by
  cases fuel with
  | zero => simp [search] at hq
  | succ fuel =>
    cases ps with
    | nil => exact ⟨rfl, by simpa [search] using hq⟩
    | cons p ps =>
      exfalso
      have hfolder : ¬ t.isFolder path := by
        rw [isFolder_iff_locate]
        rintro ⟨loc', hl', hf'⟩
        cases hl.symm.trans hl'
        exact hf hf'
      have hnext : ∀ s, ¬ (t.nodeAt? (path.join ⟨false, [s]⟩)).isSome := by
        intro s
        rw [isSome_nodeAt?_iff, locate_join hl]
        simp [FileTree.follow, hf]
      rw [search] at hq
      cases hlit : p.literal? with
      | some s => simp [hlit, hfolder, hnext] at hq
      | none => simp [hlit, hl, hf] at hq

section Members

variable {fuel : Nat} {p : Pattern} {ps : List Pattern} {path q : Path} {loc : Location}

/-- The two dots lead on from every folder. -/
theorem exists_locate_dot {s : String} (hl : t.locate path = .ok loc) (hf : t.hasFolder loc)
    (hs : s ∈ dotNames) : ∃ next, t.locate (path.join ⟨false, [s]⟩) = .ok next := by
  rw [locate_join hl]
  rcases List.mem_pair.mp hs with rfl | rfl
  · exact ⟨loc, by simp [FileTree.follow, hf]⟩
  · exact ⟨loc.dropLast, by simp [FileTree.follow, hf]⟩

/-- A part that is a name leads on to that name, if it stands. -/
theorem mem_search_literal {s : String} (hp : p.literal? = some s) (hl : t.locate path = .ok loc)
    (hf : t.hasFolder loc) : q ∈ search t (fuel + 1) (p :: ps) path ↔
      (∃ next, t.locate (path.join ⟨false, [s]⟩) = .ok next) ∧
        q ∈ search t fuel ps (path.join ⟨false, [s]⟩) := by
  rw [search]
  by_cases hdot : s ∈ dotNames
  · have hfolder : t.isFolder path := isFolder_iff_locate.mpr ⟨loc, hl, hf⟩
    simp only [hp, hdot, hfolder, ↓reduceIte, exists_locate_dot hl hf hdot, true_and]
  · simp only [hp, hdot, ↓reduceIte, List.mem_ite_nil_right, isSome_nodeAt?_iff]

/-- A part that is no name is tried on what stands in the folder, and on the two dots if it begins with
one. -/
theorem mem_search_pattern (hp : p.literal? = none) (hl : t.locate path = .ok loc)
    (hf : t.hasFolder loc) : q ∈ search t (fuel + 1) (p :: ps) path ↔
      (∃ name node, (name, node) ∈ t.children loc ∧
        q ∈ visit t fuel (p :: ps) (path.join ⟨false, [name]⟩) name node) ∨
      (beginsWithDot p ∧ ∃ s ∈ dotNames, p.matches routeStrictness s ∧
        q ∈ search t fuel ps (path.join ⟨false, [s]⟩)) := by
  rw [search]
  simp only [hp, hl, hf, ↓reduceIte, List.mem_append, List.mem_flatMap, Prod.exists,
    List.mem_ite_nil_right, List.mem_filter, and_assoc]

/-- A part for any number of folders finds the entry at the end of the route, what is below it, and what
the next part finds from it. -/
theorem mem_visit_recursive {name : String} {node : Node} (hp : p.isRecursive) :
    q ∈ visit t (fuel + 1) (p :: ps) path name node ↔
      (node = .folder ∧ dropRecursive ps = [] ∧ q = path) ∨
      (node = .folder ∧ q ∈ search t fuel (p :: ps) path) ∨
      ∃ r rs, dropRecursive ps = r :: rs ∧ r.matches routeStrictness name ∧
        q ∈ search t fuel rs path := by
  rw [visit, if_pos hp]
  cases dropRecursive ps with
  | nil => by_cases hnode : node = .folder <;> simp [hnode]
  | cons r rs =>
    by_cases hnode : node = .folder <;> by_cases hr : r.matches routeStrictness name <;>
      simp [hnode, hr, and_assoc]

theorem mem_visit_single {name : String} {node : Node} (hp : ¬ p.isRecursive) :
    q ∈ visit t (fuel + 1) (p :: ps) path name node ↔
      p.matches routeStrictness name ∧ q ∈ search t fuel ps path := by
  rw [visit, if_neg hp, List.mem_ite_nil_right]

end Members

theorem visit_of_not_hasFolder {fuel : Nat} {ps : List Pattern} {path q : Path} {name : String}
    {node : Node} {loc : Location} (hl : t.locate path = .ok loc) (hf : ¬ t.hasFolder loc)
    (hnode : node ≠ .folder) (hq : q ∈ visit t fuel ps path name node) : q = path := by
  cases fuel with
  | zero => simp [visit] at hq
  | succ fuel =>
    cases ps with
    | nil => simpa [visit] using hq
    | cons p ps =>
      by_cases hp : p.isRecursive
      · rcases (mem_visit_recursive hp).mp hq with ⟨h, _⟩ | ⟨h, _⟩ | ⟨_, _, _, _, hq⟩
        · exact absurd h hnode
        · exact absurd h hnode
        · exact (search_of_not_hasFolder hl hf hq).2
      · exact (search_of_not_hasFolder hl hf ((mem_visit_single hp).mp hq).2).2

/-- Fuel that a search from a place can use up, in a tree of this depth: each part of the route leads at
most once to the bottom, by two steps for a name. -/
def reach (depth : Nat) (ps : List Pattern) (loc : Location) : Nat :=
  (2 * depth + 4) * ps.length + 2 * (depth - loc.length) + 2

theorem reach_pos (depth : Nat) (ps : List Pattern) (loc : Location) : 2 ≤ reach depth ps loc := by
  unfold reach
  omega

/-- Once a part is dealt with, there is fuel left for the rest of the route from any place. -/
theorem reach_lt (depth : Nat) {ps qs : List Pattern} (h : ps.length < qs.length)
    (loc loc' : Location) : reach depth ps loc + 2 ≤ reach depth qs loc' := by
  unfold reach
  have hmul : (2 * depth + 4) * (ps.length + 1) ≤ (2 * depth + 4) * qs.length :=
    Nat.mul_le_mul_left _ h
  rw [Nat.mul_add, Nat.mul_one] at hmul
  omega

theorem reach_below {depth : Nat} (ps : List Pattern) {loc : Location} {name : String}
    (h : (loc ++ [name]).length ≤ depth) :
    reach depth ps (loc ++ [name]) + 2 = reach depth ps loc := by
  unfold reach
  rw [List.length_append, List.length_singleton] at h ⊢
  omega

theorem length_dropRecursive_le (ps : List Pattern) : (dropRecursive ps).length ≤ ps.length := by
  induction ps with
  | nil => exact Nat.le_refl _
  | cons p ps ih =>
    rw [dropRecursive]
    split
    · exact Nat.le_succ_of_le ih
    · exact Nat.le_refl _

/-- What a search with this fuel finds in one tree is found in the other one. -/
def SearchCarries (t t' : FileTree) (new : Location → Prop) (fuel : Nat) : Prop :=
  ∀ ps path loc q fuel', t.locate path = .ok loc → q ∈ search t fuel ps path →
    (∀ l, t.locate q = .ok l → ¬ new l) → reach t'.nodes.size ps loc ≤ fuel' →
      q ∈ search t' fuel' ps path

def VisitCarries (t t' : FileTree) (new : Location → Prop) (fuel : Nat) : Prop :=
  ∀ ps path loc name node node' q fuel', t.locate path = .ok (loc ++ [name]) →
    (node' = .folder ↔ node = .folder) → (node = .folder → t.hasFolder (loc ++ [name])) →
    q ∈ visit t fuel ps path name node → (∀ l, t.locate q = .ok l → ¬ new l) →
    reach t'.nodes.size ps loc ≤ fuel' + 1 → q ∈ visit t' fuel' ps path name node'

theorem searchCarries_succ (h : t.Lookalike t' new) (ht : t.WellFormed) (ht' : t'.WellFormed)
    {fuel : Nat} (hs : SearchCarries t t' new fuel) (hv : VisitCarries t t' new fuel) :
    SearchCarries t t' new (fuel + 1) := by
  intro ps path loc q fuel' hl hq hn hfuel
  have htwo := reach_pos t'.nodes.size ps loc
  obtain ⟨fuel', rfl⟩ : ∃ n, fuel' = n + 1 := ⟨fuel' - 1, by omega⟩
  by_cases hf : t.hasFolder loc
  · have hl' := h.locate hl (h.not_new hf)
    have hf' : t'.hasFolder loc := by
      rw [h.folders]
      exact hf
    cases ps with
    | nil => simpa [search] using hq
    | cons p ps =>
      have hstep : ∀ {s next}, t.locate (path.join ⟨false, [s]⟩) = .ok next →
          q ∈ search t fuel ps (path.join ⟨false, [s]⟩) →
          q ∈ search t' fuel' ps (path.join ⟨false, [s]⟩) := by
        intro s next hnext hq
        refine hs ps _ next q fuel' hnext hq hn ?_
        have := reach_lt t'.nodes.size (show ps.length < (p :: ps).length by simp) next loc
        omega
      cases hlit : p.literal? with
      | some s =>
        obtain ⟨⟨next, hnext⟩, hq⟩ := (mem_search_literal hlit hl hf).mp hq
        refine (mem_search_literal hlit hl' hf').mpr ⟨⟨next, h.locate hnext ?_⟩, hstep hnext hq⟩
        -- from a new place nothing else is found
        intro hnew
        obtain ⟨_, rfl⟩ := search_of_not_hasFolder hnext (h.leaves next hnew) hq
        exact hn next hnext hnew
      | none =>
        refine (mem_search_pattern hlit hl' hf').mpr ?_
        rcases (mem_search_pattern hlit hl hf).mp hq with
          ⟨name, node, hchild, hq⟩ | ⟨hbegin, s, hdot, hmatch, hq⟩
        · have hnode := ht.mem_children_iff.mp hchild
          have hname : t.locate (path.join ⟨false, [name]⟩) = .ok (loc ++ [name]) :=
            (locate_join hl name).trans (ht.child hchild).2
          have hkept : ¬ new (loc ++ [name]) := by
            intro hnew
            have hleaf := h.leaves _ hnew
            have hfile : node ≠ .folder := by
              rintro rfl
              exact hleaf (by simp [hasFolder, hnode])
            cases visit_of_not_hasFolder hname hleaf hfile hq
            exact hn _ hname hnew
          obtain ⟨node', hchild', hsame⟩ := h.exists_child ht ht' hchild hkept
          refine Or.inl ⟨name, node', hchild', ?_⟩
          refine hv _ _ loc name node node' q fuel' hname hsame ?_ hq hn hfuel
          rintro rfl
          simp [hasFolder, hnode]
        · obtain ⟨next, hnext⟩ := exists_locate_dot hl hf hdot
          exact Or.inr ⟨hbegin, s, hdot, hmatch, hstep hnext hq⟩
  · obtain ⟨rfl, rfl⟩ := search_of_not_hasFolder hl hf hq
    simp [search]

theorem visitCarries_succ (h : t.Lookalike t' new) (ht' : t'.WellFormed) {fuel : Nat}
    (hs : SearchCarries t t' new fuel) : VisitCarries t t' new (fuel + 1) := by
  intro ps path loc name node node' q fuel' hl hsame hfolder hq hn hfuel
  have htwo := reach_pos t'.nodes.size ps loc
  obtain ⟨fuel', rfl⟩ : ∃ n, fuel' = n + 1 := ⟨fuel' - 1, by omega⟩
  cases ps with
  | nil => simpa [visit] using hq
  | cons p ps =>
    have hrest : ∀ qs : List Pattern, qs.length ≤ ps.length → q ∈ search t fuel qs path →
        q ∈ search t' fuel' qs path := by
      intro qs hlen hq
      refine hs qs path _ q fuel' hl hq hn ?_
      have := reach_lt t'.nodes.size (show qs.length < (p :: ps).length by simp; omega)
        (loc ++ [name]) loc
      omega
    by_cases hrec : p.isRecursive
    · refine (mem_visit_recursive hrec).mpr ?_
      rw [hsame]
      rcases (mem_visit_recursive hrec).mp hq with
        hend | ⟨hnode, hq⟩ | ⟨r, rs, hdrop, hmatch, hq⟩
      · exact Or.inl hend
      · have hf' : t'.hasFolder (loc ++ [name]) := by
          rw [h.folders]
          exact hfolder hnode
        have hbelow := reach_below (p :: ps) (ht'.length_le (isSome_of_hasFolder hf'))
        exact Or.inr (Or.inl ⟨hnode, hs _ path _ q fuel' hl hq hn (by omega)⟩)
      · have hlen := length_dropRecursive_le ps
        rw [hdrop, List.length_cons] at hlen
        exact Or.inr (Or.inr ⟨r, rs, hdrop, hmatch, hrest rs (by omega) hq⟩)
    · obtain ⟨hmatch, hq⟩ := (mem_visit_single hrec).mp hq
      exact (mem_visit_single hrec).mpr ⟨hmatch, hrest ps (Nat.le_refl _) hq⟩

theorem searchCarries (h : t.Lookalike t' new) (ht : t.WellFormed) (ht' : t'.WellFormed)
    (fuel : Nat) : SearchCarries t t' new fuel ∧ VisitCarries t t' new fuel := by
  induction fuel with
  | zero => simp [SearchCarries, VisitCarries, search, visit]
  | succ fuel ih =>
    exact ⟨searchCarries_succ h ht ht' ih.1 ih.2, visitCarries_succ h ht' ih.1⟩

/-- A route names the same files in both trees. -/
theorem Route.mem_paths (h : t.Lookalike t' new) (ht : t.WellFormed) (ht' : t'.WellFormed)
    (r : Route) {q : Path} (hq : q ∈ r.paths t) {loc : Location} (hl : t.locate q = .ok loc)
    (hf : ¬ t.hasFolder loc) (hn : ¬ new loc) : q ∈ r.paths t' := by
  have hfuel : reach t'.nodes.size r.parts [] ≤ searchFuel t' r := by
    unfold reach searchFuel
    rw [Nat.mul_add, Nat.mul_one, List.length_nil]
    omega
  have hfound : q ∈ search t (searchFuel t r) r.parts .top →
      q ∈ search t' (searchFuel t' r) r.parts .top := by
    intro hq
    refine (searchCarries h ht ht' _).1 _ _ [] q _ rfl hq ?_ hfuel
    intro l hl'
    cases hl.symm.trans hl'
    exact hn
  unfold Route.paths at hq ⊢
  simp only at hq ⊢
  split at hq
  · obtain ⟨loc', hl', hf'⟩ := isFolder_iff_locate.mp (List.mem_filter.mp hq).2
    cases hl.symm.trans hl'
    exact absurd hf' hf
  · next hfolders =>
    rw [if_neg hfolders]
    exact hfound hq

def Route.files (r : Route) (t : FileTree) : List Path := (r.paths t).filter t.isFile

theorem Route.mem_files (h : t.Lookalike t' new) (ht : t.WellFormed) (ht' : t'.WellFormed)
    {r : Route} {q : Path} (hq : q ∈ r.files t) {loc : Location} (hl : t.locate q = .ok loc)
    (hn : ¬ new loc) : q ∈ r.files t' ∧ t'.locate q = .ok loc := by
  obtain ⟨hpath, hfile⟩ := List.mem_filter.mp hq
  obtain ⟨loc', hl₁, hf⟩ := isFile_iff_locate.mp hfile
  cases hl.symm.trans hl₁
  have hl' := h.locate hl hn
  refine ⟨List.mem_filter.mpr ⟨r.mem_paths h ht ht' hpath hl hf hn, ?_⟩, hl'⟩
  refine isFile_iff_locate.mpr ⟨loc, hl', ?_⟩
  rw [h.folders]
  exact hf

/-- Whether patterns can be read does not hang on the tree. -/
theorem mapM_filesOf (base : Path) (patterns : List String) :
    (∃ rs : List Route, ∀ t, patterns.mapM (filesOf t base) = .ok (rs.map fun r => r.files t)) ∨
      ∃ e, ∀ t, patterns.mapM (filesOf t base) = .error e := by
  induction patterns with
  | nil => exact Or.inl ⟨[], fun t => rfl⟩
  | cons pattern patterns ih =>
    simp only [List.mapM_cons]
    cases hr : Route.parse (anchored base pattern) with
    | error fault =>
      refine Or.inr ⟨.badGlob pattern fault, ?_⟩
      intro t
      simp [filesOf, hr, bind, Except.bind]
    | ok r =>
      rcases ih with ⟨rs, hrs⟩ | ⟨e, he⟩
      · refine Or.inl ⟨r :: rs, ?_⟩
        intro t
        simp [filesOf, hr, hrs, Route.files, bind, Except.bind, pure, Except.pure]
      · refine Or.inr ⟨e, ?_⟩
        intro t
        simp [filesOf, hr, he, bind, Except.bind]

/-- Files by their paths without detours, in order. -/
theorem mem_sortPaths_canonical {ps : List Path} (hfile : ∀ p ∈ ps, t.isFile p) {loc : Location} :
    loc.path ∈ sortPaths (ps.map t.canonical) ↔ ∃ p ∈ ps, t.locate p = .ok loc := by
  constructor
  · intro hm
    obtain ⟨p, hp, he⟩ := List.mem_map.mp (mem_of_mem_sortPaths hm)
    obtain ⟨loc', hl, _⟩ := isFile_iff_locate.mp (hfile p hp)
    rw [canonical_of_locate hl] at he
    cases he
    exact ⟨p, hp, hl⟩
  · rintro ⟨p, hp, hl⟩
    rw [← canonical_of_locate hl]
    obtain ⟨q, hq, hsteps⟩ := exists_mem_sortPaths (List.mem_map_of_mem hp)
    obtain ⟨p', hp', rfl⟩ := List.mem_map.mp (mem_of_mem_sortPaths hq)
    rw [← (isPlain_canonical (hfile p' hp')).eq_of_steps_eq (isPlain_canonical (hfile p hp)) hsteps]
    exact hq

end Glob

/-- The same failure, or lists that hold the same files but for those at new places. -/
def SameFiles (new : Location → Prop) :
    Except Failure (List Path) → Except Failure (List Path) → Prop
  | .ok fs, .ok fs' => ∀ loc : Location, ¬ new loc → (loc.path ∈ fs ↔ loc.path ∈ fs')
  | .error e, .error e' => e = e'
  | _, _ => False

/-- Globs name the same files in both trees. -/
theorem FileTree.Lookalike.expand {t t' : FileTree} {new : Location → Prop}
    (h : t.Lookalike t' new) (ht : t.WellFormed) (ht' : t'.WellFormed) (base : Path)
    (patterns : List String) :
    SameFiles new (Glob.expand t base patterns) (Glob.expand t' base patterns) := by
  rcases Glob.mapM_filesOf base patterns with ⟨rs, hrs⟩ | ⟨e, he⟩
  · have hok : ∀ t, Glob.expand t base patterns =
        .ok (Glob.sortPaths ((rs.map fun r => r.files t).flatten.map t.canonical)) := by
      intro t
      simp [Glob.expand, hrs, bind, Except.bind, pure, Except.pure]
    have hfiles : ∀ t : FileTree, ∀ p ∈ (rs.map fun r => r.files t).flatten, t.isFile p := by
      intro t p hp
      obtain ⟨fs, hfs, hp⟩ := List.mem_flatten.mp hp
      obtain ⟨r, _, rfl⟩ := List.mem_map.mp hfs
      exact (List.mem_filter.mp hp).2
    rw [hok, hok]
    intro loc hn
    rw [Glob.mem_sortPaths_canonical (hfiles t), Glob.mem_sortPaths_canonical (hfiles t')]
    simp only [List.mem_flatten, List.mem_map, exists_exists_and_eq_and]
    constructor
    · rintro ⟨q, ⟨r, hr, hq⟩, hl⟩
      obtain ⟨hq', hl'⟩ := Glob.Route.mem_files h ht ht' hq hl hn
      exact ⟨q, ⟨r, hr, hq'⟩, hl'⟩
    · rintro ⟨q, ⟨r, hr, hq⟩, hl⟩
      obtain ⟨hq', hl'⟩ := Glob.Route.mem_files h.symm ht' ht hq hl hn
      exact ⟨q, ⟨r, hr, hq'⟩, hl'⟩
  · simp [Glob.expand, he, SameFiles, bind, Except.bind]

end BarrelAlias
