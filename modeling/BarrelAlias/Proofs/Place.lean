import BarrelAlias.Linkage.Exports
import BarrelAlias.Proofs.Path
import BarrelAlias.Proofs.Table
import Mathlib.Data.List.Induction

/-!
Places in a tree. The place that a path leads to is settled by its steps, so a file that can be read
under two spellings of one path reads the same. Places that paths lead to are led to by their own
path, which is how resolution spells them.
-/

namespace BarrelAlias

open BarrelAlias.Path (stepsOf stepOf counts)

def Location.move (loc : Location) : Step → Location
  | .name n => loc ++ [n]
  | .up => loc.dropLast
  | _ => loc

def Location.ofSteps (ss : List Step) : Location := ss.foldl Location.move []

theorem Location.foldl_move_names (loc : Location) (ns : List String) :
    (ns.map Step.name).foldl move loc = loc ++ ns := by
  induction ns generalizing loc with
  | nil => simp
  | cons n ns ih =>
    rw [List.map_cons, List.foldl_cons, ih]
    simp [move]

/-- Going up undoes names. -/
theorem Location.foldl_move_up (loc : Location) (ns : List String) :
    (List.replicate ns.length Step.up).foldl move (loc ++ ns) = loc := by
  induction ns using List.reverseRecOn with
  | nil => simp
  | append_singleton ns n ih =>
    rw [List.length_append, List.length_singleton, List.replicate_succ, List.foldl_cons, move,
      ← List.append_assoc, List.dropLast_concat]
    exact ih

theorem Path.foldl_cleanStep {ss : List Step} (h : Step.root ∉ ss) (loc : Location) :
    ss.foldl cleanStep ((loc.map Step.name).reverse ++ [.root]) =
      ((ss.foldl Location.move loc).map Step.name).reverse ++ [.root] := by
  induction ss generalizing loc with
  | nil => rfl
  | cons s ss ih =>
    rw [List.mem_cons, not_or] at h
    have hstep : cleanStep ((loc.map Step.name).reverse ++ [.root]) s =
        ((loc.move s).map Step.name).reverse ++ [.root] := by
      cases s with
      | root => exact absurd rfl h.1
      | here => rfl
      | name n => simp [cleanStep, Location.move]
      | up =>
        rcases List.eq_nil_or_concat loc with rfl | ⟨front, n, rfl⟩
        · rfl
        · simp [cleanStep, Location.move]
    rw [List.foldl_cons, List.foldl_cons, hstep, ih h.2]

/-- Without its detours an absolute path spells the place that its steps lead to. -/
theorem Path.clean_of_rooted {p : Path} (h : p.rooted) :
    p.clean = (Location.ofSteps p.steps).path := by
  have hfold := foldl_cleanStep (root_not_mem_stepsOf false p.parts) []
  have hrev : (p.steps.foldl cleanStep []).reverse =
      .root :: (Location.ofSteps p.steps).map Step.name := by
    rw [steps_of_rooted h, List.foldl_cons]
    change ((stepsOf false p.parts).foldl cleanStep [.root]).reverse = _
    rw [List.map_nil, List.reverse_nil, List.nil_append] at hfold
    rw [hfold, List.reverse_append, List.reverse_reverse]
    rfl
  have htext : Step.text ∘ Step.name = id := rfl
  rw [clean, hrev]
  simp [Path.ofSteps, Location.path, htext]

namespace FileTree

/-- The place at the end of a path is settled by its steps. -/
theorem follow_ok {t : FileTree} {loc loc' : Location} {ps : List String}
    (h : t.follow loc ps = .ok loc') : loc' = (stepsOf false ps).foldl Location.move loc := by
  induction ps generalizing loc with
  | nil =>
    simp only [follow, Except.ok.injEq] at h
    exact h.symm
  | cons p ps ih =>
    rw [follow] at h
    split at h
    · split at h
      · next hp =>
        have hc : counts false p = false := by
          rcases hp with rfl | rfl <;> rfl
        rw [stepsOf, hc]
        exact ih h
      · next hp =>
        rw [not_or] at hp
        have hc : counts false p := by simp [counts, hp]
        split at h
        · next hup =>
          rw [ih h, stepsOf, if_pos hc]
          subst hup
          rfl
        · next hup =>
          have hs : stepOf p = .name p := by simp [stepOf, hp, hup]
          split at h
          · rw [ih h, stepsOf, if_pos hc, hs]
            rfl
          · cases h
    · cases h

theorem locate_ok {t : FileTree} {p : Path} {loc : Location} (h : t.locate p = .ok loc) :
    p.rooted ∧ loc = Location.ofSteps p.steps := by
  unfold locate at h
  split at h
  · next hr =>
    refine ⟨hr, ?_⟩
    rw [Path.steps_of_rooted hr]
    exact follow_ok h
  · cases h

/-- A place that paths lead to: from the top down through folders, by names. -/
inductive Placed (t : FileTree) : Location → Prop
  | top : Placed t []
  | inside {loc : Location} {name : String} : Placed t loc → t.hasFolder loc → name ≠ "" →
      name ≠ "." → name ≠ ".." → (t.node? (loc ++ [name])).isSome → Placed t (loc ++ [name])

theorem Placed.dropLast {t : FileTree} {loc : Location} (h : t.Placed loc) :
    t.Placed loc.dropLast := by
  cases h with
  | top => exact .top
  | inside hl =>
    rw [List.dropLast_concat]
    exact hl

theorem Placed.follow {t : FileTree} {loc loc' : Location} {ps : List String} (hl : t.Placed loc)
    (h : t.follow loc ps = .ok loc') : t.Placed loc' := by
  induction ps generalizing loc with
  | nil =>
    simp only [FileTree.follow, Except.ok.injEq] at h
    exact h ▸ hl
  | cons p ps ih =>
    rw [FileTree.follow] at h
    split at h
    · next hf =>
      split at h
      · exact ih hl h
      · next hp =>
        rw [not_or] at hp
        split at h
        · exact ih hl.dropLast h
        · next hup =>
          split at h
          · next hn => exact ih (hl.inside hf hp.1 hp.2 hup hn) h
          · cases h
    · cases h

theorem placed_of_locate {t : FileTree} {p : Path} {loc : Location} (h : t.locate p = .ok loc) :
    t.Placed loc := by
  unfold locate at h
  split at h
  · exact Placed.top.follow h
  · cases h

theorem follow_append (t : FileTree) (loc : Location) (ps qs : List String) :
    t.follow loc (ps ++ qs) =
      match t.follow loc ps with
      | .ok loc' => t.follow loc' qs
      | .error e => .error e := by
  induction ps generalizing loc with
  | nil => rfl
  | cons p ps ih =>
    rw [List.cons_append, follow, follow]
    split
    · split
      · exact ih loc
      · split
        · exact ih _
        · split
          · exact ih _
          · rfl
    · rfl

/-- A place that a path leads to is led to by its own path. -/
theorem Placed.locate_path {t : FileTree} {loc : Location} (h : t.Placed loc) :
    t.locate loc.path = .ok loc := by
  change t.follow [] loc = .ok loc
  induction h with
  | top => rfl
  | @inside loc name _ hf hne hdot hup hn ih =>
    rw [follow_append, ih]
    simp [FileTree.follow, hf, hne, hdot, hup, hn]

theorem Placed.steps_path {t : FileTree} {loc : Location} (h : t.Placed loc) :
    loc.path.steps = .root :: loc.map Step.name := by
  rw [Path.steps_of_rooted rfl]
  congr 1
  change stepsOf false loc = _
  induction h with
  | top => rfl
  | @inside loc name _ _ hne hdot hup _ ih =>
    rw [Path.stepsOf_append, ih]
    simp [stepsOf, counts, stepOf, hne, hdot, hup]

theorem Placed.eq_of_steps_eq {t : FileTree} {loc loc' : Location} (h : t.Placed loc)
    (h' : t.Placed loc') (e : loc.path.steps = loc'.path.steps) : loc = loc' := by
  rw [h.steps_path, h'.steps_path] at e
  exact Path.map_name_injective (List.tail_eq_of_cons_eq e)

/-- A file of the tree at the path without detours to it. -/
def IsPlain (t : FileTree) (p : Path) : Prop :=
  ∃ loc c, t.Placed loc ∧ t.node? loc = some (.file c) ∧ p = loc.path

theorem isFile_iff {t : FileTree} {p : Path} :
    t.isFile p ↔ ∃ loc c, t.locate p = .ok loc ∧ t.node? loc = some (.file c) := by
  unfold isFile nodeAt?
  cases hl : t.locate p with
  | error e => simp [Except.toOption]
  | ok loc =>
    cases hn : t.node? loc with
    | none => simp [Except.toOption, hn]
    | some n => cases n <;> simp [Except.toOption, hn]

theorem isPlain_canonical {t : FileTree} {p : Path} (h : t.isFile p) : t.IsPlain (t.canonical p) := by
  obtain ⟨loc, c, hl, hn⟩ := isFile_iff.mp h
  refine ⟨loc, c, placed_of_locate hl, hn, ?_⟩
  simp [canonical, canonical?, hl, Except.toOption]

theorem IsPlain.isFile {t : FileTree} {p : Path} (h : t.IsPlain p) : t.isFile p := by
  obtain ⟨loc, c, hp, hn, rfl⟩ := h
  exact isFile_iff.mpr ⟨loc, c, hp.locate_path, hn⟩

theorem IsPlain.canonical_eq {t : FileTree} {p : Path} (h : t.IsPlain p) : t.canonical p = p := by
  obtain ⟨loc, c, hp, hn, rfl⟩ := h
  simp [canonical, canonical?, hp.locate_path, Except.toOption]

/-- The path without detours is settled by its steps. -/
theorem IsPlain.eq_of_steps_eq {t : FileTree} {p q : Path} (hp : t.IsPlain p) (hq : t.IsPlain q)
    (h : p.steps = q.steps) : p = q := by
  obtain ⟨loc, _, hl, _, rfl⟩ := hp
  obtain ⟨loc', _, hl', _, rfl⟩ := hq
  rw [hl.eq_of_steps_eq hl' h]

/-- A plain file stands among the nodes of the tree. -/
theorem IsPlain.mem_nodes {t : FileTree} {p : Path} (h : t.IsPlain p) :
    ∃ loc ∈ t.nodes.keys, p = loc.path := by
  obtain ⟨loc, c, hp, hn, rfl⟩ := h
  refine ⟨loc, ?_, rfl⟩
  unfold node? at hn
  split at hn
  · cases hn
  · exact (Table.mem_keys_iff t.nodes loc).mpr ⟨_, hn⟩

theorem read_ok {t : FileTree} {p : Path} {s : String} (h : t.read p = .ok s) :
    ∃ loc, t.locate p = .ok loc ∧ t.node? loc = some (.file (.text s)) := by
  unfold read at h
  cases hl : t.locate p with
  | error e => simp [hl, bind, Except.bind] at h
  | ok loc =>
    refine ⟨loc, rfl, ?_⟩
    simp only [hl, bind, Except.bind] at h
    split at h
    · next hn =>
      cases h
      exact hn
    · cases h
    · cases h
    · cases h

theorem read_of_locate {t : FileTree} {p : Path} {loc : Location} {s : String}
    (hl : t.locate p = .ok loc) (hn : t.node? loc = some (.file (.text s))) : t.read p = .ok s := by
  simp [read, hl, hn, bind, Except.bind, pure, Except.pure]

/-- What can be read under two spellings of a path is one text. -/
theorem read_unique {t : FileTree} {p q : Path} {s s' : String} (h : p.steps = q.steps)
    (hp : t.read p = .ok s) (hq : t.read q = .ok s') : s = s' := by
  obtain ⟨loc, hl, hn⟩ := read_ok hp
  obtain ⟨loc', hl', hn'⟩ := read_ok hq
  rw [(locate_ok hl).2, h, ← (locate_ok hl').2, hn'] at hn
  cases hn
  rfl

/-- A file reads as any other spelling of its path does. -/
theorem read_of_isFile {t : FileTree} {p q : Path} {s : String} (hf : t.isFile p)
    (h : q.steps = p.steps) (hq : t.read q = .ok s) : t.read p = .ok s := by
  obtain ⟨loc, c, hl, _⟩ := isFile_iff.mp hf
  obtain ⟨loc', hl', hn'⟩ := read_ok hq
  have hloc : loc' = loc := by rw [(locate_ok hl').2, h, ← (locate_ok hl).2]
  subst hloc
  exact read_of_locate hl hn'

end FileTree

namespace Linkage

theorem summarize_congr {p q : Path} (h : p.steps = q.steps) {text : String} {s : Summary}
    (hs : summarize p text = .ok s) : summarize q text = .ok s := by
  have hd : Script.Dialect.ofPath p = Script.Dialect.ofPath q := by
    unfold Script.Dialect.ofPath Path.extension?
    rw [Path.fileName?_congr h]
  unfold summarize statementsOf at hs ⊢
  rw [hd] at hs
  cases hp : Script.parse? (.ofPath q) text.toList with
  | none =>
    rw [hp] at hs
    cases hs
  | some ss =>
    rw [hp] at hs
    exact hs

theorem readModule_ok {t : FileTree} {p : Path} {s : Summary} :
    readModule t p = .ok s ↔ ∃ text, t.read p = .ok text ∧ summarize p text = .ok s := by
  unfold readModule
  cases hr : t.read p with
  | ok text => simp
  | error e => simp

/-- The summary that the file with these steps has, under whatever spelling it can be read. -/
def SummaryOf (t : FileTree) (k : List Step) (s : Summary) : Prop :=
  ∃ p, p.steps = k ∧ readModule t p = .ok s

theorem SummaryOf.unique {t : FileTree} {k : List Step} {s s' : Summary} (h : SummaryOf t k s)
    (h' : SummaryOf t k s') : s = s' := by
  obtain ⟨p, rfl, hp⟩ := h
  obtain ⟨q, hq, hq'⟩ := h'
  obtain ⟨text, hr, hs⟩ := readModule_ok.mp hp
  obtain ⟨text', hr', hs'⟩ := readModule_ok.mp hq'
  cases FileTree.read_unique hq.symm hr hr'
  cases (summarize_congr hq.symm hs).symm.trans hs'
  rfl

theorem readModule_of_isFile {t : FileTree} {p : Path} {s : Summary} (hf : t.isFile p)
    (h : SummaryOf t p.steps s) : readModule t p = .ok s := by
  obtain ⟨q, hq, h⟩ := h
  obtain ⟨text, hr, hs⟩ := readModule_ok.mp h
  exact readModule_ok.mpr ⟨text, FileTree.read_of_isFile hf hq hr, summarize_congr hq hs⟩

theorem rooted_of_readModule {t : FileTree} {p : Path} {s : Summary} (h : readModule t p = .ok s) :
    p.rooted := by
  obtain ⟨text, hr, _⟩ := readModule_ok.mp h
  obtain ⟨loc, hl, _⟩ := FileTree.read_ok hr
  exact (FileTree.locate_ok hl).1

/-- The path that a specifier names is settled by the steps of the file that it stands in. -/
theorem namedPath_congr {p q : Path} (h : p.steps = q.steps) (hp : p.rooted) (src : String) :
    namedPath p src = namedPath q src := by
  have hq := Path.rooted_of_steps_eq h hp
  obtain ⟨hrp, hsp⟩ := Path.steps_parent hp
  obtain ⟨hrq, hsq⟩ := Path.steps_parent hq
  unfold namedPath
  refine Path.clean_congr ?_
  cases hr : (Path.ofText src).rooted with
  | true => simp [Path.join, hr]
  | false =>
    rw [Path.steps_join hrp hr, Path.steps_join hrq hr, hsp, hsq,
      Path.stepsOf_eq_of_steps_eq h hp]

theorem resolve?_congr {t : FileTree} {p q : Path} (h : p.steps = q.steps) (hp : p.rooted)
    (src : String) : resolve? t p src = resolve? t q src := by
  rw [resolve?, resolve?, namedPath_congr h hp]

/-- A specifier leads to a plain file. -/
theorem isPlain_of_resolve? {t : FileTree} {p g : Path} {src : String}
    (h : resolve? t p src = some g) : t.IsPlain g := by
  unfold resolve? at h
  split at h
  · obtain ⟨q, hq, rfl⟩ := Option.map_eq_some_iff.mp h
    exact FileTree.isPlain_canonical (List.find?_some hq)
  · cases h

end Linkage

end BarrelAlias
