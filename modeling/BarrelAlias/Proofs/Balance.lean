import BarrelAlias.Proofs.Marking

/-!
The walk with marks is balanced. It comes back from every file, however the files pass on exports of each
other: each call that it nests is into one more of the files that can be walked into. When it comes back
without a failure, it is in the same files as before; the lowest mark has been brought down to the topmost
cut; and what it found in a file is kept for later exactly if no cut reached above that file.
-/

namespace BarrelAlias.Linkage

/-- The files that a walk into `file` can come to: those in the tree, and those that remembered specifiers
lead to. -/
def walkable (t : FileTree) (l : Loader) (file : Path) : List (List Step) :=
  file.steps :: (t.nodes.keys.map (fun loc => loc.path.steps) ++
    l.resolved.entries.filterMap fun e => e.2.map Path.steps)

def enoughCalls (t : FileTree) (l : Loader) : Nat := t.nodes.size + l.resolved.size + 2

def unvisited (K : List (List Step)) (trail : Trail) : Nat :=
  (K.filter fun k => (depthIn? k trail).isNone).length

section

variable {t : FileTree} {K : List (List Step)} {N : Nat} {w w' : Marks} {trail : Trail} {file : Path}
  {k : List Step} {m : ExportMap} {cuts : List Cut}

theorem unvisited_lt (hk : k ∈ K) (hnot : k ∉ trail) : unvisited K (k :: trail) < unvisited K trail := by
  have hsplit : (K.filter fun j => (depthIn? j (k :: trail)).isNone) =
      (K.filter fun j => (depthIn? j trail).isNone).filter (k ≠ ·) := by
    rw [List.filter_filter]
    refine List.filter_congr fun j _ => ?_
    by_cases hj : k = j <;> simp [depthIn?, hj]
  have hmem : k ∈ K.filter fun j => (depthIn? j trail).isNone :=
    List.mem_filter.mpr ⟨hk, by rw [depthIn?_eq_none_iff.mpr hnot, Option.isNone_none]⟩
  unfold unvisited
  rw [hsplit, List.length_filter_lt_length_iff_exists]
  exact ⟨k, hmem, by simp⟩

theorem within_walkable (t : FileTree) (l : Loader) (file : Path) : l.Within t (walkable t l file) where
  plain := by
    intro p hp
    obtain ⟨loc, hloc, rfl⟩ := hp.mem_nodes
    exact List.mem_cons_of_mem _ (List.mem_append_left _ (List.mem_map.mpr ⟨loc, hloc, rfl⟩))
  resolved := by
    intro key g h
    obtain ⟨e, he, hg⟩ := Option.map_eq_some_iff.mp h
    refine List.mem_cons_of_mem _ (List.mem_append_right _ (List.mem_filterMap.mpr ⟨e, ?_, ?_⟩))
    · exact List.mem_of_find?_eq_some he
    · rw [hg, Option.map_some]

theorem unvisited_walkable (t : FileTree) (l : Loader) (file : Path) (trail : Trail) :
    unvisited (walkable t l file) trail < enoughCalls t l := by
  have hle : unvisited (walkable t l file) trail ≤ (walkable t l file).length := List.length_filter_le ..
  have hlength : (walkable t l file).length ≤ t.nodes.size + l.resolved.size + 1 := by
    have hresolved := List.length_filterMap_le (fun e => e.2.map Path.steps) l.resolved.entries
    simp only [walkable, List.length_cons, List.length_append, List.length_map, Table.keys, Table.size]
    omega
  unfold enoughCalls
  omega

theorem Marks.On.enter (hw : w.On trail) (hk : k ∉ trail) : (w.enter k).On (k :: trail) where
  depths := by
    intro j
    rw [Marks.enter, Table.find?_insert, depthIn?, hw.depths, hw.size]
    simp only [eq_comm]
  size := by
    have hnone : w.depths.find? k = none := by rw [hw.depths, depthIn?_eq_none_iff.mpr hk]
    rw [Marks.enter, Table.size_insert_of_new hnone, hw.size, List.length_cons]

/-- Leaving a file takes back the mark that was set there: seen from outside, the cuts below the file are
those of a part of the walk like any other. -/
theorem Marks.Passed.leave (hnone : w.depths.find? k = none) (h : (w.enter k).Passed cuts w') :
    w.Passed cuts (w'.leave w k m) where
  depths_eq := by
    rw [Marks.leave, h.depths_eq, Marks.enter, Table.erase_insert _ hnone]
  low_eq := by
    rw [Marks.leave, h.low_eq, Marks.enter, Low.min_comm, Low.min_lowered, Low.min_none_right]
  cuts_eq := h.cuts_eq
  placed := by
    -- a cut at the file itself counts as deeper once the walk has left it
    intro c hc
    have hplaced := h.placed c hc
    simp only [Marks.enter, Table.find?_insert, Table.size_insert_of_new hnone] at hplaced
    by_cases hck : c.1 = k
    · rw [if_pos hck] at hplaced
      rcases hplaced with hdepth | ⟨hdepth, _⟩
      · exact Or.inr ⟨hck ▸ hnone, Nat.le_of_eq (Option.some.inj hdepth)⟩
      · cases hdepth
    · rw [if_neg hck] at hplaced
      exact hplaced.imp_right fun h => ⟨h.1, by omega⟩
  kept := by
    intro j hj
    have hjk : j ≠ k := fun e => hj (e ▸ hnone)
    have hkept : w'.loader.exports.find? j = w.loader.exports.find? j := by
      refine h.kept j ?_
      rw [Marks.enter, Table.find?_insert, if_neg hjk]
      exact hj
    unfold Marks.leave
    dsimp only
    split
    · rw [Loader.settle, Table.find?_insert, if_neg hjk, hkept]
    · exact hkept

/-- The cuts stay within a file if none of them lies at a file that the walk was in before. -/
theorem isWithin_iff (hw : w.On trail) (hnone : w.depths.find? k = none)
    (h : (w.enter k).Passed cuts w') :
    w'.low.isWithin w.depths.size ↔ ∀ c ∈ cuts, w.depths.find? c.1 = none := by
  have hplaced := (h.leave (m := .empty) hnone).placed
  rw [h.low_eq, Marks.enter, Low.isWithin_lowered]
  constructor
  · rintro ⟨_, hdeep⟩ c hc
    rcases hplaced c hc with hdepth | ⟨hdepth, _⟩
    · have hlt : c.2 < trail.length := depthIn?_lt (by rw [← hw.depths, hdepth])
      have := hdeep c hc
      rw [hw.size] at this
      omega
    · exact hdepth
  · intro hall
    refine ⟨rfl, fun c hc => ?_⟩
    rcases hplaced c hc with hdepth | ⟨_, hle⟩
    · rw [hall c hc] at hdepth
      cases hdepth
    · exact hle

/-- What is known afterwards about the exports of a file that the walk went into and left. -/
theorem find?_exports_leave (hw : w.On trail) (hnone : w.depths.find? k = none)
    (hfind : w.loader.exports.find? k = none) (h : (w.enter k).Passed cuts w') :
    (w'.leave w k m).loader.exports.find? k =
      if ∀ c ∈ cuts, w.depths.find? c.1 = none then some m else none := by
  have hkept : w'.loader.exports.find? k = none := by
    refine (h.kept k ?_).trans hfind
    rw [Marks.enter, Table.find?_insert, if_pos rfl]
    simp
  unfold Marks.leave
  dsimp only
  by_cases hwithin : w'.low.isWithin w.depths.size
  · rw [if_pos hwithin, if_pos ((isWithin_iff hw hnone h).mp hwithin), Loader.settle,
      Table.find?_insert, if_pos rfl]
  · rw [if_neg hwithin, if_neg (mt (isWithin_iff hw hnone h).mpr hwithin)]
    exact hkept

/-- A walk into a file that is not known and that the walk is not in reads it and runs through what it
exports, marked as in it. -/
theorem exec_walk_of_new (hfind : w.loader.exports.find? file.steps = none)
    (hdepth : w.depths.find? file.steps = none) (n : Nat) :
    (March.walk t (n + 1) file).exec w =
      match (March.load (moduleOf t file) >>= March.collect t (March.walk t n) file).exec
          (w.enter file.steps) with
      | some (.ok m, w') => some (.ok m, w'.leave w file.steps m)
      | some (.error e, w') => some (.error e, w')
      | none => none := by
  rw [March.walk, March.exec_bind_of_ok (March.exec_get w), hfind]
  dsimp only
  rw [hdepth]
  dsimp only
  rw [March.exec_bind_of_ok (March.exec_set _ w), March.exec_bind, March.exec_bind]
  rcases (March.load (moduleOf t file)).exec (w.enter file.steps) with _ | ⟨_ | s, w₁⟩
  · rfl
  · rfl
  · dsimp only
    rw [March.exec_bind]
    rcases (March.collect t (March.walk t n) file s).exec w₁ with _ | ⟨_ | m, w₂⟩ <;> rfl

theorem exec_walkExports_of_new {l : Loader} (hfind : l.exports.find? file.steps = none)
    (hdepth : depthIn? file.steps trail = none) (n : Nat) :
    (walkExports t (n + 1) trail file).exec l =
      match (moduleOf t file >>= collect t (walkExports t n (file.steps :: trail)) file).exec l with
      | (.ok found, l') =>
        (.ok found, if found.low.isWithin trail.length then l'.settle file.steps found.value else l')
      | (.error e, l') => (.error e, l') := by
  rw [walkExports, Load.exec_bind_of_ok (Load.exec_get l), hfind]
  dsimp only
  rw [hdepth]
  dsimp only
  rw [Load.exec_bind, Load.exec_bind]
  rcases (moduleOf t file).exec l with ⟨_ | s, l₁⟩
  · rfl
  · dsimp only
    rw [Load.exec_bind]
    rcases (collect t (walkExports t n (file.steps :: trail)) file s).exec l₁ with ⟨_ | found, l₂⟩
    · rfl
    · dsimp only
      split <;> rfl

inductive Ends (t : FileTree) (K : List (List Step)) (N : Nat) (w : Marks) (trail : Trail)
    (file : Path) : Prop
  | failed (e : Failure) (w' : Marks) :
      (∀ n, N ≤ n → (March.walk t n file).exec w = some (.error e, w') ∧
        (walkExports t n trail file).exec w.loader = (.error e, w'.loader)) →
      Ends t K N w trail file
  | passed (m : ExportMap) (cuts : List Cut) (w' : Marks) :
      (∀ n, N ≤ n → (March.walk t n file).exec w = some (.ok m, w') ∧
        (walkExports t n trail file).exec w.loader = (.ok ⟨m, Low.lowered none cuts⟩, w'.loader)) →
      w.Passed cuts w' → w'.loader.Within t K →
      (w.loader.exports.find? file.steps = none → w.depths.find? file.steps = none →
        w'.loader.exports.find? file.steps =
          if ∀ c ∈ cuts, w.depths.find? c.1 = none then some m else none) →
      Ends t K N w trail file

theorem Ends.tracks (h : Ends t K N w trail file) :
    Tracks t K N w none (fun n => March.walk t n file) fun n => walkExports t n trail file := by
  cases h with
  | failed e w' h => exact .failed e w' h
  | passed m cuts w' h hp hl => exact .passed m cuts w' h hp hl

theorem ends_of_known (hl : w.loader.Within t K) (hfind : w.loader.exports.find? file.steps = some m) :
    Ends t K (N + 1) w trail file := by
  refine .passed m [] w ?_ (.refl w) hl (by simp [hfind])
  intro n hn
  obtain ⟨n, rfl⟩ : ∃ n', n = n' + 1 := ⟨n - 1, by omega⟩
  rw [March.walk, March.exec_bind_of_ok (March.exec_get w), walkExports,
    Load.exec_bind_of_ok (Load.exec_get w.loader), hfind]
  exact ⟨rfl, rfl⟩

/-- The walk comes back to a file that it is in. -/
theorem ends_of_cut (hw : w.On trail) (hl : w.loader.Within t K)
    (hfind : w.loader.exports.find? file.steps = none) {depth : Nat}
    (hdepth : w.depths.find? file.steps = some depth) : Ends t K (N + 1) w trail file := by
  have hp : w.Passed [(file.steps, depth)] (w.cut file.steps depth) :=
    ⟨rfl, rfl, rfl, by simp [hdepth], fun _ _ => rfl⟩
  refine .passed .empty _ _ ?_ hp hl (by simp [hdepth])
  intro n hn
  obtain ⟨n, rfl⟩ : ∃ n', n = n' + 1 := ⟨n - 1, by omega⟩
  rw [March.walk, March.exec_bind_of_ok (March.exec_get w), walkExports,
    Load.exec_bind_of_ok (Load.exec_get w.loader), hfind, ← hw.depths, hdepth]
  exact ⟨rfl, rfl⟩

theorem ends_of_new (hw : w.On trail) (hl : w.loader.Within t K)
    (hfind : w.loader.exports.find? file.steps = none) (hdepth : w.depths.find? file.steps = none)
    (he : EntersAlike t K N (file.steps :: trail) (fun n => March.walk t n)
      fun n => walkExports t n (file.steps :: trail)) : Ends t K (N + 1) w trail file := by
  have hdepth' : depthIn? file.steps trail = none := by rw [← hw.depths, hdepth]
  have hw₁ := hw.enter (depthIn?_eq_none_iff.mp hdepth')
  have hbody : Tracks t K N (w.enter file.steps) none
      (fun n => March.load (moduleOf t file) >>= March.collect t (March.walk t n) file)
      (fun n => moduleOf t file >>= collect t (walkExports t n (file.steps :: trail)) file) := by
    refine .load (calm_moduleOf file) hl ?_
    intro s w₂ hp hl₂ _
    exact tracks_collect he (hw₁.of_passed hp) hl₂
  cases hbody with
  | failed e w' h =>
    refine .failed e w' fun n hn => ?_
    obtain ⟨n, rfl⟩ : ∃ n', n = n' + 1 := ⟨n - 1, by omega⟩
    have hn := h n (Nat.le_of_succ_le_succ hn)
    rw [exec_walk_of_new hfind hdepth, hn.1, exec_walkExports_of_new hfind hdepth']
    exact ⟨rfl, by rw [show w.loader = (w.enter file.steps).loader from rfl, hn.2]⟩
  | passed m cuts w' h hp hl' =>
    have hlow : (Low.lowered none cuts) = w'.low := hp.low_eq.symm
    refine .passed m cuts (w'.leave w file.steps m) ?_ (hp.leave hdepth) ?_ ?_
    · intro n hn
      obtain ⟨n, rfl⟩ : ∃ n', n = n' + 1 := ⟨n - 1, by omega⟩
      have hn := h n (Nat.le_of_succ_le_succ hn)
      rw [exec_walk_of_new hfind hdepth, hn.1, exec_walkExports_of_new hfind hdepth']
      refine ⟨rfl, ?_⟩
      rw [show w.loader = (w.enter file.steps).loader from rfl, hn.2]
      dsimp only
      rw [hlow, Marks.leave, hw.size]
    · have hresolved : (w'.leave w file.steps m).loader.resolved = w'.loader.resolved := by
        unfold Marks.leave
        dsimp only
        split <;> rfl
      exact ⟨hl'.plain, by rw [hresolved]; exact hl'.resolved⟩
    · exact fun _ _ => find?_exports_leave hw hdepth hfind hp

/-- The walk ends from wherever it stands: the files that it is not in get fewer. -/
theorem ends_walk (hw : w.On trail) (hl : w.loader.Within t K) (hfile : file.steps ∈ K)
    (hN : unvisited K trail < N) : Ends t K N w trail file := by
  -- on the number of files that the walk is not in, which bounds the calls still to be nested
  induction N generalizing w trail file with
  | zero => omega
  | succ N ih =>
    cases hfind : w.loader.exports.find? file.steps with
    | some m => exact ends_of_known hl hfind
    | none =>
      cases hdepth : w.depths.find? file.steps with
      | some depth => exact ends_of_cut hw hl hfind hdepth
      | none =>
        refine ends_of_new hw hl hfind hdepth ?_
        intro g hg w₁ hw₁ hl₁
        have hnot : file.steps ∉ trail := by
          rw [← depthIn?_eq_none_iff, ← hw.depths, hdepth]
        have hlt := unvisited_lt hfile hnot
        exact (ih hw₁ hl₁ hg (by omega)).tracks

end

/-- The walk into a file comes back, wherever it starts from and whatever is known, and finds what
`walkExports` finds. If it does not fail, the files that it is in and their depths are as before, the
lowest mark is the minimum of what it was and the depths of the cuts, and what it found is known afterwards
if and only if no cut lies at a file that the walk was in before; a file that was known before, or that the
walk was in, is excepted from the last. -/
theorem March.walk_balanced (t : FileTree) {w : Marks} {trail : Trail} (hw : w.On trail)
    (file : Path) :
    (∃ e w', ∀ n, enoughCalls t w.loader ≤ n →
      (walk t n file).exec w = some (.error e, w') ∧
      (walkExports t n trail file).exec w.loader = (.error e, w'.loader)) ∨
    ∃ m cuts w', (∀ n, enoughCalls t w.loader ≤ n →
        (walk t n file).exec w = some (.ok m, w') ∧
        (walkExports t n trail file).exec w.loader = (.ok ⟨m, Low.lowered none cuts⟩, w'.loader)) ∧
      w'.depths = w.depths ∧
      w'.low = w.low.lowered cuts ∧
      w'.cuts = w.cuts ++ cuts ∧
      (∀ c ∈ cuts, w.depths.find? c.1 = some c.2 ∨
        (w.depths.find? c.1 = none ∧ w.depths.size ≤ c.2)) ∧
      (w.loader.exports.find? file.steps = none → w.depths.find? file.steps = none →
        w'.loader.exports.find? file.steps =
          if ∀ c ∈ cuts, w.depths.find? c.1 = none then some m else none) := by
  have hends := ends_walk hw (within_walkable t w.loader file) List.mem_cons_self
    (unvisited_walkable t w.loader file trail)
  cases hends with
  | failed e w' h => exact Or.inl ⟨e, w', h⟩
  | passed m cuts w' h hp _ hknown =>
    exact Or.inr ⟨m, cuts, w', h, hp.depths_eq, hp.low_eq, hp.cuts_eq, hp.placed, hknown⟩

def entangled : FileTree := ⟨⟨[
  (["a.ts"], .file (.text "export*from'./a';export*from'./b'")),
  (["b.ts"], .file (.text "export*from'./a'"))]⟩⟩

def inSecond : Marks := ⟨.empty, ⟨[([.root, .name "b.ts"], 0)]⟩, none, []⟩

/-- The walk comes to the first file from the second. It is cut at both, so what it found is not kept. -/
theorem March.walk_balanced_entangled :
    inSecond.On [[.root, .name "b.ts"]] ∧
      ∃ m w', (walk entangled 4 ⟨true, ["a.ts"]⟩).exec inSecond = some (.ok m, w') ∧
        w'.depths = inSecond.depths ∧
        w'.cuts = [([.root, .name "a.ts"], 1), ([.root, .name "b.ts"], 0)] ∧ w'.low = some 0 ∧
        w'.loader.exports.find? [.root, .name "a.ts"] = none := by
  have hw : inSecond.On [[.root, .name "b.ts"]] := by
    refine ⟨fun k => ?_, rfl⟩
    unfold inSecond Table.find? depthIn?
    by_cases hk : [Step.root, .name "b.ts"] = k <;> simp [hk, depthIn?]
  have hrun : ((walk entangled 4 ⟨true, ["a.ts"]⟩).exec inSecond).map
      (fun r => (r.1.toOption.isSome, r.2.cuts)) =
        some (true, [([.root, .name "a.ts"], 1), ([.root, .name "b.ts"], 0)]) := by decide +kernel
  refine ⟨hw, ?_⟩
  rcases March.walk_balanced entangled hw ⟨true, ["a.ts"]⟩ with
    ⟨e, w', h⟩ | ⟨m, cuts, w', h, hdepths, hlow, hcuts, -, hknown⟩
  · rw [(h 4 (by decide)).1] at hrun
    simp [Except.toOption] at hrun
  · have hx := (h 4 (by decide)).1
    rw [hx] at hrun
    have hlog : w'.cuts = [([.root, .name "a.ts"], 1), ([.root, .name "b.ts"], 0)] := by
      simpa using congrArg (Option.map Prod.snd) hrun
    rw [hlog] at hcuts
    obtain rfl : _ = cuts := hcuts
    refine ⟨m, w', hx, hdepths, hlog, hlow, ?_⟩
    refine (hknown rfl (by decide)).trans (if_neg ?_)
    decide

end BarrelAlias.Linkage
