import BarrelAlias.Proofs.Place
import BarrelAlias.Proofs.Spelling

/-!
The paths that are tried for a specifier. All of them are without detours, so the file that is found
is the first of them that is a file.
-/

namespace BarrelAlias

namespace FileTree

/-- A file that is reached by names only is found under these names. -/
theorem canonical_of_steps {t : FileTree} {p : Path} {ns : List String}
    (h : p.steps = .root :: ns.map .name) (hf : t.isFile p) : t.canonical p = ⟨true, ns⟩ := by
  obtain ⟨loc, c, hl, _⟩ := isFile_iff.mp hf
  have hloc : loc = ns := by
    rw [(locate_ok hl).2, h, Location.ofSteps, List.foldl_cons, Location.foldl_move_names]
    rfl
  subst hloc
  simp [canonical, canonical?, hl, Except.toOption, Location.path]

/-- A file that is named without detours is what its path leads to. -/
theorem canonical_names {t : FileTree} {ns : List String} (h : ∀ n ∈ ns, Path.IsName n)
    (hf : t.isFile ⟨true, ns⟩) : t.canonical ⟨true, ns⟩ = ⟨true, ns⟩ :=
  canonical_of_steps (Path.steps_names h) hf

theorem Placed.isName {t : FileTree} {loc : Location} (h : t.Placed loc) :
    ∀ n ∈ loc, Path.IsName n := by
  induction h with
  | top => simp
  | inside _ _ hne hdot hup _ ih =>
    intro n hn
    rcases List.mem_append.mp hn with hn | hn
    · exact ih n hn
    · rw [List.mem_singleton.mp hn]
      exact ⟨hne, hdot, hup⟩

/-- All places on the way to a place are folders. -/
theorem Placed.hasFolder_of_append {t : FileTree} {loc rest : Location} (hr : rest ≠ [])
    (h : t.Placed (loc ++ rest)) : t.hasFolder loc := by
  generalize he : loc ++ rest = whole at h
  induction h generalizing rest with
  | top => exact absurd (List.append_eq_nil_iff.mp he).2 hr
  | @inside loc' name _ hf _ _ _ _ ih =>
    rcases List.eq_nil_or_concat rest with rfl | ⟨front, m, rfl⟩
    · exact absurd rfl hr
    · rw [List.concat_eq_append, ← List.append_assoc] at he
      obtain ⟨hfront, _⟩ := List.append_inj' he rfl
      by_cases hnil : front = []
      · rw [hnil, List.append_nil] at hfront
        rw [hfront]
        exact hf
      · exact ih hnil hfront

/-- A file is not on the way to another place. -/
theorem Placed.not_prefix {t : FileTree} {loc loc' : Location} {c : Content}
    (hfile : t.node? loc = some (.file c)) (hp : t.Placed loc') (hne : loc ≠ loc') :
    ¬ loc <+: loc' := by
  rintro ⟨rest, rfl⟩
  have hr : rest ≠ [] := by
    rintro rfl
    exact hne (List.append_nil loc).symm
  have hf := hp.hasFolder_of_append hr
  simp [hasFolder, hfile] at hf

end FileTree

namespace Linkage

open BarrelAlias.Path (IsName)

theorem sourcesOf_subset {x ext : String} (h : ext ∈ Extension.sourcesOf x) :
    ext ∈ Extension.probed := by
  unfold Extension.sourcesOf at h
  split at h <;> simp [Extension.probed] at h ⊢ <;> tauto

theorem mem_probes_extension {front : List String} {stem ext : String}
    (h : ∀ m ∈ front ++ [stem], IsName m ∧ '/' ∉ m.toList) (hext : ext ∈ Extension.probed) :
    (⟨true, front ++ [stem ++ ("." ++ ext)]⟩ : Path) ∈ probes ⟨true, front ++ [stem]⟩ := by
  unfold probes
  refine List.mem_append_left _ (List.mem_append_left _ (List.mem_cons_of_mem _ ?_))
  exact List.mem_map.mpr ⟨ext, hext, Path.ofText_extension h hext⟩

theorem index_extension (ext : String) : "index." ++ ext = "index" ++ ("." ++ ext) := by
  rw [← String.append_assoc]
  rfl

theorem mem_probes_index {front : List String} {ext : String} (h : ∀ m ∈ front, IsName m)
    (hext : ext ∈ Extension.probed) :
    (⟨true, front ++ ["index" ++ ("." ++ ext)]⟩ : Path) ∈ probes ⟨true, front⟩ := by
  unfold probes
  refine List.mem_append_right _ (List.mem_map.mpr ⟨"index." ++ ext, ?_, ?_⟩)
  · exact List.mem_map.mpr ⟨ext, hext, rfl⟩
  · rw [Path.join_names h (List.cons_ne_nil _ _), index_extension]

/-- How the names of a path that is tried come from the names of the path it is tried for. -/
inductive Probed : List String → List String → Prop
  | itself (ps : List String) : Probed ps ps
  | extended (front : List String) (m : String) {ext : String} : ext ∈ Extension.probed →
      Probed (front ++ [m]) (front ++ [m ++ ("." ++ ext)])
  | source (front : List String) (m : String) {ext : String} : ext ∈ Extension.probed →
      Probed (front ++ [m]) (front ++ [(Path.stemAndExtension m).1 ++ ("." ++ ext)])
  | index (ps : List String) {ext : String} : ext ∈ Extension.probed →
      Probed ps (ps ++ ["index" ++ ("." ++ ext)])
  | top {ext : String} : ext ∈ Extension.probed → Probed [] ["" ++ ("." ++ ext)]

theorem probed_of_mem {ps : List String} (h : ∀ m ∈ ps, IsName m ∧ '/' ∉ m.toList) {q : Path}
    (hq : q ∈ probes ⟨true, ps⟩) : ∃ ns, q = ⟨true, ns⟩ ∧ Probed ps ns := by
  have hnames : ∀ m ∈ ps, IsName m := fun m hm => (h m hm).1
  unfold probes at hq
  rcases List.mem_append.mp hq with hq | hq
  · rcases List.mem_append.mp hq with hq | hq
    · rcases List.mem_cons.mp hq with rfl | hq
      · exact ⟨ps, rfl, .itself ps⟩
      · obtain ⟨ext, hext, rfl⟩ := List.mem_map.mp hq
        rcases List.eq_nil_or_concat ps with rfl | ⟨front, n, rfl⟩
        · have hslash := Path.slash_extension hext (x := "") (by simp)
          have htext : Path.text ⟨true, []⟩ ++ "." ++ ext =
              "/" ++ "/".intercalate ["" ++ ("." ++ ext)] := by
            rw [String.intercalate_singleton, String.empty_append, ← String.append_assoc]
            rfl
          refine ⟨["" ++ ("." ++ ext)], ?_, .top hext⟩
          rw [htext]
          exact Path.ofText_absolute (Path.isName_extension "" hext).1 (by simpa using hslash)
        · rw [List.concat_eq_append] at h ⊢
          exact ⟨_, Path.ofText_extension h hext, .extended front n hext⟩
    · obtain ⟨ext, hext, rfl⟩ := List.mem_map.mp hq
      rcases List.eq_nil_or_concat ps with rfl | ⟨front, n, rfl⟩
      · exact ⟨[], rfl, .itself []⟩
      · rw [List.concat_eq_append] at hnames ⊢
        exact ⟨_, Path.withExtension_names hnames ext, .source front n (sourcesOf_subset hext)⟩
  · obtain ⟨name, hname, rfl⟩ := List.mem_map.mp hq
    obtain ⟨ext, hext, rfl⟩ := List.mem_map.mp hname
    refine ⟨_, Path.join_names hnames (List.cons_ne_nil _ _), ?_⟩
    rw [index_extension]
    exact .index ps hext

theorem Probed.isName {ps ns : List String} (h : Probed ps ns) (hps : ∀ m ∈ ps, IsName m) :
    ∀ n ∈ ns, IsName n := by
  have hconcat : ∀ {front : List String} {x ext : String}, (∀ m ∈ front, IsName m) →
      ext ∈ Extension.probed → ∀ m ∈ front ++ [x ++ ("." ++ ext)], IsName m := by
    intro front x ext hf hext m hm
    rcases List.mem_append.mp hm with hm | hm
    · exact hf m hm
    · rw [List.mem_singleton.mp hm]
      exact Path.isName_extension x hext
  cases h with
  | itself => exact hps
  | extended front m hext => exact hconcat (fun n hn => hps n (List.mem_append_left _ hn)) hext
  | source front m hext => exact hconcat (fun n hn => hps n (List.mem_append_left _ hn)) hext
  | index _ hext => exact hconcat hps hext
  | top hext => exact hconcat (fun m hm => absurd hm List.not_mem_nil) hext

/-- A path that is tried and has one name more than the path it is tried for is an index file, or all
extension at the top. -/
theorem Probed.of_length_le {ps front : List String} {n : String} (h : Probed ps (front ++ [n]))
    (hle : ps.length ≤ front.length) :
    ps = front ∧ ∃ ext ∈ Extension.probed, n = "index" ++ ("." ++ ext) ∨ n = "" ++ ("." ++ ext) := by
  generalize hns : front ++ [n] = ns at h
  have hlen : ns.length = front.length + 1 := by simp [← hns]
  cases h with
  | itself => omega
  | extended fr m hext =>
    simp only [List.length_append, List.length_singleton] at hle hlen
    omega
  | source fr m hext =>
    simp only [List.length_append, List.length_singleton] at hle hlen
    omega
  | index _ hext =>
    obtain ⟨rfl, hn⟩ := List.append_inj' hns rfl
    exact ⟨rfl, _, hext, Or.inl (List.singleton_inj.mp hn)⟩
  | top hext =>
    have hns : front ++ [n] = [] ++ [_] := hns
    obtain ⟨rfl, hn⟩ := List.append_inj' hns rfl
    exact ⟨rfl, _, hext, Or.inr (List.singleton_inj.mp hn)⟩

theorem find?_eq_some_iff_takeWhile {α : Type} [DecidableEq α] {p : α → Bool} {a : α} (ha : p a)
    (xs : List α) :
    xs.find? p = some a ↔ a ∈ xs ∧ ∀ x ∈ xs.takeWhile (· ≠ a), ¬ p x := by
  induction xs with
  | nil => simp
  | cons x xs ih =>
    by_cases hx : x = a
    · subst hx
      simp [ha]
    · by_cases hp : p x
      · simp [hx, hp]
      · rw [List.find?_cons_of_neg hp, ih]
        simp [hx, hp, Ne.symm hx]

/-- A file is found exactly if it is tried and none of the paths that are tried before it is a file. -/
theorem fileFor?_eq_iff {t : FileTree} {ps : List String}
    (h : ∀ m ∈ ps, IsName m ∧ '/' ∉ m.toList) {g : Path} (hg : t.IsPlain g) :
    fileFor? t ⟨true, ps⟩ = some g ↔ g ∈ probes ⟨true, ps⟩ ∧
      ∀ q ∈ (probes ⟨true, ps⟩).takeWhile (· ≠ g), ¬ t.isFile q := by
  rw [← find?_eq_some_iff_takeWhile hg.isFile, fileFor?, Option.map_eq_some_iff]
  constructor
  · rintro ⟨first, hfirst, hcan⟩
    obtain ⟨ns, rfl, hns⟩ := probed_of_mem h (List.mem_of_find?_eq_some hfirst)
    have hnames := hns.isName fun m hm => (h m hm).1
    rw [FileTree.canonical_names hnames (List.find?_some hfirst)] at hcan
    rw [← hcan]
    exact hfirst
  · intro hfirst
    exact ⟨g, hfirst, hg.canonical_eq⟩

end Linkage

end BarrelAlias
