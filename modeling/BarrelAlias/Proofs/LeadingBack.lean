import BarrelAlias.Proofs.Specifier

/-!
Specifiers lead back to their files. From a folder to a file whose names hold no backslash, the
specifier leaves out the extension of the file, or the whole name of an index file, and what is tried
for the path that it names gives the file back. A file that stands where the folder or a folder above
it should be is named by steps up alone, and then the specifier leads to the file itself.
-/

namespace BarrelAlias

namespace Path

theorem isName_of_stepOf {n : String} (hc : counts false n) (hup : stepOf n ≠ .up) :
    IsName n ∧ stepOf n = .name n := by
  have hne : n ≠ "" ∧ n ≠ "." := by simpa [counts] using hc
  have hdots : n ≠ ".." := by
    rintro rfl
    exact hup rfl
  exact ⟨⟨hne.1, hne.2, hdots⟩, by simp [stepOf, hne.2, hdots]⟩

/-- An absolute path that never goes up takes the parts that are steps as names. -/
theorem steps_of_not_up {p : Path} (hr : p.rooted) (hup : .up ∉ p.steps) :
    p.steps = .root :: (p.parts.filter (counts false)).map .name ∧
      ∀ n ∈ p.parts.filter (counts false), IsName n := by
  rw [steps_of_rooted hr, stepsOf_false] at hup ⊢
  have hsteps : ∀ n ∈ p.parts.filter (counts false), IsName n ∧ stepOf n = .name n := by
    intro n hn
    refine isName_of_stepOf (List.mem_filter.mp hn).2 fun h => hup ?_
    exact List.mem_cons_of_mem _ (List.mem_map.mpr ⟨n, hn, h⟩)
  exact ⟨by rw [List.map_congr_left fun n hn => (hsteps n hn).2], fun n hn => (hsteps n hn).1⟩

/-- An absolute text that never goes up spells a place by names that stand in it. -/
theorem exists_names_ofText {s : String} (hr : (ofText s).rooted) (hup : .up ∉ (ofText s).steps) :
    ∃ ns : List String, (ofText s).steps = .root :: ns.map .name ∧
      ∀ n ∈ ns, (IsName n ∧ '/' ∉ n.toList) ∧ ∀ c ∈ n.toList, c ∈ s.toList := by
  obtain ⟨hsteps, hnames⟩ := steps_of_not_up hr hup
  refine ⟨_, hsteps, ?_⟩
  intro n hn
  obtain ⟨hslash, hsub⟩ := mem_parts_ofText (List.mem_filter.mp hn).1
  exact ⟨⟨hnames n hn, hslash⟩, hsub⟩

theorem map_name_prefix_iff {ns ms : List String} :
    ns.map Step.name <+: ms.map Step.name ↔ ns <+: ms := by
  constructor
  · intro h
    obtain ⟨l, hl, he⟩ := List.prefix_map_iff.mp h
    exact map_name_injective he ▸ hl
  · intro h
    exact h.map Step.name

end Path

namespace Barrel

open Linkage
open BarrelAlias.Path (IsName ofText stepsOf)

/-- A specifier depends on the places of its folder and its file only. -/
theorem specifierOf_congr {d d' f f' : Path} (hd : d.steps = d'.steps) (hf : f.steps = f'.steps)
    (hr : d.rooted) (hr' : f.rooted) : specifierOf d f = specifierOf d' f' := by
  have hrel : f.relativeTo? d = f'.relativeTo? d' := by
    rw [Path.relativeTo?, Path.relativeTo?, hd, hf]
  obtain ⟨way, hway⟩ : ∃ way, f.relativeTo? d = some way := by
    rw [Path.relativeTo?, Path.steps_of_rooted hr, Path.steps_of_rooted hr', if_pos (by simp)]
    dsimp only
    split <;> exact ⟨_, rfl⟩
  rw [specifierOf_steps, specifierOf_steps, ← hrel, hway]
  rfl

def onlyUp : Nat → List String
  | 0 => [".", "."]
  | 1 => [".", ".."]
  | n + 2 => List.replicate (n + 2) ".."

theorem stepsOf_onlyUp (n : Nat) : stepsOf false (onlyUp n) = List.replicate n .up := by
  match n with
  | 0 => rfl
  | 1 => rfl
  | n + 2 => exact stepsOf_ups (n + 2)

/-- A text that ends otherwise than a tail is not cut before it. -/
theorem beforeTail?_of_last {s tail : String} (hne : tail ≠ "")
    (hlast : tail.toList.getLast? ≠ s.toList.getLast?) : Text.beforeTail? tail s = none := by
  rw [Option.eq_none_iff_forall_ne_some]
  rintro x hx
  obtain rfl := Text.beforeTail?_eq_some.mp hx
  rw [String.toList_append, List.getLast?_append_of_ne_nil _ (by simpa using hne)] at hlast
  exact hlast rfl

/-- A way that ends with a dot is not cut off. -/
theorem uncut_of_dot {way : String} (h : way.toList.getLast? = some '.') :
    withoutExtension Extension.barrel way = way ∧ withoutIndex way = way := by
  constructor
  · have hnone : ∀ ext ∈ Extension.barrel, Text.beforeTail? ("." ++ ext) way = none := by
      intro ext hext
      refine beforeTail?_of_last (by simp) ?_
      rw [h]
      simp only [Extension.barrel, List.mem_cons, List.not_mem_nil, or_false] at hext
      rcases hext with rfl | rfl | rfl | rfl <;> decide
    rw [withoutExtension, List.findSome?_eq_none_iff.mpr hnone]
    rfl
  · rw [withoutIndex, beforeTail?_of_last (by decide) (by rw [h]; decide)]
    rfl

/-- The specifier of a place that is the folder itself or stands above it only goes up. -/
theorem specifierOf_above {gs us : List String} (h : ∀ n ∈ gs ++ us, IsName n) :
    specifierOf ⟨true, gs ++ us⟩ ⟨true, gs⟩ = "/".intercalate (onlyUp us.length) := by
  rw [specifierOf_steps]
  match us with
  | [] =>
    rw [List.append_nil, Path.relativeTo?_self, Option.getD_some]
    decide
  | [u] =>
    rw [Path.relativeTo?_above h (by simp), Option.getD_some, List.length_singleton]
    decide
  | u :: v :: ws =>
    -- from two steps up on the way begins with `../` and is left as it is
    have htext : Path.text ⟨false, List.replicate (u :: v :: ws).length ".."⟩ =
        "/".intercalate (List.replicate (u :: v :: ws).length "..") := String.empty_append
    have hback : '\\' ∉ ("/".intercalate (List.replicate (u :: v :: ws).length "..")).toList := by
      refine Text.not_mem_intercalate (by decide) fun n hn => ?_
      rw [List.eq_of_mem_replicate hn]
      decide
    have hsplit : "/".intercalate (List.replicate (u :: v :: ws).length "..") =
        "/".intercalate (List.replicate (v :: ws).length "..") ++ "/" ++ ".." := by
      have hrep : List.replicate (u :: v :: ws).length ".." =
          List.replicate (v :: ws).length ".." ++ [".."] := List.replicate_succ'
      rw [hrep, String.intercalate_append_of_ne_nil (by simp) (by simp),
        String.intercalate_singleton]
    obtain ⟨hext, hindex⟩ := @uncut_of_dot
      ("/".intercalate (List.replicate (v :: ws).length "..") ++ "/" ++ "..") (by simp)
    rw [Path.relativeTo?_above h (by simp), Option.getD_some, Path.slashed, htext,
      Text.replaceChar_of_not_mem hback, hsplit, hext, dotted_up, hindex, ← hsplit]
    rfl

variable {base : Path} {fs gs us ps : List String} {stem ext : String}

theorem clean_join_above (h : ∀ n ∈ gs ++ us, IsName n) (hr : base.rooted)
    (hbase : base.steps = .root :: (gs ++ us).map .name) :
    isPlaced (specifierOf ⟨true, gs ++ us⟩ ⟨true, gs⟩) ∧
      (base.join (ofText (specifierOf ⟨true, gs ++ us⟩ ⟨true, gs⟩))).clean = ⟨true, gs⟩ := by
  have hpieces : ∃ n ns, onlyUp us.length = n :: ns ∧ n.toList.head? = some '.' ∧
      ∀ m ∈ n :: ns, '/' ∉ m.toList := by
    match us.length with
    | 0 => exact ⟨".", ["."], rfl, by decide, by decide⟩
    | 1 => exact ⟨".", [".."], rfl, by decide, by decide⟩
    | n + 2 =>
      refine ⟨"..", List.replicate (n + 1) "..", rfl, by decide, fun m hm => ?_⟩
      rw [← List.replicate_succ] at hm
      rw [List.eq_of_mem_replicate hm]
      decide
  obtain ⟨n, ns, hns, hdot, hslash⟩ := hpieces
  obtain ⟨hplaced, htext⟩ := isPlaced_of_head hdot hslash
  rw [← hns, ← specifierOf_above h] at hplaced htext
  refine ⟨hplaced, ?_⟩
  rw [clean_join_eq hr hbase, htext, stepsOf_onlyUp, if_neg (by simp), Location.foldl_move_up]
  rfl

/-- The path that the specifier of a file names in its folder. -/
def pointed (outDir file : Path) : Path := (outDir.join (ofText (specifierOf outDir file))).clean

/-- How a file stands to the path that its specifier names, with the names of the folder. -/
inductive Named (fs : List String) (stem ext : String) : List String → List String → Prop
  | above {gs : List String} : gs <+: fs → Named fs stem ext gs gs
  | index {ps : List String} : ¬ ps ++ ["index" ++ ("." ++ ext)] <+: fs → stem = "index" →
      Named fs stem ext ps (ps ++ ["index" ++ ("." ++ ext)])
  | extended {front : List String} : ¬ front ++ [stem ++ ("." ++ ext)] <+: fs → stem ≠ "index" →
      Named fs stem ext (front ++ [stem]) (front ++ [stem ++ ("." ++ ext)])

theorem Way.named {common up front : List String}
    (h : Way fs ⟨true, gs⟩ common up front stem ext) (hnot : ¬ gs <+: fs) :
    Named fs stem ext (common ++ (front ++ if stem = "index" then [] else [stem])) gs := by
  have hgs : gs = common ++ front ++ [stem ++ ("." ++ ext)] := by
    rw [List.append_assoc]
    exact congrArg Path.parts h.file_eq
  rw [hgs] at hnot ⊢
  rw [← List.append_assoc]
  by_cases hidx : stem = "index"
  · subst hidx
    rw [if_pos rfl, List.append_nil]
    exact .index hnot rfl
  · rw [if_neg hidx]
    exact .extended hnot hidx

/-- The specifier of a file whose names hold no backslash names a path that the file stands to in one of
these ways. -/
theorem exists_pointed {file : Path} (hr : base.rooted) (hbase : base.steps = .root :: fs.map .name)
    (hr' : file.rooted) (hfile : file.steps = .root :: gs.map .name)
    (hfs : ∀ n ∈ fs, IsName n) (hgs : ∀ n ∈ gs, (IsName n ∧ '/' ∉ n.toList) ∧ '\\' ∉ n.toList)
    (hname : file.fileName? = some (stem ++ ("." ++ ext))) (hext : ext ∈ Extension.barrel)
    (hstem : IsName stem) :
    ∃ ps, isPlaced (specifierOf base file) ∧ pointed base file = ⟨true, ps⟩ ∧
      (∀ n ∈ ps, IsName n ∧ '/' ∉ n.toList) ∧ Named fs stem ext ps gs := by
  have hnames : ∀ n ∈ gs, IsName n ∧ '/' ∉ n.toList := fun n hn => (hgs n hn).1
  have hplain : file.steps = (⟨true, gs⟩ : Path).steps := by
    rw [hfile, Path.steps_names fun n hn => (hnames n hn).1]
  have hspec : specifierOf base file = specifierOf ⟨true, fs⟩ ⟨true, gs⟩ :=
    specifierOf_congr (hbase.trans (Path.steps_names hfs).symm) hplain hr hr'
  rw [pointed, hspec]
  by_cases hprefix : gs <+: fs
  · obtain ⟨us, rfl⟩ := hprefix
    obtain ⟨hplaced, hclean⟩ := clean_join_above hfs hr hbase
    exact ⟨gs, hplaced, hclean, hnames, .above ⟨us, rfl⟩⟩
  · have hdot : '.' ∉ ext.toList := by
      simp only [Extension.barrel, List.mem_cons, List.not_mem_nil, or_false] at hext
      rcases hext with rfl | rfl | rfl | rfl <;> decide
    rw [Path.fileName?_congr hplain] at hname
    obtain ⟨common, up, front, hway⟩ := exists_way_of_names hfs hnames hprefix hname hext
      (Path.stemAndExtension_append hstem.1 hdot) hstem.1
    have hback : ∀ m ∈ front ++ [stem ++ ("." ++ ext)], '\\' ∉ m.toList := by
      have hparts : gs = common ++ (front ++ [stem ++ ("." ++ ext)]) :=
        congrArg Path.parts hway.file_eq
      exact fun m hm => (hgs m (hparts ▸ List.mem_append_right common hm)).2
    obtain ⟨hplaced, hclean⟩ := hway.clean_join hr hbase (hway.backslash_iff.mp hback) hstem.2
    exact ⟨_, hplaced, hclean, hway.target_names hstem.2, hway.named hprefix⟩

/-- The file is among the paths that are tried for the path that its specifier names. -/
theorem Named.mem_probes (h : Named fs stem ext ps gs) (hps : ∀ n ∈ ps, IsName n ∧ '/' ∉ n.toList)
    (hext : ext ∈ Extension.barrel) : (⟨true, gs⟩ : Path) ∈ probes ⟨true, ps⟩ := by
  cases h with
  | above => exact List.mem_cons_self ..
  | index => exact mem_probes_index (fun n hn => (hps n hn).1) (probed_of_barrel hext)
  | extended => exact mem_probes_extension hps (probed_of_barrel hext)

theorem mem_takeWhile_of_imp {α : Type} {p r : α → Bool} {xs : List α} (h : ∀ x ∈ xs, p x → r x)
    {x : α} (hx : x ∈ xs.takeWhile p) : x ∈ xs.takeWhile r := by
  induction xs with
  | nil => cases hx
  | cons y ys ih =>
    rw [List.forall_mem_cons] at h
    rw [List.takeWhile_cons] at hx ⊢
    split at hx
    · next hp =>
      rw [if_pos (h.1 hp)]
      rcases List.mem_cons.mp hx with rfl | hx
      · exact List.mem_cons_self ..
      · exact List.mem_cons_of_mem y (ih h.2 hx)
    · cases hx

/-- The specifier leads to the file if none of the paths that are tried before it is a file. -/
theorem Named.fileFor?_eq (h : Named fs stem ext ps gs) (hps : ∀ n ∈ ps, IsName n ∧ '/' ∉ n.toList)
    (hext : ext ∈ Extension.barrel) {t : FileTree} {file : Path}
    (hfile : file.steps = .root :: gs.map .name) (hf : t.isFile file)
    (hfirst : ∀ q ∈ (probes ⟨true, ps⟩).takeWhile (!·.same file), ¬ t.isFile q) :
    fileFor? t ⟨true, ps⟩ = some ⟨true, gs⟩ := by
  have hplain : t.IsPlain ⟨true, gs⟩ :=
    FileTree.canonical_of_steps hfile hf ▸ FileTree.isPlain_canonical hf
  refine (fileFor?_eq_iff hps hplain).mpr ⟨h.mem_probes hps hext, fun q hq => hfirst q ?_⟩
  refine mem_takeWhile_of_imp ?_ hq
  intro q hq hne
  obtain ⟨ns, rfl, hns⟩ := probed_of_mem hps hq
  have hsteps := Path.steps_names (hns.isName fun m hm => (hps m hm).1)
  rw [Bool.not_eq_true', Bool.eq_false_iff]
  intro hsame
  rw [Path.same, beq_iff_eq, hsteps, hfile, List.cons.injEq] at hsame
  cases Path.map_name_injective hsame.2
  simp at hne

/-- A specifier leads back. Let the name of a file have a stem and one of the extensions that a barrel
leaves out. Then the specifier names the file without that extension, or the folder of an index file, and
the file itself if it stands where the barrel's folder or a folder above that should be. From each file
in the folder it leads to the file, unless a path that is tried before it is a file. -/
theorem specifierOf_leads_back (outDir file stem ext : String) (hout : (ofText outDir).rooted)
    (hfile : (ofText file).rooted) (hup : .up ∉ (ofText outDir).steps)
    (hup' : .up ∉ (ofText file).steps) (hback : '\\' ∉ file.toList)
    (hname : (ofText file).fileName? = some (stem ++ ("." ++ ext))) (hext : ext ∈ Extension.barrel)
    (hstem : stem ≠ "" ∧ stem ≠ "." ∧ stem ≠ "..") :
    (if (ofText file).steps <+: (ofText outDir).steps then
        (pointed (ofText outDir) (ofText file)).steps = (ofText file).steps
      else if stem = "index" then
        ((pointed (ofText outDir) (ofText file)).join ⟨false, ["index." ++ ext]⟩).steps =
          (ofText file).steps
      else
        (ofText ((pointed (ofText outDir) (ofText file)).text ++ "." ++ ext)).steps =
          (ofText file).steps) ∧
    ∀ (t : FileTree) (user folder : Path), user.parent? = some folder →
      folder.steps = (ofText outDir).steps → t.isFile (ofText file) →
      (∀ q ∈ (probes (pointed (ofText outDir) (ofText file))).takeWhile (!·.same (ofText file)),
        ¬ t.isFile q) →
      ∀ known : Resolved, known.find? (user.steps, specifierOf (ofText outDir) (ofText file)) = none →
        ∃ g, (resolveOnce t known user (specifierOf (ofText outDir) (ofText file))).1 = some g ∧
          g.steps = (ofText file).steps := by
  obtain ⟨fs, hfs, hfsNames⟩ := Path.exists_names_ofText hout hup
  obtain ⟨gs, hgs, hgsNames⟩ := Path.exists_names_ofText hfile hup'
  have hgsName : ∀ n ∈ gs, IsName n := fun n hn => (hgsNames n hn).1.1
  obtain ⟨ps, hplaced, hclean, hps, hnamed⟩ := exists_pointed hout hfs hfile hgs
    (fun n hn => (hfsNames n hn).1.1)
    (fun n hn => ⟨(hgsNames n hn).1, fun hb => hback ((hgsNames n hn).2 _ hb)⟩) hname hext hstem
  have hprefix : (ofText file).steps <+: (ofText outDir).steps ↔ gs <+: fs := by
    rw [hfs, hgs, List.cons_prefix_cons, and_iff_right rfl, Path.map_name_prefix_iff]
  constructor
  · rw [hclean, if_congr hprefix rfl rfl, hgs, ← Path.steps_names hgsName]
    cases hnamed with
    | above habove => rw [if_pos habove]
    | index hnot hidx =>
      rw [if_neg hnot, if_pos hidx, Path.join_names (fun n hn => (hps n hn).1) (List.cons_ne_nil _ _),
        index_extension]
    | extended hnot hidx =>
      rw [if_neg hnot, if_neg hidx, Path.ofText_extension hps (probed_of_barrel hext)]
  · intro t user folder hparent hfolder hf hfirst known hknown
    rw [hclean] at hfirst
    have hplace : namedPath user (specifierOf (ofText outDir) (ofText file)) = ⟨true, ps⟩ := by
      have hrooted : folder.rooted := Path.rooted_of_steps_eq hfolder.symm hout
      rw [namedPath, hparent, Option.getD_some, clean_join_eq hrooted (hfolder.trans hfs),
        ← clean_join_eq hout hfs]
      exact hclean
    refine ⟨⟨true, gs⟩, ?_, ?_⟩
    · rw [resolveOnce, hknown, resolve?, if_pos hplaced, hplace]
      exact hnamed.fileFor?_eq hps hext hgs hf hfirst
    · rw [hgs, Path.steps_names hgsName]

/-- A folder beside another one that holds a file with two dots in its name. -/
def twoFolders : FileTree :=
  ⟨⟨[(["lib"], .folder), (["lib", "a.d.ts"], .file (.text "")), (["src"], .folder)]⟩⟩

theorem twoFolders_leads_back :
    specifierOf (ofText "/src") (ofText "/lib/a.d.ts") = "../lib/a.d" ∧
      (ofText ((pointed (ofText "/src") (ofText "/lib/a.d.ts")).text ++ "." ++ "ts")).steps =
        (ofText "/lib/a.d.ts").steps ∧
      ∃ g, (resolveOnce twoFolders .empty ⟨true, ["src", "index.ts"]⟩
          (specifierOf (ofText "/src") (ofText "/lib/a.d.ts"))).1 = some g ∧
        g.steps = (ofText "/lib/a.d.ts").steps := by
  obtain ⟨hpointed, hleads⟩ := specifierOf_leads_back "/src" "/lib/a.d.ts" "a.d" "ts" (by decide)
    (by decide) (by decide) (by decide) (by decide) (by decide) (by decide) (by decide)
  refine ⟨by decide, ?_, ?_⟩
  · rw [if_neg (by decide), if_neg (by decide)] at hpointed
    exact hpointed
  · exact hleads twoFolders ⟨true, ["src", "index.ts"]⟩ ⟨true, ["src"]⟩ (by decide) (by decide)
      (by decide +kernel) (by decide +kernel) .empty rfl

/-- From the place of the file itself its specifier stays there, and no extension and no index file is
left to add. -/
theorem specifierOf_own_place :
    (ofText "/p/a.ts").rooted = true ∧ .up ∉ (ofText "/p/a.ts").steps ∧ '\\' ∉ "/p/a.ts".toList ∧
      (ofText "/p/a.ts").fileName? = some ("a" ++ ("." ++ "ts")) ∧ "ts" ∈ Extension.barrel ∧
      specifierOf (ofText "/p/a.ts") (ofText "/p/a.ts") = "./." ∧
      ¬ ((ofText ((pointed (ofText "/p/a.ts") (ofText "/p/a.ts")).text ++ "." ++ "ts")).steps =
          (ofText "/p/a.ts").steps ∨
        ((pointed (ofText "/p/a.ts") (ofText "/p/a.ts")).join ⟨false, ["index.ts"]⟩).steps =
          (ofText "/p/a.ts").steps) := by
  decide +kernel

end Barrel

end BarrelAlias
