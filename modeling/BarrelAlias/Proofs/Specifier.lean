import BarrelAlias.Barrel.Name
import BarrelAlias.FileTree.Walk
import BarrelAlias.Proofs.Probe

/-!
The specifier of a file in a barrel, and what it leads to. Where the names on the way to the file are
ordinary ones, the specifier takes the barrel's folder to the file without its extension, or to the
folder of an index file, and the file is one of the paths that are tried for it. The specifier leads to
the file exactly if the way is of that kind and no path that is tried before the file is a file.
-/

namespace BarrelAlias

open BarrelAlias.Path (IsName stepsOf)

/-- Steps by such names from a place lead to a beginning of it with such names added. -/
theorem Location.foldl_move_kept {Good : String → Prop} {loc : Location} {ss : List Step}
    (h : ∀ n, Step.name n ∈ ss → Good n) {kept ns : List String} (hkept : kept <+: loc)
    (hns : ∀ n ∈ ns, Good n) :
    ∃ kept' ns', kept' <+: loc ∧ ss.foldl move (kept ++ ns) = kept' ++ ns' ∧
      ∀ n ∈ ns', Good n := by
  induction ss generalizing kept ns with
  | nil => exact ⟨kept, ns, hkept, rfl, hns⟩
  | cons s ss ih =>
    have hss : ∀ n, Step.name n ∈ ss → Good n := fun n hn => h n (List.mem_cons_of_mem s hn)
    rw [List.foldl_cons]
    cases s with
    | root => exact ih hss hkept hns
    | here => exact ih hss hkept hns
    | name n =>
      rw [move, List.append_assoc]
      refine ih hss hkept ?_
      intro m hm
      rcases List.mem_append.mp hm with hm | hm
      · exact hns m hm
      · rw [List.mem_singleton.mp hm]
        exact h n (List.mem_cons_self ..)
    | up =>
      rw [move]
      by_cases hnil : ns = []
      · subst hnil
        rw [List.append_nil, ← List.append_nil kept.dropLast]
        exact ih hss ((List.dropLast_prefix kept).trans hkept) hns
      · rw [List.dropLast_append_of_ne_nil hnil]
        exact ih hss hkept fun m hm => hns m (List.dropLast_subset ns hm)

namespace Barrel

open Linkage

theorem withoutExtension_append (x : String) {ext : String} (h : ext ∈ Extension.barrel) :
    withoutExtension Extension.barrel (x ++ ("." ++ ext)) = x := by
  simp only [Extension.barrel, List.mem_cons, List.not_mem_nil, or_false] at h
  rcases h with rfl | rfl | rfl | rfl <;>
    simp [withoutExtension, Extension.barrel, Text.beforeTail?, List.isSuffixOf?,
      List.isPrefixOf?]

theorem exists_withoutExtension_append (exts : List String) (s : String) :
    ∃ rest, withoutExtension exts s ++ rest = s := by
  unfold withoutExtension
  cases hf : exts.findSome? fun ext => Text.beforeTail? ("." ++ ext) s with
  | none => exact ⟨"", by simp⟩
  | some x =>
    obtain ⟨ext, _, hx⟩ := List.exists_of_findSome?_eq_some hf
    exact ⟨"." ++ ext, Text.beforeTail?_eq_some.mp hx⟩

theorem probed_of_barrel {ext : String} (h : ext ∈ Extension.barrel) : ext ∈ Extension.probed := by
  simp only [Extension.barrel, List.mem_cons, List.not_mem_nil, or_false] at h
  rcases h with rfl | rfl | rfl | rfl <;> decide

theorem backslash_extension {x ext : String} (h : ext ∈ Extension.probed) :
    '\\' ∈ (x ++ ("." ++ ext)).toList ↔ '\\' ∈ x.toList := by
  have hext : '\\' ∉ ("." ++ ext).toList := by
    simp only [Extension.probed, List.mem_cons, List.not_mem_nil, or_false] at h
    rcases h with rfl | rfl | rfl | rfl | rfl | rfl | rfl | rfl <;> decide
  rw [String.toList_append, List.mem_append, or_iff_left hext]

/-- A way that does not go up is made to begin with a dot. -/
def dotted (way : String) : String :=
  if Text.beginsWith "../" way || Text.beginsWith "/" way then way else "./" ++ way

def withoutIndex (way : String) : String := (Text.beforeTail? "/index" way).getD way

theorem specifierOf_steps (folder g : Path) :
    specifierOf folder g = withoutIndex (dotted (withoutExtension Extension.barrel
      (Path.slashed ((g.relativeTo? folder).getD g)))) := rfl

/-- A specifier never holds a backslash. -/
theorem backslash_specifierOf (folder g : Path) : '\\' ∉ (specifierOf folder g).toList := by
  have hcut : ∀ {x rest s : String}, x ++ rest = s → '\\' ∉ s.toList → '\\' ∉ x.toList := by
    rintro x rest s rfl hs hx
    exact hs (by simp [hx])
  have hdotted : ∀ {s : String}, '\\' ∉ s.toList → '\\' ∉ (dotted s).toList := by
    intro s hs
    unfold dotted
    split
    · exact hs
    · simpa using hs
  rw [specifierOf_steps]
  obtain ⟨rest, hrest⟩ := exists_withoutExtension_append Extension.barrel
    (Path.slashed ((g.relativeTo? folder).getD g))
  have hno := hdotted (hcut hrest (Text.not_mem_replaceChar (by decide) _))
  generalize dotted _ = way at hno
  unfold withoutIndex
  cases ht : Text.beforeTail? "/index" way with
  | none => exact hno
  | some x => exact hcut (Text.beforeTail?_eq_some.mp ht) hno

/-- How a specifier begins that goes up from a folder by some names. -/
def lead (up : List String) : List String :=
  if up = [] then ["."] else List.replicate up.length ".."

theorem lead_ne_nil (up : List String) : lead up ≠ [] := by
  unfold lead
  split
  · simp
  · next h => simpa using h

/-- A way that goes up begins with two dots. -/
theorem dotted_up (u : String) (up : List String) (rest : String) :
    dotted ("/".intercalate (List.replicate (u :: up).length "..") ++ "/" ++ rest) =
      "/".intercalate (List.replicate (u :: up).length "..") ++ "/" ++ rest := by
  obtain ⟨more, hmore⟩ : ∃ more, "/".intercalate (List.replicate (u :: up).length "..") ++ "/" =
      "../" ++ more := by
    rw [List.length_cons, List.replicate_succ]
    by_cases hnil : List.replicate up.length ".." = []
    · exact ⟨"", by rw [hnil, String.intercalate_singleton]; rfl⟩
    · refine ⟨"/".intercalate (List.replicate up.length "..") ++ "/", ?_⟩
      rw [String.intercalate_cons_of_ne_nil hnil, String.append_assoc]
      rfl
  have hup : Text.beginsWith "../" ("../" ++ (more ++ rest)) = true := by
    rw [Text.beginsWith, List.isPrefixOf_iff_prefix]
    exact ⟨(more ++ rest).toList, by simp⟩
  rw [hmore, String.append_assoc, dotted, hup]
  rfl

/-- A way by names begins neither with two dots nor at the root. -/
theorem beginsWith_names_eq_false {x : String} (hx : x = ".." ∨ x = "") {down : List String}
    {n : String} (hdown : ∀ m ∈ down, IsName m ∧ '/' ∉ m.toList) (hslash : '/' ∉ n.toList) :
    Text.beginsWith (x ++ "/") ("/".intercalate (down ++ [n])) = false := by
  rw [Bool.eq_false_iff]
  intro h
  have hxs : '/' ∉ x.toList := by
    rcases hx with rfl | rfl <;> decide
  cases down with
  | nil =>
    rw [List.nil_append, String.intercalate_singleton, Text.beginsWith,
      List.isPrefixOf_iff_prefix] at h
    exact hslash (h.subset (by simp))
  | cons m down =>
    have hm := (hdown m (List.mem_cons_self ..)).1
    have hall : ∀ k ∈ m :: (down ++ [n]), '/' ∉ k.toList := by
      intro k hk
      rcases List.mem_append.mp (List.cons_append ▸ hk) with hk | hk
      · exact (hdown k hk).2
      · rw [List.mem_singleton.mp hk]
        exact hslash
    have hhead := Text.head_of_beginsWith hxs hall h
    rcases hx with rfl | rfl
    · exact hm.2.2 hhead
    · exact hm.1 hhead

/-- The way by names that goes up by `up` and then down. -/
theorem dotted_eq (up : List String) {down : List String} {n : String}
    (hdown : ∀ m ∈ down, IsName m ∧ '/' ∉ m.toList) (hslash : '/' ∉ n.toList) :
    dotted ("/".intercalate (List.replicate up.length ".." ++ (down ++ [n]))) =
      "/".intercalate (lead up ++ (down ++ [n])) := by
  cases up with
  | cons u up =>
    have hsplit : "/".intercalate (List.replicate (u :: up).length ".." ++ (down ++ [n])) =
        "/".intercalate (List.replicate (u :: up).length "..") ++ "/" ++
          "/".intercalate (down ++ [n]) :=
      String.intercalate_append_of_ne_nil (by simp) (by simp)
    rw [hsplit, dotted_up, ← hsplit, lead, if_neg (List.cons_ne_nil u up)]
  | nil =>
    have hup : Text.beginsWith "../" ("/".intercalate (down ++ [n])) = false :=
      beginsWith_names_eq_false (Or.inl rfl) hdown hslash
    have htop : Text.beginsWith "/" ("/".intercalate (down ++ [n])) = false :=
      beginsWith_names_eq_false (Or.inr rfl) hdown hslash
    have hne : down ++ [n] ≠ [] := by simp
    rw [List.length_nil, List.replicate_zero, List.nil_append, dotted, hup, htop, lead, if_pos rfl,
      List.singleton_append, String.intercalate_cons_of_ne_nil hne]
    rfl

/-- A way that a specifier can spell: no name in it holds a backslash, and what is left of the file name
without its extension is no step to the folder itself or the one above it. -/
structure Spellable (way : Path) : Prop where
  backslash : ∀ n ∈ way.parts, '\\' ∉ n.toList
  stem : ∀ n, way.fileName? = some n →
    (Path.stemAndExtension n).1 ≠ "." ∧ (Path.stemAndExtension n).1 ≠ ".."

section

variable {folder : Location} {g : Path} {common up front : List String} {stem ext : String}

/-- The way from a folder to a file: up to where they part, and down to the stem of the file. -/
structure Way (folder : Location) (g : Path) (common up front : List String) (stem ext : String) :
    Prop where
  file_eq : g = ⟨true, common ++ (front ++ [stem ++ ("." ++ ext)])⟩
  folder_eq : folder = common ++ up
  relative : g.relativeTo? folder.path =
    some ⟨false, List.replicate up.length ".." ++ (front ++ [stem ++ ("." ++ ext)])⟩
  ext_mem : ext ∈ Extension.barrel
  common_names : ∀ m ∈ common, IsName m ∧ '/' ∉ m.toList
  front_names : ∀ m ∈ front, IsName m ∧ '/' ∉ m.toList
  stem_eq : Path.stemAndExtension (stem ++ ("." ++ ext)) = (stem, some ext)
  stem_ne : stem ≠ ""
  stem_slash : '/' ∉ stem.toList

theorem exists_extension {n : String} (hn : g.fileName? = some n)
    (h : FileTree.hasExtension Extension.barrel g) :
    ∃ stem, ∃ ext ∈ Extension.barrel, Path.stemAndExtension n = (stem, some ext) ∧
      n = stem ++ ("." ++ ext) ∧ stem ≠ "" := by
  unfold FileTree.hasExtension Path.extension? at h
  rw [hn] at h
  rcases Path.stemAndExtension_cases n with e | ⟨stem, ext, e, hcut, hne⟩
  · simp [e] at h
  · exact ⟨stem, ext, by simpa [e] using h, e, hcut, hne⟩

/-- Between a folder and a file that does not stand above it there is such a way. -/
theorem exists_way_of_names {gs : List String} (hf : ∀ m ∈ folder, IsName m)
    (hg : ∀ m ∈ gs, IsName m ∧ '/' ∉ m.toList) (hnot : ¬ gs <+: folder)
    (hname : Path.fileName? ⟨true, gs⟩ = some (stem ++ ("." ++ ext)))
    (hext : ext ∈ Extension.barrel)
    (hstem : Path.stemAndExtension (stem ++ ("." ++ ext)) = (stem, some ext)) (hne : stem ≠ "") :
    ∃ common up front, Way folder ⟨true, gs⟩ common up front stem ext := by
  obtain ⟨common, up, down, rfl, rfl, hdown, hrel⟩ :=
    Path.relativeTo?_names (fun m hm => (hg m hm).1) hf hnot
  rcases List.eq_nil_or_concat down with rfl | ⟨front, n, rfl⟩
  · exact absurd rfl hdown
  rw [List.concat_eq_append] at *
  obtain rfl : n = stem ++ ("." ++ ext) := by
    rw [← List.append_assoc, Path.fileName?_concat true _ (hg n (by simp)).1] at hname
    exact Option.some.inj hname
  refine ⟨common, up, front, rfl, rfl, hrel, hext, ?_, ?_, hstem, hne, ?_⟩
  · intro m hm
    exact hg m (by simp [hm])
  · intro m hm
    exact hg m (by simp [hm])
  · intro hc
    exact (hg (stem ++ ("." ++ ext)) (by simp)).2 (by simp [hc])

theorem exists_way {t : FileTree} (hp : t.Placed folder) (hg : t.IsPlain g)
    (hne : g ≠ folder.path) (hslash : ∀ n ∈ g.parts, '/' ∉ n.toList)
    (hext : FileTree.hasExtension Extension.barrel g) :
    ∃ common up front stem ext, Way folder g common up front stem ext := by
  obtain ⟨loc, c, hpl, hnode, rfl⟩ := hg
  have hloc : loc ≠ folder := fun e => hne (e ▸ rfl)
  obtain ⟨n, hname⟩ : ∃ n, Path.fileName? loc.path = some n := by
    unfold FileTree.hasExtension Path.extension? at hext
    cases hn : Path.fileName? loc.path with
    | none => simp [hn] at hext
    | some n => exact ⟨n, rfl⟩
  obtain ⟨stem, ext, hbarrel, hstem, rfl, hstemne⟩ := exists_extension hname hext
  obtain ⟨common, up, front, hway⟩ := exists_way_of_names hp.isName
    (fun m hm => ⟨hpl.isName m hm, hslash m hm⟩) (hp.not_prefix hnode hloc) hname hbarrel hstem hstemne
  exact ⟨common, up, front, stem, ext, hway⟩

namespace Way

theorem ext_probed (h : Way folder g common up front stem ext) : ext ∈ Extension.probed :=
  probed_of_barrel h.ext_mem

/-- The extension of the file adds no backslash. -/
theorem backslash_iff (h : Way folder g common up front stem ext) :
    (∀ m ∈ front ++ [stem ++ ("." ++ ext)], '\\' ∉ m.toList) ↔
      ∀ m ∈ front ++ [stem], '\\' ∉ m.toList := by
  simp only [List.forall_mem_append, List.forall_mem_singleton, backslash_extension h.ext_probed]

theorem spellable_iff (h : Way folder g common up front stem ext) :
    Spellable ⟨false, List.replicate up.length ".." ++ (front ++ [stem ++ ("." ++ ext)])⟩ ↔
      (∀ m ∈ front ++ [stem], '\\' ∉ m.toList) ∧ stem ≠ "." ∧ stem ≠ ".." := by
  have hname : Path.fileName?
      ⟨false, List.replicate up.length ".." ++ (front ++ [stem ++ ("." ++ ext)])⟩ =
        some (stem ++ ("." ++ ext)) := by
    rw [← List.append_assoc]
    exact Path.fileName?_concat false _ (Path.isName_extension stem h.ext_probed)
  rw [← h.backslash_iff]
  constructor
  · rintro ⟨hback, hstem⟩
    refine ⟨fun m hm => hback m (List.mem_append_right _ hm), ?_⟩
    have := hstem _ hname
    rw [h.stem_eq] at this
    exact this
  · rintro ⟨hback, hstem⟩
    refine ⟨?_, ?_⟩
    · intro m hm
      rcases List.mem_append.mp hm with hm | hm
      · rw [List.eq_of_mem_replicate hm]
        decide
      · exact hback m hm
    · intro n hn
      rw [hname] at hn
      cases hn
      rw [h.stem_eq]
      exact hstem

/-- The specifier as it comes from the way with a slash for every backslash. -/
theorem specifierOf_slashed (h : Way folder g common up front stem ext) :
    specifierOf folder.path g = withoutIndex (dotted (Text.replaceChar '\\' '/'
      ("/".intercalate (List.replicate up.length ".." ++ (front ++ [stem]))))) := by
  have htext : Path.text
      ⟨false, List.replicate up.length ".." ++ (front ++ [stem ++ ("." ++ ext)])⟩ =
        "/".intercalate (List.replicate up.length ".." ++ (front ++ [stem])) ++ ("." ++ ext) := by
    rw [Path.text, ← List.append_assoc, ← List.append_assoc, ← Text.intercalate_concat_append]
    simp
  have hext : Text.replaceChar '\\' '/' ("." ++ ext) = "." ++ ext := by
    refine Text.replaceChar_of_not_mem ?_
    have := backslash_extension (x := "") h.ext_probed
    simpa using this
  rw [specifierOf_steps, h.relative, Option.getD_some, Path.slashed, htext, Text.replaceChar_append,
    hext, withoutExtension_append _ h.ext_mem]

/-- The specifier of a file whose way holds no backslash goes up, and down to its stem. -/
theorem specifierOf_eq (h : Way folder g common up front stem ext)
    (hback : ∀ m ∈ front ++ [stem], '\\' ∉ m.toList) :
    specifierOf folder.path g =
      "/".intercalate (lead up ++ (front ++ if stem = "index" then [] else [stem])) := by
  have hplain : '\\' ∉
      ("/".intercalate (List.replicate up.length ".." ++ (front ++ [stem]))).toList := by
    refine Text.not_mem_intercalate (by decide) ?_
    intro n hn
    rcases List.mem_append.mp hn with hn | hn
    · rw [List.eq_of_mem_replicate hn]
      decide
    · exact hback n hn
  have hlast : "/".intercalate (lead up ++ (front ++ [stem])) =
      "/".intercalate (lead up ++ front) ++ "/" ++ stem := by
    rw [← List.append_assoc, String.intercalate_append_of_ne_nil (by simp [lead_ne_nil]) (by simp),
      String.intercalate_singleton]
  rw [h.specifierOf_slashed, Text.replaceChar_of_not_mem hplain,
    dotted_eq up h.front_names h.stem_slash, withoutIndex, hlast, Text.beforeTail?_index h.stem_slash]
  split
  · simp
  · rw [Option.getD_none, hlast]

/-- A text that begins with whole pieces still does when an index at its end is left out. -/
theorem exists_splitAt_withoutIndex {above below : String} {ps : List String}
    (h : Text.splitAt '/' above = ps) :
    ∃ rest, Text.splitAt '/' (withoutIndex (above ++ "/" ++ below)) = ps ++ rest := by
  have hwhole := Text.splitAt_append above below
  rw [h] at hwhole
  rw [withoutIndex]
  cases ht : Text.beforeTail? "/index" (above ++ "/" ++ below) with
  | none => exact ⟨_, hwhole⟩
  | some x =>
    have hx : x ++ "/" ++ "index" = above ++ "/" ++ below := by
      rw [String.append_assoc]
      exact Text.beforeTail?_eq_some.mp ht
    have hindex : Text.splitAt '/' "index" = ["index"] := by decide
    have hne : Text.splitAt '/' below ≠ [] := by simp [Text.splitAt, List.splitOn_ne_nil]
    refine ⟨(Text.splitAt '/' below).dropLast, ?_⟩
    rw [Option.getD_some, ← List.dropLast_append_of_ne_nil hne, ← hwhole, ← hx,
      Text.splitAt_append, hindex, List.dropLast_concat]

/-- Whatever names are on the way, a specifier that goes up does so by whole pieces. -/
theorem exists_parts_up (h : Way folder g common up front stem ext) (hup : up ≠ []) :
    ∃ rest, Path.ofText (specifierOf folder.path g) =
      ⟨false, List.replicate up.length ".." ++ rest⟩ := by
  obtain ⟨u, us, rfl⟩ := List.exists_cons_of_ne_nil hup
  have hrep : List.replicate (u :: us).length ".." ≠ [] := by simp
  have hups : Text.replaceChar '\\' '/' ("/".intercalate (List.replicate (u :: us).length "..")) =
      "/".intercalate (List.replicate (u :: us).length "..") := by
    refine Text.replaceChar_of_not_mem (Text.not_mem_intercalate (by decide) ?_)
    intro n hn
    rw [List.eq_of_mem_replicate hn]
    decide
  have hpieces : Text.splitAt '/' ("/".intercalate (List.replicate (u :: us).length "..")) =
      List.replicate (u :: us).length ".." := by
    refine Text.splitAt_intercalate hrep ?_
    intro n hn
    rw [List.eq_of_mem_replicate hn]
    decide
  have hspec := h.specifierOf_slashed
  rw [String.intercalate_append_of_ne_nil hrep (by simp), Text.replaceChar_append,
    Text.replaceChar_append, hups, Text.replaceChar_of_not_mem (s := "/") (by decide),
    dotted_up] at hspec
  obtain ⟨rest, hrest⟩ := exists_splitAt_withoutIndex hpieces
  rw [← hspec] at hrest
  exact ⟨rest, Path.ofText_of_splitAt hrest (by decide)⟩

end Way

end

theorem stepsOf_ups (n : Nat) : stepsOf false (List.replicate n "..") = List.replicate n .up := by
  induction n with
  | zero => rfl
  | succ n ih =>
    rw [List.replicate_succ, List.replicate_succ, ← ih]
    rfl

theorem stepsOf_lead (up : List String) :
    stepsOf false (lead up) = List.replicate up.length .up := by
  unfold lead
  split
  · next h =>
    subst h
    rfl
  · exact stepsOf_ups up.length

section

variable {base output : Path} {folder : Location}

/-- The place that a relative path leads to as seen from a folder. -/
theorem clean_join (hr : base.rooted) (hbase : base.steps = .root :: folder.map .name)
    {rel : Path} (hrel : rel.rooted = false) :
    (base.join rel).clean =
      Location.path ((stepsOf false rel.parts).foldl Location.move folder) := by
  rw [Path.clean_of_rooted (Path.rooted_join hr), Path.steps_join hr hrel, hbase, Location.ofSteps,
    List.foldl_append, List.foldl_cons, Location.foldl_move_names]
  rfl

/-- The place that a specifier names as seen from a folder. -/
theorem clean_join_eq (hr : base.rooted) (hbase : base.steps = .root :: folder.map .name)
    (s : String) :
    (base.join (Path.ofText s)).clean =
      Location.path ((stepsOf false (Path.ofText s).parts).foldl Location.move
        (if (Path.ofText s).rooted then [] else folder)) := by
  cases hs : (Path.ofText s).rooted with
  | true =>
    rw [Path.clean_of_rooted (Path.rooted_join hr), Path.join, if_pos hs, Path.steps_of_rooted hs]
    rfl
  | false => exact clean_join hr hbase hs

theorem namedPath_eq (hr : output.rooted)
    (hout : (output.parent?.getD .top).steps = .root :: folder.map .name) (s : String) :
    namedPath output s = Location.path ((stepsOf false (Path.ofText s).parts).foldl Location.move
      (if (Path.ofText s).rooted then [] else folder)) :=
  clean_join_eq (Path.steps_parent hr).1 hout s

/-- A specifier of names that begins with a dot, and its path. -/
theorem isPlaced_of_head {n : String} {ns : List String} (hdot : n.toList.head? = some '.')
    (hslash : ∀ m ∈ n :: ns, '/' ∉ m.toList) :
    isPlaced ("/".intercalate (n :: ns)) ∧
      Path.ofText ("/".intercalate (n :: ns)) = ⟨false, n :: ns⟩ := by
  obtain ⟨cs, hcs⟩ : ∃ cs, n.toList = '.' :: cs := by
    cases hl : n.toList with
    | nil => simp [hl] at hdot
    | cons c cs =>
      rw [hl] at hdot
      cases hdot
      exact ⟨cs, rfl⟩
  obtain ⟨rest, hrest⟩ := Path.toList_intercalate_cons n ns
  refine ⟨?_, Path.ofText_relative ?_ hslash⟩
  · simp [isPlaced, Text.beginsWith, hrest, hcs]
  · rintro rfl
    cases hdot

/-- A specifier that goes up from the folder and on by some pieces. -/
theorem clean_join_lead {common up tail : List String} (hr : base.rooted)
    (hbase : base.steps = .root :: (common ++ up).map .name) (htail : ∀ n ∈ tail, '/' ∉ n.toList) :
    isPlaced ("/".intercalate (lead up ++ tail)) ∧
      (base.join (Path.ofText ("/".intercalate (lead up ++ tail)))).clean =
        Location.path ((stepsOf false tail).foldl Location.move common) := by
  have hlead : ∀ n ∈ lead up, '/' ∉ n.toList ∧ n.toList.head? = some '.' := by
    intro n hn
    unfold lead at hn
    split at hn
    · rw [List.mem_singleton.mp hn]
      decide
    · rw [List.eq_of_mem_replicate hn]
      decide
  obtain ⟨n, ns, hns⟩ := List.exists_cons_of_ne_nil (lead_ne_nil up)
  have hslash : ∀ m ∈ n :: (ns ++ tail), '/' ∉ m.toList := by
    intro m hm
    rw [← List.cons_append, ← hns] at hm
    rcases List.mem_append.mp hm with hm | hm
    · exact (hlead m hm).1
    · exact htail m hm
  obtain ⟨hplaced, htext⟩ := isPlaced_of_head (hlead n (by simp [hns])).2 hslash
  rw [← List.cons_append, ← hns] at hplaced htext
  refine ⟨hplaced, ?_⟩
  rw [clean_join_eq hr hbase, htext, Path.stepsOf_append, stepsOf_lead, List.foldl_append,
    if_neg (by simp), Location.foldl_move_up]

end

section

variable {folder : Location} {g : Path} {common up front : List String} {stem ext : String}

/-- The names of the file without its extension, or of the folder of an index file. -/
theorem Way.target_names (h : Way folder g common up front stem ext) (hdots : stem ≠ "." ∧ stem ≠ "..") :
    ∀ m ∈ common ++ (front ++ if stem = "index" then [] else [stem]), IsName m ∧ '/' ∉ m.toList := by
  simp only [List.forall_mem_append]
  refine ⟨h.common_names, h.front_names, fun m hm => ?_⟩
  split at hm
  · cases hm
  · rw [List.mem_singleton.mp hm]
    exact ⟨⟨h.stem_ne, hdots⟩, h.stem_slash⟩

/-- The specifier at the end of a way that can be spelled takes the folder to the file without its
extension, or to the folder of an index file. -/
theorem Way.clean_join (h : Way folder g common up front stem ext) {base : Path} (hr : base.rooted)
    (hbase : base.steps = .root :: folder.map .name) (hback : ∀ m ∈ front ++ [stem], '\\' ∉ m.toList)
    (hdots : stem ≠ "." ∧ stem ≠ "..") :
    isPlaced (specifierOf folder.path g) ∧
      (base.join (Path.ofText (specifierOf folder.path g))).clean =
        ⟨true, common ++ (front ++ if stem = "index" then [] else [stem])⟩ := by
  have htail := fun m hm => h.target_names hdots m (List.mem_append_right common hm)
  rw [h.folder_eq] at hbase
  obtain ⟨hplaced, hclean⟩ := clean_join_lead hr hbase fun m hm => (htail m hm).2
  rw [h.specifierOf_eq hback]
  refine ⟨hplaced, ?_⟩
  rw [hclean, Path.stepsOf_names fun m hm => (htail m hm).1, Location.foldl_move_names]
  rfl

/-- The file at the end of a way that can be spelled is tried for its specifier. -/
theorem Way.mem_probes (h : Way folder g common up front stem ext) {base : Path} (hr : base.rooted)
    (hbase : base.steps = .root :: folder.map .name) (hback : ∀ m ∈ front ++ [stem], '\\' ∉ m.toList)
    (hdots : stem ≠ "." ∧ stem ≠ "..") :
    g ∈ probes (base.join (Path.ofText (specifierOf folder.path g))).clean := by
  have hnames := h.target_names hdots
  rw [(h.clean_join hr hbase hback hdots).2, h.file_eq, ← List.append_assoc, ← List.append_assoc]
  rw [← List.append_assoc] at hnames
  by_cases hidx : stem = "index"
  · rw [if_pos hidx, List.append_nil] at hnames ⊢
    rw [hidx]
    exact mem_probes_index (fun m hm => (hnames m hm).1) h.ext_probed
  · rw [if_neg hidx] at hnames ⊢
    exact mem_probes_extension hnames h.ext_probed

/-- Whatever names are on the way, the specifier names a path that keeps a beginning of where the way
parts from the folder, and goes on by names without a backslash. -/
theorem Way.exists_named (h : Way folder g common up front stem ext) {output : Path}
    (hr : output.rooted) (hout : (output.parent?.getD .top).steps = .root :: folder.map .name) :
    ∃ kept ns, kept <+: common ∧
      namedPath output (specifierOf folder.path g) = Location.path (kept ++ ns) ∧
      ∀ n ∈ ns, (IsName n ∧ '/' ∉ n.toList) ∧ '\\' ∉ n.toList := by
  rw [namedPath_eq hr hout]
  have hgood : ∀ n ∈ (Path.ofText (specifierOf folder.path g)).parts, IsName n →
      (IsName n ∧ '/' ∉ n.toList) ∧ '\\' ∉ n.toList := by
    intro n hn hname
    obtain ⟨hslash, hsub⟩ := Path.mem_parts_ofText hn
    exact ⟨⟨hname, hslash⟩, fun hb => backslash_specifierOf folder.path g (hsub _ hb)⟩
  by_cases hup : up = []
  · have hfolder : folder = common := by rw [h.folder_eq, hup, List.append_nil]
    have hsteps : ∀ n, Step.name n ∈ stepsOf false (Path.ofText (specifierOf folder.path g)).parts →
        (IsName n ∧ '/' ∉ n.toList) ∧ '\\' ∉ n.toList := by
      intro n hn
      obtain ⟨hmem, hname⟩ := Path.isName_of_mem_stepsOf hn
      exact hgood n hmem hname
    have hstart : (if (Path.ofText (specifierOf folder.path g)).rooted then [] else folder) <+:
        common := by
      split
      · exact List.nil_prefix
      · exact hfolder ▸ List.prefix_refl folder
    obtain ⟨kept, ns, hkept, hfold, hns⟩ :=
      Location.foldl_move_kept hsteps hstart fun n hn => absurd hn List.not_mem_nil
    rw [List.append_nil] at hfold
    exact ⟨kept, ns, hkept, congrArg Location.path hfold, hns⟩
  · obtain ⟨rest, hrest⟩ := h.exists_parts_up hup
    have hups := stepsOf_lead up
    rw [lead, if_neg hup] at hups
    rw [hrest] at hgood ⊢
    have hsteps : ∀ n, Step.name n ∈ stepsOf false rest →
        (IsName n ∧ '/' ∉ n.toList) ∧ '\\' ∉ n.toList := by
      intro n hn
      obtain ⟨hmem, hname⟩ := Path.isName_of_mem_stepsOf hn
      exact hgood n (List.mem_append_right _ hmem) hname
    obtain ⟨kept, ns, hkept, hfold, hns⟩ :=
      Location.foldl_move_kept hsteps (List.prefix_refl common) fun n hn => absurd hn List.not_mem_nil
    rw [List.append_nil] at hfold
    refine ⟨kept, ns, hkept, ?_, hns⟩
    rw [Path.stepsOf_append, hups, List.foldl_append, if_neg (by simp), h.folder_eq,
      Location.foldl_move_up, hfold]

/-- A path is tried for one that goes on from where the way parts only by names that have a backslash
where the path has one. -/
theorem backslash_of_probed {kept common ns front : List String} {n : String}
    (h : Probed (kept ++ ns) (common ++ (front ++ [n]))) (hkept : kept <+: common)
    (hns : ∀ m ∈ ns, '\\' ∉ m.toList) : ∀ m ∈ front ++ [n], '\\' ∉ m.toList := by
  obtain ⟨more, rfl⟩ := hkept
  have hbelow : ∀ {down : List String}, kept ++ ns = kept ++ more ++ down →
      ∀ m ∈ down, '\\' ∉ m.toList := by
    intro down he m hm
    rw [List.append_assoc] at he
    exact hns m (List.append_cancel_left he ▸ List.mem_append_right more hm)
  have hlast : (∀ m ∈ front, '\\' ∉ m.toList) → '\\' ∉ n.toList →
      ∀ m ∈ front ++ [n], '\\' ∉ m.toList := by
    intro hf hn m hm
    rcases List.mem_append.mp hm with hm | hm
    · exact hf m hm
    · rw [List.mem_singleton.mp hm]
      exact hn
  generalize hps : kept ++ ns = ps at h hbelow
  generalize hqs : kept ++ more ++ (front ++ [n]) = qs at h
  rw [← List.append_assoc] at hqs
  cases h with
  | itself => exact hbelow (by rw [← hqs, List.append_assoc])
  | extended fr m hext =>
    obtain ⟨rfl, hn⟩ := List.append_inj' hqs rfl
    have hm := hbelow (List.append_assoc (kept ++ more) front [m])
    refine hlast (fun k hk => hm k (List.mem_append_left _ hk)) ?_
    rw [List.singleton_inj.mp hn, backslash_extension hext]
    exact hm m (by simp)
  | source fr m hext =>
    obtain ⟨rfl, hn⟩ := List.append_inj' hqs rfl
    have hm := hbelow (List.append_assoc (kept ++ more) front [m])
    refine hlast (fun k hk => hm k (List.mem_append_left _ hk)) ?_
    rw [List.singleton_inj.mp hn, backslash_extension hext]
    exact fun hc => hm m (by simp) (Path.mem_of_mem_stem hc)
  | index _ hext =>
    obtain ⟨rfl, hn⟩ := List.append_inj' hqs rfl
    refine hlast (hbelow rfl) ?_
    rw [List.singleton_inj.mp hn, backslash_extension hext]
    decide
  | @top ext hext =>
    have hqs : kept ++ more ++ front ++ [n] = [] ++ ["" ++ ("." ++ ext)] := hqs
    obtain ⟨hnil, hn⟩ := List.append_inj' hqs rfl
    rw [(List.append_eq_nil_iff.mp hnil).2] at hlast ⊢
    refine hlast (fun m hm => absurd hm List.not_mem_nil) ?_
    rw [List.singleton_inj.mp hn, backslash_extension hext]
    decide

theorem stem_of_probed {ext : String} (h : ext ∈ Extension.probed) :
    Path.stemAndExtension ("index" ++ ("." ++ ext)) = ("index", some ext) ∧
      (Path.stemAndExtension ("" ++ ("." ++ ext))).2 = none := by
  simp only [Extension.probed, List.mem_cons, List.not_mem_nil, or_false] at h
  rcases h with rfl | rfl | rfl | rfl | rfl | rfl | rfl | rfl <;> decide

/-- A stem of dots is taken for a step, and leaves a path that is too short. -/
theorem Way.not_mem_probes_of_dots (h : Way folder g common up front stem ext) {output : Path}
    (hr : output.rooted) (hout : (output.parent?.getD .top).steps = .root :: folder.map .name)
    (hback : ∀ m ∈ front ++ [stem], '\\' ∉ m.toList) (hdots : stem = "." ∨ stem = "..") :
    g ∉ probes (namedPath output (specifierOf folder.path g)) := by
  intro hmem
  have hidx : stem ≠ "index" := by rcases hdots with rfl | rfl <;> decide
  have htail : ∀ m ∈ front ++ [stem], '/' ∉ m.toList := by
    intro m hm
    rcases List.mem_append.mp hm with hm | hm
    · exact (h.front_names m hm).2
    · rw [List.mem_singleton.mp hm]
      exact h.stem_slash
  have hplace : ∃ place, (stepsOf false (front ++ [stem])).foldl Location.move common = place ∧
      place <+: common ++ front := by
    rw [Path.stepsOf_append, Path.stepsOf_names fun m hm => (h.front_names m hm).1,
      List.foldl_append, Location.foldl_move_names]
    rcases hdots with rfl | rfl
    · exact ⟨common ++ front, rfl, List.prefix_refl _⟩
    · exact ⟨(common ++ front).dropLast, rfl, List.dropLast_prefix _⟩
  obtain ⟨place, hfold, hbegin⟩ := hplace
  have hnames : ∀ m ∈ place, IsName m ∧ '/' ∉ m.toList := by
    intro m hm
    rcases List.mem_append.mp (hbegin.subset hm) with hm | hm
    · exact h.common_names m hm
    · exact h.front_names m hm
  rw [h.folder_eq] at hout
  rw [h.specifierOf_eq hback, if_neg hidx, namedPath,
    (clean_join_lead (Path.steps_parent hr).1 hout htail).2, hfold] at hmem
  obtain ⟨ns, hg, hprobed⟩ := probed_of_mem hnames hmem
  rw [h.file_eq] at hg
  cases hg
  rw [← List.append_assoc] at hprobed
  obtain ⟨_, ext', hext', hn⟩ := hprobed.of_length_le hbegin.length_le
  have hstem := h.stem_eq
  obtain ⟨hindex, htop⟩ := stem_of_probed hext'
  rcases hn with hn | hn
  · rw [hn, hindex] at hstem
    exact hidx (congrArg Prod.fst hstem).symm
  · rw [hn] at hstem
    rw [hstem] at htop
    cases htop

theorem Way.names_of_kept (h : Way folder g common up front stem ext) {kept ns : List String}
    (hkept : kept <+: common)
    (hns : ∀ n ∈ ns, (IsName n ∧ '/' ∉ n.toList) ∧ '\\' ∉ n.toList) :
    ∀ m ∈ kept ++ ns, IsName m ∧ '/' ∉ m.toList := by
  intro m hm
  rcases List.mem_append.mp hm with hm | hm
  · exact h.common_names m (hkept.subset hm)
  · exact (hns m hm).1

/-- A file is tried for its specifier only if the way to it can be spelled. -/
theorem Way.spellable_of_mem_probes (h : Way folder g common up front stem ext) {output : Path}
    (hr : output.rooted) (hout : (output.parent?.getD .top).steps = .root :: folder.map .name)
    (hmem : g ∈ probes (namedPath output (specifierOf folder.path g))) :
    (∀ m ∈ front ++ [stem], '\\' ∉ m.toList) ∧ stem ≠ "." ∧ stem ≠ ".." := by
  obtain ⟨kept, ns, hkept, hnamed, hns⟩ := h.exists_named hr hout
  have hmem' := hmem
  rw [hnamed] at hmem'
  obtain ⟨qs, hqs, hprobed⟩ := probed_of_mem (h.names_of_kept hkept hns) hmem'
  rw [h.file_eq] at hqs
  cases hqs
  have hback := h.backslash_iff.mp (backslash_of_probed hprobed hkept fun m hm => (hns m hm).2)
  refine ⟨hback, ?_, ?_⟩
  · intro hdot
    exact h.not_mem_probes_of_dots hr hout hback (Or.inl hdot) hmem
  · intro hdots
    exact h.not_mem_probes_of_dots hr hout hback (Or.inr hdots) hmem

theorem Way.resolve?_iff (h : Way folder g common up front stem ext) {t : FileTree}
    (hg : t.IsPlain g) {output : Path} (hr : output.rooted)
    (hout : (output.parent?.getD .top).steps = .root :: folder.map .name) :
    resolve? t output (specifierOf folder.path g) = some g ↔
      Spellable ⟨false, List.replicate up.length ".." ++ (front ++ [stem ++ ("." ++ ext)])⟩ ∧
      ∀ q ∈ (probes (namedPath output (specifierOf folder.path g))).takeWhile (· ≠ g),
        ¬ t.isFile q := by
  obtain ⟨kept, ns, hkept, hnamed, hns⟩ := h.exists_named hr hout
  have hnamed : namedPath output (specifierOf folder.path g) = ⟨true, kept ++ ns⟩ := hnamed
  have hfound := fileFor?_eq_iff (h.names_of_kept hkept hns) hg
  rw [← hnamed] at hfound
  rw [h.spellable_iff]
  constructor
  · intro hres
    rw [resolve?] at hres
    split at hres
    · obtain ⟨hmem, hbefore⟩ := hfound.mp hres
      exact ⟨h.spellable_of_mem_probes hr hout hmem, hbefore⟩
    · cases hres
  · rintro ⟨⟨hback, hdots⟩, hbefore⟩
    have hparent := (Path.steps_parent hr).1
    rw [resolve?, if_pos (h.clean_join hparent hout hback hdots).1]
    exact hfound.mpr ⟨h.mem_probes hparent hout hback hdots, hbefore⟩

end

/-- The specifier of a file leads to it exactly if the way to the file can be spelled and no path that
is tried before it is a file. -/
theorem resolve?_specifierOf_iff {t : FileTree} {folder : Location} (hp : t.Placed folder)
    {output : Path} (hr : output.rooted)
    (hout : (output.parent?.getD .top).steps = .root :: folder.map .name) {g : Path}
    (hg : t.IsPlain g) (hslash : ∀ n ∈ g.parts, '/' ∉ n.toList)
    (hext : FileTree.hasExtension Extension.barrel g) :
    ∃ way, g.relativeTo? folder.path = some way ∧
      (resolve? t output (specifierOf folder.path g) = some g ↔ Spellable way ∧
        ∀ q ∈ (probes (namedPath output (specifierOf folder.path g))).takeWhile (· ≠ g),
          ¬ t.isFile q) := by
  by_cases hself : g = folder.path
  · -- what should be the barrel's folder is the file itself, and its specifier stays there
    have hrel : g.relativeTo? folder.path = some ⟨false, ["."]⟩ := by
      rw [hself]
      exact Path.relativeTo?_self _
    have hspec : specifierOf folder.path g = "./." := by
      rw [specifierOf_steps, hrel, Option.getD_some]
      decide
    have hnamed : namedPath output "./." = ⟨true, folder⟩ := by
      rw [namedPath_eq hr hout]
      rfl
    have hnames : ∀ m ∈ folder, IsName m ∧ '/' ∉ m.toList := by
      intro m hm
      exact ⟨hp.isName m hm, hslash m (hself ▸ hm)⟩
    have hspell : Spellable ⟨false, ["."]⟩ :=
      ⟨by simp, fun n hn => by cases hn⟩
    refine ⟨_, hrel, ?_⟩
    rw [hspec, resolve?, if_pos (by decide), hnamed, fileFor?_eq_iff hnames hg, hself]
    exact and_congr_left fun _ => iff_of_true (List.mem_cons_self ..) hspell
  · obtain ⟨common, up, front, stem, ext, hway⟩ := exists_way hp hg hself hslash hext
    exact ⟨_, hway.relative, hway.resolve?_iff hg hr hout⟩

end Barrel

end BarrelAlias
