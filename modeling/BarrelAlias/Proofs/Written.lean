import BarrelAlias.FileTree.Write
import BarrelAlias.Proofs.Probe

/-!
What a write leaves in place. A file is replaced by staging the new one next to it and moving that over
it. Folders stay folders, and a file stays as it is unless it stands where the new one is put or has the
name of a staged file.
-/

namespace BarrelAlias.FileTree

open BarrelAlias.Path (IsName)

variable {t t' : FileTree}

theorem node?_putFile (t : FileTree) {loc : Location} (hne : loc ≠ []) (c : Content)
    (l : Location) : (t.putFile loc c).node? l = if l = loc then some (.file c) else t.node? l := by
  unfold node? putFile
  rw [Table.find?_insert]
  by_cases hl : l = []
  · subst hl
    simp [Ne.symm hne]
  · simp [hl]

theorem node?_erase (t : FileTree) {loc : Location} (hne : loc ≠ []) (l : Location) :
    (t.erase loc).node? l = if l = loc then none else t.node? l := by
  unfold node? erase
  rw [Table.find?_erase]
  by_cases hl : l = []
  · subst hl
    simp [Ne.symm hne]
  · simp [hl]

/-- A place can be written where a name stands in a folder, and is no folder itself. -/
theorem writable?_eq_some {p : Path} {loc : Location} (h : t.writable? p = some loc) :
    ¬ t.hasFolder loc ∧ ∃ folder name, loc = folder ++ [name] ∧ t.hasFolder folder ∧
      p.parts.getLast? = some name ∧
      t.locate { p with parts := p.parts.dropLast } = .ok folder := by
  obtain ⟨htarget, hnot⟩ := Option.filter_eq_some_iff.mp h
  refine ⟨by simpa using hnot, ?_⟩
  unfold target? at htarget
  split at htarget
  · next name hname =>
    split at htarget
    · split at htarget
      · next folder hfolder =>
        split at htarget
        · next hf =>
          cases htarget
          exact ⟨folder, name, rfl, hf, hname, hfolder⟩
        · cases htarget
      · cases htarget
    · cases htarget
  · cases htarget

/-- The steps of a replacement that succeeds: a file is staged, found again and put into place. -/
theorem replaceFile_ok {p : Path} {s : String} (h : t.replaceFile p s = (.ok (), t')) :
    ∃ name stagedAt source target c, p.fileName? = some name ∧
      t.writable? (p.withFileName (stagedName name)) = some stagedAt ∧
      (t.putFile stagedAt (.text s)).locate (p.withFileName (stagedName name)) = .ok source ∧
      (t.putFile stagedAt (.text s)).node? source = some (.file c) ∧
      (t.putFile stagedAt (.text s)).writable? p = some target ∧
      t' = ((t.putFile stagedAt (.text s)).erase source).putFile target c := by
  unfold replaceFile at h
  split at h
  · cases h
  · next name hname =>
    simp only at h
    split at h
    · cases h
    · next t₁ hwrite =>
      obtain ⟨stagedAt, hstaged, rfl⟩ := Option.map_eq_some_iff.mp hwrite
      split at h
      · next t₂ hmove =>
        cases h
        unfold moveFile? at hmove
        split at hmove
        · next source target hsource htarget =>
          split at hmove
          · next c hc =>
            cases hmove
            exact ⟨name, stagedAt, source, target, c, hname, hstaged, hsource, hc, htarget, rfl⟩
          · cases hmove
        · cases hmove
      · cases h

/-- What a change keeps: the folders, and whatever stands at places that it does not touch. -/
structure KeepsBut (t t' : FileTree) (touched : Location → Prop) : Prop where
  folders : ∀ loc, t.hasFolder loc → t'.hasFolder loc
  others : ∀ loc, ¬ touched loc → t'.node? loc = t.node? loc

theorem KeepsBut.trans {t'' : FileTree} {touched touched' : Location → Prop}
    (h : t.KeepsBut t' touched) (h' : t'.KeepsBut t'' touched') :
    t.KeepsBut t'' fun loc => touched loc ∨ touched' loc where
  folders loc hloc := h'.folders loc (h.folders loc hloc)
  others loc hloc := by
    rw [not_or] at hloc
    rw [h'.others loc hloc.2, h.others loc hloc.1]

theorem KeepsBut.mono {touched touched' : Location → Prop} (h : t.KeepsBut t' touched)
    (hsub : ∀ loc, touched loc → touched' loc) : t.KeepsBut t' touched' where
  folders := h.folders
  others loc hloc := h.others loc fun htouched => hloc (hsub loc htouched)

theorem keepsBut_putFile {loc : Location} (hne : loc ≠ []) (hnot : ¬ t.hasFolder loc)
    (c : Content) : t.KeepsBut (t.putFile loc c) (· = loc) where
  folders l hl := by
    have hle : l ≠ loc := fun e => hnot (e ▸ hl)
    rw [hasFolder, node?_putFile t hne, if_neg hle]
    exact hl
  others l hl := by rw [node?_putFile t hne, if_neg hl]

theorem keepsBut_erase {loc : Location} {c : Content} (hne : loc ≠ [])
    (hfile : t.node? loc = some (.file c)) : t.KeepsBut (t.erase loc) (· = loc) where
  folders l hl := by
    have hle : l ≠ loc := by
      rintro rfl
      simp [hasFolder, hfile] at hl
    rw [hasFolder, node?_erase t hne, if_neg hle]
    exact hl
  others l hl := by rw [node?_erase t hne, if_neg hl]

theorem hasFolder_of_erase {loc l : Location} (hne : loc ≠ []) (h : (t.erase loc).hasFolder l) :
    t.hasFolder l := by
  rw [hasFolder, node?_erase t hne] at h
  split at h
  · simp at h
  · exact h

/-- A place that paths lead to stays one if something is left there. -/
theorem KeepsBut.placed {touched : Location → Prop} (h : t.KeepsBut t' touched) {loc : Location}
    (hp : t.Placed loc) (hn : (t'.node? loc).isSome) : t'.Placed loc := by
  induction hp with
  | top => exact .top
  | @inside loc name _ hf hne hdot hup _ ih =>
    have hf' := h.folders loc hf
    have hsome : t'.node? loc = some .folder := by simpa [hasFolder] using hf'
    exact (ih (by simp [hsome])).inside hf' hne hdot hup hn

theorem KeepsBut.isPlain {touched : Location → Prop} (h : t.KeepsBut t' touched) {loc : Location}
    (hg : t.IsPlain loc.path) (hnot : ¬ touched loc) : t'.IsPlain loc.path := by
  obtain ⟨loc', c, hp, hn, he⟩ := hg
  cases he
  have hn' := (h.others loc hnot).trans hn
  exact ⟨loc, c, h.placed hp (by simp [hn']), hn', rfl⟩

def IsStaged (loc : Location) : Prop := ∃ front name, loc = front ++ [name ++ ".tstf-tmp"]

theorem isName_staged (x : String) : IsName (x ++ ".tstf-tmp") := by
  have hlast : ∀ y : String, x ++ ".tstf-tmp" = y → y.toList.getLast? = some 'p' := by
    rintro y rfl
    simp
  refine ⟨?_, ?_, ?_⟩
  · intro h
    exact absurd (hlast _ h) (by decide)
  · intro h
    exact absurd (hlast _ h) (by decide)
  · intro h
    exact absurd (hlast _ h) (by decide)

/-- The path that the name of a staged text stands for ends as that name does. -/
theorem exists_ofText_staged (name : String) : ∃ front last,
    Path.ofText (stagedName name) = ⟨false, front ++ [last ++ ".tstf-tmp"]⟩ := by
  obtain ⟨front, last, hsplit⟩ := Text.exists_splitAt_append ("." ++ name)
    (show '/' ∉ ".tstf-tmp".toList by decide)
  refine ⟨front, last, ?_⟩
  rw [← hsplit]
  unfold Path.ofText
  have hdot : (stagedName name).toList = '.' :: (name ++ ".tstf-tmp").toList := by
    simp [stagedName]
  split
  · next e => simp [hdot] at e
  · next e => simp [hdot] at e
  · next e => simp [hdot] at e
  · rfl

/-- The path of the staged file. -/
theorem withFileName_staged {folder : List String} {name : String} (h : ∀ m ∈ folder, IsName m)
    (hn : IsName name) : ∃ front last,
      Path.withFileName ⟨true, folder ++ [name]⟩ (stagedName name) =
        ⟨true, front ++ [last ++ ".tstf-tmp"]⟩ := by
  obtain ⟨front, last, htext⟩ := exists_ofText_staged name
  refine ⟨folder ++ front, last, ?_⟩
  rw [Path.withFileName, Path.fileName?_concat true folder hn, Option.isSome_some, if_pos rfl,
    Path.parent?_concat h hn, Option.getD_some, htext, Path.join_names h (List.concat_ne_nil _ _),
    List.append_assoc]

/-- Replacing a file touches its place and one with the name of a staged file; its folder is there. -/
theorem replaceFile_keeps {folder : List String} {name s : String} (hf : ∀ m ∈ folder, IsName m)
    (hn : IsName name) (h : t.replaceFile ⟨true, folder ++ [name]⟩ s = (.ok (), t')) :
    t.KeepsBut t' (fun loc => loc = folder ++ [name] ∨ IsStaged loc) ∧ t'.hasFolder folder := by
  obtain ⟨name', stagedAt, source, target, c, hname, hstaged, hsource, hc, htarget, rfl⟩ :=
    replaceFile_ok h
  rw [Path.fileName?_concat true folder hn] at hname
  cases hname
  obtain ⟨front, last, hpath⟩ := withFileName_staged hf hn
  rw [hpath] at hstaged hsource
  obtain ⟨hstagedNot, folder₁, name₁, rfl, _, hlast₁, _⟩ := writable?_eq_some hstaged
  obtain ⟨htargetNot, folder₂, name₂, rfl, hin₂, hlast₂, hfolder₂⟩ := writable?_eq_some htarget
  have hname₁ : name₁ = last ++ ".tstf-tmp" := by simpa using hlast₁.symm
  have hname₂ : name₂ = name := by simpa using hlast₂.symm
  have hwhere : folder₂ = folder := by
    have hplace := (locate_ok hfolder₂).2
    rw [List.dropLast_concat, Path.steps_names hf, Location.ofSteps, List.foldl_cons,
      Location.foldl_move_names] at hplace
    exact hplace
  obtain ⟨folder₃, rfl⟩ : ∃ folder₃, source = folder₃ ++ [last ++ ".tstf-tmp"] := by
    have hplace := (locate_ok hsource).2
    rw [Path.steps_of_rooted rfl, Path.stepsOf_concat false front (isName_staged last),
      Location.ofSteps, List.foldl_cons, List.foldl_append] at hplace
    exact ⟨_, hplace⟩
  subst hname₁ hname₂ hwhere
  have hput := keepsBut_putFile (List.concat_ne_nil _ _) hstagedNot (.text s)
  have herase := keepsBut_erase (List.concat_ne_nil _ _) hc
  have hne := List.concat_ne_nil (last ++ ".tstf-tmp") folder₃
  have hplace := keepsBut_putFile (List.concat_ne_nil _ _)
    (fun hfolder => htargetNot (hasFolder_of_erase hne hfolder)) c
  refine ⟨((hput.trans herase).trans hplace).mono ?_, hplace.folders _ (herase.folders _ hin₂)⟩
  rintro loc ((rfl | rfl) | rfl)
  · exact Or.inr ⟨_, _, rfl⟩
  · exact Or.inr ⟨_, _, rfl⟩
  · exact Or.inl rfl

end BarrelAlias.FileTree
