import BarrelAlias.Proofs.Parts

/-!
Collecting the exports of a module is meeting its parts. The walk into other files is a parameter
here, of which only is asked that it keeps what is known: so the one description of a run through
the parts of a module serves every later argument about the walk.
-/

namespace BarrelAlias.Linkage

open Script (Imported)
open Loader

namespace Low

@[simp] theorem min_none_left (a : Low) : min none a = a := by
  cases a <;> rfl

@[simp] theorem min_none_right (a : Low) : min a none = a := by
  cases a <;> rfl

def lowest (low : Low) (as : List (Found KeyMap)) : Low := as.foldl (fun low a => low.min a.low) low

theorem lowest_append (low : Low) (as bs : List (Found KeyMap)) :
    lowest low (as ++ bs) = lowest (lowest low as) bs := List.foldl_append

end Low

/-- The load meets the part that points to `g`: it fails where the part fails, and else its value
is settled by the answer, and its cut is the higher of `low` and that of the answer. -/
def Meets {α : Type} (t : FileTree) (S : List (List Step)) (enter : Enter) (l : Loader)
    (g : Option Path) (x : Load (Found α)) (low : Low) (P : DeclTable → KeyMap → α → Prop) : Prop :=
  ∃ r l', Met t S enter l g r l' ∧
    match r with
    | .error e => x.exec l = (.error e, l')
    | .ok a => ∃ v, x.exec l = (.ok ⟨v, low.min a.low⟩, l') ∧ P l'.decls a.value v

section

variable {t : FileTree} {S : List (List Step)} {enter : Enter} {l : Loader} {file : Path}

/-- Entering a file meets the part that points to it. -/
theorem meets_enter (hk : Keeps t S enter) {l₁ : Loader} (hq : l.Quiet l₁) (hs : l₁.Sound t S)
    (g : Path) :
    (∃ found km l₂, (enter g).exec l₁ = (.ok found, l₂) ∧ Shows l₂.decls found.value km ∧
        Met t S enter l (some g) (.ok ⟨km, found.low⟩) l₂) ∨
      ∃ e l₂, (enter g).exec l₁ = (.error e, l₂) ∧ Met t S enter l (some g) (.error e) l₂ := by
  rcases hx : (enter g).exec l₁ with ⟨r, l₂⟩
  obtain ⟨hs₂, hg, hsh⟩ := hk g l₁ r l₂ hs hx
  cases r with
  | error e => exact Or.inr ⟨e, l₂, rfl, .failed hq hs hx hg hs₂⟩
  | ok found =>
    obtain ⟨km, hkm⟩ := hsh found rfl
    exact Or.inl ⟨found, km, l₂, rfl, hkm, .entered hq hs hx hg hs₂ hkm⟩

theorem meets_importedDecls (hk : Keeps t S enter) (hs : l.Sound t S) (hr : file.rooted)
    (source : String) (imported : Imported) :
    Meets t S enter l (importedSource t S file source imported).target?
      (importedDecls t enter file source imported) none fun d km ids =>
        List.Forall₂ d.Names ids ((importedSource t S file source imported).keys km) := by
  obtain ⟨l₁, hf, hq₁, hs₁⟩ := exec_follow hs hr source
  unfold importedDecls importedSource
  cases hres : resolve? t file source with
  | none =>
    obtain ⟨id, l₂, hi, hq₂, hs₂, hn⟩ :=
      exec_intern hs₁ ⟨.package source, importedName imported, .value⟩
    refine ⟨_, l₂, .known (hq₁.trans hq₂) hs₂, [id], ?_, .cons hn .nil⟩
    rw [Load.exec_bind_of_ok hf, hres]
    exact Load.exec_bind_of_ok hi
  | some target =>
    have hsealed := hs₁.isSealed_eq target
    by_cases hc : imported = .all ∨ S.contains target.steps
    · obtain ⟨id, l₂, hi, hq₂, hs₂, hn⟩ :=
        exec_intern hs₁ ⟨.file target, importedName imported, .value⟩
      change (internIn target (importedName imported) .value).exec l₁ = _ at hi
      simp only [hc, ↓reduceIte]
      refine ⟨_, l₂, .known (hq₁.trans hq₂) hs₂, [id], ?_, .cons hn .nil⟩
      rw [Load.exec_bind_of_ok hf, hres]
      simp only [Load.exec_bind_of_ok (Load.exec_get l₁), hsealed, Bool.or_eq_true,
        decide_eq_true_eq, hc, ↓reduceIte]
      exact Load.exec_bind_of_ok hi
    · have hx : ∀ f : Found ExportMap → Load (Found (List DeclId)),
          Load.exec (do
            let l ← get
            if decide (imported = .all) || l.isSealed target then
              return ⟨[← internIn target (importedName imported) .value], none⟩
            else enter target >>= f) l₁ = Load.exec (enter target >>= f) l₁ := by
        intro f
        simp only [Load.exec_bind_of_ok (Load.exec_get l₁), hsealed, Bool.or_eq_true,
          decide_eq_true_eq, hc, ↓reduceIte]
      simp only [hc, ↓reduceIte]
      rcases meets_enter hk hq₁ hs₁ target with ⟨found, km, l₂, he, hkm, hm⟩ | ⟨e, l₂, he, hm⟩
      · refine ⟨_, l₂, hm, (found.value.find? (importedName imported)).getD [], ?_, hkm.getD _⟩
        rw [Load.exec_bind_of_ok hf, hres]
        refine (hx _).trans ?_
        rw [Load.exec_bind_of_ok he, Low.min_none_left]
        rfl
      · refine ⟨_, l₂, hm, ?_⟩
        change Load.exec _ l = _
        rw [Load.exec_bind_of_ok hf, hres]
        refine (hx _).trans ?_
        rw [Load.exec_bind, he]

theorem meets_namedDecls (hk : Keeps t S enter) (hs : l.Sound t S) (hr : file.rooted)
    (s : Summary) (name : String) :
    Meets t S enter l (namedSource t S file s name).target? (namedDecls t enter file s name) none
      fun d km ids => List.Forall₂ d.Names ids ((namedSource t S file s name).keys km) := by
  unfold namedDecls namedSource
  cases hi : s.imports.find? name with
  | some b => exact meets_importedDecls hk hs hr b.source b.imported
  | none =>
    obtain ⟨ids, l₁, hx, hq, hs₁, hn⟩ := exec_mapM_internIn hs file name (spacesOf s name)
    exact ⟨_, l₁, .known hq hs₁, ids, Load.exec_bind_of_ok hx, hn⟩

/-- What is done with the declarations of an export once they are there. -/
theorem Meets.addEntry {g : Option Path} {x : Load (Found (List DeclId))} {source : Source}
    (h : Meets t S enter l g x none fun d km ids => List.Forall₂ d.Names ids (source.keys km))
    {acc : Found ExportMap} {km : KeyMap} (hacc : Shows l.decls acc.value km) (exported : String)
    (kept : Bool) :
    Meets t S enter l g
      (x >>= fun ids => pure
        ⟨if ids.value.isEmpty && !kept then acc.value else addUnder acc.value exported ids.value,
          acc.low.min ids.low⟩)
      acc.low fun d km' m => Shows d m ((Part.entry exported source kept).add km km') := by
  obtain ⟨r, l', hm, hx⟩ := h
  refine ⟨r, l', hm, ?_⟩
  cases r with
  | error e =>
    change Load.exec _ l = _ at hx ⊢
    rw [Load.exec_bind, hx]
  | ok a =>
    obtain ⟨ids, hx, hids⟩ := hx
    refine ⟨_, Load.exec_bind_of_ok hx, ?_⟩
    have hacc' := hacc.mono hm.grows.decls
    have hempty : ids.isEmpty = (source.keys a.value).isEmpty := by
      rw [Bool.eq_iff_iff, List.isEmpty_iff_length_eq_zero, List.isEmpty_iff_length_eq_zero,
        hids.length_eq]
    simp only [Part.add, hempty]
    split
    · exact hacc'
    · exact hacc'.addUnder (oneToOne_names hm.sound.distinct) exported hids

/-- An explicit export meets its part. -/
theorem meets_addEntry (hk : Keeps t S enter) (hs : l.Sound t S) (hr : file.rooted) (s : Summary)
    {acc : Found ExportMap} {km : KeyMap} (hacc : Shows l.decls acc.value km) {e : ExportEntry}
    {p : Part} (hp : entryPart? t S file s e = some p) :
    Meets t S enter l p.target? (addEntry t enter file s acc e) acc.low fun d km' m =>
      Shows d m (p.add km km') := by
  cases e with
  | named exported name =>
    cases hp
    have h := (meets_namedDecls hk hs hr s name).addEntry hacc exported true
    simp only [Bool.not_true, Bool.and_false, Bool.false_eq_true, ↓reduceIte] at h
    exact h
  | default name =>
    cases name with
    | some name =>
      cases hp
      have h := (meets_namedDecls hk hs hr s name).addEntry hacc "default" true
      simp only [Bool.not_true, Bool.and_false, Bool.false_eq_true, ↓reduceIte] at h
      exact h
    | none =>
      cases hp
      obtain ⟨id, l₁, hi, hq, hs₁, hn⟩ := exec_intern hs ⟨.file file, "default", .value⟩
      change (internIn file "default" .value).exec l = _ at hi
      refine ⟨_, l₁, .known hq hs₁, addUnder acc.value "default" [id], ?_, ?_⟩
      · rw [Low.min_none_right]
        exact Load.exec_bind_of_ok hi
      · exact (hacc.mono hq.decls).addUnder (oneToOne_names hs₁.distinct) "default" (.cons hn .nil)
  | reexport exported source imported =>
    cases hp
    have h := (meets_importedDecls hk hs hr source imported).addEntry hacc exported false
    simp only [Bool.not_false, Bool.and_true] at h
    exact h
  | star source => cases hp

/-- Passing on another file meets its part, if there is one. -/
theorem meets_followStar (hk : Keeps t S enter) (hs : l.Sound t S) (hr : file.rooted)
    {acc : Found ExportMap} {km : KeyMap} (hacc : Shows l.decls acc.value km) {source : String}
    {p : Part} (hp : starPart? t S file source = some p) :
    Meets t S enter l p.target? (followStar t enter file acc source) acc.low fun d km' m =>
      Shows d m (p.add km km') := by
  obtain ⟨l₁, hf, hq₁, hs₁⟩ := exec_follow hs hr source
  obtain ⟨target, rfl, hres, hopen⟩ := exists_all_of_starPart? hp
  have hsealed : l₁.isSealed target = false := by
    rw [hs₁.isSealed_eq]
    exact Bool.eq_false_iff.mpr (mt List.contains_iff_mem.mp hopen)
  have hx : (followStar t enter file acc source).exec l =
      Load.exec (enter target >>= fun found =>
        pure ⟨addStar acc.value found.value, acc.low.min found.low⟩) l₁ := by
    rw [followStar, Load.exec_bind_of_ok hf, hres]
    simp only [Load.exec_bind_of_ok (Load.exec_get l₁), hsealed, Bool.false_eq_true, ↓reduceIte]
  rcases meets_enter hk hq₁ hs₁ target with ⟨found, km', l₂, he, hkm, hm⟩ | ⟨e, l₂, he, hm⟩
  · refine ⟨_, l₂, hm, _, hx.trans (Load.exec_bind_of_ok he), ?_⟩
    exact (hacc.mono hm.grows.decls).addStar hkm
  · refine ⟨_, l₂, hm, hx.trans ?_⟩
    rw [Load.exec_bind, he]

/-- A specifier that leads to no file, or to a sealed one, is passed over. -/
theorem exec_followStar_none (hs : l.Sound t S) (hr : file.rooted) (acc : Found ExportMap)
    {source : String} (hp : starPart? t S file source = none) :
    ∃ l', (followStar t enter file acc source).exec l = (.ok acc, l') ∧ l.Quiet l' ∧
      l'.Sound t S := by
  obtain ⟨l₁, hf, hq₁, hs₁⟩ := exec_follow hs hr source
  refine ⟨l₁, ?_, hq₁, hs₁⟩
  unfold starPart? at hp
  rw [followStar, Load.exec_bind_of_ok hf]
  cases hres : resolve? t file source with
  | none => rfl
  | some target =>
    have hsealed : l₁.isSealed target = true := by
      rw [hs₁.isSealed_eq]
      simpa [hres] using hp
    simp only [Load.exec_bind_of_ok (Load.exec_get l₁), hsealed, ↓reduceIte]
    rfl

/-- The load runs through the parts: it fails where one of them fails, and else it adds them all to
`km`, and its cut is the topmost of `low` and those of the answers. -/
def RunsThrough (t : FileTree) (S : List (List Step)) (enter : Enter) (l : Loader) (ps : List Part)
    (x : Load (Found ExportMap)) (low : Low) (km : KeyMap) : Prop :=
  (∃ as l' m, AllMet t S enter l ps as l' ∧ x.exec l = (.ok ⟨m, Low.lowest low as⟩, l') ∧
      Shows l'.decls m (addAll km (ps.zip (as.map Found.value)))) ∨
    ∃ e l', Breaks t S enter l ps e l' ∧ x.exec l = (.error e, l')

/-- Going through items, each of which has a part or is passed over, runs through their parts. -/
theorem runsThrough_foldlM {α : Type} {step : Found ExportMap → α → Load (Found ExportMap)}
    {part? : α → Option Part}
    (hsome : ∀ l acc km x p, l.Sound t S → Shows l.decls acc.value km → part? x = some p →
      Meets t S enter l p.target? (step acc x) acc.low fun d km' m => Shows d m (p.add km km'))
    (hnone : ∀ l acc x, l.Sound t S → part? x = none →
      ∃ l', (step acc x).exec l = (.ok acc, l') ∧ l.Quiet l' ∧ l'.Sound t S)
    (xs : List α) (hs : l.Sound t S) {acc : Found ExportMap} {km : KeyMap}
    (hacc : Shows l.decls acc.value km) :
    RunsThrough t S enter l (xs.filterMap part?) (xs.foldlM step acc) acc.low km := by
  induction xs generalizing l acc km with
  | nil => exact Or.inl ⟨[], l, acc.value, .nil (.refl l) hs, rfl, hacc⟩
  | cons x xs ih =>
    rw [List.foldlM_cons]
    cases hp : part? x with
    | none =>
      rw [List.filterMap_cons_none hp]
      obtain ⟨l₁, hx, hq, hs₁⟩ := hnone l acc x hs hp
      rw [RunsThrough, Load.exec_bind_of_ok hx]
      rcases ih hs₁ (hacc.mono hq.decls) with ⟨as, l', m, hm, hx', hsh⟩ | ⟨e, l', hb, hx'⟩
      · exact Or.inl ⟨as, l', m, hm.of_quiet hq, hx', hsh⟩
      · exact Or.inr ⟨e, l', hb.of_quiet hq, hx'⟩
    | some p =>
      rw [List.filterMap_cons_some hp]
      obtain ⟨r, l₁, hm, hx⟩ := hsome l acc km x p hs hacc hp
      cases r with
      | error e =>
        change Load.exec _ l = _ at hx
        refine Or.inr ⟨e, l₁, .here hm, ?_⟩
        rw [Load.exec_bind, hx]
      | ok a =>
        obtain ⟨m₁, hx, hsh₁⟩ := hx
        have hacc₁ : Shows l₁.decls (Found.mk m₁ (acc.low.min a.low)).value (p.add km a.value) :=
          hsh₁
        rw [RunsThrough, Load.exec_bind_of_ok hx]
        rcases ih hm.sound hacc₁ with ⟨as, l', m, hms, hx', hsh⟩ | ⟨e, l', hb, hx'⟩
        · exact Or.inl ⟨a :: as, l', m, .cons hm hms, hx', hsh⟩
        · exact Or.inr ⟨e, l', .later hm hb, hx'⟩

theorem runsThrough_entries (hk : Keeps t S enter) (hs : l.Sound t S) (hr : file.rooted)
    (s : Summary) :
    RunsThrough t S enter l (s.exports.filterMap (entryPart? t S file s))
      (s.exports.foldlM (addEntry t enter file s) ⟨.empty, none⟩) none .empty := by
  refine runsThrough_foldlM ?_ ?_ s.exports hs (shows_empty l.decls)
  · intro l acc km e p hs hacc hp
    exact meets_addEntry hk hs hr s hacc hp
  · intro l acc e hs hp
    cases e with
    | star source => exact ⟨l, rfl, .refl l, hs⟩
    | named exported name => cases hp
    | default name => cases name <;> cases hp
    | reexport exported source imported => cases hp

theorem runsThrough_stars (hk : Keeps t S enter) (hs : l.Sound t S) (hr : file.rooted)
    (sources : List String) {m : ExportMap} {km : KeyMap} (low : Low) (hm : Shows l.decls m km) :
    RunsThrough t S enter l (sources.filterMap (starPart? t S file))
      (sources.foldlM (followStar t enter file) ⟨m, low⟩) low km := by
  refine runsThrough_foldlM ?_ ?_ sources hs hm
  · intro l acc km source p hs hacc hp
    exact meets_followStar hk hs hr hacc hp
  · intro l acc source hs hp
    exact exec_followStar_none hs hr acc hp

/-- Collecting the exports of a module runs through its parts, and the map that comes out is
assembled from the answers. -/
theorem exec_collect (hk : Keeps t S enter) (hs : l.Sound t S) (hr : file.rooted) (s : Summary) :
    (∃ as l' m, AllMet t S enter l (parts t S file s) as l' ∧
        (collect t enter file s).exec l = (.ok ⟨m, Low.lowest none as⟩, l') ∧
        Shows l'.decls m (assemble (parts t S file s) (as.map Found.value))) ∨
      ∃ e l', Breaks t S enter l (parts t S file s) e l' ∧
        (collect t enter file s).exec l = (.error e, l') := by
  unfold collect
  rcases runsThrough_entries hk hs hr s with ⟨as, l₁, m, hm, hx, hsh⟩ | ⟨e, l', hb, hx⟩
  · rw [Load.exec_bind_of_ok hx]
    rcases runsThrough_stars hk hm.sound hr (starSources s.exports) (Low.lowest none as) hsh with
      ⟨bs, l', m', hm', hx', hsh'⟩ | ⟨e, l', hb, hx'⟩
    · refine Or.inl ⟨as ++ bs, l', m'.keep fun _ ids => !ids.isEmpty, hm.append hm', ?_, ?_⟩
      · rw [Load.exec_bind_of_ok hx', Low.lowest_append]
        rfl
      · rw [assemble, parts, List.map_append, List.zip_append, addAll, List.foldl_append]
        · exact hsh'.keep
        · rw [hm.length_eq, List.length_map]
    · refine Or.inr ⟨e, l', hm.breaks hb, ?_⟩
      rw [Load.exec_bind, hx']
  · refine Or.inr ⟨e, l', hb.append _, ?_⟩
    rw [Load.exec_bind, hx]

end

end BarrelAlias.Linkage
