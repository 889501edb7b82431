import BarrelAlias.Proofs.Assembling
import BarrelAlias.Proofs.Beside

/-!
Two ways to pass on something under a name: to export it from the other file directly, or to import it
and export what was imported. Both find the same declarations at the same point of the walk, so a module
written in the one form and in the other fails alike or exports the same, with one exception: an import
that stands for nothing still occupies the name, so that nothing is passed on under it, whereas a direct
export of nothing is no export.
-/

namespace BarrelAlias.Linkage

open Script (Imported)
open Loader

/-- The second module imports under a new name what the first one exports from another file, and exports
that; in all else they are the same. -/
structure ImportForm (b l source : String) (imported : Imported) (s s' : Summary) : Prop where
  locals : s'.locals = s.locals
  imports : ∀ n, s'.imports.find? n = if n = l then some ⟨source, imported⟩ else s.imports.find? n
  exports : ∃ before after, s.exports = before ++ .reexport b source imported :: after ∧
    s'.exports = before ++ .named b l :: after ∧ ∀ e ∈ before ++ after, e.inner? ≠ some l

/-- The second map is the first one with the name `b` in it, if only for nothing. -/
def Occupies (b : String) (m m' : KeyMap) : Prop :=
  ∀ n, m'.find? n = if n = b then some ((m.find? b).getD []) else m.find? n

section

variable {t t' : FileTree} {S : List (List Step)} {k : List Step} {file : Path} {b l source : String}
  {imported : Imported} {s s' : Summary}

/-- An explicit export keeps the one difference. -/
theorem Occupies.add {m m' : KeyMap} (h : Occupies b m m') (exported : String) (src : Source)
    (kept : Bool) (answer : KeyMap) :
    Occupies b ((Part.entry exported src kept).add m answer)
      ((Part.entry exported src kept).add m' answer) := by
  unfold Part.add
  dsimp only
  split
  · exact h
  · intro n
    rw [find?_addUnder, find?_addUnder, find?_addUnder, h exported, h n]
    by_cases hb : exported = b
    · subst hb
      by_cases hn : n = exported
      · simp [hn]
      · simp [hn]
    · by_cases hn : n = b
      · subst hn
        simp [Ne.symm hb]
      · simp [hb, hn]

theorem Occupies.addAll {m m' : KeyMap} (h : Occupies b m m') {qs : List Part}
    (hqs : ∀ q ∈ qs, ∃ n src kept, q = .entry n src kept) (answers : List KeyMap) :
    Occupies b (addAll m (qs.zip answers)) (addAll m' (qs.zip answers)) := by
  unfold Linkage.addAll
  induction qs generalizing m m' answers with
  | nil => exact h
  | cons q qs ih =>
    cases answers with
    | nil => exact h
    | cons a answers =>
      obtain ⟨⟨n, src, kept, rfl⟩, hrest⟩ := List.forall_mem_cons.mp hqs
      exact ih (h.add n src kept a) hrest answers

/-- Where the export of something is kept though it is of nothing, its name is occupied. -/
theorem occupies_kept (m : KeyMap) (src : Source) (answer : KeyMap) :
    Occupies b ((Part.entry b src false).add m answer) ((Part.entry b src true).add m answer) := by
  intro n
  unfold Part.add
  cases hkeys : src.keys answer with
  | nil => simp [hkeys, find?_addUnder, addUnique]
  | cons key keys =>
    by_cases hn : n = b
    · simp [hkeys, hn, find?_addUnder]
    · simp [hkeys, hn, find?_addUnder]

theorem occupies_addAll {ps qs : List Part} (hqs : ∀ q ∈ qs, ∃ n src kept, q = .entry n src kept)
    (src : Source) {answers : List KeyMap} (hlen : ps.length < answers.length) (m : KeyMap) :
    Occupies b (addAll m ((ps ++ .entry b src false :: qs).zip answers))
      (addAll m ((ps ++ .entry b src true :: qs).zip answers)) := by
  induction ps generalizing answers m with
  | nil =>
    cases answers with
    | nil => cases hlen
    | cons a answers => exact (occupies_kept m src a).addAll hqs answers
  | cons p ps ih =>
    cases answers with
    | nil => cases hlen
    | cons a answers => exact ih (Nat.lt_of_succ_lt_succ hlen) (p.add m a)

theorem exists_entry_of_entryPart? {e : ExportEntry} {p : Part}
    (h : entryPart? t S file s e = some p) : ∃ n src kept, p = .entry n src kept := by
  cases e with
  | named exported name =>
    cases h
    exact ⟨_, _, _, rfl⟩
  | default name =>
    cases name with
    | none =>
      cases h
      exact ⟨_, _, _, rfl⟩
    | some name =>
      cases h
      exact ⟨_, _, _, rfl⟩
  | reexport exported source imported =>
    cases h
    exact ⟨_, _, _, rfl⟩
  | star source => cases h

/-- The explicit parts of both forms differ in whether the export is kept if it is of nothing. -/
theorem ImportForm.entryParts (h : ImportForm b l source imported s s') (hB : Beside t t' k)
    (S : List (List Step)) (file : Path) :
    ∃ ps qs src, s.exports.filterMap (entryPart? t S file s) = ps ++ .entry b src false :: qs ∧
      s'.exports.filterMap (entryPart? t' S file s') = ps ++ .entry b src true :: qs ∧
      ∀ q ∈ qs, ∃ n src kept, q = Part.entry n src kept := by
  obtain ⟨before, after, hexports, hexports', hfree⟩ := h.exports
  have hother : ∀ e ∈ before ++ after, entryPart? t' S file s' e = entryPart? t S file s e := by
    intro e he
    refine hB.entryPart?_eq h.locals ?_
    intro name hname
    have hne : name ≠ l := fun hl => hfree e he (hl ▸ hname)
    rw [h.imports, if_neg hne]
  have hdirect : entryPart? t S file s (.reexport b source imported) =
      some (.entry b (importedSource t S file source imported) false) := rfl
  have himport : entryPart? t' S file s' (.named b l) =
      some (.entry b (importedSource t S file source imported) true) := by
    rw [entryPart?, namedSource, h.imports, if_pos rfl]
    simp only [hB.importedSource_eq]
  refine ⟨before.filterMap (entryPart? t S file s), after.filterMap (entryPart? t S file s),
    importedSource t S file source imported, ?_, ?_, ?_⟩
  · rw [hexports, List.filterMap_append, List.filterMap_cons_some hdirect]
  · rw [hexports', List.filterMap_append, List.filterMap_cons_some himport,
      List.filterMap_congr fun e he => hother e (List.mem_append_left _ he),
      List.filterMap_congr fun e he => hother e (List.mem_append_right _ he)]
  · intro q hq
    obtain ⟨e, _, he⟩ := List.mem_filterMap.mp hq
    exact exists_entry_of_entryPart? he

theorem ImportForm.starSources_eq (h : ImportForm b l source imported s s') :
    starSources s'.exports = starSources s.exports := by
  obtain ⟨before, after, hexports, hexports', _⟩ := h.exports
  rw [hexports, hexports', starSources, starSources, List.filterMap_append, List.filterMap_append]
  rfl

/-- The parts of both forms: the explicit ones differ in one place, and the same files are passed on. -/
theorem ImportForm.parts (h : ImportForm b l source imported s s') (hB : Beside t t' k)
    (S : List (List Step)) (file : Path) :
    ∃ ps qs src stars, s.exports.filterMap (entryPart? t S file s) = ps ++ .entry b src false :: qs ∧
      Linkage.parts t S file s = (ps ++ .entry b src false :: qs) ++ stars ∧
      Linkage.parts t' S file s' = (ps ++ .entry b src true :: qs) ++ stars ∧
      (∀ q ∈ qs, ∃ n src kept, q = Part.entry n src kept) ∧ ∀ p ∈ stars, ∃ g, p = Part.all g := by
  obtain ⟨ps, qs, src, hentries, hentries', hqs⟩ := h.entryParts hB S file
  have hstar : starPart? t' S file = starPart? t S file := funext hB.starPart?_eq
  refine ⟨ps, qs, src, (starSources s.exports).filterMap (starPart? t S file), hentries, ?_, ?_, hqs, ?_⟩
  · rw [Linkage.parts, hentries]
  · rw [Linkage.parts, hentries', h.starSources_eq, hstar]
  · exact fun p hp => exists_all_of_mem hp

/-- An occupied name stands in the way of what is passed on, and is itself left out in the end if it is
occupied for nothing. -/
theorem Occupies.filter_or {m m' : KeyMap} (h : Occupies b m m') (n : String)
    (passed : Option (List Identity)) :
    ((m'.find? n).or passed).filter (fun ks => !ks.isEmpty) =
      if n = b ∧ ¬ m.has b then none
      else ((m.find? n).or passed).filter fun ks => !ks.isEmpty := by
  rw [h n, Table.has]
  by_cases hn : n = b
  · subst hn
    cases hm : m.find? n with
    | none => simp
    | some ks => simp
  · simp [hn]

theorem find?_assemble_kept {ps qs stars : List Part}
    (hqs : ∀ q ∈ qs, ∃ n src kept, q = .entry n src kept) (hstars : ∀ p ∈ stars, ∃ g, p = .all g)
    (src : Source) {answers passed : List KeyMap}
    (hlen : (ps ++ .entry b src false :: qs).length = answers.length)
    (hlen' : stars.length = passed.length) (n : String) :
    (assemble ((ps ++ .entry b src true :: qs) ++ stars) (answers ++ passed)).find? n =
      if n = b ∧ ¬ (addAll .empty ((ps ++ .entry b src false :: qs).zip answers)).has b then none
      else (assemble ((ps ++ .entry b src false :: qs) ++ stars) (answers ++ passed)).find? n := by
  have hocc : Occupies b (addAll .empty ((ps ++ .entry b src false :: qs).zip answers))
      (addAll .empty ((ps ++ .entry b src true :: qs).zip answers)) := by
    refine occupies_addAll hqs src ?_ .empty
    rw [List.length_append, List.length_cons] at hlen
    omega
  have hlen'' : (ps ++ .entry b src true :: qs).length = answers.length := by
    simpa using hlen
  rw [find?_assemble, find?_assemble, List.zip_append hlen, List.zip_append hlen'', addAll_append,
    addAll_append, find?_addAll_stars hstars hlen', find?_addAll_stars hstars hlen']
  exact hocc.filter_or n _

end

/-- Both forms point to the same files. -/
theorem sameTargets_kept (ps qs stars : List Part) (src : Source) {b : String} :
    List.Forall₂ (fun p q => p.target? = q.target?) ((ps ++ .entry b src false :: qs) ++ stars)
      ((ps ++ .entry b src true :: qs) ++ stars) := by
  have hrefl : ∀ ps : List Part, List.Forall₂ (fun p q => p.target? = q.target?) ps ps :=
    fun ps => List.forall₂_same.mpr fun _ _ => rfl
  have hmiddle : List.Forall₂ (fun p q => p.target? = q.target?) (Part.entry b src false :: qs)
      (Part.entry b src true :: qs) := .cons rfl (hrefl qs)
  exact List.rel_append (List.rel_append (hrefl ps) hmiddle) (hrefl stars)

/-- A run through parts is a run through the first of them and then through the others. -/
theorem AllMet.split {t : FileTree} {S : List (List Step)} {enter : Enter} {l l' : Loader}
    (hs : l.Sound t S) {ps qs : List Part} {cs : List (Found KeyMap)}
    (h : AllMet t S enter l (ps ++ qs) cs l') :
    ∃ as bs l₁, cs = as ++ bs ∧ AllMet t S enter l ps as l₁ ∧ AllMet t S enter l₁ qs bs l' := by
  induction ps generalizing l cs with
  | nil => exact ⟨[], cs, l, rfl, .nil (.refl l) hs, h⟩
  | cons p ps ih =>
    cases h with
    | @cons _ l₁ _ _ _ a cs hm h =>
      obtain ⟨as, bs, l₂, rfl, has, hbs⟩ := ih hm.sound h
      exact ⟨a :: as, bs, l₂, rfl, .cons hm has, hbs⟩

def ownExports (t : FileTree) (file : Path) (s : Summary) : Load (Found ExportMap) :=
  s.exports.foldlM (addEntry t (walkExports t (t.nodes.size + 1) [file.steps]) file s) ⟨.empty, none⟩

def Owns (t : FileTree) (l : Loader) (file : Path) (s : Summary) (own : KeyMap) : Prop :=
  ∃ found l', (ownExports t file s).exec l = (.ok found, l') ∧ Shows l'.decls found.value own

theorem owns_of_allMet {t : FileTree} {S : List (List Step)} {file : Path} {s : Summary}
    {l l' : Loader} (hs : l.Sound t S) (hr : file.rooted) {as : List (Found KeyMap)}
    (h : AllMet t S (walkExports t (t.nodes.size + 1) [file.steps]) l
      (s.exports.filterMap (entryPart? t S file s)) as l') :
    Owns t l file s
      (addAll .empty ((s.exports.filterMap (entryPart? t S file s)).zip (as.map Found.value))) := by
  have htwins : Twins t t S l l := ⟨hs, hs, fun _ _ => Iff.rfl⟩
  have henter : ∀ p ∈ s.exports.filterMap (entryPart? t S file s), ∀ g, p.target? = some g →
      EntersTogether (Twins t t S) Eq (walkExports t (t.nodes.size + 1) [file.steps])
        (walkExports t (t.nodes.size + 1) [file.steps]) g := by
    intro p hp g hg
    exact walk_twins (.refl t file.steps) _ _ (List.mem_singleton_self _)
      (isPlain_of_mem_parts (List.mem_append_left _ hp) hg)
  -- there is only one way to run through the parts
  have honly : ∀ r l'', Ran t S (walkExports t (t.nodes.size + 1) [file.steps]) l
      (s.exports.filterMap (entryPart? t S file s)) r l'' → r = .ok as := by
    intro r l'' hran
    have hran' : Ran t S (walkExports t (t.nodes.size + 1) [file.steps]) l
        (s.exports.filterMap (entryPart? t S file s)) (.ok as) l' := h
    rcases htwins.ran (List.forall₂_same.mpr fun _ _ => rfl) henter hran' hran with
      ⟨e, he, _⟩ | ⟨bs, hbs, hr, _⟩
    · cases he
    · exact hr.trans hbs.symm
  rcases runsThrough_entries (walk_keeps t S (t.nodes.size + 1) [file.steps]) hs hr s with
    ⟨as', l'', m, hm, hx, hsh⟩ | ⟨e, l'', hb, _⟩
  · cases honly (.ok as') l'' hm
    exact ⟨_, l'', hx, hsh⟩
  · cases honly (.error e) l'' hb

/-- Maps that differ at most in that one of them lacks a name. -/
theorem same_iff_of_missing {b : String} {own : Bool} {km km' : KeyMap}
    (h : ∀ n, km'.find? n = if n = b ∧ ¬ own then none else km.find? n) :
    (∀ n, km'.find? n = km.find? n) ↔ own ∨ ¬ km.has b := by
  constructor
  · intro hsame
    rw [or_iff_not_imp_left]
    intro hown
    have hb := h b
    rw [if_pos ⟨rfl, hown⟩, hsame b] at hb
    simp [Table.has, hb]
  · rintro (hown | hnot) n
    · rw [h n, if_neg fun hn => hn.2 hown]
    · rw [h n]
      split
      · next hn =>
        rw [hn.1]
        exact (Option.not_isSome_iff_eq_none.mp hnot).symm
      · rfl

/-- Asked for a module in both forms, fresh loaders fail alike, or reply the same but for one thing: a
name that the direct form passes on, because none of its explicit exports has it, is missing in the other
form. So the replies are the same exactly if an explicit export of the direct form has the name or the
direct form does not export it at all. -/
theorem importForm_replies (t : FileTree) (sealedFiles : List Path) {loc : Location}
    (hplaced : t.Placed loc) {s s' : Summary} (hread : readModule t loc.path = .ok s) {text : String}
    (hsum : summarize loc.path text = .ok s') {b l source : String} {imported : Imported}
    (h : ImportForm b l source imported s s') :
    (∃ e, Replies t (.sealing sealedFiles) loc.path (.error e) ∧
      Replies (t.putFile loc (.text text)) (.sealing sealedFiles) loc.path (.error e)) ∨
    ∃ own km km', Owns t (.sealing sealedFiles) loc.path s own ∧
      Replies t (.sealing sealedFiles) loc.path (.ok km) ∧
      Replies (t.putFile loc (.text text)) (.sealing sealedFiles) loc.path (.ok km') ∧
      (∀ n, km'.find? n = if n = b ∧ ¬ own.has b then none else km.find? n) ∧
      ((∀ n, km'.find? n = km.find? n) ↔ own.has b ∨ ¬ km.has b) := by
  have hfinds : t.Finds loc.path loc := by
    obtain ⟨old, hold, _⟩ := readModule_ok.mp hread
    obtain ⟨loc', hfinds, _⟩ := FileTree.finds_of_read hold
    cases hplaced.locate_path.symm.trans hfinds.locate
    exact hfinds
  have hfile : t.isFile loc.path := FileTree.isFile_iff_locate.mpr ⟨loc, hfinds.locate, hfinds.file⟩
  have hB := beside_putFile hfinds text
  have hread' := readModule_putFile hfinds hsum
  have hsize := size_putFile hfinds text
  generalize t.putFile loc (.text text) = t' at hB hread' hsize
  have hs : (sealing sealedFiles).Sound t (sealedFiles.map Path.steps) := sound_empty t _
  obtain ⟨ps, qs, src, stars, hentries, hparts, hparts', hqs, hstars⟩ :=
    h.parts hB (sealedFiles.map Path.steps) loc.path
  obtain ⟨rs, l₁, hran, hreply⟩ := ran_of_fresh t sealedFiles hfile hread
  obtain ⟨rs', l₁', hran', hreply'⟩ :=
    ran_of_fresh t' sealedFiles ((hB.files loc.path).trans hfile) hread'
  have henter : ∀ p ∈ Linkage.parts t (sealedFiles.map Path.steps) loc.path s, ∀ g,
      p.target? = some g → EntersTogether (Twins t t' (sealedFiles.map Path.steps)) Eq
        (walkExports t (t.nodes.size + 1) [loc.path.steps])
        (walkExports t' (t.nodes.size + 1) [loc.path.steps]) g :=
    fun p hp g hg => walk_twins hB _ _ (List.mem_singleton_self _) (isPlain_of_mem_parts hp hg)
  rw [hsize] at hran'
  rw [hparts] at hran hreply henter
  rw [hparts'] at hran' hreply'
  have htwins : Twins t t' (sealedFiles.map Path.steps) (.sealing sealedFiles)
      (.sealing sealedFiles) := ⟨hs, sound_empty t' _, fun _ _ => Iff.rfl⟩
  rcases htwins.ran (sameTargets_kept ps qs stars src) henter hran hran' with
    ⟨e, rfl, rfl⟩ | ⟨answers, rfl, rfl, _⟩
  · exact Or.inl ⟨e, hreply, hreply'⟩
  · obtain ⟨as, bs, l₂, rfl, has, hbs⟩ := AllMet.split hs hran
    have hown := owns_of_allMet hs rfl (hentries ▸ has)
    rw [hentries] at hown
    rw [Except.map, List.map_append] at hreply hreply'
    have hfind := find?_assemble_kept hqs hstars src
      (has.length_eq.trans (List.length_map Found.value).symm)
      (hbs.length_eq.trans (List.length_map Found.value).symm)
    refine Or.inr ⟨_, _, _, hown, hreply, hreply', hfind, ?_⟩
    exact same_iff_of_missing hfind

/-- A file that exports a name from a file that lacks it, and passes on a file that has it. -/
def passing : FileTree := ⟨⟨[
  (["a.ts"], .file (.text "export{y}")),
  (["b.ts"], .file (.text "export{x}")),
  (["c.ts"], .file (.text "export{x}from'./a';export*from'./b'"))]⟩⟩

def importing : String := "import{x as l}from'./a';export{l as x};export*from'./b'"

theorem importForm_passing : ∃ s s', readModule passing ⟨true, ["c.ts"]⟩ = .ok s ∧
    summarize ⟨true, ["c.ts"]⟩ importing = .ok s' ∧ ImportForm "x" "l" "./a" (.name "x") s s' := by
  have hs : (readModule passing ⟨true, ["c.ts"]⟩).toOption.map
      (fun s => (s.locals, s.imports.entries, s.exports)) =
        some ([], [], [.reexport "x" "./a" (.name "x"), .star "./b"]) := by
    decide +kernel
  have hs' : (summarize ⟨true, ["c.ts"]⟩ importing).toOption.map
      (fun s => (s.locals, s.imports.entries, s.exports)) =
        some ([], [("l", ⟨"./a", .name "x"⟩)], [.named "x" "l", .star "./b"]) := by
    decide +kernel
  obtain ⟨⟨locals, ⟨imports⟩, exports⟩, hok, heq⟩ := Option.map_eq_some_iff.mp hs
  obtain ⟨⟨locals', ⟨imports'⟩, exports'⟩, hok', heq'⟩ := Option.map_eq_some_iff.mp hs'
  cases heq
  cases heq'
  refine ⟨_, _, Except.eq_ok_of_toOption hok, Except.eq_ok_of_toOption hok', rfl, ?_, [], [.star "./b"],
    rfl, rfl, by simp [ExportEntry.inner?]⟩
  intro n
  by_cases hn : n = "l"
  · simp [hn, Table.find?]
  · simp [Ne.symm hn, hn, Table.find?]

/-- The direct form passes on the name from the other file; the import occupies it, and nothing is
exported. -/
theorem passing_importForm_replies :
    ∃ s own km km', Owns passing (.sealing []) ⟨true, ["c.ts"]⟩ s own ∧
      Replies passing (.sealing []) ⟨true, ["c.ts"]⟩ (.ok km) ∧
      Replies (passing.putFile ["c.ts"] (.text importing)) (.sealing []) ⟨true, ["c.ts"]⟩ (.ok km') ∧
      ¬ own.has "x" ∧ km.find? "x" = some [⟨.file [.root, .name "b.ts"], "x", .value⟩] ∧
      km'.find? "x" = none := by
  obtain ⟨s, s', hread, hsum, hform⟩ := importForm_passing
  have hplaced : passing.Placed ["c.ts"] :=
    .inside .top rfl (by decide) (by decide) (by decide) (by decide)
  have hdirect : revealed passing (.sealing []) ⟨true, ["c.ts"]⟩ =
      some [("x", [some ⟨.file [.root, .name "b.ts"], "x", .value⟩])] := by decide +kernel
  have himport : revealed (passing.putFile ["c.ts"] (.text importing)) (.sealing [])
      ⟨true, ["c.ts"]⟩ = some [] := by decide +kernel
  rcases importForm_replies passing [] hplaced hread hsum hform with
    ⟨e, herror, _⟩ | ⟨own, km, km', hown, hreply, hreply', _, hsame⟩
  · cases herror.revealed_eq.symm.trans hdirect
  · have hkm : km.entries.map (fun e => (e.1, e.2.map some)) =
        [("x", [some ⟨.file [.root, .name "b.ts"], "x", .value⟩])] :=
      Option.some.inj (hreply.revealed_eq.symm.trans hdirect)
    have hkm' : km'.entries.map (fun e => (e.1, e.2.map some)) = [] :=
      Option.some.inj (hreply'.revealed_eq.symm.trans himport)
    have hfound : km.find? "x" = some [⟨.file [.root, .name "b.ts"], "x", .value⟩] := by
      obtain ⟨_ | ⟨⟨n, ks⟩, es⟩⟩ := km
      · cases hkm
      · simp_all [Table.find?]
    have hmissing : km'.find? "x" = none := by
      rw [List.map_eq_nil_iff] at hkm'
      rw [Table.find?, hkm']
      rfl
    refine ⟨s, own, km, km', hown, hreply, hreply', ?_, hfound, hmissing⟩
    intro hhas
    have heq := hsame.mpr (Or.inl hhas) "x"
    rw [hmissing, hfound] at heq
    cases heq

end BarrelAlias.Linkage
