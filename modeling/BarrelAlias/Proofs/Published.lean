import BarrelAlias.Proofs.Qualify

/-!
What a barrel publishes. Its text is one line for each origin, and a line shows each clause once with
the name that it is published under. No name is published from two lines; it is published twice from
one line exactly if the line takes it once as a default export and once by name.
-/

namespace BarrelAlias.Barrel

open Linkage (ExportMap Load Loader exportsOf preload)

/-- A line of a barrel: its origin, and its clauses as they were registered, each with the name in
its file and the name it is published under. -/
structure Line where
  origin : String
  shown : List (String × String)
deriving DecidableEq, Repr

namespace Line

/-- The clauses of the line as they are written, in order and each once. -/
def written (ln : Line) : List String :=
  firstOccurrences
    ((ln.shown.map fun s => clauseText s.1 s.2).mergeSort fun a b => (compare a b).isLE)

def text (quote : QuoteStyle) (ln : Line) : String := lineText quote ln.origin ln.written

/-- The names that the clauses of the line are published under, one for each clause. -/
def published (ln : Line) : List String := (firstOccurrences ln.shown).map (·.2)

end Line

namespace Registry

def shownAs (r : Registry) (o : String) (c : Clause) : String × String :=
  (c.exported, published r.qualify o c.name)

def lines (r : Registry) : List Line :=
  (r.origins.entries.filter (!·.2.isEmpty)).map fun (o, cs) => ⟨o, cs.map (r.shownAs o)⟩

theorem render_eq_lines (r : Registry) (quote : QuoteStyle) :
    r.render quote = r.lines.map (Line.text quote) := by
  simp only [render, lines, List.map_map]
  refine List.map_congr_left fun e _ => ?_
  simp only [Function.comp, Line.text, Line.written, lineClauses, List.map_map]
  rfl

theorem Sound.mem_lines {r : Registry} (h : r.Sound) {ln : Line} (hl : ln ∈ r.lines) :
    ln.shown = (r.clauses ln.origin).map (r.shownAs ln.origin) := by
  obtain ⟨⟨o, cs⟩, he, rfl⟩ := List.mem_map.mp hl
  have hf := (Table.mem_entries_iff r.origins h.origins_nodup o cs).mp (List.mem_filter.mp he).1
  simp [clauses, hf]

/-- An origin with clauses has a line. -/
theorem Sound.exists_line {r : Registry} (h : r.Sound) {o : String} {c : Clause}
    (hc : c ∈ r.clauses o) : ∃ ln ∈ r.lines, ln.origin = o := by
  cases hf : r.origins.find? o with
  | none => simp [clauses, hf] at hc
  | some cs =>
    have hcs : c ∈ cs := by simpa [clauses, hf] using hc
    refine ⟨_, List.mem_map.mpr ⟨(o, cs), List.mem_filter.mpr ⟨?_, ?_⟩, rfl⟩, rfl⟩
    · exact (Table.mem_entries_iff r.origins h.origins_nodup o cs).mpr hf
    · simp [List.ne_nil_of_mem hcs]

theorem Sound.lines_nodup {r : Registry} (h : r.Sound) : (r.lines.map (·.origin)).Nodup := by
  have hsub : (r.lines.map (·.origin)).Sublist r.origins.keys := by
    simp only [lines, List.map_map, Table.keys]
    exact List.filter_sublist.map fun e : String × List Clause => e.1
  exact hsub.nodup h.origins_nodup

/-- No name is published from two lines. -/
theorem Sound.lines_disjoint {r : Registry} (h : r.Sound) :
    r.lines.Pairwise fun ln ln' => List.Disjoint ln.published ln'.published := by
  have hne : r.lines.Pairwise fun ln ln' => ln.origin ≠ ln'.origin :=
    List.pairwise_map.mp h.lines_nodup
  refine hne.imp_of_mem ?_
  intro ln ln' hl hl' hoo a ha ha'
  simp only [Line.published, List.mem_map, mem_firstOccurrences, h.mem_lines hl] at ha
  simp only [Line.published, List.mem_map, mem_firstOccurrences, h.mem_lines hl'] at ha'
  obtain ⟨_, ⟨c, hc, rfl⟩, rfl⟩ := ha
  obtain ⟨_, ⟨c', hc', rfl⟩, heq⟩ := ha'
  exact hoo (published_inj h hc hc' heq.symm).1

/-- In the line of an origin each name has one clause. -/
def OneClauseEach (r : Registry) (o : String) : Prop :=
  ∀ c ∈ r.clauses o, ∀ c' ∈ r.clauses o, c.name = c'.name → c = c'

theorem Sound.published_nodup_line {r : Registry} (h : r.Sound) {ln : Line} (hl : ln ∈ r.lines) :
    ln.published.Nodup ↔ r.OneClauseEach ln.origin := by
  have hmem : ∀ s, s ∈ firstOccurrences ln.shown ↔
      ∃ c ∈ r.clauses ln.origin, r.shownAs ln.origin c = s := by
    intro s
    rw [mem_firstOccurrences, h.mem_lines hl, List.mem_map]
  rw [Line.published, List.nodup_map_iff_inj_on (nodup_firstOccurrences ln.shown)]
  constructor
  · intro hinj c hc c' hc' hn
    have hs := hinj _ ((hmem _).mpr ⟨c, hc, rfl⟩) _ ((hmem _).mpr ⟨c', hc', rfl⟩)
      (by simp [shownAs, hn])
    have he : c.exported = c'.exported := congrArg Prod.fst hs
    cases c
    cases c'
    simp_all
  · intro hone s hs s' hs' heq
    obtain ⟨c, hc, rfl⟩ := (hmem s).mp hs
    obtain ⟨c', hc', rfl⟩ := (hmem s').mp hs'
    have hn := (published_inj h hc hc' heq).2
    rw [hone c hc c' hc' hn]

/-- A barrel publishes no name twice exactly if no line has two clauses under one name. -/
theorem Sound.published_nodup_iff {r : Registry} (h : r.Sound) :
    (r.lines.flatMap Line.published).Nodup ↔ ∀ o, r.OneClauseEach o := by
  rw [List.nodup_flatMap]
  constructor
  · rintro ⟨hnd, _⟩ o c hc
    obtain ⟨ln, hl, rfl⟩ := h.exists_line hc
    exact (h.published_nodup_line hl).mp (hnd ln hl) c hc
  · intro hone
    exact ⟨fun ln hl => (h.published_nodup_line hl).mpr (hone ln.origin), h.lines_disjoint⟩

end Registry

def requests (outDir file : Path) (m : ExportMap) : List Request :=
  (exportList file m).map fun e => ⟨e.name, e.exported, e.decl, specifierOf outDir file⟩

namespace Draft

theorem registry_add (o : String) (d : Draft) (e : Export) :
    (add o d e).registry = d.registry.enter ⟨e.name, e.exported, e.decl, o⟩ := by
  unfold add Registry.enter
  split
  · next h => simp [h]
  · next h => simp [h]

theorem registry_addFile (outDir : Path) (d : Draft) (file : Path) (m : ExportMap) :
    (d.addFile outDir file m).registry = d.registry.enterAll (requests outDir file m) := by
  unfold addFile requests
  generalize exportList file m = es
  induction es generalizing d with
  | nil => rfl
  | cons e es ih =>
    rw [List.foldl_cons, ih, registry_add]
    rfl

/-- The answers that a loader gives about files one after the other. -/
inductive Answered (t : FileTree) : Loader → List Path → List ExportMap → Loader → Prop
  | nil (l : Loader) : Answered t l [] [] l
  | cons {l l₁ l' : Loader} {file : Path} {files : List Path} {m : ExportMap}
      {ms : List ExportMap} :
      (exportsOf t file).exec l = (.ok m, l₁) → Answered t l₁ files ms l' →
        Answered t l (file :: files) (m :: ms) l'

def allRequests (outDir : Path) (files : List Path) (ms : List ExportMap) : List Request :=
  (files.zip ms).flatMap fun fm => requests outDir fm.1 fm.2

theorem enterAll_append (r : Registry) (qs qs' : List Request) :
    r.enterAll (qs ++ qs') = (r.enterAll qs).enterAll qs' := List.foldl_append

/-- A draft is made by asking for the exports of its files in turn and registering them all. -/
theorem exec_foldlM_addFile {t : FileTree} {outDir : Path} {files : List Path} {l l' : Loader}
    {d d' : Draft}
    (h : Load.exec (files.foldlM
      (fun d file => do return d.addFile outDir file (← exportsOf t file)) d) l = (.ok d', l')) :
    ∃ ms, Answered t l files ms l' ∧
      d'.registry = d.registry.enterAll (allRequests outDir files ms) := by
  induction files generalizing d l with
  | nil =>
    cases h
    exact ⟨[], .nil _, rfl⟩
  | cons file files ih =>
    rw [List.foldlM_cons] at h
    obtain ⟨d₁, l₁, h₁, h⟩ := Load.exec_bind_ok.mp h
    obtain ⟨m, l₂, hm, h₁⟩ := Load.exec_bind_ok.mp h₁
    cases h₁
    obtain ⟨ms, hms, hr⟩ := ih h
    refine ⟨m :: ms, .cons hm hms, ?_⟩
    rw [hr, registry_addFile, ← enterAll_append]
    rfl

theorem exec_ofFiles {t : FileTree} {outDir : Path} {files : List Path} {l l' : Loader} {d : Draft}
    (h : (ofFiles t outDir files).exec l = (.ok d, l')) :
    ∃ ms, Answered t l files ms l' ∧
      d.registry = Registry.empty.enterAll (allRequests outDir files ms) :=
  exec_foldlM_addFile h

theorem exec_ofFiles_singleton {t : FileTree} {outDir file : Path} {l l' : Loader} {m : ExportMap}
    (h : (exportsOf t file).exec l = (.ok m, l')) :
    (ofFiles t outDir [file]).exec l = (.ok (empty.addFile outDir file m), l') := by
  rw [ofFiles, List.foldlM_cons, Load.exec_bind, Load.exec_bind, h]
  rfl

/-- The draft of one file that exports one name. -/
theorem exec_ofFiles_single {t : FileTree} {outDir file : Path} {l : Loader} {e : String × List DeclId}
    (h : (Load.exec (do preload t [file]; exportsOf t file) l).1.toOption.map (·.entries) = some [e]) :
    ∃ l', Load.exec (do preload t [file]; ofFiles t outDir [file]) l =
      (.ok ((exportList file ⟨[e]⟩).foldl (add (specifierOf outDir file)) empty), l') := by
  rcases hx : Load.exec (do preload t [file]; exportsOf t file) l with ⟨r, l'⟩
  rw [hx] at h
  cases r with
  | error f => simp [Except.toOption] at h
  | ok m =>
    have hm : m = ⟨[e]⟩ := by
      obtain ⟨entries⟩ := m
      simpa [Except.toOption] using h
    subst hm
    obtain ⟨u, l₁, hpre, hexports⟩ := Load.exec_bind_ok.mp hx
    exact ⟨l', Load.exec_bind_ok.mpr ⟨u, l₁, hpre, exec_ofFiles_singleton hexports⟩⟩

theorem exportList_single (file : Path) (name : String) (ids : List DeclId) :
    exportList file ⟨[(name, ids)]⟩ = ids.map fun id => ⟨nameIn file name, name, id⟩ := by
  simp [exportList, Table.sorted]

/-- A barrel of one line. -/
theorem text_single {d : Draft} {line : Line} (h : d.registry.lines = [line]) (quote : QuoteStyle) :
    d.text quote = line.text quote := by
  rw [Draft.text, Registry.render_eq_lines, h, List.map_singleton, String.intercalate_singleton]

theorem mem_allRequests {outDir : Path} {files : List Path} {ms : List ExportMap} {q : Request}
    (hq : q ∈ allRequests outDir files ms) :
    ∃ file m, (file, m) ∈ files.zip ms ∧ q ∈ requests outDir file m := by
  obtain ⟨⟨file, m⟩, hfm, hq⟩ := List.mem_flatMap.mp hq
  exact ⟨file, m, hfm, hq⟩

/-- A file brings its exports under the names that the barrel takes them under. -/
theorem mem_requests {outDir file : Path} {m : ExportMap} {q : Request}
    (hq : q ∈ requests outDir file m) :
    q.name = nameIn file q.exported ∧ q.origin = specifierOf outDir file ∧
      ∃ ids, (q.exported, ids) ∈ m.entries ∧ q.decl ∈ ids := by
  obtain ⟨e, he, rfl⟩ := List.mem_map.mp hq
  obtain ⟨⟨exported, ids⟩, hm, he⟩ := List.mem_flatMap.mp he
  obtain ⟨id, hid, rfl⟩ := List.mem_map.mp he
  rw [Table.sorted, List.mem_mergeSort] at hm
  refine ⟨rfl, ?_, ids, hm, hid⟩
  dsimp only

theorem name_of_mem_requests {outDir file : Path} {m : ExportMap} {q : Request}
    (hq : q ∈ requests outDir file m) : q.exported = "default" ∨ q.exported = q.name := by
  rw [(mem_requests hq).1]
  by_cases hd : q.exported = "default"
  · exact Or.inl hd
  · right
    simp [nameIn, hd]

/-- The barrel of any files publishes each name once, unless an origin brings the name `n` both as
its default export and as its export `n`: then the line of that origin has both clauses. -/
theorem published_once_iff {t : FileTree} {outDir : Path} {files : List Path} {l l' : Loader}
    {d : Draft} (h : (ofFiles t outDir files).exec l = (.ok d, l')) (quote : QuoteStyle) :
    d.text quote = "\n".intercalate (d.registry.lines.map (Line.text quote)) ∧
      ((d.registry.lines.flatMap Line.published).Nodup ↔
        ∀ o n, ⟨"default", n⟩ ∈ d.registry.clauses o → ⟨n, n⟩ ∈ d.registry.clauses o →
          n = "default") := by
  obtain ⟨ms, _, hr⟩ := exec_ofFiles h
  have hs : d.registry.Sound := hr ▸ Registry.sound_empty.enterAll _
  have hshape : ∀ o, ∀ c ∈ d.registry.clauses o, c = ⟨"default", c.name⟩ ∨ c = ⟨c.name, c.name⟩ := by
    intro o c hc
    rw [hr] at hc
    rcases Registry.clauses_enterAll hc with hc | ⟨q, hq, ⟨_, rfl⟩, _⟩
    · simp at hc
    · obtain ⟨file, m, _, hq⟩ := mem_allRequests hq
      rcases name_of_mem_requests hq with e | e
      · exact Or.inl (by rw [e])
      · exact Or.inr (by rw [e])
  refine ⟨by rw [text, Registry.render_eq_lines], ?_⟩
  rw [hs.published_nodup_iff]
  constructor
  · intro hone o n hd hn
    have := hone o _ hd _ hn rfl
    simpa using (congrArg Clause.exported this).symm
  · intro hno o c hc c' hc' hn
    rcases hshape o c hc with e | e <;> rcases hshape o c' hc' with e' | e'
    · rw [e, e', hn]
    · have hdef := hno o c.name (e ▸ hc) (by rw [hn]; exact e' ▸ hc')
      rw [e, e', ← hn, hdef]
    · have hdef := hno o c.name (by rw [hn]; exact e' ▸ hc') (e ▸ hc)
      rw [e, e', ← hn, hdef]
    · rw [e, e', hn]

/-- A tree with one file whose default export takes the name of another of its exports. -/
def twiceNamed : FileTree := ⟨⟨[(["foo.ts"], .file (.text "export{b as default,c as foo}"))]⟩⟩

theorem twiceNamed_exports : ∃ m l',
    (exportsOf twiceNamed ⟨true, ["foo.ts"]⟩).exec .empty = (.ok m, l') ∧
      m.entries = [("default", [0]), ("foo", [1])] := by
  have h : ((exportsOf twiceNamed ⟨true, ["foo.ts"]⟩).exec .empty).1.toOption.map (·.entries) =
      some [("default", [0]), ("foo", [1])] := by decide +kernel
  rcases hx : (exportsOf twiceNamed ⟨true, ["foo.ts"]⟩).exec .empty with ⟨r, l'⟩
  rw [hx] at h
  cases r with
  | ok m => exact ⟨m, l', rfl, by simpa [Except.toOption] using h⟩
  | error e => simp [Except.toOption] at h

theorem twiceNamed_clauses {m : ExportMap} (hm : m.entries = [("default", [0]), ("foo", [1])]) :
    (empty.addFile .top ⟨true, ["foo.ts"]⟩ m).registry.clauses "./foo" =
      [⟨"default", "foo"⟩, ⟨"foo", "foo"⟩] := by
  have hs : m.sorted = [("default", [0]), ("foo", [1])] := by
    rw [Table.sorted, hm]
    exact List.mergeSort_of_pairwise (by decide +kernel)
  simp only [addFile, exportList, hs]
  decide +kernel

/-- The barrel of that file publishes `foo` twice. -/
theorem published_twice_by_default : ∃ d l',
    (ofFiles twiceNamed .top [⟨true, ["foo.ts"]⟩]).exec .empty = (.ok d, l') ∧
      ¬ (d.registry.lines.flatMap Line.published).Nodup := by
  obtain ⟨m, l', hx, hm⟩ := twiceNamed_exports
  have h : (ofFiles twiceNamed .top [⟨true, ["foo.ts"]⟩]).exec .empty = _ :=
    exec_ofFiles_singleton hx
  refine ⟨_, l', h, ?_⟩
  rw [(published_once_iff h .double).2]
  intro hno
  have hc := twiceNamed_clauses hm
  have := hno "./foo" "foo" (by simp [hc]) (by simp [hc])
  exact absurd this (by decide)

end Draft

end BarrelAlias.Barrel
