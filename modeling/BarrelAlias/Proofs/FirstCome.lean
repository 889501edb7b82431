import BarrelAlias.Barrel.Order
import BarrelAlias.Proofs.Published

/-!
First come, first served. Of all registrations of a declaration under a name only the first one counts,
and the registry is an index of those: by name, by declaration and by origin. For the files of a barrel
this says which file a declaration is taken from, and that no declaration is lost or taken twice.
-/

namespace BarrelAlias.Barrel

open Linkage (ExportMap Load Loader exportsOf)

def Request.pair (q : Request) : String × DeclId := (q.name, q.decl)

def letIn (won : List Request) (q : Request) : List Request :=
  if q.pair ∈ won.map Request.pair then won else won ++ [q]

/-- The registrations that come first for their pair. -/
def firstRequests (qs : List Request) : List Request := qs.foldl letIn []

theorem nodup_letIn {won : List Request} (h : (won.map Request.pair).Nodup) (q : Request) :
    ((letIn won q).map Request.pair).Nodup := by
  unfold letIn
  split
  · exact h
  · next hq =>
    rw [List.map_append, List.map_singleton]
    refine List.nodup_append.mpr ⟨h, List.nodup_singleton _, ?_⟩
    intro p hp p' hp' e
    rw [List.mem_singleton] at hp'
    exact hq (hp' ▸ e ▸ hp)

theorem nodup_foldl_letIn {won : List Request} (h : (won.map Request.pair).Nodup)
    (qs : List Request) : ((qs.foldl letIn won).map Request.pair).Nodup := by
  induction qs generalizing won with
  | nil => exact h
  | cons q qs ih => exact ih (nodup_letIn h q)

theorem mem_letIn {won : List Request} {q q' : Request} :
    q' ∈ letIn won q ↔ q' ∈ won ∨ q' = q ∧ q.pair ∉ won.map Request.pair := by
  unfold letIn
  split
  · next hq => simp [hq]
  · next hq => simp [hq]

/-- A registration is let in exactly if it is the first one of its pair that is found. -/
theorem mem_foldl_letIn {won qs : List Request} {q : Request} :
    q ∈ qs.foldl letIn won ↔
      q ∈ won ∨ q.pair ∉ won.map Request.pair ∧ qs.find? (·.pair = q.pair) = some q := by
  induction qs generalizing won with
  | nil => simp
  | cons x qs ih =>
    rw [List.foldl_cons, ih, List.find?_cons]
    have hpairs : q.pair ∈ (letIn won x).map Request.pair ↔
        q.pair ∈ won.map Request.pair ∨ q.pair = x.pair := by
      unfold letIn
      split
      · next hx =>
        constructor
        · exact Or.inl
        · rintro (h | h)
          · exact h
          · exact h ▸ hx
      · simp [List.map_append]
    by_cases hx : x.pair = q.pair
    · -- `x` is what is found; after it no registration of the pair is let in
      rw [hpairs, mem_letIn]
      simp only [hx, decide_true, Option.some.injEq, or_true, not_true, false_and, or_false]
      constructor
      · rintro (h | ⟨rfl, h⟩)
        · exact Or.inl h
        · exact Or.inr ⟨h, rfl⟩
      · rintro (h | ⟨h, rfl⟩)
        · exact Or.inl h
        · exact Or.inr ⟨rfl, h⟩
    · have hne : q ≠ x := fun e => hx (e ▸ rfl)
      rw [hpairs, mem_letIn]
      simp [hx, hne, Ne.symm hx]

theorem mem_firstRequests {qs : List Request} {q : Request} :
    q ∈ firstRequests qs ↔ qs.find? (·.pair = q.pair) = some q := by
  rw [firstRequests, mem_foldl_letIn]
  simp

theorem nodup_firstRequests (qs : List Request) : ((firstRequests qs).map Request.pair).Nodup :=
  nodup_foldl_letIn (by simp) qs

namespace Registry

theorem namesOf_bindRequest (r : Registry) (q : Request) (d : DeclId) :
    (r.bindRequest q).namesOf d =
      if d = q.decl then r.namesOf d ++ [(q.name, q.origin)] else r.namesOf d := by
  simp only [bindRequest, bind, namesOf, Table.find?_insert]
  by_cases h : d = q.decl
  · simp [h]
  · simp [h]

/-- The registry holds these registrations and no others, each side in their order. -/
structure Indexes (r : Registry) (won : List Request) : Prop where
  bindings : ∀ n, r.bindings n = (won.filter (·.name = n)).map fun q => (q.decl, q.origin)
  namesOf : ∀ d, r.namesOf d = (won.filter (·.decl = d)).map fun q => (q.name, q.origin)
  clauses : ∀ o, r.clauses o = (won.filter (·.origin = o)).map fun q => ⟨q.exported, q.name⟩

theorem indexes_empty : Indexes empty [] where
  bindings _ := rfl
  namesOf _ := rfl
  clauses _ := rfl

theorem Indexes.mem_bindings {r : Registry} {won : List Request} (h : r.Indexes won) {n : String}
    {d : DeclId} {o : String} :
    (d, o) ∈ r.bindings n ↔ ∃ q ∈ won, q.pair = (n, d) ∧ q.origin = o := by
  simp only [h.bindings, List.mem_map, List.mem_filter, decide_eq_true_eq, Prod.mk.injEq,
    Request.pair]
  constructor
  · rintro ⟨q, ⟨hq, hn⟩, hd, ho⟩
    exact ⟨q, hq, ⟨hn, hd⟩, ho⟩
  · rintro ⟨q, hq, ⟨hn, hd⟩, ho⟩
    exact ⟨q, ⟨hq, hn⟩, hd, ho⟩

theorem Indexes.bindRequest {r : Registry} {won : List Request} (h : r.Indexes won) (q : Request) :
    (r.bindRequest q).Indexes (won ++ [q]) where
  bindings n := by
    rw [bindings_bindRequest, h.bindings, List.filter_append]
    by_cases e : n = q.name
    · simp [e]
    · simp [e, Ne.symm e]
  namesOf d := by
    rw [namesOf_bindRequest, h.namesOf, List.filter_append]
    by_cases e : d = q.decl
    · simp [e]
    · simp [e, Ne.symm e]
  clauses o := by
    rw [clauses_bindRequest, h.clauses, List.filter_append]
    by_cases e : o = q.origin
    · simp [e]
    · simp [e, Ne.symm e]

/-- A registration enters the registry exactly if it is let in. -/
theorem Indexes.enter_cases {r : Registry} {won : List Request} (h : r.Indexes won) (q : Request) :
    (letIn won q = won ∧ r.enter q = r) ∨
      (letIn won q = won ++ [q] ∧
        (r.enter q = r.bindRequest q ∨ r.enter q = (r.bindRequest q).markOverloaded q.name)) := by
  have hknown : q.pair ∈ won.map Request.pair ↔ ∃ o, (q.decl, o) ∈ r.bindings q.name := by
    rw [List.mem_map]
    constructor
    · rintro ⟨q', hq', hp⟩
      exact ⟨q'.origin, h.mem_bindings.mpr ⟨q', hq', hp, rfl⟩⟩
    · rintro ⟨o, ho⟩
      obtain ⟨q', hq', hp, _⟩ := h.mem_bindings.mp ho
      exact ⟨q', hq', hp⟩
  unfold letIn
  rcases r.enter_cases q with ⟨hq, e⟩ | ⟨hq, _, e⟩ | ⟨hq, _, _, e⟩
  · exact Or.inl ⟨if_pos (hknown.mpr hq), e⟩
  · exact Or.inr ⟨if_neg (by rw [hknown]; exact not_exists.mpr hq), Or.inl e⟩
  · exact Or.inr ⟨if_neg (by rw [hknown]; exact not_exists.mpr hq), Or.inr e⟩

theorem Indexes.enter {r : Registry} {won : List Request} (h : r.Indexes won) (q : Request) :
    (r.enter q).Indexes (letIn won q) := by
  have hbind := h.bindRequest q
  rcases h.enter_cases q with ⟨hw, e⟩ | ⟨hw, e | e⟩
  · rw [hw, e]
    exact h
  · rw [hw, e]
    exact hbind
  · rw [hw, e]
    exact ⟨hbind.bindings, hbind.namesOf, hbind.clauses⟩

theorem Indexes.enterAll {r : Registry} {won : List Request} (h : r.Indexes won)
    (qs : List Request) : (r.enterAll qs).Indexes (qs.foldl letIn won) := by
  induction qs generalizing r won with
  | nil => exact h
  | cons q qs ih => exact ih (h.enter q)

/-- After any registrations the registry is an index of those that came first. -/
theorem indexes_firstRequests (qs : List Request) :
    (empty.enterAll qs).Indexes (firstRequests qs) :=
  indexes_empty.enterAll qs

structure Slot (r : Registry) where
  origin : String
  place : Fin (r.clauses origin).length

def Slot.clause {r : Registry} (s : r.Slot) : Clause := (r.clauses s.origin).get s.place

def Indexes.requestAt {r : Registry} {won : List Request} (h : r.Indexes won) (s : r.Slot) :
    Request :=
  (won.filter (·.origin = s.origin)).get ⟨s.place, by
    have hlt := s.place.isLt
    simpa only [h.clauses, List.length_map] using hlt⟩

variable {r : Registry} {won : List Request}

theorem Indexes.mem_requestAt (h : r.Indexes won) (s : r.Slot) :
    h.requestAt s ∈ won ∧ (h.requestAt s).origin = s.origin := by
  have hmem : h.requestAt s ∈ won.filter (·.origin = s.origin) := List.get_mem _ _
  simpa using List.mem_filter.mp hmem

theorem Indexes.clause_eq (h : r.Indexes won) (s : r.Slot) :
    s.clause = ⟨(h.requestAt s).exported, (h.requestAt s).name⟩ := by
  simp [Slot.clause, requestAt, h.clauses]

/-- Each registration that the registry holds has one stored clause. -/
theorem Indexes.requestAt_injective (h : r.Indexes won) (hnd : won.Nodup) :
    Function.Injective h.requestAt := by
  rintro ⟨o, i⟩ ⟨o', i'⟩ e
  have ho : o = o' := by
    have h₁ := (h.mem_requestAt ⟨o, i⟩).2
    rw [e, (h.mem_requestAt ⟨o', i'⟩).2] at h₁
    exact h₁.symm
  subst ho
  -- in the line of one origin no registration stands twice
  have hinj := List.nodup_iff_injective_get.mp (hnd.filter (·.origin = o))
  have hi : i = i' := by
    have hget := hinj e
    simpa [Fin.ext_iff] using hget
  rw [hi]

theorem Indexes.exists_slot (h : r.Indexes won) {q : Request} (hq : q ∈ won) :
    ∃ s, h.requestAt s = q := by
  have hmem : q ∈ won.filter (·.origin = q.origin) := List.mem_filter.mpr ⟨hq, by simp⟩
  obtain ⟨i, hi⟩ := List.get_of_mem hmem
  refine ⟨⟨q.origin, ⟨i, ?_⟩⟩, hi⟩
  have hlt := i.isLt
  simpa only [h.clauses, List.length_map] using hlt

/-- Where no pair stands twice, the entry of a pair is the only one on both sides. -/
theorem Indexes.filter_eq (h : r.Indexes won) (hnd : (won.map Request.pair).Nodup) {q : Request}
    (hq : q ∈ won) :
    (r.bindings q.name).filter (·.1 = q.decl) = [(q.decl, q.origin)] ∧
      (r.namesOf q.decl).filter (·.1 = q.name) = [(q.name, q.origin)] := by
  have hsame : ∀ x ∈ won, (x.name = q.name ∧ x.decl = q.decl) ↔ x = q := by
    intro x hx
    constructor
    · rintro ⟨hn, hd⟩
      exact List.inj_on_of_nodup_map hnd hx hq (by rw [Request.pair, Request.pair, hn, hd])
    · rintro rfl
      exact ⟨rfl, rfl⟩
  have hone : ∀ p : Request → Bool, (∀ x ∈ won, p x ↔ x = q) → won.filter p = [q] := by
    intro p hp
    have hcongr : won.filter p = won.filter (· = q) :=
      List.filter_congr fun x hx => Bool.eq_iff_iff.mpr (by simpa using hp x hx)
    rw [hcongr, List.filter_eq, List.count_eq_one_of_mem hnd.of_map hq, List.replicate_one]
  constructor
  · rw [h.bindings, List.filter_map, List.filter_filter, hone, List.map_singleton]
    intro x hx
    rw [← hsame x hx]
    simp [and_comm]
  · rw [h.namesOf, List.filter_map, List.filter_filter, hone, List.map_singleton]
    intro x hx
    rw [← hsame x hx]
    simp

end Registry

/-- The file exports the declaration as `e`, which the barrel takes as `n`. -/
def Brings (fm : Path × ExportMap) (n : String) (decl : DeclId) (e : String) : Prop :=
  nameIn fm.1 e = n ∧ ∃ ids, (e, ids) ∈ fm.2.entries ∧ decl ∈ ids

/-- The file is the first one that brings the declaration under the name, and it exports it as `e` and
under no lesser name that the barrel takes as `n`. -/
def FirstBrings (fms : List (Path × ExportMap)) (n : String) (decl : DeclId) (file : Path)
    (e : String) : Prop :=
  ∃ before m after, fms = before ++ (file, m) :: after ∧
    (∀ fm ∈ before, ∀ e', ¬ Brings fm n decl e') ∧ Brings (file, m) n decl e ∧
    ∀ e', Brings (file, m) n decl e' → (compare e e').isLE

def Brought (fms : List (Path × ExportMap)) (p : String × DeclId) : Prop :=
  ∃ fm ∈ fms, ∃ e, Brings fm p.1 p.2 e

namespace Draft

theorem Answered.length_eq {t : FileTree} {l l' : Loader} {files : List Path} {ms : List ExportMap}
    (h : Answered t l files ms l') : files.length = ms.length := by
  induction h with
  | nil => rfl
  | cons _ _ ih => simp [ih]

theorem Answered.unique {t : FileTree} {l l₁ l₂ : Loader} {files : List Path}
    {ms ms' : List ExportMap} (h : Answered t l files ms l₁) (h' : Answered t l files ms' l₂) :
    ms = ms' := by
  induction h generalizing ms' with
  | nil => cases h' with
    | nil => rfl
  | cons hm _ ih => cases h' with
    | cons hm' h' =>
      cases hm.symm.trans hm'
      rw [ih h']

/-- A loader that answers about all files makes the draft. -/
theorem Answered.exec_foldlM_addFile {t : FileTree} {l l' : Loader} {files : List Path}
    {ms : List ExportMap} (h : Answered t l files ms l') (outDir : Path) (d : Draft) :
    ∃ d', Load.exec (files.foldlM
      (fun d file => do return d.addFile outDir file (← exportsOf t file)) d) l = (.ok d', l') := by
  induction h generalizing d with
  | nil l => exact ⟨d, rfl⟩
  | @cons l l₁ l' file files m ms hm _ ih =>
    obtain ⟨d', hd'⟩ := ih (d.addFile outDir file m)
    refine ⟨d', ?_⟩
    rw [List.foldlM_cons]
    refine Load.exec_bind_ok.mpr ⟨d.addFile outDir file m, l₁, ?_, hd'⟩
    rw [Load.exec_bind_of_ok hm]
    rfl

theorem Answered.exec_ofFiles {t : FileTree} {l l' : Loader} {files : List Path}
    {ms : List ExportMap} (h : Answered t l files ms l') (outDir : Path) :
    ∃ d, (ofFiles t outDir files).exec l = (.ok d, l') :=
  h.exec_foldlM_addFile outDir empty

theorem brings_of_mem_requests {outDir file : Path} {m : ExportMap} {q : Request}
    (hq : q ∈ requests outDir file m) : Brings (file, m) q.name q.decl q.exported := by
  obtain ⟨hn, _, hids⟩ := mem_requests hq
  exact ⟨hn.symm, hids⟩

theorem exists_request (outDir : Path) {fm : Path × ExportMap} {n e : String} {decl : DeclId}
    (h : Brings fm n decl e) :
    ⟨n, e, decl, specifierOf outDir fm.1⟩ ∈ requests outDir fm.1 fm.2 := by
  obtain ⟨rfl, ids, hids, hdecl⟩ := h
  refine List.mem_map.mpr ⟨⟨nameIn fm.1 e, e, decl⟩, ?_, rfl⟩
  refine List.mem_flatMap.mpr ⟨(e, ids), ?_, List.mem_map.mpr ⟨decl, hdecl, rfl⟩⟩
  rw [Table.sorted, List.mem_mergeSort]
  exact hids

/-- A file brings its exports in the order of their names. -/
theorem requests_ordered (outDir file : Path) (m : ExportMap) :
    (requests outDir file m).Pairwise fun q q' => (compare q.exported q'.exported).isLE := by
  have hsorted : m.sorted.Pairwise fun a b => (compare a.1 b.1).isLE :=
    pairwise_mergeSort_compare Prod.fst m.entries
  rw [requests, List.pairwise_map, exportList, List.pairwise_flatMap]
  constructor
  · rintro ⟨exported, ids⟩ _
    rw [List.pairwise_map]
    exact List.pairwise_of_forall fun _ _ => by simp
  · refine hsorted.imp ?_
    intro a b hab x hx y hy
    obtain ⟨_, _, rfl⟩ := List.mem_map.mp hx
    obtain ⟨_, _, rfl⟩ := List.mem_map.mp hy
    exact hab

/-- The first registration of a pair comes from the first file that brings it. -/
theorem firstBrings_of_find? {outDir : Path} {files : List Path} {ms : List ExportMap}
    {p : String × DeclId} {q : Request}
    (h : (allRequests outDir files ms).find? (·.pair = p) = some q) :
    ∃ file, FirstBrings (files.zip ms) p.1 p.2 file q.exported ∧
      q.origin = specifierOf outDir file := by
  have hp : q.pair = p := by simpa using List.find?_some h
  rw [allRequests, List.find?_flatMap, List.findSome?_eq_some_iff] at h
  obtain ⟨before, ⟨file, m⟩, after, hsplit, hfind, hbefore⟩ := h
  obtain ⟨_, earlier, later, hrequests, hearlier⟩ := List.find?_eq_some_iff_append.mp hfind
  have hq : q ∈ requests outDir file m := hrequests ▸ by simp
  refine ⟨file, ⟨before, m, after, hsplit, ?_, ?_, ?_⟩, (mem_requests hq).2.1⟩
  · intro fm hfm e' he'
    have := List.find?_eq_none.mp (hbefore fm hfm) _ (exists_request outDir he')
    simp [Request.pair] at this
  · rw [← hp]
    exact brings_of_mem_requests hq
  · intro e' he'
    have hmem := exists_request outDir he'
    have hord := requests_ordered outDir file m
    rw [hrequests] at hmem hord
    rcases List.mem_append.mp hmem with hmem | hmem
    · have := hearlier _ hmem
      simp [Request.pair] at this
    · rcases List.mem_cons.mp hmem with rfl | hmem
      · simp
      · have hle := List.rel_of_pairwise_cons (List.pairwise_append.mp hord).2.1 hmem
        exact hle

theorem brought_iff (outDir : Path) {files : List Path} {ms : List ExportMap}
    {p : String × DeclId} :
    Brought (files.zip ms) p ↔ ∃ q ∈ allRequests outDir files ms, q.pair = p := by
  constructor
  · rintro ⟨fm, hfm, e, he⟩
    exact ⟨_, List.mem_flatMap.mpr ⟨fm, hfm, exists_request outDir he⟩, rfl⟩
  · rintro ⟨q, hq, rfl⟩
    obtain ⟨fm, hfm, hq⟩ := List.mem_flatMap.mp hq
    exact ⟨fm, hfm, q.exported, brings_of_mem_requests hq⟩

/-- A pair that is brought has a registration that comes first. -/
theorem exists_first (outDir : Path) {files : List Path} {ms : List ExportMap}
    {p : String × DeclId} (h : Brought (files.zip ms) p) :
    ∃ q ∈ firstRequests (allRequests outDir files ms), q.pair = p := by
  obtain ⟨q, hq, hp⟩ := (brought_iff outDir).mp h
  cases hf : (allRequests outDir files ms).find? (·.pair = p) with
  | none =>
    have := List.find?_eq_none.mp hf q hq
    simp [hp] at this
  | some q' =>
    have hp' : q'.pair = p := by simpa using List.find?_some hf
    exact ⟨q', mem_firstRequests.mpr (hp' ▸ hf), hp'⟩

end Draft

/-- The registry holds the pair once on each side, from `o`, and its clause stands in the line of `o`. -/
structure HeldOnce (r : Registry) (n : String) (decl : DeclId) (o e : String) : Prop where
  by_name : (r.bindings n).filter (·.1 = decl) = [(decl, o)]
  by_decl : (r.namesOf decl).filter (·.1 = n) = [(n, o)]
  clause : ⟨e, n⟩ ∈ r.clauses o
  line : ∃ ln ∈ r.lines, ln.origin = o ∧
    clauseText e (Registry.published r.qualify o n) ∈ ln.written

theorem Registry.Indexes.heldOnce {r : Registry} {won : List Request} (h : r.Indexes won)
    (hs : r.Sound) (hnd : (won.map Request.pair).Nodup) {q : Request} (hq : q ∈ won) :
    HeldOnce r q.name q.decl q.origin q.exported := by
  have hclause : ⟨q.exported, q.name⟩ ∈ r.clauses q.origin := by
    rw [h.clauses]
    exact List.mem_map.mpr ⟨q, List.mem_filter.mpr ⟨hq, by simp⟩, rfl⟩
  refine ⟨(h.filter_eq hnd hq).1, (h.filter_eq hnd hq).2, hclause, ?_⟩
  obtain ⟨ln, hln, ho⟩ := hs.exists_line hclause
  refine ⟨ln, hln, ho, ?_⟩
  rw [Line.written, mem_firstOccurrences, List.mem_mergeSort, hs.mem_lines hln, ho]
  refine List.mem_map.mpr ⟨r.shownAs q.origin ⟨q.exported, q.name⟩, ?_, rfl⟩
  exact List.mem_map_of_mem hclause

instance : Std.ReflOrd Step where
  compare_self {s} := by
    cases s with
    | name n => exact Std.compare_self (α := String)
    | _ => rfl

theorem parentFirst_self (p : Path) : parentFirst p p = .eq := by
  have hpath : compare p p = compare p.steps p.steps := rfl
  simp [parentFirst, hpath]

/-- In files that stand parent first, the first one that brings a pair is the least that does. -/
theorem FirstBrings.least {files : List Path} {ms : List ExportMap} {n e : String} {decl : DeclId}
    {file : Path} (h : FirstBrings (files.zip ms) n decl file e) (hlen : files.length ≤ ms.length)
    (hord : files.Pairwise fun a b => (parentFirst a b).isLE) {fm : Path × ExportMap}
    (hfm : fm ∈ files.zip ms) {e' : String} (he : Brings fm n decl e') :
    (parentFirst file fm.1).isLE := by
  obtain ⟨before, m, after, hsplit, hbefore, _, _⟩ := h
  have hzip : (files.zip ms).Pairwise fun a b => (parentFirst a.1 b.1).isLE := by
    rw [← List.map_fst_zip hlen] at hord
    exact List.pairwise_map.mp hord
  rw [hsplit] at hfm hzip
  rcases List.mem_append.mp hfm with hfm | hfm
  · exact absurd he (hbefore fm hfm e')
  · rcases List.mem_cons.mp hfm with rfl | hfm
    · simp [parentFirst_self]
    · exact List.rel_of_pairwise_cons (List.pairwise_append.mp hzip).2.1 hfm

namespace Draft

/-- Of all files that bring a declaration under a name the first one is taken. The registry then holds
the pair once, from the specifier of that file and with the name that the file exports it as first; its
clause stands in the line of that specifier. Stored clauses and pairs that some file brings correspond
one to one. -/
theorem first_file_wins {t : FileTree} {outDir : Path} {files : List Path} {l l' : Loader} {d : Draft}
    (h : (ofFiles t outDir files).exec l = (.ok d, l')) (quote : QuoteStyle) :
    ∃ ms, Answered t l files ms l' ∧
      d.text quote = "\n".intercalate (d.registry.lines.map (Line.text quote)) ∧
      (∀ n decl, Brought (files.zip ms) (n, decl) →
        ∃ file e, FirstBrings (files.zip ms) n decl file e ∧
          HeldOnce d.registry n decl (specifierOf outDir file) e ∧
          (files.Pairwise (fun a b => (parentFirst a b).isLE) →
            ∀ fm ∈ files.zip ms, ∀ e', Brings fm n decl e' → (parentFirst file fm.1).isLE)) ∧
      (∀ n, ∀ b ∈ d.registry.bindings n, Brought (files.zip ms) (n, b.1)) ∧
      ∃ pairOf : d.registry.Slot → Subtype (Brought (files.zip ms)), Function.Bijective pairOf ∧
        ∀ s, ∃ file, FirstBrings (files.zip ms) (pairOf s).1.1 (pairOf s).1.2 file s.clause.exported ∧
          s.origin = specifierOf outDir file ∧ s.clause.name = (pairOf s).1.1 := by
  obtain ⟨ms, hanswered, hr⟩ := exec_ofFiles h
  have hs : d.registry.Sound := hr ▸ Registry.sound_empty.enterAll _
  have hi : d.registry.Indexes (firstRequests (allRequests outDir files ms)) :=
    hr ▸ Registry.indexes_firstRequests _
  have hnd := nodup_firstRequests (allRequests outDir files ms)
  -- Each registration that came first is of the first file that brings its pair.
  have hfirst : ∀ q ∈ firstRequests (allRequests outDir files ms),
      ∃ file, FirstBrings (files.zip ms) q.name q.decl file q.exported ∧
        q.origin = specifierOf outDir file :=
    fun q hq => firstBrings_of_find? (mem_firstRequests.mp hq)
  have hbrought : ∀ q ∈ firstRequests (allRequests outDir files ms),
      Brought (files.zip ms) q.pair :=
    fun q hq => (brought_iff outDir).mpr ⟨q, List.mem_of_find?_eq_some (mem_firstRequests.mp hq), rfl⟩
  refine ⟨ms, hanswered, by rw [text, Registry.render_eq_lines], ?_, ?_, ?_⟩
  · intro n decl hpair
    obtain ⟨q, hq, hp⟩ := exists_first outDir hpair
    cases hp
    obtain ⟨file, hfile, horigin⟩ := hfirst q hq
    refine ⟨file, q.exported, hfile, horigin ▸ hi.heldOnce hs hnd hq, ?_⟩
    intro hord fm hfm e' he'
    exact hfile.least (Nat.le_of_eq hanswered.length_eq) hord hfm he'
  · rintro n ⟨decl, o⟩ hb
    obtain ⟨q, hq, hp, _⟩ := hi.mem_bindings.mp hb
    exact hp ▸ hbrought q hq
  · refine ⟨fun s => ⟨(hi.requestAt s).pair, hbrought _ (hi.mem_requestAt s).1⟩, ⟨?_, ?_⟩, ?_⟩
    · intro s s' e
      have hpair : (hi.requestAt s).pair = (hi.requestAt s').pair := congrArg Subtype.val e
      have hq := List.inj_on_of_nodup_map hnd (hi.mem_requestAt s).1 (hi.mem_requestAt s').1 hpair
      exact hi.requestAt_injective hnd.of_map hq
    · rintro ⟨p, hpair⟩
      obtain ⟨q, hq, rfl⟩ := exists_first outDir hpair
      obtain ⟨s, rfl⟩ := hi.exists_slot hq
      exact ⟨s, rfl⟩
    · intro s
      obtain ⟨hmem, ho⟩ := hi.mem_requestAt s
      obtain ⟨file, hfile, horigin⟩ := hfirst _ hmem
      refine ⟨file, ?_, ho ▸ horigin, ?_⟩
      · rw [hi.clause_eq]
        exact hfile
      · rw [hi.clause_eq]
        rfl

/-- A declaration that two files export under one name: the one that declares it, and an index file. -/
def sharedExport : FileTree :=
  ⟨⟨[(["a.ts"], .file (.text "export{x}")), (["index.ts"], .file (.text "export{x}from'./a'"))]⟩⟩

theorem sharedExport_answered : ∃ m m' l',
    Answered sharedExport .empty [⟨true, ["index.ts"]⟩, ⟨true, ["a.ts"]⟩] [m, m'] l' ∧
      m.entries = [("x", [0])] ∧ m'.entries = [("x", [0])] := by
  let asked : Load (List (String × List DeclId) × List (String × List DeclId)) := do
    let m ← exportsOf sharedExport ⟨true, ["index.ts"]⟩
    let m' ← exportsOf sharedExport ⟨true, ["a.ts"]⟩
    return (m.entries, m'.entries)
  have h : (asked.exec .empty).1.toOption = some ([("x", [0])], [("x", [0])]) := by decide +kernel
  rcases hx : asked.exec .empty with ⟨r, l'⟩
  rw [hx] at h
  cases r with
  | error e => simp [Except.toOption] at h
  | ok ms =>
    have hms : ms = ([("x", [0])], [("x", [0])]) := by simpa [Except.toOption] using h
    subst hms
    obtain ⟨m, l₁, hm, hx⟩ := Load.exec_bind_ok.mp hx
    obtain ⟨m', l₂, hm', hx⟩ := Load.exec_bind_ok.mp hx
    simp only [Load.exec_pure, Prod.mk.injEq, Except.ok.injEq] at hx
    exact ⟨m, m', l₂, .cons hm (.cons hm' (.nil l₂)), hx.1.1, hx.1.2⟩

/-- The barrel of those files takes the declaration from the index file alone. -/
theorem sharedExport_from_index : ∃ d l',
    (ofFiles sharedExport .top [⟨true, ["index.ts"]⟩, ⟨true, ["a.ts"]⟩]).exec .empty = (.ok d, l') ∧
      (parentFirst ⟨true, ["index.ts"]⟩ ⟨true, ["a.ts"]⟩).isLE ∧
      HeldOnce d.registry "x" 0 "." "x" := by
  obtain ⟨m, m', l', hanswered, hm, hm'⟩ := sharedExport_answered
  obtain ⟨d, hd⟩ := hanswered.exec_ofFiles .top
  refine ⟨d, l', hd, by decide, ?_⟩
  obtain ⟨ms, hms, _, hwins, _⟩ := first_file_wins hd .double
  cases hanswered.unique hms
  have hx : Brings (⟨true, ["index.ts"]⟩, m) "x" 0 "x" := ⟨rfl, [0], by simp [hm], by simp⟩
  obtain ⟨file, e, ⟨before, _, _, hsplit, hbefore, he, _⟩, hheld, _⟩ :=
    hwins "x" 0 ⟨_, List.mem_cons_self, "x", hx⟩
  cases before with
  | cons fm before =>
    have hfm : (⟨true, ["index.ts"]⟩, m) = fm := (List.cons.inj hsplit).1
    exact absurd hx (hbefore _ (hfm ▸ List.mem_cons_self) "x")
  | nil =>
    cases hsplit
    obtain ⟨_, ids, hids, _⟩ := he
    have he : e = "x" := by
      rw [hm] at hids
      simpa using congrArg Prod.fst (List.mem_singleton.mp hids)
    have hspecifier : specifierOf .top ⟨true, ["index.ts"]⟩ = "." := by decide +kernel
    rw [he, hspecifier] at hheld
    exact hheld

end Draft

end BarrelAlias.Barrel
