import BarrelAlias.Proofs.Decoding

/-!
What is reported about overloaded names. The report grows while exports are registered, and is never
looked at again; the registry decides from what it holds at that moment. Still the two agree in the end:
a name is in the report exactly if it is overloaded, which is the case exactly if two of its declarations
were first brought from different origins, and the last entry about it lists all of its origins.
-/

namespace BarrelAlias.Barrel

open Linkage (ExportMap Load Loader exportsOf)

namespace Registry

theorem originsOf_bindRequest (r : Registry) (q : Request) (n : String) :
    (r.bindRequest q).originsOf n =
      if n = q.name ∧ q.origin ∉ r.originsOf n then r.originsOf n ++ [q.origin]
      else r.originsOf n := by
  unfold originsOf
  rw [bindings_bindRequest]
  by_cases hn : n = q.name
  · rw [if_pos hn, List.map_append, List.map_singleton, firstOccurrences_concat]
    by_cases hold : q.origin ∈ firstOccurrences ((r.bindings n).map (·.2))
    · rw [if_pos hold, if_neg fun h => h.2 hold]
    · rw [if_neg hold, if_pos ⟨hn, hold⟩]
  · rw [if_neg hn, if_neg fun h => hn h.1]

@[simp] theorem originsOf_markOverloaded (r : Registry) (m n : String) :
    (r.markOverloaded m).originsOf n = r.originsOf n := rfl

/-- What a registration finds, beside what it does to the registry. -/
theorem register_cases (r : Registry) (q : Request) :
    ((∀ previous, (r.register q.name q.exported q.decl q.origin).1 ≠ .conflict previous) ∧
      r.enter q = r) ∨
    ((∀ previous, (r.register q.name q.exported q.decl q.origin).1 ≠ .conflict previous) ∧
      (q.name ∉ r.names.keys ∨ q.origin ∈ r.originsOf q.name) ∧ r.enter q = r.bindRequest q) ∨
    ((r.register q.name q.exported q.decl q.origin).1 = .conflict (r.originsOf q.name) ∧
      q.name ∈ r.names.keys ∧ q.origin ∉ r.originsOf q.name ∧
      r.enter q = (r.bindRequest q).markOverloaded q.name) := by
  unfold enter register
  cases hk : r.names.find? q.name with
  | none =>
    refine Or.inr (Or.inl ⟨?_, Or.inl ((Table.find?_eq_none_iff _ _).mp hk), rfl⟩)
    intro previous
    dsimp only
    split <;> simp
  | some known =>
    have horigins : r.originsOf q.name = firstOccurrences (known.map (·.2)) := by
      simp [originsOf, bindings, hk]
    dsimp only
    cases hd : known.find? (fun b => decide (b.1 = q.decl)) with
    | some b => exact Or.inl ⟨by simp, rfl⟩
    | none =>
      have hany : known.any (fun b => decide (b.2 = q.origin)) ↔ q.origin ∈ r.originsOf q.name := by
        rw [horigins, mem_firstOccurrences, List.any_eq_true, List.mem_map]
        simp
      by_cases ho : q.origin ∈ r.originsOf q.name
      · simp only [hany.mpr ho, ↓reduceIte]
        exact Or.inr (Or.inl ⟨by simp, Or.inr ho, rfl⟩)
      · simp only [mt hany.mp ho, Bool.false_eq_true, ↓reduceIte]
        exact Or.inr (Or.inr ⟨by rw [horigins], (Table.mem_keys_iff _ _).mpr ⟨known, hk⟩, ho, rfl⟩)

end Registry

namespace Draft

theorem add_of_conflict {o : String} {d : Draft} {e : Export} {previous : List String}
    (h : (d.registry.register e.name e.exported e.decl o).1 = .conflict previous) :
    (add o d e).conflicts = d.conflicts ++ [⟨e.name, previous ++ [o]⟩] := by
  unfold add
  generalize d.registry.register e.name e.exported e.decl o = found at h ⊢
  obtain ⟨found, r⟩ := found
  cases h
  rfl

theorem add_of_no_conflict {o : String} {d : Draft} {e : Export}
    (h : ∀ previous, (d.registry.register e.name e.exported e.decl o).1 ≠ .conflict previous) :
    (add o d e).conflicts = d.conflicts := by
  unfold add
  generalize d.registry.register e.name e.exported e.decl o = found at h ⊢
  obtain ⟨found, r⟩ := found
  cases found with
  | conflict previous => exact absurd rfl (h previous)
  | fresh => rfl
  | also names => rfl
  | duplicate first => rfl
  | sameFile => rfl

/-- All that adding an export can do: it reports nothing and marks nothing, or it marks its name as
overloaded and reports it with all of its origins, the new one last. -/
theorem add_cases (o : String) (d : Draft) (e : Export) :
    ((add o d e).conflicts = d.conflicts ∧
      ((add o d e).registry = d.registry ∨
        (e.name ∉ d.registry.names.keys ∨ o ∈ d.registry.originsOf e.name) ∧
          (add o d e).registry = d.registry.bindRequest ⟨e.name, e.exported, e.decl, o⟩)) ∨
    ((add o d e).conflicts = d.conflicts ++ [⟨e.name, d.registry.originsOf e.name ++ [o]⟩] ∧
      e.name ∈ d.registry.names.keys ∧ o ∉ d.registry.originsOf e.name ∧
      (add o d e).registry =
        (d.registry.bindRequest ⟨e.name, e.exported, e.decl, o⟩).markOverloaded e.name) := by
  rw [registry_add]
  rcases d.registry.register_cases ⟨e.name, e.exported, e.decl, o⟩ with
    ⟨hno, hr⟩ | ⟨hno, hknown, hr⟩ | ⟨hconflict, hn, ho, hr⟩
  · exact Or.inl ⟨add_of_no_conflict hno, Or.inl hr⟩
  · exact Or.inl ⟨add_of_no_conflict hno, Or.inr ⟨hknown, hr⟩⟩
  · exact Or.inr ⟨add_of_conflict hconflict, hn, ho, hr⟩

end Draft

def lastAbout? (cs : List Conflict) (n : String) : Option Conflict :=
  (cs.filter (·.name = n)).getLast?

theorem lastAbout?_append (cs : List Conflict) (c : Conflict) (n : String) :
    lastAbout? (cs ++ [c]) n = if n = c.name then some c else lastAbout? cs n := by
  unfold lastAbout?
  rw [List.filter_append]
  by_cases hn : n = c.name
  · simp [hn]
  · simp [hn, Ne.symm hn]

/-- The report agrees with the registry: the last entry about an overloaded name lists its origins, of
which there are two, and there is no entry about other names. -/
structure Reported (r : Registry) (cs : List Conflict) : Prop where
  sound : r.Sound
  held : ∀ n ∈ r.names.keys, r.originsOf n ≠ []
  two_origins : ∀ n ∈ r.overloaded, ∃ o ∈ r.originsOf n, ∃ o' ∈ r.originsOf n, o ≠ o'
  last : ∀ n, lastAbout? cs n = if n ∈ r.overloaded then some ⟨n, r.originsOf n⟩ else none

section

variable {r : Registry} {cs : List Conflict}

theorem reported_empty : Reported .empty [] where
  sound := Registry.sound_empty
  held := by simp [Registry.empty, Table.empty, Table.keys]
  two_origins := by simp [Registry.empty]
  last := by simp [Registry.empty, lastAbout?]

theorem Reported.held_bindRequest (h : Reported r cs) (q : Request) {n : String}
    (hn : n ∈ (r.bindRequest q).names.keys) : (r.bindRequest q).originsOf n ≠ [] := by
  rw [Registry.originsOf_bindRequest]
  split
  · simp
  · next hno =>
    rcases (Table.mem_keys_insert _ _ _ _).mp hn with rfl | hn
    · intro hnil
      exact hno ⟨rfl, by simp [hnil]⟩
    · exact h.held n hn

/-- An entry under a name that is new, or that its origin already brings, changes nothing about the
origins of overloaded names. -/
theorem Reported.bindRequest (h : Reported r cs) {q : Request}
    (hq : q.name ∉ r.names.keys ∨ q.origin ∈ r.originsOf q.name) (hs : (r.bindRequest q).Sound) :
    Reported (r.bindRequest q) cs := by
  have hsame : ∀ n ∈ r.overloaded, (r.bindRequest q).originsOf n = r.originsOf n := by
    intro n hn
    rw [Registry.originsOf_bindRequest, if_neg]
    rintro ⟨rfl, hnew⟩
    rcases hq with hq | hq
    · exact hq (h.sound.overloaded_named _ hn)
    · exact hnew hq
  refine ⟨hs, fun n => h.held_bindRequest q, ?_, ?_⟩
  · intro n hn
    rw [Registry.overloaded_bindRequest] at hn
    rw [hsame n hn]
    exact h.two_origins n hn
  · intro n
    rw [h.last, Registry.overloaded_bindRequest]
    by_cases hn : n ∈ r.overloaded
    · rw [if_pos hn, if_pos hn, hsame n hn]
    · rw [if_neg hn, if_neg hn]

/-- The report has an entry about exactly the overloaded names. -/
theorem Reported.exists_conflict_iff (h : Reported r cs) (n : String) :
    (∃ c ∈ cs, c.name = n) ↔ n ∈ r.overloaded := by
  have hlast : lastAbout? cs n = none ↔ ¬ ∃ c ∈ cs, c.name = n := by
    simp [lastAbout?]
  rw [h.last] at hlast
  by_cases hn : n ∈ r.overloaded
  · rw [if_pos hn] at hlast
    simpa [hn] using hlast
  · rw [if_neg hn] at hlast
    simpa [hn] using hlast

/-- An entry from a new origin under a name that is there is reported with all origins of the name. -/
theorem Reported.markOverloaded (h : Reported r cs) {q : Request} (hn : q.name ∈ r.names.keys)
    (ho : q.origin ∉ r.originsOf q.name) (hs : ((r.bindRequest q).markOverloaded q.name).Sound) :
    Reported ((r.bindRequest q).markOverloaded q.name)
      (cs ++ [⟨q.name, r.originsOf q.name ++ [q.origin]⟩]) := by
  have hown : (r.bindRequest q).originsOf q.name = r.originsOf q.name ++ [q.origin] := by
    rw [Registry.originsOf_bindRequest, if_pos ⟨rfl, ho⟩]
  have hother : ∀ n, n ≠ q.name → (r.bindRequest q).originsOf n = r.originsOf n := by
    intro n hne
    rw [Registry.originsOf_bindRequest, if_neg fun h => hne h.1]
  refine ⟨hs, fun n => h.held_bindRequest q, ?_, ?_⟩
  · intro n hmem
    rw [Registry.mem_overloaded_markOverloaded] at hmem
    rw [Registry.originsOf_markOverloaded]
    by_cases he : n = q.name
    · subst he
      obtain ⟨o, hold⟩ := List.exists_mem_of_ne_nil _ (h.held _ hn)
      rw [hown]
      exact ⟨o, by simp [hold], q.origin, by simp, fun heq => ho (heq ▸ hold)⟩
    · rw [hother n he]
      exact h.two_origins n (hmem.resolve_left he)
  · intro n
    rw [lastAbout?_append, h.last]
    simp only [Registry.mem_overloaded_markOverloaded, Registry.overloaded_bindRequest,
      Registry.originsOf_markOverloaded]
    by_cases he : n = q.name
    · subst he
      rw [if_pos rfl, if_pos (Or.inl rfl), hown]
    · rw [if_neg he, hother n he]
      simp only [he, false_or]

end

namespace Draft

theorem reported_add {d : Draft} (h : Reported d.registry d.conflicts) (o : String) (e : Export) :
    Reported (add o d e).registry (add o d e).conflicts := by
  have hsound : (add o d e).registry.Sound := by
    rw [registry_add]
    exact h.sound.enter _
  rcases add_cases o d e with ⟨hc, hr | ⟨hq, hr⟩⟩ | ⟨hc, hn, ho, hr⟩
  · rw [hc, hr]
    exact h
  · rw [hr] at hsound
    rw [hc, hr]
    exact h.bindRequest hq hsound
  · rw [hr] at hsound
    rw [hc, hr]
    exact h.markOverloaded hn ho hsound

/-- What adding an export keeps holds of the barrel of any files. -/
theorem ofFiles_keeps {P : Draft → Prop} (hempty : P empty) (hadd : ∀ o d e, P d → P (add o d e))
    {t : FileTree} {outDir : Path} {files : List Path} {l l' : Loader} {d : Draft}
    (h : (ofFiles t outDir files).exec l = (.ok d, l')) : P d := by
  have hfile : ∀ file m d, P d → P (d.addFile outDir file m) := by
    intro file m d hd
    unfold addFile
    generalize exportList file m = es
    induction es generalizing d with
    | nil => exact hd
    | cons e es ih => exact ih (add _ d e) (hadd _ d e hd)
  unfold ofFiles at h
  generalize empty = start at hempty h
  induction files generalizing start l with
  | nil =>
    cases h
    exact hempty
  | cons file files ih =>
    rw [List.foldlM_cons] at h
    obtain ⟨d₁, l₁, h₁, h⟩ := Load.exec_bind_ok.mp h
    obtain ⟨m, l₂, _, h₁⟩ := Load.exec_bind_ok.mp h₁
    cases h₁
    exact ih _ (hfile file m start hempty) h

theorem reported_ofFiles {t : FileTree} {outDir : Path} {files : List Path} {l l' : Loader}
    {d : Draft} (h : (ofFiles t outDir files).exec l = (.ok d, l')) :
    Reported d.registry d.conflicts :=
  ofFiles_keeps (P := fun d => Reported d.registry d.conflicts) reported_empty
    (fun o _ e hd => reported_add hd o e) h

end Draft

theorem firstOccurrences_append_of_const {xs ys : List String} {o : String} (h : ∀ y ∈ ys, y = o) :
    (firstOccurrences (xs ++ ys)).Sublist (firstOccurrences xs ++ [o]) := by
  cases ys with
  | nil =>
    rw [List.append_nil]
    exact List.sublist_append_left _ _
  | cons y ys =>
    obtain ⟨rfl, hys⟩ := List.forall_mem_cons.mp h
    have hrest : ∀ zs : List String, (∀ z ∈ zs, z = y) →
        firstOccurrences ((xs ++ [y]) ++ zs) = firstOccurrences (xs ++ [y]) := by
      intro zs hzs
      induction zs using List.reverseRecOn with
      | nil => rw [List.append_nil]
      | append_singleton zs z ih =>
        have hz : z = y := hzs z (by simp)
        rw [← List.append_assoc, firstOccurrences_concat, ih fun z' hz' => hzs z' (by simp [hz']),
          if_pos (by simp [hz])]
    rw [List.append_cons, hrest ys hys, firstOccurrences_concat]
    split
    · exact List.sublist_append_left _ _
    · exact List.Sublist.refl _

/-- What is let in stands behind what was there. -/
theorem foldl_letIn_eq (won qs : List Request) :
    ∃ more, qs.foldl letIn won = won ++ more ∧ ∀ q ∈ more, q ∈ qs := by
  induction qs using List.reverseRecOn with
  | nil => exact ⟨[], by simp, by simp⟩
  | append_singleton qs q ih =>
    obtain ⟨more, hmore, hsub⟩ := ih
    rw [List.foldl_append, List.foldl_cons, List.foldl_nil, hmore, letIn]
    split
    · exact ⟨more, rfl, fun q' hq' => List.mem_append_left _ (hsub q' hq')⟩
    · refine ⟨more ++ [q], by rw [List.append_assoc], ?_⟩
      intro q' hq'
      rcases List.mem_append.mp hq' with hq' | hq'
      · exact List.mem_append_left _ (hsub q' hq')
      · exact List.mem_append_right _ hq'

theorem Registry.Indexes.originsOf_eq {r : Registry} {won : List Request} (h : r.Indexes won)
    (n : String) :
    r.originsOf n = firstOccurrences ((won.filter (·.name = n)).map Request.origin) := by
  rw [originsOf, h.bindings, List.map_map]
  rfl

namespace Draft

/-- The origins of a name stand in the order of the files. -/
theorem origins_sublist (outDir : Path) (fms : List (Path × ExportMap)) (n : String) :
    (firstOccurrences (((firstRequests (fms.flatMap fun fm => requests outDir fm.1 fm.2)).filter
      (·.name = n)).map Request.origin)).Sublist (fms.map fun fm => specifierOf outDir fm.1) := by
  induction fms using List.reverseRecOn with
  | nil => exact List.Sublist.refl _
  | append_singleton fms fm ih =>
    rw [List.flatMap_append, List.flatMap_singleton, firstRequests, List.foldl_append]
    obtain ⟨more, hmore, hsub⟩ := foldl_letIn_eq
      ((fms.flatMap fun fm => requests outDir fm.1 fm.2).foldl letIn []) (requests outDir fm.1 fm.2)
    rw [hmore, List.filter_append, List.map_append, List.map_append]
    refine (firstOccurrences_append_of_const ?_).trans (ih.append_right _)
    intro o ho
    obtain ⟨q, hq, rfl⟩ := List.mem_map.mp ho
    exact (mem_requests (hsub q (List.mem_filter.mp hq).1)).2.1

end Draft

/-- There is one first file that brings a declaration under a name. -/
theorem FirstBrings.file_unique {fms : List (Path × ExportMap)} {n : String} {decl : DeclId}
    {file file' : Path} {e e' : String} (h : FirstBrings fms n decl file e)
    (h' : FirstBrings fms n decl file' e') : file = file' := by
  classical
  obtain ⟨before, m, after, hsplit, hbefore, he, _⟩ := h
  obtain ⟨before', m', after', hsplit', hbefore', he', _⟩ := h'
  have hfind : fms.find? (fun fm => decide (∃ e, Brings fm n decl e)) = some (file, m) :=
    List.find?_eq_some_iff_append.mpr
      ⟨decide_eq_true ⟨e, he⟩, before, after, hsplit, by simpa using hbefore⟩
  have hfind' : fms.find? (fun fm => decide (∃ e, Brings fm n decl e)) = some (file', m') :=
    List.find?_eq_some_iff_append.mpr
      ⟨decide_eq_true ⟨e', he'⟩, before', after', hsplit', by simpa using hbefore'⟩
  rw [hfind] at hfind'
  cases hfind'
  rfl

theorem FirstBrings.brought {fms : List (Path × ExportMap)} {n : String} {decl : DeclId} {file : Path}
    {e : String} (h : FirstBrings fms n decl file e) : Brought fms (n, decl) := by
  obtain ⟨before, m, after, hsplit, _, he, _⟩ := h
  exact ⟨(file, m), by simp [hsplit], e, he⟩

def Registry.Carries (r : Registry) (o n : String) : Prop :=
  ∃ e, ⟨e, n⟩ ∈ r.clauses o ∧
    ∃ ln ∈ r.lines, ln.origin = o ∧ clauseText e (published r.qualify o n) ∈ ln.written

namespace Draft

section

variable {r : Registry} {outDir : Path} {files : List Path} {ms : List ExportMap} {n o : String}

/-- A name holds each of its declarations from the first file that brings it. -/
theorem mem_bindings_iff (hi : r.Indexes (firstRequests (allRequests outDir files ms)))
    {decl : DeclId} :
    (decl, o) ∈ r.bindings n ↔
      ∃ file e, FirstBrings (files.zip ms) n decl file e ∧ specifierOf outDir file = o := by
  rw [hi.mem_bindings]
  constructor
  · rintro ⟨q, hq, hpair, rfl⟩
    obtain ⟨file, hfile, horigin⟩ := firstBrings_of_find? (mem_firstRequests.mp hq)
    rw [hpair] at hfile
    exact ⟨file, q.exported, hfile, horigin.symm⟩
  · rintro ⟨file, e, hfile, rfl⟩
    obtain ⟨q, hq, hpair⟩ := exists_first outDir hfile.brought
    obtain ⟨file', hfile', horigin⟩ := firstBrings_of_find? (mem_firstRequests.mp hq)
    rw [hpair] at hfile'
    exact ⟨q, hq, hpair, by rw [horigin, hfile'.file_unique hfile]⟩

/-- A name is overloaded exactly if two of its declarations come from different origins. -/
theorem mem_overloaded_iff {cs : List Conflict} (h : Reported r cs) :
    n ∈ r.overloaded ↔
      ∃ decl o decl' o', (decl, o) ∈ r.bindings n ∧ (decl', o') ∈ r.bindings n ∧ o ≠ o' := by
  constructor
  · intro hn
    obtain ⟨o, ho, o', ho', hne⟩ := h.two_origins n hn
    obtain ⟨decl, hd⟩ := Registry.mem_originsOf.mp ho
    obtain ⟨decl', hd'⟩ := Registry.mem_originsOf.mp ho'
    exact ⟨decl, o, decl', o', hd, hd', hne⟩
  · rintro ⟨decl, o, decl', o', hd, hd', hne⟩
    by_contra hn
    exact hne (h.sound.one_origin n hn _ hd _ hd')

/-- The origins of a name are those whose lines show it. -/
theorem mem_originsOf_iff_carries (hs : r.Sound)
    (hi : r.Indexes (firstRequests (allRequests outDir files ms))) :
    o ∈ r.originsOf n ↔ r.Carries o n := by
  rw [Registry.mem_originsOf]
  constructor
  · rintro ⟨decl, hd⟩
    obtain ⟨q, hq, hpair, rfl⟩ := hi.mem_bindings.mp hd
    cases hpair
    have hheld := hi.heldOnce hs (nodup_firstRequests _) hq
    exact ⟨q.exported, hheld.clause, hheld.line⟩
  · rintro ⟨e, hc, _⟩
    exact hs.bound o _ hc

end

/-- For the barrel of any files and any name: the name is in the report exactly if it is overloaded, and
that is the case exactly if two of its declarations were first brought from different origins; the
clauses of a name are published under given names exactly if it is overloaded. The last entry about an
overloaded name lists the origins whose lines show it, each once and in the order of the files. A name
that only ever stands for one declaration is published as it is. -/
theorem conflicts_exact {t : FileTree} {outDir : Path} {files : List Path} {l l' : Loader} {d : Draft}
    (h : (ofFiles t outDir files).exec l = (.ok d, l')) :
    ∃ ms, Answered t l files ms l' ∧ ∀ n,
      ((∃ c ∈ d.conflicts, c.name = n) ↔ d.registry.isOverloaded n) ∧
      (d.registry.isOverloaded n ↔ ∃ decl file e decl' file' e',
        FirstBrings (files.zip ms) n decl file e ∧ FirstBrings (files.zip ms) n decl' file' e' ∧
        specifierOf outDir file ≠ specifierOf outDir file') ∧
      (∀ o e, ⟨e, n⟩ ∈ d.registry.clauses o →
        (d.registry.isOverloaded n ↔ (d.registry.qualify.aliases.find? (o, n)).isSome)) ∧
      (d.registry.isOverloaded n → ∃ c, (d.conflicts.filter (·.name = n)).getLast? = some c ∧
        c.origins.Nodup ∧ c.origins.Sublist (files.map (specifierOf outDir)) ∧
        ∀ o, o ∈ c.origins ↔ d.registry.Carries o n) ∧
      ((∀ decl decl', Brought (files.zip ms) (n, decl) → Brought (files.zip ms) (n, decl') →
          decl = decl') →
        ¬ d.registry.isOverloaded n ∧ ∀ o, Registry.published d.registry.qualify o n = n) := by
  have hrep : Reported d.registry d.conflicts := reported_ofFiles h
  obtain ⟨ms, hanswered, hr⟩ := exec_ofFiles h
  have hi : d.registry.Indexes (firstRequests (allRequests outDir files ms)) :=
    hr ▸ Registry.indexes_firstRequests _
  refine ⟨ms, hanswered, fun n => ?_⟩
  have hover : d.registry.isOverloaded n ↔ n ∈ d.registry.overloaded := by
    simp [Registry.isOverloaded]
  simp only [hover]
  refine ⟨hrep.exists_conflict_iff n, ?_, ?_, ?_, ?_⟩
  · rw [mem_overloaded_iff hrep]
    constructor
    · rintro ⟨decl, o, decl', o', hd, hd', hne⟩
      obtain ⟨file, e, hfile, rfl⟩ := (mem_bindings_iff hi).mp hd
      obtain ⟨file', e', hfile', rfl⟩ := (mem_bindings_iff hi).mp hd'
      exact ⟨decl, file, e, decl', file', e', hfile, hfile', hne⟩
    · rintro ⟨decl, file, e, decl', file', e', hfile, hfile', hne⟩
      exact ⟨decl, _, decl', _, (mem_bindings_iff hi).mpr ⟨file, e, hfile, rfl⟩,
        (mem_bindings_iff hi).mpr ⟨file', e', hfile', rfl⟩, hne⟩
  · intro o e hc
    rw [Registry.has_qualify, Registry.mem_overloadedNames hrep.sound]
    have ho := Registry.mem_originsOf.mpr (hrep.sound.bound o _ hc)
    exact (and_iff_left ho).symm
  · intro hn
    have hlast := hrep.last n
    rw [if_pos hn] at hlast
    refine ⟨_, hlast, nodup_firstOccurrences _, ?_, fun o => mem_originsOf_iff_carries hrep.sound hi⟩
    have hsub := origins_sublist outDir (files.zip ms) n
    have hfiles : ((files.zip ms).map Prod.fst).map (specifierOf outDir) =
        files.map (specifierOf outDir) := by
      rw [List.map_fst_zip (Nat.le_of_eq hanswered.length_eq)]
    rw [List.map_map, Function.comp_def] at hfiles
    rw [hfiles] at hsub
    dsimp only
    rw [hi.originsOf_eq n]
    exact hsub
  · intro hone
    have hn : n ∉ d.registry.overloaded := by
      rw [mem_overloaded_iff hrep]
      rintro ⟨decl, o, decl', o', hd, hd', hne⟩
      obtain ⟨file, e, hfile, rfl⟩ := (mem_bindings_iff hi).mp hd
      obtain ⟨file', e', hfile', rfl⟩ := (mem_bindings_iff hi).mp hd'
      cases hone decl decl' hfile.brought hfile'.brought
      exact hne (by rw [hfile.file_unique hfile'])
    exact ⟨hn, fun o => Registry.published_plain hrep.sound o hn⟩

/-- Two files with a declaration of their own under one name, and a third that passes on the first: it
brings nothing new under that name, nor under one that only the first file has. -/
def rivalFiles : FileTree := ⟨⟨[
  (["a.ts"], .file (.text "export{x,y}")),
  (["b.ts"], .file (.text "export*from'./a'")),
  (["c.ts"], .file (.text "export{x}"))]⟩⟩

theorem rivalFiles_answered : ∃ m m' m'' l',
    Answered rivalFiles .empty [⟨true, ["a.ts"]⟩, ⟨true, ["b.ts"]⟩, ⟨true, ["c.ts"]⟩] [m, m', m'']
      l' ∧
    m.entries = [("x", [0]), ("y", [1])] ∧ m'.entries = [("x", [0]), ("y", [1])] ∧
      m''.entries = [("x", [2])] := by
  let asked : Load (List (List (String × List DeclId))) := do
    let m ← exportsOf rivalFiles ⟨true, ["a.ts"]⟩
    let m' ← exportsOf rivalFiles ⟨true, ["b.ts"]⟩
    let m'' ← exportsOf rivalFiles ⟨true, ["c.ts"]⟩
    return [m.entries, m'.entries, m''.entries]
  have h : (asked.exec .empty).1.toOption =
      some [[("x", [0]), ("y", [1])], [("x", [0]), ("y", [1])], [("x", [2])]] := by decide +kernel
  rcases hx : asked.exec .empty with ⟨r, l'⟩
  rw [hx] at h
  cases r with
  | error e => simp [Except.toOption] at h
  | ok ms =>
    have hms : ms = [[("x", [0]), ("y", [1])], [("x", [0]), ("y", [1])], [("x", [2])]] := by
      simpa [Except.toOption] using h
    subst hms
    obtain ⟨m, l₁, hm, hx⟩ := Load.exec_bind_ok.mp hx
    obtain ⟨m', l₂, hm', hx⟩ := Load.exec_bind_ok.mp hx
    obtain ⟨m'', l₃, hm'', hx⟩ := Load.exec_bind_ok.mp hx
    simp only [Load.exec_pure, Prod.mk.injEq, Except.ok.injEq, List.cons.injEq] at hx
    obtain ⟨⟨he, he', he'', _⟩, _⟩ := hx
    exact ⟨m, m', m'', l₃, .cons hm (.cons hm' (.cons hm'' (.nil l₃))), he, he', he''⟩

/-- The barrel of those files reports `x` from the first and the last of them, and does not qualify
`y`. -/
theorem rivalFiles_reported : ∃ d l',
    (ofFiles rivalFiles .top [⟨true, ["a.ts"]⟩, ⟨true, ["b.ts"]⟩, ⟨true, ["c.ts"]⟩]).exec .empty =
      (.ok d, l') ∧
    (∃ c ∈ d.conflicts, c.name = "x") ∧ d.registry.isOverloaded "x" ∧
    ¬ d.registry.isOverloaded "y" := by
  obtain ⟨m, m', m'', l', hanswered, hm, hm', hm''⟩ := rivalFiles_answered
  obtain ⟨d, hd⟩ := hanswered.exec_ofFiles .top
  obtain ⟨ms, hms, hexact⟩ := conflicts_exact hd
  cases hanswered.unique hms
  have hpair : ∀ (k : ExportMap) f n decl e, k.entries = [("x", [0]), ("y", [1])] →
      Brings (f, k) n decl e → e = n ∧ (n = "x" ∧ decl = 0 ∨ n = "y" ∧ decl = 1) := by
    rintro k f n decl e hk ⟨rfl, ids, hids, hdecl⟩
    rw [hk] at hids
    simp only [List.mem_cons, Prod.mk.injEq, List.not_mem_nil, or_false] at hids
    rcases hids with ⟨rfl, rfl⟩ | ⟨rfl, rfl⟩ <;> simpa [nameIn] using hdecl
  have hone : ∀ f n decl e, Brings (f, m'') n decl e → e = n ∧ n = "x" ∧ decl = 2 := by
    rintro f n decl e ⟨rfl, ids, hids, hdecl⟩
    rw [hm''] at hids
    simp only [List.mem_cons, Prod.mk.injEq, List.not_mem_nil, or_false] at hids
    obtain ⟨rfl, rfl⟩ := hids
    simpa [nameIn] using hdecl
  have hfirst : FirstBrings [(⟨true, ["a.ts"]⟩, m), (⟨true, ["b.ts"]⟩, m'), (⟨true, ["c.ts"]⟩, m'')]
      "x" 0 ⟨true, ["a.ts"]⟩ "x" := by
    refine ⟨[], m, _, rfl, by simp, ⟨rfl, [0], by simp [hm], by simp⟩, ?_⟩
    intro e he
    rw [(hpair m _ _ _ e hm he).1]
    simp
  have hlast : FirstBrings [(⟨true, ["a.ts"]⟩, m), (⟨true, ["b.ts"]⟩, m'), (⟨true, ["c.ts"]⟩, m'')]
      "x" 2 ⟨true, ["c.ts"]⟩ "x" := by
    refine ⟨[_, _], m'', [], rfl, ?_, ⟨rfl, [2], by simp [hm''], by simp⟩, ?_⟩
    · intro fm hfm e he
      simp only [List.mem_cons, List.not_mem_nil, or_false] at hfm
      rcases hfm with rfl | rfl
      · simpa using (hpair m _ _ _ e hm he).2
      · simpa using (hpair m' _ _ _ e hm' he).2
    · intro e he
      rw [(hone _ _ _ e he).1]
      simp
  have hover : d.registry.isOverloaded "x" :=
    (hexact "x").2.1.mpr ⟨0, _, _, 2, _, _, hfirst, hlast, by decide +kernel⟩
  refine ⟨d, l', hd, (hexact "x").1.mpr hover, hover, ((hexact "y").2.2.2.2 ?_).1⟩
  have hdecl : ∀ decl, Brought [(⟨true, ["a.ts"]⟩, m), (⟨true, ["b.ts"]⟩, m'),
      (⟨true, ["c.ts"]⟩, m'')] ("y", decl) → decl = 1 := by
    rintro decl ⟨fm, hfm, e, he⟩
    simp only [List.mem_cons, List.not_mem_nil, or_false] at hfm
    rcases hfm with rfl | rfl | rfl
    · simpa using (hpair m _ _ _ e hm he).2
    · simpa using (hpair m' _ _ _ e hm' he).2
    · simpa using (hone _ _ _ e he).2
  intro decl decl' h h'
  rw [hdecl decl h, hdecl decl' h']

end Draft

end BarrelAlias.Barrel
