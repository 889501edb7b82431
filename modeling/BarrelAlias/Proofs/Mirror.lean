import BarrelAlias.Proofs.Catalog
import BarrelAlias.Proofs.Decoding
import BarrelAlias.Proofs.Searching

/-!
The tables of the registry mirror each other. Names and origins have one number each, the list of a name
and the list of a declaration hold the same bindings, and every number is in range, so that neither a
registration nor the making of the lines ever looks beyond the end of a row.
-/

namespace BarrelAlias.Barrel

namespace Catalog

def bindingsOf (c : Catalog) (n : NameId) : List (DeclId × OriginId) := (c.bindings[n]?).getD []

structure Mirrored (c : Catalog) : Prop where
  /-- The number of a name is the one that the name stands at. -/
  names_inverse : ∀ name n, c.nameIds.find? name = some n ↔ c.names[n]? = some name
  /-- The number of an origin is the one that its line stands at. -/
  origins_inverse : ∀ origin o, c.originIds.find? origin = some o ↔ c.sourceOf? o = some origin
  /-- Each name has a list, and it holds something. -/
  one_list : c.bindings.length = c.names.length
  bound : ∀ known ∈ c.bindings, known ≠ []
  /-- A declaration stands under a name exactly if the name stands with the declaration. -/
  mirrored : ∀ d n o, (d, o) ∈ c.bindingsOf n ↔ (n, o) ∈ c.namesOf d
  /-- No declaration stands twice under a name. -/
  once : ∀ known ∈ c.bindings, (known.map (·.1)).Nodup
  /-- All numbers are in range. -/
  bindings_in_range : ∀ known ∈ c.bindings, ∀ b ∈ known, b.2 < c.lines.length
  decls_in_range : ∀ d, ∀ b ∈ c.namesOf d, b.1 < c.names.length ∧ b.2 < c.lines.length
  overloaded_in_range : ∀ n ∈ c.overloaded, n < c.names.length
  clauses_in_range : ∀ line ∈ c.lines, ∀ clause ∈ line.2, clause.2 < c.names.length
  /-- Each origin has a clause. -/
  has_clause : ∀ line ∈ c.lines, line.2 ≠ []

def qualifyName? (fuel : Nat) (c : Catalog) (taken : Naming) (n : NameId) : Option Naming := do
  let name ← c.names[n]?
  let known ← c.bindings[n]?
  let sources ← (firstOccurrences (known.map (·.2))).mapM c.sourceOf?
  let seats ← Checked.search? taken.taken fuel (sources.map fun s => ⟨s, candidates s name, 0⟩)
  seats.foldlM (Checked.assign? fuel name) taken

/-- Names the origins of all overloaded names, in the order of their numbers. -/
def qualify? (fuel : Nat) (c : Catalog) : Option Naming :=
  let plain := (c.nameIds.entries.filter (·.2 ∉ c.overloaded)).map (·.1)
  (c.overloaded.mergeSort (· ≤ ·)).foldlM (c.qualifyName? fuel) ⟨plain, .empty, []⟩

def line? (c : Catalog) (quote : QuoteStyle) (given : Naming)
    (line : String × List (String × NameId)) : Option String := do
  let clauses ← line.2.mapM fun clause => do
    let name ← c.names[clause.2]?
    return clauseText clause.1 (Registry.published given line.1 name)
  return lineText quote line.1
    (firstOccurrences (clauses.mergeSort fun a b => (compare a b).isLE))

def render? (fuel : Nat) (c : Catalog) (quote : QuoteStyle) : Option (List String) := do
  let given ← c.qualify? fuel
  (c.lines.filter (!·.2.isEmpty)).mapM (c.line? quote given)

end Catalog

namespace Registry

variable {r : Registry} {won : List Request}

/-- The two sides of the registry hold the same bindings. -/
theorem Indexes.mem_bindings_iff (h : r.Indexes won) {d : DeclId} {n o : String} :
    (d, o) ∈ r.bindings n ↔ (n, o) ∈ r.namesOf d := by
  rw [h.mem_bindings, h.namesOf, List.mem_map]
  simp only [Request.pair, Prod.mk.injEq, List.mem_filter, decide_eq_true_eq]
  constructor
  · rintro ⟨q, hq, ⟨hn, hd⟩, ho⟩
    exact ⟨q, ⟨hq, hd⟩, hn, ho⟩
  · rintro ⟨q, ⟨hq, hd⟩, hn, ho⟩
    exact ⟨q, hq, ⟨hn, hd⟩, ho⟩

theorem Indexes.nodup_decls (h : r.Indexes won) (hnd : (won.map Request.pair).Nodup) (n : String) :
    ((r.bindings n).map (·.1)).Nodup := by
  have hpairs : ((r.bindings n).map (·.1)).map (n, ·) =
      (won.filter (·.name = n)).map Request.pair := by
    rw [h.bindings, List.map_map, List.map_map]
    refine List.map_congr_left fun q hq => ?_
    have hname : q.name = n := by simpa using (List.mem_filter.mp hq).2
    rw [Request.pair, hname]
    rfl
  refine List.Nodup.of_map (n, ·) ?_
  rw [hpairs]
  exact hnd.sublist (List.filter_sublist.map _)

/-- Each name that has come up has a declaration. -/
theorem bindings_ne_nil (h : r.Indexes won) (hk : r.KeysOf won) {n : String}
    (hn : n ∈ r.names.keys) : r.bindings n ≠ [] := by
  rw [hk.names, mem_firstOccurrences] at hn
  obtain ⟨q, hq, rfl⟩ := List.mem_map.mp hn
  exact List.ne_nil_of_mem (h.mem_bindings.mpr ⟨q, hq, rfl, rfl⟩)

theorem mem_bindingsOf_catalog (hs : r.Sound) {d : DeclId} {n : NameId} {o : OriginId} :
    (d, o) ∈ r.catalog.bindingsOf n ↔ ∃ name origin, (d, origin) ∈ r.bindings name ∧
      r.names.keys.idxOf name = n ∧ r.origins.keys.idxOf origin = o := by
  have hrow : r.catalog.bindings[n]? = (r.names.keys[n]?).map fun name =>
      (r.bindings name).map fun b => (b.1, r.origins.keys.idxOf b.2) := List.getElem?_map
  rw [Catalog.bindingsOf, hrow]
  constructor
  · cases hname : r.names.keys[n]? with
    | none =>
      intro h
      cases h
    | some name =>
      obtain ⟨hlt, rfl⟩ := List.getElem?_eq_some_iff.mp hname
      intro h
      obtain ⟨b, hb, he⟩ := List.mem_map.mp h
      cases he
      exact ⟨_, b.2, hb, hs.names_nodup.idxOf_getElem n hlt, rfl⟩
  · rintro ⟨name, origin, hb, rfl, rfl⟩
    rw [List.getElem?_idxOf (mem_keys_of_mem_bindings hb)]
    exact List.mem_map_of_mem hb

theorem mem_namesOf_catalog {d : DeclId} {n : NameId} {o : OriginId} :
    (n, o) ∈ r.catalog.namesOf d ↔ ∃ name origin, (name, origin) ∈ r.namesOf d ∧
      r.names.keys.idxOf name = n ∧ r.origins.keys.idxOf origin = o := by
  rw [catalog, namesOf_numbered, List.mem_map]
  simp only [Prod.mk.injEq, Prod.exists]

@[simp] theorem length_lines_catalog (r : Registry) :
    r.catalog.lines.length = r.origins.keys.length := List.length_map _

/-- The numbers of a registry mirror each other. -/
theorem mirrored_catalog (h : r.Indexes won) (hk : r.KeysOf won) (hs : r.Sound)
    (hw : r.Closed) (hnd : (won.map Request.pair).Nodup) :
    r.catalog.Mirrored where
  names_inverse name n := Table.find?_numbering_eq_some_iff hs.names_nodup
  origins_inverse origin o := by
    have hsource : r.catalog.sourceOf? o = r.origins.keys[o]? := by
      simp [Catalog.sourceOf?, catalog, numbered, Function.comp_def]
    rw [hsource]
    exact Table.find?_numbering_eq_some_iff hs.origins_nodup
  one_list := by simp [catalog, numbered]
  bound known hknown := by
    obtain ⟨n, hn, rfl⟩ := List.mem_map.mp hknown
    simpa using bindings_ne_nil h hk hn
  mirrored d n o := by
    rw [mem_bindingsOf_catalog hs, mem_namesOf_catalog]
    simp only [h.mem_bindings_iff]
  once known hknown := by
    obtain ⟨n, _, rfl⟩ := List.mem_map.mp hknown
    rw [List.map_map]
    exact h.nodup_decls hnd n
  bindings_in_range known hknown b hb := by
    obtain ⟨n, _, rfl⟩ := List.mem_map.mp hknown
    obtain ⟨bound, hmem, rfl⟩ := List.mem_map.mp hb
    rw [length_lines_catalog]
    exact List.idxOf_lt_length_iff.mpr (hw.bindings n bound hmem)
  decls_in_range d b hb := by
    obtain ⟨name, origin, hmem, hn, ho⟩ := mem_namesOf_catalog.mp hb
    obtain ⟨hname, horigin⟩ := hw.namesOf d _ hmem
    rw [← hn, ← ho, length_lines_catalog]
    exact ⟨List.idxOf_lt_length_iff.mpr hname, List.idxOf_lt_length_iff.mpr horigin⟩
  overloaded_in_range n hn := by
    obtain ⟨name, hname, rfl⟩ := List.mem_map.mp hn
    exact List.idxOf_lt_length_iff.mpr (hw.overloaded name hname)
  clauses_in_range line hline clause hclause := by
    obtain ⟨o, _, rfl⟩ := List.mem_map.mp hline
    obtain ⟨c, hc, rfl⟩ := List.mem_map.mp hclause
    exact List.idxOf_lt_length_iff.mpr (hw.clauses o c hc)
  has_clause line hline := by
    obtain ⟨o, ho, rfl⟩ := List.mem_map.mp hline
    simpa using clauses_ne_nil h hk ho

/-- No name is marked twice. -/
theorem nodup_overloaded_enterAll (h : r.overloaded.Nodup) (qs : List Request) :
    (r.enterAll qs).overloaded.Nodup := by
  induction qs generalizing r with
  | nil => exact h
  | cons q qs ih =>
    refine ih (r := r.enter q) ?_
    rcases r.enter_cases q with ⟨_, e⟩ | ⟨_, _, e⟩ | ⟨_, _, _, e⟩
    · rwa [e]
    · rwa [e]
    · rw [e, markOverloaded, overloaded_bindRequest]
      exact nodup_foldl_firstOccurrences [q.name] r.overloaded h

/-- The overloaded names by number, in order. -/
theorem sorted_overloaded (hs : r.Sound) (hnd : r.overloaded.Nodup) :
    (r.overloaded.map (r.names.keys.idxOf ·)).mergeSort (· ≤ ·) =
      r.overloadedNames.map (r.names.keys.idxOf ·) := by
  have hsorted : r.names.keys.Pairwise fun a b => r.names.keys.idxOf a ≤ r.names.keys.idxOf b := by
    rw [List.pairwise_iff_getElem]
    intro i j hi hj hij
    rw [hs.names_nodup.idxOf_getElem, hs.names_nodup.idxOf_getElem]
    exact Nat.le_of_lt hij
  have hperm : r.overloaded.Perm r.overloadedNames := by
    refine (List.perm_ext_iff_of_nodup hnd (hs.names_nodup.filter _)).mpr fun n => ?_
    exact (mem_overloadedNames hs).symm
  have hmerged : ((r.overloaded.map (r.names.keys.idxOf ·)).mergeSort (· ≤ ·)).Pairwise
      fun a b => decide (a ≤ b) := by
    refine List.pairwise_mergeSort ?_ ?_ _
    · simpa using fun a b c => Nat.le_trans
    · simpa using Nat.le_total
  refine List.Perm.eq_of_pairwise (fun a b _ _ => Nat.le_antisymm) (by simpa using hmerged) ?_
    ((List.mergeSort_perm _ _).trans (hperm.map _))
  exact List.pairwise_map.mpr (hsorted.sublist List.filter_sublist)

/-- The names that are published as they are. -/
theorem plainNames_catalog (hs : r.Sound) :
    (r.catalog.nameIds.entries.filter (·.2 ∉ r.catalog.overloaded)).map (·.1) = r.plainNames := by
  have hentries : r.catalog.nameIds.entries =
      r.names.keys.map fun n => (n, r.names.keys.idxOf n) := by
    have hkeys : r.catalog.nameIds.keys = r.names.keys := Table.keys_numbering
    rw [Table.entries_eq r.catalog.nameIds (hkeys ▸ hs.names_nodup)
      (f := (r.names.keys.idxOf ·)), hkeys]
    intro n hn
    exact Table.find?_numbering_of_mem hs.names_nodup (hkeys ▸ hn)
  have hplain : r.names.keys.filter (fun n => r.names.keys.idxOf n ∉ r.catalog.overloaded) =
      r.plainNames := by
    refine List.filter_congr fun n _ => ?_
    rw [isOverloaded, ← decide_not]
    exact decide_eq_decide.mpr (not_congr (mem_map_idxOf hs.overloaded_named))
  rw [hentries, List.filter_map, List.map_map, ← hplain]
  exact List.map_id _

/-- The origins of a name are named by number as they are by text. -/
theorem qualifyName?_catalog (hw : r.Closed) {name : String}
    (hn : name ∈ r.names.keys) (fuel : Nat) (given : Naming) :
    r.catalog.qualifyName? fuel given (r.names.keys.idxOf name) =
      Checked.qualifyName? fuel r given name := by
  have hname : r.catalog.names[r.names.keys.idxOf name]? = some name := List.getElem?_idxOf hn
  have hknown : r.catalog.bindings[r.names.keys.idxOf name]? =
      some ((r.bindings name).map fun b => (b.1, r.origins.keys.idxOf b.2)) :=
    getElem?_map_idxOf hn _
  have hin : ∀ o ∈ (r.bindings name).map (·.2), o ∈ r.origins.keys := by
    intro o ho
    obtain ⟨b, hb, rfl⟩ := List.mem_map.mp ho
    exact hw.bindings name b hb
  have hsources : (firstOccurrences (((r.bindings name).map
      fun b => (b.1, r.origins.keys.idxOf b.2)).map (·.2))).mapM r.catalog.sourceOf? =
        some (r.originsOf name) := by
    have hids : ((r.bindings name).map fun b => (b.1, r.origins.keys.idxOf b.2)).map (·.2) =
        ((r.bindings name).map (·.2)).map (r.origins.keys.idxOf ·) := by
      rw [List.map_map, List.map_map]
      rfl
    rw [hids, firstOccurrences_map fun o ho o' _ he => (List.idxOf_inj (hin o ho)).mp he,
      List.mapM_map, originsOf]
    conv_rhs => rw [← List.map_id (firstOccurrences _)]
    refine mapM_eq_some fun o ho => sourceOf?_numbered (hin o ?_)
    exact (mem_firstOccurrences _ o).mp ho
  unfold Catalog.qualifyName? Checked.qualifyName?
  simp only [hname, hknown, hsources, Option.bind_eq_bind, Option.bind_some, Checked.seats]

theorem qualify?_catalog (hs : r.Sound) (hw : r.Closed)
    (hnd : r.overloaded.Nodup) (fuel : Nat) :
    r.catalog.qualify? fuel = Checked.qualify? fuel r := by
  have hids : r.catalog.overloaded.mergeSort (· ≤ ·) =
      r.overloadedNames.map (r.names.keys.idxOf ·) := sorted_overloaded hs hnd
  have hnames : ∀ names ⊆ r.names.keys, ∀ given,
      names.foldlM (fun given name => r.catalog.qualifyName? fuel given (r.names.keys.idxOf name))
        given = names.foldlM (Checked.qualifyName? fuel r) given := by
    intro names
    induction names with
    | nil => exact fun _ _ => rfl
    | cons name names ih =>
      intro hin given
      obtain ⟨hname, hrest⟩ := List.cons_subset.mp hin
      rw [List.foldlM_cons, List.foldlM_cons, qualifyName?_catalog hw hname]
      exact bind_congr fun given => ih hrest given
  unfold Catalog.qualify? Checked.qualify?
  rw [plainNames_catalog hs, hids, List.foldlM_map]
  exact hnames _ (List.filter_subset_self _) _

/-- A line is made by number as it is by text. -/
theorem line?_catalog (hw : r.Closed) (quote : QuoteStyle)
    (given : Naming) (o : String) :
    r.catalog.line? quote given
        (o, (r.clauses o).map fun c => (c.exported, r.names.keys.idxOf c.name)) =
      some (lineText quote o (lineClauses given o (r.clauses o))) := by
  have hclauses : ((r.clauses o).map fun c => (c.exported, r.names.keys.idxOf c.name)).mapM
      (fun clause => (r.catalog.names[clause.2]?).bind fun name =>
        some (clauseText clause.1 (published given o name))) =
      some ((r.clauses o).map fun c => clauseText c.exported (published given o c.name)) := by
    rw [List.mapM_map]
    refine mapM_eq_some fun c hc => ?_
    have hname : r.catalog.names[r.names.keys.idxOf c.name]? = some c.name :=
      List.getElem?_idxOf (hw.clauses o c hc)
    simp only [Function.comp, hname, Option.bind_some]
  unfold Catalog.line?
  simp only [Option.bind_eq_bind, Option.pure_def, hclauses, Option.bind_some]
  rfl

/-- The lines are made by number as they are by text. -/
theorem render?_catalog (hs : r.Sound) (hw : r.Closed)
    (hnd : r.overloaded.Nodup) {fuel : Nat} (hfuel : Checked.qualify? fuel r = some r.qualify)
    (quote : QuoteStyle) : r.catalog.render? fuel quote = some (r.render quote) := by
  have hlines : r.catalog.lines.filter (!·.2.isEmpty) =
      (r.origins.keys.filter fun o => !(r.clauses o).isEmpty).map fun o =>
        (o, (r.clauses o).map fun c => (c.exported, r.names.keys.idxOf c.name)) := by
    rw [catalog, numbered, List.filter_map]
    simp only [Function.comp_def, List.isEmpty_map]
  unfold Catalog.render?
  rw [qualify?_catalog hs hw hnd, hfuel, hlines, render, entries_origins hs, List.filter_map,
    List.map_map]
  simp only [Option.bind_eq_bind, Option.bind_some, List.mapM_map]
  exact mapM_eq_some fun o _ => line?_catalog hw quote r.qualify o

/-- The names of a declaration are those that it was registered under, each where it came first. -/
theorem names_firstRequests (qs : List Request) (d : DeclId) :
    ((firstRequests qs).filter (·.decl = d)).map (·.name) =
      firstOccurrences ((qs.filter (·.decl = d)).map (·.name)) := by
  induction qs using List.reverseRecOn with
  | nil => rfl
  | append_singleton qs q ih =>
    have hstep : firstRequests (qs ++ [q]) = letIn (firstRequests qs) q := by
      rw [firstRequests, List.foldl_append]
      rfl
    rw [hstep, List.filter_append, List.map_append]
    by_cases hd : q.decl = d
    · -- the declaration stands under the name already if its pair came before
      have hpair : q.pair ∈ (firstRequests qs).map Request.pair ↔
          q.name ∈ firstOccurrences ((qs.filter (·.decl = d)).map (·.name)) := by
        rw [← ih]
        simp only [List.mem_map, List.mem_filter, decide_eq_true_eq, Request.pair, Prod.mk.injEq,
          hd, and_assoc]
        exact exists_congr fun q' => and_congr_right fun _ => and_comm
      have hlast : [q].filter (·.decl = d) = [q] := by simp [hd]
      rw [hlast, List.map_singleton, firstOccurrences_concat, letIn]
      simp only [hpair]
      split
      · exact ih
      · rw [List.filter_append, hlast, List.map_append, ih, List.map_singleton]
    · have hlast : [q].filter (·.decl = d) = [] := by simp [hd]
      rw [hlast, List.map_nil, List.append_nil, ← ih, letIn]
      split
      · rfl
      · rw [List.filter_append, hlast, List.append_nil]

theorem mem_names_enterAll {qs : List Request} {n : String} :
    n ∈ (empty.enterAll qs).names.keys ↔ n ∈ qs.map (·.name) := by
  have hsplit : ∀ qs : List Request,
      n ∈ qs.map (·.name) ↔ ∃ d, n ∈ (qs.filter (·.decl = d)).map (·.name) := by
    intro qs
    simp only [List.mem_map, List.mem_filter, decide_eq_true_eq]
    constructor
    · rintro ⟨q, hq, rfl⟩
      exact ⟨q.decl, q, ⟨hq, rfl⟩, rfl⟩
    · rintro ⟨d, q, ⟨hq, _⟩, rfl⟩
      exact ⟨q, hq, rfl⟩
  rw [(keysOf_firstRequests qs).names, mem_firstOccurrences, hsplit, hsplit]
  simp only [names_firstRequests, mem_firstOccurrences]

/-- A declaration under a new name is found to stand under the names that it was registered under
before, if there are any. -/
theorem register_also_iff (qs : List Request) (q : Request) (ns : List String) :
    ((empty.enterAll qs).register q.name q.exported q.decl q.origin).1 = .also ns ↔
      q.name ∉ qs.map (·.name) ∧ ns ≠ [] ∧
        ns = firstOccurrences ((qs.filter (·.decl = q.decl)).map (·.name)) := by
  have hnames : ((empty.enterAll qs).namesOf q.decl).map (·.1) =
      firstOccurrences ((qs.filter (·.decl = q.decl)).map (·.name)) := by
    rw [(indexes_firstRequests qs).namesOf, List.map_map, ← names_firstRequests]
    rfl
  rw [← mem_names_enterAll, ← Table.find?_eq_none_iff, ← hnames, register]
  cases hk : (empty.enterAll qs).names.find? q.name with
  | some known =>
    refine iff_of_false ?_ (by simp)
    dsimp only
    split
    · simp
    · split
      · simp
      · simp
  | none =>
    simp only [true_and]
    split
    · next hnil =>
      rw [List.isEmpty_iff.mp hnil]
      simp
    · next hne =>
      rw [Registration.also.injEq, eq_comm]
      constructor
      · rintro rfl
        exact ⟨fun h => hne (by rw [h]; rfl), rfl⟩
      · exact And.right

/-- After any registrations the tables by number are those of the registry and mirror each other; no
look-up in the next registration or in the making of the lines is out of range, and what they give is
what the registry gives. A declaration that comes under a new name is found to stand under exactly the
names that it was registered under before, in the order of their first registrations. -/
theorem tables_mirror (qs : List Request) :
    let r := empty.enterAll qs
    Catalog.empty.registerAll? qs = some r.catalog ∧ r.catalog.Mirrored ∧
      (∀ q, ∃ found, r.catalog.register? q = some (found, (r.enter q).catalog) ∧
        found = (r.register q.name q.exported q.decl q.origin).1 ∧
        ∀ ns, found = .also ns ↔ q.name ∉ qs.map (·.name) ∧ ns ≠ [] ∧
          ns = firstOccurrences ((qs.filter (·.decl = q.decl)).map (·.name))) ∧
      ∀ quote, ∃ enough, ∀ fuel, enough ≤ fuel →
        r.catalog.render? fuel quote = some (r.render quote) := by
  intro r
  have hs : r.Sound := sound_empty.enterAll qs
  have hw : r.Closed := closed_enterAll closed_empty qs
  have hnd : r.overloaded.Nodup := nodup_overloaded_enterAll (r := empty) List.nodup_nil qs
  have hmirror : r.catalog.Mirrored :=
    mirrored_catalog (indexes_firstRequests qs) (keysOf_firstRequests qs) hs hw
      (nodup_firstRequests qs)
  refine ⟨registerAll?_catalog sound_empty closed_empty qs, hmirror, fun q => ?_, fun quote => ?_⟩
  · exact ⟨_, register?_catalog hs hw q, rfl, register_also_iff qs q⟩
  · obtain ⟨enough, hrun⟩ := r.foldlM_qualifyName? r.overloadedNames ⟨r.plainNames, .empty, []⟩
    exact ⟨enough, fun fuel hfuel => render?_catalog hs hw hnd (hrun fuel hfuel) quote⟩

end Registry

end BarrelAlias.Barrel
