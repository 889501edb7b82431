import BarrelAlias.Linkage.Summary
import BarrelAlias.Proofs.Table

/-!
Two views of the same statements. The summary of a script says which modules its names come from, and
its sites say where it names other modules. Main statement: no name comes from a module that no site
names, and the modules that its exports come from are those of the sites in their order, each as often
as its statement has entries that pass something on.
-/

namespace BarrelAlias

/-- What is found after several entries was there before, or is one of them. -/
theorem Table.find?_foldl_insert {α κ ν : Type} [DecidableEq κ] {key : α → κ} {value : α → ν}
    {as : List α} {t : Table κ ν} {k : κ} {v : ν}
    (h : (as.foldl (fun t a => t.insert (key a) (value a)) t).find? k = some v) :
    t.find? k = some v ∨ ∃ a ∈ as, value a = v := by
  induction as generalizing t with
  | nil => exact .inl h
  | cons a as ih =>
    rcases ih h with hfound | ⟨c, hc, hv⟩
    · rw [find?_insert] at hfound
      split at hfound
      · exact .inr ⟨a, List.mem_cons_self, Option.some.inj hfound⟩
      · exact .inl hfound
    · exact .inr ⟨c, List.mem_cons_of_mem a hc, hv⟩

namespace Linkage

open Script (Statement Item)

def ExportEntry.source? : ExportEntry → Option String
  | .reexport _ source _ | .star source => some source
  | _ => none

def Summary.sources (s : Summary) : List String := s.exports.filterMap ExportEntry.source?

/-- How many entries of a statement pass on what another module exports. -/
def entriesFrom : Item → Nat
  | .exportList clauses (some _) => clauses.length
  | .exportAll _ _ => 1
  | _ => 0

def naming (sts : List Statement) : List Statement :=
  sts.filter fun st => (specifierOf? st.item).isSome

/-- The values of the sites, each as often as its statement has entries. -/
def sourcesAt (ss : List Site) (sts : List Statement) : List String :=
  (ss.zip sts).flatMap fun (s, st) => List.replicate (entriesFrom st.item) s.value

/-- The site is the place where the statement names another module. -/
def Site.Of (s : Site) (st : Statement) : Prop :=
  ∃ sp, specifierOf? st.item = some sp ∧ s = ⟨sp.value, sp.span, st.span⟩

variable {s : Summary} {i : Item} {name : String} {b : ImportBinding}

/-- What a statement adds to the sources: its specifier, as often as it has entries. -/
theorem Summary.sources_add (s : Summary) (i : Item) :
    (s.add i).sources =
      s.sources ++ (specifierOf? i).elim [] fun sp => List.replicate (entriesFrom i) sp.value := by
  cases i with
  | importFrom => simp [sources, add, specifierOf?, entriesFrom]
  | exportDeclared => simp [sources, add, specifierOf?, ExportEntry.source?]
  | exportList clauses source =>
    cases source with
    | none => simp [sources, add, specifierOf?, ExportEntry.source?]
    | some sp =>
      have hsame : clauses.filterMap (some ∘ fun _ => sp.value) =
          List.replicate clauses.length sp.value := by
        rw [List.filterMap_eq_map, List.map_const']
      simp only [sources, add, specifierOf?, entriesFrom, List.filterMap_append, List.filterMap_map]
      exact congrArg (_ ++ ·) hsame
  | exportDefault what => cases what <;> simp [sources, add, specifierOf?, ExportEntry.source?]
  | exportAll name sp => cases name <;> simp [sources, add, specifierOf?, entriesFrom, ExportEntry.source?]
  | declared | plain => simp [sources, add, specifierOf?]

/-- A statement brings names from the module that it names, and from no other. -/
theorem Summary.source_of_add (h : (s.add i).imports.find? name = some b) :
    s.imports.find? name = some b ∨ ∃ sp, specifierOf? i = some sp ∧ sp.value = b.source := by
  cases i with
  | importFrom clauses source =>
    rcases Table.find?_foldl_insert h with hfound | ⟨c, _, rfl⟩
    · exact .inl hfound
    · exact .inr ⟨source, rfl, rfl⟩
  | exportList clauses source => cases source <;> exact .inl h
  | exportDefault what => cases what <;> exact .inl h
  | exportAll name sp => cases name <;> exact .inl h
  | exportDeclared | declared | plain => exact .inl h

theorem mem_sitesOf_iff {site : Site} {sts : List Statement} :
    site ∈ sitesOf sts ↔ ∃ st ∈ sts, site.Of st := by
  simp only [sitesOf, List.mem_filterMap, Option.map_eq_some_iff, Site.Of, eq_comm (a := site)]

theorem forall₂_sitesOf (sts : List Statement) : List.Forall₂ Site.Of (sitesOf sts) (naming sts) := by
  induction sts with
  | nil => exact .nil
  | cons st sts ih =>
    cases h : specifierOf? st.item with
    | none => simpa [sitesOf, naming, h] using ih
    | some sp => simpa [sitesOf, naming, h] using List.Forall₂.cons ⟨sp, h, rfl⟩ ih

theorem sources_foldl_add (s : Summary) (sts : List Statement) :
    (sts.foldl (fun s st => s.add st.item) s).sources =
      s.sources ++ sourcesAt (sitesOf sts) (naming sts) := by
  induction sts generalizing s with
  | nil => simp [sourcesAt, sitesOf]
  | cons st sts ih =>
    rw [List.foldl_cons, ih, Summary.sources_add, List.append_assoc]
    cases h : specifierOf? st.item with
    | none => simp [sourcesAt, sitesOf, naming, h]
    | some sp => simp [sourcesAt, sitesOf, naming, h]

theorem exists_site_of_import (s : Summary) (sts : List Statement)
    (h : (sts.foldl (fun s st => s.add st.item) s).imports.find? name = some b) :
    s.imports.find? name = some b ∨
      ∃ st ∈ sts, ∃ site : Site, site.Of st ∧ site.value = b.source := by
  induction sts generalizing s with
  | nil => exact .inl h
  | cons st sts ih =>
    rcases ih _ h with hfound | ⟨st', hst', hsite⟩
    · rcases Summary.source_of_add hfound with hfound | ⟨sp, hsp, hvalue⟩
      · exact .inl hfound
      · exact .inr ⟨st, List.mem_cons_self, _, ⟨sp, hsp, rfl⟩, hvalue⟩
    · exact .inr ⟨st', List.mem_cons_of_mem st hst', hsite⟩

/-- A text has sites if it has a summary, else both fail alike. Whatever is imported comes from a module
that a site names. The modules that exports come from are those of the sites, where each site stands as
often as its statement has entries; that is not at all for an import or a list without entries. -/
theorem sites_cover_sources (file : Path) (text : String) :
    (∃ f, summarize file text = .error f ∧ sites file text = .error f) ∨
      ∃ sts s ss, statementsOf file text = .ok sts ∧ summarize file text = .ok s ∧
        sites file text = .ok ss ∧ List.Forall₂ Site.Of ss (naming sts) ∧
        (∀ name b, s.imports.find? name = some b → ∃ site ∈ ss, site.value = b.source) ∧
        s.sources = sourcesAt ss (naming sts) := by
  unfold summarize sites
  cases statementsOf file text with
  | error f => exact .inl ⟨f, rfl, rfl⟩
  | ok sts =>
    refine .inr ⟨sts, .ofStatements sts, sitesOf sts, rfl, rfl, rfl, forall₂_sitesOf sts, ?_, ?_⟩
    · intro name b h
      rcases exists_site_of_import .empty sts h with hfound | ⟨st, hst, site, hsite, hvalue⟩
      · cases hfound
      · exact ⟨site, mem_sitesOf_iff.mpr ⟨st, hst, hsite⟩, hvalue⟩
    · exact sources_foldl_add .empty sts

end Linkage

end BarrelAlias
