import BarrelAlias.Proofs.QueryOrder

/-!
Why a file exports what it is said to export. The rules below speak of the statements of files and
of the files that specifiers lead to, and know neither trails nor cuts nor what a loader remembers.
Every declaration in an answer of a loader has a derivation by them, on cycles as well as off them and
whatever the loader was asked before: what the walk finds behind a cut may be incomplete, but it is
never made up.
-/

namespace BarrelAlias.Linkage

open Script (Imported)
open Loader

mutual

inductive Exported (t : FileTree) (S : List (List Step)) : List Step → String → Identity → Prop
  | named {p : Path} {s : Summary} {exported name : String} {d : Identity} :
      readModule t p = .ok s → .named exported name ∈ s.exports → Denoted t S p s name d →
      Exported t S p.steps exported d
  | default {p : Path} {s : Summary} {name : String} {d : Identity} :
      readModule t p = .ok s → .default (some name) ∈ s.exports → Denoted t S p s name d →
      Exported t S p.steps "default" d
  | anonymous {p : Path} {s : Summary} : readModule t p = .ok s → .default none ∈ s.exports →
      Exported t S p.steps "default" ⟨.file p.steps, "default", .value⟩
  | reexported {p : Path} {s : Summary} {exported source : String} {imported : Imported}
      {d : Identity} : readModule t p = .ok s → .reexport exported source imported ∈ s.exports →
      Taken t S p source imported d → Exported t S p.steps exported d
  | passedOn {p g : Path} {s : Summary} {source name : String} {d : Identity} :
      readModule t p = .ok s → .star source ∈ s.exports → resolve? t p source = some g →
      g.steps ∉ S → name ≠ "default" → Exported t S g.steps name d → Exported t S p.steps name d

inductive Denoted (t : FileTree) (S : List (List Step)) :
    Path → Summary → String → Identity → Prop
  | imported {p : Path} {s : Summary} {name : String} {b : ImportBinding} {d : Identity} :
      s.imports.find? name = some b → Taken t S p b.source b.imported d → Denoted t S p s name d
  | declared {p : Path} {s : Summary} {name : String} {space : Space} :
      s.imports.find? name = none → ⟨name, space⟩ ∈ s.locals →
      Denoted t S p s name ⟨.file p.steps, name, space⟩
  | undeclared {p : Path} {s : Summary} {name : String} : s.imports.find? name = none →
      (∀ d ∈ s.locals, d.name ≠ name) → Denoted t S p s name ⟨.file p.steps, name, .value⟩

inductive Taken (t : FileTree) (S : List (List Step)) :
    Path → String → Imported → Identity → Prop
  | package {p : Path} {source : String} {imported : Imported} : resolve? t p source = none →
      Taken t S p source imported ⟨.package source, importedName imported, .value⟩
  | whole {p g : Path} {source : String} : resolve? t p source = some g →
      Taken t S p source .all ⟨.file g.steps, "*", .value⟩
  | shut {p g : Path} {source name : String} : resolve? t p source = some g → g.steps ∈ S →
      Taken t S p source (.name name) ⟨.file g.steps, name, .value⟩
  | followed {p g : Path} {source name : String} {d : Identity} : resolve? t p source = some g →
      g.steps ∉ S → Exported t S g.steps name d → Taken t S p source (.name name) d

end

def Derived (t : FileTree) (S : List (List Step)) (k : List Step) (km : KeyMap) : Prop :=
  ∀ n ks, (n, ks) ∈ km.entries → ∀ d ∈ ks, Exported t S k n d

section

variable {t : FileTree} {S : List (List Step)} {k : List Step} {m new : KeyMap}

theorem mem_addUnique {α : Type} [DecidableEq α] {ks new : List α} {d : α}
    (h : d ∈ addUnique ks new) : d ∈ ks ∨ d ∈ new := by
  unfold addUnique at h
  induction new generalizing ks with
  | nil => exact Or.inl h
  | cons a new ih =>
    rw [List.foldl_cons] at h
    rcases ih h with h | h
    · split at h
      · exact Or.inl h
      · rcases List.mem_append.mp h with h | h
        · exact Or.inl h
        · exact Or.inr (List.mem_cons.mpr (Or.inl (List.mem_singleton.mp h)))
    · exact Or.inr (List.mem_cons_of_mem a h)

theorem derived_empty : Derived t S k .empty := Table.all_empty

theorem Derived.find? (h : Derived t S k m) {n : String} {d : Identity}
    (hd : d ∈ (m.find? n).getD []) : Exported t S k n d := by
  cases hf : m.find? n with
  | none =>
    rw [hf] at hd
    cases hd
  | some ks =>
    rw [hf] at hd
    exact Table.All.of_find? h hf d hd

theorem Derived.addUnder (h : Derived t S k m) {n : String} {ks : List Identity}
    (hks : ∀ d ∈ ks, Exported t S k n d) : Derived t S k (addUnder m n ks) := by
  refine Table.All.insert h ?_
  intro d hd
  rcases mem_addUnique hd with hd | hd
  · exact h.find? hd
  · exact hks d hd

/-- What holds of all entries that are passed on holds of all that come of them. -/
theorem all_addStar {α : Type} {P : String → List α → Prop} {m new : Table String (List α)}
    (h : m.All P) (hnew : ∀ n ks, (n, ks) ∈ new.entries → n ≠ "default" → P n ks) :
    (addStar m new).All P := by
  obtain ⟨es⟩ := new
  unfold addStar
  induction es generalizing m with
  | nil => exact h
  | cons e es ih =>
    rw [List.foldl_cons]
    refine ih ?_ fun n ks he => hnew n ks (List.mem_cons_of_mem e he)
    obtain ⟨n, ks⟩ := e
    by_cases hn : n = "default" ∨ m.has n
    · simpa only [hn, ↓reduceIte] using h
    · simp only [hn, ↓reduceIte]
      rw [not_or] at hn
      exact h.insert (hnew n ks (List.mem_cons_self ..) hn.1)

/-- What the part adds to the exports of the file has a derivation, given the answer to it. -/
def Part.Justified (t : FileTree) (S : List (List Step)) (k : List Step) (answer : KeyMap) :
    Part → Prop
  | .entry exported source _ => ∀ d ∈ source.keys answer, Exported t S k exported d
  | .all _ => ∀ n ks, (n, ks) ∈ answer.entries → n ≠ "default" → ∀ d ∈ ks, Exported t S k n d

theorem Derived.add (h : Derived t S k m) {p : Part} {answer : KeyMap}
    (hp : p.Justified t S k answer) : Derived t S k (p.add m answer) := by
  cases p with
  | entry exported source kept =>
    rw [Part.add]
    split
    · exact h
    · exact h.addUnder hp
  | all target => exact all_addStar h hp

theorem Derived.addAll (h : Derived t S k m) {ps : List (Part × KeyMap)}
    (hps : ∀ p ∈ ps, p.1.Justified t S k p.2) : Derived t S k (addAll m ps) := by
  unfold Linkage.addAll
  induction ps generalizing m with
  | nil => exact h
  | cons p ps ih =>
    rw [List.foldl_cons]
    exact ih (h.add (hps p (List.mem_cons_self ..))) fun q hq => hps q (List.mem_cons_of_mem p hq)

/-- A name that a module does not import is declared in it, or counts as a value of it. -/
theorem denoted_of_mem_spacesOf {p : Path} {s : Summary} {name : String} {space : Space}
    (hi : s.imports.find? name = none) (h : space ∈ spacesOf s name) :
    Denoted t S p s name ⟨.file p.steps, name, space⟩ := by
  have hhas : ∀ space, (s.locals.any fun d => d.name = name ∧ d.space = space) = true →
      Denoted t S p s name ⟨.file p.steps, name, space⟩ := by
    intro space hany
    obtain ⟨⟨_, _⟩, hd, hname⟩ := List.any_eq_true.mp hany
    obtain ⟨rfl, rfl⟩ := of_decide_eq_true hname
    exact .declared hi hd
  unfold spacesOf at h
  cases ht : s.locals.any fun d => d.name = name ∧ d.space = .type with
  | true =>
    cases hv : s.locals.any fun d => d.name = name ∧ d.space = .value with
    | true =>
      cases space with
      | type => exact hhas .type ht
      | value => exact hhas .value hv
    | false =>
      simp only [ht, hv, List.mem_singleton] at h
      exact h ▸ hhas .type ht
  | false =>
    simp only [ht, List.mem_singleton] at h
    subst h
    cases hv : s.locals.any fun d => d.name = name ∧ d.space = .value with
    | true => exact hhas .value hv
    | false =>
      refine .undeclared hi ?_
      intro d hd hname
      cases hs : d.space with
      | type => simpa [hname, hs] using List.any_eq_false.mp ht d hd
      | value => simpa [hname, hs] using List.any_eq_false.mp hv d hd

/-- What comes from a specifier is taken from it, if the answer about its file is derived. -/
theorem taken_of_importedSource {p : Path} {source : String} {imported : Imported} {answer : KeyMap}
    (ha : ∀ g, (importedSource t S p source imported).target? = some g → Derived t S g.steps answer)
    {d : Identity} (hd : d ∈ (importedSource t S p source imported).keys answer) :
    Taken t S p source imported d := by
  unfold importedSource at ha hd
  cases hr : resolve? t p source with
  | none =>
    simp only [hr, Source.keys, List.mem_singleton] at hd
    exact hd ▸ .package hr
  | some g =>
    simp only [hr] at ha hd
    cases imported with
    | all =>
      simp only [true_or, ↓reduceIte, Source.keys, List.mem_singleton] at hd
      exact hd ▸ .whole hr
    | name n =>
      by_cases hS : g.steps ∈ S
      · simp only [List.contains_eq_mem, hS, decide_true, or_true, ↓reduceIte, Source.keys,
          List.mem_singleton] at hd
        exact hd ▸ .shut hr hS
      · simp only [List.contains_eq_mem, hS, decide_false, reduceCtorEq, Bool.false_eq_true, or_self,
          ↓reduceIte] at ha hd
        exact .followed hr hS ((ha g rfl).find? hd)

theorem denoted_of_namedSource {p : Path} {s : Summary} {name : String} {answer : KeyMap}
    (ha : ∀ g, (namedSource t S p s name).target? = some g → Derived t S g.steps answer)
    {d : Identity} (hd : d ∈ (namedSource t S p s name).keys answer) : Denoted t S p s name d := by
  unfold namedSource at ha hd
  cases hi : s.imports.find? name with
  | some b =>
    simp only [hi] at ha hd
    exact .imported hi (taken_of_importedSource ha hd)
  | none =>
    simp only [hi, Source.keys] at hd
    obtain ⟨space, hspace, rfl⟩ := List.mem_map.mp hd
    exact denoted_of_mem_spacesOf hi hspace

/-- Each part of a module is justified by the entry that it stands for. -/
theorem justified_of_mem_parts {p : Path} {s : Summary} (hread : readModule t p = .ok s)
    {part : Part} (hp : part ∈ parts t S p s) {answer : KeyMap}
    (ha : ∀ g, part.target? = some g → Derived t S g.steps answer) :
    part.Justified t S p.steps answer := by
  obtain ⟨e, he, hpart⟩ := exists_standsFor hp
  cases hpart with
  | named => exact fun d hd => .named hread he (denoted_of_namedSource ha hd)
  | default => exact fun d hd => .default hread he (denoted_of_namedSource ha hd)
  | anonymous =>
    intro d hd
    cases List.mem_singleton.mp hd
    exact .anonymous hread he
  | reexport => exact fun d hd => .reexported hread he (taken_of_importedSource ha hd)
  | @star source g hres hopen =>
    exact fun n ks hks hne d hd => .passedOn hread he hres hopen hne (ha g rfl n ks hks d hd)

/-- A map that is assembled from derived answers is derived. -/
theorem derived_assemble {file : Path} {s : Summary} (hsum : SummaryOf t file.steps s)
    {as : List (Found KeyMap)}
    (has : List.Forall₂ (Answers fun g a => Derived t S g.steps a.value) (parts t S file s) as) :
    Derived t S file.steps (assemble (parts t S file s) (as.map Found.value)) := by
  obtain ⟨p, hp, hread⟩ := hsum
  rw [← parts_congr t S hp (rooted_of_readModule hread) s] at has ⊢
  rw [← hp]
  refine Table.All.keep (derived_empty.addAll ?_) _
  intro pa hpa
  rw [List.zip_map_right] at hpa
  obtain ⟨⟨part, a⟩, hmem, rfl⟩ := List.mem_map.mp hpa
  refine justified_of_mem_parts hread (List.of_mem_zip hmem).1 ?_
  intro g hg
  have hans := List.forall₂_zip has hmem
  unfold Answers at hans
  rw [hg] at hans
  exact hans

end

def Loader.Justified (t : FileTree) (S : List (List Step)) (l : Loader) : Prop :=
  ∀ k km, l.Remembers k km → Derived t S k km

section

variable {t : FileTree} {S : List (List Step)} {l l' : Loader}

theorem Loader.Justified.of_quiet (hq : l.Quiet l') (hs : l.Sound t S) (h : l.Justified t S) :
    l'.Justified t S := fun k km hk => h k km ((remembers_congr hq hs).mp hk)

theorem Loader.Justified.settle (h : l.Justified t S) {k : List Step} {m : ExportMap} {km : KeyMap}
    (hm : Shows l.decls m km) (hd : Derived t S k km) : (l.settle k m).Justified t S := by
  intro k' km' hk
  by_cases he : k' = k
  · subst he
    rw [hk.unique (remembers_settle_self hm)]
    exact hd
  · exact h k' km' ((remembers_settle_of_ne he).mp hk)

/-- A step of the walk keeps all that is remembered derived, and finds what is derived. -/
theorem Walked.derives {fuel : Nat} {trail : Trail} {file : Path}
    {r : Except Failure (Found ExportMap)} (h : Walked t S fuel trail file l r l')
    (he : ∀ g, Enters t S (walkExports t fuel (file.steps :: trail)) (Justified t S)
      (fun _ g a => Derived t S g.steps a.value) (fun _ => True) g)
    (hs : l.Sound t S) (hl : l.Justified t S) :
    l'.Justified t S ∧ ∀ found km, r = .ok found → Shows l'.decls found.value km →
      Derived t S file.steps km := by
  have hquiet : ∀ l l' : Loader, l.Quiet l' → l.Sound t S → l.Justified t S → l'.Justified t S :=
    fun _ _ hq hs h => h.of_quiet hq hs
  cases h with
  | @hit m hfind =>
    refine ⟨hl, ?_⟩
    intro found km hr hsh
    cases hr
    exact hl _ km ⟨m, hfind, hsh⟩
  | cut =>
    refine ⟨hl, ?_⟩
    intro found km hr hsh
    cases hr
    rw [hsh.unique (shows_empty l.decls)]
    exact derived_empty
  | unread => exact ⟨hl, by simp⟩
  | broken _ _ _ hb => exact ⟨(hb.spec hquiet (fun _ _ g _ => he g) hs hl).1, by simp⟩
  | @done s as m l₁ _ _ hsum hm hsh =>
    obtain ⟨hl₁, has⟩ :=
      hm.spec hquiet (fun _ _ _ _ _ hd => hd) (fun _ _ g _ => he g) hs hl
    have hd := derived_assemble hsum has
    constructor
    · split
      · exact hl₁.settle hsh hd
      · exact hl₁
    · intro found km hr hkm
      cases hr
      rw [decls_settled] at hkm
      rw [hkm.unique hsh]
      exact hd

/-- The walk finds only what is derived, cut or not. -/
theorem walk_derives (t : FileTree) (S : List (List Step)) (fuel : Nat) (trail : Trail)
    (file : Path) :
    Enters t S (walkExports t fuel trail) (Justified t S)
      (fun _ g a => Derived t S g.steps a.value) (fun _ => True) file := by
  induction fuel generalizing trail file with
  | zero =>
    intro l r l' _ hl hx
    cases hx
    refine ⟨hl, fun _ _ => trivial, ?_⟩
    intro found km hr hsh
    cases hr
    rw [hsh.unique (shows_empty l.decls)]
    exact derived_empty
  | succ fuel ih =>
    intro l r l' hs hl hx
    obtain ⟨hl', hd⟩ := (walked_of_exec hs hx).derives (ih (file.steps :: trail)) hs hl
    exact ⟨hl', fun _ _ => trivial, hd⟩

theorem Query.after_justified (hs : l.Sound t S) (hl : l.Justified t S) (q : Query) :
    (q.after t l).Justified t S := by
  refine q.after_preserves (fun hq hs hl => hl.of_quiet hq hs) ?_ hs hl
  intro l l' fuel r file _ hs hl hx
  exact (walk_derives t S fuel [] file l r l' hs hl hx).1

/-- All that a loader remembers is derived, whatever it was asked for. -/
theorem asked_justified (t : FileTree) (sealedFiles : List Path) (qs : List Query) :
    (asked t sealedFiles qs).Justified t (sealedFiles.map Path.steps) :=
  asked_preserves Query.after_justified
    (fun k km hk => absurd hk (not_remembers_sealing sealedFiles k km)) qs

end

theorem exists_related_of_mem {α β : Type} {R : α → β → Prop} {as : List α} {bs : List β}
    (h : List.Forall₂ R as bs) {a : α} (ha : a ∈ as) : ∃ b ∈ bs, R a b := by
  induction h with
  | nil => cases ha
  | @cons x y as bs hxy _ ih =>
    rcases List.mem_cons.mp ha with rfl | ha
    · exact ⟨y, List.mem_cons_self .., hxy⟩
    · obtain ⟨b, hb, hab⟩ := ih ha
      exact ⟨b, List.mem_cons_of_mem y hb, hab⟩

/-- Each number in an answer stands for a declaration that the file is derived to export under that
name. -/
theorem exports_have_derivations (t : FileTree) (sealedFiles : List Path) (qs : List Query)
    (file : Path) {m : ExportMap} {l' : Loader}
    (h : (exportsOf t file).exec (asked t sealedFiles qs) = (.ok m, l')) :
    ∀ n ids, (n, ids) ∈ m.entries → ∀ id ∈ ids, ∃ key, l'.decls.get? id = some key ∧
      Exported t (sealedFiles.map Path.steps) file.steps n key.identity := by
  obtain ⟨hs, _⟩ := asked_keeps t sealedFiles qs
  obtain ⟨hs', _, hfind⟩ := find?_of_exec_exportsOf hs h
  have hafter : (Query.exports file).after t (asked t sealedFiles qs) = l' := by
    rw [Query.after, h]
  have hl' : l'.Justified t (sealedFiles.map Path.steps) :=
    hafter ▸ Query.after_justified hs (asked_justified t sealedFiles qs) (.exports file)
  obtain ⟨km, hkm⟩ := hs'.exports_ok _ m hfind
  have hd := hl' _ km ⟨m, hfind, hkm⟩
  intro n ids hmem id hid
  obtain ⟨e, he, rfl, hnames⟩ := exists_related_of_mem hkm hmem
  obtain ⟨d, hdmem, key, hkey, rfl⟩ := exists_related_of_mem hnames hid
  exact ⟨key, hkey, hd e.1 e.2 he _ hdmem⟩

def woven : FileTree := ⟨⟨[
  (["a.ts"], .file (.text "export*from'./b';export{y as z}from'./c'")),
  (["b.ts"], .file (.text "import{z}from'./a';export{z as w};export*as n from'./a'")),
  (["c.ts"], .file (.text "export\x7b"))]⟩⟩

/-- What the second file exports after the first was asked for, the third being sealed: what it takes
through the first from the third, and the first as a whole. -/
theorem woven_exports_derived :
    ∃ m l', (exportsOf woven ⟨true, ["b.ts"]⟩).exec
        (asked woven [⟨true, ["c.ts"]⟩] [.exports ⟨true, ["a.ts"]⟩]) = (.ok m, l') ∧
      reveal l'.decls m =
        [("w", [some ⟨.file [.root, .name "c.ts"], "y", .value⟩]),
          ("n", [some ⟨.file [.root, .name "a.ts"], "*", .value⟩])] ∧
      ∀ n ids, (n, ids) ∈ m.entries → ∀ id ∈ ids, ∃ key, l'.decls.get? id = some key ∧
        Exported woven [[.root, .name "c.ts"]] [.root, .name "b.ts"] n key.identity := by
  have hrev : revealed woven (asked woven [⟨true, ["c.ts"]⟩] [.exports ⟨true, ["a.ts"]⟩])
      ⟨true, ["b.ts"]⟩ = some
        [("w", [some ⟨.file [.root, .name "c.ts"], "y", .value⟩]),
          ("n", [some ⟨.file [.root, .name "a.ts"], "*", .value⟩])] := by
    decide +kernel
  unfold revealed at hrev
  split at hrev
  · next m l' hx =>
    exact ⟨m, l', hx, Option.some.inj hrev,
      exports_have_derivations woven [⟨true, ["c.ts"]⟩] [.exports ⟨true, ["a.ts"]⟩] _ hx⟩
  · cases hrev

end BarrelAlias.Linkage
