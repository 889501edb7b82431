import BarrelAlias.Linkage.Summary
import BarrelAlias.Proofs.ExportList
import BarrelAlias.Proofs.FirstCome
import Mathlib.Data.List.Induction
import Mathlib.Data.List.TakeWhile

/-!
A barrel that is read back. Its lines stand in the order in which their origins came first, and each of
them holds the clauses of its origin once, in the order of their text. Where names and origins are plain
ASCII texts, a clause has one spelling and is read back from it, so the exports of the text are those of
the registry.
-/

namespace BarrelAlias.Barrel

open Linkage (ExportEntry Summary summarize)
open Script (ExportLine joined parse?_joined)
open Text (isAscii isAsciiName)

section FirstOccurrences

variable {α β : Type} [DecidableEq α] [DecidableEq β]

theorem firstOccurrences_concat (xs : List α) (x : α) :
    firstOccurrences (xs ++ [x]) =
      if x ∈ firstOccurrences xs then firstOccurrences xs else firstOccurrences xs ++ [x] := by
  rw [firstOccurrences, List.foldl_append]
  rfl

theorem firstOccurrences_sublist (xs : List α) : (firstOccurrences xs).Sublist xs := by
  induction xs using List.reverseRecOn with
  | nil => exact List.Sublist.refl _
  | append_singleton xs x ih =>
    rw [firstOccurrences_concat]
    split
    · exact ih.trans (List.sublist_append_left xs [x])
    · exact ih.append_right [x]

/-- What tells members apart keeps their first occurrences. -/
theorem firstOccurrences_map {f : α → β} {xs : List α}
    (h : ∀ a ∈ xs, ∀ b ∈ xs, f a = f b → a = b) :
    firstOccurrences (xs.map f) = (firstOccurrences xs).map f := by
  induction xs using List.reverseRecOn with
  | nil => rfl
  | append_singleton xs x ih =>
    have hxs : ∀ a ∈ xs, ∀ b ∈ xs, f a = f b → a = b :=
      fun a ha b hb => h a (List.mem_append_left _ ha) b (List.mem_append_left _ hb)
    have hmem : f x ∈ (firstOccurrences xs).map f ↔ x ∈ firstOccurrences xs := by
      constructor
      · intro hx
        obtain ⟨a, ha, he⟩ := List.mem_map.mp hx
        have ha' := (mem_firstOccurrences xs a).mp ha
        rw [← h a (List.mem_append_left _ ha') x (by simp) he]
        exact ha
      · exact fun hx => List.mem_map.mpr ⟨x, hx, rfl⟩
    rw [List.map_append, List.map_singleton, firstOccurrences_concat, firstOccurrences_concat,
      ih hxs]
    by_cases hx : x ∈ firstOccurrences xs
    · rw [if_pos hx, if_pos (hmem.mpr hx)]
    · rw [if_neg hx, if_neg (mt hmem.mp hx), List.map_append, List.map_singleton]

/-- Texts are put in order and taken once each, whichever is done first. -/
theorem firstOccurrences_mergeSort (xs : List String) :
    firstOccurrences (xs.mergeSort fun a b => (compare a b).isLE) =
      (firstOccurrences xs).mergeSort fun a b => (compare a b).isLE := by
  have hleft : (firstOccurrences (xs.mergeSort fun a b => (compare a b).isLE)).Pairwise
      fun a b => (compare a b).isLE :=
    (pairwise_mergeSort_compare id xs).sublist (firstOccurrences_sublist _)
  have hright : ((firstOccurrences xs).mergeSort fun a b => (compare a b).isLE).Pairwise
      fun a b => (compare a b).isLE := pairwise_mergeSort_compare id (firstOccurrences xs)
  have hnodup : ((firstOccurrences xs).mergeSort fun a b => (compare a b).isLE).Nodup :=
    (List.mergeSort_perm _ _).nodup_iff.mpr (nodup_firstOccurrences xs)
  refine List.Perm.eq_of_pairwise ?_ hleft hright
    ((List.perm_ext_iff_of_nodup (nodup_firstOccurrences _) hnodup).mpr ?_)
  · intro a b _ _ hab hba
    exact Std.LawfulEqCmp.eq_of_compare (Std.OrientedCmp.isLE_antisymm hab hba)
  · intro a
    simp

end FirstOccurrences

section Clauses

/-- No name holds a space, so that a clause begins with the name in the file up to its first space. -/
theorem takeWhile_clauseText {e p : String} (he : isAsciiName e) :
    (clauseText e p).toList.takeWhile (· ≠ ' ') = e.toList := by
  have hspace : ∀ c ∈ e.toList, decide (c ≠ ' ') := by
    intro c hc
    have hpart := (Text.isAsciiName_iff.mp he).2 c hc
    rw [decide_eq_true_eq]
    rintro rfl
    exact absurd hpart (by decide)
  by_cases hep : e = p
  · rw [clauseText, if_pos hep, ← hep]
    exact List.takeWhile_eq_self_iff.mpr hspace
  · rw [← List.append_nil (clauseText e p).toList, Script.toList_clauseText hep,
      List.takeWhile_append_of_pos hspace]
    simp

/-- With the name in the file, the text of a clause tells the name that it is published under. -/
theorem clauseText_injective (e : String) : Function.Injective (clauseText e) := by
  intro p p' h
  have hlength : ∀ q : String, e ≠ e ++ " as " ++ q := by
    intro q hq
    have hlen := congrArg String.length hq
    have has : " as ".length = 4 := rfl
    simp only [String.length_append] at hlen
    omega
  unfold clauseText at h
  by_cases hp : e = p <;> by_cases hp' : e = p'
  · exact hp.symm.trans hp'
  · rw [if_pos hp, if_neg hp', ← hp] at h
    exact absurd h (hlength p')
  · rw [if_neg hp, if_pos hp', ← hp'] at h
    exact absurd h.symm (hlength p)
  · rw [if_neg hp, if_neg hp'] at h
    exact String.append_right_inj _ |>.mp h

theorem clauseText_inj {a b : String × String} (ha : isAsciiName a.1) (hb : isAsciiName b.1)
    (h : clauseText a.1 a.2 = clauseText b.1 b.2) : a = b := by
  have hfirst : a.1 = b.1 := by
    have htake := takeWhile_clauseText (p := a.2) ha
    rw [h, takeWhile_clauseText hb] at htake
    exact (String.toList_injective htake).symm
  rw [hfirst] at h
  exact Prod.ext hfirst (clauseText_injective b.1 h)

def byText (clauses : List (String × String)) : List (String × String) :=
  clauses.mergeSort fun a b => (compare (clauseText a.1 a.2) (clauseText b.1 b.2)).isLE

@[simp] theorem mem_byText {clauses : List (String × String)} {c : String × String} :
    c ∈ byText clauses ↔ c ∈ clauses := List.mem_mergeSort

namespace Line

/-- The line as it is read back: each clause once, in the order of their text. -/
def decoded (ln : Line) : ExportLine := ⟨ln.origin, byText (firstOccurrences ln.shown)⟩

theorem mem_decoded {ln : Line} {c : String × String} :
    c ∈ ln.decoded.clauses ↔ c ∈ ln.shown := by
  rw [decoded, mem_byText, mem_firstOccurrences]

theorem text_decoded {ln : Line} (h : ∀ c ∈ ln.shown, isAsciiName c.1)
    (quote : QuoteStyle) : ln.decoded.text quote = ln.text quote := by
  have hinj : ∀ a ∈ ln.shown, ∀ b ∈ ln.shown,
      clauseText a.1 a.2 = clauseText b.1 b.2 → a = b :=
    fun a ha b hb => clauseText_inj (h a ha) (h b hb)
  have hwritten : ln.decoded.clauses.map (fun c => clauseText c.1 c.2) = ln.written := by
    rw [written, firstOccurrences_mergeSort, firstOccurrences_map hinj]
    exact List.map_mergeSort fun _ _ _ _ => rfl
  rw [ExportLine.text, hwritten]
  rfl

end Line

end Clauses

namespace Registry

variable {r : Registry} {won : List Request}

/-- The tables hold their keys in the order in which the registrations brought them. -/
structure KeysOf (r : Registry) (won : List Request) : Prop where
  names : r.names.keys = firstOccurrences (won.map (·.name))
  origins : r.origins.keys = firstOccurrences (won.map (·.origin))

theorem KeysOf.bindRequest (h : r.KeysOf won) (q : Request) :
    (r.bindRequest q).KeysOf (won ++ [q]) where
  names := by
    rw [List.map_append, List.map_singleton, firstOccurrences_concat, ← h.names]
    exact Table.keys_insert _ _ _
  origins := by
    rw [List.map_append, List.map_singleton, firstOccurrences_concat, ← h.origins]
    exact Table.keys_insert _ _ _

theorem KeysOf.enter (h : r.KeysOf won) (hi : r.Indexes won) (q : Request) :
    (r.enter q).KeysOf (letIn won q) := by
  have hbind := h.bindRequest q
  rcases hi.enter_cases q with ⟨hw, e⟩ | ⟨hw, e | e⟩
  · rw [hw, e]
    exact h
  · rw [hw, e]
    exact hbind
  · rw [hw, e]
    exact ⟨hbind.names, hbind.origins⟩

theorem KeysOf.enterAll (h : r.KeysOf won) (hi : r.Indexes won) (qs : List Request) :
    (r.enterAll qs).KeysOf (qs.foldl letIn won) := by
  induction qs generalizing r won with
  | nil => exact h
  | cons q qs ih => exact ih (h.enter hi q) (hi.enter q)

theorem keysOf_firstRequests (qs : List Request) : (empty.enterAll qs).KeysOf (firstRequests qs) :=
  KeysOf.enterAll ⟨rfl, rfl⟩ indexes_empty qs

def lineOf (r : Registry) (won : List Request) (o : String) : Line :=
  ⟨o, (won.filter (·.origin = o)).map fun q => (q.exported, published r.qualify o q.name)⟩

/-- The origins with their clauses. -/
theorem entries_origins (hs : r.Sound) :
    r.origins.entries = r.origins.keys.map fun o => (o, r.clauses o) := by
  refine Table.entries_eq r.origins hs.origins_nodup fun o ho => ?_
  obtain ⟨cs, hcs⟩ := (Table.mem_keys_iff r.origins o).mp ho
  rw [clauses, hcs]
  rfl

/-- Each origin that has come up has a clause. -/
theorem clauses_ne_nil (h : r.Indexes won) (hk : r.KeysOf won) {o : String}
    (ho : o ∈ r.origins.keys) : r.clauses o ≠ [] := by
  rw [hk.origins, mem_firstOccurrences] at ho
  obtain ⟨q, hq, rfl⟩ := List.mem_map.mp ho
  rw [h.clauses]
  exact List.ne_nil_of_mem (List.mem_map_of_mem (List.mem_filter.mpr ⟨hq, by simp⟩))

/-- The barrel has a line for each origin, in the order in which the origins came first. -/
theorem lines_eq (h : r.Indexes won) (hk : r.KeysOf won) (hs : r.Sound) :
    r.lines = (firstOccurrences (won.map (·.origin))).map (r.lineOf won) := by
  have hkeep : r.origins.keys.filter ((fun e : String × List Clause => !e.2.isEmpty) ∘
      fun o => (o, r.clauses o)) = r.origins.keys :=
    List.filter_eq_self.mpr fun o ho => by simpa using clauses_ne_nil h hk ho
  rw [lines, entries_origins hs, List.filter_map, List.map_map, hkeep, ← hk.origins]
  refine List.map_congr_left fun o _ => ?_
  simp only [Function.comp, lineOf, h.clauses, List.map_map]
  rfl

end Registry

section Plain

open Registry (empty published)

/-- The names of the registration are ASCII names, and its origin is an ASCII text without quotes,
backslashes and line breaks. -/
structure Request.Plain (q : Request) : Prop where
  name : isAsciiName q.name
  exported : isAsciiName q.exported
  ascii : isAscii q.origin
  unquoted : q.origin.toList.all (· ∉ ['"', '\x27', '\\', '\n', '\r'])

instance (q : Request) : Decidable q.Plain :=
  decidable_of_iff (isAsciiName q.name ∧ isAsciiName q.exported ∧ isAscii q.origin ∧
    q.origin.toList.all (· ∉ ['"', '\x27', '\\', '\n', '\r']))
    ⟨fun ⟨hn, he, ha, hu⟩ => ⟨hn, he, ha, hu⟩, fun h => ⟨h.name, h.exported, h.ascii, h.unquoted⟩⟩

variable {qs : List Request}

theorem mem_of_mem_firstRequests {q : Request} (h : q ∈ firstRequests qs) : q ∈ qs :=
  List.mem_of_find?_eq_some (mem_firstRequests.mp h)

/-- Where names are ASCII names and origins are ASCII texts, what is published is an ASCII name. -/
theorem isAsciiName_published (h : ∀ q ∈ qs, isAsciiName q.name ∧ isAscii q.origin) (o : String)
    {name : String} (hname : isAsciiName name) :
    isAsciiName (published (empty.enterAll qs).qualify o name) := by
  have hi := Registry.indexes_firstRequests qs
  have hk := Registry.keysOf_firstRequests qs
  have hfirst : ∀ q ∈ firstRequests qs, isAsciiName q.name ∧ isAscii q.origin :=
    fun q hq => h q (mem_of_mem_firstRequests hq)
  have hnames : ∀ n ∈ (empty.enterAll qs).overloadedNames, isAsciiName n := by
    intro n hn
    have hkey := (List.mem_filter.mp hn).1
    rw [hk.names, mem_firstOccurrences] at hkey
    obtain ⟨q, hq, rfl⟩ := List.mem_map.mp hkey
    exact (hfirst q hq).1
  refine Registry.published_of_offered (P := (isAsciiName ·)) ?_ hnames ?_ hname
  · intro a i ha
    exact Text.isAsciiName_numbered ha i
  · intro n hn o ho a ha
    obtain ⟨d, hd⟩ := Registry.mem_originsOf.mp ho
    obtain ⟨q, hq, _, rfl⟩ := hi.mem_bindings.mp hd
    exact isAsciiName_of_mem_candidates (hfirst q hq).2 (hnames n hn) ha

/-- The line of an origin of plain registrations can be read back. -/
theorem legible_lineOf (h : ∀ q ∈ qs, q.Plain) (quote : QuoteStyle) {q : Request}
    (hq : q ∈ firstRequests qs) :
    ((empty.enterAll qs).lineOf (firstRequests qs) q.origin).decoded.Legible quote where
  nonempty := by
    have hmem : (q.exported, published (empty.enterAll qs).qualify q.origin q.name) ∈
        ((empty.enterAll qs).lineOf (firstRequests qs) q.origin).shown :=
      List.mem_map.mpr ⟨q, List.mem_filter.mpr ⟨hq, by simp⟩, rfl⟩
    exact List.ne_nil_of_mem (Line.mem_decoded.mpr hmem)
  names := by
    intro c hc
    obtain ⟨q', hq', rfl⟩ := List.mem_map.mp (Line.mem_decoded.mp hc)
    have hplain := h q' (mem_of_mem_firstRequests (List.mem_filter.mp hq').1)
    have hascii : ∀ q ∈ qs, isAsciiName q.name ∧ isAscii q.origin :=
      fun q hq => ⟨(h q hq).name, (h q hq).ascii⟩
    exact ⟨hplain.exported, isAsciiName_published hascii _ hplain.name⟩
  holds := by
    intro c hc
    have hother := List.all_eq_true.mp (h q (mem_of_mem_firstRequests hq)).unquoted c hc
    simp only [decide_eq_true_eq, List.mem_cons, List.not_mem_nil, or_false, not_or] at hother
    obtain ⟨hdouble, hsingle, hrest⟩ := hother
    refine ⟨?_, hrest⟩
    rcases quote.mark_cases with hm | hm
    · exact hm ▸ hdouble
    · exact hm ▸ hsingle

def exportsOfLine (ln : ExportLine) : List ExportEntry :=
  ln.clauses.map fun c => .reexport c.2 ln.origin (.name c.1)

/-- Statements that lines are read as add the exports of the lines and nothing else. -/
theorem foldl_add_of_readAs {lines : List ExportLine} {sts : List Script.Statement}
    (h : List.Forall₂ (fun ln st => ln.ReadAs st.item) lines sts) (s : Summary) :
    sts.foldl (fun s st => s.add st.item) s =
      { s with exports := s.exports ++ lines.flatMap exportsOfLine } := by
  induction h generalizing s with
  | nil => simp
  | cons hread _ ih =>
    obtain ⟨source, hitem, hsource⟩ := hread
    rw [List.foldl_cons, ih, hitem]
    simp [Summary.add, exportsOfLine, hsource, Function.comp_def]

/-- The clauses that registrations ask for in the line of an origin, each once. -/
def registeredClauses (qs : List Request) (o : String) : List (String × String) :=
  firstOccurrences (((firstRequests qs).filter (·.origin = o)).map fun q =>
    (q.exported, published (empty.enterAll qs).qualify o q.name))

/-- The exports that registrations ask for: origin by origin in the order in which the origins came
first, and for each origin in the order of the text of its clauses. -/
def registeredExports (qs : List Request) : List ExportEntry :=
  (firstOccurrences ((firstRequests qs).map (·.origin))).flatMap fun o =>
    (byText (registeredClauses qs o)).map fun c => .reexport c.2 o (.name c.1)

/-- A barrel of plain registrations, read as a module, has the exports that were registered, and no
declarations or imports. -/
theorem summarize_render (h : ∀ q ∈ qs, q.Plain) (quote : QuoteStyle) {file : Path}
    (hfile : file.extension? = some "ts") :
    summarize file ("\n".intercalate ((empty.enterAll qs).render quote)) =
      .ok ⟨[], .empty, registeredExports qs⟩ := by
  have hlegible : ∀ o ∈ firstOccurrences ((firstRequests qs).map (·.origin)),
      ((empty.enterAll qs).lineOf (firstRequests qs) o).decoded.Legible quote := by
    intro o ho
    rw [mem_firstOccurrences] at ho
    obtain ⟨q, hq, rfl⟩ := List.mem_map.mp ho
    exact legible_lineOf h quote hq
  have htext : (empty.enterAll qs).render quote =
      ((firstOccurrences ((firstRequests qs).map (·.origin))).map fun o =>
        ((empty.enterAll qs).lineOf (firstRequests qs) o).decoded).map (·.text quote) := by
    rw [Registry.render_eq_lines, Registry.lines_eq (Registry.indexes_firstRequests qs)
      (Registry.keysOf_firstRequests qs) (Registry.sound_empty.enterAll qs), List.map_map,
      List.map_map]
    refine List.map_congr_left fun o ho => (Line.text_decoded ?_ quote).symm
    intro c hc
    exact ((hlegible o ho).names c (Line.mem_decoded.mpr hc)).1
  have htypes : (Script.Dialect.ofPath file).types = true := by
    simp [Script.Dialect.ofPath, hfile]
  obtain ⟨sts, hparse, hread⟩ := parse?_joined htypes (List.forall_mem_map.mpr hlegible)
  rw [joined, ← htext] at hparse
  rw [summarize, Linkage.statementsOf, hparse]
  have hsummary := foldl_add_of_readAs hread .empty
  rw [List.flatMap_map] at hsummary
  exact congrArg Except.ok hsummary

/-- Two files that export `type`, and one of them has a default export that is taken as `as`. -/
def overlapping : List Request :=
  [⟨"as", "default", 0, "./a"⟩, ⟨"type", "type", 1, "./a"⟩, ⟨"type", "type", 2, "./b"⟩,
    ⟨"as", "as", 0, "./b"⟩]

theorem overlapping_exports : registeredExports overlapping =
    [.reexport "as" "./a" (.name "default"), .reexport "aType" "./a" (.name "type"),
      .reexport "bType" "./b" (.name "type")] := by
  have horigins : firstOccurrences ((firstRequests overlapping).map (·.origin)) = ["./a", "./b"] := by
    decide +kernel
  have ha : byText (registeredClauses overlapping "./a") = [("default", "as"), ("type", "aType")] :=
    (List.mergeSort_of_pairwise (by decide +kernel)).trans (by decide +kernel)
  have hb : byText (registeredClauses overlapping "./b") = [("type", "bType")] :=
    (List.mergeSort_of_pairwise (by decide +kernel)).trans (by decide +kernel)
  rw [registeredExports, horigins]
  simp [ha, hb]

/-- Words that mean something in an export list are read back as names. -/
theorem overlapping_read_back :
    summarize ⟨true, ["index.ts"]⟩
        ("\n".intercalate ((empty.enterAll overlapping).render .single)) =
      .ok ⟨[], .empty, [.reexport "as" "./a" (.name "default"), .reexport "aType" "./a" (.name "type"),
        .reexport "bType" "./b" (.name "type")]⟩ := by
  rw [← overlapping_exports]
  exact summarize_render (by decide +kernel) .single (by decide +kernel)

end Plain

end BarrelAlias.Barrel
