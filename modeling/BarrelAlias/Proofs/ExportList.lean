import BarrelAlias.Barrel.Registry
import BarrelAlias.Proofs.Accepting

/-!
Export lists as a barrel spells them. Every clause is read back as the two names that it was written
with, also where a name is one of the words that mean something in a list: `type` and `as` are names
wherever a name is due.
-/

namespace BarrelAlias.Script

open Barrel (clauseText lineText)
open Text (isAsciiName)

section Entry

variable {ctx : Context} {cs mid rest : List Char} {t : Token} {w e p s : String}

theorem accepts_exportName (h : Lexes cs (.word w false) rest) :
    Accepts ctx exportName cs (· = ⟨w, false⟩) rest := by
  refine (accepts_advance h).bind fun l hl => ?_
  rw [hl]
  exact accepts_pure rfl

theorem accepts_atQuoted (h : Lexes cs t rest) (ht : ∀ v whole, t ≠ .quoted v whole) :
    Accepts ctx atQuoted cs (· = false) cs := by
  refine (accepts_peek h).bind fun l hl => ?_
  split
  · next v whole hv => exact absurd (hl.symm.trans hv) (ht v whole)
  · exact accepts_pure rfl

theorem accepts_atExportName (h : Lexes cs t rest) (ht : ∀ v whole, t ≠ .quoted v whole) :
    Accepts ctx atExportName cs (· = isWordToken t) cs := by
  have hword : Accepts ctx atAnyWord cs (· = isWordToken t) cs :=
    (accepts_peek h).bind fun l hl => accepts_pure (by rw [hl])
  refine hword.bind fun _ hw => (accepts_atQuoted h ht).bind fun _ hq => accepts_pure ?_
  rw [hw, hq, Bool.or_false]

/-- A name before a symbol is an entry. -/
theorem accepts_entry_name (h : Lexes cs (.word w false) mid) (hs : Lexes mid (.symbol s) rest) :
    Accepts ctx entry cs (· = ⟨⟨w, false⟩, ⟨w, false⟩, false⟩) mid := by
  have hname : Accepts ctx exportName cs (· = ⟨w, false⟩) mid := accepts_exportName h
  have has : Accepts ctx (eatWord "as") mid (· = false) mid := accepts_eatToken_ne hs (by simp)
  refine accepts_read.bind fun _ hctx => (accepts_atToken h (.word "type" false)).bind fun _ hb => ?_
  split
  · refine hname.bind ?_
    rintro _ rfl
    refine has.bind ?_
    rintro _ rfl
    refine (accepts_atExportName hs (by simp)).bind ?_
    rintro _ rfl
    exact accepts_pure rfl
  · refine hname.bind ?_
    rintro _ rfl
    refine has.bind ?_
    rintro _ rfl
    exact accepts_pure rfl

/-- Two names with `as` between them are an entry, whatever words they are. -/
theorem accepts_entry_as {mid₁ mid₂ : List Char} (h : Lexes cs (.word e false) mid₁)
    (has : Lexes mid₁ (.word "as" false) mid₂) (hp : Lexes mid₂ (.word p false) mid)
    (hs : Lexes mid (.symbol s) rest) :
    Accepts ctx entry cs (· = ⟨⟨e, false⟩, ⟨p, false⟩, false⟩) mid := by
  have hname : Accepts ctx exportName cs (· = ⟨e, false⟩) mid₁ := accepts_exportName h
  have hname' : Accepts ctx exportName mid₂ (· = ⟨p, false⟩) mid := accepts_exportName hp
  have heat : Accepts ctx (eatWord "as") mid₁ (· = true) mid₂ := accepts_eatToken has
  refine accepts_read.bind fun _ hctx => (accepts_atToken h (.word "type" false)).bind fun _ hb => ?_
  split
  · next htype =>
    -- after `type as` the second name may be `as` once more
    have he : e = "type" := by
      rw [hb] at htype
      simp_all
    subst he
    refine hname.bind fun _ _ => heat.bind ?_
    rintro _ rfl
    by_cases hpas : p = "as"
    · subst hpas
      refine Accepts.bind (accepts_eatToken hp) ?_
      rintro _ rfl
      refine (accepts_atExportName hs (by simp)).bind ?_
      rintro _ rfl
      exact accepts_pure rfl
    · refine Accepts.bind (accepts_eatToken_ne hp (by simpa using hpas)) ?_
      rintro _ rfl
      refine (accepts_atExportName hp (by simp)).bind ?_
      rintro _ rfl
      refine hname'.bind ?_
      rintro _ rfl
      exact accepts_pure rfl
  · refine hname.bind ?_
    rintro _ rfl
    refine heat.bind ?_
    rintro _ rfl
    refine hname'.bind ?_
    rintro _ rfl
    exact accepts_pure rfl

theorem endsWord_cons {c : Char} (h : c ∈ [' ', ',', ';']) (cs : List Char) : EndsWord (c :: cs) := by
  intro d hd
  cases hd
  simp only [List.mem_cons, List.not_mem_nil, or_false] at h
  rcases h with rfl | rfl | rfl <;> decide

theorem toList_clauseText (h : e ≠ p) (rest : List Char) :
    (clauseText e p).toList ++ rest =
      e.toList ++ (' ' :: ("as".toList ++ (' ' :: (p.toList ++ rest)))) := by
  simp [clauseText, h]

/-- A clause begins with the name in the file. -/
theorem lexes_clause (he : isAsciiName e) (hrest : EndsWord rest) :
    ∃ mid, Lexes (' ' :: ((clauseText e p).toList ++ rest)) (.word e false) mid := by
  by_cases hep : e = p
  · subst hep
    rw [clauseText, if_pos rfl]
    exact ⟨rest, (lexes_word he hrest).space⟩
  · rw [toList_clauseText hep]
    exact ⟨_, (lexes_word he (endsWord_cons (by decide) _)).space⟩

/-- A clause before a symbol is read back. -/
theorem accepts_clause (he : isAsciiName e) (hp : isAsciiName p) (hrest : EndsWord rest)
    (hs : Lexes rest (.symbol s) mid) :
    Accepts ctx entry (' ' :: ((clauseText e p).toList ++ rest)) (exportClause · = ⟨e, p⟩) rest := by
  by_cases hep : e = p
  · subst hep
    rw [clauseText, if_pos rfl]
    refine (accepts_entry_name (lexes_word he hrest).space hs).imp ?_
    rintro _ rfl
    rfl
  · rw [toList_clauseText hep]
    have hends := @endsWord_cons ' ' (by decide) ("as".toList ++ (' ' :: (p.toList ++ rest)))
    have has : Lexes (' ' :: ("as".toList ++ (' ' :: (p.toList ++ rest)))) (.word "as" false)
        (' ' :: (p.toList ++ rest)) :=
      (lexes_word (by decide) (endsWord_cons (by decide) _)).space
    refine (accepts_entry_as (lexes_word he hends).space has (lexes_word hp hrest).space hs).imp ?_
    rintro _ rfl
    rfl

end Entry

section Statement

variable {ctx : Context} {rest : List Char}

def spelled (clauses : List (String × String)) : List Char :=
  (", ".intercalate (clauses.map fun c => clauseText c.1 c.2)).toList

theorem spelled_cons_cons (c c' : String × String) (clauses : List (String × String)) :
    spelled (c :: c' :: clauses) =
      (clauseText c.1 c.2).toList ++ (',' :: ' ' :: spelled (c' :: clauses)) := by
  simp only [spelled, List.map_cons, String.intercalate_cons_cons, String.toList_append,
    List.append_assoc]
  rfl

/-- The clauses of a line are read back up to the brace that ends them. -/
theorem accepts_commaList {clauses : List (String × String)} (hne : clauses ≠ [])
    (h : ∀ c ∈ clauses, isAsciiName c.1 ∧ isAsciiName c.2) {fuel : Nat}
    (hfuel : clauses.length ≤ fuel) :
    Accepts ctx (commaList braceClose entry fuel)
      (' ' :: (spelled clauses ++ (' ' :: '\x7d' :: rest)))
      (fun es => es.map exportClause = clauses.map fun c => ⟨c.1, c.2⟩) rest := by
  induction clauses generalizing fuel with
  | nil => exact absurd rfl hne
  | cons c clauses ih =>
    obtain ⟨hc, hrest⟩ := List.forall_mem_cons.mp h
    obtain ⟨fuel, rfl⟩ : ∃ n, fuel = n + 1 := ⟨fuel - 1, by simp at hfuel; omega⟩
    cases clauses with
    | nil =>
      have hclose : Lexes (' ' :: '\x7d' :: rest) (.symbol braceClose) rest :=
        (lexes_symbol rest (by decide)).space
      have hends : EndsWord (' ' :: '\x7d' :: rest) := endsWord_cons (by decide) _
      have hspelled : spelled [c] = (clauseText c.1 c.2).toList := by simp [spelled]
      obtain ⟨mid, hword⟩ := lexes_clause (p := c.2) hc.1 hends
      rw [hspelled]
      refine (accepts_commaList_last hword (by simp) (accepts_clause hc.1 hc.2 hends hclose) hclose
        (by decide)).imp ?_
      rintro _ ⟨a, rfl, ha⟩
      simp [ha]
    | cons c' clauses =>
      have hcomma : Lexes (',' :: ' ' :: (spelled (c' :: clauses) ++ ' ' :: '\x7d' :: rest))
          (.symbol ",") _ := lexes_symbol _ (by decide)
      have hends := @endsWord_cons ',' (by decide)
        (' ' :: (spelled (c' :: clauses) ++ ' ' :: '\x7d' :: rest))
      obtain ⟨mid, hword⟩ := lexes_clause (p := c.2) hc.1 hends
      have htail := @ih (by simp) hrest fuel (by simp at hfuel ⊢; omega)
      rw [spelled_cons_cons, List.append_assoc, List.cons_append, List.cons_append]
      refine (accepts_commaList_cons hword (by simp) (accepts_clause hc.1 hc.2 hends hcomma) hcomma
        htail).imp ?_
      rintro _ ⟨a, es, rfl, ha, hes⟩
      rw [List.map_cons, List.map_cons, ha, hes]

/-- A line of a barrel as it is read back: where its exports come from, and each name there with the
name that it is exported under. -/
structure ExportLine where
  origin : String
  clauses : List (String × String)
deriving DecidableEq, Repr

namespace ExportLine

def text (quote : QuoteStyle) (ln : ExportLine) : String :=
  lineText quote ln.origin (ln.clauses.map fun c => clauseText c.1 c.2)

/-- The clauses have ASCII names, and the quotes hold the origin. -/
structure Legible (quote : QuoteStyle) (ln : ExportLine) : Prop where
  nonempty : ln.clauses ≠ []
  names : ∀ c ∈ ln.clauses, isAsciiName c.1 ∧ isAsciiName c.2
  holds : quote.Holds ln.origin

/-- The statement exports the clauses from the origin. -/
def ReadAs (ln : ExportLine) (item : Item) : Prop :=
  ∃ source, item = .exportList (ln.clauses.map fun c => ⟨c.1, c.2⟩) (some source) ∧
    source.value = ln.origin

def fromSpecifier (quote : QuoteStyle) (ln : ExportLine) (rest : List Char) : List Char :=
  ' ' :: ((quote.quote ln.origin).toList ++ (';' :: rest))

def fromBrace (quote : QuoteStyle) (ln : ExportLine) (rest : List Char) : List Char :=
  ' ' :: '\x7b' :: ' ' :: (spelled ln.clauses ++
    (' ' :: '\x7d' :: ' ' :: ("from".toList ++ ln.fromSpecifier quote rest)))

theorem toList_text (quote : QuoteStyle) (ln : ExportLine) (rest : List Char) :
    (ln.text quote).toList ++ rest = "export".toList ++ ln.fromBrace quote rest := by
  simp [text, lineText, fromBrace, fromSpecifier, spelled]

end ExportLine

variable {g : Grammar} {quote : QuoteStyle} {ln : ExportLine}

/-- The specifier of a line is read up to the semicolon after it. -/
theorem accepts_fromModule (g : Grammar) (h : quote.Holds ln.origin) :
    Accepts ctx (fromModule g) (ln.fromSpecifier quote rest) (·.value = ln.origin) rest := by
  obtain ⟨whole, hquoted⟩ := lexes_quote quote h (';' :: rest)
  have hsemi : Lexes (';' :: rest) (.symbol ";") rest := lexes_symbol rest (by decide)
  have hspecifier : Accepts ctx specifier (ln.fromSpecifier quote rest) (·.value = ln.origin)
      (';' :: rest) := by
    refine (accepts_advance hquoted.space).bind fun l hl => ?_
    rw [hl]
    exact accepts_pure rfl
  have hline : Accepts ctx onNewLine (';' :: rest) (fun _ => True) (';' :: rest) :=
    (accepts_peek hsemi).bind fun _ _ => accepts_pure trivial
  have hattributes : Accepts ctx (optionalAttributes g.rounds) (';' :: rest) (fun _ => True)
      (';' :: rest) := by
    refine Accepts.bind (accepts_eatToken_ne hsemi (by simp)) ?_
    rintro _ rfl
    refine Accepts.bind (accepts_atToken hsemi _) ?_
    rintro _ rfl
    exact hline.bind fun _ _ => accepts_pure trivial
  have hend : Accepts ctx endStatement (';' :: rest) (fun _ => True) rest := by
    refine Accepts.bind (accepts_eatToken hsemi) ?_
    rintro _ rfl
    exact accepts_pure trivial
  refine hspecifier.bind fun a ha => ?_
  exact hattributes.bind fun _ _ => hend.bind fun _ _ => accepts_pure ha

theorem lexes_fromBrace (quote : QuoteStyle) (ln : ExportLine) (rest : List Char) :
    ∃ mid, Lexes (ln.fromBrace quote rest) (.symbol braceOpen) mid :=
  ⟨_, (lexes_symbol _ (by decide)).space⟩

theorem accepts_exportListRule (h : ln.Legible quote) (hg : ln.clauses.length ≤ g.rounds) :
    Accepts ctx (exportListRule g false) (ln.fromBrace quote rest) ln.ReadAs rest := by
  have hopen : Lexes (ln.fromBrace quote rest) (.symbol braceOpen) _ :=
    (lexes_symbol _ (by decide)).space
  have hfrom : Lexes (' ' :: ("from".toList ++ ln.fromSpecifier quote rest)) (.word "from" false)
      (ln.fromSpecifier quote rest) :=
    (lexes_word (by decide) (endsWord_cons (by decide) _)).space
  have hlist : Accepts ctx (entryList g false) (ln.fromBrace quote rest)
      (fun es => es.map exportClause = ln.clauses.map fun c => ⟨c.1, c.2⟩)
      (' ' :: ("from".toList ++ ln.fromSpecifier quote rest)) := by
    refine Accepts.bind (accepts_expectToken hopen) fun _ _ => ?_
    refine (accepts_commaList h.nonempty h.names hg).bind fun es hes => ?_
    exact Accepts.bind (accepts_pure (Q := fun _ => True) trivial) fun _ _ => accepts_pure hes
  refine hlist.bind fun es hes => Accepts.bind (accepts_eatToken hfrom) ?_
  rintro _ rfl
  refine (accepts_fromModule g h.holds).bind fun source hsource => accepts_pure ?_
  exact ⟨source, by rw [hes], hsource⟩

theorem accepts_exportRule (h : ln.Legible quote) (hg : ln.clauses.length ≤ g.rounds)
    {cs : List Char} (hexport : Lexes cs (.word "export" false) (ln.fromBrace quote rest)) :
    Accepts ctx (exportRule g) cs ln.ReadAs rest := by
  obtain ⟨_, hopen⟩ := lexes_fromBrace quote ln rest
  refine Accepts.bind (accepts_expectToken hexport) fun _ _ => ?_
  refine Accepts.bind (accepts_eatToken_ne hopen (by simp)) ?_
  rintro _ rfl
  refine Accepts.bind (accepts_atToken hopen _) ?_
  rintro _ rfl
  refine Accepts.bind (accepts_atToken hopen _) ?_
  rintro _ rfl
  exact accepts_exportListRule h hg

/-- A line is one statement, whatever stands before its first word. -/
theorem accepts_statementRule (h : ln.Legible quote) (hg : ln.clauses.length ≤ g.rounds)
    {cs : List Char} (hexport : Lexes cs (.word "export" false) (ln.fromBrace quote rest)) :
    Accepts ctx (statementRule g false) cs ln.ReadAs rest := by
  refine (accepts_peek hexport).bind fun l hl => ?_
  rw [hl]
  exact accepts_exportRule h hg hexport

end Statement

section Script

variable {ctx : Context} {quote : QuoteStyle} {rounds depth : Nat} {ln : ExportLine}
  {lines : List ExportLine}

theorem lexes_line (quote : QuoteStyle) (ln : ExportLine) (rest : List Char) :
    Lexes ((ln.text quote).toList ++ rest) (.word "export" false) (ln.fromBrace quote rest) := by
  rw [ln.toList_text]
  exact lexes_word (by decide) (endsWord_cons (by decide) _)

theorem accepts_nextStatement (h : ln.Legible quote) (hrounds : ln.clauses.length ≤ rounds)
    {cs rest : List Char} (hexport : Lexes cs (.word "export" false) (ln.fromBrace quote rest)) :
    Accepts ctx (nextStatement (.ofDepth rounds (depth + 2))) cs
      (fun st? => ∃ st, st? = some st ∧ ln.ReadAs st.item) rest := by
  have hstart : Accepts ctx nextStart cs (fun _ => True) cs :=
    (accepts_peek hexport).bind fun _ _ => accepts_pure trivial
  have hstatement : Accepts ctx ((Grammar.ofDepth rounds (depth + 2)).statement false) cs
      ln.ReadAs rest :=
    accepts_statementRule (g := .ofDepth rounds (depth + 1)) h hrounds hexport
  have hstop : Accepts ctx lastStop rest (fun _ => True) rest :=
    fun start newline => ⟨start, _, rfl, trivial, start, newline, rfl⟩
  have hplaced : Accepts ctx (placedStatement (.ofDepth rounds (depth + 2))) cs
      (fun st => ln.ReadAs st.item) rest :=
    hstart.bind fun _ _ => hstatement.bind fun _ hitem => hstop.bind fun _ _ => accepts_pure hitem
  refine Accepts.bind (accepts_atToken hexport _) ?_
  rintro _ rfl
  exact hplaced.bind fun st hst => accepts_pure ⟨st, rfl, hst⟩

theorem ExportLine.ReadAs.shift {st : Statement} (n : Nat) (h : ln.ReadAs st.item) :
    ln.ReadAs (st.shift n).item := by
  obtain ⟨source, hitem, hsource⟩ := h
  refine ⟨{ source with span := source.span.shift n }, ?_, hsource⟩
  rw [Statement.shift, hitem]
  rfl

/-- The text is read as these lines, one statement for each. -/
def ReadBack (ctx : Context) (lines : List ExportLine) (cs : List Char) : Prop :=
  ∀ fuel newline, cs.length < fuel → ∃ sts, statements ctx fuel newline cs = some sts ∧
    List.Forall₂ (fun ln st => ln.ReadAs st.item) lines sts

theorem readBack_nil : ReadBack ctx [] [] := by
  intro fuel newline hfuel
  obtain ⟨fuel, rfl⟩ : ∃ n, fuel = n + 1 := ⟨fuel - 1, by omega⟩
  exact ⟨[], rfl, .nil⟩

/-- A line before lines that are read back is read back with them. -/
theorem readBack_cons (h : ln.Legible quote) {cs rest : List Char}
    (hexport : Lexes cs (.word "export" false) (ln.fromBrace quote rest))
    (hless : ln.clauses.length + rest.length < cs.length) (hrest : ReadBack ctx lines rest) :
    ReadBack ctx (ln :: lines) cs := by
  intro fuel newline hfuel
  obtain ⟨fuel, rfl⟩ : ∃ n, fuel = n + 1 := ⟨fuel - 1, by omega⟩
  have hrounds : ln.clauses.length ≤ cs.length + 2 := by omega
  have hfirst : Accepts ctx (nextStatement (.forLength cs.length)) cs
      (fun st? => ∃ st, st? = some st ∧ ln.ReadAs st.item) rest :=
    accepts_nextStatement h hrounds hexport
  obtain ⟨_, next, hrun, ⟨st, rfl, hst⟩, stop, newline', hnext⟩ := hfirst 0 newline
  have hend : next.val.rest = rest := by rw [hnext]; rfl
  obtain ⟨sts, hsts, hread⟩ := hrest fuel false (by omega)
  rw [← hend] at hsts
  have hshorter : next.val.rest.length < cs.length := by rw [hend]; omega
  refine ⟨_, statements_of_next hrun hshorter hsts, .cons hst ?_⟩
  rw [List.forall₂_map_right_iff]
  exact hread.imp fun _ _ hst => hst.shift _

/-- The lines that follow the first one, each after a line break. -/
def laterLines (quote : QuoteStyle) (lines : List ExportLine) : List Char :=
  lines.flatMap fun ln => '\n' :: (ln.text quote).toList

/-- The text of lines with a line break between any two. -/
def joined (quote : QuoteStyle) (lines : List ExportLine) : String :=
  "\n".intercalate (lines.map (·.text quote))

theorem toList_joined_cons (quote : QuoteStyle) (ln : ExportLine) (lines : List ExportLine) :
    (joined quote (ln :: lines)).toList = (ln.text quote).toList ++ laterLines quote lines := by
  unfold joined
  rw [List.map_cons]
  generalize ln.text quote = first
  induction lines generalizing first with
  | nil => simp [laterLines]
  | cons ln' lines ih =>
    rw [List.map_cons, String.intercalate_cons_cons, String.toList_append, String.toList_append, ih]
    simp [laterLines]

/-- A text is as long as it has clauses. -/
theorem length_spelled (clauses : List (String × String)) :
    clauses.length ≤ (spelled clauses).length + 1 := by
  induction clauses with
  | nil => simp
  | cons c clauses ih =>
    cases clauses with
    | nil => simp
    | cons c' clauses =>
      rw [spelled_cons_cons]
      simp only [List.length_cons, List.length_append] at ih ⊢
      omega

theorem length_text (quote : QuoteStyle) (ln : ExportLine) :
    ln.clauses.length < (ln.text quote).toList.length := by
  have hspelled := length_spelled ln.clauses
  have htext := congrArg List.length (ln.toList_text quote [])
  simp only [ExportLine.fromBrace, List.append_nil, List.length_append, List.length_cons] at htext
  omega

/-- Lines are read back one by one up to the end of the text. -/
theorem readBack_laterLines (h : ∀ ln ∈ lines, ln.Legible quote) :
    ReadBack ctx lines (laterLines quote lines) := by
  induction lines with
  | nil => exact readBack_nil
  | cons ln lines ih =>
    rw [List.forall_mem_cons] at h
    have htext := length_text quote ln
    have hline := (lexes_line quote ln (laterLines quote lines)).line
    have hcons : laterLines quote (ln :: lines) =
        '\n' :: ((ln.text quote).toList ++ laterLines quote lines) := by simp [laterLines]
    rw [hcons]
    refine readBack_cons h.1 hline ?_ (ih h.2)
    simp only [List.length_append, List.length_cons]
    omega

theorem readBack_joined (h : ∀ ln ∈ lines, ln.Legible quote) :
    ReadBack ctx lines (joined quote lines).toList := by
  cases lines with
  | nil => exact readBack_nil
  | cons ln lines =>
    rw [List.forall_mem_cons] at h
    have htext := length_text quote ln
    rw [toList_joined_cons]
    refine readBack_cons h.1 (lexes_line quote ln _) ?_ (readBack_laterLines h.2)
    rw [List.length_append]
    omega

theorem skipInterpreter_joined (quote : QuoteStyle) (lines : List ExportLine) :
    skipInterpreter (joined quote lines).toList = (0, (joined quote lines).toList) := by
  cases lines with
  | nil => rfl
  | cons ln lines =>
    rw [toList_joined_cons, ln.toList_text]
    rfl

/-- The lines of a barrel are the statements of its text. -/
theorem parse?_joined {d : Dialect} (hd : d.types = true) (h : ∀ ln ∈ lines, ln.Legible quote) :
    ∃ sts, parse? d (joined quote lines).toList = some sts ∧
      List.Forall₂ (fun ln st => ln.ReadAs st.item) lines sts := by
  obtain ⟨sts, hsts, hread⟩ :=
    @readBack_joined (.ofDialect d) quote lines h ((joined quote lines).toList.length + 1) true
      (Nat.lt_succ_self _)
  refine ⟨sts.map (·.shift 0), ?_, ?_⟩
  · unfold parse?
    rw [skipInterpreter_joined]
    simp [hsts, hd]
  · rw [List.forall₂_map_right_iff]
    exact hread.imp fun _ _ hst => hst.shift 0

end Script

end BarrelAlias.Script
