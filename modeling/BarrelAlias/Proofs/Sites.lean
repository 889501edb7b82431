import BarrelAlias.Proofs.Plain
import BarrelAlias.Proofs.Rewriting

/-!
Where the sites of a text stand. A parser never goes back, so the specifier of a statement is a quoted
text between the start of the statement and its end, and statements follow one another. The rules that
return a statement are gone through one by one; of all other rules it matters only that they go on.
-/

namespace BarrelAlias.Script

open Text (byteLength GoesOn Span)
open Linkage (specifierOf?)

/-- In a text that begins at byte `n`, a quoted text of this value stands at the stretch. -/
def Reads (n : Nat) (cs : List Char) (span : Span) (value : String) : Prop :=
  ∃ lit rest whole, GoesOn n cs span.start (lit ++ rest) ∧ span.stop = span.start + byteLength lit ∧
    scanToken (lit ++ rest) = some ⟨.quoted value whole, lit, rest⟩

theorem Reads.of_goesOn {n m : Nat} {cs ds : List Char} {span : Span} {value : String}
    (h : GoesOn n cs m ds) (hr : Reads m ds span value) : Reads n cs span value := by
  obtain ⟨lit, rest, whole, hstart, hr⟩ := hr
  exact ⟨lit, rest, whole, h.trans hstart, hr⟩

/-- What is read in a text is read further on with more bytes in front. -/
theorem Reads.shift {cs : List Char} {span : Span} {value : String} (n : Nat)
    (h : Reads 0 cs span value) : Reads n cs (span.shift n) value := by
  obtain ⟨lit, rest, whole, hstart, hstop, hscan⟩ := h
  exact ⟨lit, rest, whole, hstart.shift n, by rw [Span.shift, hstop, Nat.add_assoc], hscan⟩

theorem Reads.le {n : Nat} {cs : List Char} {span : Span} {value : String}
    (h : Reads n cs span value) : n ≤ span.start := by
  obtain ⟨_, _, _, hstart, _⟩ := h
  exact hstart.le

/-- The stretch of a quoted text fits the text. -/
theorem Reads.fits {cs : List Char} {span : Span} {value : String} (h : Reads 0 cs span value) :
    span.Fits cs := by
  obtain ⟨lit, rest, _, hstart, hstop, _⟩ := h
  have hend : GoesOn 0 cs span.stop rest := hstart.trans (hstop ▸ .of_append span.start lit rest)
  exact ⟨by omega, hstart.isBoundary, hend.isBoundary⟩

/-- What is read at a stretch is read from its first character to its last. -/
theorem reads_append_iff (front lit rest : List Char) (value : String) :
    Reads 0 (front ++ (lit ++ rest)) ⟨byteLength front, byteLength front + byteLength lit⟩ value ↔
      ∃ whole, scanToken (lit ++ rest) = some ⟨.quoted value whole, lit, rest⟩ := by
  constructor
  · rintro ⟨lit', rest', whole, ⟨front', hfront, hstart⟩, hstop, hscan⟩
    simp only [Nat.zero_add] at hstart hstop
    obtain ⟨_, htext⟩ := Text.append_inj_of_byteLength hfront hstart.symm
    obtain ⟨rfl, rfl⟩ := Text.append_inj_of_byteLength htext (by omega)
    exact ⟨whole, hscan⟩
  · rintro ⟨whole, hscan⟩
    exact ⟨lit, rest, whole, ⟨front, rfl, (Nat.zero_add _).symm⟩, rfl, hscan⟩

section Places

variable {α β : Type} {view : α → Option Specifier} {view' : β → Option Specifier}

/-- The specifier of what is read, if it has one, is read between the two cursors. -/
def Places (view : α → Option Specifier) (c : Cursor) (a : α) (d : Cursor) : Prop :=
  ∀ sp, view a = some sp → Reads c.stop c.rest sp.span sp.value ∧ sp.span.stop ≤ d.stop

/-- The same, and the specifier does not stand before the token ahead. -/
def PlacesAhead (view : α → Option Specifier) (c : Cursor) (a : α) (d : Cursor) : Prop :=
  ∀ sp, view a = some sp → ∃ l, c.ahead = some l ∧
    Reads l.span.start l.source sp.span sp.value ∧ sp.span.stop ≤ d.stop

variable {c d e : Cursor} {a : α} {b : β}

theorem places_of_none (h : view a = none) : Places view c a d := by
  intro sp hsp
  rw [h] at hsp
  cases hsp

theorem placesAhead_of_none (h : view a = none) : PlacesAhead view c a d := by
  intro sp hsp
  rw [h] at hsp
  cases hsp

theorem Places.keep (h : Places view c a d) (hde : d.Before e) (hb : view' b = view a) :
    Places view' c b e := by
  intro sp hsp
  obtain ⟨hr, hstop⟩ := h sp (hb ▸ hsp)
  exact ⟨hr, Nat.le_trans hstop (GoesOn.le hde)⟩

theorem Places.before (hcd : c.Before d) (h : Places view d a e) : Places view c a e := by
  intro sp hsp
  obtain ⟨hr, hstop⟩ := h sp hsp
  exact ⟨hr.of_goesOn hcd, hstop⟩

theorem Places.past (hcd : c.Past d) (h : Places view d a e) : PlacesAhead view c a e := by
  intro sp hsp
  obtain ⟨l, hl, hd⟩ := hcd
  obtain ⟨hr, hstop⟩ := h sp hsp
  exact ⟨l, hl, hr.of_goesOn hd, hstop⟩

theorem PlacesAhead.places (h : PlacesAhead view c a d) : Places view c a d := by
  intro sp hsp
  obtain ⟨l, hl, hr, hstop⟩ := h sp hsp
  exact ⟨hr.of_goesOn (c.standsIn l hl).source, hstop⟩

variable {p : Parser α} {f : α → Parser β}

/-- The specifier comes from the second parser. -/
theorem places_skip (hf : ∀ a, Ensures (f a) (Places view')) : Ensures (p >>= f) (Places view') :=
  Ensures.bind (Q := fun _ _ _ => True) (fun _ _ _ _ _ => trivial) hf fun hcd _ _ h =>
    h.before hcd

/-- The specifier comes from the first parser. -/
theorem places_keep (hp : Ensures p (Places view))
    (hf : ∀ a, Ensures (f a) fun _ b _ => view' b = view a) : Ensures (p >>= f) (Places view') :=
  Ensures.bind hp hf fun _ hde h hb => h.keep hde hb

theorem places_plain (hp : Ensures p fun _ a _ => view a = none) : Ensures p (Places view) :=
  fun ctx c a d hrun => places_of_none (hp ctx c a d hrun)

/-- A parser that takes nothing may go before. -/
theorem placesAhead_stays (hp : Stays p) (hf : ∀ a, Ensures (f a) (PlacesAhead view')) :
    Ensures (p >>= f) (PlacesAhead view') :=
  Ensures.bind hp hf fun _ _ hd h => by rwa [hd] at h

/-- After the first token it is enough that the specifier is read further on. -/
theorem placesAhead_past (hp : Ensures p fun c _ d => c.Past d)
    (hf : ∀ a, Ensures (f a) (Places view')) : Ensures (p >>= f) (PlacesAhead view') :=
  Ensures.bind hp hf fun _ _ hcd h => h.past hcd

theorem placesAhead_plain (hp : Ensures p fun _ a _ => view a = none) :
    Ensures p (PlacesAhead view) :=
  fun ctx c a d hrun => placesAhead_of_none (hp ctx c a d hrun)

end Places

/-- A specifier is read where it stands. -/
theorem places_specifier : Ensures specifier (Places some) := by
  refine Ensures.bind ensures_advance (R := fun l d sp e =>
    sp.span = l.span ∧ (∃ w, l.token = .quoted sp.value w) ∧ d.Before e) ?_ ?_
  · intro l
    split
    · next v w hl => exact ensures_pure fun d => ⟨rfl, ⟨w, hl⟩, .refl d⟩
    · exact ensures_refuse
  · intro c l d sp e _ _ hl hsp _ hview
    cases hview
    obtain ⟨hahead, hstop, _⟩ := hl
    obtain ⟨hspan, ⟨w, htoken⟩, hde⟩ := hsp
    have hin := c.standsIn l hahead
    obtain ⟨lit, hscan⟩ := hin.quoted _ _ htoken
    have hsource : lit ++ l.rest = l.source := scanToken_split hscan
    obtain ⟨taken, htaken, hend⟩ := hin.rest
    have hlit : taken = lit := List.append_cancel_right (htaken.trans hsource.symm)
    rw [hlit] at hend
    refine ⟨⟨lit, l.rest, w, ?_, ?_, ?_⟩, ?_⟩
    · rw [hspan, hsource]
      exact hin.source
    · rw [hspan, hend]
    · rw [hsource, hscan]
    · rw [hspan, ← hstop]
      exact GoesOn.le hde

/-- What names another module is read before the end of its statement. -/
theorem places_fromModule (g : Grammar) : Ensures (fromModule g) (Places some) := by
  refine places_keep places_specifier fun s => ?_
  exact ensures_skip fun _ => ensures_skip fun _ => ensures_pure fun _ => rfl

theorem places_importFrom (g : Grammar) (first : Option String) (isType : Bool) :
    Ensures (importFrom g first isType) (Places specifierOf?) := by
  have hfrom (clauses : List ImportClause) :
      Ensures (do
        expectWord "from"
        return .importFrom clauses (← fromModule g)) (Places specifierOf?) :=
    places_skip fun _ => places_keep (places_fromModule g) fun _ => ensures_pure fun _ => rfl
  unfold importFrom
  split
  · exact places_skip hfrom
  · refine places_skip fun comma => ?_
    cases comma with
    | true => exact places_skip fun _ => places_skip hfrom
    | false => exact places_skip hfrom

section Rules

variable (g : Grammar)

theorem placesAhead_importRule : Ensures (importRule g) (PlacesAhead specifierOf?) := by
  refine placesAhead_past ensures_expectToken fun _ => ?_
  refine places_skip fun isBare => ?_
  cases isBare with
  | true => exact places_keep (places_fromModule g) fun _ => ensures_pure fun _ => rfl
  | false =>
    refine places_skip fun head => places_skip fun ctx => ?_
    split
    · refine places_skip fun isSign => ?_
      cases isSign with
      | true => exact places_skip fun _ => places_plain (ensures_pure fun _ => rfl)
      | false => exact places_importFrom g head.1 head.2
    · exact places_importFrom g head.1 head.2

theorem places_exportListRule (isType : Bool) :
    Ensures (exportListRule g isType) (Places specifierOf?) := by
  refine places_skip fun es => places_skip fun isFrom => ?_
  cases isFrom with
  | true => exact places_keep (places_fromModule g) fun _ => ensures_pure fun _ => rfl
  | false =>
    exact places_skip fun _ => places_skip fun _ => places_plain (ensures_pure fun _ => rfl)

theorem places_exportAllRule : Ensures (exportAllRule g) (Places specifierOf?) := by
  have hfrom (n : Option String) :
      Ensures (do
        expectWord "from"
        return .exportAll n (← fromModule g)) (Places specifierOf?) :=
    places_skip fun _ => places_keep (places_fromModule g) fun _ => ensures_pure fun _ => rfl
  refine places_skip fun _ => places_skip fun isNamed => ?_
  cases isNamed with
  | true => exact places_skip fun _ => places_skip hfrom
  | false => exact places_skip hfrom

theorem places_typedExport : Ensures (typedExport g) (Places (·.bind specifierOf?)) := by
  unfold typedExport
  repeat' first
    | exact places_keep (places_exportAllRule g) fun _ => ensures_pure fun _ => rfl
    | exact places_keep (places_exportListRule g true) fun _ => ensures_pure fun _ => rfl
    | exact places_plain (ensures_pure fun _ => rfl)
    | refine places_skip fun _ => ?_
    | split

theorem placesAhead_exportRule : Ensures (exportRule g) (PlacesAhead specifierOf?) := by
  have hplain : Ensures (exportedDeclaration g) (Places specifierOf?) :=
    places_plain (plain_exportedDeclaration g)
  have htyped {p : Parser (Option Item)} {f : Option Item → Parser Item}
      (hp : Ensures p (Places (·.bind specifierOf?))) (hsome : ∀ i, f (some i) = pure i)
      (hnone : f none = exportedDeclaration g) : Ensures (p >>= f) (Places specifierOf?) := by
    refine Ensures.bind hp (R := fun i? => i?.elim (Places specifierOf?)
      fun i d j e => j = i ∧ d.Before e) ?_ ?_
    · intro i?
      cases i? with
      | some i => exact hsome i ▸ ensures_pure fun d => ⟨rfl, .refl d⟩
      | none => exact hnone ▸ hplain
    · intro c i? d j e hcd _ hi hj
      cases i? with
      | some i => exact hi.keep hj.2 (congrArg specifierOf? hj.1)
      | none => exact hj.before hcd
  refine placesAhead_past ensures_expectToken fun _ => ?_
  refine places_skip fun isDefault => ?_
  cases isDefault with
  | true => exact places_plain (plain_exportDefaultRule g)
  | false =>
    refine places_skip fun isStar => ?_
    cases isStar with
    | true => exact places_exportAllRule g
    | false =>
      refine places_skip fun isList => ?_
      cases isList with
      | true => exact places_exportListRule g false
      | false =>
        refine places_skip fun ctx => ?_
        split
        · exact htyped (places_typedExport g) (fun _ => rfl) rfl
        · exact htyped (places_plain (ensures_pure fun _ => rfl)) (fun _ => rfl) rfl

theorem placesAhead_statementRule (isSingle : Bool) :
    Ensures (statementRule g isSingle) (PlacesAhead specifierOf?) := by
  refine placesAhead_stays stays_peek fun l => ?_
  have hexpression := placesAhead_plain (plain_expressionRule g)
  split
  · exact placesAhead_plain (ensures_skip fun _ => ensures_pure fun _ => rfl)
  · exact placesAhead_plain (plain_decoratedRule g)
  · split
    · exact placesAhead_plain (ensures_skip fun _ => ensures_pure fun _ => rfl)
    · exact hexpression
  · split
    · exact placesAhead_plain (ensures_skip fun _ => ensures_skip fun _ => ensures_pure fun _ => rfl)
    · split
      · exact placesAhead_exportRule g
      · split
        · exact placesAhead_plain (plain_letRule g isSingle)
        · refine placesAhead_stays stays_atImport fun isImport => ?_
          cases isImport with
          | true => exact placesAhead_importRule g
          | false => exact placesAhead_plain (plain_declarationRule g isSingle)
  · exact hexpression

end Rules

theorem placesAhead_statement (rounds depth : Nat) (isSingle : Bool) :
    Ensures ((Grammar.ofDepth rounds depth).statement isSingle) (PlacesAhead specifierOf?) := by
  cases depth with
  | zero => exact ensures_refuse
  | succ depth => exact placesAhead_statementRule (.ofDepth rounds depth) isSingle

/-- The statement begins with the token ahead of the first cursor and ends with the token before the
second. -/
structure Statement.Between (st : Statement) (c d : Cursor) : Prop where
  span : ∃ l, c.ahead = some l ∧ st.span = ⟨l.span.start, d.stop⟩
  places : PlacesAhead specifierOf? c st.item d

theorem between_placedStatement (rounds depth : Nat) :
    Ensures (placedStatement (.ofDepth rounds depth)) fun c st d => st.Between c d := by
  have hstart : Ensures nextStart fun c n d => d = c ∧ ∃ l, c.ahead = some l ∧ n = l.span.start := by
    refine Ensures.bind ensures_peek (R := fun l c n d => n = l.span.start ∧ d = c)
      (fun l => ensures_pure fun _ => ⟨rfl, rfl⟩) ?_
    rintro c l d n e _ _ ⟨rfl, hl⟩ ⟨rfl, rfl⟩
    exact ⟨rfl, l, hl, rfl⟩
  have hstop : Ensures lastStop fun c n d => n = c.stop ∧ d = c := by
    intro ctx c n d hrun
    cases hrun
    exact ⟨rfl, rfl⟩
  refine Ensures.bind hstart (R := fun start c st d =>
    st.span = ⟨start, d.stop⟩ ∧ PlacesAhead specifierOf? c st.item d) (fun start => ?_) ?_
  · refine Ensures.bind (placesAhead_statement rounds depth false) (R := fun item c st d =>
      st = ⟨item, ⟨start, c.stop⟩⟩ ∧ d = c) (fun item => ?_) ?_
    · refine Ensures.bind hstop (R := fun stop c st d => st = ⟨item, ⟨start, stop⟩⟩ ∧ d = c)
        (fun stop => ensures_pure fun _ => ⟨rfl, rfl⟩) ?_
      rintro c stop d st e _ _ ⟨rfl, rfl⟩ h
      exact h
    · rintro c item d st e _ _ h ⟨rfl, rfl⟩
      exact ⟨rfl, h⟩
  · rintro c start d st e _ _ ⟨rfl, l, hl, rfl⟩ ⟨hspan, hplaces⟩
    exact ⟨⟨l, hl, hspan⟩, hplaces⟩

/-- What a parser of one statement finds: a statement, or that there is none. -/
def Finds (c : Cursor) : Option Statement → Cursor → Prop
  | some st => fun d => st.Between c d
  | none => fun d => d = c

theorem finds_nextStatement (rounds depth : Nat) :
    Ensures (nextStatement (.ofDepth rounds depth)) Finds := by
  refine Ensures.bind stays_atToken (R := fun _ => Finds) (fun atEnd => ?_) fun _ _ hd h => by
    rwa [hd] at h
  cases atEnd with
  | true => exact ensures_pure fun _ => rfl
  | false =>
    refine Ensures.bind (between_placedStatement rounds depth) (R := fun st c st? d =>
      st? = some st ∧ d = c) (fun st => ensures_pure fun _ => ⟨rfl, rfl⟩) ?_
    rintro c st d _ e _ _ hst ⟨rfl, rfl⟩
    exact hst

theorem skipInterpreter_goesOn (cs : List Char) :
    GoesOn 0 cs (skipInterpreter cs).1 (skipInterpreter cs).2 := by
  unfold skipInterpreter
  split
  · next rest =>
    have hmark : GoesOn 0 ('#' :: '!' :: rest) 2 rest := .of_append 0 ['#', '!'] rest
    exact hmark.trans (.takeWhile _ 2 rest)
  · exact .refl 0 cs

/-- The statements of a script are those of the text after the line of its interpreter. -/
theorem statements_of_parse? {dialect : Dialect} {cs : List Char} {sts : List Statement}
    (h : parse? dialect cs = some sts) :
    ∃ sts', statements (.ofDialect dialect) ((skipInterpreter cs).2.length + 1) true
        (skipInterpreter cs).2 = some sts' ∧ (dialect.types || exportsOnce sts') ∧
      sts = sts'.map (·.shift (skipInterpreter cs).1) := by
  obtain ⟨sts', hrun, h⟩ := Option.bind_eq_some_iff.mp h
  obtain ⟨honce, h⟩ := Option.ite_none_right_eq_some.mp h
  exact ⟨sts', hrun, honce, (Option.some.inj h).symm⟩

end BarrelAlias.Script

namespace BarrelAlias.Linkage

open Text (GoesOn IsBoundary)
open Script (Context Cursor Item Statement Specifier Reads statements)

/-- The site stands in a text that begins at byte `n`, its specifier within its statement. -/
structure Site.StandsIn (s : Site) (n : Nat) (cs : List Char) : Prop where
  first : ∃ ds, GoesOn n cs s.statement.start ds
  last : ∃ ds, GoesOn n cs s.statement.stop ds
  inside : s.statement.start ≤ s.quoted.start ∧ s.quoted.stop ≤ s.statement.stop
  reads : Reads n cs s.quoted s.value

theorem Site.StandsIn.of_goesOn {s : Site} {n m : Nat} {cs ds : List Char} (h : GoesOn n cs m ds)
    (hs : s.StandsIn m ds) : s.StandsIn n cs where
  first := hs.first.imp fun _ => h.trans
  last := hs.last.imp fun _ => h.trans
  inside := hs.inside
  reads := hs.reads.of_goesOn h

/-- The site in a text with `n` more bytes in front. -/
def Site.shift (n : Nat) (s : Site) : Site := ⟨s.value, s.quoted.shift n, s.statement.shift n⟩

theorem Site.StandsIn.shift {s : Site} {cs : List Char} (n : Nat) (h : s.StandsIn 0 cs) :
    (s.shift n).StandsIn n cs where
  first := h.first.imp fun _ => GoesOn.shift n
  last := h.last.imp fun _ => GoesOn.shift n
  inside := ⟨Nat.add_le_add_left h.inside.1 n, Nat.add_le_add_left h.inside.2 n⟩
  reads := h.reads.shift n

theorem specifierOf?_mapSource (f : Specifier → Specifier) (i : Item) :
    specifierOf? (i.mapSource f) = (specifierOf? i).map f := by
  cases i <;> rfl

theorem sitesOf_cons (st : Statement) (sts : List Statement) :
    sitesOf (st :: sts) = sitesOf [st] ++ sitesOf sts := List.filterMap_append (l := [st])

theorem sitesOf_shift (n : Nat) (sts : List Statement) :
    sitesOf (sts.map (·.shift n)) = (sitesOf sts).map (·.shift n) := by
  unfold sitesOf
  rw [List.filterMap_map, List.map_filterMap]
  congr 1
  funext st
  simp [Statement.shift, specifierOf?_mapSource, Site.shift, Function.comp_def]

/-- A statement between two cursors has its site there. -/
theorem standsIn_of_between {st : Statement} {c d : Cursor} (hcd : c.Before d)
    (h : st.Between c d) {s : Site} (hs : s ∈ sitesOf [st]) :
    s.StandsIn c.stop c.rest ∧ s.statement.stop = d.stop := by
  obtain ⟨_, hst, hs⟩ := List.mem_filterMap.mp hs
  rw [List.mem_singleton.mp hst] at hs
  obtain ⟨sp, hsp, rfl⟩ := Option.map_eq_some_iff.mp hs
  obtain ⟨l, hl, hspan⟩ := h.span
  obtain ⟨l', hl', hreads, hstop⟩ := h.places sp hsp
  obtain rfl : l = l' := Option.some.inj (hl.symm.trans hl')
  have hahead := (c.standsIn l hl).source
  refine ⟨⟨?_, ?_, ?_, hreads.of_goesOn hahead⟩, ?_⟩
  · exact ⟨l.source, by rw [hspan]; exact hahead⟩
  · exact ⟨d.rest, by rw [hspan]; exact hcd⟩
  · rw [hspan]
    exact ⟨hreads.le, hstop⟩
  · rw [hspan]

/-- The sites of a text stand in it one after another. -/
theorem standsIn_of_statements {ctx : Context} {fuel : Nat} {newline : Bool} {cs : List Char}
    {sts : List Statement} (h : statements ctx fuel newline cs = some sts) :
    (∀ s ∈ sitesOf sts, s.StandsIn 0 cs) ∧
      (sitesOf sts).Pairwise fun s s' => s.statement.stop ≤ s'.statement.start := by
  induction fuel generalizing newline cs sts with
  | zero => cases h
  | succ fuel ih =>
    obtain ⟨st?, next, hrun, h⟩ := Script.statements_cases h
    cases st? with
    | none =>
      subst h
      exact ⟨by simp [sitesOf], by simp [sitesOf]⟩
    | some st =>
      obtain ⟨_, sts', hsts, rfl⟩ := h
      have hst : st.Between _ next.val := Script.finds_nextStatement _ _ _ _ _ _ hrun
      obtain ⟨hstand, hsorted⟩ := ih hsts
      have hlater : ∀ s ∈ (sitesOf sts').map (·.shift next.val.stop),
          s.StandsIn next.val.stop next.val.rest := by
        intro s hs
        obtain ⟨s', hs', rfl⟩ := List.mem_map.mp hs
        exact (hstand s' hs').shift next.val.stop
      rw [sitesOf_cons, sitesOf_shift]
      refine ⟨fun s hs => ?_, List.pairwise_append.mpr ⟨?_, ?_, fun s hs s' hs' => ?_⟩⟩
      · rcases List.mem_append.mp hs with hs | hs
        · exact (standsIn_of_between next.property hst hs).1
        · exact (hlater s hs).of_goesOn next.property
      · refine List.Pairwise.filterMap _ ?_ (List.pairwise_singleton (fun _ _ => False) _)
        simp
      · refine List.Pairwise.map _ (fun s s' hle => ?_) hsorted
        exact Nat.add_le_add_left hle next.val.stop
      · obtain ⟨_, hfirst⟩ := (hlater s' hs').first
        rw [(standsIn_of_between next.property hst hs).2]
        exact hfirst.le

/-- Sites that stand in a text one after another are well placed. -/
theorem wellPlaced_of_standsIn {cs : List Char} {ss : List Site} (hstand : ∀ s ∈ ss, s.StandsIn 0 cs)
    (hsorted : ss.Pairwise fun s s' => s.statement.stop ≤ s'.statement.start) :
    Alias.WellPlaced cs ss where
  ascending := hsorted
  inside s hs := (hstand s hs).inside
  fits s hs := by
    have hs := hstand s hs
    obtain ⟨_, hfirst⟩ := hs.first
    obtain ⟨_, hlast⟩ := hs.last
    have hquoted := hs.reads.fits
    have hle : s.statement.start ≤ s.statement.stop :=
      Nat.le_trans hs.inside.1 (Nat.le_trans hquoted.1 hs.inside.2)
    exact ⟨⟨hle, hfirst.isBoundary, hlast.isBoundary⟩, hquoted⟩

theorem statementsOf_eq_ok_iff {file : Path} {text : String} {sts : List Statement} :
    statementsOf file text = .ok sts ↔ Script.parse? (.ofPath file) text.toList = some sts := by
  unfold statementsOf
  split
  · next hparse => simp [hparse]
  · next hparse => simp [hparse]

theorem exists_statements_of_sites {file : Path} {text : String} {ss : List Site}
    (h : sites file text = .ok ss) : ∃ sts, statementsOf file text = .ok sts ∧ ss = sitesOf sts := by
  unfold sites at h
  cases hsts : statementsOf file text with
  | error e => rw [hsts] at h; cases h
  | ok sts => rw [hsts] at h; cases h; exact ⟨sts, rfl, rfl⟩

/-- The sites of a text are well placed, and at each of them stands its specifier. -/
theorem wellPlaced_sites {file : Path} {text : String} {ss : List Site}
    (h : sites file text = .ok ss) :
    Alias.WellPlaced text.toList ss ∧ ∀ s ∈ ss, Reads 0 text.toList s.quoted s.value := by
  obtain ⟨sts, hsts, rfl⟩ := exists_statements_of_sites h
  obtain ⟨sts', hsts', _, rfl⟩ := Script.statements_of_parse? (statementsOf_eq_ok_iff.mp hsts)
  obtain ⟨hstand, hsorted⟩ := standsIn_of_statements hsts'
  have hstart := Script.skipInterpreter_goesOn text.toList
  rw [sitesOf_shift]
  have hstand' : ∀ s ∈ (sitesOf sts').map (·.shift (Script.skipInterpreter text.toList).1),
      s.StandsIn 0 text.toList := by
    intro s hs
    obtain ⟨s', hs', rfl⟩ := List.mem_map.mp hs
    exact ((hstand s' hs').shift _).of_goesOn hstart
  refine ⟨wellPlaced_of_standsIn hstand' ?_, fun s hs => (hstand' s hs).reads⟩
  refine List.Pairwise.map _ (fun s s' hle => ?_) hsorted
  exact Nat.add_le_add_left hle _

end BarrelAlias.Linkage
