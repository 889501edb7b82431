import BarrelAlias.Proofs.Renamed
import BarrelAlias.Proofs.Requoting

/-!
A text read again after aliases. Its statements are read one after another, so those that name modules
are read again one after another with the specifiers that have taken the place of the old ones; from the
first statement on that names no module the text must be as it was.
-/

namespace BarrelAlias.Alias

open Linkage (Site)
open Text (byteLength Span)

section Shifted

variable (lit : Site → List Char)

/-- What is read further on is what is read there. -/
theorem between_shift {front : List Char} {n : Nat} (hn : byteLength front = n) (rest : List Char)
    (stop pos : Nat) (ss : List Site) :
    between (front ++ rest) lit (n + stop) (n + pos) (ss.map (·.shift n)) =
      between rest (fun s => lit (s.shift n)) stop pos ss := by
  subst hn
  induction ss generalizing pos with
  | nil => exact Span.slice_shift front rest ⟨pos, stop⟩
  | cons s ss ih =>
    have hgap := Span.slice_shift front rest ⟨pos, s.quoted.start⟩
    simp only [List.map_cons, between]
    rw [← ih, ← hgap]
    rfl

theorem between_across {front piece : List Char} {pos n : Nat} (hpos : byteLength front = pos)
    (hn : pos + byteLength piece = n) (rest : List Char) (stop : Nat) (ss : List Site) :
    between (front ++ (piece ++ rest)) lit (n + stop) pos (ss.map (·.shift n)) =
      piece ++ between rest (fun s => lit (s.shift n)) stop 0 ss := by
  have hcut (k : Nat) : (Span.mk pos (n + k)).slice (front ++ (piece ++ rest)) =
      piece ++ (Span.mk 0 k).slice rest := by
    rw [← hn, ← hpos, Nat.add_assoc]
    exact Span.slice_across front piece rest k
  cases ss with
  | nil => exact hcut stop
  | cons s ss =>
    have hlen : byteLength (front ++ piece) = n := by rw [Text.byteLength_append, hpos, hn]
    have hlater := between_shift lit hlen rest stop s.quoted.stop ss
    have hgap := hcut s.quoted.start
    rw [List.append_assoc] at hlater
    simp only [List.map_cons, between]
    rw [← hlater, ← List.append_assoc piece, ← List.append_assoc piece, ← hgap]
    rfl

/-- A statement with its site, and what is read after it. -/
theorem between_statement {front old back : List Char} {s : Site} {n : Nat}
    (hs : s.quoted = ⟨byteLength front, byteLength front + byteLength old⟩)
    (hn : n = byteLength front + byteLength old + byteLength back) (rest : List Char) (stop : Nat)
    (ss : List Site) :
    between (front ++ (old ++ (back ++ rest))) lit (n + stop) 0 (s :: ss.map (·.shift n)) =
      front ++ (lit s ++ (back ++ between rest (fun t => lit (t.shift n)) stop 0 ss)) := by
  have hlen : byteLength (front ++ old) = byteLength front + byteLength old :=
    Text.byteLength_append front old
  have hlater := between_across lit hlen hn.symm rest stop ss
  have hfront : (Span.mk 0 (byteLength front)).slice (front ++ (old ++ (back ++ rest))) = front :=
    (@Span.of_append ⟨0, byteLength front⟩ [] front rfl (Nat.zero_add _) (old ++ (back ++ rest))).2.1
  rw [List.append_assoc] at hlater
  simp only [between, hs]
  rw [hlater, hfront, List.append_assoc]

end Shifted

end BarrelAlias.Alias

namespace BarrelAlias.Linkage

open Alias (between)
open Script
open Text (byteLength Span)

/-- The sites at which a text changes come before all statements that name no module. -/
def ModulesFirst (changed : Site → Prop) (sts : List Statement) : Prop :=
  ∃ heads tail, sts = heads ++ tail ∧ (∀ st ∈ heads, (specifierOf? st.item).isSome) ∧
    ∀ s ∈ sitesOf tail, ¬ changed s

theorem ModulesFirst.cases {changed : Site → Prop} {st : Statement} {sts : List Statement}
    (h : ModulesFirst changed (st :: sts)) : (∀ s ∈ sitesOf (st :: sts), ¬ changed s) ∨
      (specifierOf? st.item).isSome ∧ ModulesFirst changed sts := by
  obtain ⟨heads, tail, hsts, hheads, htail⟩ := h
  cases heads with
  | nil =>
    rw [List.nil_append] at hsts
    exact .inl (hsts ▸ htail)
  | cons st' heads =>
    cases hsts
    refine .inr ⟨hheads st List.mem_cons_self, heads, tail, rfl, ?_, htail⟩
    exact fun st' hst' => hheads st' (List.mem_cons_of_mem st hst')

theorem ModulesFirst.imp {changed changed' : Site → Prop} {sts : List Statement}
    (h : ModulesFirst changed sts) (himp : ∀ s, changed' s → changed s) : ModulesFirst changed' sts := by
  obtain ⟨heads, tail, hsts, hheads, htail⟩ := h
  exact ⟨heads, tail, hsts, hheads, fun s hs hchanged => htail s hs (himp s hchanged)⟩

theorem ModulesFirst.unshift {changed : Site → Prop} {n : Nat} {sts : List Statement}
    (h : ModulesFirst changed (sts.map (·.shift n))) :
    ModulesFirst (fun s => changed (s.shift n)) sts := by
  obtain ⟨heads, tail, hsts, hheads, htail⟩ := h
  obtain ⟨heads, tail, rfl, rfl, rfl⟩ := List.map_eq_append_iff.mp hsts
  refine ⟨heads, tail, rfl, fun st hst => ?_, fun s hs => ?_⟩
  · have hnamed := hheads _ (List.mem_map_of_mem hst)
    simpa [Statement.shift, specifierOf?_mapSource] using hnamed
  · apply htail
    rw [sitesOf_shift]
    exact List.mem_map_of_mem hs

/-- A statement that names a module has a site. -/
theorem sitesOf_cons_shift {st : Statement} {sp : Specifier} (hsp : specifierOf? st.item = some sp)
    (n : Nat) (sts : List Statement) : sitesOf (st :: sts.map (·.shift n)) =
      ⟨sp.value, sp.span, st.span⟩ :: (sitesOf sts).map (·.shift n) := by
  rw [sitesOf_cons, sitesOf_shift]
  simp [sitesOf, hsp]

/-- A site further on has the literal that it has there. -/
theorem slice_shift {front : List Char} {n : Nat} (hn : byteLength front = n) (rest : List Char)
    (s : Site) : (s.shift n).quoted.slice (front ++ rest) = s.quoted.slice rest := by
  subst hn
  exact Span.slice_shift front rest s.quoted

/-- The sites are those of before, each with its new value at its new place. -/
def FoundAgain (value : Site → String) (place : Nat → Site → Span) (ss ss' : List Site) : Prop :=
  ∀ k : Nat, ss'[k]?.map (fun s => (s.value, s.quoted)) = ss[k]?.map fun s => (value s, place k s)

theorem FoundAgain.map_eq {value : Site → String} {place : Nat → Site → Span} {ss ss' : List Site}
    (h : FoundAgain value place ss ss') :
    ss'.map (fun s => (s.value, s.quoted)) = ss.mapIdx fun k s => (value s, place k s) := by
  apply List.ext_getElem?
  intro k
  rw [List.getElem?_map, List.getElem?_mapIdx, h k]

theorem FoundAgain.shift {value : Site → String} {place place' : Nat → Site → Span}
    {ss ss' : List Site} {n m : Nat}
    (h : FoundAgain (fun s => value (s.shift n)) place' ss ss')
    (hplace : ∀ k s, place k (s.shift n) = (place' k s).shift m) :
    FoundAgain value place (ss.map (·.shift n)) (ss'.map (·.shift m)) := by
  intro k
  have hk := congrArg (Option.map fun p : String × Span => (p.1, p.2.shift m)) (h k)
  simp only [Option.map_map, Function.comp_def] at hk
  simp only [List.getElem?_map, Option.map_map, Function.comp_def, hplace]
  exact hk

theorem FoundAgain.cons {value : Site → String} {place : Nat → Site → Span} {s s' : Site}
    {ss ss' : List Site} (hvalue : s'.value = value s) (hquoted : s'.quoted = place 0 s)
    (h : FoundAgain value (fun k => place (k + 1)) ss ss') :
    FoundAgain value place (s :: ss) (s' :: ss') := by
  intro k
  cases k with
  | zero => exact congrArg some (Prod.ext hvalue hquoted)
  | succ k => exact h k

section Run

variable {ctx : Context} {newline : Bool} {cs : List Char} {sts : List Statement}

/-- The stretch where the literal of the site with number `k` stands, by what stands before it. -/
def spot (lit : Site → List Char) (cs : List Char) (ss : List Site) (k : Nat) (s : Site) : Span :=
  ⟨byteLength (between cs lit s.quoted.start 0 (ss.take k)),
    byteLength (between cs lit s.quoted.start 0 (ss.take k)) + byteLength (lit s)⟩

/-- The statements of a text are read again in another, each site with its new value at its new place. -/
structure ReadAgain (ctx : Context) (newline : Bool) (lit : Site → List Char) (value : Site → String)
    (cs : List Char) (sts : List Statement) (cs' : List Char) (sts' : List Statement) : Prop where
  runs : ∀ fuel, cs'.length < fuel → statements ctx fuel newline cs' = some sts'
  alike : AlikeTexts ctx.marks newline cs cs'
  unmarked : cs' = cs ∨ cs.head? ≠ some '#'
  exported : sts'.map (·.item.exportedNames) = sts.map (·.item.exportedNames)
  sites : FoundAgain value (spot lit cs (sitesOf sts)) (sitesOf sts) (sitesOf sts')

variable {lit : Site → List Char} {value : Site → String}

/-- Where each literal stays, so does its stretch. -/
theorem spot_same {ss : List Site} (hp : Alias.WellPlaced cs ss)
    (hsame : ∀ s ∈ ss, lit s = s.quoted.slice cs) {k : Nat} {s : Site} (hs : ss[k]? = some s) :
    spot lit cs ss k s = s.quoted := by
  have hmem := List.mem_of_getElem? hs
  have hfits := (hp.fits s hmem).2
  have hread : Alias.Readable cs s.quoted.start 0 (ss.take k) := by
    rw [Alias.eq_take_append_cons hs] at hp
    exact hp.readable_before
  have hbefore := Alias.between_of_slice hread fun s' hs' => hsame s' (List.mem_of_mem_take hs')
  have hstart := hread.fits.byteLength_slice
  have hlit := hfits.byteLength_slice
  have hle := hfits.1
  rw [spot, hbefore, hstart, hsame s hmem, hlit]
  simp only [Nat.sub_zero, Nat.add_sub_cancel' hle]

theorem readAgain_same {fuel : Nat} (h : statements ctx fuel newline cs = some sts)
    (hspell : ∀ s ∈ sitesOf sts, Spells (lit s) (value s))
    (hsame : ∀ s ∈ sitesOf sts, lit s = s.quoted.slice cs) :
    ReadAgain ctx newline lit value cs sts cs sts := by
  obtain ⟨hstand, hsorted⟩ := standsIn_of_statements h
  have hp := wellPlaced_of_standsIn hstand hsorted
  refine ⟨fun fuel' hfuel => statements_fuel h hfuel, alikeTexts_refl _ _ _, .inl rfl, rfl, ?_⟩
  intro k
  cases hs : (sitesOf sts)[k]? with
  | none => rfl
  | some s =>
    have hmem := List.mem_of_getElem? hs
    have hvalue : s.value = value s :=
      (Spells.of_reads (hstand s hmem).reads).unique (hsame s hmem ▸ hspell s hmem)
    simp only [Option.map_some, hvalue, spot_same hp hsame hs]

/-- After a statement with a site, a literal stands as many bytes further on as the text after the
statement does. -/
theorem spot_succ {front old back rest : List Char} {s : Site} {n : Nat}
    (hs : s.quoted = ⟨byteLength front, byteLength front + byteLength old⟩)
    (hn : n = byteLength front + byteLength old + byteLength back) (ss : List Site) (k : Nat) (t : Site) :
    spot lit (front ++ (old ++ (back ++ rest))) (s :: ss.map (·.shift n)) (k + 1) (t.shift n) =
      (spot (fun t => lit (t.shift n)) rest ss k t).shift
        (byteLength front + byteLength (lit s) + byteLength back) := by
  have hbetween := Alias.between_statement lit hs hn rest t.quoted.start (ss.take k)
  rw [List.map_take] at hbetween
  have hstart : (t.shift n).quoted.start = n + t.quoted.start := rfl
  rw [spot, spot, List.take_succ_cons, hstart, hbetween]
  simp only [Text.byteLength_append, Span.shift, Nat.add_assoc]

theorem spot_zero {front old rest : List Char} {s : Site}
    (hs : s.quoted = ⟨byteLength front, byteLength front + byteLength old⟩) (ss : List Site) :
    spot lit (front ++ (old ++ rest)) (s :: ss) 0 s =
      ⟨byteLength front, byteLength front + byteLength (lit s)⟩ := by
  have hfront : (Span.mk 0 (byteLength front)).slice (front ++ (old ++ rest)) = front :=
    (@Span.of_append ⟨0, byteLength front⟩ [] front rfl (Nat.zero_add _) (old ++ rest)).2.1
  rw [spot, List.take_zero, Alias.between, hs, hfront]

/-- A statement that names a module is read again before the statements after it. -/
theorem ReadAgain.cons {st : Statement} {sp : Specifier} {front old back rest : List Char} {n : Nat}
    {sts₁ sts₁' : List Statement} (hsp : specifierOf? st.item = some sp)
    (hspan : sp.span = ⟨byteLength front, byteLength front + byteLength old⟩)
    (hn : n = byteLength front + byteLength old + byteLength back)
    (hst : st.Renamable ctx newline front old back rest)
    (hspell : Spells (lit ⟨sp.value, sp.span, st.span⟩) (value ⟨sp.value, sp.span, st.span⟩))
    (h : ReadAgain ctx false (fun t => lit (t.shift n)) (fun t => value (t.shift n)) rest sts₁
      (between rest (fun t => lit (t.shift n)) (byteLength rest) 0 (sitesOf sts₁)) sts₁') :
    ∃ sts', ReadAgain ctx newline lit value (front ++ (old ++ (back ++ rest)))
      (st :: sts₁.map (·.shift n))
      (between (front ++ (old ++ (back ++ rest))) lit (byteLength (front ++ (old ++ (back ++ rest)))) 0
        (sitesOf (st :: sts₁.map (·.shift n)))) sts' := by
  have hlen : byteLength (front ++ (old ++ (back ++ rest))) = n + byteLength rest := by
    rw [hn]
    simp only [Text.byteLength_append, Nat.add_assoc]
  rw [sitesOf_cons_shift hsp, hlen, Alias.between_statement lit hspan hn]
  generalize between rest (fun t => lit (t.shift n)) (byteLength rest) 0 (sitesOf sts₁) = rest' at h ⊢
  obtain ⟨st', next, hrun, hitem, hrest, hstop⟩ := hst.runs _ _ rest' hspell h.alike
  generalize hlit : lit ⟨sp.value, sp.span, st.span⟩ = new at *
  refine ⟨st' :: sts₁'.map (·.shift next.val.stop), ?_, hst.alike _ _ _ hspell h.alike,
    .inr hst.unmarked, ?_, ?_⟩
  · intro fuel hfuel
    obtain ⟨fuel, rfl⟩ : ∃ n, fuel = n + 1 := ⟨fuel - 1, by omega⟩
    have hless : next.val.rest.length < (front ++ (new ++ (back ++ rest'))).length := by
      have hpos := hspell.length_pos
      rw [hrest]
      simp only [List.length_append]
      omega
    refine statements_of_next hrun hless ?_
    rw [hrest] at hless ⊢
    exact h.runs fuel (by omega)
  · have hexported := h.exported
    simp only [List.map_cons, List.map_map, hitem, Item.withSource, exportedNames_mapSource,
      Function.comp_def, Statement.shift, hexported]
  · have hsp' : specifierOf? st'.item = some ⟨value ⟨sp.value, sp.span, st.span⟩,
        ⟨byteLength front, byteLength front + byteLength new⟩⟩ := by
      rw [hitem, Item.withSource, specifierOf?_mapSource, hsp]
      rfl
    rw [sitesOf_cons_shift hsp', sitesOf_cons_shift hsp]
    refine .cons rfl ?_ (h.sites.shift fun k t => ?_)
    · rw [spot_zero hspan, hlit]
    · rw [spot_succ hspan hn, hlit, hstop]

theorem exists_readAgain {fuel : Nat} (h : statements ctx fuel newline cs = some sts)
    (hspell : ∀ s ∈ sitesOf sts, Spells (lit s) (value s))
    (hfirst : ModulesFirst (fun s => lit s ≠ s.quoted.slice cs) sts) :
    ∃ sts', ReadAgain ctx newline lit value cs sts (between cs lit (byteLength cs) 0 (sitesOf sts))
      sts' := by
  induction fuel generalizing newline cs sts lit value with
  | zero => cases h
  | succ fuel ih =>
    by_cases hsame : ∀ s ∈ sitesOf sts, lit s = s.quoted.slice cs
    · obtain ⟨hstand, hsorted⟩ := standsIn_of_statements h
      have hp := wellPlaced_of_standsIn hstand hsorted
      rw [Alias.between_of_slice hp.readable_whole hsame, Span.slice_whole]
      exact ⟨sts, readAgain_same h hspell hsame⟩
    obtain ⟨st?, next, hrun, h⟩ := statements_cases h
    cases st? with
    | none =>
      subst h
      exact absurd (by simp [sitesOf]) hsame
    | some st =>
      obtain ⟨_, sts₁, hsts, rfl⟩ := h
      obtain hkept | ⟨hnamed, hfirst⟩ := hfirst.cases
      · exact absurd (fun s hs => not_not.mp (hkept s hs)) hsame
      obtain ⟨sp, hsp⟩ := Option.isSome_iff_exists.mp hnamed
      obtain ⟨front, old, back, hcs, hspan, hn, hst⟩ := nextStatement_renamable hrun hsp
      clear hrun hsame
      generalize next.val.rest = rest, next.val.stop = n at *
      clear next
      subst hcs
      have hlen : byteLength (front ++ (old ++ back)) = n := by
        rw [hn]
        simp only [Text.byteLength_append, Nat.add_assoc]
      have hslice := slice_shift hlen rest
      rw [List.append_assoc, List.append_assoc] at hslice
      have hfirst' := hfirst.unshift
      simp only [hslice] at hfirst'
      rw [sitesOf_cons_shift hsp, List.forall_mem_cons, List.forall_mem_map] at hspell
      obtain ⟨sts₁', hread⟩ := ih hsts hspell.2 hfirst'
      exact hread.cons hsp hspan hn hst hspell.1

end Run

theorem skipInterpreter_of_unmarked {cs : List Char} (h : ∀ rest, cs ≠ '#' :: '!' :: rest) :
    skipInterpreter cs = (0, cs) := by
  unfold skipInterpreter
  split
  · next rest => exact absurd rfl (h rest)
  · rfl

/-- The line of the interpreter ends at a line break or with the text. -/
theorem skipInterpreter_line {line rest : List Char} (hline : ∀ c ∈ line, ¬ isLineBreak c)
    (hrest : ∀ c ∈ rest.head?, isLineBreak c) :
    skipInterpreter ('#' :: '!' :: (line ++ rest)) = (2 + byteLength line, rest) := by
  have htake : (line ++ rest).takeWhile (!isLineBreak ·) = line := by
    rw [List.takeWhile_append_of_pos (by simpa using hline)]
    cases rest with
    | nil => simp
    | cons c rest => simp [hrest c rfl]
  rw [skipInterpreter, htake, List.drop_left]

/-- The line of the interpreter is the same before a text that begins as the one after it does. -/
theorem exists_skipInterpreter (cs : List Char) :
    ∃ front, cs = front ++ (skipInterpreter cs).2 ∧ byteLength front = (skipInterpreter cs).1 ∧
      ∀ rest, SameHead (skipInterpreter cs).2 rest →
        rest = (skipInterpreter cs).2 ∨ (skipInterpreter cs).2.head? ≠ some '#' →
          skipInterpreter (front ++ rest) = ((skipInterpreter cs).1, rest) := by
  by_cases hmark : ∃ rest, cs = '#' :: '!' :: rest
  · obtain ⟨more, rfl⟩ := hmark
    have hsplit := List.takeWhile_append_dropWhile (p := (!isLineBreak ·)) (l := more)
    have hline : ∀ c ∈ more.takeWhile (!isLineBreak ·), ¬ isLineBreak c := by
      intro c hc
      simpa using of_mem_takeWhile hc
    have hend : ∀ c ∈ (more.dropWhile (!isLineBreak ·)).head?, isLineBreak c := by
      intro c hc
      have hnot := List.head?_dropWhile_not (!isLineBreak ·) more
      rw [hc] at hnot
      simpa using hnot
    generalize more.takeWhile (!isLineBreak ·) = line at hsplit hline
    generalize more.dropWhile (!isLineBreak ·) = tail at hsplit hend
    subst hsplit
    rw [skipInterpreter_line hline hend]
    refine ⟨'#' :: '!' :: line, rfl, ?_, fun rest hsame _ => ?_⟩
    · change 1 + (1 + byteLength line) = 2 + byteLength line
      omega
    · apply skipInterpreter_line hline
      intro c hc
      rcases hsame with hsame | ⟨⟨q, hq, hquote⟩, _⟩
      · exact hend c (hsame ▸ hc)
      · have hbreak := hend q hq
        rcases hquote with rfl | rfl <;> cases hbreak
  · have hunmarked : ∀ rest, cs ≠ '#' :: '!' :: rest := fun rest h => hmark ⟨rest, h⟩
    rw [skipInterpreter_of_unmarked hunmarked]
    refine ⟨[], rfl, rfl, fun rest hsame hrest => ?_⟩
    rcases hrest with rfl | hhash
    · exact skipInterpreter_of_unmarked hunmarked
    · apply skipInterpreter_of_unmarked
      rintro more rfl
      rcases hsame with hsame | ⟨_, q, hq, hquote⟩
      · exact hhash hsame
      · cases hq
        rcases hquote with hquote | hquote <;> cases hquote

variable {lit : Site → List Char} {value : Site → String}

theorem spot_shift {front rest : List Char} {n : Nat} (hn : byteLength front = n) (ss : List Site)
    (k : Nat) (t : Site) :
    spot lit (front ++ rest) (ss.map (·.shift n)) k (t.shift n) =
      (spot (fun t => lit (t.shift n)) rest ss k t).shift n := by
  have hbetween := @Alias.between_across lit [] front 0 n rfl ((Nat.zero_add _).trans hn) rest
    t.quoted.start (ss.take k)
  rw [List.map_take, List.nil_append] at hbetween
  have hstart : (t.shift n).quoted.start = n + t.quoted.start := rfl
  rw [spot, spot, hstart, hbetween]
  simp only [Text.byteLength_append, Span.shift, Nat.add_assoc, hn]

/-- A script whose statements name modules up to the last change is read again after the changes. -/
theorem exists_parse? {dialect : Dialect} {cs : List Char} {sts : List Statement}
    (h : parse? dialect cs = some sts) (hspell : ∀ s ∈ sitesOf sts, Spells (lit s) (value s))
    (hfirst : ModulesFirst (fun s => lit s ≠ s.quoted.slice cs) sts) :
    ∃ sts', parse? dialect (between cs lit (byteLength cs) 0 (sitesOf sts)) = some sts' ∧
      FoundAgain value (spot lit cs (sitesOf sts)) (sitesOf sts) (sitesOf sts') := by
  obtain ⟨front, hcs, hfront, hskip⟩ := exists_skipInterpreter cs
  obtain ⟨sts₀, hsts, honce, rfl⟩ := statements_of_parse? h
  clear h
  generalize skipInterpreter cs = start at *
  obtain ⟨n, rest⟩ := start
  dsimp only at *
  subst hcs
  have hfirst₀ := hfirst.unshift
  simp only [slice_shift hfront] at hfirst₀
  rw [sitesOf_shift, List.forall_mem_map] at hspell
  obtain ⟨sts', hread⟩ := exists_readAgain hsts hspell hfirst₀
  have hbetween := @Alias.between_across lit [] front 0 n rfl ((Nat.zero_add _).trans hfront) rest
    (byteLength rest) (sitesOf sts₀)
  rw [List.nil_append] at hbetween
  rw [sitesOf_shift, Text.byteLength_append, hfront, hbetween]
  generalize between rest (fun s => lit (s.shift n)) (byteLength rest) 0 (sitesOf sts₀) = rest' at hread ⊢
  refine ⟨sts'.map (·.shift n), ?_, ?_⟩
  · have honce' : exportsOnce sts' = exportsOnce sts₀ := by
      simp only [exportsOnce, List.flatMap, hread.exported]
    rw [← honce'] at honce
    rw [parse?, hskip rest' hread.alike.head hread.unmarked]
    simp only [hread.runs _ (Nat.lt_succ_self _), Option.bind_eq_bind, Option.bind_some]
    rw [if_pos honce]
  · rw [sitesOf_shift]
    exact hread.sites.shift fun k s => spot_shift hfront (sitesOf sts₀) k s

end BarrelAlias.Linkage

namespace BarrelAlias.Alias

open Linkage (Site FoundAgain ModulesFirst sitesOf spot)
open Script (Reads Spells Statement)
open Text (byteLength Span)

variable {d : Directory} {quote : QuoteStyle} {file dir : Path} {text out : String} {edits : List Edit}

theorem literalAfter_of_replacement? {source : List Char} {s : Site} {r : Replacement}
    (hr : replacement? d quote dir source s = some r) :
    literalAfter d quote dir source s = (quote.quote r.aliased).toList ∧
      valueAfter d quote dir source s = r.aliased := by
  obtain ⟨_, _, hreplaces⟩ := replacement?_eq_some_iff.mp hr
  exact ⟨literalAfter_of_replaces hreplaces, by rw [valueAfter, hr]⟩

/-- Where quotes hold the aliases, each literal is one of the value that is expected of it. -/
theorem spells_literalAfter {source : List Char} {ss : List Site}
    (hreads : ∀ s ∈ ss, Reads 0 source s.quoted s.value)
    (hheld : ∀ r ∈ replacements d quote dir source ss, quote.Holds r.aliased) :
    ∀ s ∈ ss, Spells (literalAfter d quote dir source s) (valueAfter d quote dir source s) := by
  intro s hs
  cases hr : replacement? d quote dir source s with
  | some r =>
    obtain ⟨hlit, hvalue⟩ := literalAfter_of_replacement? hr
    have hholds := hheld r (List.mem_filterMap.mpr ⟨s, hs, hr⟩)
    obtain ⟨whole, hscan⟩ := (quote.scanToken_quote_iff r.aliased []).mpr hholds
    rw [hlit, hvalue]
    exact ⟨whole, Script.scanToken_moved hscan⟩
  | none =>
    rw [literalAfter, valueAfter, hr]
    exact .of_reads (hreads s hs)

/-- Where each site of the text after aliases is found as expected, the quotes hold the aliases. -/
theorem holds_of_sitesAfter {ss ss' : List Site} (hs : Linkage.sites file text = .ok ss)
    (h : shorten d quote file text = .ok (out, edits)) (hs' : Linkage.sites file out = .ok ss')
    (hsame : ss'.map (fun s => (s.value, s.quoted)) =
      sitesAfter d quote (file.parent?.getD .top) text.toList ss) :
    ∀ e ∈ edits, quote.Holds e.newSpecifier := by
  have hp := (Linkage.wellPlaced_sites hs).1
  have hreads := (Linkage.wellPlaced_sites hs').2
  rw [toList_of_shorten h hs] at hreads
  rw [shorten_of_sites hs] at h
  generalize file.parent?.getD .top = dir at h hsame hreads
  cases h
  intro e he
  obtain ⟨r, hr, rfl⟩ := List.mem_map.mp he
  obtain ⟨s, hmem, hr⟩ := List.mem_filterMap.mp hr
  obtain ⟨k, hk⟩ := List.getElem?_of_mem hmem
  have hat := congrArg (·[k]?) hsame
  simp only [List.getElem?_map, sitesAfter, List.getElem?_mapIdx, hk] at hat
  obtain ⟨s', hs', hat⟩ := Option.map_eq_some_iff.mp hat
  obtain ⟨hvalue, hplace⟩ := Prod.mk.inj hat
  have hread := hreads s' (List.mem_of_getElem? hs')
  rw [hplace, hvalue, (literalAfter_of_replacement? hr).2] at hread
  obtain ⟨_, _, hreplaces⟩ := replacement?_eq_some_iff.mp hr
  exact (rereads_alias_iff hp hk hreplaces).mp ⟨s, hk, hread⟩

/-- Where the statements up to the last alias all name modules, the text after aliases is a script again,
with a site for each site of the source at its new place and with the value that is expected there, if and
only if the quotes hold the aliases as they are. -/
theorem shorten_reparses_iff {sts : List Statement}
    (h : shorten d quote file text = .ok (out, edits)) (hs : Linkage.statementsOf file text = .ok sts)
    (hfirst : ModulesFirst
      (fun s => ∃ aliased, Replaces d quote (file.parent?.getD .top) text.toList s aliased) sts) :
    (∃ ss', Linkage.sites file out = .ok ss' ∧
      ss'.map (fun s => (s.value, s.quoted)) =
        sitesAfter d quote (file.parent?.getD .top) text.toList (sitesOf sts)) ↔
      ∀ e ∈ edits, quote.Holds e.newSpecifier := by
  have hsites : Linkage.sites file text = .ok (sitesOf sts) := by rw [Linkage.sites, hs]; rfl
  refine ⟨fun ⟨ss', hs', hsame⟩ => holds_of_sitesAfter hsites h hs' hsame, fun hheld => ?_⟩
  have hparse := Linkage.statementsOf_eq_ok_iff.mp hs
  obtain ⟨hp, hreads⟩ := Linkage.wellPlaced_sites hsites
  rw [shorten_of_sites hsites] at h
  generalize file.parent?.getD .top = dir at h hfirst ⊢
  cases h
  have hspell := spells_literalAfter hreads fun r hr => hheld _ (List.mem_map_of_mem hr)
  have hfirst' : ModulesFirst
      (fun s => literalAfter d quote dir text.toList s ≠ s.quoted.slice text.toList) sts := by
    refine hfirst.imp fun s hchanged => ?_
    by_contra hnone
    exact hchanged (literalAfter_of_not_replaces fun aliased hr => hnone ⟨aliased, hr⟩)
  obtain ⟨sts', hparse', hfound⟩ := Linkage.exists_parse? hparse hspell hfirst'
  refine ⟨sitesOf sts', ?_, ?_⟩
  · rw [Linkage.sites, Linkage.statementsOf, String.toList_ofList, applyAll_eq_between hp, hparse']
    rfl
  · rw [hfound.map_eq, sitesAfter]
    apply List.ext_getElem?
    intro k
    simp only [List.getElem?_mapIdx]
    cases hk : (sitesOf sts)[k]? with
    | none => rfl
    | some s => rw [Option.map_some, Option.map_some, placeOf_eq _ hp hk, spot]

def usedText : String := "import a from './b';\nlet c = a;\n"

def usedStatements : List Statement :=
  [⟨.importFrom [⟨"a", .name "default"⟩] ⟨"./b", ⟨14, 19⟩⟩, ⟨0, 20⟩⟩,
   ⟨.declared [⟨"c", .value⟩], ⟨21, 31⟩⟩]

/-- The statement after the import names no module, and nothing changes there. -/
theorem usedText_reparses :
    ∃ out edits ss', shorten ⟨[⟨"/p/src", "@app"⟩]⟩ .single ⟨true, ["p", "src", "f.ts"]⟩ usedText =
        .ok (out, edits) ∧ Linkage.sites ⟨true, ["p", "src", "f.ts"]⟩ out = .ok ss' ∧
      ss'.map (fun s => (s.value, s.quoted)) = [("@app/b", ⟨14, 22⟩)] := by
  have hout : (shorten ⟨[⟨"/p/src", "@app"⟩]⟩ .single ⟨true, ["p", "src", "f.ts"]⟩ usedText).toOption =
      some ("import a from '@app/b';\nlet c = a;\n", [⟨⟨true, ["p", "src", "f.ts"]⟩, "./b", "@app/b",
        "import a from './b';", "import a from '@app/b';"⟩]) := by
    decide +kernel
  have hs : (Linkage.statementsOf ⟨true, ["p", "src", "f.ts"]⟩ usedText).toOption =
      some usedStatements := by
    decide +kernel
  have hout := Except.eq_ok_of_toOption hout
  have hfirst (changed : Site → Prop) : ModulesFirst changed usedStatements :=
    ⟨usedStatements.take 1, usedStatements.drop 1, rfl, by decide, fun s hs => by cases hs⟩
  obtain ⟨ss', hss', hsame⟩ :=
    (shorten_reparses_iff hout (Except.eq_ok_of_toOption hs) (hfirst _)).mpr (by decide)
  refine ⟨_, _, ss', hout, hss', hsame.trans ?_⟩
  decide +kernel

def genericText : String := "<T extends U>(x = ' </T>; import a from './b'"

def genericOut : String := "<T extends U>(x = ' </T>; import a from ')=>0//b'"

/-- Where another statement stands before the alias it is not enough that the quotes hold it: the element
before this one becomes a function, since the quotes pair up in another way. -/
theorem genericText_unread :
    QuoteStyle.single.Holds ")=>0//b" ∧
      (shorten ⟨[⟨"/p", ")=>0/"⟩]⟩ .single ⟨true, ["p", "a.tsx"]⟩ genericText).toOption.map
          (fun r => (r.1, r.2.map (·.newSpecifier))) = some (genericOut, [")=>0//b"]) ∧
      (Linkage.sites ⟨true, ["p", "a.tsx"]⟩ genericOut).toOption = some [] := by
  refine ⟨by decide, ?_, ?_⟩
  · decide +kernel
  · decide +kernel

/-- Where the statements up to the last alias all name modules and the quotes hold the aliases, aliases find
nothing to do in the text that has them. -/
theorem shorten_shortened {sts : List Statement}
    (hd : ∀ e ∈ d.entries, e.short ≠ "" ∧ e.short.toList.head? ≠ some '.')
    (h : shorten d quote file text = .ok (out, edits)) (hs : Linkage.statementsOf file text = .ok sts)
    (hfirst : ModulesFirst
      (fun s => ∃ aliased, Replaces d quote (file.parent?.getD .top) text.toList s aliased) sts)
    (hheld : ∀ e ∈ edits, quote.Holds e.newSpecifier) :
    shorten d quote file out = .ok (out, []) := by
  have hsites : Linkage.sites file text = .ok (sitesOf sts) := by rw [Linkage.sites, hs]; rfl
  obtain ⟨ss', hs', hsame⟩ := (shorten_reparses_iff h hs hfirst).mpr hheld
  have hnone := replacements_sitesAfter hd (Linkage.wellPlaced_sites hsites).1 hsame
  rw [← toList_of_shorten h hsites] at hnone
  rw [shorten_of_sites hs', hnone]
  simp [applyAll]

end BarrelAlias.Alias
