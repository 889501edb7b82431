import BarrelAlias.Proofs.Inputs
import BarrelAlias.Proofs.Mapping
import BarrelAlias.Proofs.Quoted
import BarrelAlias.Proofs.Sites

/-!
The specifiers of a text, read again after aliases. A specifier that stays reads as before, wherever its
statement has moved to. An alias is written between quotes without escapes, so it reads as itself exactly
if the quotes hold it as it is. Where all of this reads as it should, aliases find nothing more to do: an
alias is no relative specifier, and one that stays is refused for the reason it was refused before.
-/

namespace BarrelAlias.Alias

open Linkage (Site)
open Script (Reads reads_append_iff)
open Text (byteLength Span)

section Place

variable {source : List Char}

/-- The stretch where the literal of the site with number `k` stands in the text that is read with `lit`
at each site. -/
def placeOf (lit : Site → List Char) (ss : List Site) (k : Nat) (s : Site) : Span :=
  ⟨moved lit (ss.take k) s.quoted.start, moved lit (ss.take (k + 1)) s.quoted.stop⟩

/-- What stands before a site can be read up to it. -/
theorem WellPlaced.readable_before {before after : List Site} {s : Site}
    (h : WellPlaced source (before ++ s :: after)) : Readable source s.quoted.start 0 before := by
  have hmem : s ∈ before ++ s :: after := by simp
  obtain ⟨_, _, hbefore⟩ := List.pairwise_append.mp h.ascending
  refine (h.sublist (List.sublist_append_left _ _)).readable
    ⟨Nat.zero_le _, Text.isBoundary_zero source, (h.fits s hmem).2.2.1⟩ (fun _ _ => Nat.zero_le _) ?_
  intro s' hs'
  exact Nat.le_trans (hbefore s' hs' s List.mem_cons_self) (h.inside s hmem).1

theorem eq_take_append_cons {ss : List Site} {k : Nat} {s : Site} (hs : ss[k]? = some s) :
    ss = ss.take k ++ s :: ss.drop (k + 1) := by
  obtain ⟨hk, hget⟩ := List.getElem?_eq_some_iff.mp hs
  rw [← hget, ← List.drop_eq_getElem_cons hk, List.take_append_drop]

/-- The place of a literal begins after what is read up to its site, and holds no more than the
literal. -/
theorem placeOf_eq (lit : Site → List Char) {ss : List Site} (hp : WellPlaced source ss) {k : Nat}
    {s : Site} (hs : ss[k]? = some s) :
    placeOf lit ss k s =
      ⟨byteLength (between source lit s.quoted.start 0 (ss.take k)),
        byteLength (between source lit s.quoted.start 0 (ss.take k)) + byteLength (lit s)⟩ := by
  have hss := eq_take_append_cons hs
  have htake : ss.take (k + 1) = ss.take k ++ [s] := by rw [List.take_add_one, hs]; rfl
  rw [hss] at hp
  have hread := hp.readable_before
  have hsum := byteLength_between lit hread
  have hle := (hp.fits s (by simp)).2.1
  rw [placeOf, htake, byteLength_between_zero lit hread]
  simp only [moved, List.map_append, List.map_cons, List.map_nil, List.sum_append, List.sum_cons,
    List.sum_nil, Span.mk.injEq, true_and]
  omega

/-- The literal of a site stands at its place. -/
theorem literal_at_place (lit : Site → List Char) {ss : List Site} (hp : WellPlaced source ss)
    {k : Nat} {s : Site} (hs : ss[k]? = some s) :
    ∃ front rest, between source lit (byteLength source) 0 ss = front ++ (lit s ++ rest) ∧
      placeOf lit ss k s = ⟨byteLength front, byteLength front + byteLength (lit s)⟩ := by
  refine ⟨_, between source lit (byteLength source) s.quoted.stop (ss.drop (k + 1)), ?_,
    placeOf_eq lit hp hs⟩
  have hss := eq_take_append_cons hs
  generalize ss.take k = before at hss ⊢
  generalize ss.drop (k + 1) = after at hss ⊢
  subst hss
  have hmem : s ∈ before ++ s :: after := by simp
  have hq := (hp.fits s hmem).2
  obtain ⟨_, hstop⟩ := hp.inside s hmem
  obtain ⟨_, htail, _⟩ := List.pairwise_append.mp hp.ascending
  have hrest : Readable source (byteLength source) s.quoted.stop after := by
    refine (hp.sublist ((List.sublist_cons_self s after).trans (List.sublist_append_right _ _))).readable
      ⟨hq.2.2.le, hq.2.2, Text.isBoundary_byteLength source⟩ ?_ ?_
    · exact fun s' hs' => Nat.le_trans hstop (List.rel_of_pairwise_cons htail hs')
    · exact fun s' hs' => (hp.fits s' (by simp [hs'])).1.2.2.le
  have hself : Readable source (byteLength source) s.quoted.start (s :: after) :=
    ⟨⟨Nat.le_refl _, hq.2.1, hq.2.1⟩, hq, hrest⟩
  rw [between_append lit hp.readable_before hself]
  simp [between, Span.slice]

end Place

variable {d : Directory} {quote : QuoteStyle} {file dir : Path} {source : List Char}

/-- In the text after aliases the literal of the site with number `k` reads as this value. -/
def Rereads (d : Directory) (quote : QuoteStyle) (dir : Path) (source : List Char) (ss : List Site)
    (out : List Char) (k : Nat) (value : String) : Prop :=
  ∃ s, ss[k]? = some s ∧ Reads 0 out (placeOf (literalAfter d quote dir source) ss k s) value

/-- The alias at a site reads as itself if and only if the quotes hold it as it is. -/
theorem rereads_alias_iff {ss : List Site} (hp : WellPlaced source ss) {k : Nat} {s : Site}
    {aliased : String} (hs : ss[k]? = some s) (hr : Replaces d quote dir source s aliased) :
    Rereads d quote dir source ss
        (between source (literalAfter d quote dir source) (byteLength source) 0 ss) k aliased ↔
      quote.Holds aliased := by
  obtain ⟨front, rest, hout, hplace⟩ := literal_at_place (literalAfter d quote dir source) hp hs
  rw [literalAfter_of_replaces hr] at hout hplace
  rw [← quote.scanToken_quote_iff aliased rest, ← reads_append_iff front, ← hout, ← hplace]
  constructor
  · rintro ⟨s', hs', hreads⟩
    cases hs.symm.trans hs'
    exact hreads
  · exact fun hreads => ⟨s, hs, hreads⟩

/-- A specifier that stays reads as before. -/
theorem rereads_kept {ss : List Site} (hp : WellPlaced source ss) {k : Nat} {s : Site}
    (hs : ss[k]? = some s) (hr : ∀ aliased, ¬ Replaces d quote dir source s aliased)
    (hreads : Reads 0 source s.quoted s.value) :
    Rereads d quote dir source ss
      (between source (literalAfter d quote dir source) (byteLength source) 0 ss) k s.value := by
  obtain ⟨front, rest, hout, hplace⟩ := literal_at_place (literalAfter d quote dir source) hp hs
  rw [literalAfter_of_not_replaces hr] at hout hplace
  refine ⟨s, hs, ?_⟩
  rw [hout, hplace, reads_append_iff]
  obtain ⟨as, bs, hsource, hstart, hstop⟩ := (hp.fits s (List.mem_of_getElem? hs)).2.exists_append
  have hspan : s.quoted = ⟨byteLength as, byteLength as + byteLength (s.quoted.slice source)⟩ := by
    rw [hstop, hstart]
  generalize s.quoted.slice source = lit at hsource hspan ⊢
  rw [hspan, hsource, reads_append_iff] at hreads
  obtain ⟨whole, hscan⟩ := hreads
  exact ⟨whole, Script.scanToken_moved hscan rest⟩

/-- Aliases change a text at its sites only. -/
theorem applyAll_eq_between {ss : List Site} (hp : WellPlaced source ss) :
    applyAll source (replacements d quote dir source ss) =
      between source (literalAfter d quote dir source) (byteLength source) 0 ss := by
  have hall := @applyAll_replacements d quote dir _ _ _ (Span.fits_nil source) hp.readable_whole
  simpa [Span.slice] using hall

/-- A text after aliases and the edits that lead to it, with what is read at each site. -/
structure Requotes (d : Directory) (quote : QuoteStyle) (dir : Path) (source : List Char)
    (ss : List Site) (out : List Char) (edits : List Edit) : Prop where
  /-- Between the specifiers the text stays. -/
  text : out = between source (literalAfter d quote dir source) (byteLength source) 0 ss
  /-- There is one edit for each site that takes an alias, in order, and its alias reads as itself if and
  only if the quotes hold it as it is. -/
  edits : ∃ places : List Nat, places.Pairwise (· < ·) ∧
    (∀ k, k ∈ places ↔ ∃ s aliased, ss[k]? = some s ∧ Replaces d quote dir source s aliased) ∧
    List.Forall₂ (fun k e =>
      Rereads d quote dir source ss out k e.newSpecifier ↔ quote.Holds e.newSpecifier) places edits
  /-- At the other sites the specifier reads as before. -/
  kept : ∀ k s, ss[k]? = some s → (∀ aliased, ¬ Replaces d quote dir source s aliased) →
    Rereads d quote dir source ss out k s.value

/-- Whenever aliases are put into a text, each of its specifiers reads as it should afterwards, but for
the aliases that hold the quote that is put around them, a backslash or a line break: these do not. -/
theorem shorten_requotes {text out : String} {edits : List Edit}
    (h : shorten d quote file text = .ok (out, edits)) :
    ∃ ss, Linkage.sites file text = .ok ss ∧
      Requotes d quote (file.parent?.getD .top) text.toList ss out.toList edits := by
  obtain ⟨ss, hs⟩ : ∃ ss, Linkage.sites file text = .ok ss := by
    cases hs : Linkage.sites file text with
    | ok ss => exact ⟨ss, rfl⟩
    | error e =>
      rw [shorten, hs] at h
      cases h
  refine ⟨ss, hs, ?_⟩
  obtain ⟨hp, hreads⟩ := Linkage.wellPlaced_sites hs
  rw [shorten_of_sites hs] at h
  generalize file.parent?.getD .top = dir at h ⊢
  cases h
  obtain ⟨places, hsorted, hplaces, hreports⟩ :=
    @exists_places d quote file dir _ _ _ _ (List.nil_append ss).symm hp
  rw [String.toList_ofList, applyAll_eq_between hp]
  refine ⟨rfl, ⟨places, hsorted, by simpa using hplaces, ?_⟩, ?_⟩
  · refine hreports.imp fun k e hreport => ?_
    obtain ⟨s, hk, hr, _⟩ := hreport
    exact rereads_alias_iff hp hk hr
  · exact fun k s hk hr => rereads_kept hp hk hr (hreads s (List.mem_of_getElem? hk))

def unheldText : String := "import './it\"s';\nexport * from './b';\nimport d from 'd';\n"

def unheldOut : String := "import \"@/it\"s\";\nexport * from \"@/b\";\nimport d from 'd';\n"

def unheldEdits : List Edit :=
  [⟨⟨true, ["p", "a.ts"]⟩, "./it\"s", "@/it\"s", "import './it\"s';", "import \"@/it\"s\";"⟩,
   ⟨⟨true, ["p", "a.ts"]⟩, "./b", "@/b", "export * from './b';", "export * from \"@/b\";"⟩]

theorem shorten_unheldText :
    shorten ⟨[⟨"/p", "@"⟩]⟩ .double ⟨true, ["p", "a.ts"]⟩ unheldText = .ok (unheldOut, unheldEdits) := by
  exact Except.eq_ok_of_toOption (by decide +kernel)

/-- Of its two aliases, double quotes hold the second only. -/
theorem unheldText_requotes :
    ¬ QuoteStyle.double.Holds "@/it\"s" ∧ QuoteStyle.double.Holds "@/b" ∧
      ∃ ss, Linkage.sites ⟨true, ["p", "a.ts"]⟩ unheldText = .ok ss ∧
        Requotes ⟨[⟨"/p", "@"⟩]⟩ .double ⟨true, ["p"]⟩ unheldText.toList ss unheldOut.toList
          unheldEdits := by
  refine ⟨by decide, by decide, ?_⟩
  exact shorten_requotes shorten_unheldText

def valueAfter (d : Directory) (quote : QuoteStyle) (dir : Path) (source : List Char) (s : Site) :
    String :=
  match replacement? d quote dir source s with
  | some r => r.aliased
  | none => s.value

/-- The specifiers of the text after aliases and the stretches where their literals stand, as the sites of
the source let one expect them. -/
def sitesAfter (d : Directory) (quote : QuoteStyle) (dir : Path) (source : List Char)
    (ss : List Site) : List (String × Span) :=
  ss.mapIdx fun k s =>
    (valueAfter d quote dir source s, placeOf (literalAfter d quote dir source) ss k s)

/-- An alias begins as the short name of one of the directories does. -/
theorem not_relative_alias (hd : ∀ e ∈ d.entries, e.short ≠ "" ∧ e.short.toList.head? ≠ some '.')
    {specifier aliased : String} (h : d.aliasFor? dir specifier = some aliased) :
    aliased.toList.head? ≠ some '.' := by
  obtain ⟨e, he, rest, _, rfl⟩ := exists_entry h
  obtain ⟨hne, hdot⟩ := hd e he
  rw [String.toList_append, List.head?_append_of_ne_nil _ (by simpa using hne)]
  exact hdot

/-- A site that is found again where it is expected takes no alias. -/
theorem not_replaces_again (hd : ∀ e ∈ d.entries, e.short ≠ "" ∧ e.short.toList.head? ≠ some '.')
    {ss : List Site} (hp : WellPlaced source ss) {k : Nat} {s s' : Site} (hs : ss[k]? = some s)
    (hvalue : s'.value = valueAfter d quote dir source s)
    (hplace : s'.quoted = placeOf (literalAfter d quote dir source) ss k s) (aliased : String) :
    ¬ Replaces d quote dir
      (between source (literalAfter d quote dir source) (byteLength source) 0 ss) s' aliased := by
  rintro ⟨hdot, halias, hquoted⟩
  cases hr : replacement? d quote dir source s with
  | some r =>
    obtain ⟨_, _, _, hfound, _⟩ := replacement?_eq_some_iff.mp hr
    rw [hvalue, valueAfter, hr] at hdot
    exact not_relative_alias hd hfound hdot
  | none =>
    have hsame : s'.value = s.value := by rw [hvalue, valueAfter, hr]
    have hlit : literalAfter d quote dir source s = s.quoted.slice source := by rw [literalAfter, hr]
    refine not_replaces_of_eq_none hr aliased ⟨hsame ▸ hdot, hsame ▸ halias, ?_⟩
    -- the literal is the one that was there before
    obtain ⟨front, rest, hout, hat⟩ := literal_at_place (literalAfter d quote dir source) hp hs
    have hcut := (@Span.of_append ⟨_, _⟩ front (literalAfter d quote dir source s) rfl rfl rest).2.1
    rw [hplace, hat, hout, hcut, hlit] at hquoted
    exact hquoted

/-- At sites that are found again where they are expected there is nothing to put. -/
theorem replacements_sitesAfter (hd : ∀ e ∈ d.entries, e.short ≠ "" ∧ e.short.toList.head? ≠ some '.')
    {ss ss' : List Site} (hp : WellPlaced source ss)
    (hsame : ss'.map (fun s => (s.value, s.quoted)) = sitesAfter d quote dir source ss) :
    replacements d quote dir
      (between source (literalAfter d quote dir source) (byteLength source) 0 ss) ss' = [] := by
  rw [replacements, List.filterMap_eq_nil_iff]
  intro s' hmem
  obtain ⟨k, hk⟩ := List.getElem?_of_mem hmem
  have hat := congrArg (·[k]?) hsame
  simp only [List.getElem?_map, hk, sitesAfter, List.getElem?_mapIdx] at hat
  obtain ⟨s, hsk, hat⟩ := Option.map_eq_some_iff.mp hat.symm
  obtain ⟨hvalue, hplace⟩ := Prod.mk.inj hat
  rw [Option.eq_none_iff_forall_ne_some]
  intro r hr
  obtain ⟨_, _, hreplaces⟩ := replacement?_eq_some_iff.mp hr
  exact not_replaces_again hd hp hsk hvalue.symm hplace.symm r.aliased hreplaces

/-- What a text reads after aliases. -/
theorem toList_of_shorten {text out : String} {edits : List Edit} {ss : List Site}
    (h : shorten d quote file text = .ok (out, edits)) (hs : Linkage.sites file text = .ok ss) :
    out.toList = between text.toList
      (literalAfter d quote (file.parent?.getD .top) text.toList) (byteLength text.toList) 0 ss := by
  have hp := (Linkage.wellPlaced_sites hs).1
  rw [shorten_of_sites hs] at h
  cases h
  rw [String.toList_ofList, applyAll_eq_between hp]

/-- Aliases in a text that has them already find nothing to do, if its sites are found again where they
are expected. -/
theorem shorten_again {text out : String} {edits : List Edit} {ss ss' : List Site}
    (hd : ∀ e ∈ d.entries, e.short ≠ "" ∧ e.short.toList.head? ≠ some '.')
    (h : shorten d quote file text = .ok (out, edits)) (hs : Linkage.sites file text = .ok ss)
    (hs' : Linkage.sites file out = .ok ss')
    (hsame : ss'.map (fun s => (s.value, s.quoted)) =
      sitesAfter d quote (file.parent?.getD .top) text.toList ss) :
    shorten d quote file out = .ok (out, []) := by
  have hp := (Linkage.wellPlaced_sites hs).1
  have hnone := replacements_sitesAfter hd hp hsame
  rw [← toList_of_shorten h hs] at hnone
  rw [shorten_of_sites hs', hnone]
  simp [applyAll]

def unevenOut : String :=
  "// é\nimport { a } from '@app/b';\nexport * from \"../λ/c\";\nimport d from 'd';\n"

def unevenSitesAfter : List Site :=
  [⟨"@app/b", ⟨24, 32⟩, ⟨6, 33⟩⟩, ⟨"../λ/c", ⟨48, 57⟩, ⟨34, 58⟩⟩, ⟨"d", ⟨73, 76⟩, ⟨59, 77⟩⟩]

/-- Its second specifier is refused again, since no directory begins the path that it names. -/
theorem unevenText_again :
    (∃ edits, edits ≠ [] ∧
      shorten ⟨[⟨"/p/src", "@app"⟩]⟩ .single ⟨true, ["p", "src", "f.ts"]⟩ unevenText =
        .ok (unevenOut, edits)) ∧
    shorten ⟨[⟨"/p/src", "@app"⟩]⟩ .single ⟨true, ["p", "src", "f.ts"]⟩ unevenOut =
      .ok (unevenOut, []) := by
  have hfirst : (shorten ⟨[⟨"/p/src", "@app"⟩]⟩ .single ⟨true, ["p", "src", "f.ts"]⟩
      unevenText).toOption = some (unevenOut, [⟨⟨true, ["p", "src", "f.ts"]⟩, "./b", "@app/b",
        "import { a } from './b';", "import { a } from '@app/b';"⟩]) := by
    decide +kernel
  have hsites : (Linkage.sites ⟨true, ["p", "src", "f.ts"]⟩ unevenOut).toOption =
      some unevenSitesAfter := by
    decide +kernel
  have hfirst := Except.eq_ok_of_toOption hfirst
  refine ⟨⟨_, List.cons_ne_nil _ _, hfirst⟩, ?_⟩
  exact shorten_again (by decide) hfirst sites_unevenText (Except.eq_ok_of_toOption hsites)
    (by decide +kernel)

end BarrelAlias.Alias
