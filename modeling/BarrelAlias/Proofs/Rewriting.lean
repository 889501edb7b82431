import BarrelAlias.Alias.Source
import BarrelAlias.Proofs.Bytes
import BarrelAlias.Proofs.Table
import Mathlib.Algebra.GroupWithZero.Nat
import Mathlib.Data.List.Forall2

/-!
What aliases do to the text of a file. Sites are well placed if their statements follow one another and
each holds its specifier. Then the text afterwards is the text before with another specifier at some of
the sites, read from left to right; every edit shows its statement before and after as it stands in the
two texts; and no stretch is cut that does not fit.
-/

namespace BarrelAlias.Alias

open Linkage (Site)
open Text (byteLength Span IsBoundary)

/-- Statements follow one another, each holds its specifier, and all stretches fit the text. -/
structure WellPlaced (source : List Char) (ss : List Site) : Prop where
  ascending : ss.Pairwise fun s s' => s.statement.stop ≤ s'.statement.start
  inside : ∀ s ∈ ss, s.statement.start ≤ s.quoted.start ∧ s.quoted.stop ≤ s.statement.stop
  fits : ∀ s ∈ ss, s.statement.Fits source ∧ s.quoted.Fits source

section Between

variable (source : List Char) (lit : Site → List Char)

/-- The text from a byte up to byte `stop`, read from left to right with `lit` at each site. -/
def between (stop : Nat) : Nat → List Site → List Char
  | pos, [] => (Span.mk pos stop).slice source
  | pos, s :: ss =>
    (Span.mk pos s.quoted.start).slice source ++ lit s ++ between stop s.quoted.stop ss

/-- Where byte `pos` stands in that text after these sites. -/
def moved (before : List Site) (pos : Nat) : Nat :=
  pos + (before.map fun s => byteLength (lit s)).sum -
    (before.map fun s => s.quoted.stop - s.quoted.start).sum

/-- All stretches that are read fit the text. -/
def Readable (stop : Nat) : Nat → List Site → Prop
  | pos, [] => (Span.mk pos stop).Fits source
  | pos, s :: ss =>
    (Span.mk pos s.quoted.start).Fits source ∧ s.quoted.Fits source ∧ Readable stop s.quoted.stop ss

variable {source}

theorem WellPlaced.sublist {ss ss' : List Site} (h : WellPlaced source ss) (hsub : ss'.Sublist ss) :
    WellPlaced source ss' where
  ascending := h.ascending.sublist hsub
  inside := fun s hs => h.inside s (hsub.mem hs)
  fits := fun s hs => h.fits s (hsub.mem hs)

/-- Well placed sites can be read from any boundary before them to any boundary after them. -/
theorem WellPlaced.readable {ss : List Site} (h : WellPlaced source ss) {pos stop : Nat}
    (hspan : (Span.mk pos stop).Fits source) (hpos : ∀ s ∈ ss, pos ≤ s.statement.start)
    (hstop : ∀ s ∈ ss, s.statement.stop ≤ stop) : Readable source stop pos ss := by
  induction ss generalizing pos with
  | nil => exact hspan
  | cons s ss ih =>
    obtain ⟨hstart, hend⟩ := h.inside s List.mem_cons_self
    have hquoted := (h.fits s List.mem_cons_self).2
    have hbefore := hpos s List.mem_cons_self
    have hafter := hstop s List.mem_cons_self
    refine ⟨⟨Nat.le_trans hbefore hstart, hspan.2.1, hquoted.2.1⟩, hquoted, ?_⟩
    refine ih (h.sublist (List.sublist_cons_self s ss))
      ⟨Nat.le_trans hend hafter, hquoted.2.2, hspan.2.2⟩ ?_ ?_
    · intro s' hs'
      exact Nat.le_trans hend (List.rel_of_pairwise_cons h.ascending hs')
    · exact fun s' hs' => hstop s' (List.mem_cons_of_mem s hs')

/-- Well placed sites can be read from one end of the text to the other. -/
theorem WellPlaced.readable_whole {ss : List Site} (h : WellPlaced source ss) :
    Readable source (byteLength source) 0 ss :=
  h.readable ⟨Nat.zero_le _, Text.isBoundary_zero source, Text.isBoundary_byteLength source⟩
    (fun _ _ => Nat.zero_le _) fun s hs => (h.fits s hs).1.2.2.le

theorem Readable.fits {stop pos : Nat} {ss : List Site} (h : Readable source stop pos ss) :
    (Span.mk pos stop).Fits source := by
  induction ss generalizing pos with
  | nil => exact h
  | cons s ss ih =>
    obtain ⟨hgap, hquoted, hrest⟩ := h
    exact hgap.trans (Span.Fits.trans hquoted (ih hrest))

theorem Readable.append {stop mid pos : Nat} {before rest : List Site}
    (hbefore : Readable source mid pos before) (hrest : Readable source stop mid rest) :
    Readable source stop pos (before ++ rest) := by
  induction before generalizing pos with
  | nil =>
    cases rest with
    | nil => exact Span.Fits.trans hbefore hrest
    | cons s rest => exact ⟨Span.Fits.trans hbefore hrest.1, hrest.2⟩
  | cons s before ih => exact ⟨hbefore.1, hbefore.2.1, ih hbefore.2.2⟩

/-- A text that is read up to a byte is read on from there. -/
theorem between_append (lit : Site → List Char) {stop mid pos : Nat} {before rest : List Site}
    (hbefore : Readable source mid pos before) (hrest : Readable source stop mid rest) :
    between source lit stop pos (before ++ rest) =
      between source lit mid pos before ++ between source lit stop mid rest := by
  induction before generalizing pos with
  | nil =>
    cases rest with
    | nil => exact (Span.Fits.slice_append hbefore hrest).symm
    | cons s rest =>
      have hgap := Span.Fits.slice_append hbefore hrest.1
      simp only [List.nil_append, between, ← hgap, List.append_assoc]
  | cons s before ih =>
    simp only [List.cons_append, between, ih hbefore.2.2, List.append_assoc]

/-- What is read has as many bytes as the stretch, but for what stands at the sites. -/
theorem byteLength_between (lit : Site → List Char) {stop pos : Nat} {ss : List Site}
    (h : Readable source stop pos ss) :
    byteLength (between source lit stop pos ss) + pos +
        (ss.map fun s => s.quoted.stop - s.quoted.start).sum =
      stop + (ss.map fun s => byteLength (lit s)).sum := by
  induction ss generalizing pos with
  | nil =>
    have hlen := Span.Fits.byteLength_slice h
    have hle : pos ≤ stop := h.1
    simp only [between, List.map_nil, List.sum_nil]
    simp only at hlen
    omega
  | cons s ss ih =>
    obtain ⟨hgap, hquoted, hrest⟩ := h
    have hlen := hgap.byteLength_slice
    have hle : pos ≤ s.quoted.start := hgap.1
    have hle' := hquoted.1
    have hih := ih hrest
    simp only [between, List.map_cons, List.sum_cons, Text.byteLength_append]
    simp only at hlen
    omega

/-- From the start of the text on, a byte moves by what the sites before it gain or lose. -/
theorem byteLength_between_zero (lit : Site → List Char) {stop : Nat} {before : List Site}
    (h : Readable source stop 0 before) :
    byteLength (between source lit stop 0 before) = moved lit before stop := by
  have hsum := byteLength_between lit h
  unfold moved
  omega

/-- A statement stands in the text that is read where the sites before it have moved it. -/
theorem slice?_moved (lit : Site → List Char) {before rest : List Site} {s : Site}
    (h : WellPlaced source (before ++ s :: rest)) :
    (Span.mk (moved lit before s.statement.start)
        (moved lit (before ++ [s]) s.statement.stop)).slice?
      (between source lit (byteLength source) 0 (before ++ s :: rest)) =
        some (between source lit s.statement.stop s.statement.start [s]) := by
  have hmem : s ∈ before ++ s :: rest := by simp
  have hst := (h.fits s hmem).1
  obtain ⟨_, htail, hbefore⟩ := List.pairwise_append.mp h.ascending
  have hread : Readable source s.statement.start 0 before := by
    refine (h.sublist (List.sublist_append_left _ _)).readable
      ⟨Nat.zero_le _, Text.isBoundary_zero source, hst.2.1⟩ (fun _ _ => Nat.zero_le _) ?_
    exact fun s' hs' => hbefore s' hs' s List.mem_cons_self
  have hself : Readable source s.statement.stop s.statement.start [s] := by
    refine (h.sublist (List.singleton_sublist.mpr hmem)).readable hst ?_ ?_
    · simp
    · simp
  have hrest : Readable source (byteLength source) s.statement.stop rest := by
    refine (h.sublist ((List.sublist_cons_self s rest).trans (List.sublist_append_right _ _))).readable
      ⟨hst.2.2.le, hst.2.2, Text.isBoundary_byteLength source⟩ ?_ ?_
    · exact fun s' hs' => List.rel_of_pairwise_cons htail hs'
    · intro s' hs'
      exact (h.fits s' (by simp [hs'])).1.2.2.le
  -- the text is what is read before the statement, the statement, and what is read after it
  have hfront := byteLength_between_zero lit hread
  have hjoined := byteLength_between_zero lit (hread.append hself)
  rw [between_append lit hread hself, Text.byteLength_append] at hjoined
  have hout : between source lit (byteLength source) 0 (before ++ s :: rest) =
      between source lit s.statement.start 0 before ++
        (between source lit s.statement.stop s.statement.start [s] ++
          between source lit (byteLength source) s.statement.stop rest) := by
    rw [← between_append lit hself hrest, ← between_append lit hread (hself.append hrest)]
    rfl
  have hcut := Span.of_append
    (s := ⟨moved lit before s.statement.start, moved lit (before ++ [s]) s.statement.stop⟩)
    hfront hjoined (between source lit (byteLength source) s.statement.stop rest)
  rw [hout, Span.slice?_of_fits hcut.1, hcut.2.1]

/-- Where the source stands at every site, the source is read. -/
theorem between_of_slice {lit : Site → List Char} {stop pos : Nat} {ss : List Site}
    (h : Readable source stop pos ss) (hlit : ∀ s ∈ ss, lit s = s.quoted.slice source) :
    between source lit stop pos ss = (Span.mk pos stop).slice source := by
  induction ss generalizing pos with
  | nil => rfl
  | cons s ss ih =>
    obtain ⟨hgap, hquoted, hrest⟩ := h
    have hquoted' : (Span.mk s.quoted.start s.quoted.stop).Fits source := hquoted
    rw [between, hlit s List.mem_cons_self,
      ih hrest fun s' hs' => hlit s' (List.mem_cons_of_mem s hs'), List.append_assoc,
      Span.Fits.slice_append hquoted' hrest.fits, Span.Fits.slice_append hgap]
    exact hquoted'.trans hrest.fits

end Between

variable {d : Directory} {quote : QuoteStyle} {file dir : Path} {source : List Char}

/-- An alias takes the place of the specifier: the specifier begins with a dot, and its alias does not
stand there already. -/
def Replaces (d : Directory) (quote : QuoteStyle) (dir : Path) (source : List Char) (s : Site)
    (aliased : String) : Prop :=
  s.value.toList.head? = some '.' ∧ d.aliasFor? dir s.value = some aliased ∧
    (quote.quote aliased).toList ≠ s.quoted.slice source

theorem isRelative_iff (specifier : String) :
    isRelative specifier ↔ specifier.toList.head? = some '.' := by
  rw [isRelative, Text.beginsWith]
  cases specifier.toList with
  | nil => simp
  | cons c cs =>
    have hc : '.' = c ↔ c = '.' := eq_comm
    simp [hc]

theorem replacement?_eq_some_iff {s : Site} {r : Replacement} :
    replacement? d quote dir source s = some r ↔
      r.site = s ∧ r.quoted = quote.quote r.aliased ∧ Replaces d quote dir source s r.aliased := by
  unfold replacement? Replaces
  rw [← isRelative_iff]
  by_cases hrel : isRelative s.value
  · simp only [hrel, if_true, true_and, Option.bind_eq_some_iff]
    constructor
    · rintro ⟨aliased, halias, h⟩
      split at h
      · simp at h
      · next hne =>
        cases h
        exact ⟨rfl, rfl, halias, hne⟩
    · rintro ⟨rfl, hquoted, halias, hne⟩
      refine ⟨r.aliased, halias, ?_⟩
      rw [if_neg hne, ← hquoted]
  · simp [hrel]

theorem not_replaces_of_eq_none {s : Site} (h : replacement? d quote dir source s = none)
    (aliased : String) : ¬ Replaces d quote dir source s aliased := by
  intro hr
  have hsome : replacement? d quote dir source s = some ⟨s, aliased, quote.quote aliased⟩ :=
    replacement?_eq_some_iff.mpr ⟨rfl, rfl, hr⟩
  rw [h] at hsome
  simp at hsome

def literalAfter (d : Directory) (quote : QuoteStyle) (dir : Path) (source : List Char) (s : Site) :
    List Char :=
  match replacement? d quote dir source s with
  | some r => r.quoted.toList
  | none => s.quoted.slice source

theorem literalAfter_of_replaces {s : Site} {aliased : String}
    (h : Replaces d quote dir source s aliased) :
    literalAfter d quote dir source s = (quote.quote aliased).toList := by
  have hr : replacement? d quote dir source s = some ⟨s, aliased, quote.quote aliased⟩ :=
    replacement?_eq_some_iff.mpr ⟨rfl, rfl, h⟩
  rw [literalAfter, hr]

theorem literalAfter_of_not_replaces {s : Site}
    (h : ∀ aliased, ¬ Replaces d quote dir source s aliased) :
    literalAfter d quote dir source s = s.quoted.slice source := by
  have hr : replacement? d quote dir source s = none := by
    rw [Option.eq_none_iff_forall_ne_some]
    intro r hr
    exact h r.aliased (replacement?_eq_some_iff.mp hr).2.2
  rw [literalAfter, hr]

def replacements (d : Directory) (quote : QuoteStyle) (dir : Path) (source : List Char)
    (ss : List Site) : List Replacement := ss.filterMap (replacement? d quote dir source)

theorem replacements_cons_none {s : Site} {ss : List Site}
    (h : replacement? d quote dir source s = none) :
    replacements d quote dir source (s :: ss) = replacements d quote dir source ss :=
  List.filterMap_cons_none h

theorem replacements_cons_some {s : Site} {ss : List Site} {r : Replacement}
    (h : replacement? d quote dir source s = some r) :
    replacements d quote dir source (s :: ss) = r :: replacements d quote dir source ss :=
  List.filterMap_cons_some h

theorem applyAll_cons (source : List Char) (r : Replacement) (rs : List Replacement) :
    applyAll source (r :: rs) = r.site.quoted.replace r.quoted.toList (applyAll source rs) := rfl

theorem shorten_of_sites {text : String} {ss : List Site} (hs : Linkage.sites file text = .ok ss) :
    shorten d quote file text =
      .ok (String.ofList (applyAll text.toList
          (replacements d quote (file.parent?.getD .top) text.toList ss)),
        (replacements d quote (file.parent?.getD .top) text.toList ss).map
          (·.edit file text.toList)) := by
  rw [shorten, hs]
  rfl

/-- A stretch is cut out of any text that begins as the source does up to its end. -/
theorem fits_after {s : Span} (h : s.Fits source) (rest : List Char) :
    s.Fits ((Span.mk 0 s.stop).slice source ++ rest) ∧
      ∀ new, s.replace new ((Span.mk 0 s.stop).slice source ++ rest) =
        (Span.mk 0 s.start).slice source ++ new ++ rest := by
  have hfront : (Span.mk 0 s.start).Fits source :=
    ⟨Nat.zero_le _, Text.isBoundary_zero source, h.2.1⟩
  have hjoin := Span.Fits.slice_append hfront h
  have hstart : byteLength ((Span.mk 0 s.start).slice source) = s.start := hfront.byteLength_slice
  have hstop : byteLength ((Span.mk 0 s.start).slice source) + byteLength (s.slice source) =
      s.stop := by
    have hle := h.1
    rw [hstart, h.byteLength_slice]
    omega
  have hcut := Span.of_append hstart hstop rest
  rw [← hjoin, List.append_assoc]
  exact ⟨hcut.1, hcut.2.2⟩

/-- Replacements that are made from the last to the first leave the text before them as it is, and
after it stands what is read from left to right. -/
theorem applyAll_replacements {pos : Nat} {ss : List Site} (hpos : (Span.mk 0 pos).Fits source)
    (h : Readable source (byteLength source) pos ss) :
    applyAll source (replacements d quote dir source ss) =
      (Span.mk 0 pos).slice source ++
        between source (literalAfter d quote dir source) (byteLength source) pos ss := by
  induction ss generalizing pos with
  | nil =>
    have hwhole := Span.Fits.slice_append hpos h
    rw [Span.slice_whole] at hwhole
    exact hwhole.symm
  | cons s ss ih =>
    obtain ⟨hgap, hquoted, hrest⟩ := h
    have hquoted' : (Span.mk s.quoted.start s.quoted.stop).Fits source := hquoted
    have hfront := hpos.trans hgap
    -- the later replacements are made, and up to the end of this site the text is the source
    have hih := ih (hfront.trans hquoted') hrest
    rw [between, ← List.append_assoc, ← List.append_assoc, Span.Fits.slice_append hpos hgap]
    cases hr : replacement? d quote dir source s with
    | none =>
      have hlit : literalAfter d quote dir source s = s.quoted.slice source := by
        rw [literalAfter, hr]
      rw [replacements_cons_none hr, hlit, Span.Fits.slice_append hfront hquoted']
      exact hih
    | some r =>
      have hlit : literalAfter d quote dir source s = r.quoted.toList := by rw [literalAfter, hr]
      have hsite : r.site = s := (replacement?_eq_some_iff.mp hr).1
      rw [replacements_cons_some hr, hlit, applyAll_cons, hsite, hih]
      exact (fits_after hquoted _).2 r.quoted.toList

/-- The stretch of a statement falls into what stands before its specifier, the specifier, and what
stands after it. -/
theorem statement_cut {s : Site} (hst : s.statement.Fits source) (hq : s.quoted.Fits source)
    (hin : s.statement.start ≤ s.quoted.start ∧ s.quoted.stop ≤ s.statement.stop) :
    (s.quoted.from s.statement.start).Fits (s.statement.slice source) ∧
      ∀ new, (s.quoted.from s.statement.start).replace new (s.statement.slice source) =
        between source (fun _ => new) s.statement.stop s.statement.start [s] := by
  have hq' : (Span.mk s.quoted.start s.quoted.stop).Fits source := hq
  have hfront : (Span.mk s.statement.start s.quoted.start).Fits source := ⟨hin.1, hst.2.1, hq.2.1⟩
  have hback : (Span.mk s.quoted.stop s.statement.stop).Fits source := ⟨hin.2, hq.2.2, hst.2.2⟩
  have hwhole : (Span.mk s.statement.start s.quoted.start).slice source ++
      (s.quoted.slice source ++ (Span.mk s.quoted.stop s.statement.stop).slice source) =
        s.statement.slice source := by
    rw [Span.Fits.slice_append hq' hback, Span.Fits.slice_append hfront (hq'.trans hback)]
  have hstart : byteLength ((Span.mk s.statement.start s.quoted.start).slice source) =
      (s.quoted.from s.statement.start).start := hfront.byteLength_slice
  have hstop : byteLength ((Span.mk s.statement.start s.quoted.start).slice source) +
      byteLength (s.quoted.slice source) = (s.quoted.from s.statement.start).stop := by
    have hle := hq.1
    rw [hstart, hq.byteLength_slice, Span.from_start, Span.from_stop]
    omega
  have hcut := Span.of_append hstart hstop ((Span.mk s.quoted.stop s.statement.stop).slice source)
  rw [hwhole] at hcut
  exact ⟨hcut.1, hcut.2.2⟩

/-! The same run with every slice and every subtraction checked. -/

namespace Checked

def replacement? (d : Directory) (quote : QuoteStyle) (dir : Path) (source : List Char) (s : Site) :
    Option (Option Replacement) :=
  if isRelative s.value then
    match d.aliasFor? dir s.value with
    | none => some none
    | some aliased => do
      let old ← s.quoted.slice? source
      let quoted := quote.quote aliased
      return if quoted.toList = old then none else some ⟨s, aliased, quoted⟩
  else some none

def edit (file : Path) (source : List Char) (r : Replacement) : Option Edit := do
  let old ← r.site.statement.slice? source
  let inner ← r.site.quoted.from? r.site.statement.start
  let new ← inner.replace? r.quoted.toList old
  let stop ← Text.sub? (byteLength r.quoted.toList) 1
  let specifier ← (Span.mk 1 stop).slice? r.quoted.toList
  return { file := file
           oldSpecifier := r.site.value
           newSpecifier := String.ofList specifier
           oldStatement := String.ofList old
           newStatement := String.ofList new }

def applyAll (source : List Char) (rs : List Replacement) : Option (List Char) :=
  rs.foldrM (fun r text => r.site.quoted.replace? r.quoted.toList text) source

/-- The text of a file with aliases in it and the edits, unless a slice or a subtraction fails. -/
def shorten (d : Directory) (quote : QuoteStyle) (file : Path) (text : String) :
    Except Failure (Option (String × List Edit)) := do
  let dir := file.parent?.getD .top
  let source := text.toList
  let ss ← Linkage.sites file text
  return do
    let found ← ss.mapM (replacement? d quote dir source)
    let rs := found.filterMap id
    let edits ← rs.mapM (edit file source)
    let out ← applyAll source rs
    return (String.ofList out, edits)

theorem replacement?_eq {s : Site} (h : s.quoted.Fits source) :
    replacement? d quote dir source s = some (Alias.replacement? d quote dir source s) := by
  unfold replacement? Alias.replacement?
  split
  · cases d.aliasFor? dir s.value with
    | none => rfl
    | some aliased =>
      rw [Span.slice?_of_fits h]
      rfl
  · rfl

/-- The specifier stands between the quotes of its literal. -/
theorem slice?_quote (quote : QuoteStyle) (text : String) :
    (do
      let stop ← Text.sub? (byteLength (quote.quote text).toList) 1
      (Span.mk 1 stop).slice? (quote.quote text).toList) = some text.toList := by
  have hmark : byteLength [quote.mark] = 1 := by cases quote <;> rfl
  have hquote : (quote.quote text).toList = [quote.mark] ++ (text.toList ++ [quote.mark]) := by
    simp [QuoteStyle.quote]
  have hlen : byteLength (quote.quote text).toList = byteLength text.toList + 2 := by
    rw [hquote, Text.byteLength_append, Text.byteLength_append, hmark]
    omega
  have hstop : byteLength [quote.mark] + byteLength text.toList =
      (Span.mk 1 (byteLength text.toList + 1)).stop := by
    simp only [hmark]
    omega
  have hcut := Span.of_append hmark hstop [quote.mark]
  have hsub : Text.sub? (byteLength (quote.quote text).toList) 1 =
      some (byteLength text.toList + 1) := by
    rw [hlen, Text.sub?_of_le (by omega), Nat.add_sub_assoc (by omega)]
  rw [hsub, Option.bind_eq_bind, Option.bind_some, hquote, Span.slice?_of_fits hcut.1, hcut.2.1]

theorem edit_eq {r : Replacement} (hst : r.site.statement.Fits source)
    (hq : r.site.quoted.Fits source)
    (hin : r.site.statement.start ≤ r.site.quoted.start ∧
      r.site.quoted.stop ≤ r.site.statement.stop)
    (hquoted : r.quoted = quote.quote r.aliased) :
    edit file source r = some (r.edit file source) := by
  have hfrom : r.site.statement.start ≤ r.site.quoted.stop := Nat.le_trans hin.1 hq.1
  have hspecifier := slice?_quote quote r.aliased
  rw [← hquoted] at hspecifier
  obtain ⟨stop, hsub, hslice⟩ := Option.bind_eq_some_iff.mp hspecifier
  simp only [edit, Span.slice?_of_fits hst, Span.from?_of_le hin.1 hfrom,
    Span.replace?_of_fits (statement_cut hst hq hin).1, hsub, hslice, Option.bind_eq_bind,
    Option.bind_some, String.ofList_toList]
  rfl

theorem applyAll_cons (source : List Char) (r : Replacement) (rs : List Replacement) :
    applyAll source (r :: rs) =
      (applyAll source rs).bind fun text => r.site.quoted.replace? r.quoted.toList text := by
  rw [applyAll, List.foldrM_cons]
  rfl

/-- When a replacement is made, its specifier still stands where it stood in the source. -/
theorem applyAll_eq {pos : Nat} {ss : List Site} (hpos : (Span.mk 0 pos).Fits source)
    (h : Readable source (byteLength source) pos ss) :
    applyAll source (replacements d quote dir source ss) =
      some (Alias.applyAll source (replacements d quote dir source ss)) := by
  induction ss generalizing pos with
  | nil => rfl
  | cons s ss ih =>
    obtain ⟨hgap, hquoted, hrest⟩ := h
    have hafter : (Span.mk 0 s.quoted.stop).Fits source := hpos.trans (hgap.trans hquoted)
    have hih := ih hafter hrest
    cases hr : Alias.replacement? d quote dir source s with
    | none =>
      rw [replacements_cons_none hr]
      exact hih
    | some r =>
      have hsite : r.site = s := (replacement?_eq_some_iff.mp hr).1
      have hfits : s.quoted.Fits (Alias.applyAll source (replacements d quote dir source ss)) := by
        rw [applyAll_replacements hafter hrest]
        exact (fits_after hquoted _).1
      rw [replacements_cons_some hr, applyAll_cons, Alias.applyAll_cons, hih, Option.bind_some, hsite,
        Span.replace?_of_fits hfits]

/-- Where the sites are well placed, no slice and no subtraction fails. -/
theorem shorten_eq {text : String} {ss : List Site} (hs : Linkage.sites file text = .ok ss)
    (hp : WellPlaced text.toList ss) :
    shorten d quote file text = (Alias.shorten d quote file text).map some := by
  obtain ⟨dir, hdir⟩ : ∃ dir, file.parent?.getD .top = dir := ⟨_, rfl⟩
  have hfound : ss.mapM (replacement? d quote dir text.toList) =
      some (ss.map (Alias.replacement? d quote dir text.toList)) :=
    mapM_eq_some fun s hmem => replacement?_eq (hp.fits s hmem).2
  have hedits : (replacements d quote dir text.toList ss).mapM (edit file text.toList) =
      some ((replacements d quote dir text.toList ss).map (·.edit file text.toList)) := by
    refine mapM_eq_some fun r hr => ?_
    obtain ⟨s, hmem, hr⟩ := List.mem_filterMap.mp hr
    obtain ⟨rfl, hquoted, _⟩ := replacement?_eq_some_iff.mp hr
    exact edit_eq (hp.fits _ hmem).1 (hp.fits _ hmem).2 (hp.inside _ hmem) hquoted
  have happly : applyAll text.toList (replacements d quote dir text.toList ss) =
      some (Alias.applyAll text.toList (replacements d quote dir text.toList ss)) :=
    applyAll_eq (Span.fits_nil text.toList) hp.readable_whole
  have hrs : (ss.map (Alias.replacement? d quote dir text.toList)).filterMap id =
      replacements d quote dir text.toList ss := by
    rw [List.filterMap_map, Function.id_comp, replacements]
  rw [shorten_of_sites hs, shorten, hs, hdir]
  change Except.ok (do
    let found ← ss.mapM (replacement? d quote dir text.toList)
    let edits ← (found.filterMap id).mapM (edit file text.toList)
    let out ← applyAll text.toList (found.filterMap id)
    return (String.ofList out, edits)) = _
  rw [hfound]
  simp only [Option.bind_eq_bind, Option.bind_some, hrs, hedits, happly]
  rfl

end Checked

/-- The edit reports what happens at the site with number `k`: its statement is the one of the source,
and then the one of the text afterwards, where the sites up to it have moved it. -/
def Reports (d : Directory) (quote : QuoteStyle) (file dir : Path) (source : List Char)
    (ss : List Site) (out : List Char) (k : Nat) (e : Edit) : Prop :=
  ∃ s, ss[k]? = some s ∧ Replaces d quote dir source s e.newSpecifier ∧
    e.file = file ∧ e.oldSpecifier = s.value ∧
    s.statement.slice? source = some e.oldStatement.toList ∧
    (Span.mk (moved (literalAfter d quote dir source) (ss.take k) s.statement.start)
        (moved (literalAfter d quote dir source) (ss.take (k + 1)) s.statement.stop)).slice? out =
      some e.newStatement.toList

/-- A text and the edits that lead to it from the source. -/
structure Rewrites (d : Directory) (quote : QuoteStyle) (file dir : Path) (source : List Char)
    (ss : List Site) (out : List Char) (edits : List Edit) : Prop where
  /-- An alias stands at the sites where one takes the place of the specifier. -/
  replaced : ∀ s aliased, Replaces d quote dir source s aliased →
    literalAfter d quote dir source s = (quote.quote aliased).toList
  /-- At the other sites the literal stays. -/
  kept : ∀ s, (∀ aliased, ¬ Replaces d quote dir source s aliased) →
    literalAfter d quote dir source s = s.quoted.slice source
  /-- Between the sites the source stays. -/
  text : out = between source (literalAfter d quote dir source) (byteLength source) 0 ss
  /-- There is one edit for each site where an alias takes the place of the specifier, in order. -/
  edits : ∃ places : List Nat, places.Pairwise (· < ·) ∧
    (∀ k, k ∈ places ↔ ∃ s aliased, ss[k]? = some s ∧ Replaces d quote dir source s aliased) ∧
    List.Forall₂ (Reports d quote file dir source ss out) places edits
  /-- Without such a site the text stays as it is. -/
  unchanged : (∀ s ∈ ss, ∀ aliased, ¬ Replaces d quote dir source s aliased) → out = source

/-- The edit of a replacement reports its site. -/
theorem reports_edit {before rest : List Site} {r : Replacement}
    (hp : WellPlaced source (before ++ r.site :: rest))
    (hr : replacement? d quote dir source r.site = some r) :
    Reports d quote file dir source (before ++ r.site :: rest)
      (between source (literalAfter d quote dir source) (byteLength source) 0
        (before ++ r.site :: rest))
      before.length (r.edit file source) := by
  have hmem : r.site ∈ before ++ r.site :: rest := by simp
  obtain ⟨hst, hq⟩ := hp.fits _ hmem
  have hhere : (before ++ r.site :: rest)[before.length]? = some r.site := by simp
  have htake : (before ++ r.site :: rest).take before.length = before := by simp
  have htake' : (before ++ r.site :: rest).take (before.length + 1) = before ++ [r.site] := by
    rw [List.take_length_add_append]
    rfl
  have hlit : literalAfter d quote dir source r.site = r.quoted.toList := by rw [literalAfter, hr]
  refine ⟨r.site, hhere, (replacement?_eq_some_iff.mp hr).2.2, rfl, rfl, ?_, ?_⟩
  · rw [Span.slice?_of_fits hst, Replacement.edit, String.toList_ofList]
  · rw [htake, htake', slice?_moved _ hp, Replacement.edit, String.toList_ofList,
      (statement_cut hst hq (hp.inside _ hmem)).2]
    simp only [between, hlit]

/-- The edits of the sites from number `before.length` on report those sites. -/
theorem exists_places {ss before rest : List Site} (hss : ss = before ++ rest)
    (hp : WellPlaced source ss) :
    ∃ places : List Nat, places.Pairwise (· < ·) ∧
      (∀ k, k ∈ places ↔ before.length ≤ k ∧
        ∃ s aliased, ss[k]? = some s ∧ Replaces d quote dir source s aliased) ∧
      List.Forall₂
        (Reports d quote file dir source ss
          (between source (literalAfter d quote dir source) (byteLength source) 0 ss))
        places ((replacements d quote dir source rest).map (·.edit file source)) := by
  induction rest generalizing before with
  | nil =>
    refine ⟨[], List.Pairwise.nil, ?_, List.Forall₂.nil⟩
    intro k
    constructor
    · simp
    · rintro ⟨hk, s, aliased, hs, _⟩
      rw [hss, List.append_nil, List.getElem?_eq_none hk] at hs
      simp at hs
  | cons s rest ih =>
    -- the places after this site come from the rest; only this one is left to decide
    obtain ⟨places, hsorted, hplaces, hreports⟩ := @ih (before ++ [s]) (by simp [hss])
    rw [List.length_append, List.length_singleton] at hplaces
    have hhere : ss[before.length]? = some s := by simp [hss]
    cases hr : replacement? d quote dir source s with
    | none =>
      refine ⟨places, hsorted, ?_, by rwa [replacements_cons_none hr]⟩
      intro k
      rw [hplaces]
      constructor
      · rintro ⟨hk, h⟩
        exact ⟨by omega, h⟩
      · rintro ⟨hk, s', aliased, hs', h⟩
        refine ⟨?_, s', aliased, hs', h⟩
        rcases Nat.lt_or_eq_of_le hk with hlt | rfl
        · exact hlt
        · rw [hhere] at hs'
          cases hs'
          exact absurd h (not_replaces_of_eq_none hr aliased)
    | some r =>
      obtain ⟨rfl, _, hreplaces⟩ := replacement?_eq_some_iff.mp hr
      refine ⟨before.length :: places, ?_, ?_, ?_⟩
      · refine List.pairwise_cons.mpr ⟨?_, hsorted⟩
        intro k hk
        have := ((hplaces k).mp hk).1
        omega
      · intro k
        rw [List.mem_cons, hplaces]
        constructor
        · rintro (rfl | ⟨hk, h⟩)
          · exact ⟨Nat.le_refl _, r.site, r.aliased, hhere, hreplaces⟩
          · exact ⟨by omega, h⟩
        · rintro ⟨hk, h⟩
          rcases Nat.lt_or_eq_of_le hk with hlt | rfl
          · exact Or.inr ⟨hlt, h⟩
          · exact Or.inl rfl
      · rw [replacements_cons_some hr, List.map_cons]
        subst hss
        exact List.Forall₂.cons (reports_edit hp hr) hreports

/-- Where the sites of a file are well placed, no stretch is cut that does not fit; an alias stands at
each site where one takes the place of the specifier, and all else stays; and the edits report this. -/
theorem shorten_rewrites (d : Directory) (quote : QuoteStyle) (file : Path) (text : String)
    (ss : List Site) (hs : Linkage.sites file text = .ok ss) (hp : WellPlaced text.toList ss) :
    ∃ out edits, shorten d quote file text = .ok (out, edits) ∧
      Checked.shorten d quote file text = .ok (some (out, edits)) ∧
      Rewrites d quote file (file.parent?.getD .top) text.toList ss out.toList edits := by
  obtain ⟨dir, hdir⟩ : ∃ dir, file.parent?.getD .top = dir := ⟨_, rfl⟩
  have hrun : shorten d quote file text = .ok _ := shorten_of_sites hs
  have hchecked : Checked.shorten d quote file text = _ := Checked.shorten_eq hs hp
  rw [hdir] at hrun ⊢
  rw [hrun] at hchecked
  have hread := hp.readable_whole
  have hout : applyAll text.toList (replacements d quote dir text.toList ss) =
      between text.toList (literalAfter d quote dir text.toList) (byteLength text.toList) 0 ss := by
    have hall := @applyAll_replacements d quote dir _ _ _ (Span.fits_nil text.toList) hread
    simpa [Span.slice] using hall
  refine ⟨_, _, hrun, hchecked, ?_⟩
  rw [String.toList_ofList, hout]
  obtain ⟨places, hsorted, hplaces, hreports⟩ := exists_places (List.nil_append ss).symm hp
  refine ⟨fun s aliased => literalAfter_of_replaces, fun s => literalAfter_of_not_replaces, rfl,
    ⟨places, hsorted, ?_, hreports⟩, ?_⟩
  · simpa using hplaces
  · intro hnone
    rw [between_of_slice hread fun s hmem => literalAfter_of_not_replaces (hnone s hmem),
      Span.slice_whole]

/-- Three sites, one of which has a character of two bytes in it, after such a character. -/
def unevenText : String :=
  "// é\nimport { a } from './b';\nexport * from \"../λ/c\";\nimport d from 'd';\n"

def unevenSites : List Site :=
  [⟨"./b", ⟨24, 29⟩, ⟨6, 30⟩⟩, ⟨"../λ/c", ⟨45, 54⟩, ⟨31, 55⟩⟩, ⟨"d", ⟨70, 73⟩, ⟨56, 74⟩⟩]

theorem sites_unevenText :
    Linkage.sites ⟨true, ["p", "src", "f.ts"]⟩ unevenText = .ok unevenSites := by
  have h : (Linkage.sites ⟨true, ["p", "src", "f.ts"]⟩ unevenText).toOption = some unevenSites := by
    decide +kernel
  cases hs : Linkage.sites ⟨true, ["p", "src", "f.ts"]⟩ unevenText with
  | error e => simp [hs, Except.toOption] at h
  | ok ss => simpa [hs, Except.toOption] using h

theorem wellPlaced_unevenSites : WellPlaced unevenText.toList unevenSites where
  ascending := by decide
  inside := by decide
  fits := by decide +kernel

/-- The first of them takes an alias. -/
theorem unevenText_rewrites :
    Replaces ⟨[⟨"/p/src", "@"⟩]⟩ .single ⟨true, ["p", "src"]⟩ unevenText.toList
        ⟨"./b", ⟨24, 29⟩, ⟨6, 30⟩⟩ "@/b" ∧
      ∃ out edits,
        shorten ⟨[⟨"/p/src", "@"⟩]⟩ .single ⟨true, ["p", "src", "f.ts"]⟩ unevenText =
          .ok (out, edits) ∧
        Checked.shorten ⟨[⟨"/p/src", "@"⟩]⟩ .single ⟨true, ["p", "src", "f.ts"]⟩ unevenText =
          .ok (some (out, edits)) ∧
        Rewrites ⟨[⟨"/p/src", "@"⟩]⟩ .single ⟨true, ["p", "src", "f.ts"]⟩ ⟨true, ["p", "src"]⟩
          unevenText.toList unevenSites out.toList edits := by
  refine ⟨⟨by decide, by decide +kernel, by decide +kernel⟩, ?_⟩
  exact shorten_rewrites _ _ _ _ _ sites_unevenText wellPlaced_unevenSites

end BarrelAlias.Alias
