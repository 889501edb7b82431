import BarrelAlias.Proofs.Decoding

/-!
Derived names. A text gives a name as soon as it holds one character that may stand in a name, and a
name of ASCII characters is derived from itself. Names derived of ASCII texts are such names, and so is
all that a barrel publishes of such names from ASCII origins: a name as it is, qualified by however many
segments, or with a number.
-/

namespace BarrelAlias.Barrel

open Text

/-- A text has no words exactly if none of its characters may stand in a name. -/
theorem words_eq_nil_iff {s : String} :
    (s.toList.splitOnP (!isNameChar ·)).filter (· ≠ []) = [] ↔ ∀ c ∈ s.toList, ¬ isNameChar c := by
  simp only [List.filter_eq_nil_iff, decide_eq_true_eq, not_not]
  constructor
  · intro h c hc hname
    obtain ⟨piece, hpiece, hmem⟩ := exists_mem_splitOnP (p := (!isNameChar ·)) hc (by simp [hname])
    rw [h piece hpiece] at hmem
    cases hmem
  · intro h piece hpiece
    refine List.eq_nil_iff_forall_not_mem.mpr fun c hc => ?_
    obtain ⟨hmem, hname⟩ := mem_splitOnP hpiece hc
    exact h c hmem (by simpa using hname)

/-- A text gives no name exactly if it has no words. -/
theorem identifierOf_eq_empty_iff {s : String} :
    identifierOf s = "" ↔ ∀ c ∈ s.toList, ¬ isNameChar c := by
  rw [← words_eq_nil_iff, identifierOf]
  have hne : ∀ word ∈ (s.toList.splitOnP (!isNameChar ·)).filter (· ≠ []), word ≠ [] := by
    intro word hword
    simpa using (List.mem_filter.mp hword).2
  generalize (s.toList.splitOnP (!isNameChar ·)).filter (· ≠ []) = words at hne
  cases words with
  | nil => simp
  | cons word more =>
    obtain ⟨c, cs, rfl⟩ := List.exists_cons_of_ne_nil (hne word (List.mem_cons_self ..))
    simp only [List.map_cons, String.toList_append, String.toList_ofList, List.cons_append]
    split
    · simp
    · simp

/-- A text that consists of such characters and does not begin with a digit is its own name. -/
theorem identifierOf_eq_self {s : String} (h : ∀ c ∈ s.toList, isNameChar c)
    (hdigit : ∀ c ∈ s.toList.head?, ¬ c.isDigit) : identifierOf s = s := by
  have hsplit : s.toList.splitOnP (!isNameChar ·) = [s.toList] :=
    List.splitOnP_eq_singleton fun c hc => by simp [h c hc]
  obtain ⟨cs, rfl⟩ : ∃ cs, s = String.ofList cs := ⟨s.toList, by simp⟩
  rw [String.toList_ofList] at hsplit hdigit
  rw [identifierOf, String.toList_ofList, hsplit]
  cases cs with
  | nil => rfl
  | cons c cs =>
    have hc : ¬ c.isDigit := hdigit c rfl
    simp [hc]

/-- An ASCII name is its own name. -/
theorem identifierOf_isAsciiName {s : String} (h : isAsciiName s) : identifierOf s = s := by
  obtain ⟨⟨c, cs, hs, hc⟩, hparts⟩ := isAsciiName_iff.mp h
  refine identifierOf_eq_self ?_ ?_
  · intro c hc
    exact (isNameChar_iff_ascii (toNat_lt_of_isNamePart (hparts c hc))).mpr (hparts c hc)
  · intro c' hc'
    rw [hs] at hc'
    cases hc'
    exact not_isDigit_of_isNameStart hc

theorem identifierOf_identifierOf {s : String} (h : isAscii s) :
    identifierOf (identifierOf s) = identifierOf s := by
  rcases identifierOf_ascii h with hempty | hname
  · rw [hempty]
    rfl
  · exact identifierOf_isAsciiName hname

theorem identifierOf_ascii_eq_empty_iff {s : String} (h : isAscii s) :
    identifierOf s = "" ↔ ∀ c ∈ s.toList, ¬ isNamePart c := by
  rw [isAscii, List.all_eq_true] at h
  rw [identifierOf_eq_empty_iff]
  refine forall₂_congr fun c hc => ?_
  rw [isNameChar_iff_ascii (by simpa using h c hc)]

/-- Where names are ASCII names and origins are ASCII texts, each line shows ASCII names only. -/
theorem isAsciiName_of_mem_published {qs : List Request}
    (h : ∀ q ∈ qs, isAsciiName q.name ∧ isAscii q.origin) {ln : Line}
    (hl : ln ∈ (Registry.empty.enterAll qs).lines) {name : String} (hn : name ∈ ln.published) :
    isAsciiName name := by
  rw [Line.published, List.mem_map] at hn
  obtain ⟨shown, hshown, rfl⟩ := hn
  rw [mem_firstOccurrences, (Registry.sound_empty.enterAll qs).mem_lines hl, List.mem_map] at hshown
  obtain ⟨c, hc, rfl⟩ := hshown
  rcases Registry.clauses_enterAll hc with hc | ⟨q, hq, ⟨_, rfl⟩, _⟩
  · cases hc
  · exact isAsciiName_published h _ (h q hq).1

/-- An ASCII text gives an ASCII name if it has a part of one, and else none; a name that is given gives
itself; and a barrel publishes ASCII names only, where the registered ones are and the origins are ASCII
texts. -/
theorem identifierOf_and_published_ascii :
    (∀ s, isAscii s →
      (if s.toList.any isNamePart then isAsciiName (identifierOf s) = true else identifierOf s = "") ∧
        identifierOf (identifierOf s) = identifierOf s) ∧
    ∀ qs : List Request, (∀ q ∈ qs, isAsciiName q.name ∧ isAscii q.origin) →
      ∀ quote, (Registry.empty.enterAll qs).render quote =
          (Registry.empty.enterAll qs).lines.map (Line.text quote) ∧
        ∀ ln ∈ (Registry.empty.enterAll qs).lines, ∀ name ∈ ln.published, isAsciiName name := by
  constructor
  · intro s hs
    refine ⟨?_, identifierOf_identifierOf hs⟩
    have hempty := identifierOf_ascii_eq_empty_iff hs
    split
    · next hany =>
      refine (identifierOf_ascii hs).resolve_left fun he => ?_
      obtain ⟨c, hc, hpart⟩ := List.any_eq_true.mp hany
      exact hempty.mp he c hc hpart
    · next hany =>
      refine hempty.mpr fun c hc hpart => hany ?_
      exact List.any_eq_true.mpr ⟨c, hc, hpart⟩
  · intro qs hqs quote
    exact ⟨Registry.render_eq_lines _ quote, fun ln hl name hn => isAsciiName_of_mem_published hqs hl hn⟩

def mixedOrigins : List Request :=
  [⟨"aF", "aF", 0, "./z"⟩, ⟨"f", "f", 1, "./a"⟩, ⟨"f", "f", 2, "./--"⟩, ⟨"f", "f", 3, "./2-d"⟩,
    ⟨"f", "f", 4, "./p/b"⟩, ⟨"f", "f", 5, "./q/b"⟩]

theorem mixedOrigins_named :
    (∀ s ∈ ["2-d", "--"], isAscii s = true) ∧
      ["2-d", "--"].map identifierOf = ["_2D", ""] ∧
      (∀ q ∈ mixedOrigins, isAsciiName q.name = true ∧ isAscii q.origin = true) ∧
      (Registry.empty.enterAll mixedOrigins).lines.map Line.published =
        [["aF"], ["aF2"], ["F"], ["_2DF"], ["pBF"], ["qBF"]] ∧
      identifierOf (identifierOf "2-d") = identifierOf "2-d" ∧
      ∀ ln ∈ (Registry.empty.enterAll mixedOrigins).lines, ∀ name ∈ ln.published,
        isAsciiName name = true := by
  have hascii : ∀ s ∈ ["2-d", "--"], isAscii s = true := by decide
  have hnames : ∀ q ∈ mixedOrigins, isAsciiName q.name = true ∧ isAscii q.origin = true := by decide
  refine ⟨hascii, by decide +kernel, hnames, by decide +kernel, ?_, ?_⟩
  · exact (identifierOf_and_published_ascii.1 "2-d" (hascii _ (by simp))).2
  · exact (identifierOf_and_published_ascii.2 mixedOrigins hnames .double).2

end BarrelAlias.Barrel
