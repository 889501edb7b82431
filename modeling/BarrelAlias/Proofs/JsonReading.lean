import BarrelAlias.Proofs.JsonText

/-!
Reading JSON. Each rule of the grammar is read as one value, whatever gaps its tokens are written
with. Main statement: every value of the grammar is read, and what is read depends on its tokens
alone.
-/

namespace BarrelAlias.Config.Json

theorem Word.value_chars (w : Word) :
    ∃ v, ∀ g rest fuel, Blank g →
      value (fuel + 1) (g ++ ((Token.word w).chars ++ rest)) = some (v, rest) := by
  have skipped (g rest : List Char) (hg : Blank g) := skipGaps_token (.word w) rest hg
  cases w with
  | null => exact ⟨.null, fun g rest fuel hg => by rw [value, skipped g rest hg]; rfl⟩
  | bool b =>
    cases b with
    | true => exact ⟨.bool true, fun g rest fuel hg => by rw [value, skipped g rest hg]; rfl⟩
    | false => exact ⟨.bool false, fun g rest fuel hg => by rw [value, skipped g rest hg]; rfl⟩

/-- A text that starts with a digit is read as a number. -/
theorem value_digit {g cs : List Char} {c : Char} (fuel : Nat) (hg : Blank g) (hc : c.isDigit) :
    value (fuel + 1) (g ++ c :: cs) =
      (unsigned (c :: cs)).map fun (fits, rest) => (.number fits, rest) := by
  rw [value, skipGaps_append hg, skipGaps_cons (isGap_eq_false (isBlank_of_isDigit hc))]
  split <;> simp_all

theorem Numeral.value_chars (n : Numeral) :
    ∃ v, ∀ g rest fuel, Blank g → Ends rest →
      value (fuel + 1) (g ++ ((Token.number n).chars ++ rest)) = some (v, rest) := by
  obtain ⟨fits, read⟩ := unsigned_append n
  refine ⟨.number fits, fun g rest fuel hg h => ?_⟩
  have := read rest h
  cases hn : n.negative with
  | true =>
    have signed : (Token.number n).chars ++ rest = '-' :: (n.unsignedChars ++ rest) := by
      simp [Token.chars, Numeral.sign, hn]
    rw [value, skipGaps_token (.number n) rest hg, signed]
    simp [this]
  | false =>
    obtain ⟨c, cs, hcs, hc⟩ := n.whole.exists_cons
    have bare : (Token.number n).chars ++ rest =
        c :: (cs ++ n.fractionChars ++ n.powerChars ++ rest) := by
      simp [Token.chars, Numeral.sign, hn, Numeral.unsignedChars, hcs]
    have spelled : n.unsignedChars ++ rest =
        c :: (cs ++ n.fractionChars ++ n.powerChars ++ rest) := by
      simp [Numeral.unsignedChars, hcs]
    rw [bare, value_digit fuel hg hc, ← spelled, this]
    rfl

/-- No part of the grammar is empty, and none starts with a token that closes. -/
theorem Derives.exists_cons {p : Part} {ts : List Token} (h : Derives p ts) :
    ∃ t us, ts = t :: us ∧ t.closes = false := by
  induction h with
  | word | number | text | emptyArray | emptyObject | array | object | lastMember | member =>
    exact ⟨_, _, rfl, rfl⟩
  | lastItem _ ih => exact ih
  | item _ _ ih =>
    obtain ⟨t, us, rfl, ht⟩ := ih
    exact ⟨t, _, rfl, ht⟩

/-- Skipping the gap before a part leaves a layout of it that starts with its first token. -/
theorem Derives.skipGaps_laid {p : Part} {ts : List Token} {cs : List Char} (h : Derives p ts)
    (hcs : Laid Blank ts cs) (rest : List Char) :
    ∃ c as, skipGaps (cs ++ rest) = c :: (as ++ rest) ∧ c ≠ '\x7d' ∧ c ≠ ']' ∧
      Laid Blank ts (c :: as) := by
  obtain ⟨t, us, rfl, ht⟩ := h.exists_cons
  obtain ⟨g, as, rfl, hg, has⟩ := hcs.of_cons
  obtain ⟨c, bs, hc, first⟩ := t.exists_starts
  have outside : ¬ (c = '\x7d' ∨ c = ']') := by simp [first.closes_iff, ht]
  refine ⟨c, bs ++ as, ?_, fun h => outside (.inl h), fun h => outside (.inr h), ?_⟩
  · rw [List.append_assoc, skipGaps_append hg, hc]
    simp [skipGaps_cons (isGap_eq_false first.visible)]
  · simpa [hc] using Laid.cons (g := []) t (by simp [Blank]) has

def Reads : Part → List Token → Prop
  | .value, ts => ∃ v, ∀ cs rest fuel, Laid Blank ts cs → Ends rest → ts.length ≤ fuel →
      value fuel (cs ++ rest) = some (v, rest)
  | .items, ts => ∃ vs, ∀ cs g rest fuel, Laid Blank ts cs → Blank g → ts.length < fuel →
      items fuel (cs ++ (g ++ ']' :: rest)) = some (vs, rest)
  | .members, ts => ∃ ms, ∀ cs g rest fuel, Laid Blank ts cs → Blank g → ts.length < fuel →
      members fuel (cs ++ (g ++ '\x7d' :: rest)) = some (ms, rest)

theorem reads_word (w : Word) : Reads .value [.word w] := by
  obtain ⟨v, read⟩ := w.value_chars
  refine ⟨v, fun cs rest fuel hcs _ hfuel => ?_⟩
  obtain ⟨g, as, rfl, hg, has⟩ := hcs.of_cons
  obtain rfl := has.of_nil
  obtain ⟨fuel, rfl⟩ := Nat.exists_eq_add_of_lt hfuel
  simpa using read g rest _ hg

theorem reads_number (n : Numeral) : Reads .value [.number n] := by
  obtain ⟨v, read⟩ := n.value_chars
  refine ⟨v, fun cs rest fuel hcs h hfuel => ?_⟩
  obtain ⟨g, as, rfl, hg, has⟩ := hcs.of_cons
  obtain rfl := has.of_nil
  obtain ⟨fuel, rfl⟩ := Nat.exists_eq_add_of_lt hfuel
  simpa using read g rest _ hg h

theorem skipGaps_text {g : List Char} (gs : List Glyph) (cs : List Char) (hg : Blank g) :
    skipGaps (g ++ ((Token.text gs).chars ++ cs)) =
      '"' :: (gs.flatMap Glyph.chars ++ '"' :: cs) := by
  rw [skipGaps_token (.text gs) cs hg]
  simp [Token.chars]

theorem reads_text (gs : List Glyph) : Reads .value [.text gs] := by
  obtain ⟨v, read⟩ := text_glyphs gs
  refine ⟨.string v, fun cs rest fuel hcs _ hfuel => ?_⟩
  obtain ⟨g, as, rfl, hg, has⟩ := hcs.of_cons
  obtain rfl := has.of_nil
  obtain ⟨fuel, rfl⟩ := Nat.exists_eq_add_of_lt hfuel
  rw [List.append_nil, List.append_assoc, value, skipGaps_text gs rest hg]
  simp [read rest]

/-- An opening token, a part and a closing token: where the part and what follows it stand. -/
theorem Laid.skipGaps_enclosed {m n : Mark} (ts : List Token) {cs : List Char}
    (h : Laid Blank (.mark m :: (ts ++ [.mark n])) cs) :
    ∃ as g, Laid Blank ts as ∧ Blank g ∧
      ∀ rest, skipGaps (cs ++ rest) = m.char :: (as ++ (g ++ n.char :: rest)) := by
  obtain ⟨g, bs, rfl, hg, hbs⟩ := h.of_cons
  obtain ⟨as, g', ds, rfl, has, hg', hds⟩ := hbs.of_mark
  obtain rfl := hds.of_nil
  refine ⟨as, g', has, hg', fun rest => ?_⟩
  simpa [Token.chars] using skipGaps_mark m (as ++ (g' ++ n.char :: rest)) hg

theorem reads_emptyArray : Reads .value [.mark .openArray, .mark .closeArray] := by
  refine ⟨.array [], fun cs rest fuel hcs _ hfuel => ?_⟩
  obtain ⟨as, g, has, hg, opened⟩ := Laid.skipGaps_enclosed [] hcs
  obtain rfl := has.of_nil
  obtain ⟨fuel, rfl⟩ := Nat.exists_eq_add_of_lt hfuel
  have closed : skipGaps (g ++ ']' :: rest) = ']' :: rest := skipGaps_mark .closeArray _ hg
  rw [value, opened]
  simp [Mark.char, closed]

theorem reads_emptyObject : Reads .value [.mark .openObject, .mark .closeObject] := by
  refine ⟨.object [], fun cs rest fuel hcs _ hfuel => ?_⟩
  obtain ⟨as, g, has, hg, opened⟩ := Laid.skipGaps_enclosed [] hcs
  obtain rfl := has.of_nil
  obtain ⟨fuel, rfl⟩ := Nat.exists_eq_add_of_lt hfuel
  have closed : skipGaps (g ++ '\x7d' :: rest) = '\x7d' :: rest := skipGaps_mark .closeObject _ hg
  rw [value, opened]
  simp [Mark.char, closed]

theorem reads_array {ts : List Token} (derived : Derives .items ts) (h : Reads .items ts) :
    Reads .value (.mark .openArray :: (ts ++ [.mark .closeArray])) := by
  obtain ⟨vs, read⟩ := h
  refine ⟨.array vs, fun cs rest fuel hcs _ hfuel => ?_⟩
  simp only [List.length_cons, List.length_append, List.length_nil] at hfuel
  obtain ⟨fuel, rfl⟩ : ∃ n, fuel = n + 1 := ⟨fuel - 1, by omega⟩
  obtain ⟨as, g, has, hg, opened⟩ := hcs.skipGaps_enclosed _
  -- the gap before the first item is skipped before the items are read
  obtain ⟨c, bs, skipped, _, hc, hbs⟩ := derived.skipGaps_laid has (g ++ ']' :: rest)
  have inner := read (c :: bs) g rest fuel hbs hg (by omega)
  rw [value, opened]
  simp only [Mark.char, skipped]
  rw [List.cons_append] at inner
  simp [hc, inner]

theorem reads_object {ts : List Token} (derived : Derives .members ts) (h : Reads .members ts) :
    Reads .value (.mark .openObject :: (ts ++ [.mark .closeObject])) := by
  obtain ⟨ms, read⟩ := h
  refine ⟨.object ms, fun cs rest fuel hcs _ hfuel => ?_⟩
  simp only [List.length_cons, List.length_append, List.length_nil] at hfuel
  obtain ⟨fuel, rfl⟩ : ∃ n, fuel = n + 1 := ⟨fuel - 1, by omega⟩
  obtain ⟨as, g, has, hg, opened⟩ := hcs.skipGaps_enclosed _
  obtain ⟨c, bs, skipped, hc, _, hbs⟩ := derived.skipGaps_laid has (g ++ '\x7d' :: rest)
  have inner := read (c :: bs) g rest fuel hbs hg (by omega)
  rw [value, opened]
  simp only [Mark.char, skipped]
  rw [List.cons_append] at inner
  simp [hc, inner]

theorem ends_mark {g : List Char} (hg : Blank g) {m : Mark} (cs : List Char)
    (hm : m = .comma ∨ m = .closeObject ∨ m = .closeArray) : Ends (g ++ m.char :: cs) := by
  refine Ends.append hg fun c hc => ?_
  obtain rfl : m.char = c := by simpa using hc
  rcases hm with rfl | rfl | rfl <;> simp [Mark.char]

theorem reads_lastItem {ts : List Token} (h : Reads .value ts) : Reads .items ts := by
  obtain ⟨v, read⟩ := h
  refine ⟨[v], fun cs g rest fuel hcs hg hfuel => ?_⟩
  obtain ⟨fuel, rfl⟩ : ∃ n, fuel = n + 1 := ⟨fuel - 1, by omega⟩
  have first := read cs (g ++ ']' :: rest) fuel hcs (ends_mark hg (m := .closeArray) rest (by simp))
    (by omega)
  have closed : skipGaps (g ++ ']' :: rest) = ']' :: rest := skipGaps_mark .closeArray _ hg
  simp [items, first, closed]

theorem reads_item {ts us : List Token} (h : Reads .value ts) (hs : Reads .items us) :
    Reads .items (ts ++ .mark .comma :: us) := by
  obtain ⟨v, read⟩ := h
  obtain ⟨vs, readRest⟩ := hs
  refine ⟨v :: vs, fun cs g rest fuel hcs hg hfuel => ?_⟩
  simp only [List.length_cons, List.length_append] at hfuel
  obtain ⟨fuel, rfl⟩ : ∃ n, fuel = n + 1 := ⟨fuel - 1, by omega⟩
  obtain ⟨as, g', bs, rfl, has, hg', hbs⟩ := hcs.of_mark
  have first := read as (g' ++ ',' :: (bs ++ (g ++ ']' :: rest))) fuel has
    (ends_mark hg' (m := .comma) _ (by simp)) (by omega)
  have next : skipGaps (g' ++ ',' :: (bs ++ (g ++ ']' :: rest))) =
      ',' :: (bs ++ (g ++ ']' :: rest)) := skipGaps_mark .comma _ hg'
  have others := readRest bs g rest fuel hbs hg (by omega)
  simp only [Mark.char, List.append_assoc, List.cons_append]
  simp [items, first, next, others]

/-- The key of a member, and where the rest of the members stands. -/
theorem Laid.skipGaps_member {gs : List Glyph} {ts : List Token} {cs : List Char}
    (h : Laid Blank (.text gs :: .mark .colon :: ts) cs) :
    ∃ g as, Blank g ∧ Laid Blank ts as ∧ ∀ rest, skipGaps (cs ++ rest) =
      '"' :: (gs.flatMap Glyph.chars ++ '"' :: (g ++ ':' :: (as ++ rest))) := by
  obtain ⟨g, bs, rfl, hg, hbs⟩ := h.of_cons
  obtain ⟨g', as, rfl, hg', has⟩ := hbs.of_cons
  refine ⟨g', as, hg', has, fun rest => ?_⟩
  simpa [Token.chars, Mark.char] using skipGaps_text gs (g' ++ ':' :: (as ++ rest)) hg

theorem reads_lastMember (gs : List Glyph) {ts : List Token} (h : Reads .value ts) :
    Reads .members (.text gs :: .mark .colon :: ts) := by
  obtain ⟨key, readKey⟩ := text_glyphs gs
  obtain ⟨v, read⟩ := h
  refine ⟨[(key, v)], fun cs g rest fuel hcs hg hfuel => ?_⟩
  simp only [List.length_cons] at hfuel
  obtain ⟨fuel, rfl⟩ : ∃ n, fuel = n + 1 := ⟨fuel - 1, by omega⟩
  obtain ⟨g', as, hg', has, opened⟩ := hcs.skipGaps_member
  have colon : skipGaps (g' ++ ':' :: (as ++ (g ++ '\x7d' :: rest))) =
      ':' :: (as ++ (g ++ '\x7d' :: rest)) := skipGaps_mark .colon _ hg'
  have first := read as (g ++ '\x7d' :: rest) fuel has
    (ends_mark hg (m := .closeObject) rest (by simp)) (by omega)
  have closed : skipGaps (g ++ '\x7d' :: rest) = '\x7d' :: rest := skipGaps_mark .closeObject _ hg
  rw [members, opened]
  simp [readKey, colon, first, closed]

theorem reads_member (gs : List Glyph) {ts us : List Token} (h : Reads .value ts)
    (hs : Reads .members us) :
    Reads .members (.text gs :: .mark .colon :: (ts ++ .mark .comma :: us)) := by
  obtain ⟨key, readKey⟩ := text_glyphs gs
  obtain ⟨v, read⟩ := h
  obtain ⟨ms, readRest⟩ := hs
  refine ⟨(key, v) :: ms, fun cs g rest fuel hcs hg hfuel => ?_⟩
  simp only [List.length_cons, List.length_append] at hfuel
  obtain ⟨fuel, rfl⟩ : ∃ n, fuel = n + 1 := ⟨fuel - 1, by omega⟩
  obtain ⟨g', as, hg', has, opened⟩ := hcs.skipGaps_member
  obtain ⟨bs, g'', ds, rfl, hbs, hg'', hds⟩ := has.of_mark
  have colon := skipGaps_mark .colon (bs ++ (g'' ++ ',' :: ds) ++ (g ++ '\x7d' :: rest)) hg'
  have first := read bs (g'' ++ ',' :: (ds ++ (g ++ '\x7d' :: rest))) fuel hbs
    (ends_mark hg'' (m := .comma) _ (by simp)) (by omega)
  have next : skipGaps (g'' ++ ',' :: (ds ++ (g ++ '\x7d' :: rest))) =
      ',' :: (ds ++ (g ++ '\x7d' :: rest)) := skipGaps_mark .comma _ hg''
  have others := readRest ds g rest fuel hds hg (by omega)
  rw [members, opened]
  simp only [Mark.char, List.append_assoc, List.cons_append] at colon ⊢
  simp [readKey, colon, first, next, others]

theorem Derives.reads {p : Part} {ts : List Token} (h : Derives p ts) : Reads p ts := by
  induction h with
  | word w => exact reads_word w
  | number n => exact reads_number n
  | text gs => exact reads_text gs
  | emptyArray => exact reads_emptyArray
  | array derived ih => exact reads_array derived ih
  | emptyObject => exact reads_emptyObject
  | object derived ih => exact reads_object derived ih
  | lastItem _ ih => exact reads_lastItem ih
  | item _ _ ih ihs => exact reads_item ih ihs
  | lastMember gs _ ih => exact reads_lastMember gs ih
  | member gs _ _ ih ihs => exact reads_member gs ih ihs

/-- The value that is read off a text depends on its tokens alone. -/
theorem Derives.parse?_spaced {ts : List Token} (h : Derives .value ts) :
    ∃ v, ∀ s, Spaced Blank Blank ts s → parse? s = some v := by
  obtain ⟨v, read⟩ := h.reads
  refine ⟨v, ?_⟩
  rintro s ⟨cs, g, hs, hcs, hg⟩
  have fuel : ts.length ≤ 2 * (cs ++ g).length + 2 := by
    have := hcs.length_le
    simp only [List.length_append]
    omega
  have whole := read cs g _ hcs (.blank hg) fuel
  simp only [parse?, hs, whole, Option.bind_eq_bind, Option.bind_some, skipGaps_blank hg, if_true]

end BarrelAlias.Config.Json
