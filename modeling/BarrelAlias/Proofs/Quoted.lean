import BarrelAlias.Quote
import BarrelAlias.Script.Split

/-!
Quoted texts read again. A quoted text is read piece by piece, and each piece is read alike wherever the
same character follows it; so a literal keeps its value wherever it stands. An escape is longer than
what it spells, so a text between quotes is its own value only if it needs no escape.
-/

namespace BarrelAlias.Script

/-- A character that stands for itself. -/
theorem quotedRest_cons {quote c : Char} (cs : List Char) (hc : c ≠ '\\') :
    quotedRest quote none (c :: cs) =
      if c = quote then some ⟨[], [c], cs⟩
      else if c = '\n' ∨ c = '\r' then none
      else do return (← quotedRest quote none cs).after [.char c] [c] := by
  rw [quotedRest]
  · simp only [hc, decide_false, Bool.or_false, Bool.or_eq_true, decide_eq_true_eq]
  all_goals intros; simp_all

theorem isHexDigit_of_hexNumber? {cs : List Char} {n : Nat} (h : Text.hexNumber? cs = some n) :
    ∀ c ∈ cs, Text.isHexDigit c := by
  unfold Text.hexNumber? at h
  generalize 0 = m at h
  induction cs generalizing m with
  | nil => simp
  | cons c cs ih =>
    rw [List.foldlM_cons] at h
    obtain ⟨k, hk, h⟩ := Option.bind_eq_some_iff.mp h
    obtain ⟨d, hd, _⟩ := Option.map_eq_some_iff.mp hk
    intro c' hc'
    rcases List.mem_cons.mp hc' with rfl | hc'
    · rw [Text.isHexDigit, hd, Option.isSome_some]
    · exact ih k h c' hc'

theorem not_isHexDigit_replacement : ¬ Text.isHexDigit replacement := by decide

theorem not_mem_of_hexNumber? {cs : List Char} {n : Nat} (h : Text.hexNumber? cs = some n) :
    replacement ∉ cs := fun hmem => not_isHexDigit_replacement (isHexDigit_of_hexNumber? h _ hmem)

theorem octalDigit?_replacement : octalDigit? replacement = none := by decide

theorem replacement_ne_backslash : replacement ≠ '\\' := by decide

theorem ne_replacement_of_octalDigit? {c : Char} {x : Nat} (h : octalDigit? c = some x) :
    replacement ≠ c := by
  rintro rfl
  rw [octalDigit?_replacement] at h
  cases h

theorem octalDigit?_of_isLineBreak {c : Char} (h : isLineBreak c) : octalDigit? c = none := by
  simp only [isLineBreak, Bool.or_eq_true, decide_eq_true_eq] at h
  refine if_neg fun ⟨_, hle⟩ => ?_
  have hle : c.toNat ≤ 55 := hle
  rcases h with ((rfl | rfl) | h) | h
  · exact absurd ‹ '0' ≤ '\n'› (by decide)
  · exact absurd ‹ '0' ≤ '\r'› (by decide)
  · omega
  · omega

/-- A piece of a quoted text and the units that it spells; `code` and `code'` hold the digits of a code
point before and after it. -/
structure Piece (quote : Char) (code code' : Option (List Char)) (piece rest : List Char)
    (us : List CodeUnit) : Prop where
  /-- It is read alike wherever the same character follows it. -/
  run : ∀ rest', rest'.head? = rest.head? → quotedRest quote code (piece ++ rest') =
    (do return (← quotedRest quote code' rest').after us piece)
  short : us.length ≤ piece.length
  /-- An escape is longer than what it spells. -/
  shorter : '\\' ∈ piece → us.length < piece.length
  marks : piece.count replacement ≤ us.count (.char replacement)

theorem count_le_of_not_mem {piece : List Char} (us : List CodeUnit) (h : replacement ∉ piece) :
    piece.count replacement ≤ us.count (.char replacement) := by
  rw [List.count_eq_zero_of_not_mem h]
  exact Nat.zero_le _

/-- What no longer escape begins with, and no line break. -/
theorem ne_of_escape {c : Char} (hc : ¬ (c = 'u' || c = 'x')) (hbreak : ¬ isLineBreak c) :
    c ≠ 'u' ∧ c ≠ 'x' ∧ c ≠ '\r' :=
  ⟨fun h => hc (by simp [h]), fun h => hc (by simp [h]), fun h => hbreak (by simp [h, isLineBreak])⟩

section Piece

variable {quote : Char} {code code' : Option (List Char)} {rest : List Char} {us : List CodeUnit}

/-- An escape spells one unit at most, in two characters or more. -/
theorem Piece.of_escape {c : Char} {cs : List Char} (hus : us.length ≤ 1)
    (hmarks : (c :: cs).count replacement ≤ us.count (.char replacement))
    (hrun : ∀ rest', rest'.head? = rest.head? → quotedRest quote code ('\\' :: c :: cs ++ rest') =
      (do return (← quotedRest quote code' rest').after us ('\\' :: c :: cs))) :
    Piece quote code code' ('\\' :: c :: cs) rest us where
  run := hrun
  short := by simp only [List.length_cons]; omega
  shorter _ := by simp only [List.length_cons]; omega
  marks := by rwa [List.count_cons_of_ne replacement_ne_backslash.symm]

theorem piece_openBrace : Piece quote none (some []) ['\\', 'u', '{'] rest [] :=
  .of_escape (by simp) (by decide) fun rest' _ => by simp [quotedRest]

theorem piece_digit {c : Char} (ds : List Char) (hbrace : c ≠ '}') (hc : Text.isHexDigit c) :
    Piece quote (some ds) (some (ds ++ [c])) [c] rest [] := by
  refine ⟨fun rest' _ => by simp [quotedRest, hc], by simp, ?_, count_le_of_not_mem _ ?_⟩
  · intro hmem
    rw [← List.mem_singleton.mp hmem] at hc
    exact absurd hc (by decide)
  · intro hmem
    rw [← List.mem_singleton.mp hmem] at hc
    exact not_isHexDigit_replacement hc

theorem piece_closeBrace {ds : List Char} {n : Nat} (hn : Text.hexNumber? ds = some n)
    (hds : ¬ (ds.isEmpty || n > 0x10FFFF)) :
    Piece quote (some ds) none ['}'] rest [.ofPoint n] := by
  refine ⟨fun rest' _ => ?_, by simp, by simp, count_le_of_not_mem _ (by decide)⟩
  rw [List.singleton_append, quotedRest, hn, Option.bind_eq_bind, Option.bind_some, if_neg hds]

theorem piece_four {a b c d : Char} {n : Nat} (hn : Text.hexNumber? [a, b, c, d] = some n)
    (hbrace : a ≠ '{') : Piece quote none none ['\\', 'u', a, b, c, d] rest [.ofFour n] := by
  refine .of_escape (by simp) (count_le_of_not_mem _ ?_) fun rest' _ => ?_
  · rw [List.mem_cons, not_or]
    exact ⟨by decide, not_mem_of_hexNumber? hn⟩
  · simp [quotedRest, hn]

theorem piece_two {a b : Char} {n : Nat} (hn : Text.hexNumber? [a, b] = some n) :
    Piece quote none none ['\\', 'x', a, b] rest [.char (Char.ofNat n)] := by
  refine .of_escape (by simp) (count_le_of_not_mem _ ?_) fun rest' _ => by simp [quotedRest, hn]
  rw [List.mem_cons, not_or]
  exact ⟨by decide, not_mem_of_hexNumber? hn⟩

theorem piece_lineBreak_two : Piece quote none none ['\\', '\r', '\n'] rest [] :=
  .of_escape (by simp) (by decide) fun rest' _ => by simp [quotedRest]

theorem piece_lineBreak {c : Char} (hc : ¬ (c = 'u' || c = 'x')) (hbreak : isLineBreak c)
    (hreturn : ∀ cs, c = '\r' → rest = '\n' :: cs → False) :
    Piece quote none none ['\\', c] rest [] := by
  refine .of_escape (by simp) (count_le_of_not_mem _ ?_) fun rest' hrest => ?_
  · intro hmem
    rw [← List.mem_singleton.mp hmem] at hbreak
    exact absurd hbreak (by decide)
  · have hdigit := octalDigit?_of_isLineBreak hbreak
    have hreturn' : ∀ cs, c = '\r' → rest' = '\n' :: cs → False := by
      rintro _ hc' rfl
      obtain ⟨more, rfl⟩ := List.head?_eq_some_iff.mp hrest.symm
      exact hreturn more hc' rfl
    have hcu : c ≠ 'u' := fun h => hc (by simp [h])
    have hcx : c ≠ 'x' := fun h => hc (by simp [h])
    simp [quotedRest, hdigit, hcu, hcx, hbreak]

section Short

variable {c d e : Char} {x y z : Nat} (hc : ¬ (c = 'u' || c = 'x')) (hbreak : ¬ isLineBreak c)
include hc hbreak

theorem piece_octal_three (hx : octalDigit? c = some x) (hy : octalDigit? d = some y)
    (hz : octalDigit? e = some z) (hlt : x < 4) :
    Piece quote none none ['\\', c, d, e] rest [octalUnit [x, y, z]] := by
  obtain ⟨hcu, hcx, hcr⟩ := ne_of_escape hc hbreak
  refine .of_escape (by simp) (count_le_of_not_mem _ ?_) fun rest' _ => ?_
  · simp [ne_replacement_of_octalDigit? hx, ne_replacement_of_octalDigit? hy,
      ne_replacement_of_octalDigit? hz]
  · simp [quotedRest, hx, hy, hz, hcu, hcx, hcr, hbreak, hlt]

/-- Two digits, since a third would be too many or the next character is none. -/
theorem piece_octal_two (hx : octalDigit? c = some x) (hy : octalDigit? d = some y)
    (he : (octalDigit? e).isSome → ¬ x < 4) :
    Piece quote none none ['\\', c, d] (e :: rest) [octalUnit [x, y]] := by
  obtain ⟨hcu, hcx, hcr⟩ := ne_of_escape hc hbreak
  refine .of_escape (by simp) (count_le_of_not_mem _ ?_) fun rest' hrest => ?_
  · simp [ne_replacement_of_octalDigit? hx, ne_replacement_of_octalDigit? hy]
  · obtain ⟨more, rfl⟩ := List.head?_eq_some_iff.mp hrest
    cases hz : octalDigit? e with
    | none => simp [quotedRest, hx, hy, hz, hcu, hcx, hcr, hbreak]
    | some z => simp [quotedRest, hx, hy, hz, hcu, hcx, hcr, hbreak, he (by simp [hz])]

theorem piece_octal_one (hx : octalDigit? c = some x) (hd : octalDigit? d = none) :
    Piece quote none none ['\\', c] (d :: rest) [octalUnit [x]] := by
  obtain ⟨hcu, hcx, hcr⟩ := ne_of_escape hc hbreak
  refine .of_escape (by simp) (count_le_of_not_mem _ ?_) fun rest' hrest => ?_
  · simp [ne_replacement_of_octalDigit? hx]
  · obtain ⟨more, rfl⟩ := List.head?_eq_some_iff.mp hrest
    cases more with
    | nil => simp [quotedRest, hx, hcu, hcx, hcr, hbreak]
    | cons e more => simp [quotedRest, hx, hd, hcu, hcx, hcr, hbreak]

theorem piece_simple (hx : octalDigit? c = none) :
    Piece quote none none ['\\', c] rest [simpleEscape c] := by
  obtain ⟨hcu, hcx, hcr⟩ := ne_of_escape hc hbreak
  refine .of_escape (by simp) ?_ fun rest' _ => by simp [quotedRest, hx, hcu, hcx, hcr, hbreak]
  by_cases hmem : replacement = c
  · subst hmem
    decide
  · exact count_le_of_not_mem _ (by simp [hmem])

end Short

theorem piece_char {c : Char} (hquote : c ≠ quote) (hc : c ≠ '\\') (hbreak : ¬ (c = '\n' ∨ c = '\r')) :
    Piece quote none none [c] rest [.char c] := by
  refine ⟨fun rest' _ => ?_, by simp, by simp [hc.symm], ?_⟩
  · rw [List.singleton_append, quotedRest_cons rest' hc, if_neg hquote, if_neg hbreak]
  · by_cases hmem : c = replacement
    · simp [hmem]
    · exact count_le_of_not_mem _ (by simpa using Ne.symm hmem)

/-- A quoted text of one character at most is the quote that ends it. -/
theorem eq_quote_of_short {cs : List Char} {q : QuotedRest}
    (hshort : ∀ d e cs', cs = d :: e :: cs' → False) (h : quotedRest quote none cs = some q) :
    cs = [quote] := by
  rcases cs with _ | ⟨d, _ | ⟨e, cs⟩⟩
  · simp [quotedRest] at h
  · by_cases hd : d = quote
    · rw [hd]
    · by_cases hslash : d = '\\'
      · simp_all [quotedRest]
      · rw [quotedRest_cons [] hslash, if_neg hd] at h
        simp [quotedRest] at h
  · exact (hshort d e cs rfl).elim

theorem octalDigit?_quote (hquote : quote = '"' ∨ quote = '\x27') : octalDigit? quote = none := by
  rcases hquote with rfl | rfl <;> decide

end Piece

/-- A quoted text is read piece by piece. -/
theorem quotedRest_induction {quote : Char} (hquote : quote = '"' ∨ quote = '\x27')
    {motive : Option (List Char) → List Char → QuotedRest → Prop}
    (last : ∀ rest, motive none (quote :: rest) ⟨[], [quote], rest⟩)
    (step : ∀ {code code' piece rest us r}, Piece quote code code' piece rest us →
      quotedRest quote code' rest = some r → motive code' rest r →
      motive code (piece ++ rest) (r.after us piece))
    {code : Option (List Char)} {cs : List Char} {q : QuotedRest}
    (h : quotedRest quote code cs = some q) : motive code cs q := by
  have go {code code' : Option (List Char)} (piece : List Char) {rest : List Char}
      {us : List CodeUnit} {q : QuotedRest}
      (h : (do return (← quotedRest quote code' rest).after us piece) = some q)
      (ih : ∀ {r}, quotedRest quote code' rest = some r → motive code' rest r)
      (hpiece : ∀ r, quotedRest quote code' rest = some r → Piece quote code code' piece rest us) :
      motive code (piece ++ rest) q := by
    obtain ⟨r, hr, hq⟩ := Option.bind_eq_some_iff.mp h
    cases hq
    exact step (hpiece r hr) hr (ih hr)
  -- one case for each branch of the reader: those that fail, and one piece for each of the others
  fun_induction quotedRest quote code cs generalizing q with
  | case1 | case4 | case9 | case18 => simp at h
  | case2 ds cs ih =>
    obtain ⟨n, hn, h⟩ := Option.bind_eq_some_iff.mp h
    split at h
    · simp at h
    · next hds => exact go _ h ih fun _ _ => piece_closeBrace hn hds
  | case3 ds c cs hbrace hc ih => exact go _ h ih fun _ _ => piece_digit ds hbrace hc
  | case5 cs ih => exact go _ h ih fun _ _ => piece_openBrace
  | case6 a b c d cs hbrace ih =>
    obtain ⟨n, hn, h⟩ := Option.bind_eq_some_iff.mp h
    exact go _ h ih fun _ _ => piece_four hn hbrace
  | case7 a b cs ih =>
    obtain ⟨n, hn, h⟩ := Option.bind_eq_some_iff.mp h
    exact go _ h ih fun _ _ => piece_two hn
  | case8 cs ih => exact go _ h ih fun _ _ => piece_lineBreak_two
  | case10 c cs _ _ _ hreturn hc hbreak ih =>
    exact go _ h ih fun _ _ => piece_lineBreak hc hbreak hreturn
  | case11 c hc hbreak x d e cs hx y z hz hy hlt _ _ _ _ ih =>
    exact go _ h ih fun _ _ => piece_octal_three hc hbreak hx hy hz hlt
  | case12 c hc hbreak x d e cs hx y z hz hy hlt _ _ _ _ ih =>
    exact go _ h ih fun _ _ => piece_octal_two hc hbreak hx hy fun _ => hlt
  | case13 c hc hbreak x d e cs hx y hz hy _ _ _ _ ih =>
    exact go _ h ih fun _ _ => piece_octal_two hc hbreak hx hy (by simp [hz])
  | case14 c hc hbreak x d e cs hx hy _ _ _ _ ih =>
    exact go _ h ih fun _ _ => piece_octal_one hc hbreak hx hy
  | case15 c hc hbreak x cs hshort hx _ _ _ _ ih =>
    refine go _ h ih fun r hr => ?_
    -- the quoted text ends here, so the quote follows, which is no digit
    rw [eq_quote_of_short hshort hr]
    exact piece_octal_one hc hbreak hx (octalDigit?_quote hquote)
  | case16 c hc hbreak cs hx _ _ _ _ ih => exact go _ h ih fun _ _ => piece_simple hc hbreak hx
  | case17 rest => cases h; exact last rest
  | case19 c cs _ _ _ _ _ hne hc ih =>
    simp only [Bool.or_eq_true, decide_eq_true_eq, not_or] at hc
    exact go _ h ih fun _ _ => piece_char hne hc.2 (not_or.mpr hc.1)

section Quote

variable {quote : Char} {code : Option (List Char)} {cs : List Char} {q : QuotedRest}

theorem quote_ne_backslash (hquote : quote = '"' ∨ quote = '\x27') : quote ≠ '\\' := by
  rcases hquote with rfl | rfl <;> decide

/-- The rest of a quoted text is read alike whatever follows it. -/
theorem quotedRest_moved (hquote : quote = '"' ∨ quote = '\x27')
    (h : quotedRest quote code cs = some q) :
    q.taken ≠ [] ∧ ∀ rest, quotedRest quote code (q.taken ++ rest) = some { q with rest := rest } := by
  refine quotedRest_induction hquote (motive := fun code _ q => q.taken ≠ [] ∧
    ∀ rest, quotedRest quote code (q.taken ++ rest) = some { q with rest := rest }) ?_ ?_ h
  · intro rest
    refine ⟨by simp, fun rest' => ?_⟩
    rw [List.singleton_append, quotedRest_cons rest' (quote_ne_backslash hquote), if_pos rfl]
  · intro code code' piece rest us r hpiece hr ⟨hne, ih⟩
    refine ⟨by simp [QuotedRest.after, hne], fun rest' => ?_⟩
    obtain ⟨c, more, hmore⟩ := List.exists_cons_of_ne_nil hne
    have hhead : (r.taken ++ rest').head? = rest.head? := by
      rw [← quotedRest_split hr, hmore]
      rfl
    rw [QuotedRest.after, List.append_assoc, hpiece.run _ hhead, ih rest']
    rfl

theorem quotedRest_lengths (hquote : quote = '"' ∨ quote = '\x27')
    (h : quotedRest quote code cs = some q) :
    q.units.length < q.taken.length ∧
      ('\\' ∈ q.taken → q.units.length + 1 < q.taken.length) ∧
      q.taken.count replacement ≤ q.units.count (.char replacement) := by
  refine quotedRest_induction hquote (motive := fun _ _ q => q.units.length < q.taken.length ∧
    ('\\' ∈ q.taken → q.units.length + 1 < q.taken.length) ∧
    q.taken.count replacement ≤ q.units.count (.char replacement)) ?_ ?_ h
  · intro rest
    refine ⟨by simp, fun hmem => ?_, ?_⟩
    · exact absurd (List.mem_singleton.mp hmem).symm (quote_ne_backslash hquote)
    · change [quote].count replacement ≤ 0
      rcases hquote with rfl | rfl <;> decide
  · intro code code' piece rest us r hpiece _ ⟨hlt, hslash, hmarks⟩
    have hshort := hpiece.short
    simp only [QuotedRest.after, List.length_append, List.count_append]
    refine ⟨by omega, fun hmem => ?_, Nat.add_le_add hpiece.marks hmarks⟩
    rcases List.mem_append.mp hmem with hmem | hmem
    · have := hpiece.shorter hmem
      omega
    · have := hslash hmem
      omega

end Quote

theorem length_joinHalves_le (us : List CodeUnit) : (joinHalves us).length ≤ us.length := by
  fun_induction joinHalves us with
  | case1 h l us ih => simp only [List.length_cons]; omega
  | case2 u us _ ih => simp only [List.length_cons]; omega
  | case3 => simp

theorem count_le_joinHalves (us : List CodeUnit) :
    us.count (.char replacement) ≤ (joinHalves us).count (.char replacement) := by
  fun_induction joinHalves us with
  | case1 h l us ih => simp [List.count_cons]; omega
  | case2 u us _ ih => simp [List.count_cons]; omega
  | case3 => simp

theorem length_chars_of_isChar {us : List CodeUnit} (h : ∀ u ∈ us, u.isChar) :
    (us.flatMap (CodeUnit.chars false)).length = us.length := by
  induction us with
  | nil => rfl
  | cons u us ih =>
    have hu := h u List.mem_cons_self
    cases u with
    | char c => simp [CodeUnit.chars, ih fun u hu => h u (List.mem_cons_of_mem _ hu)]
    | high n | low n | alone n => simp [CodeUnit.isChar] at hu

theorem mem_halfText (n : Nat) : replacement ∈ halfText n := List.mem_cons_self

/-- Where halves are written out, each of them is one more mark. -/
theorem count_chars (u : CodeUnit) :
    [u].count (.char replacement) + (if u.isChar then 0 else 1) ≤
      (u.chars true).count replacement := by
  cases u with
  | char c =>
    by_cases hc : c = replacement
    · simp [CodeUnit.chars, CodeUnit.isChar, hc, mem_halfText]
    · simp [CodeUnit.chars, CodeUnit.isChar, hc]
  | high n | low n | alone n => simp [CodeUnit.chars, CodeUnit.isChar, mem_halfText]

theorem count_chars_of_half {us : List CodeUnit} (h : ∃ u ∈ us, ¬ u.isChar) :
    us.count (.char replacement) < (us.flatMap (CodeUnit.chars true)).count replacement := by
  have hle (us : List CodeUnit) : us.count (.char replacement) ≤
      (us.flatMap (CodeUnit.chars true)).count replacement := by
    induction us with
    | nil => simp
    | cons u us ih =>
      have hu := count_chars u
      rw [List.flatMap_cons, List.count_append, ← List.singleton_append, List.count_append]
      omega
  obtain ⟨u, hu, hhalf⟩ := h
  obtain ⟨before, after, rfl⟩ := List.append_of_mem hu
  have hbefore := hle before
  have hafter := hle after
  have hu := count_chars u
  rw [if_neg hhalf] at hu
  rw [← List.singleton_append]
  simp only [List.flatMap_append, List.flatMap_cons, List.flatMap_nil, List.append_nil,
    List.count_append]
  omega

/-- A text that is its own value between quotes holds no backslash. -/
theorem backslash_not_mem {quote : Char} (hquote : quote = '"' ∨ quote = '\x27') {cs text : List Char}
    {q : QuotedRest} (h : quotedRest quote none cs = some q) (htaken : q.taken = text ++ [quote])
    (hvalue : (unitsText q.units).toList = text) : '\\' ∉ text := by
  intro hslash
  obtain ⟨_, hlonger, hmarks⟩ := quotedRest_lengths hquote h
  have hlonger := hlonger (by simp [htaken, hslash])
  have hjoined := length_joinHalves_le q.units
  have hcount := count_le_joinHalves q.units
  rw [unitsText, String.toList_ofList] at hvalue
  rw [htaken, List.length_append, List.length_singleton] at hlonger
  rw [htaken, List.count_append] at hmarks
  by_cases hhalf : (joinHalves q.units).any fun u => !u.isChar
  · -- a half in the value has a mark that the text does not have
    rw [hhalf] at hvalue
    have hhalves : ∃ u ∈ joinHalves q.units, ¬ u.isChar := by simpa using hhalf
    have hmore := count_chars_of_half hhalves
    rw [hvalue] at hmore
    omega
  · -- without halves each unit is one character, and an escape has more
    have hchars : ∀ u ∈ joinHalves q.units, u.isChar := by simpa using hhalf
    rw [eq_false_of_ne_true hhalf] at hvalue
    have hlength := length_chars_of_isChar hchars
    rw [hvalue] at hlength
    omega

/-- Where a quote stands, a quoted text is read. -/
theorem scanToken_mark {quote : Char} (hquote : quote = '"' ∨ quote = '\x27') (cs : List Char) :
    scanToken (quote :: cs) = (do
      let q ← quotedRest quote none cs
      return ⟨.quoted (unitsText q.units) (unitsAreWhole q.units), quote :: q.taken, q.rest⟩) := by
  rcases hquote with rfl | rfl <;> rfl

/-- A quoted text is read only where a quote stands. -/
theorem scanToken_quoted {cs taken rest : List Char} {v : String} {w : Bool}
    (h : scanToken cs = some ⟨.quoted v w, taken, rest⟩) :
    ∃ quote more, (quote = '"' ∨ quote = '\x27') ∧ cs = quote :: more := by
  have hnumber {cs : List Char} (h : scanNumber cs = some ⟨.quoted v w, taken, rest⟩) : False := by
    unfold scanNumber at h
    grind [Option.bind_eq_some_iff]
  have hsymbol {cs : List Char} (h : scanSymbol cs = some ⟨.quoted v w, taken, rest⟩) : False := by
    unfold scanSymbol at h
    split at h
    · split at h <;> cases h
    · obtain ⟨⟨as, text⟩, _, has⟩ := List.exists_of_findSome?_eq_some h
      obtain ⟨rest, _, hscan⟩ := Option.map_eq_some_iff.mp has
      cases hscan
  unfold scanToken at h
  grind [Option.bind_eq_some_iff]

/-- A quoted text is read alike whatever follows it. -/
theorem scanToken_moved {lit rest : List Char} {v : String} {w : Bool}
    (h : scanToken (lit ++ rest) = some ⟨.quoted v w, lit, rest⟩) (rest' : List Char) :
    scanToken (lit ++ rest') = some ⟨.quoted v w, lit, rest'⟩ := by
  obtain ⟨quote, more, hquote, hmore⟩ := scanToken_quoted h
  rw [hmore, scanToken_mark hquote] at h
  obtain ⟨q, hq, h⟩ := Option.bind_eq_some_iff.mp h
  cases h
  rw [List.cons_append, scanToken_mark hquote, (quotedRest_moved hquote hq).2 rest']
  rfl

end BarrelAlias.Script

namespace BarrelAlias.QuoteStyle

open Script (CodeUnit QuotedRest joinHalves quotedRest quotedRest_cons scanToken scanToken_mark
  unitsText)

/-- The text stands between the quotes as it is: neither the quote, nor a backslash, nor a line break is
in it. -/
def Holds (q : QuoteStyle) (text : String) : Prop :=
  ∀ c ∈ text.toList, c ≠ q.mark ∧ c ≠ '\\' ∧ c ≠ '\n' ∧ c ≠ '\r'

instance (q : QuoteStyle) (text : String) : Decidable (q.Holds text) :=
  List.decidableBAll (fun c => c ≠ q.mark ∧ c ≠ '\\' ∧ c ≠ '\n' ∧ c ≠ '\r') text.toList

theorem mark_cases (q : QuoteStyle) : q.mark = '"' ∨ q.mark = '\x27' := by
  cases q
  · exact .inr rfl
  · exact .inl rfl

theorem toList_quote (q : QuoteStyle) (text : String) :
    (q.quote text).toList = q.mark :: (text.toList ++ [q.mark]) := by
  simp [quote]

theorem joinHalves_chars (cs : List Char) : joinHalves (cs.map .char) = cs.map .char := by
  induction cs with
  | nil => rfl
  | cons c cs ih => rw [List.map_cons, joinHalves, ih]; simp

theorem unitsText_chars (cs : List Char) : unitsText (cs.map .char) = String.ofList cs := by
  have hwhole : (cs.map CodeUnit.char).any (fun u => !u.isChar) = false := by
    simp [CodeUnit.isChar]
  rw [unitsText, joinHalves_chars, hwhole]
  simp [List.flatMap_map, CodeUnit.chars]

/-- Characters that stand for themselves are read one by one. -/
theorem quotedRest_of_holds {quote : Char} {cs : List Char}
    (h : ∀ c ∈ cs, c ≠ quote ∧ c ≠ '\\' ∧ c ≠ '\n' ∧ c ≠ '\r') (hquote : quote ≠ '\\')
    (rest : List Char) :
    quotedRest quote none (cs ++ quote :: rest) = some ⟨cs.map .char, cs ++ [quote], rest⟩ := by
  induction cs with
  | nil => rw [List.nil_append, quotedRest_cons rest hquote, if_pos rfl]; rfl
  | cons c cs ih =>
    obtain ⟨hmark, hslash, hline⟩ := h c List.mem_cons_self
    rw [List.cons_append, quotedRest_cons _ hslash, if_neg hmark, if_neg (not_or.mpr hline),
      ih fun c hc => h c (List.mem_cons_of_mem _ hc)]
    rfl

/-- Without a backslash, what is taken up to the last quote holds no other quote and no line break. -/
theorem holds_of_quotedRest {quote : Char} {cs rest : List Char} {q : QuotedRest}
    (h : quotedRest quote none (cs ++ quote :: rest) = some q) (htaken : q.taken = cs ++ [quote])
    (hslash : '\\' ∉ cs) : ∀ c ∈ cs, c ≠ quote ∧ c ≠ '\\' ∧ c ≠ '\n' ∧ c ≠ '\r' := by
  induction cs generalizing q with
  | nil => simp
  | cons c cs ih =>
    have hc : c ≠ '\\' := fun hc => hslash (hc ▸ List.mem_cons_self)
    rw [List.cons_append, quotedRest_cons _ hc] at h
    split at h
    · cases h
      simp at htaken
    · next hmark =>
      split at h
      · simp at h
      · next hline =>
        obtain ⟨r, hr, h⟩ := Option.bind_eq_some_iff.mp h
        cases h
        have hrest := ih hr (List.cons.inj htaken).2 fun hmem => hslash (List.mem_cons_of_mem _ hmem)
        intro c' hc'
        rcases List.mem_cons.mp hc' with rfl | hc'
        · exact ⟨hmark, hc, not_or.mp hline⟩
        · exact hrest c' hc'

/-- A text between quotes is its own value if and only if they hold it as it is. -/
theorem scanToken_quote_iff (q : QuoteStyle) (text : String) (rest : List Char) :
    (∃ w, scanToken ((q.quote text).toList ++ rest) =
      some ⟨.quoted text w, (q.quote text).toList, rest⟩) ↔ q.Holds text := by
  have happend : text.toList ++ [q.mark] ++ rest = text.toList ++ q.mark :: rest := by simp
  rw [toList_quote, List.cons_append, scanToken_mark q.mark_cases, happend]
  constructor
  · rintro ⟨w, h⟩
    obtain ⟨r, hr, h⟩ := Option.bind_eq_some_iff.mp h
    simp only [Option.pure_def, Option.some.injEq, Script.Scan.mk.injEq,
      Script.Token.quoted.injEq, List.cons.injEq, true_and] at h
    obtain ⟨⟨hvalue, _⟩, htaken, _⟩ := h
    have hslash := Script.backslash_not_mem q.mark_cases hr htaken (by rw [hvalue])
    exact holds_of_quotedRest hr htaken hslash
  · intro h
    rw [quotedRest_of_holds h (Script.quote_ne_backslash q.mark_cases)]
    refine ⟨Script.unitsAreWhole (text.toList.map .char), ?_⟩
    simp [unitsText_chars]

end BarrelAlias.QuoteStyle
