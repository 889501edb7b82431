import BarrelAlias.Script.Lexer

/-!
Scanners split their text: the characters they take stand at its start, and what they leave is the
rest of it.
-/

namespace BarrelAlias.Script

open Text (byteLength GoesOn takeWhile_append_drop)

theorem isPrefixOf?_split {as cs rest : List Char} (h : as.isPrefixOf? cs = some rest) :
    as ++ rest = cs := by
  induction as generalizing cs with
  | nil => exact (Option.some.inj h).symm
  | cons a as ih =>
    cases cs with
    | nil => cases h
    | cons c cs =>
      change (if a == c then as.isPrefixOf? cs else none) = some rest at h
      split at h
      · next hac => rw [List.cons_append, ih h, eq_of_beq hac]
      · cases h

/-- A gap is the start of the text. -/
theorem skipGap_goesOn {marks newline : Bool} {zone : GapZone} {n : Nat} {cs : List Char} {gap : Gap}
    (h : skipGap marks zone newline n cs = some gap) : GoesOn n cs gap.bytes gap.rest := by
  fun_induction skipGap marks zone newline n cs with
  | case1 => simp at h
  | case2 | case3 => cases h; exact .refl _ _
  | case4 star newline n c cs hc ih =>
    have hslash : c = '/' := by simp_all
    subst hslash
    exact (GoesOn.cons n '/' cs).trans (ih h)
  | case5 star newline n c cs _ ih => exact (GoesOn.cons n c cs).trans (ih h)
  | case6 newline n c cs _ ih => exact (GoesOn.cons n c cs).trans (ih h)
  | case7 newline n c cs _ ih => exact (GoesOn.cons n c cs).trans (ih h)
  | case8 newline n cs ih => exact (GoesOn.of_append n ['/', '/'] cs).trans (ih h)
  | case9 newline n cs ih => exact (GoesOn.of_append n ['/', '*'] cs).trans (ih h)
  | case10 newline n cs _ ih => exact (GoesOn.of_append n ['<', '!', '-', '-'] cs).trans (ih h)
  | case11 => cases h; exact .refl _ _
  | case12 newline n cs _ ih => exact (GoesOn.of_append n ['-', '-', '>'] cs).trans (ih h)
  | case13 => cases h; exact .refl _ _
  | case14 newline n c cs _ _ _ _ _ ih => exact (GoesOn.cons n c cs).trans (ih h)
  | case15 newline n c cs _ _ _ _ _ _ ih => exact (GoesOn.cons n c cs).trans (ih h)
  | case16 => cases h; exact .refl _ _

theorem scanSymbol_split {cs : List Char} {s : Scan} (h : scanSymbol cs = some s) :
    s.taken ++ s.rest = cs := by
  unfold scanSymbol at h
  split at h
  · split at h <;> cases h <;> rfl
  · obtain ⟨⟨as, text⟩, _, has⟩ := List.exists_of_findSome?_eq_some h
    obtain ⟨rest, hrest, rfl⟩ := Option.map_eq_some_iff.mp has
    exact isPrefixOf?_split hrest

theorem wordEscape_split {cs taken rest : List Char} {n : Nat}
    (h : wordEscape cs = some (n, taken, rest)) : taken ++ rest = cs := by
  unfold wordEscape at h
  split at h
  · next cs =>
    have hcs := List.takeWhile_append_dropWhile (p := Text.isHexDigit) (l := cs)
    obtain ⟨n, _, h⟩ := Option.bind_eq_some_iff.mp h
    split at h
    · next tail htail =>
      split at h
      · simp at h
      · cases h
        rw [htail] at hcs
        simpa using hcs
    · simp at h
  · obtain ⟨n, _, h⟩ := Option.bind_eq_some_iff.mp h
    cases h
    rfl
  · simp at h

theorem wordRest_split {fuel : Nat} {isFirst : Bool} {cs name taken rest : List Char}
    (h : wordRest fuel isFirst cs = some (name, taken, rest)) : taken ++ rest = cs := by
  fun_induction wordRest fuel isFirst cs generalizing name taken rest
  all_goals grind [Option.bind_eq_some_iff, → wordEscape_split]

theorem scanWord_split {cs taken rest : List Char} {name : String} {escaped : Bool}
    (h : scanWord cs = some (name, escaped, taken, rest)) : taken ++ rest = cs := by
  unfold scanWord at h
  grind [Option.bind_eq_some_iff, → wordRest_split, List.takeWhile_append_dropWhile]

theorem digitRun_split {isDigit : Char → Bool} {cs taken rest : List Char}
    (h : digitRun isDigit cs = some (taken, rest)) : taken ++ rest = cs := by
  simp only [digitRun] at h
  split at h
  · cases h
    exact takeWhile_append_drop _ cs
  · simp at h

theorem scanExponent_split {cs taken rest : List Char}
    (h : scanExponent cs = some (taken, rest)) : taken ++ rest = cs := by
  unfold scanExponent at h
  grind [Option.map_eq_some_iff, → digitRun_split]

theorem scanFraction_split {cs taken rest : List Char}
    (h : scanFraction cs = some (taken, rest)) : taken ++ rest = cs := by
  unfold scanFraction at h
  grind [Option.bind_eq_some_iff, → digitRun_split, → scanExponent_split]

theorem scanDecimalEnd_split {cs taken rest : List Char}
    (h : scanDecimalEnd cs = some (taken, rest)) : taken ++ rest = cs := by
  unfold scanDecimalEnd at h
  grind [Option.map_eq_some_iff, → scanFraction_split, → scanExponent_split]

theorem scanBased_split {isDigit : Char → Bool} {cs taken rest : List Char}
    (h : scanBased isDigit cs = some (taken, rest)) : taken ++ rest = cs := by
  unfold scanBased at h
  grind [Option.bind_eq_some_iff, → digitRun_split]

theorem scanDigits_split {cs taken rest : List Char}
    (h : scanDigits cs = some (taken, rest)) : taken ++ rest = cs := by
  unfold scanDigits at h
  grind [Option.map_eq_some_iff, Option.bind_eq_some_iff, → scanBased_split, → scanFraction_split,
    → scanExponent_split, → digitRun_split, → scanDecimalEnd_split,
    List.takeWhile_append_dropWhile]

theorem scanNumber_split {cs : List Char} {s : Scan} (h : scanNumber cs = some s) :
    s.taken ++ s.rest = cs := by
  unfold scanNumber at h
  grind [Option.bind_eq_some_iff, → scanDigits_split]

/-- A text that is read after a first piece is split after it. -/
theorem QuotedRest.after_split {tail : Option QuotedRest} {cs piece : List Char}
    {us : List CodeUnit} {q : QuotedRest}
    (ih : ∀ {r : QuotedRest}, tail = some r → r.taken ++ r.rest = cs)
    (h : (do return (← tail).after us piece) = some q) : q.taken ++ q.rest = piece ++ cs := by
  obtain ⟨r, hr, hq⟩ := Option.bind_eq_some_iff.mp h
  cases hq
  rw [after, List.append_assoc, ih hr]

theorem quotedRest_split {quote : Char} {code : Option (List Char)} {cs : List Char}
    {q : QuotedRest} (h : quotedRest quote code cs = some q) : q.taken ++ q.rest = cs := by
  fun_induction quotedRest quote code cs generalizing q with
  | case1 | case4 | case9 | case18 => simp at h
  | case2 ds cs ih =>
    obtain ⟨n, _, h⟩ := Option.bind_eq_some_iff.mp h
    split at h
    · simp at h
    · exact QuotedRest.after_split ih h
  | case6 a b c d cs _ ih =>
    obtain ⟨n, _, h⟩ := Option.bind_eq_some_iff.mp h
    exact QuotedRest.after_split ih h
  | case7 a b cs ih =>
    obtain ⟨n, _, h⟩ := Option.bind_eq_some_iff.mp h
    exact QuotedRest.after_split ih h
  | case17 => cases h; rfl
  | _ => rename_i ih; exact QuotedRest.after_split ih h

theorem templateRest_split {cs : List Char} {t : TemplateRest} (h : templateRest cs = some t) :
    t.taken ++ t.rest = cs := by
  fun_induction templateRest cs generalizing t with
  | case1 => simp at h
  | case2 c cs ih =>
    obtain ⟨r, hr, ht⟩ := Option.bind_eq_some_iff.mp h
    cases ht
    simp [ih hr]
  | case3 => cases h; rfl
  | case4 => cases h; rfl
  | case5 c cs _ _ _ ih =>
    obtain ⟨r, hr, ht⟩ := Option.bind_eq_some_iff.mp h
    cases ht
    simp [ih hr]

theorem scanToken_split {cs : List Char} {s : Scan} (h : scanToken cs = some s) :
    s.taken ++ s.rest = cs := by
  unfold scanToken at h
  grind [Option.bind_eq_some_iff, → scanWord_split, → scanNumber_split, → scanSymbol_split,
    → quotedRest_split, → templateRest_split]

theorem regexBody_split {inClass : Bool} {cs taken rest : List Char}
    (h : regexBody inClass cs = some (taken, rest)) : taken ++ rest = cs := by
  fun_induction regexBody inClass cs generalizing taken rest
  all_goals grind [Option.map_eq_some_iff]

/-- A scanner that splits its text, and reads a quoted text only where one stands. -/
class Faithful (scan : List Char → Option Scan) : Prop where
  split : ∀ {cs s}, scan cs = some s → s.taken ++ s.rest = cs
  quoted : ∀ {cs s v w}, scan cs = some s → s.token = .quoted v w → scanToken cs = some s

instance : Faithful scanToken := ⟨scanToken_split, fun h _ => h⟩

instance : Faithful scanRegex where
  split h := by
    unfold scanRegex at h
    grind [Option.bind_eq_some_iff, → regexBody_split, takeWhile_append_drop]
  quoted h := by
    unfold scanRegex at h
    grind [Option.bind_eq_some_iff]

instance : Faithful scanTemplateMore where
  split h := by
    unfold scanTemplateMore at h
    grind [Option.bind_eq_some_iff, → templateRest_split]
  quoted h := by
    unfold scanTemplateMore at h
    grind [Option.bind_eq_some_iff]

instance : Faithful scanClosing where
  split h := by
    obtain ⟨text, _, h⟩ := List.exists_of_findSome?_eq_some h
    obtain ⟨rest, hrest, rfl⟩ := Option.map_eq_some_iff.mp h
    exact isPrefixOf?_split hrest
  quoted h hs := by
    obtain ⟨text, _, h⟩ := List.exists_of_findSome?_eq_some h
    obtain ⟨rest, hrest, rfl⟩ := Option.map_eq_some_iff.mp h
    simp at hs

instance : Faithful scanOpening where
  split h := by
    unfold scanOpening at h
    split at h <;> cases h
    rfl
  quoted h hs := by
    unfold scanOpening at h
    split at h <;> cases h
    simp at hs

/-- The token stands in a text that begins at byte `n`; a quoted text is read where it stands. -/
structure Lexeme.StandsIn (l : Lexeme) (n : Nat) (cs : List Char) : Prop where
  source : GoesOn n cs l.span.start l.source
  rest : GoesOn l.span.start l.source l.span.stop l.rest
  quoted : ∀ v w, l.token = .quoted v w →
    ∃ taken, scanToken l.source = some ⟨.quoted v w, taken, l.rest⟩

/-- A token that a scanner reads stands where the scanner began. -/
theorem Lexeme.StandsIn.of_scan {scan : List Char → Option Scan} [Faithful scan] {l : Lexeme}
    {n : Nat} {cs : List Char} {s : Scan} (hsource : GoesOn n cs l.span.start l.source)
    (h : scan l.source = some s) (htoken : l.token = s.token) (hrest : l.rest = s.rest)
    (hstop : l.span.stop = l.span.start + byteLength s.taken) : l.StandsIn n cs where
  source := hsource
  rest := ⟨s.taken, by rw [hrest, Faithful.split h], hstop⟩
  quoted v w hl := by
    have hs := Faithful.quoted h (htoken ▸ hl)
    refine ⟨s.taken, ?_⟩
    rw [hs, ← hl, htoken, hrest]

/-- The next token stands in the text. -/
theorem nextLexeme_standsIn {marks newline : Bool} {n : Nat} {cs : List Char} {l : Lexeme}
    (h : nextLexeme marks n newline cs = some l) : l.StandsIn n cs := by
  obtain ⟨gap, hgap, h⟩ := Option.bind_eq_some_iff.mp h
  obtain ⟨s, hs, h⟩ := Option.bind_eq_some_iff.mp h
  cases h
  exact Lexeme.StandsIn.of_scan ((skipGap_goesOn hgap).shift n) hs rfl rfl rfl

end BarrelAlias.Script
