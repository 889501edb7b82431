import BarrelAlias.Config.Project
import BarrelAlias.Proofs.JsonReading
import Mathlib.Data.List.Chain

/-!
Comments and trailing commas in a configuration. Between the tokens of a JSON text stands a filler
of blanks and comments, and a comma may stand before a token that closes. Main statement: such a
text is read as the text without them, and a JSON text comes through unchanged.
-/

namespace BarrelAlias.Config.Json

/-- Blanks and comments in a row. A comment that starts with two slashes ends with its line, and
with the text too where the filler is its end. -/
inductive Filler (atEnd : Bool) : List Char → Prop
  | nil : Filler atEnd []
  | blank {c : Char} {g : List Char} : isGap c → Filler atEnd g → Filler atEnd (c :: g)
  | line {body g : List Char} :
      '\n' ∉ body → Filler atEnd g → Filler atEnd ('/' :: '/' :: (body ++ '\n' :: g))
  | block {body g : List Char} :
      ¬ ['*', '/'] <:+: body → Filler atEnd g →
      Filler atEnd ('/' :: '*' :: (body ++ '*' :: '/' :: g))
  | lastLine {body : List Char} :
      atEnd = true → '\n' ∉ body → Filler atEnd ('/' :: '/' :: body)

/-- The second row has the tokens of the first, and a comma before some of those that close. -/
inductive Loosened : List Token → List Token → Prop
  | nil : Loosened [] []
  | keep (t : Token) {ts us : List Token} : Loosened ts us → Loosened (t :: ts) (t :: us)
  | comma {t : Token} {ts us : List Token} :
      t.closes → Loosened (t :: ts) (t :: us) → Loosened (t :: ts) (.mark .comma :: t :: us)

def Tight (ts : List Token) : Prop :=
  ts.IsChain fun t u => t = .mark .comma → u.closes = false

/-! ### Comments -/

theorem strip_line_cons (c : Char) (cs : List Char) :
    strip .line (c :: cs) = if c = '\n' then c :: strip .plain cs else strip .line cs := rfl

theorem strip_openLine (cs : List Char) : strip .plain ('/' :: '/' :: cs) = strip .line cs := rfl

theorem strip_openBlock (cs : List Char) :
    strip .plain ('/' :: '*' :: cs) = strip (.block false) cs := rfl

theorem strip_plain_cons {c : Char} (hc : c ≠ '/') (cs : List Char) :
    strip .plain (c :: cs) =
      if c = '"' then c :: strip .quoted cs
      else if c = ',' && isTrailing cs then strip .plain cs
      else c :: strip .plain cs :=
  strip.eq_8 c cs (fun _ h => absurd h hc) fun _ h => absurd h hc

theorem strip_line {body : List Char} (h : '\n' ∉ body) (cs : List Char) :
    strip .line (body ++ cs) = strip .line cs := by
  induction body with
  | nil => rfl
  | cons c body ih =>
    have hc : c ≠ '\n' := by rintro rfl; simp at h
    rw [List.cons_append, strip_line_cons, if_neg hc]
    exact ih fun hb => h (by simp [hb])

theorem nextSignificant_line_cons (c : Char) (cs : List Char) :
    nextSignificant .line (c :: cs) = nextSignificant (if c = '\n' then .plain else .line) cs := rfl

theorem nextSignificant_block_cons (star : Bool) (c : Char) (cs : List Char) :
    nextSignificant (.block star) (c :: cs) =
      nextSignificant (if star && c = '/' then .plain else .block (c = '*')) cs := rfl

theorem nextSignificant_openLine (cs : List Char) :
    nextSignificant .plain ('/' :: '/' :: cs) = nextSignificant .line cs := rfl

theorem nextSignificant_openBlock (cs : List Char) :
    nextSignificant .plain ('/' :: '*' :: cs) = nextSignificant (.block false) cs := rfl

theorem nextSignificant_plain_cons {c : Char} (hc : c ≠ '/') (cs : List Char) :
    nextSignificant .plain (c :: cs) =
      if Text.isBlank c then nextSignificant .plain cs else some c := by
  conv_lhs => unfold nextSignificant
  split <;> simp_all

theorem nextSignificant_line {body : List Char} (h : '\n' ∉ body) (cs : List Char) :
    nextSignificant .line (body ++ cs) = nextSignificant .line cs := by
  induction body with
  | nil => rfl
  | cons c body ih =>
    have hc : c ≠ '\n' := by rintro rfl; simp at h
    rw [List.cons_append, nextSignificant_line_cons, if_neg hc]
    exact ih fun hb => h (by simp [hb])

/-- In a comment that has not ended, a slash does not follow a star. -/
theorem not_close_of_not_infix {star : Bool} {c : Char} {body : List Char}
    (h : ¬ ['*', '/'] <:+: (if star then ['*'] else []) ++ c :: body) :
    (star && c = '/') = false ∧
      ¬ ['*', '/'] <:+: (if decide (c = '*') then ['*'] else []) ++ body := by
  constructor
  · cases star with
    | false => rfl
    | true =>
      simp only [Bool.true_and, decide_eq_false_iff_not]
      rintro rfl
      exact h ⟨[], body, rfl⟩
  · intro hb
    refine h (List.IsInfix.trans hb ?_)
    by_cases hc : c = '*'
    · subst hc
      exact ⟨if star then ['*'] else [], [], by simp⟩
    · exact ⟨(if star then ['*'] else []) ++ [c], [], by simp [hc]⟩

theorem strip_block (star : Bool) {body : List Char}
    (h : ¬ ['*', '/'] <:+: (if star then ['*'] else []) ++ body) (cs : List Char) :
    strip (.block star) (body ++ '*' :: '/' :: cs) = strip .plain cs := by
  induction body generalizing star with
  | nil => simp [strip]
  | cons c body ih =>
    obtain ⟨hc, hb⟩ := not_close_of_not_infix h
    rw [List.cons_append, strip, hc]
    exact ih _ hb

theorem nextSignificant_block (star : Bool) {body : List Char}
    (h : ¬ ['*', '/'] <:+: (if star then ['*'] else []) ++ body) (cs : List Char) :
    nextSignificant (.block star) (body ++ '*' :: '/' :: cs) = nextSignificant .plain cs := by
  induction body generalizing star with
  | nil => simp [nextSignificant_block_cons]
  | cons c body ih =>
    obtain ⟨hc, hb⟩ := not_close_of_not_infix h
    rw [List.cons_append, nextSignificant_block_cons, hc]
    exact ih _ hb

/-! ### Fillers -/

theorem strip_gap {c : Char} (hc : isGap c) (cs : List Char) :
    strip .plain (c :: cs) = c :: strip .plain cs := by
  have slash : c ≠ '/' := by rintro rfl; simp [isGap] at hc
  simp only [isGap, Bool.or_eq_true, decide_eq_true_eq] at hc
  rw [strip_plain_cons slash]
  rcases hc with ((rfl | rfl) | rfl) | rfl <;> simp

theorem nextSignificant_gap {c : Char} (hc : isGap c) (cs : List Char) :
    nextSignificant .plain (c :: cs) = nextSignificant .plain cs := by
  have slash : c ≠ '/' := by rintro rfl; simp [isGap] at hc
  rw [nextSignificant_plain_cons slash, if_pos (isBlank_of_isGap hc)]

theorem strip_blank_append {g : List Char} (hg : Blank g) (cs : List Char) :
    strip .plain (g ++ cs) = g ++ strip .plain cs := by
  induction g with
  | nil => rfl
  | cons c g ih =>
    rw [List.cons_append, strip_gap (hg c (by simp)), ih fun d hd => hg d (by simp [hd]),
      List.cons_append]

/-- Of a filler, blanks are left. Nothing follows one that may run to the end of the text. -/
theorem Filler.strip_append {atEnd : Bool} {g : List Char} (h : Filler atEnd g) :
    ∃ g', Blank g' ∧ ∀ cs, (atEnd = true → cs = []) →
      strip .plain (g ++ cs) = g' ++ strip .plain cs := by
  induction h with
  | nil => exact ⟨[], by simp [Blank], fun cs _ => rfl⟩
  | @blank c g hc _ ih =>
    obtain ⟨g', hg', ih⟩ := ih
    refine ⟨c :: g', by simpa [Blank, hc] using hg', fun cs hcs => ?_⟩
    rw [List.cons_append, strip_gap hc, ih cs hcs, List.cons_append]
  | line hb _ ih =>
    obtain ⟨g', hg', ih⟩ := ih
    refine ⟨'\n' :: g', by simpa [Blank, isGap] using hg', fun cs hcs => ?_⟩
    simp [strip_openLine, strip_line hb, strip_line_cons, ih cs hcs]
  | block hb _ ih =>
    obtain ⟨g', hg', ih⟩ := ih
    refine ⟨g', hg', fun cs hcs => ?_⟩
    simp [strip_openBlock, strip_block false (by simpa using hb), ih cs hcs]
  | lastLine last hb =>
    refine ⟨[], by simp [Blank], fun cs hcs => ?_⟩
    obtain rfl := hcs last
    exact strip_line hb []

theorem Filler.nextSignificant_append {atEnd : Bool} {g : List Char} (h : Filler atEnd g)
    {cs : List Char} (hcs : atEnd = true → cs = []) :
    nextSignificant .plain (g ++ cs) = nextSignificant .plain cs := by
  induction h with
  | nil => rfl
  | blank hc _ ih => rw [List.cons_append, nextSignificant_gap hc, ih]
  | line hb _ ih =>
    simp [nextSignificant_openLine, nextSignificant_line hb, nextSignificant_line_cons, ih]
  | block hb _ ih =>
    simp [nextSignificant_openBlock, nextSignificant_block false (by simpa using hb), ih]
  | lastLine last hb =>
    obtain rfl := hcs last
    exact nextSignificant_line hb []

/-! ### Tokens -/

def Ordinary (cs : List Char) : Prop := ∀ c ∈ cs, c ≠ '/' ∧ c ≠ '"' ∧ c ≠ ','

theorem strip_ordinary {w : List Char} (h : Ordinary w) (cs : List Char) :
    strip .plain (w ++ cs) = w ++ strip .plain cs := by
  induction w with
  | nil => rfl
  | cons c w ih =>
    obtain ⟨slash, quote, comma⟩ := h c (by simp)
    rw [List.cons_append, strip_plain_cons slash, ih fun d hd => h d (by simp [hd])]
    simp [quote, comma]

theorem Ordinary.append {as bs : List Char} (ha : Ordinary as) (hb : Ordinary bs) :
    Ordinary (as ++ bs) :=
  fun c hc => (List.mem_append.1 hc).elim (ha c) (hb c)

theorem Digits.ordinary (d : Digits) : Ordinary d.chars := by
  intro c hc
  have := d.areDigits c hc
  refine ⟨?_, ?_, ?_⟩ <;> rintro rfl <;> simp at this

theorem Power.ordinary (p : Power) : Ordinary p.chars := by
  have sign : Ordinary p.sign := by
    unfold sign
    split <;> simp [Ordinary]
  have letter : Ordinary [if p.capital then 'E' else 'e'] := by
    cases p.capital <;> simp [Ordinary]
  exact letter.append (sign.append p.digits.ordinary)

theorem Numeral.ordinary (n : Numeral) : Ordinary (Token.number n).chars := by
  have sign : Ordinary n.sign := by
    unfold sign
    split <;> simp [Ordinary]
  have fraction : Ordinary n.fractionChars := by
    unfold fractionChars
    split
    · simp [Ordinary]
    · have point : Ordinary ['.'] := by simp [Ordinary]
      exact point.append (Digits.ordinary _)
  have power : Ordinary n.powerChars := by
    unfold powerChars
    split
    · simp [Ordinary]
    · exact Power.ordinary _
  exact sign.append ((n.whole.ordinary.append fraction).append power)

theorem Word.ordinary (w : Word) : Ordinary w.chars := by
  cases w with
  | null => simp [Word.chars, Ordinary]
  | bool b => cases b <;> simp [Word.chars, Ordinary]

theorem isHexDigit_ne {c : Char} (h : Text.isHexDigit c) : c ≠ '\\' ∧ c ≠ '"' := by
  constructor <;> rintro rfl <;> simp [Text.isHexDigit, Text.hexDigit?] at h

theorem strip_glyph (g : Glyph) (cs : List Char) :
    strip .quoted (g.chars ++ cs) = g.chars ++ strip .quoted cs := by
  cases g with
  | plain c _ unquoted unescaped => simp [Glyph.chars, strip, unquoted, unescaped]
  | escape c _ => simp [Glyph.chars, strip]
  | code a b c d hex =>
    simp only [List.mem_cons, List.not_mem_nil, or_false, forall_eq_or_imp, forall_eq] at hex
    obtain ⟨ha, hb, hc, hd⟩ := hex
    simp [Glyph.chars, strip, isHexDigit_ne ha, isHexDigit_ne hb, isHexDigit_ne hc,
      isHexDigit_ne hd]

theorem strip_text (gs : List Glyph) (cs : List Char) :
    strip .plain ((Token.text gs).chars ++ cs) = (Token.text gs).chars ++ strip .plain cs := by
  have body : strip .quoted (gs.flatMap Glyph.chars ++ ('"' :: cs)) =
      gs.flatMap Glyph.chars ++ ('"' :: strip .plain cs) := by
    induction gs with
    | nil => simp [strip]
    | cons g gs ih => simp [strip_glyph, ih]
  simpa [Token.chars, strip] using body

theorem strip_comma (cs : List Char) :
    strip .plain (',' :: cs) =
      if isTrailing cs then strip .plain cs else ',' :: strip .plain cs := by
  simp [strip]

/-- A token stays as it is, unless it is a comma before a token that closes. -/
theorem strip_token (t : Token) (cs : List Char) (h : t = .mark .comma → isTrailing cs = false) :
    strip .plain (t.chars ++ cs) = t.chars ++ strip .plain cs := by
  cases t with
  | mark m =>
    by_cases hm : m = .comma
    · subst hm
      simp [Token.chars, Mark.char, strip_comma, h rfl]
    · exact strip_ordinary (by cases m <;> simp [Ordinary, Token.chars, Mark.char] at hm ⊢) cs
  | word w => exact strip_ordinary w.ordinary cs
  | number n => exact strip_ordinary n.ordinary cs
  | text gs => exact strip_text gs cs

theorem isTrailing_token (t : Token) (cs : List Char) : isTrailing (t.chars ++ cs) = t.closes := by
  obtain ⟨c, as, hc, first⟩ := t.exists_starts
  have next : nextSignificant .plain (c :: (as ++ cs)) = some c := by
    simp [nextSignificant_plain_cons first.noComment, first.visible]
  rw [hc, List.cons_append, isTrailing, next, ← Bool.coe_iff_coe]
  simpa using first.closes_iff

theorem Filler.isTrailing_append {atEnd : Bool} {g : List Char} (h : Filler atEnd g)
    {cs : List Char} (hcs : atEnd = true → cs = []) : isTrailing (g ++ cs) = isTrailing cs := by
  simp only [isTrailing, h.nextSignificant_append hcs]

theorem Filler.of_blank {atEnd : Bool} {g : List Char} (hg : Blank g) : Filler atEnd g := by
  induction g with
  | nil => exact .nil
  | cons c g ih => exact .blank (hg c (by simp)) (ih fun d hd => hg d (by simp [hd]))

/-! ### Texts -/

/-- A comma whose next token does not close, if there is one, is not trailing. -/
theorem isTrailing_laid {us : List Token} {cs g : List Char} (h : Laid (Filler false) us cs)
    (hg : Filler true g) (first : ∀ u ∈ us.head?, u.closes = false) :
    isTrailing (cs ++ g) = false := by
  cases us with
  | nil =>
    obtain rfl := h.of_nil
    have none : isTrailing (g ++ []) = isTrailing [] := hg.isTrailing_append fun _ => rfl
    rw [List.append_nil] at none
    exact none
  | cons u us =>
    obtain ⟨g', as, rfl, hg', _⟩ := h.of_cons
    rw [List.append_assoc, hg'.isTrailing_append (by simp), List.append_assoc, isTrailing_token]
    exact first u (by simp)

theorem Tight.of_cons {t : Token} {ts : List Token} (h : Tight (t :: ts)) :
    (t = .mark .comma → ∀ u ∈ ts.head?, u.closes = false) ∧ Tight ts := by
  obtain ⟨next, rest⟩ := List.isChain_cons.1 h
  exact ⟨fun ht u hu => next u hu ht, rest⟩

theorem Tight.cons {t : Token} {ts : List Token} (h : Tight ts)
    (first : t = .mark .comma → ∀ u ∈ ts.head?, u.closes = false) : Tight (t :: ts) :=
  List.isChain_cons.2 ⟨fun u hu ht => first ht u hu, h⟩

theorem Loosened.head_open {ts us : List Token} (h : Loosened ts us)
    (first : ∀ t ∈ ts.head?, t.closes = false) : ∀ u ∈ us.head?, u.closes = false := by
  cases h with
  | nil => simp
  | keep t h => simpa using first
  | comma ht h => simp [Token.closes]

/-- Stripping takes out the comments and the commas that were put in, and leaves blanks. -/
theorem strip_loosened {ts us : List Token} {cs g : List Char} (tight : Tight ts)
    (loose : Loosened ts us) (h : Laid (Filler false) us cs) (hg : Filler true g) :
    ∃ as g', strip .plain (cs ++ g) = as ++ g' ∧ Laid Blank ts as ∧ Blank g' := by
  induction loose generalizing cs with
  | nil =>
    obtain rfl := h.of_nil
    obtain ⟨g', hg', gone⟩ := hg.strip_append
    refine ⟨[], g', ?_, .nil, hg'⟩
    simpa [strip] using gone [] fun _ => rfl
  | @keep t ts us loose ih =>
    obtain ⟨next, tight⟩ := tight.of_cons
    obtain ⟨b, bs, rfl, hb, hbs⟩ := h.of_cons
    obtain ⟨as, g', stripped, has, hg'⟩ := ih tight hbs
    obtain ⟨b', hb', gap⟩ := hb.strip_append
    have stays : t = .mark .comma → isTrailing (bs ++ g) = false :=
      fun ht => isTrailing_laid hbs hg (loose.head_open (next ht))
    refine ⟨b' ++ (t.chars ++ as), g', ?_, .cons t hb' has, hg'⟩
    rw [List.append_assoc, gap _ (by simp), List.append_assoc, strip_token t _ stays, stripped]
    simp
  | @comma t ts us closes _ ih =>
    obtain ⟨b, bs, rfl, hb, hbs⟩ := h.of_cons
    obtain ⟨as, g', stripped, has, hg'⟩ := ih tight hbs
    obtain ⟨b', hb', gap⟩ := hb.strip_append
    have goes : isTrailing (bs ++ g) = true := by
      obtain ⟨d, ds, rfl, hd, _⟩ := hbs.of_cons
      rw [List.append_assoc, hd.isTrailing_append (by simp), List.append_assoc, isTrailing_token,
        closes]
    -- what is left of the gap before the comma joins the gap before the token that closes
    refine ⟨b' ++ as, g', ?_, has.widen hb', hg'⟩
    rw [List.append_assoc, gap _ (by simp), List.append_assoc]
    simp [Token.chars, Mark.char, strip_comma, goes, stripped]

/-- A JSON text has nothing to take out. -/
theorem strip_laid {ts : List Token} {cs g : List Char} (tight : Tight ts) (h : Laid Blank ts cs)
    (hg : Blank g) : strip .plain (cs ++ g) = cs ++ g := by
  induction h with
  | nil => simpa [strip] using strip_blank_append hg []
  | @cons b bs ts t hb hbs ih =>
    obtain ⟨next, tight⟩ := tight.of_cons
    have stays : t = .mark .comma → isTrailing (bs ++ g) = false :=
      fun ht => isTrailing_laid (hbs.mono fun _ => .of_blank) (.of_blank hg) (next ht)
    rw [List.append_assoc, strip_blank_append hb, List.append_assoc, strip_token t _ stays,
      ih tight]

/-- No part of the grammar ends with a comma, so what is tight stays so behind it. -/
theorem Derives.tight_append {p : Part} {ts us : List Token} (h : Derives p ts) (hus : Tight us) :
    Tight (ts ++ us) := by
  induction h generalizing us with
  | word | number | text => exact hus.cons (by simp)
  | emptyArray | emptyObject => exact (hus.cons (by simp)).cons (by simp)
  | array _ ih | object _ ih =>
    rw [List.cons_append, List.append_assoc]
    exact (ih (hus.cons (by simp))).cons (by simp)
  | lastItem _ ih => exact ih hus
  | item _ hs ih ihs =>
    obtain ⟨u, _, rfl, hu⟩ := hs.exists_cons
    rw [List.append_assoc]
    exact ih ((ihs hus).cons (by simpa using hu))
  | lastMember _ _ ih => exact ((ih hus).cons (by simp)).cons (by simp)
  | member _ _ hs ih ihs =>
    obtain ⟨u, _, rfl, hu⟩ := hs.exists_cons
    rw [List.cons_append, List.cons_append, List.append_assoc]
    exact ((ih ((ihs hus).cons (by simpa using hu))).cons (by simp)).cons (by simp)

theorem Derives.tight {p : Part} {ts : List Token} (h : Derives p ts) : Tight ts := by
  have none : Tight [] := .nil
  simpa using h.tight_append none

theorem Spaced.strip {ts us : List Token} {s : String} (tight : Tight ts) (loose : Loosened ts us)
    (h : Spaced (Filler false) (Filler true) us s) : Spaced Blank Blank ts (stripComments s) := by
  obtain ⟨cs, g, hs, hcs, hg⟩ := h
  obtain ⟨as, g', stripped, has, hg'⟩ := strip_loosened tight loose hcs hg
  exact ⟨as, g', by simp [stripComments, hs, stripped], has, hg'⟩

/-- A configuration with comments between its tokens and commas before tokens that close is read as
the JSON text that has the tokens alone: as the same configuration, or not at all. A JSON text is
not changed before it is read. -/
theorem parse_commented (config : Path) {ts us : List Token} {s s' : String}
    (derived : Derives .value ts) (plain : Spaced Blank Blank ts s) (loose : Loosened ts us)
    (commented : Spaced (Filler false) (Filler true) us s') :
    ProjectConfig.parse config s' = ProjectConfig.parse config s ∧ stripComments s = s ∧
      ∃ v, parse? s = some v ∧ parse? (stripComments s') = some v := by
  obtain ⟨v, read⟩ := derived.parse?_spaced
  have unchanged : stripComments s = s := by
    obtain ⟨cs, g, hs, hcs, hg⟩ := plain
    rw [stripComments, hs, strip_laid derived.tight hcs hg, ← hs, String.ofList_toList]
  have same := read _ (commented.strip derived.tight loose)
  refine ⟨?_, unchanged, v, read s plain, same⟩
  simp only [ProjectConfig.parse, unchanged, same, read s plain]

/-- Tokens written with gaps that are given with them. -/
theorem Laid.of_gaps {gap : List Char → Prop} (ps : List ({g // gap g} × Token)) :
    Laid gap (ps.map (·.2)) (ps.flatMap fun p => p.1.1 ++ p.2.chars) := by
  induction ps with
  | nil => exact .nil
  | cons p ps ih => simpa using Laid.cons p.2 p.1.2 ih

def plainGlyph (c : Char) (h : 32 ≤ c.toNat ∧ c ≠ '"' ∧ c ≠ '\\') : Glyph :=
  .plain c h.1 h.2.1 h.2.2

def sampleTokens : List Token :=
  [.mark .openObject,
    .text [plainGlyph 'f' (by decide), plainGlyph 'i' (by decide), plainGlyph 'l' (by decide),
      plainGlyph 'e' (by decide), plainGlyph 's' (by decide)],
    .mark .colon, .mark .openArray,
    .text [plainGlyph '/' (by decide), plainGlyph '/' (by decide), plainGlyph ']' (by decide),
      .escape '"' (by simp)],
    .mark .closeArray, .mark .comma, .text [plainGlyph 'n' (by decide)], .mark .colon,
    .number ⟨true, ⟨['2'], by simp, by simp⟩, by simp, some ⟨['5'], by simp, by simp⟩,
      some ⟨false, some false, ⟨['3'], by simp, by simp⟩⟩⟩,
    .mark .closeObject]

theorem derives_sampleTokens : Derives .value sampleTokens :=
  .object (.member _ (.array (.lastItem (.text _))) (.lastMember _ (.number _)))

def looseTokens : List Token :=
  sampleTokens.take 5 ++ .mark .comma :: sampleTokens.extract 5 10 ++
    [.mark .comma, .mark .closeObject]

def sampleText : String := "\x7b\"files\":[\"//]\\\"\"],\"n\":-2.5e+3\x7d"

/-- The loose tokens with comments that have quotes, commas and brackets in them. -/
def commentedText : String :=
  "/* \" , */\x7b\"files\"// , ]\n:[\"//]\\\"\",/**/],\"n\":-2.5e+3 ,\x7d // end"

def sampleGaps : List {g // Filler false g} :=
  [⟨"/* \" , */".toList, .block (show ¬ ['*', '/'] <:+: " \" , ".toList by decide) .nil⟩,
    ⟨[], .nil⟩, ⟨"// , ]\n".toList, .line (show '\n' ∉ " , ]".toList by decide) .nil⟩, ⟨[], .nil⟩,
    ⟨[], .nil⟩, ⟨[], .nil⟩, ⟨"/**/".toList, .block (show ¬ ['*', '/'] <:+: [] by decide) .nil⟩,
    ⟨[], .nil⟩, ⟨[], .nil⟩,
    ⟨[], .nil⟩, ⟨[], .nil⟩, ⟨[' '], .blank (by decide) .nil⟩, ⟨[], .nil⟩]

theorem spaced_sampleText : Spaced Blank Blank sampleTokens sampleText :=
  ⟨_, [], rfl, .of_gaps (sampleTokens.map fun t => (⟨[], by simp [Blank]⟩, t)), by simp [Blank]⟩

theorem spaced_commentedText : Spaced (Filler false) (Filler true) looseTokens commentedText :=
  ⟨_, " // end".toList, by decide, .of_gaps (sampleGaps.zip looseTokens),
    .blank (by decide) (.lastLine rfl (show '\n' ∉ " end".toList by decide))⟩

theorem loosened_looseTokens : Loosened sampleTokens looseTokens :=
  .keep _ (.keep _ (.keep _ (.keep _ (.keep _ (.comma rfl (.keep _ (.keep _ (.keep _ (.keep _
    (.keep _ (.comma rfl (.keep _ .nil))))))))))))

theorem parse_commentedText :
    Derives .value sampleTokens ∧ Spaced Blank Blank sampleTokens sampleText ∧
      Loosened sampleTokens looseTokens ∧
      Spaced (Filler false) (Filler true) looseTokens commentedText ∧
      ProjectConfig.parse ⟨false, ["p.json"]⟩ commentedText =
        ProjectConfig.parse ⟨false, ["p.json"]⟩ sampleText ∧
      stripComments sampleText = sampleText ∧
      ∃ v, parse? sampleText = some v ∧ parse? (stripComments commentedText) = some v :=
  ⟨derives_sampleTokens, spaced_sampleText, loosened_looseTokens, spaced_commentedText,
    parse_commented ⟨false, ["p.json"]⟩ derives_sampleTokens spaced_sampleText
      loosened_looseTokens spaced_commentedText⟩

end BarrelAlias.Config.Json
