import BarrelAlias.Config.Comments
import BarrelAlias.Config.Json

/-!
The texts of JSON. Its tokens are data that can be well formed only, a grammar says which rows of
tokens are a value, and a layout writes the tokens with gaps around them. What is written for a
quoted text or a number is read back up to its end.
-/

namespace BarrelAlias.Config.Json

inductive Mark
  | openObject
  | closeObject
  | openArray
  | closeArray
  | colon
  | comma
deriving DecidableEq

def Mark.char : Mark → Char
  | openObject => '\x7b'
  | closeObject => '\x7d'
  | openArray => '['
  | closeArray => ']'
  | colon => ':'
  | comma => ','

inductive Word
  | null
  | bool (b : Bool)

def Word.chars : Word → List Char
  | null => ['n', 'u', 'l', 'l']
  | bool true => ['t', 'r', 'u', 'e']
  | bool false => ['f', 'a', 'l', 's', 'e']

structure Digits where
  chars : List Char
  areDigits : ∀ c ∈ chars, c.isDigit
  nonempty : chars ≠ []

/-- A power of ten after a number; `negative?` is its sign, if one is written. -/
structure Power where
  capital : Bool
  negative? : Option Bool
  digits : Digits

def Power.sign (p : Power) : List Char :=
  match p.negative? with
  | none => []
  | some true => ['-']
  | some false => ['+']

def Power.chars (p : Power) : List Char :=
  (if p.capital then 'E' else 'e') :: (p.sign ++ p.digits.chars)

structure Numeral where
  negative : Bool
  whole : Digits
  unpadded : whole.chars.head? = some '0' → whole.chars = ['0']
  fraction? : Option Digits
  power? : Option Power

def Numeral.sign (n : Numeral) : List Char := if n.negative then ['-'] else []

def Numeral.fractionChars (n : Numeral) : List Char :=
  match n.fraction? with
  | none => []
  | some d => '.' :: d.chars

def Numeral.powerChars (n : Numeral) : List Char :=
  match n.power? with
  | none => []
  | some p => p.chars

def Numeral.unsignedChars (n : Numeral) : List Char :=
  n.whole.chars ++ n.fractionChars ++ n.powerChars

/-- One unit of a quoted text: a character as it is, one behind a backslash, or a code. -/
inductive Glyph
  | plain (c : Char) (printable : 32 ≤ c.toNat) (unquoted : c ≠ '"') (unescaped : c ≠ '\\')
  | escape (c : Char) (known : c ∈ ['"', '\\', '/', 'b', 'f', 'n', 'r', 't'])
  | code (a b c d : Char) (hex : ∀ x ∈ [a, b, c, d], Text.isHexDigit x)

def Glyph.chars : Glyph → List Char
  | plain c _ _ _ => [c]
  | escape c _ => ['\\', c]
  | code a b c d _ => ['\\', 'u', a, b, c, d]

inductive Token
  | mark (m : Mark)
  | word (w : Word)
  | number (n : Numeral)
  | text (gs : List Glyph)

def Token.chars : Token → List Char
  | mark m => [m.char]
  | word w => w.chars
  | number n => n.sign ++ n.unsignedChars
  | text gs => '"' :: (gs.flatMap Glyph.chars ++ ['"'])

def Token.closes : Token → Bool
  | mark m => m = .closeObject || m = .closeArray
  | _ => false

/-- What a row of tokens is: a value, the items of an array, or the members of an object. -/
inductive Part
  | value
  | items
  | members

/-- The grammar of JSON. Arrays and objects with something in them have one comma less than items
or members, so none before the token that closes them. -/
inductive Derives : Part → List Token → Prop
  | word (w : Word) : Derives .value [.word w]
  | number (n : Numeral) : Derives .value [.number n]
  | text (gs : List Glyph) : Derives .value [.text gs]
  | emptyArray : Derives .value [.mark .openArray, .mark .closeArray]
  | array {ts : List Token} :
      Derives .items ts → Derives .value (.mark .openArray :: (ts ++ [.mark .closeArray]))
  | emptyObject : Derives .value [.mark .openObject, .mark .closeObject]
  | object {ts : List Token} :
      Derives .members ts → Derives .value (.mark .openObject :: (ts ++ [.mark .closeObject]))
  | lastItem {ts : List Token} : Derives .value ts → Derives .items ts
  | item {ts us : List Token} :
      Derives .value ts → Derives .items us → Derives .items (ts ++ .mark .comma :: us)
  | lastMember (gs : List Glyph) {ts : List Token} :
      Derives .value ts → Derives .members (.text gs :: .mark .colon :: ts)
  | member (gs : List Glyph) {ts us : List Token} :
      Derives .value ts → Derives .members us →
      Derives .members (.text gs :: .mark .colon :: (ts ++ .mark .comma :: us))

/-- The texts that write these tokens in a row, each with a gap before it. -/
inductive Laid (gap : List Char → Prop) : List Token → List Char → Prop
  | nil : Laid gap [] []
  | cons {g cs : List Char} {ts : List Token} (t : Token) :
      gap g → Laid gap ts cs → Laid gap (t :: ts) (g ++ (t.chars ++ cs))

/-- The text writes these tokens with gaps between them and one that may be of another kind at its
end. -/
def Spaced (gap final : List Char → Prop) (ts : List Token) (s : String) : Prop :=
  ∃ cs g, s.toList = cs ++ g ∧ Laid gap ts cs ∧ final g

def Blank (g : List Char) : Prop := ∀ c ∈ g, isGap c

namespace Laid

variable {gap : List Char → Prop} {ts us : List Token} {cs g : List Char}

theorem of_append (h : Laid gap (ts ++ us) cs) :
    ∃ as bs, cs = as ++ bs ∧ Laid gap ts as ∧ Laid gap us bs := by
  induction ts generalizing cs with
  | nil => exact ⟨[], cs, rfl, .nil, h⟩
  | cons t ts ih =>
    cases h with
    | cons _ hg h =>
      obtain ⟨as, bs, rfl, has, hbs⟩ := ih h
      exact ⟨_, bs, by simp, .cons t hg has, hbs⟩

theorem of_cons {t : Token} (h : Laid gap (t :: ts) cs) :
    ∃ g as, cs = g ++ (t.chars ++ as) ∧ gap g ∧ Laid gap ts as := by
  cases h with
  | cons _ hg h => exact ⟨_, _, rfl, hg, h⟩

theorem of_mark {m : Mark} (h : Laid gap (ts ++ .mark m :: us) cs) :
    ∃ as g bs, cs = as ++ (g ++ m.char :: bs) ∧ Laid gap ts as ∧ gap g ∧ Laid gap us bs := by
  obtain ⟨as, bs, rfl, has, hbs⟩ := h.of_append
  obtain ⟨g, bs, rfl, hg, hbs⟩ := hbs.of_cons
  exact ⟨as, g, bs, rfl, has, hg, hbs⟩

theorem mono {gap' : List Char → Prop} (le : ∀ g, gap g → gap' g) (h : Laid gap ts cs) :
    Laid gap' ts cs := by
  induction h with
  | nil => exact .nil
  | cons t hg _ ih => exact .cons t (le _ hg) ih

theorem of_nil (h : Laid gap [] cs) : cs = [] := by
  cases h
  rfl

/-- A gap in front of blanks makes one gap with them. -/
theorem widen {t : Token} (hg : Blank g) (h : Laid Blank (t :: ts) cs) :
    Laid Blank (t :: ts) (g ++ cs) := by
  obtain ⟨g', as, rfl, hg', h⟩ := h.of_cons
  rw [← List.append_assoc]
  exact .cons t (fun c hc => (List.mem_append.1 hc).elim (hg c) (hg' c)) h

end Laid

theorem Digits.exists_cons (d : Digits) : ∃ c cs, d.chars = c :: cs ∧ c.isDigit := by
  obtain ⟨c, cs, h⟩ := List.exists_cons_of_ne_nil d.nonempty
  exact ⟨c, cs, h, d.areDigits c (by simp [h])⟩

theorem isBlank_of_isDigit {c : Char} (h : c.isDigit) : Text.isBlank c = false := by
  have range : 48 ≤ c.toNat ∧ c.toNat ≤ 57 := by
    simpa [Char.isDigit, UInt32.le_iff_toNat_le] using h
  simp only [Text.isBlank, Bool.or_eq_false_iff, Bool.and_eq_false_iff, decide_eq_false_iff_not,
    beq_eq_false_iff_ne]
  omega

theorem isBlank_of_isGap {c : Char} (h : isGap c) : Text.isBlank c := by
  simp only [isGap, Bool.or_eq_true, decide_eq_true_eq] at h
  rcases h with ((rfl | rfl) | rfl) | rfl <;> decide

theorem isGap_eq_false {c : Char} (h : Text.isBlank c = false) : isGap c = false :=
  Bool.eq_false_iff.2 fun hg => by simp [isBlank_of_isGap hg] at h

/-- A token starts with a character that belongs to no gap and tells whether it closes. -/
structure Token.Starts (t : Token) (c : Char) : Prop where
  visible : Text.isBlank c = false
  noComment : c ≠ '/'
  closes_iff : (c = '\x7d' ∨ c = ']') ↔ t.closes

theorem Token.exists_starts (t : Token) : ∃ c cs, t.chars = c :: cs ∧ t.Starts c := by
  cases t with
  | mark m =>
    refine ⟨m.char, [], rfl, ?_⟩
    cases m <;> constructor <;> decide
  | word w =>
    cases w with
    | null => exact ⟨'n', _, rfl, by constructor <;> decide⟩
    | bool b => cases b with
      | true => exact ⟨'t', _, rfl, by constructor <;> decide⟩
      | false => exact ⟨'f', _, rfl, by constructor <;> decide⟩
  | number n =>
    obtain ⟨c, cs, hcs, hc⟩ := n.whole.exists_cons
    cases hn : n.negative with
    | true =>
      exact ⟨'-', n.unsignedChars, by simp [chars, Numeral.sign, hn], by decide, by decide,
        by simp [closes]⟩
    | false =>
      refine ⟨c, cs ++ n.fractionChars ++ n.powerChars, ?_, isBlank_of_isDigit hc, ?_, ?_⟩
      · simp [chars, Numeral.sign, hn, Numeral.unsignedChars, hcs]
      · rintro rfl
        simp at hc
      · simp only [closes, Bool.false_eq_true, iff_false]
        rintro (rfl | rfl) <;> simp at hc
  | text gs => exact ⟨'"', _, rfl, by decide, by decide, by simp [closes]⟩

theorem Laid.length_le {gap : List Char → Prop} {ts : List Token} {cs : List Char}
    (h : Laid gap ts cs) : ts.length ≤ cs.length := by
  induction h with
  | nil => simp
  | cons t _ _ ih =>
    obtain ⟨c, as, hc, _⟩ := t.exists_starts
    simp only [hc, List.length_cons, List.length_append]
    omega

theorem skipGaps_append {g cs : List Char} (hg : Blank g) : skipGaps (g ++ cs) = skipGaps cs := by
  induction g with
  | nil => rfl
  | cons c g ih =>
    have hc : isGap c := hg c (by simp)
    rw [List.cons_append, skipGaps, List.dropWhile_cons_of_pos hc]
    exact ih fun d hd => hg d (by simp [hd])

theorem skipGaps_cons {c : Char} {cs : List Char} (hc : isGap c = false) :
    skipGaps (c :: cs) = c :: cs := by
  simp [skipGaps, hc]

theorem skipGaps_blank {g : List Char} (hg : Blank g) : skipGaps g = [] := by
  have gone : skipGaps (g ++ []) = skipGaps [] := skipGaps_append hg
  simpa [skipGaps] using gone

theorem skipGaps_token {g : List Char} (t : Token) (cs : List Char) (hg : Blank g) :
    skipGaps (g ++ (t.chars ++ cs)) = t.chars ++ cs := by
  obtain ⟨c, as, hc, first⟩ := t.exists_starts
  rw [skipGaps_append hg, hc, List.cons_append, skipGaps_cons (isGap_eq_false first.visible)]

theorem skipGaps_mark {g : List Char} (m : Mark) (cs : List Char) (hg : Blank g) :
    skipGaps (g ++ m.char :: cs) = m.char :: cs :=
  skipGaps_token (.mark m) cs hg

theorem hexNumber?_isSome {ds : List Char} (h : ∀ c ∈ ds, Text.isHexDigit c) :
    (Text.hexNumber? ds).isSome := by
  have fold : ∀ n : Nat,
      (ds.foldlM (fun n c => (Text.hexDigit? c).map (n * 16 + ·)) n).isSome := by
    induction ds with
    | nil => simp
    | cons d ds ih =>
      intro n
      obtain ⟨k, hk⟩ := Option.isSome_iff_exists.1 (h d (by simp))
      simpa [hk] using ih (fun c hc => h c (by simp [hc])) (n * 16 + k)
  exact fold 0

/-- One unit of a quoted text is read as one unit. -/
theorem quoted_glyph (g : Glyph) :
    ∃ u, ∀ cs, quoted (g.chars ++ cs) = (quoted cs).map fun (us, rest) => (u :: us, rest) := by
  cases g with
  | plain c printable unquoted unescaped =>
    refine ⟨.char c, fun cs => ?_⟩
    have hc : ¬ c.toNat < 32 := by omega
    rw [Glyph.chars, List.singleton_append, quoted.eq_5 _ _ unquoted (by simp_all) (by simp_all)]
    cases quoted cs <;> simp [hc, unescaped]
  | escape c known =>
    have hu : c ≠ 'u' := by rintro rfl; simp at known
    obtain ⟨e, he⟩ : ∃ e, simpleEscape? c = some e := by
      simp only [List.mem_cons, List.not_mem_nil, or_false] at known
      rcases known with rfl | rfl | rfl | rfl | rfl | rfl | rfl | rfl <;> exact ⟨_, rfl⟩
    refine ⟨.char e, fun cs => ?_⟩
    rw [Glyph.chars, List.cons_append, List.singleton_append, quoted.eq_4 _ _ (by simp_all), he]
    cases quoted cs <;> rfl
  | code a b c d hex =>
    obtain ⟨n, hn⟩ := Option.isSome_iff_exists.1 (hexNumber?_isSome hex)
    refine ⟨.ofNat n, fun cs => ?_⟩
    simp only [Glyph.chars, List.cons_append, List.nil_append, quoted, hn]
    cases quoted cs <;> rfl

theorem quoted_glyphs (gs : List Glyph) :
    ∃ us, ∀ rest, quoted (gs.flatMap Glyph.chars ++ '"' :: rest) = some (us, rest) := by
  induction gs with
  | nil => exact ⟨[], fun rest => by simp [quoted]⟩
  | cons g gs ih =>
    obtain ⟨us, hus⟩ := ih
    obtain ⟨u, hu⟩ := quoted_glyph g
    exact ⟨u :: us, fun rest => by simp [hu, hus]⟩

theorem text_glyphs (gs : List Glyph) :
    ∃ v, ∀ rest, text (gs.flatMap Glyph.chars ++ '"' :: rest) = some (v, rest) := by
  obtain ⟨us, hus⟩ := quoted_glyphs gs
  exact ⟨(joinUnits us).map String.ofList, fun rest => by simp [text, hus]⟩

/-- What can follow a value: nothing, a gap, or a token that goes on or closes. -/
def Ends (rest : List Char) : Prop :=
  ∀ c ∈ rest.head?, isGap c ∨ c = ',' ∨ c = '\x7d' ∨ c = ']'

theorem Ends.head_ne {rest : List Char} (h : Ends rest) {c : Char} (hc : c ∈ rest.head?) :
    c.isDigit = false ∧ c ≠ '.' ∧ c ≠ 'e' ∧ c ≠ 'E' := by
  have := h c hc
  simp only [isGap, Bool.or_eq_true, decide_eq_true_eq] at this
  rcases this with (((rfl | rfl) | rfl) | rfl) | rfl | rfl | rfl <;> decide

theorem Ends.blank {g : List Char} (hg : Blank g) : Ends g :=
  fun c hc => .inl (hg c (List.mem_of_mem_head? hc))

theorem Ends.append {g cs : List Char} (hg : Blank g) (h : Ends cs) : Ends (g ++ cs) := by
  cases g with
  | nil => exact h
  | cons c g =>
    intro d hd
    obtain rfl : c = d := by simpa using hd
    exact .inl (hg c (by simp))

theorem digits_append (d : Digits) {rest : List Char} (h : ∀ c ∈ rest.head?, c.isDigit = false) :
    digits (d.chars ++ rest) = some (d.chars, rest) := by
  have none : rest.takeWhile Char.isDigit = [] ∧ rest.dropWhile Char.isDigit = rest := by
    cases rest with
    | nil => simp
    | cons c rest => simp [h c (by simp)]
  have taken : (d.chars ++ rest).takeWhile Char.isDigit = d.chars := by
    rw [List.takeWhile_append_of_pos d.areDigits, none.1, List.append_nil]
  have left : (d.chars ++ rest).dropWhile Char.isDigit = rest := by
    rw [List.dropWhile_append_of_pos d.areDigits, none.2]
  simp only [digits, taken, left]
  cases hd : d.chars with
  | nil => exact absurd hd d.nonempty
  | cons => rfl

/-- What can follow the digits after a point. -/
theorem Numeral.head_powerChars (n : Numeral) {rest : List Char} (h : Ends rest) {c : Char}
    (hc : c ∈ (n.powerChars ++ rest).head?) : c.isDigit = false ∧ c ≠ '.' := by
  cases hp : n.power? with
  | none =>
    have hc : c ∈ rest.head? := by simpa [powerChars, hp] using hc
    exact ⟨(h.head_ne hc).1, (h.head_ne hc).2.1⟩
  | some p =>
    obtain rfl : (if p.capital then 'E' else 'e') = c := by
      simpa [powerChars, hp, Power.chars] using hc
    cases p.capital <;> decide

/-- What can follow the digits before a point. -/
theorem Numeral.head_fractionChars (n : Numeral) {rest : List Char} (h : Ends rest) {c : Char}
    (hc : c ∈ (n.fractionChars ++ (n.powerChars ++ rest)).head?) : c.isDigit = false := by
  cases hf : n.fraction? with
  | none => exact (n.head_powerChars h (by simpa [fractionChars, hf] using hc)).1
  | some d =>
    obtain rfl : '.' = c := by simpa [fractionChars, hf] using hc
    decide

theorem fraction_append (n : Numeral) :
    ∃ ds, ∀ rest, Ends rest →
      fraction (n.fractionChars ++ (n.powerChars ++ rest)) = some (ds, n.powerChars ++ rest) := by
  cases hf : n.fraction? with
  | none =>
    refine ⟨[], fun rest h => ?_⟩
    rw [Numeral.fractionChars, hf]
    refine fraction.eq_2 _ fun cs (hcs : n.powerChars ++ rest = '.' :: cs) => ?_
    exact (n.head_powerChars h (by rw [hcs]; rfl)).2 rfl
  | some d =>
    refine ⟨d.chars, fun rest h => ?_⟩
    rw [Numeral.fractionChars, hf]
    exact digits_append d fun c hc => (n.head_powerChars h hc).1

theorem exponent_power (p : Power) :
    ∃ e, ∀ rest, Ends rest → exponent (p.chars ++ rest) = some (e, rest) := by
  obtain ⟨c, cs, hcs, hc⟩ := p.digits.exists_cons
  have read : ∀ rest, Ends rest → digits (p.digits.chars ++ rest) = some (p.digits.chars, rest) :=
    fun rest h => digits_append p.digits fun c hc => (h.head_ne hc).1
  have letter : ((if p.capital then 'E' else 'e') = 'e' ||
      (if p.capital then 'E' else 'e') = 'E') = true := by
    cases p.capital <;> decide
  cases hp : p.negative? with
  | none =>
    refine ⟨ofDigits p.digits.chars, fun rest h => ?_⟩
    have hm : c ≠ '-' ∧ c ≠ '+' := by constructor <;> rintro rfl <;> simp at hc
    have digits := read rest h
    rw [hcs, List.cons_append] at digits
    simp only [Power.chars, Power.sign, hp, hcs, List.nil_append, List.cons_append, exponent,
      letter, if_true]
    split <;> simp_all
  | some negative =>
    cases negative with
    | true =>
      refine ⟨-(ofDigits p.digits.chars : Int), fun rest h => ?_⟩
      simp [Power.chars, Power.sign, hp, exponent, read rest h]
    | false =>
      refine ⟨ofDigits p.digits.chars, fun rest h => ?_⟩
      simp [Power.chars, Power.sign, hp, exponent, read rest h]

theorem exponent_append (n : Numeral) :
    ∃ e, ∀ rest, Ends rest → exponent (n.powerChars ++ rest) = some (e, rest) := by
  cases hp : n.power? with
  | some p => simpa [Numeral.powerChars, hp] using exponent_power p
  | none =>
    refine ⟨0, fun rest h => ?_⟩
    cases rest with
    | nil => simp [Numeral.powerChars, hp, exponent]
    | cons c rest =>
      have hc := h.head_ne (c := c) (by simp)
      simp [Numeral.powerChars, hp, exponent, hc]

theorem unsigned_append (n : Numeral) :
    ∃ fits, ∀ rest, Ends rest → unsigned (n.unsignedChars ++ rest) = some (fits, rest) := by
  obtain ⟨ds, hds⟩ := fraction_append n
  obtain ⟨e, he⟩ := exponent_append n
  refine ⟨fitsDouble (n.whole.chars ++ ds) (e - ds.length), fun rest h => ?_⟩
  have whole : digits (n.unsignedChars ++ rest) =
      some (n.whole.chars, n.fractionChars ++ (n.powerChars ++ rest)) := by
    rw [Numeral.unsignedChars, List.append_assoc, List.append_assoc]
    exact digits_append n.whole fun c hc => n.head_fractionChars h hc
  have unpadded : ¬ (n.whole.chars.head? = some '0' ∧ n.whole.chars.length > 1) := by
    rintro ⟨zero, long⟩
    simp [n.unpadded zero] at long
  simp only [unsigned, whole, Option.bind_eq_bind, Option.bind_some, if_neg unpadded, hds rest h,
    he rest h]
  rfl

end BarrelAlias.Config.Json
