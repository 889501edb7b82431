import BarrelAlias.Proofs.AsciiName
import BarrelAlias.Proofs.Quoted
import BarrelAlias.Script.Program

/-!
Parsers that take a text. What a parser makes of a text does not depend on the byte where the text
begins, so that texts are read from token to token: a token is taken off the text ahead, and the next
parser stands before the rest.
-/

namespace BarrelAlias.Script

open Text (isAsciiName isIdentifierStart isNamePart isNameStart)

/-- A gap is skipped alike wherever it begins. -/
theorem skipGap_add (marks : Bool) (zone : GapZone) (newline : Bool) (n m : Nat) (cs : List Char) :
    skipGap marks zone newline (n + m) cs =
      (skipGap marks zone newline m cs).map fun g => { g with bytes := n + g.bytes } := by
  fun_induction skipGap marks zone newline m cs with
  | case1 => rfl
  | case2 | case3 => rfl
  | case4 star newline m c cs hc ih => rw [skipGap, if_pos hc, Nat.add_assoc, ih]
  | case5 star newline m c cs hc ih => rw [skipGap, if_neg hc, Nat.add_assoc, ih]
  | case6 newline m c cs hc ih => rw [skipGap, if_pos hc, Nat.add_assoc, ih]
  | case7 newline m c cs hc ih => rw [skipGap, if_neg hc, Nat.add_assoc, ih]
  | case8 newline m cs ih => rw [skipGap, Nat.add_assoc, ih]
  | case9 newline m cs ih => rw [skipGap, Nat.add_assoc, ih]
  | case10 newline m cs hm ih => rw [skipGap, if_pos hm, Nat.add_assoc, ih]
  | case11 newline m cs hm => rw [skipGap, if_neg hm]; rfl
  | case12 newline m cs hm ih => rw [skipGap, if_pos hm, Nat.add_assoc, ih]
  | case13 newline m cs hm => rw [skipGap, if_neg hm]; rfl
  | case14 newline m c cs h₁ h₂ h₃ h₄ hc ih =>
    rw [skipGap, if_pos hc, Nat.add_assoc, ih] <;> assumption
  | case15 newline m c cs h₁ h₂ h₃ h₄ hc hs ih =>
    rw [skipGap, if_neg hc, if_pos hs, Nat.add_assoc, ih] <;> assumption
  | case16 newline m c cs h₁ h₂ h₃ h₄ hc hs =>
    rw [skipGap, if_neg hc, if_neg hs] <;> first | assumption | rfl

/-- The text begins with this token, and this follows it, wherever the text stands. -/
def Lexes (cs : List Char) (t : Token) (rest : List Char) : Prop :=
  ∀ marks start newline, ∃ l, nextLexeme marks start newline cs = some l ∧ l.token = t ∧
    l.rest = rest

theorem nextLexeme_of_skipGap {marks newline newline' : Bool} {start n : Nat} {cs ds : List Char}
    (h : skipGap marks .blank newline 0 cs = skipGap marks .blank newline' n ds) :
    nextLexeme marks start newline cs = nextLexeme marks (start + n) newline' ds := by
  rw [← Nat.add_zero n, skipGap_add] at h
  unfold nextLexeme
  rw [h]
  cases skipGap marks .blank newline' 0 ds with
  | none => rfl
  | some gap => simp [Nat.add_assoc]

theorem Lexes.space {cs rest : List Char} {t : Token} (h : Lexes cs t rest) :
    Lexes (' ' :: cs) t rest := by
  intro marks start newline
  have hskip : skipGap marks .blank newline 0 (' ' :: cs) = skipGap marks .blank newline 1 cs := rfl
  rw [nextLexeme_of_skipGap hskip]
  exact h marks (start + 1) newline

theorem Lexes.line {cs rest : List Char} {t : Token} (h : Lexes cs t rest) :
    Lexes ('\n' :: cs) t rest := by
  intro marks start newline
  have hskip : skipGap marks .blank newline 0 ('\n' :: cs) = skipGap marks .blank true 1 cs := rfl
  rw [nextLexeme_of_skipGap hskip]
  exact h marks (start + 1) true

/-- A character that no gap begins with. -/
def opensToken (c : Char) : Bool :=
  !isLineBreak c && !isSpace c && c ≠ '/' && c ≠ '<' && c ≠ '-'

theorem skipGap_of_opensToken {c : Char} (h : opensToken c) (marks newline : Bool) (n : Nat)
    (cs : List Char) : skipGap marks .blank newline n (c :: cs) = some ⟨newline, n, c :: cs⟩ := by
  simp only [opensToken, Bool.and_eq_true, Bool.not_eq_true', decide_eq_true_eq] at h
  obtain ⟨⟨⟨⟨hbreak, hspace⟩, hslash⟩, hangle⟩, hdash⟩ := h
  rw [skipGap]
  · simp [hbreak, hspace]
  · rintro ds rfl
    exact absurd rfl hslash
  · rintro ds rfl
    exact absurd rfl hslash
  · rintro ds rfl
    exact absurd rfl hangle
  · rintro ds rfl
    exact absurd rfl hdash

theorem lexes_of_scan {c : Char} (hc : opensToken c) {cs taken rest : List Char} {t : Token}
    (h : scanToken (c :: cs) = some ⟨t, taken, rest⟩) : Lexes (c :: cs) t rest := by
  intro marks start newline
  unfold nextLexeme
  rw [skipGap_of_opensToken hc]
  simp [h]

/-- No name goes on with this text. -/
def EndsWord (rest : List Char) : Prop :=
  ∀ c ∈ rest.head?, ¬ Text.isIdentifierPart c ∧ c ≠ '\\'

theorem isIdentifierPart_of_isNamePart {c : Char} (h : isNamePart c) : Text.isIdentifierPart c := by
  rw [Text.isIdentifierPart, if_pos (Text.toNat_lt_of_isNamePart h)]
  exact h

theorem isIdentifierStart_of_isNameStart {c : Char} (h : isNameStart c) :
    Text.isIdentifierStart c := by
  rw [Text.isIdentifierStart,
    if_pos (Text.toNat_lt_of_isNamePart (Text.isNamePart_of_isNameStart h))]
  exact h

/-- A word without escapes ends where no name goes on. -/
theorem scanWord_of_parts {c : Char} {cs rest : List Char} (hc : Text.isIdentifierStart c)
    (hall : ∀ d ∈ c :: cs, Text.isIdentifierPart d) (hrest : EndsWord rest) :
    scanWord (c :: cs ++ rest) = some (String.ofList (c :: cs), false, c :: cs, rest) := by
  have hnone : rest.takeWhile Text.isIdentifierPart = [] := by
    cases rest with
    | nil => rfl
    | cons c cs => simp [(hrest c rfl).1]
  have htake : (c :: cs ++ rest).takeWhile Text.isIdentifierPart = c :: cs := by
    rw [List.takeWhile_append_of_pos hall, hnone, List.append_nil]
  have hdrop : (c :: cs ++ rest).dropWhile Text.isIdentifierPart = rest := by
    have hsplit := List.takeWhile_append_dropWhile (p := Text.isIdentifierPart) (l := c :: cs ++ rest)
    rw [htake] at hsplit
    exact List.append_cancel_left hsplit
  have hslash : rest.head? ≠ some '\\' := fun e => (hrest '\\' e).2 rfl
  unfold scanWord
  rw [htake, hdrop]
  simp [hslash, hc]

theorem scanWord_of_isAsciiName {w : String} (h : isAsciiName w) {rest : List Char}
    (hrest : EndsWord rest) :
    scanWord (w.toList ++ rest) = some (w, false, w.toList, rest) := by
  obtain ⟨⟨c, cs, hcs, hc⟩, hparts⟩ := Text.isAsciiName_iff.mp h
  have hall : ∀ d ∈ c :: cs, Text.isIdentifierPart d := by
    intro d hd
    exact isIdentifierPart_of_isNamePart (hparts d (hcs ▸ hd))
  have hw : String.ofList (c :: cs) = w := by rw [← hcs, String.ofList_toList]
  rw [hcs, scanWord_of_parts (isIdentifierStart_of_isNameStart hc) hall hrest, hw]

theorem not_isDigit_of_isIdentifierStart {c : Char} (h : isIdentifierStart c) : ¬ c.isDigit := by
  intro hdigit
  have hbounds : 48 ≤ c.toNat ∧ c.toNat ≤ 57 := by
    simpa [Char.isDigit, UInt32.le_iff_toNat_le] using hdigit
  have hnone : ∀ n < 10, isIdentifierStart (Char.ofNat (48 + n)) = false := by decide
  have hc : c = Char.ofNat (48 + (c.toNat - 48)) := by
    rw [Nat.add_sub_cancel' hbounds.1, Char.ofNat_toNat]
  rw [hc, hnone _ (by omega)] at h
  cases h

/-- A word begins with a character that names begin with, or with an escape. -/
theorem scanWord_start {cs taken rest : List Char} {w : String} {escaped : Bool}
    (h : scanWord cs = some (w, escaped, taken, rest)) :
    ∃ c more, taken = c :: more ∧ (isIdentifierStart c ∨ c = '\\') := by
  simp only [scanWord] at h
  split at h
  · obtain ⟨⟨name, taken, rest⟩, hword, h⟩ := Option.bind_eq_some_iff.mp h
    cases h
    unfold wordRest at hword
    split at hword
    · obtain ⟨⟨n, code, mid⟩, _, hword⟩ := Option.bind_eq_some_iff.mp hword
      obtain ⟨_, hword⟩ := Option.ite_none_right_eq_some.mp hword
      obtain ⟨_, _, hword⟩ := Option.bind_eq_some_iff.mp hword
      cases hword
      exact ⟨_, _, rfl, .inr rfl⟩
    · cases hword
    · simp only [if_pos] at hword
      obtain ⟨hc, hword⟩ := Option.ite_none_right_eq_some.mp hword
      obtain ⟨_, _, hword⟩ := Option.bind_eq_some_iff.mp hword
      cases hword
      exact ⟨_, _, rfl, .inl hc⟩
    · cases hword
  · split at h
    · obtain ⟨hc, h⟩ := Option.ite_none_right_eq_some.mp h
      cases h
      exact ⟨_, _, ‹_›, .inl hc⟩
    · cases h

theorem scanToken_of_scanWord {cs taken rest : List Char} {w : String} {escaped : Bool}
    (h : scanWord cs = some (w, escaped, taken, rest)) :
    scanToken cs = some ⟨.word w escaped, taken, rest⟩ := by
  obtain ⟨c, more, rfl, hc⟩ := scanWord_start h
  have hother : ∀ d, isIdentifierStart d = false → d ≠ '\\' → c ≠ d := by
    rintro d hd hslash rfl
    rcases hc with hc | hc
    · rw [hc] at hd
      cases hd
    · exact hslash hc
  have hdigit : c.isDigit = false := by
    rcases hc with hc | rfl
    · simpa using not_isDigit_of_isIdentifierStart hc
    · decide
  have hcs : cs = c :: (more ++ rest) := (scanWord_split h).symm
  subst hcs
  rw [scanToken]
  · simp [hother '"' (by decide) (by decide), hother '\x27' (by decide) (by decide),
      hother '\x60' (by decide) (by decide), hdigit, hc, h]
  · exact hother '#' (by decide) (by decide)
  · exact fun _ _ hdot _ => hother '.' (by decide) (by decide) hdot

theorem opensToken_of_isNameStart {c : Char} (hc : isNameStart c) : opensToken c :=
  Text.of_isNamePart (P := fun c => isNameStart c → opensToken c) (Text.isNamePart_of_isNameStart hc)
    (by decide +kernel) hc

theorem lexes_word {w : String} (h : isAsciiName w) {rest : List Char} (hrest : EndsWord rest) :
    Lexes (w.toList ++ rest) (.word w false) rest := by
  have hword := scanWord_of_isAsciiName h hrest
  obtain ⟨⟨c, cs, hcs, hc⟩, _⟩ := Text.isAsciiName_iff.mp h
  rw [hcs, List.cons_append] at hword ⊢
  exact lexes_of_scan (opensToken_of_isNameStart hc) (scanToken_of_scanWord hword)

/-- The symbols of an export list. -/
theorem lexes_symbol {c : Char} {s : String} (rest : List Char)
    (h : (c, s) ∈ [('\x7b', braceOpen), ('\x7d', braceClose), (',', ","), (';', ";")]) :
    Lexes (c :: rest) (.symbol s) rest := by
  simp only [List.mem_cons, Prod.mk.injEq, List.not_mem_nil, or_false] at h
  rcases h with ⟨rfl, rfl⟩ | ⟨rfl, rfl⟩ | ⟨rfl, rfl⟩ | ⟨rfl, rfl⟩
  all_goals exact lexes_of_scan (by decide) rfl

theorem lexes_quote (q : QuoteStyle) {text : String} (h : q.Holds text) (rest : List Char) :
    ∃ whole, Lexes ((q.quote text).toList ++ rest) (.quoted text whole) rest := by
  obtain ⟨whole, hscan⟩ := (q.scanToken_quote_iff text rest).mpr h
  refine ⟨whole, ?_⟩
  rw [q.toList_quote, List.cons_append] at hscan ⊢
  exact lexes_of_scan (by cases q <;> decide) hscan

section Accepts

variable {α β : Type} {ctx : Context} {p : Parser α} {f : α → Parser β} {cs mid rest : List Char}
  {Q : α → Prop} {R : β → Prop}

/-- Before the text `cs`, wherever it stands, the parser returns something of this kind and goes on to
`rest`. -/
def Accepts (ctx : Context) (p : Parser α) (cs : List Char) (Q : α → Prop) (rest : List Char) :
    Prop :=
  ∀ start newline, ∃ a next, p ctx (.at ctx.marks start newline cs) = some (a, next) ∧ Q a ∧
    ∃ stop newline', next.val = .at ctx.marks stop newline' rest

theorem accepts_pure {a : α} (h : Q a) : Accepts ctx (pure a) cs Q cs :=
  fun start newline => ⟨a, _, rfl, h, start, newline, rfl⟩

theorem Accepts.bind (hp : Accepts ctx p cs Q mid)
    (hf : ∀ a, Q a → Accepts ctx (f a) mid R rest) : Accepts ctx (p >>= f) cs R rest := by
  intro start newline
  obtain ⟨a, ⟨d, hd⟩, hrun, ha, stop, newline', rfl⟩ := hp start newline
  obtain ⟨b, ⟨e, he⟩, hrun', hb, hlast⟩ := hf a ha stop newline'
  refine ⟨b, ⟨e, hd.trans he⟩, ?_, hb, hlast⟩
  dsimp only [Bind.bind]
  simp only [hrun, hrun']

theorem Accepts.imp {Q' : α → Prop} (hp : Accepts ctx p cs Q rest) (h : ∀ a, Q a → Q' a) :
    Accepts ctx p cs Q' rest := by
  intro start newline
  obtain ⟨a, next, hrun, ha, hnext⟩ := hp start newline
  exact ⟨a, next, hrun, h a ha, hnext⟩

end Accepts

section Tokens

variable {ctx : Context} {cs rest : List Char} {t t' : Token}

theorem accepts_read : Accepts ctx read cs (· = ctx) cs :=
  fun start newline => ⟨ctx, _, rfl, rfl, start, newline, rfl⟩

theorem accepts_peek (h : Lexes cs t rest) : Accepts ctx peek cs (·.token = t) cs := by
  intro start newline
  obtain ⟨l, hl, ht, _⟩ := h ctx.marks start newline
  have hahead : (Cursor.at ctx.marks start newline cs).ahead = some l := hl
  exact ⟨l, Cursor.here _, by rw [peek, hahead]; rfl, ht, start, newline, rfl⟩

theorem accepts_advance (h : Lexes cs t rest) : Accepts ctx advance cs (·.token = t) rest := by
  intro start newline
  obtain ⟨l, hl, ht, rfl⟩ := h ctx.marks start newline
  have hahead : (Cursor.at ctx.marks start newline cs).ahead = some l := hl
  unfold advance
  split
  · next l' hl' =>
    cases hahead.symm.trans hl'
    exact ⟨l, _, rfl, ht, l.span.stop, false, rfl⟩
  · next hnone => cases hahead.symm.trans hnone

theorem accepts_atToken (h : Lexes cs t rest) (t' : Token) :
    Accepts ctx (atToken t') cs (· = decide (t = t')) cs :=
  (accepts_peek h).bind fun l hl => accepts_pure (by rw [hl])

/-- The token that is asked for is taken. -/
theorem accepts_eatToken (h : Lexes cs t rest) : Accepts ctx (eatToken t) cs (· = true) rest := by
  refine (accepts_atToken h t).bind ?_
  rintro _ rfl
  rw [decide_eq_true rfl, if_pos rfl]
  exact (accepts_advance h).bind fun _ _ => accepts_pure rfl

/-- Another token is not. -/
theorem accepts_eatToken_ne (h : Lexes cs t rest) (hne : t ≠ t') :
    Accepts ctx (eatToken t') cs (· = false) cs := by
  refine (accepts_atToken h t').bind ?_
  rintro _ rfl
  rw [decide_eq_false hne]
  exact accepts_pure rfl

theorem accepts_expectToken (h : Lexes cs t rest) :
    Accepts ctx (expectToken t) cs (fun _ => True) rest := by
  refine (accepts_eatToken h).bind ?_
  rintro _ rfl
  exact accepts_pure trivial

end Tokens

section CommaList

variable {α : Type} {ctx : Context} {close : String} {item : Parser α} {fuel : Nat}
  {cs mid mid' rest : List Char} {t : Token} {Q : α → Prop} {R : List α → Prop}

/-- The last item of a list stands before the symbol that closes it. -/
theorem accepts_commaList_last (hfirst : Lexes cs t mid') (ht : t ≠ .symbol close)
    (hitem : Accepts ctx item cs Q mid) (hclose : Lexes mid (.symbol close) rest)
    (hcomma : close ≠ ",") :
    Accepts ctx (commaList close item (fuel + 1)) cs (fun as => ∃ a, as = [a] ∧ Q a) rest := by
  refine Accepts.bind (accepts_eatToken_ne hfirst ht) ?_
  rintro _ rfl
  refine hitem.bind fun a ha => Accepts.bind (accepts_eatToken_ne hclose (by simpa using hcomma)) ?_
  rintro _ rfl
  exact Accepts.bind (accepts_expectToken hclose) fun _ _ => accepts_pure ⟨a, rfl, ha⟩

/-- An item before a comma is followed by what the rest of the list holds. -/
theorem accepts_commaList_cons (hfirst : Lexes cs t mid') (ht : t ≠ .symbol close)
    {next : List Char} (hitem : Accepts ctx item cs Q mid) (hcomma : Lexes mid (.symbol ",") next)
    (hrest : Accepts ctx (commaList close item fuel) next R rest) :
    Accepts ctx (commaList close item (fuel + 1)) cs (fun as => ∃ a as', as = a :: as' ∧ Q a ∧ R as')
      rest := by
  refine Accepts.bind (accepts_eatToken_ne hfirst ht) ?_
  rintro _ rfl
  refine hitem.bind fun a ha => Accepts.bind (accepts_eatToken hcomma) ?_
  rintro _ rfl
  exact hrest.bind fun as has => accepts_pure ⟨a, as, rfl, ha, has⟩

end CommaList

end BarrelAlias.Script
