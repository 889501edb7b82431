import BarrelAlias.Proofs.Accepting

/-!
Tokens and what follows them. The tokens that statements about modules are made of depend on no more than
the first character after them: a word ends before a character that names cannot hold, and a star stands
alone before one that makes no longer symbol. So they are read again wherever the text before that
character stands again.
-/

namespace BarrelAlias.Script

open Text (byteLength isIdentifierPart isIdentifierStart isHexDigit)

/-- The texts go on with the same character, or with a quote each. -/
def SameHead (cs ds : List Char) : Prop :=
  cs.head? = ds.head? ∨
    (∃ c ∈ cs.head?, c = '"' ∨ c = '\x27') ∧ ∃ d ∈ ds.head?, d = '"' ∨ d = '\x27'

theorem sameHead_refl (cs : List Char) : SameHead cs cs := .inl rfl

theorem SameHead.append {cs ds : List Char} (h : SameHead cs ds) (piece : List Char) :
    SameHead (piece ++ cs) (piece ++ ds) := by
  cases piece with
  | nil => exact h
  | cons c piece => exact .inl rfl

/-- What holds of no quote and fails for the first character of one text fails for that of the other. -/
theorem SameHead.forall {cs ds : List Char} (h : SameHead cs ds) {P : Char → Prop}
    (hquote : ∀ c, c = '"' ∨ c = '\x27' → P c) (hcs : ∀ c ∈ cs.head?, P c) : ∀ d ∈ ds.head?, P d := by
  intro d hd
  rcases h with hsame | ⟨_, d', hd', hquote'⟩
  · exact hcs d (hsame ▸ hd)
  · cases hd.symm.trans hd'
    exact hquote d hquote'

theorem EndsWord.of_sameHead {cs ds : List Char} (h : EndsWord cs) (hsame : SameHead cs ds) :
    EndsWord ds := by
  apply hsame.forall _ h
  rintro c (rfl | rfl) <;> decide

theorem of_mem_takeWhile {p : Char → Bool} {cs : List Char} {c : Char} (h : c ∈ cs.takeWhile p) :
    p c = true := List.all_eq_true.mp List.all_takeWhile c h

section Words

variable {cs taken rest rest' : List Char} {name : List Char}

theorem wordEscape_moved {n : Nat} (h : wordEscape cs = some (n, taken, rest)) (rest' : List Char) :
    wordEscape (taken ++ rest') = some (n, taken, rest') := by
  unfold wordEscape at h
  split at h
  · next cs =>
    obtain ⟨n, hn, h⟩ := Option.bind_eq_some_iff.mp h
    have hall : ∀ c ∈ cs.takeWhile isHexDigit, isHexDigit c = true := fun _ => of_mem_takeWhile
    split at h
    · split at h
      · cases h
      · next hempty =>
        cases h
        have htake : (cs.takeWhile isHexDigit ++ '\x7d' :: rest').takeWhile isHexDigit =
            cs.takeWhile isHexDigit := by
          rw [List.takeWhile_append_of_pos hall, List.takeWhile_cons_of_neg (by decide),
            List.append_nil]
        have hdrop : (cs.takeWhile isHexDigit ++ '\x7d' :: rest').dropWhile isHexDigit =
            '\x7d' :: rest' := by
          rw [List.dropWhile_append_of_pos hall, List.dropWhile_cons_of_neg (by decide)]
        rw [List.cons_append, List.cons_append, List.append_assoc, List.singleton_append, wordEscape,
          htake, hdrop, hn]
        exact if_neg hempty
    · cases h
  · next hbrace =>
    obtain ⟨n, hn, h⟩ := Option.bind_eq_some_iff.mp h
    cases h
    simp only [List.cons_append, List.nil_append]
    rw [wordEscape]
    · simp [hn]
    · exact hbrace
  · cases h

theorem wordRest_of_endsWord {fuel : Nat} {isFirst : Bool} (hfirst : ¬ isFirst) (h : EndsWord cs)
    (hfuel : 0 < fuel) : wordRest fuel isFirst cs = some ([], [], cs) := by
  obtain ⟨fuel, rfl⟩ : ∃ n, fuel = n + 1 := ⟨fuel - 1, by omega⟩
  rw [Bool.not_eq_true] at hfirst
  subst hfirst
  cases cs with
  | nil => rfl
  | cons c cs =>
    obtain ⟨hpart, hslash⟩ := h c rfl
    rw [wordRest]
    · simp [hpart]
    · rintro cs rfl
      exact absurd rfl hslash
    · exact hslash

/-- The rest of a word ends before a character that names cannot hold, and is read again before any such
character, with fuel for its own length. -/
theorem wordRest_moved {fuel : Nat} {isFirst : Bool}
    (h : wordRest fuel isFirst cs = some (name, taken, rest)) :
    EndsWord rest ∧ ∀ rest', EndsWord rest' → ∀ fuel', taken.length < fuel' →
      wordRest fuel' isFirst (taken ++ rest') = some (name, taken, rest') := by
  fun_induction wordRest fuel isFirst cs generalizing name taken rest with
  | case1 | case3 | case5 | case7 => cases h
  | case2 fuel isFirst cs ih =>
    obtain ⟨⟨n, code, mid⟩, hcode, h⟩ := Option.bind_eq_some_iff.mp h
    obtain ⟨hpart, h⟩ := Option.ite_none_right_eq_some.mp h
    obtain ⟨⟨name, more, rest⟩, hmore, h⟩ := Option.bind_eq_some_iff.mp h
    cases h
    obtain ⟨hends, ih⟩ := ih mid hmore
    refine ⟨hends, fun rest' hrest fuel' hfuel => ?_⟩
    obtain ⟨fuel', rfl⟩ : ∃ n, fuel' = n + 1 := ⟨fuel' - 1, by omega⟩
    have hless : more.length < fuel' := by
      simp only [List.cons_append, List.length_cons, List.length_append] at hfuel
      omega
    simp only [List.cons_append, List.append_assoc]
    rw [wordRest, wordEscape_moved hcode]
    simp only [Option.bind_eq_bind, Option.bind_some, ih rest' hrest fuel' hless]
    exact if_pos hpart
  | case4 fuel isFirst c cs _ hslash hpart ih =>
    obtain ⟨⟨name, more, rest⟩, hmore, h⟩ := Option.bind_eq_some_iff.mp h
    cases h
    obtain ⟨hends, ih⟩ := ih hmore
    refine ⟨hends, fun rest' hrest fuel' hfuel => ?_⟩
    obtain ⟨fuel', rfl⟩ : ∃ n, fuel' = n + 1 := ⟨fuel' - 1, by omega⟩
    have hless : more.length < fuel' := by
      rw [List.length_cons] at hfuel
      omega
    rw [List.cons_append, wordRest]
    · simp [hpart, ih rest' hrest fuel' hless]
    · rintro cs rfl
      exact absurd rfl hslash
    · exact hslash
  | case6 fuel isFirst c cs _ hslash hpart hfirst =>
    cases h
    have hends : EndsWord (c :: cs) := by
      rintro _ ⟨⟩
      exact ⟨by simpa [hfirst] using hpart, hslash⟩
    exact ⟨hends, fun rest' hrest fuel' hfuel => wordRest_of_endsWord hfirst hrest hfuel⟩
  | case8 fuel isFirst hfirst =>
    cases h
    exact ⟨by rintro _ ⟨⟩, fun rest' hrest fuel' hfuel => wordRest_of_endsWord hfirst hrest hfuel⟩

/-- Where an escape stands before the end of a word, it stands in the word. -/
theorem dropWhile_moved {p : Char → Bool} (h : ((taken ++ rest).dropWhile p).head? = some '\\')
    (hrest : rest.head? ≠ some '\\') (hp : ∀ c ∈ rest.head?, ¬ p c) (rest' : List Char) :
    ((taken ++ rest').dropWhile p).head? = some '\\' := by
  have hstay : rest.dropWhile p = rest := by
    cases rest with
    | nil => rfl
    | cons c cs => exact List.dropWhile_cons_of_neg (hp c rfl)
  rw [List.dropWhile_append] at h ⊢
  cases hdrop : taken.dropWhile p with
  | nil =>
    rw [hdrop, hstay] at h
    exact absurd h hrest
  | cons c cs =>
    rw [hdrop] at h
    exact h

/-- A word ends where no name goes on, and is read again before any such text. -/
theorem scanWord_moved {word : String} {escaped : Bool}
    (h : scanWord cs = some (word, escaped, taken, rest)) :
    EndsWord rest ∧ ∀ rest', EndsWord rest' →
      scanWord (taken ++ rest') = some (word, escaped, taken, rest') := by
  simp only [scanWord] at h
  split at h
  · next hslash =>
    obtain ⟨⟨name, taken, rest⟩, hword, h⟩ := Option.bind_eq_some_iff.mp h
    cases h
    obtain ⟨hends, hmoved⟩ := wordRest_moved hword
    refine ⟨hends, fun rest' hrest => ?_⟩
    rw [← wordRest_split hword] at hslash
    have hslash' := dropWhile_moved hslash (fun e => (hends _ e).2 rfl) (fun c hc => (hends c hc).1)
      rest'
    have hagain := hmoved rest' hrest ((taken ++ rest').length + 1)
      (by rw [List.length_append]; omega)
    unfold scanWord
    rw [if_pos hslash', hagain]
    rfl
  · next hslash =>
    split at h
    · next c plain hplain =>
      obtain ⟨hc, h⟩ := Option.ite_none_right_eq_some.mp h
      cases h
      rw [hplain]
      refine ⟨fun d hd => ⟨?_, ?_⟩, fun rest' hrest => ?_⟩
      · have hfirst := List.head?_dropWhile_not isIdentifierPart cs
        rw [hd] at hfirst
        simpa using hfirst
      · rintro rfl
        exact hslash hd
      · apply scanWord_of_parts hc _ hrest
        intro d hd
        exact of_mem_takeWhile (hplain ▸ hd)
    · cases h

end Words

/-- The tokens that statements about modules are made of: words, quoted texts and a few symbols. -/
def Token.isSettled : Token → Bool
  | .word _ _ => true
  | .quoted _ _ => true
  | .symbol s => s ∈ ["*", braceOpen, braceClose, ",", ":", ";"]
  | _ => false

theorem token_scanNumber {cs : List Char} {s : Scan} (h : scanNumber cs = some s) :
    s.token = .number := by
  obtain ⟨⟨taken, rest⟩, _, h⟩ := Option.bind_eq_some_iff.mp h
  dsimp only at h
  split at h
  · split at h <;> cases h
    rfl
  · cases h
    rfl

/-- A symbol is read where it is spelled. -/
theorem token_scanSymbol {cs : List Char} {s : Scan} (h : scanSymbol cs = some s) :
    s.token = .symbol (String.ofList s.taken) := by
  unfold scanSymbol at h
  split at h
  · split at h <;> cases h <;> rfl
  · obtain ⟨⟨as, text⟩, hmem, has⟩ := List.exists_of_findSome?_eq_some h
    obtain ⟨rest, _, rfl⟩ := Option.map_eq_some_iff.mp has
    obtain ⟨text, _, heq⟩ := List.mem_map.mp hmem
    cases heq
    rw [String.ofList_toList]

section Settled

variable {cs taken rest rest' : List Char}

theorem scanToken_word {w : String} {escaped : Bool}
    (h : scanToken cs = some ⟨.word w escaped, taken, rest⟩) :
    scanWord cs = some (w, escaped, taken, rest) := by
  unfold scanToken at h
  grind [Option.bind_eq_some_iff, → token_scanNumber, → token_scanSymbol]

theorem scanToken_symbol {s : String} (h : scanToken cs = some ⟨.symbol s, taken, rest⟩) :
    taken = s.toList ∧ cs = s.toList ++ rest := by
  have hsymbol : scanSymbol cs = some ⟨.symbol s, taken, rest⟩ := by
    unfold scanToken at h
    grind [Option.bind_eq_some_iff, → token_scanNumber]
  have htoken : Token.symbol s = .symbol (String.ofList taken) := token_scanSymbol hsymbol
  have htaken : taken = s.toList := by
    rw [Token.symbol.inj htoken, String.toList_ofList]
  exact ⟨htaken, htaken ▸ (scanToken_split h).symm⟩

/-- A star stands alone before a text that begins with neither of these. -/
theorem scanToken_star_iff (rest : List Char) :
    scanToken ('*' :: rest) = some ⟨.symbol "*", ['*'], rest⟩ ↔
      ∀ c ∈ rest.head?, c ≠ '*' ∧ c ≠ '=' := by
  have hstart : isIdentifierStart '*' = false := by decide
  cases rest with
  | nil => exact iff_of_true rfl (by rintro _ ⟨⟩)
  | cons c more =>
    by_cases hstar : '*' = c
    · subst hstar
      cases hprefix : ['='].isPrefixOf? more <;>
        simp [scanToken, scanSymbol, symbolTable, symbols, List.isPrefixOf?, hstart, braceOpen,
          braceClose, hprefix]
    by_cases hsign : '=' = c
    · subst hsign
      simp [scanToken, scanSymbol, symbolTable, symbols, List.isPrefixOf?, hstart, braceOpen,
        braceClose]
    refine iff_of_true ?_ ?_
    · simp [scanToken, scanSymbol, symbolTable, symbols, List.isPrefixOf?, hstart, braceOpen,
        braceClose, hstar, hsign]
    · rintro _ ⟨⟩
      exact ⟨Ne.symm hstar, Ne.symm hsign⟩

/-- A settled token is read again before any text that goes on as the one after it does. -/
theorem scanToken_settled {s : Scan} (h : scanToken cs = some s) (hs : s.token.isSettled)
    (hrest : SameHead s.rest rest') :
    scanToken (s.taken ++ rest') = some ⟨s.token, s.taken, rest'⟩ := by
  obtain ⟨token, taken, rest⟩ := s
  cases token with
  | word w escaped =>
    obtain ⟨hends, hmoved⟩ := scanWord_moved (scanToken_word h)
    exact scanToken_of_scanWord (hmoved rest' (hends.of_sameHead hrest))
  | quoted v whole =>
    rw [← scanToken_split h] at h
    exact scanToken_moved h rest'
  | symbol s =>
    obtain ⟨htaken, hcs⟩ := scanToken_symbol h
    subst htaken hcs
    simp only [Token.isSettled, List.mem_cons, List.not_mem_nil, or_false, decide_eq_true_eq] at hs
    rcases hs with rfl | rfl | rfl | rfl | rfl | rfl
    · apply (scanToken_star_iff rest').mpr
      apply hrest.forall _ ((scanToken_star_iff rest).mp h)
      rintro c (rfl | rfl) <;> decide
    all_goals rfl
  | _ => cases hs

/-- A settled token begins with a character that no comment begins with. -/
theorem settled_start {s : Scan} (h : scanToken cs = some s) (hs : s.token.isSettled) :
    ∃ c more, s.taken = c :: more ∧ c ≠ '/' ∧ c ≠ '<' ∧ c ≠ '-' := by
  obtain ⟨token, taken, rest⟩ := s
  cases token with
  | word w escaped =>
    obtain ⟨c, more, rfl, hc⟩ := scanWord_start (scanToken_word h)
    refine ⟨c, more, rfl, ?_, ?_, ?_⟩
    all_goals
      rintro rfl
      exact absurd hc (by decide)
  | quoted v whole =>
    obtain ⟨quote, more, hquote, rfl⟩ := scanToken_quoted h
    rw [scanToken_mark hquote] at h
    obtain ⟨q, _, h⟩ := Option.bind_eq_some_iff.mp h
    cases h
    exact ⟨quote, q.taken, rfl, by rcases hquote with rfl | rfl <;> decide⟩
  | symbol s =>
    obtain ⟨rfl, _⟩ := scanToken_symbol h
    simp only [Token.isSettled, List.mem_cons, List.not_mem_nil, or_false, decide_eq_true_eq] at hs
    rcases hs with rfl | rfl | rfl | rfl | rfl | rfl
    all_goals exact ⟨_, _, rfl, by decide⟩
  | _ => cases hs

end Settled

section Gaps

variable {marks newline : Bool} {zone : GapZone} {n : Nat} {cs ds : List Char} {gap : Gap} {c : Char}

/-- A gap that ends before a character that no comment begins with ends before a token. -/
theorem opensToken_of_skipGap (h : skipGap marks zone newline n cs = some gap)
    (hrest : gap.rest = c :: ds) (hc : c ≠ '/' ∧ c ≠ '<' ∧ c ≠ '-') : opensToken c := by
  fun_induction skipGap marks zone newline n cs with
  | case1 => cases h
  | case2 | case3 => cases h; cases hrest
  | case4 _ _ _ _ _ _ ih => exact ih h
  | case11 => cases h; cases hrest; exact absurd rfl hc.2.1
  | case13 => cases h; cases hrest; exact absurd rfl hc.2.2
  | case16 newline n d ds _ _ _ _ hbreak hspace =>
    cases h
    cases hrest
    simp [opensToken, hbreak, hspace, hc]
  | _ => rename_i ih; exact ih h

/-- The gap at the start of the text, which ends before this token, is skipped before any other. -/
def GapMoves (marks : Bool) (zone : GapZone) (newline : Bool) (n : Nat) (cs : List Char) (gap : Gap) :
    Prop :=
  ∃ front, cs = front ++ gap.rest ∧ ∀ c ds, opensToken c →
    skipGap marks zone newline n (front ++ c :: ds) = some ⟨gap.newline, gap.bytes, c :: ds⟩

theorem GapMoves.step {zone' : GapZone} {newline' : Bool} {n' : Nat}
    (h : GapMoves marks zone' newline' n' cs gap) (front : List Char)
    (hstep : ∀ tail, skipGap marks zone newline n (front ++ tail) =
      skipGap marks zone' newline' n' tail) :
    GapMoves marks zone newline n (front ++ cs) gap := by
  obtain ⟨front', rfl, hmoved⟩ := h
  refine ⟨front ++ front', by rw [List.append_assoc], fun c ds hc => ?_⟩
  rw [List.append_assoc, hstep, hmoved c ds hc]

theorem skipGap_blank {c : Char} (h : isLineBreak c ∨ isSpace c) (marks newline : Bool) (n : Nat)
    (tail : List Char) :
    skipGap marks .blank newline n (c :: tail) =
      skipGap marks .blank (newline || isLineBreak c) (n + c.utf8Size) tail := by
  have hother : c ≠ '/' ∧ c ≠ '<' ∧ c ≠ '-' := by
    refine ⟨?_, ?_, ?_⟩
    all_goals
      rintro rfl
      exact absurd h (by decide)
  rw [skipGap]
  · cases hbreak : isLineBreak c with
    | true => simp
    | false => simp [h.resolve_left (by simp [hbreak])]
  · exact fun _ hc _ => hother.1 hc
  · exact fun _ hc _ => hother.1 hc
  · exact fun _ hc _ => hother.2.1 hc
  · exact fun _ hc _ => hother.2.2 hc

theorem skipGap_moved (h : skipGap marks zone newline n cs = some gap) (hrest : gap.rest = c :: ds)
    (hc : opensToken c) : GapMoves marks zone newline n cs gap := by
  fun_induction skipGap marks zone newline n cs with
  | case1 => cases h
  | case2 | case3 => cases h; cases hrest
  | case4 star newline n d cs hd ih =>
    exact (ih h).step [d] fun tail => by rw [List.singleton_append, skipGap, if_pos hd]
  | case5 star newline n d cs hd ih =>
    exact (ih h).step [d] fun tail => by rw [List.singleton_append, skipGap, if_neg hd]
  | case6 newline n d cs hd ih =>
    exact (ih h).step [d] fun tail => by rw [List.singleton_append, skipGap, if_pos hd]
  | case7 newline n d cs hd ih =>
    exact (ih h).step [d] fun tail => by rw [List.singleton_append, skipGap, if_neg hd]
  | case8 newline n cs ih => exact (ih h).step ['/', '/'] fun tail => by simp [skipGap]
  | case9 newline n cs ih => exact (ih h).step ['/', '*'] fun tail => by simp [skipGap]
  | case10 newline n cs hmarks ih =>
    exact (ih h).step ['<', '!', '-', '-'] fun tail => by simp [skipGap, hmarks]
  | case11 => cases h; cases hrest; cases hc
  | case12 newline n cs hmarks ih =>
    exact (ih h).step ['-', '-', '>'] fun tail => by simp [skipGap, hmarks]
  | case13 => cases h; cases hrest; cases hc
  | case14 newline n d cs _ _ _ _ hbreak ih =>
    exact (ih h).step [d] fun tail => by
      rw [List.singleton_append, skipGap_blank (.inl hbreak), hbreak, Bool.or_true]
  | case15 newline n d cs _ _ _ _ hbreak hspace ih =>
    exact (ih h).step [d] fun tail => by
      rw [List.singleton_append, skipGap_blank (.inr hspace)]
      simp [hbreak]
  | case16 newline n d cs =>
    cases h
    exact ⟨[], rfl, fun c ds hc => skipGap_of_opensToken hc marks newline n ds⟩

end Gaps

section Lexemes

variable {marks newline : Bool} {n : Nat} {cs : List Char} {l : Lexeme}

/-- The text is a gap, the characters of the token and what follows it; after the gap any other token
is read as well. -/
structure Lexeme.Moves (marks newline : Bool) (n : Nat) (cs : List Char) (l : Lexeme)
    (front taken : List Char) : Prop where
  text : cs = front ++ (taken ++ l.rest)
  source : l.source = taken ++ l.rest
  span : l.span = ⟨n + byteLength front, n + byteLength front + byteLength taken⟩
  scan : scanToken (taken ++ l.rest) = some ⟨l.token, taken, l.rest⟩
  start : ∃ c more, taken = c :: more ∧ opensToken c
  moved : ∀ m c more s, opensToken c → scanToken (c :: more) = some s →
    nextLexeme marks m newline (front ++ c :: more) =
      some ⟨s.token, ⟨m + byteLength front, m + byteLength front + byteLength s.taken⟩, l.newline,
        c :: more, s.rest⟩

theorem Lexeme.exists_moves (h : nextLexeme marks n newline cs = some l) (hl : l.token.isSettled) :
    ∃ front taken, l.Moves marks newline n cs front taken := by
  obtain ⟨gap, hgap, h⟩ := Option.bind_eq_some_iff.mp h
  obtain ⟨s, hs, h⟩ := Option.bind_eq_some_iff.mp h
  cases h
  have hsplit := scanToken_split hs
  obtain ⟨c, more, htaken, hc⟩ := settled_start hs hl
  have hrest : gap.rest = c :: (more ++ s.rest) := by rw [← hsplit, htaken, List.cons_append]
  have hopens := opensToken_of_skipGap hgap hrest hc
  obtain ⟨front, hfront, hmoved⟩ := skipGap_moved hgap hrest hopens
  obtain ⟨front', hfront', hbytes⟩ := skipGap_goesOn hgap
  obtain rfl : front' = front := List.append_cancel_right (hfront'.trans hfront)
  rw [Nat.zero_add] at hbytes
  refine ⟨front', s.taken, ⟨?_, hsplit.symm, ?_, ?_, ⟨c, more, htaken, hopens⟩, ?_⟩⟩
  · rw [hsplit]
    exact hfront
  · rw [hbytes]
  · rw [hsplit]
    exact hs
  · intro m c more s hc hs
    unfold nextLexeme
    rw [hmoved c more hc, hbytes]
    simp [hs]

/-- A settled token is read again wherever its text stands again. -/
theorem Lexeme.Moves.again {front taken rest' : List Char} (h : l.Moves marks newline n cs front taken)
    (hl : l.token.isSettled) (hrest : SameHead l.rest rest') (m : Nat) :
    nextLexeme marks m newline (front ++ (taken ++ rest')) =
      some ⟨l.token, ⟨m + byteLength front, m + byteLength front + byteLength taken⟩, l.newline,
        taken ++ rest', rest'⟩ := by
  obtain ⟨c, more, rfl, hc⟩ := h.start
  exact h.moved m c (more ++ rest') _ hc (scanToken_settled h.scan hl hrest)

/-- A quoted text can stand in the place of another. -/
theorem Lexeme.Moves.quoted {front taken lit rest' : List Char} {v : String} {whole : Bool}
    (h : l.Moves marks newline n cs front taken)
    (hlit : scanToken (lit ++ rest') = some ⟨.quoted v whole, lit, rest'⟩) (m : Nat) :
    nextLexeme marks m newline (front ++ (lit ++ rest')) =
      some ⟨.quoted v whole, ⟨m + byteLength front, m + byteLength front + byteLength lit⟩, l.newline,
        lit ++ rest', rest'⟩ := by
  obtain ⟨quote, more, hquote, htext⟩ := scanToken_quoted hlit
  have hopens : opensToken quote := by rcases hquote with rfl | rfl <;> decide
  rw [htext] at hlit ⊢
  exact h.moved m quote more _ hopens hlit

/-- A token is read alike wherever the text begins. -/
theorem nextLexeme_start (marks newline : Bool) (n : Nat) (cs : List Char) :
    nextLexeme marks n newline cs =
      (nextLexeme marks 0 newline cs).map fun l => { l with span := l.span.shift n } := by
  unfold nextLexeme
  cases skipGap marks .blank newline 0 cs with
  | none => rfl
  | some gap =>
    simp only [Option.bind_eq_bind, Option.bind_some]
    cases scanToken gap.rest with
    | none => rfl
    | some s => simp [Text.Span.shift, Nat.add_assoc]

end Lexemes

end BarrelAlias.Script
