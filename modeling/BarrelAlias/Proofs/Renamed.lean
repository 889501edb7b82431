import BarrelAlias.Proofs.ModuleRules
import BarrelAlias.Proofs.Sites

/-!
A statement that names a module, in another text. The characters of its tokens stand in three pieces of
the text, the second of which is the specifier; where the first and the third stand again around another
quoted text, the statement is read again with the other specifier, provided that what follows begins with
two tokens like those that followed before.
-/

namespace BarrelAlias.Script

open Text (byteLength Span)
open Linkage (specifierOf?)

/-- The characters are a quoted text of this value, whatever follows them. -/
def Spells (lit : List Char) (value : String) : Prop :=
  ∃ whole, ∀ rest, scanToken (lit ++ rest) = some ⟨.quoted value whole, lit, rest⟩

/-- Quoted texts begin with a quote each. -/
theorem Spells.sameHead {lit lit' : List Char} {v v' : String} (h : Spells lit v) (h' : Spells lit' v')
    (rest rest' : List Char) : SameHead (lit ++ rest) (lit' ++ rest') := by
  obtain ⟨whole, h⟩ := h
  obtain ⟨whole', h'⟩ := h'
  obtain ⟨q, more, hq, htext⟩ := scanToken_quoted (h rest)
  obtain ⟨q', more', hq', htext'⟩ := scanToken_quoted (h' rest')
  rw [htext, htext']
  exact .inr ⟨⟨q, rfl, hq⟩, q', rfl, hq'⟩

theorem Spells.of_reads {cs : List Char} {span : Span} {v : String} (h : Reads 0 cs span v) :
    Spells (span.slice cs) v := by
  obtain ⟨lit, rest, whole, ⟨front, hfront, hstart⟩, hstop, hscan⟩ := h
  rw [Nat.zero_add] at hstart
  have hcut := (@Span.of_append span front lit hstart.symm (by omega) rest).2.1
  rw [← hfront, hcut]
  exact ⟨whole, scanToken_moved hscan⟩

theorem Spells.unique {lit : List Char} {v v' : String} (h : Spells lit v) (h' : Spells lit v') :
    v = v' := by
  obtain ⟨whole, h⟩ := h
  obtain ⟨whole', h'⟩ := h'
  cases (h []).symm.trans (h' [])
  rfl

theorem Spells.length_pos {l : List Char} {v : String} (h : Spells l v) : 0 < l.length := by
  obtain ⟨whole, h⟩ := h
  obtain ⟨q, more, _, htext⟩ := scanToken_quoted (h [])
  rw [List.append_nil] at htext
  rw [htext]
  exact Nat.succ_pos _

theorem Lexeme.Like.trans {l₁ l₂ l₃ : Lexeme} (h : l₁.Like l₂) (h' : l₂.Like l₃) : l₁.Like l₃ := by
  refine ⟨h.1.trans h'.1, ?_⟩
  rcases h.2 with htoken | ⟨hquoted, _⟩
  · rw [htoken]
    exact h'.2
  · exact .inr ⟨hquoted, h'.isQuoted ▸ h.isQuoted ▸ hquoted⟩

namespace Cursor

variable {marks newline : Bool} {k m : Nat} {c d : Cursor} {l : Lexeme}

theorem Abreast.unique {c' d' : Cursor} (h : Abreast marks k c d c' d') (hc : c' = c) : d' = d := by
  induction h with
  | refl => exact hc
  | step hl hl' _ _ _ _ ih =>
    subst hc
    cases hl.symm.trans hl'
    exact ih rfl

/-- The tokens stand in a piece of the text, and are read again where the piece stands again. -/
theorem Abreast.exists_piece (h : Abreast marks k c d c d) (hc : c = .at marks c.stop newline c.rest) :
    ∃ piece newline', c.rest = piece ++ d.rest ∧ k ≤ piece.length ∧
      d = .at marks (c.stop + byteLength piece) newline' d.rest ∧ (newline = false → newline' = false) ∧
      ∀ rest' n, SameHead d.rest rest' →
        Abreast marks k c d (.at marks n newline (piece ++ rest'))
          (.at marks (n + byteLength piece) newline' rest') := by
  induction k generalizing c newline with
  | zero =>
    cases h
    exact ⟨[], newline, rfl, Nat.le_refl 0, hc, id, fun rest' n _ => .refl _ _⟩
  | succ k ih =>
    cases h with
    | @step _ _ _ _ _ l _ hl hl' hsettled _ _ h =>
      cases hl.symm.trans hl'
      rw [hc] at hl
      obtain ⟨front, taken, hmoves⟩ := Lexeme.exists_moves hl hsettled
      obtain ⟨piece, newline', hrest, hle, hd, hnewline, hagain⟩ := ih h rfl
      change l.rest = piece ++ d.rest at hrest
      refine ⟨front ++ (taken ++ piece), newline', ?_, ?_, ?_, fun _ => hnewline rfl, ?_⟩
      · rw [hmoves.text, hrest]
        simp
      · obtain ⟨first, more, rfl, _⟩ := hmoves.start
        simp only [List.length_append, List.length_cons]
        omega
      · have hstop : (l.after marks).stop = c.stop + byteLength front + byteLength taken :=
          congrArg Text.Span.stop hmoves.span
        rw [hstop] at hd
        simpa only [Text.byteLength_append, Nat.add_assoc] using hd
      · intro rest' n hsame
        have hlater := hmoves.again hsettled (hrest ▸ hsame.append piece) n
        have hpiece := hagain rest' (n + byteLength front + byteLength taken) hsame
        simp only [List.append_assoc, Text.byteLength_append, ← Nat.add_assoc]
        exact .step (hc ▸ hl) hlater hsettled rfl rfl hpiece

/-- The text from a cursor on as three pieces and a rest, the second of them a quoted text. Another one
can take its place, and another rest can follow if it goes on in the same way. -/
structure Pieces (marks newline : Bool) (k m : Nat) (c : Cursor) (l : Lexeme) (d : Cursor)
    (front lit back : List Char) : Prop where
  quoted : l.token.isQuoted
  text : c.rest = front ++ (lit ++ (back ++ d.rest))
  front_le : k ≤ front.length
  back_le : m ≤ back.length
  span : l.span = ⟨c.stop + byteLength front, c.stop + byteLength front + byteLength lit⟩
  spelled : ∃ v, Spells lit v
  last : d = .at marks (c.stop + byteLength front + byteLength lit + byteLength back) false d.rest
  renamed : ∀ lit' v rest' n, Spells lit' v → SameHead d.rest rest' → ∃ l' whole,
    l'.token = .quoted v whole ∧
    l'.span = ⟨n + byteLength front, n + byteLength front + byteLength lit'⟩ ∧
    AbreastBut marks k m c l d (.at marks n newline (front ++ (lit' ++ (back ++ rest')))) l'
      (.at marks (n + byteLength front + byteLength lit' + byteLength back) false rest')

theorem AbreastBut.exists_pieces (h : AbreastBut marks k m c l d c l d) (hl : l.token.isQuoted)
    (hc : c = .at marks c.stop newline c.rest) :
    ∃ front lit back, Pieces marks newline k m c l d front lit back := by
  obtain ⟨e, e', hfront, he, he', _, hback⟩ := h
  obtain rfl := hfront.unique rfl
  cases he.symm.trans he'
  obtain ⟨piece, newline', hpiece, hk, hat, _, hagain⟩ := hfront.exists_piece hc
  have hsettled : l.token.isSettled := by
    obtain ⟨v, whole, htoken⟩ := Token.exists_of_isQuoted hl
    rw [htoken]
    rfl
  have hahead := he
  rw [hat] at hahead
  obtain ⟨gap, lit, hmoves⟩ := Lexeme.exists_moves hahead hsettled
  obtain ⟨back, newline'', hrest, hm, hd, hnewline, hagain'⟩ := hback.exists_piece rfl
  cases hnewline rfl
  change l.rest = back ++ d.rest at hrest
  have hspan : l.span = ⟨c.stop + byteLength (piece ++ gap),
      c.stop + byteLength (piece ++ gap) + byteLength lit⟩ := by
    rw [hmoves.span, Text.byteLength_append, Nat.add_assoc c.stop]
  have hstop : (l.after marks).stop = c.stop + byteLength (piece ++ gap) + byteLength lit :=
    congrArg Text.Span.stop hspan
  obtain ⟨v₀, whole₀, htoken⟩ := Token.exists_of_isQuoted hl
  have hspelled : Spells lit v₀ := ⟨whole₀, fun rest' => scanToken_moved (htoken ▸ hmoves.scan) rest'⟩
  refine ⟨piece ++ gap, lit, back, hl, ?_, ?_, hm, hspan, ⟨v₀, hspelled⟩, hstop ▸ hd, ?_⟩
  · rw [hpiece, hmoves.text, hrest, List.append_assoc]
  · rw [List.length_append]
    omega
  · rintro lit' v rest' n hlit hsame
    have hsame' : SameHead e'.rest (gap ++ (lit' ++ (back ++ rest'))) := by
      rw [hmoves.text]
      exact (hspelled.sameHead hlit _ _).append gap
    obtain ⟨whole, hlit⟩ := hlit
    have hlater : (Cursor.at marks (n + byteLength piece) newline'
        (gap ++ (lit' ++ (back ++ rest')))).ahead = some _ :=
      hmoves.quoted (hlit (back ++ rest')) (n + byteLength piece)
    have hfront' := hagain _ n hsame'
    have hback' := hagain' rest' (n + byteLength (piece ++ gap) + byteLength lit') hsame
    refine ⟨⟨.quoted v whole, _, l.newline, _, _⟩, whole, rfl, ?_, e', _, ?_, he, hlater, rfl, ?_⟩
    · rw [Text.byteLength_append, Nat.add_assoc n]
    · simpa only [List.append_assoc] using hfront'
    · rw [Text.byteLength_append, ← Nat.add_assoc n] at hback'
      rw [Text.byteLength_append, ← Nat.add_assoc n]
      exact hback'

theorem Pieces.unique {k' m' : Nat} {l' : Lexeme} {front lit back front' lit' back' : List Char}
    (h : Pieces marks newline k m c l d front lit back)
    (h' : Pieces marks newline k' m' c l' d front' lit' back') (hspan : l.span = l'.span) :
    front' = front ∧ lit' = lit ∧ back' = back := by
  have hspans := h.span.symm.trans (hspan.trans h'.span)
  simp only [Text.Span.mk.injEq] at hspans
  obtain ⟨hstart, hstop⟩ := hspans
  obtain ⟨rfl, htext⟩ := Text.append_inj_of_byteLength (h.text.symm.trans h'.text) (by omega)
  obtain ⟨rfl, htext⟩ := Text.append_inj_of_byteLength htext (by omega)
  exact ⟨rfl, rfl, (List.append_cancel_right (List.append_cancel_left htext)).symm⟩

theorem AbreastBut.settled_ahead (h : AbreastBut marks k m c l d c l d) (hl : l.token.isQuoted) :
    ∃ l₀, c.ahead = some l₀ ∧ l₀.token.isSettled := by
  obtain ⟨e, e', hfront, he, _⟩ := h
  cases hfront with
  | refl =>
    obtain ⟨v, whole, htoken⟩ := Token.exists_of_isQuoted hl
    exact ⟨l, he, by rw [htoken]; rfl⟩
  | step hl₀ _ hsettled _ _ _ => exact ⟨_, hl₀, hsettled⟩

theorem Alike.trans {n : Nat} {c₁ c₂ c₃ : Cursor} (h : Alike marks n c₁ c₂) (h' : Alike marks n c₂ c₃) :
    Alike marks n c₁ c₃ := by
  induction n generalizing c₁ c₂ c₃ with
  | zero => trivial
  | succ n ih =>
    rw [Alike] at h h' ⊢
    generalize c₁.ahead = a₁, c₂.ahead = a₂, c₃.ahead = a₃ at h h' ⊢
    cases h with
    | none => exact h'
    | some h =>
      cases h' with
      | some h' => exact .some ⟨h.1.trans h'.1, ih h.2 h'.2⟩

/-- A text is read alike wherever it begins. -/
theorem alike_at (marks newline : Bool) (n i j : Nat) (cs : List Char) :
    Alike marks n (.at marks i newline cs) (.at marks j newline cs) := by
  induction n generalizing i j newline cs with
  | zero => trivial
  | succ n ih =>
    have hi : (Cursor.at marks i newline cs).ahead = nextLexeme marks i newline cs := rfl
    have hj : (Cursor.at marks j newline cs).ahead = nextLexeme marks j newline cs := rfl
    rw [Alike, hi, hj, nextLexeme_start marks newline i, nextLexeme_start marks newline j]
    cases nextLexeme marks 0 newline cs with
    | none => exact .none
    | some l => exact .some ⟨⟨rfl, .inl rfl⟩, ih false _ _ l.rest⟩

end Cursor

theorem head_ne_hash {marks newline : Bool} {n : Nat} {cs : List Char} {l : Lexeme}
    (h : nextLexeme marks n newline cs = some l) (hl : l.token.isSettled) : cs.head? ≠ some '#' := by
  intro hhash
  obtain ⟨more, rfl⟩ : ∃ more, cs = '#' :: more := ⟨cs.tail, (List.cons_head?_tail hhash).symm⟩
  unfold nextLexeme at h
  rw [skipGap_of_opensToken (by decide)] at h
  obtain ⟨gap, hgap, h⟩ := Option.bind_eq_some_iff.mp h
  cases hgap
  obtain ⟨s, hs, h⟩ := Option.bind_eq_some_iff.mp h
  obtain ⟨_, _, hs⟩ := Option.bind_eq_some_iff.mp hs
  cases hs
  cases h
  cases hl

section Statements

variable {ctx : Context} {c : Cursor} {g : Grammar}

theorem nextStatement_cases {st : Statement} {next : c.Onward}
    (h : nextStatement g ctx c = some (some st, next)) : ∃ l d, c.ahead = some l ∧ l.token ≠ .ending ∧
      g.statement false ctx c = some (st.item, d) ∧ d.val = next.val := by
  obtain ⟨b, d₁, e₁, hat, h, he₁⟩ := bind_run h
  obtain ⟨l, e, _, hpeek, _⟩ := bind_run hat
  have hl := (ensures_peek ctx c l e hpeek).2
  rw [atToken, run_peek_pure hl] at hat
  cases hat
  split at h
  · cases h
  · next hne =>
    obtain ⟨st', d₂, e₂, hplaced, hpure, he₂⟩ := bind_run h
    cases hpure
    obtain ⟨start, d₃, e₃, hstart, hplaced, he₃⟩ := bind_run hplaced
    have hstart' : nextStart ctx c = some (l.span.start, c.here) := run_peek_pure hl _
    cases hstart.symm.trans hstart'
    obtain ⟨item, d₄, e₄, hitem, hpure, he₄⟩ := bind_run hplaced
    cases hpure
    exact ⟨l, d₄, hl, by simpa using hne, hitem, he₄.trans (he₃.trans (he₂.trans he₁))⟩

theorem run_nextStatement {l : Lexeme} {item : Item} {d : c.Onward} (hl : c.ahead = some l)
    (hne : l.token ≠ .ending) (h : g.statement false ctx c = some (item, d)) :
    ∃ st next, nextStatement g ctx c = some (some st, next) ∧ st.item = item ∧ next.val = d.val := by
  let st : Statement := ⟨item, ⟨l.span.start, d.val.stop⟩⟩
  have hat : atToken .ending ctx c = some (decide (l.token = .ending), c.here) := run_peek_pure hl _
  rw [decide_eq_false hne] at hat
  have hstart : nextStart ctx c = some (l.span.start, c.here) := run_peek_pure hl _
  obtain ⟨e₁, hitem, he₁⟩ := run_bind (f := fun item => do
    return (⟨item, ⟨l.span.start, ← lastStop⟩⟩ : Statement)) h rfl rfl
  obtain ⟨e₂, hplaced, he₂⟩ := run_bind (f := fun start => do
    let item ← g.statement false
    return (⟨item, ⟨start, ← lastStop⟩⟩ : Statement)) hstart rfl hitem
  obtain ⟨e₃, hsome, he₃⟩ := run_bind (f := fun st => pure (some st)) hplaced rfl rfl
  obtain ⟨e₄, hnext, he₄⟩ := run_bind (f := fun b => if b then pure none else do
    return some (← placedStatement g)) hat rfl hsome
  exact ⟨st, e₄, hnext, rfl, he₄.trans (he₃.trans (he₂.trans he₁))⟩

end Statements

/-- Of two texts each begins as the other does, and so do their first two tokens. -/
structure AlikeTexts (marks newline : Bool) (cs cs' : List Char) : Prop where
  head : SameHead cs cs'
  ahead : ∀ n n', Cursor.Alike marks 2 (.at marks n newline cs) (.at marks n' newline cs')

theorem alikeTexts_refl (marks newline : Bool) (cs : List Char) : AlikeTexts marks newline cs cs :=
  ⟨sameHead_refl cs, fun n n' => Cursor.alike_at marks newline 2 n n' cs⟩

/-- The rules below those for statements in a text of this length. -/
def Grammar.below (length : Nat) : Grammar := .ofDepth (length + 2) (8 * length + 63)

theorem Grammar.statement_forLength (length : Nat) (isSingle : Bool) :
    (Grammar.forLength length).statement isSingle = statementRule (.below length) isSingle := rfl

theorem Grammar.rounds_below (length : Nat) : (Grammar.below length).rounds = length + 2 := rfl

/-- With more rounds the statements are the same. -/
theorem statements_fuel {ctx : Context} {fuel fuel' : Nat} {newline : Bool} {cs : List Char}
    {sts : List Statement} (h : statements ctx fuel newline cs = some sts) (hfuel : cs.length < fuel') :
    statements ctx fuel' newline cs = some sts := by
  induction fuel generalizing fuel' newline cs sts with
  | zero => cases h
  | succ fuel ih =>
    obtain ⟨fuel', rfl⟩ : ∃ n, fuel' = n + 1 := ⟨fuel' - 1, by omega⟩
    obtain ⟨st?, next, hrun, h⟩ := statements_cases h
    cases st? with
    | none =>
      rw [statements, hrun]
      exact congrArg some h.symm
    | some st =>
      obtain ⟨hless, sts', hsts, rfl⟩ := h
      exact statements_of_next hrun hless (ih hsts (by omega))

theorem exportedNames_mapSource (f : Specifier → Specifier) (i : Item) :
    (i.mapSource f).exportedNames = i.exportedNames := by
  cases i with
  | exportAll name source => cases name <;> rfl
  | _ => rfl

section Renamed

variable {ctx : Context} {newline : Bool} {cs : List Char} {st : Statement} {sp : Specifier}

/-- The text of a statement that names a module, in three pieces, the second of which is the specifier.
With another specifier, and before any text that goes on alike, the statement is read again. -/
structure Statement.Renamable (ctx : Context) (newline : Bool) (st : Statement)
    (front old back rest : List Char) : Prop where
  unmarked : (front ++ (old ++ (back ++ rest))).head? ≠ some '#'
  alike : ∀ lit v rest', Spells lit v → AlikeTexts ctx.marks false rest rest' →
    AlikeTexts ctx.marks newline (front ++ (old ++ (back ++ rest))) (front ++ (lit ++ (back ++ rest')))
  runs : ∀ lit v rest', Spells lit v → AlikeTexts ctx.marks false rest rest' →
    ∃ st' next, nextStatement (.forLength (front ++ (lit ++ (back ++ rest'))).length) ctx
        (.at ctx.marks 0 newline (front ++ (lit ++ (back ++ rest')))) = some (some st', next) ∧
      st'.item = st.item.withSource ⟨v, ⟨byteLength front, byteLength front + byteLength lit⟩⟩ ∧
      next.val.rest = rest' ∧
      next.val.stop = byteLength front + byteLength lit + byteLength back

theorem Cursor.Pieces.at_rest {marks : Bool} {k m : Nat} {c d : Cursor} {l : Lexeme}
    {front old back : List Char} (h : c.Pieces marks newline k m l d front old back) :
    d = .at marks d.stop false d.rest := by
  have hstop := congrArg Cursor.stop h.last
  change d.stop = _ at hstop
  rw [hstop]
  exact h.last

section Pieces

variable {k m : Nat} {l : Lexeme} {d : Cursor} {front old back lit rest' : List Char} {v : String}
  (h : (Cursor.at ctx.marks 0 newline cs).Pieces ctx.marks newline k m l d front old back)
  (hlit : Spells lit v) (halike : AlikeTexts ctx.marks false d.rest rest')

include h hlit halike

/-- With another specifier in it the text is read as before up to what follows. -/
theorem exists_abreastBut (n : Nat) : ∃ l' whole last, l'.token = .quoted v whole ∧
    l'.span = ⟨n + byteLength front, n + byteLength front + byteLength lit⟩ ∧
    last = .at ctx.marks (n + byteLength front + byteLength lit + byteLength back) false rest' ∧
    Cursor.AbreastBut ctx.marks k m (.at ctx.marks 0 newline cs) l d
      (.at ctx.marks n newline (front ++ (lit ++ (back ++ rest')))) l' last ∧
    Cursor.Alike ctx.marks 2 d last ∧
    Cursor.Alike ctx.marks 2 (.at ctx.marks 0 newline cs)
      (.at ctx.marks n newline (front ++ (lit ++ (back ++ rest')))) := by
  obtain ⟨l', whole, htoken, hspan, hbut⟩ := h.renamed lit v rest' n hlit halike.head
  have hquoted : l'.token.isQuoted := by rw [htoken]; rfl
  have hend (j : Nat) : Cursor.Alike ctx.marks 2 d (.at ctx.marks j false rest') := by
    rw [h.at_rest]
    exact halike.ahead _ j
  exact ⟨l', whole, _, htoken, hspan, rfl, hbut, hend _, hbut.alike h.quoted hquoted (hend _)⟩

theorem alikeTexts_renamed : AlikeTexts ctx.marks newline cs (front ++ (lit ++ (back ++ rest'))) := by
  refine ⟨?_, fun i j => ?_⟩
  · obtain ⟨v', hv'⟩ := h.spelled
    have htext : cs = _ := h.text
    rw [htext]
    exact (hv'.sameHead hlit _ _).append front
  · obtain ⟨_, _, _, _, _, _, _, _, hstart⟩ := exists_abreastBut h hlit halike j
    exact (Cursor.alike_at ctx.marks newline 2 i 0 cs).trans hstart

/-- Where the rules for the other text read alike, they read the statement. -/
theorem exists_nextStatement {l₀ : Lexeme} (hl₀ : (Cursor.at ctx.marks 0 newline cs).ahead = some l₀)
    (hne : l₀.token ≠ .ending)
    (hrename : k + m + 1 < (Grammar.below (front ++ (lit ++ (back ++ rest'))).length).rounds →
      ∀ c' l' v whole d', l'.token = .quoted v whole →
        Cursor.AbreastBut ctx.marks k m (.at ctx.marks 0 newline cs) l d c' l' d' →
        Cursor.Alike ctx.marks 2 d d' →
        ∃ e, statementRule (.below (front ++ (lit ++ (back ++ rest'))).length) false ctx c' =
          some (st.item.withSource ⟨v, l'.span⟩, e) ∧ e.val = d') :
    ∃ st' next, nextStatement (.forLength (front ++ (lit ++ (back ++ rest'))).length) ctx
        (.at ctx.marks 0 newline (front ++ (lit ++ (back ++ rest')))) = some (some st', next) ∧
      st'.item = st.item.withSource ⟨v, ⟨byteLength front, byteLength front + byteLength lit⟩⟩ ∧
      next.val.rest = rest' ∧
      next.val.stop = byteLength front + byteLength lit + byteLength back := by
  obtain ⟨l', whole, last, htoken, hspan, rfl, hbut, hend, hstart⟩ := exists_abreastBut h hlit halike 0
  have hless : k + m + 1 < (Grammar.below (front ++ (lit ++ (back ++ rest'))).length).rounds := by
    have hfront := h.front_le
    have hback := h.back_le
    rw [Grammar.rounds_below]
    simp only [List.length_append]
    omega
  obtain ⟨e, hrun, he⟩ := hrename hless _ l' v whole _ htoken hbut hend
  obtain ⟨l₁, hl₁, hlike, _⟩ := exists_ahead_of_alike hl₀ hstart
  have hne' : l₁.token ≠ .ending :=
    fun hending => hne ((hlike.token_iff (t := .ending) Bool.false_ne_true).mpr hending)
  rw [← Grammar.statement_forLength] at hrun
  obtain ⟨st', next, hrun', hitem, hnext⟩ := run_nextStatement hl₁ hne' hrun
  have hlast := hnext.trans he
  refine ⟨st', next, hrun', ?_, congrArg Cursor.rest hlast, ?_⟩
  · rw [hitem, hspan, Nat.zero_add]
  · have hstop := congrArg Cursor.stop hlast
    rw [Nat.zero_add] at hstop
    exact hstop

end Pieces

/-- Statements that name modules are read again with other specifiers. -/
theorem nextStatement_renamable {next : (Cursor.at ctx.marks 0 newline cs).Onward}
    (h : nextStatement (.forLength cs.length) ctx (.at ctx.marks 0 newline cs) = some (some st, next))
    (hsp : specifierOf? st.item = some sp) :
    ∃ front old back, cs = front ++ (old ++ (back ++ next.val.rest)) ∧
      sp.span = ⟨byteLength front, byteLength front + byteLength old⟩ ∧
      next.val.stop = byteLength front + byteLength old + byteLength back ∧
      st.Renamable ctx newline front old back next.val.rest := by
  obtain ⟨l₀, d, hl₀, hne, hitem, hd⟩ := nextStatement_cases h
  rw [Grammar.statement_forLength] at hitem
  have hrule (g' : Grammar) : RenamesItem g'.rounds ctx (.at ctx.marks 0 newline cs)
      (statementRule (.below cs.length) false) (statementRule g' false) :=
    renames_statementRule (Nat.le_refl _) false
  have hrenames (g' : Grammar) := hrule g' st.item d hitem sp hsp
  rw [hd] at hrenames
  obtain ⟨k, m, l, whole, htoken, hspan, habreast, _⟩ := hrenames .empty
  have hquoted : l.token.isQuoted := by rw [htoken]; rfl
  obtain ⟨front, old, back, hpieces⟩ := habreast.exists_pieces hquoted rfl
  have htext : cs = front ++ (old ++ (back ++ next.val.rest)) := hpieces.text
  refine ⟨front, old, back, htext, ?_, ?_, ?_, ?_, ?_⟩
  · have hstart : (Cursor.at ctx.marks 0 newline cs).stop = 0 := rfl
    rw [← hspan, hpieces.span, hstart, Nat.zero_add]
  · have hstop := congrArg Cursor.stop hpieces.last
    change next.val.stop = 0 + byteLength front + byteLength old + byteLength back at hstop
    rwa [Nat.zero_add] at hstop
  · obtain ⟨l₁, hl₁, hsettled⟩ := habreast.settled_ahead hquoted
    rw [← htext]
    exact head_ne_hash hl₁ hsettled
  · intro lit v rest' hlit halike
    rw [← htext]
    exact alikeTexts_renamed hpieces hlit halike
  · intro lit v rest' hlit halike
    -- the rules for the other text take the same tokens
    obtain ⟨k', m', l', whole', htoken', hspan', habreast', hrename⟩ :=
      hrenames (.below (front ++ (lit ++ (back ++ rest'))).length)
    have hquoted' : l'.token.isQuoted := by rw [htoken']; rfl
    obtain ⟨front', old', back', hpieces'⟩ := habreast'.exists_pieces hquoted' rfl
    obtain ⟨rfl, rfl, rfl⟩ := hpieces.unique hpieces' (hspan.trans hspan'.symm)
    exact exists_nextStatement hpieces' hlit halike hl₀ hne hrename

end Renamed

end BarrelAlias.Script
