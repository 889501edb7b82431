import BarrelAlias.Proofs.Running
import BarrelAlias.Proofs.Tokens

/-!
Two texts read side by side. A parser that takes settled tokens only and looks no further than two tokens
ahead reads alike in any two texts that hold the same such tokens. One rule for each way to put parsers
together. A list with commas is given as many rounds as its text is long, which is more than it has
tokens.
-/

namespace BarrelAlias.Script

def Token.isQuoted : Token → Bool
  | .quoted _ _ => true
  | _ => false

/-- Rules that look at the tokens without taking them do not tell these apart: what a quoted text says
makes no difference. -/
def Lexeme.Like (l l' : Lexeme) : Prop :=
  l.newline = l'.newline ∧ (l.token = l'.token ∨ l.token.isQuoted ∧ l'.token.isQuoted)

theorem Lexeme.Like.of_eq {l l' : Lexeme} (hnewline : l'.newline = l.newline)
    (htoken : l'.token = l.token) : l.Like l' := ⟨hnewline.symm, .inl htoken.symm⟩

theorem Lexeme.Like.token_iff {l l' : Lexeme} (h : l.Like l') {t : Token} (ht : ¬ t.isQuoted) :
    l.token = t ↔ l'.token = t := by
  rcases h.2 with htoken | ⟨hquoted, hquoted'⟩
  · rw [htoken]
  · constructor
    · rintro rfl
      exact absurd hquoted ht
    · rintro rfl
      exact absurd hquoted' ht

theorem Lexeme.Like.mem_iff {l l' : Lexeme} (h : l.Like l') {ts : List Token}
    (ht : ∀ t ∈ ts, ¬ t.isQuoted) : l.token ∈ ts ↔ l'.token ∈ ts := by
  rcases h.2 with htoken | ⟨hquoted, hquoted'⟩
  · rw [htoken]
  · exact iff_of_false (fun hmem => ht _ hmem hquoted) fun hmem => ht _ hmem hquoted'

theorem Token.exists_of_isQuoted {t : Token} (h : t.isQuoted) : ∃ v whole, t = .quoted v whole := by
  cases t with
  | quoted v whole => exact ⟨v, whole, rfl⟩
  | _ => cases h

namespace Cursor

variable {marks : Bool} {c d e c' d' e' : Cursor} {k m n : Nat}

/-- The next `n` tokens are alike. -/
def Alike (marks : Bool) : Nat → Cursor → Cursor → Prop
  | 0, _, _ => True
  | n + 1, c, c' =>
    Option.Rel (fun l l' => l.Like l' ∧ Alike marks n (l.after marks) (l'.after marks)) c.ahead c'.ahead

/-- The same `k` settled tokens lead from `c` to `d` and from `c'` to `d'`. -/
inductive Abreast (marks : Bool) : Nat → Cursor → Cursor → Cursor → Cursor → Prop
  | refl (c c' : Cursor) : Abreast marks 0 c c c' c'
  | step {k : Nat} {c d c' d' : Cursor} {l l' : Lexeme} (hl : c.ahead = some l)
    (hl' : c'.ahead = some l') (hsettled : l.token.isSettled) (htoken : l'.token = l.token)
    (hnewline : l'.newline = l.newline)
    (h : Abreast marks k (l.after marks) d (l'.after marks) d') : Abreast marks (k + 1) c d c' d'

theorem Alike.pred (h : Alike marks (n + 1) c c') : Alike marks n c c' := by
  induction n generalizing c c' with
  | zero => trivial
  | succ n ih =>
    rw [Alike] at h ⊢
    generalize c.ahead = a, c'.ahead = a' at h ⊢
    cases h with
    | some h => exact .some ⟨h.1, ih h.2⟩
    | none => exact .none

/-- What is alike after the same tokens is alike before them. -/
theorem Abreast.alike (h : Abreast marks k c d c' d') (hd : Alike marks n d d') :
    Alike marks n c c' := by
  induction h with
  | refl => exact hd
  | step hl hl' _ htoken hnewline _ ih =>
    cases n with
    | zero => trivial
    | succ n =>
      rw [Alike, hl, hl']
      exact .some ⟨.of_eq hnewline htoken, (ih hd).pred⟩

theorem Abreast.trans (h : Abreast marks k c d c' d') (h' : Abreast marks m d e d' e') :
    Abreast marks (k + m) c e c' e' := by
  induction h with
  | refl => rwa [Nat.zero_add]
  | step hl hl' hsettled htoken hnewline _ ih =>
    rw [Nat.add_right_comm]
    exact .step hl hl' hsettled htoken hnewline (ih h')

/-- Tokens that are taken in two goes are the same in each. -/
theorem Abreast.split (hd : Abreast marks k c d c d) (h : Abreast marks (k + m) c e c' e') :
    ∃ d', Abreast marks k c d c' d' ∧ Abreast marks m d e d' e' := by
  induction k generalizing c c' with
  | zero =>
    cases hd
    rw [Nat.zero_add] at h
    exact ⟨c', .refl d c', h⟩
  | succ k ih =>
    rw [Nat.add_right_comm] at h
    cases hd with
    | step hl hl₁ _ _ _ hd =>
      cases hl.symm.trans hl₁
      cases h with
      | step hl₂ hl' hsettled htoken hnewline h =>
        cases hl.symm.trans hl₂
        obtain ⟨d', hfront, hback⟩ := ih hd h
        exact ⟨d', .step hl hl' hsettled htoken hnewline hfront, hback⟩

/-- The same, but for one token that the texts differ in: `l` in the first, `l'` in the second. -/
def AbreastBut (marks : Bool) (k m : Nat) (c : Cursor) (l : Lexeme) (d c' : Cursor) (l' : Lexeme)
    (d' : Cursor) : Prop :=
  ∃ e e', Abreast marks k c e c' e' ∧ e.ahead = some l ∧ e'.ahead = some l' ∧
    l'.newline = l.newline ∧ Abreast marks m (l.after marks) d (l'.after marks) d'

variable {l l' : Lexeme}

theorem AbreastBut.alike (h : AbreastBut marks k m c l d c' l' d') (hl : l.token.isQuoted)
    (hl' : l'.token.isQuoted) (hd : Alike marks n d d') : Alike marks n c c' := by
  obtain ⟨e, e', hfront, he, he', hnewline, hback⟩ := h
  apply hfront.alike
  cases n with
  | zero => trivial
  | succ n =>
    rw [Alike, he, he']
    exact .some ⟨⟨hnewline.symm, .inr ⟨hl, hl'⟩⟩, (hback.alike hd).pred⟩

theorem AbreastBut.after (hc : Abreast marks k c d c' d') (h : AbreastBut marks n m d l e d' l' e') :
    AbreastBut marks (k + n) m c l e c' l' e' := by
  obtain ⟨x, x', hfront, h⟩ := h
  exact ⟨x, x', hc.trans hfront, h⟩

theorem AbreastBut.split (hd : Abreast marks k c d c d)
    (h : AbreastBut marks (k + n) m c l e c' l' e') :
    ∃ d', Abreast marks k c d c' d' ∧ AbreastBut marks n m d l e d' l' e' := by
  obtain ⟨x, x', hfront, h⟩ := h
  obtain ⟨d', hcd, hfront⟩ := hd.split hfront
  exact ⟨d', hcd, x, x', hfront, h⟩

end Cursor

section Mirrors

variable {α β : Type} {N : Nat} {ctx : Context} {c : Cursor} {p p' : Parser α} {f f' : α → Parser β}

/-- What `p` makes of the settled tokens that it takes, `p'` makes of the same tokens in another text, if
the two after them are alike and there are fewer than `N`. -/
def Mirrors (N : Nat) (ctx : Context) (c : Cursor) (p p' : Parser α) : Prop :=
  ∀ a d, p ctx c = some (a, d) → ∃ k, Cursor.Abreast ctx.marks k c d.val c d.val ∧
    (k < N → ∀ c' d', Cursor.Abreast ctx.marks k c d.val c' d' → Cursor.Alike ctx.marks 2 d.val d' →
      ∃ e, p' ctx c' = some (a, e) ∧ e.val = d')

theorem Mirrors.mono {M : Nat} (h : Mirrors N ctx c p p') (hle : M ≤ N) : Mirrors M ctx c p p' := by
  intro a d hrun
  obtain ⟨k, htaken, hmirror⟩ := h a d hrun
  exact ⟨k, htaken, fun hk => hmirror (Nat.lt_of_lt_of_le hk hle)⟩

/-- Of no tokens at all nothing is said. -/
theorem Mirrors.vacuous {q : Parser α} (h : Mirrors 0 ctx c p p') : Mirrors 0 ctx c p q := by
  intro a d hrun
  obtain ⟨k, htaken, _⟩ := h a d hrun
  exact ⟨k, htaken, fun hk => absurd hk (Nat.not_lt_zero k)⟩

theorem mirrors_pure {a : α} : Mirrors N ctx c (pure a) (pure a) := by
  intro b d hrun
  cases hrun
  refine ⟨0, .refl c c, fun _ c' d' h _ => ?_⟩
  cases h
  exact ⟨_, rfl, rfl⟩

theorem mirrors_refuse : Mirrors N ctx c (refuse : Parser α) p' := by
  intro a d hrun
  cases hrun

theorem Mirrors.bind (hp : Mirrors N ctx c p p')
    (hf : ∀ a d, p ctx c = some (a, d) → Mirrors N ctx d.val (f a) (f' a)) :
    Mirrors N ctx c (p >>= f) (p' >>= f') := by
  intro b e hrun
  obtain ⟨a, d, e₁, ha, hb, he⟩ := bind_run hrun
  obtain ⟨k, htaken, hmirror⟩ := hp a d ha
  obtain ⟨m, htaken', hmirror'⟩ := hf a d ha b e₁ hb
  rw [he] at htaken' hmirror'
  refine ⟨k + m, htaken.trans htaken', fun hle c' e' h halike => ?_⟩
  obtain ⟨d', hfront, hback⟩ := htaken.split h
  obtain ⟨x, hrun', hx⟩ := hmirror (by omega) c' d' hfront (hback.alike halike)
  obtain ⟨y, hrun'', hy⟩ := hmirror' (by omega) d' e' hback halike
  obtain ⟨z, hz, hval⟩ := run_bind hrun' hx hrun''
  exact ⟨z, hz, hval.trans hy⟩

/-- A parser that takes nothing and returns the same wherever the next two tokens are alike. -/
theorem mirrors_of_stays (hp : Stays p) (hsame : ∀ a d, p ctx c = some (a, d) → ∀ c',
    Cursor.Alike ctx.marks 2 c c' → ∃ e, p' ctx c' = some (a, e) ∧ e.val = c') :
    Mirrors N ctx c p p' := by
  intro a d hrun
  have hd : d.val = c := hp ctx c a d hrun
  rw [hd]
  refine ⟨0, .refl c c, fun _ c' d' h halike => ?_⟩
  cases h
  exact hsame a d hrun c' halike

theorem mirrors_context : Mirrors N ctx c read read := by
  apply mirrors_of_stays
  · intro ctx c a d hrun
    cases hrun
    rfl
  · intro a d hrun c' _
    cases hrun
    exact ⟨c'.here, rfl, rfl⟩

theorem mirrors_read {f f' : Context → Parser β} (hf : Mirrors N ctx c (f ctx) (f' ctx)) :
    Mirrors N ctx c (read >>= f) (read >>= f') := by
  refine mirrors_context.bind fun a d hrun => ?_
  cases hrun
  exact hf

theorem exists_ahead_of_alike {n : Nat} {l : Lexeme} {c' : Cursor} (hl : c.ahead = some l)
    (h : Cursor.Alike ctx.marks (n + 1) c c') :
    ∃ l', c'.ahead = some l' ∧ l.Like l' ∧
      Cursor.Alike ctx.marks n (l.after ctx.marks) (l'.after ctx.marks) := by
  rw [Cursor.Alike, hl] at h
  generalize c'.ahead = a' at h
  cases h with
  | some h => exact ⟨_, rfl, h⟩

/-- What comes of a look at the token ahead is the same for tokens that are alike. -/
theorem mirrors_peek {f f' : Lexeme → Parser β} (hf : ∀ l, Mirrors N ctx c (f l) (f' l))
    (hsame : ∀ l l' : Lexeme, l.Like l' → f' l = f' l') :
    Mirrors N ctx c (peek >>= f) (peek >>= f') := by
  intro b e hrun
  obtain ⟨l, d, e₁, hpeek, hb, he⟩ := bind_run hrun
  have hl := (ensures_peek ctx c l d hpeek).2
  cases hpeek.symm.trans (run_peek hl)
  obtain ⟨k, htaken, hmirror⟩ := hf l b e₁ hb
  rw [he] at htaken hmirror
  refine ⟨k, htaken, fun hk c' e' h halike => ?_⟩
  obtain ⟨l', hl', hlike, _⟩ := exists_ahead_of_alike hl (h.alike halike)
  obtain ⟨x, hx, hxval⟩ := hmirror hk c' e' h halike
  rw [hsame l l' hlike] at hx
  obtain ⟨y, hy, hyval⟩ := run_bind (run_peek hl') rfl hx
  exact ⟨y, hy, hyval.trans hxval⟩

theorem mirrors_peek_pure {g : Lexeme → β} (hg : ∀ l l' : Lexeme, l.Like l' → g l = g l') :
    Mirrors N ctx c (peek >>= fun l => pure (g l)) (peek >>= fun l => pure (g l)) :=
  mirrors_peek (fun _ => mirrors_pure) fun l l' hlike => congrArg pure (hg l l' hlike)

theorem mirrors_atToken {t : Token} (ht : ¬ t.isQuoted) :
    Mirrors N ctx c (atToken t) (atToken t) :=
  mirrors_peek_pure fun _ _ hlike => decide_eq_decide.mpr (hlike.token_iff ht)

theorem mirrors_onNewLine : Mirrors N ctx c onNewLine onNewLine :=
  mirrors_peek_pure fun _ _ hlike => hlike.1

end Mirrors

section Tokens

variable {N : Nat} {ctx : Context} {c : Cursor} {t : Token}

theorem mirrors_require {b : Bool} : Mirrors N ctx c (require b) (require b) := by
  cases b with
  | true => exact mirrors_pure
  | false => exact mirrors_refuse

/-- A settled token is taken, and what the parser makes of it is what another makes of the rest. -/
theorem mirrors_step {α : Type} {p p' q q' : Parser α} {l : Lexeme} (hl : c.ahead = some l)
    (hsettled : l.token.isSettled) (hq : Mirrors (N - 1) ctx (l.after ctx.marks) q q')
    (hp : ∀ a d, p ctx c = some (a, d) → ∃ e, q ctx (l.after ctx.marks) = some (a, e) ∧ e.val = d.val)
    (hp' : ∀ c' l', c'.ahead = some l' → l'.token = l.token → ∀ a e,
      q' ctx (l'.after ctx.marks) = some (a, e) → ∃ d, p' ctx c' = some (a, d) ∧ d.val = e.val) :
    Mirrors N ctx c p p' := by
  intro a d hrun
  obtain ⟨e, hrun', he⟩ := hp a d hrun
  obtain ⟨k, htaken, hmirror⟩ := hq a e hrun'
  rw [he] at htaken hmirror
  refine ⟨k + 1, .step hl hl hsettled rfl rfl htaken, fun hle c' d' h halike => ?_⟩
  cases h with
  | step hl₁ hl' _ htoken _ h =>
    cases hl.symm.trans hl₁
    obtain ⟨x, hx, hxval⟩ := hmirror (by omega) _ d' h halike
    obtain ⟨y, hy, hyval⟩ := hp' c' _ hl' htoken a x hx
    exact ⟨y, hy, hyval.trans hxval⟩

/-- A token that is not the one that is asked for stays. -/
theorem mirrors_eatToken_other {l : Lexeme} (hl : c.ahead = some l) (hlt : l.token ≠ t)
    (ht : ¬ t.isQuoted) : Mirrors N ctx c (eatToken t) (eatToken t) := by
  intro b d hrun
  obtain ⟨d₁, hrun₁, hd⟩ := run_eatToken ctx hl t
  cases hrun.symm.trans hrun₁
  rw [if_neg hlt] at hd
  rw [hd, decide_eq_false hlt]
  refine ⟨0, .refl c c, fun _ c' d' h halike => ?_⟩
  cases h
  obtain ⟨l', hl', hlike, _⟩ := exists_ahead_of_alike hl halike
  have hlt' : ¬ l'.token = t := fun h => hlt ((hlike.token_iff ht).mpr h)
  obtain ⟨e, hrun', he⟩ := run_eatToken ctx hl' t
  rw [if_neg hlt'] at he
  rw [decide_eq_false hlt'] at hrun'
  exact ⟨e, hrun', he⟩

theorem mirrors_eatToken_bind {α : Type} {f f' : Bool → Parser α} (hsettled : t.isSettled)
    (ht : ¬ t.isQuoted) (htrue : ∀ c, Mirrors (N - 1) ctx c (f true) (f' true))
    (hfalse : ∀ c, Mirrors N ctx c (f false) (f' false)) :
    Mirrors N ctx c (eatToken t >>= f) (eatToken t >>= f') := by
  intro a e hrun
  obtain ⟨b, d, _, heat, _, _⟩ := bind_run hrun
  obtain ⟨l, hl, ⟨hlt, rfl, hd⟩ | ⟨hlt, rfl, hd⟩⟩ := eatToken_cases heat
  · refine mirrors_step hl (hlt ▸ hsettled) (htrue _) ?_ ?_ a e hrun
    · intro a e hrun
      obtain ⟨b', d', e₁, heat', hb, he⟩ := bind_run hrun
      cases heat.symm.trans heat'
      rw [← hd]
      exact ⟨e₁, hb, he⟩
    · intro c' l' hl' htoken a e hb
      obtain ⟨d', heat', hd'⟩ := run_eatToken ctx hl' t
      rw [htoken, if_pos hlt] at hd'
      rw [htoken, decide_eq_true hlt] at heat'
      exact run_bind heat' hd' hb
  · refine (mirrors_eatToken_other hl hlt ht).bind (fun b' d' heat' => ?_) a e hrun
    cases heat.symm.trans heat'
    exact hfalse _

theorem mirrors_eatToken (hsettled : t.isSettled) (ht : ¬ t.isQuoted) :
    Mirrors N ctx c (eatToken t) (eatToken t) := by
  rw [← parser_bind_pure (eatToken t)]
  exact mirrors_eatToken_bind hsettled ht (fun _ => mirrors_pure) fun _ => mirrors_pure

theorem mirrors_expectToken (hsettled : t.isSettled) (ht : ¬ t.isQuoted) :
    Mirrors N ctx c (expectToken t) (expectToken t) :=
  (mirrors_eatToken hsettled ht).bind fun _ _ _ => mirrors_require

theorem mirrors_eatWord (w : String) : Mirrors N ctx c (eatWord w) (eatWord w) :=
  mirrors_eatToken rfl Bool.false_ne_true

theorem mirrors_expectWord (w : String) : Mirrors N ctx c (expectWord w) (expectWord w) :=
  mirrors_expectToken rfl Bool.false_ne_true

theorem mirrors_eatSymbol {s : String} (hs : (Token.symbol s).isSettled) :
    Mirrors N ctx c (eatSymbol s) (eatSymbol s) :=
  mirrors_eatToken hs Bool.false_ne_true

theorem mirrors_expectSymbol {s : String} (hs : (Token.symbol s).isSettled) :
    Mirrors N ctx c (expectSymbol s) (expectSymbol s) :=
  mirrors_expectToken hs Bool.false_ne_true

theorem mirrors_atWord (w : String) : Mirrors N ctx c (atWord w) (atWord w) :=
  mirrors_atToken Bool.false_ne_true

theorem mirrors_atSymbol (s : String) : Mirrors N ctx c (atSymbol s) (atSymbol s) :=
  mirrors_atToken Bool.false_ne_true

/-- A token that is taken whatever it is must be settled for what comes next to be of use. -/
theorem mirrors_advance {α : Type} {f f' : Lexeme → Parser α}
    (hf : ∀ l, c.ahead = some l → l.token.isSettled → Mirrors N ctx (l.after ctx.marks) (f l) (f' l))
    (hsame : ∀ l l' : Lexeme, l'.token = l.token → f' l' = f' l)
    (hrefuse : ∀ l, c.ahead = some l → ¬ l.token.isSettled → f l = refuse) :
    Mirrors N ctx c (advance >>= f) (advance >>= f') := by
  intro b e hrun
  obtain ⟨l, d, e₁, ha, hb, he⟩ := bind_run hrun
  have hl := (ensures_advance ctx c l d ha).1
  have hsettled : l.token.isSettled := by
    by_contra hnot
    rw [hrefuse l hl hnot] at hb
    cases hb
  refine mirrors_step hl hsettled ((hf l hl hsettled).mono (Nat.sub_le N 1)) ?_ ?_ b e hrun
  · intro b e hrun
    obtain ⟨l', d', e', ha', hb', he'⟩ := bind_run hrun
    obtain ⟨d₁, hadvance, hd⟩ := run_advance ctx hl
    cases ha'.symm.trans hadvance
    rw [← hd]
    exact ⟨e', hb', he'⟩
  · intro c' l' hl' htoken b e hb
    obtain ⟨d', hadvance, hd⟩ := run_advance ctx hl'
    rw [← hsame l l' htoken] at hb
    exact run_bind hadvance hd hb

end Tokens

section Looks

variable {N : Nat} {ctx : Context} {c : Cursor}

theorem Lexeme.Like.isQuoted {l l' : Lexeme} (h : l.Like l') : l.token.isQuoted = l'.token.isQuoted := by
  rcases h.2 with htoken | ⟨hquoted, hquoted'⟩
  · rw [htoken]
  · rw [hquoted, hquoted']

/-- A question that quoted texts all answer alike. -/
theorem Lexeme.Like.congr {α : Type} {g : Token → α} {a : α} (hg : ∀ t, t.isQuoted → g t = a)
    {l l' : Lexeme} (h : l.Like l') : g l.token = g l'.token := by
  rcases h.2 with htoken | ⟨hquoted, hquoted'⟩
  · rw [htoken]
  · rw [hg _ hquoted, hg _ hquoted']

theorem mirrors_atQuoted : Mirrors N ctx c atQuoted atQuoted := by
  have hpure : atQuoted = peek >>= fun l => pure l.token.isQuoted := by
    unfold atQuoted
    congr
    funext l
    cases l.token <;> rfl
  rw [hpure]
  exact mirrors_peek_pure fun _ _ hlike => hlike.isQuoted

theorem mirrors_atAnyWord : Mirrors N ctx c atAnyWord atAnyWord := by
  apply mirrors_peek_pure
  exact fun _ _ hlike => hlike.congr (a := false) fun t ht => by cases t <;> first | rfl | cases ht

theorem mirrors_atName : Mirrors N ctx c atName atName := by
  apply mirrors_read
  apply mirrors_peek_pure
  exact fun _ _ hlike => hlike.congr (a := false) fun t ht => by cases t <;> first | rfl | cases ht

theorem mirrors_atAnySymbol (ss : List String) : Mirrors N ctx c (atAnySymbol ss) (atAnySymbol ss) := by
  have hpure : atAnySymbol ss =
      peek >>= fun l => pure (decide (∃ s ∈ ss, l.token = .symbol s)) := by
    unfold atAnySymbol
    congr
    funext l
    cases l.token <;> simp
  rw [hpure]
  apply mirrors_peek_pure
  intro l l' hlike
  rw [decide_eq_decide]
  exact exists_congr fun s => and_congr_right fun _ => hlike.token_iff Bool.false_ne_true

theorem mirrors_secondIs {test : Lexeme → Bool} (htest : ∀ l l' : Lexeme, l.Like l' → test l = test l') :
    Mirrors N ctx c (secondIs test) (secondIs test) := by
  apply mirrors_of_stays stays_secondIs
  intro a d hrun c' halike
  have hsame : (c.second ctx.marks).map test = (c'.second ctx.marks).map test := by
    unfold Cursor.second
    rw [Cursor.Alike] at halike
    generalize c.ahead = a, c'.ahead = a' at halike
    cases halike with
    | none => rfl
    | @some l l' halike =>
      have hsecond := halike.2
      rw [Cursor.Alike] at hsecond
      simp only [Option.bind_some]
      generalize (l.after ctx.marks).ahead = s, (l'.after ctx.marks).ahead = s' at hsecond
      cases hsecond with
      | none => rfl
      | some hsecond => exact congrArg some (htest _ _ hsecond.1)
  rw [run_secondIs, hsame] at hrun
  cases hrun
  exact ⟨c'.here, run_secondIs test, rfl⟩

end Looks

section Lists

variable {N : Nat} {ctx : Context} {c : Cursor}

/-- A list has no more items than tokens. -/
theorem mirrors_commaList {α : Type} {close : String} {item : Parser α} {fuel fuel' : Nat}
    (hclose : (Token.symbol close).isSettled) (hitem : ∀ M c, Mirrors M ctx c item item)
    (hfuel : N ≤ fuel') : Mirrors N ctx c (commaList close item fuel) (commaList close item fuel') := by
  induction fuel generalizing N c fuel' with
  | zero => exact mirrors_refuse
  | succ fuel ih =>
    have hround (n : Nat) (hn : N ≤ n + 1) :
        Mirrors N ctx c (commaList close item (fuel + 1)) (commaList close item (n + 1)) := by
      rw [commaList, commaList]
      refine (mirrors_eatSymbol hclose).bind fun isClosed _ _ => ?_
      split
      · exact mirrors_pure
      · refine (hitem N _).bind fun a _ _ => mirrors_eatToken_bind rfl Bool.false_ne_true ?_ ?_
        · exact fun c => Mirrors.bind (ih (by omega)) fun as _ _ => mirrors_pure
        · exact fun c => (mirrors_expectSymbol hclose).bind fun _ _ _ => mirrors_pure
    cases fuel' with
    | zero =>
      obtain rfl := Nat.le_zero.mp hfuel
      exact (hround 0 (Nat.zero_le 1)).vacuous
    | succ n => exact hround n hfuel

end Lists

end BarrelAlias.Script
