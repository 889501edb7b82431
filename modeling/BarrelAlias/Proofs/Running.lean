import BarrelAlias.Script.Program

/-!
Runs of parsers. A run of two parsers one after another is taken apart once, and so is what each of the
smallest parsers reads: a token that is taken is left behind, and parsers that only look stay where they
are.
-/

namespace BarrelAlias.Script

open Text (GoesOn)

section Ensures

variable {α β : Type} {p : Parser α} {f : α → Parser β}

/-- What a parser returns satisfies a condition, along with the places before and after it. -/
def Ensures (p : Parser α) (Q : Cursor → α → Cursor → Prop) : Prop :=
  ∀ ctx c a d, p ctx c = some (a, d) → Q c a d.val

theorem bind_run {ctx : Context} {c : Cursor} {b : β} {e : c.Onward}
    (h : (p >>= f) ctx c = some (b, e)) :
    ∃ a d e', p ctx c = some (a, d) ∧ f a ctx d.val = some (b, e') ∧ e'.val = e.val := by
  dsimp only [bind] at h
  split at h
  · next a d hp =>
    split at h
    · next b' e' hf =>
      cases h
      exact ⟨a, d, e', hp, hf, rfl⟩
    · simp at h
  · simp at h

theorem Ensures.bind {Q : Cursor → α → Cursor → Prop} {R : α → Cursor → β → Cursor → Prop}
    {S : Cursor → β → Cursor → Prop} (hp : Ensures p Q) (hf : ∀ a, Ensures (f a) (R a))
    (h : ∀ {c a d b e}, c.Before d → d.Before e → Q c a d → R a d b e → S c b e) :
    Ensures (p >>= f) S := by
  intro ctx c b e hrun
  obtain ⟨a, d, e', ha, hb, he⟩ := bind_run hrun
  rw [← he]
  exact h d.property e'.property (hp ctx c a d ha) (hf a ctx d.val b e' hb)

theorem ensures_pure {Q : Cursor → α → Cursor → Prop} {a : α} (h : ∀ c, Q c a c) :
    Ensures (pure a : Parser α) Q := by
  intro ctx c b d hrun
  cases hrun
  exact h c

theorem ensures_refuse {Q : Cursor → α → Cursor → Prop} : Ensures (refuse : Parser α) Q := by
  intro ctx c a d hrun
  cases hrun

/-- What holds of all that the second parser returns holds of all that both return. -/
theorem ensures_skip {Q : β → Prop} (hf : ∀ a, Ensures (f a) fun _ b _ => Q b) :
    Ensures (p >>= f) fun _ b _ => Q b :=
  Ensures.bind (Q := fun _ _ _ => True) (fun _ _ _ _ _ => trivial) hf fun _ _ _ h => h

end Ensures

/-- The second cursor is past the token ahead of the first. -/
def Cursor.Past (c d : Cursor) : Prop :=
  ∃ l, c.ahead = some l ∧ GoesOn l.span.start l.source d.stop d.rest

theorem Cursor.Past.trans {c d e : Cursor} (h : c.Past d) (h' : d.Before e) : c.Past e := by
  obtain ⟨l, hl, hd⟩ := h
  exact ⟨l, hl, GoesOn.trans hd h'⟩

def Stays {α : Type} (p : Parser α) : Prop := Ensures p fun c _ d => d = c

section Stays

variable {α β : Type} {p : Parser α} {f : α → Parser β}

theorem stays_pure {a : α} : Stays (pure a : Parser α) := ensures_pure fun _ => rfl

theorem Stays.bind (hp : Stays p) (hf : ∀ a, Stays (f a)) : Stays (p >>= f) :=
  Ensures.bind hp hf fun _ _ hd he => he.trans hd

theorem ensures_peek : Ensures peek fun c l d => d = c ∧ c.ahead = some l := by
  intro ctx c l d hrun
  obtain ⟨l', hl, h⟩ := Option.map_eq_some_iff.mp hrun
  cases h
  exact ⟨rfl, hl⟩

theorem stays_peek : Stays peek := fun ctx c l d hrun => (ensures_peek ctx c l d hrun).1

theorem stays_lookahead : Stays (lookahead p) := by
  intro ctx c a d hrun
  cases hrun
  rfl

theorem stays_atToken {t : Token} : Stays (atToken t) := stays_peek.bind fun _ => stays_pure

theorem stays_secondIs {test : Lexeme → Bool} : Stays (secondIs test) :=
  stays_lookahead.bind fun _ => stays_pure

theorem stays_atImport : Stays atImport := by
  refine stays_atToken.bind fun _ => ?_
  split
  · exact stays_secondIs
  · exact stays_pure

theorem stays_atClassExport : Stays atClassExport := stays_lookahead.bind fun _ => stays_pure

end Stays

theorem ensures_advance : Ensures advance fun c l d => c.ahead = some l ∧ d.stop = l.span.stop ∧
    d.rest = l.rest := by
  intro ctx c l d hrun
  unfold advance at hrun
  split at hrun
  · next hl =>
    cases hrun
    exact ⟨hl, rfl, rfl⟩
  · cases hrun

theorem ensures_past : Ensures advance fun c _ d => c.Past d := by
  intro ctx c l d hrun
  obtain ⟨hl, hstop, hrest⟩ := ensures_advance ctx c l d hrun
  refine ⟨l, hl, ?_⟩
  rw [hstop, hrest]
  exact (c.standsIn l hl).rest

/-- A token that is eaten is left behind. -/
theorem ensures_eatToken {t : Token} :
    Ensures (eatToken t) fun c eaten d => if eaten then c.Past d else d = c := by
  refine Ensures.bind stays_atToken (R := fun _ c eaten d => if eaten then c.Past d else d = c)
    (fun b => ?_) fun _ _ hd he => by rwa [hd] at he
  split
  · refine Ensures.bind ensures_past (R := fun _ d eaten e => eaten = true ∧ d.Before e)
      (fun _ => ensures_pure fun d => ⟨rfl, .refl d⟩) ?_
    intro c _ d eaten e _ _ hd he
    rw [he.1, if_pos rfl]
    exact hd.trans he.2
  · exact ensures_pure fun _ => rfl

theorem ensures_expectToken {t : Token} : Ensures (expectToken t) fun c _ d => c.Past d := by
  refine Ensures.bind ensures_eatToken (R := fun eaten d _ e => eaten = true ∧ d.Before e) ?_ ?_
  · intro eaten
    cases eaten with
    | true => exact ensures_pure fun d => ⟨rfl, .refl d⟩
    | false => exact ensures_refuse
  · intro c eaten d _ e _ _ hd he
    rw [he.1, if_pos rfl] at hd
    exact hd.trans he.2

/-- The cursor after the token. -/
def Lexeme.after (marks : Bool) (l : Lexeme) : Cursor := .at marks l.span.stop false l.rest

section Runs

variable {α β : Type} {ctx : Context} {c : Cursor} {p : Parser α} {f : α → Parser β}

theorem run_bind {a : α} {d : c.Onward} {mid : Cursor} {b : β} {e : mid.Onward}
    (hp : p ctx c = some (a, d)) (hd : d.val = mid) (hf : f a ctx mid = some (b, e)) :
    ∃ e', (p >>= f) ctx c = some (b, e') ∧ e'.val = e.val := by
  subst hd
  refine ⟨⟨e.val, d.property.trans e.property⟩, ?_, rfl⟩
  dsimp only [bind]
  simp only [hp, hf]

theorem parser_bind_pure (p : Parser α) : p >>= pure = p := by
  funext ctx c
  dsimp only [bind]
  cases p ctx c <;> rfl

theorem parser_pure_bind (a : α) (f : α → Parser β) : pure a >>= f = f a := by
  funext ctx c
  dsimp only [bind, pure]
  change _ = f a ctx c.here.val
  cases f a ctx c.here.val <;> rfl

theorem parser_bind_assoc {γ : Type} (p : Parser α) (f : α → Parser β) (f' : β → Parser γ) :
    p >>= f >>= f' = p >>= fun a => f a >>= f' := by
  funext ctx c
  dsimp only [bind]
  cases p ctx c with
  | none => rfl
  | some r =>
    dsimp only
    cases f r.1 ctx r.2.val with
    | none => rfl
    | some r' =>
      dsimp only
      cases f' r'.1 ctx r'.2.val <;> rfl

theorem run_peek {l : Lexeme} (hl : c.ahead = some l) : peek ctx c = some (l, c.here) := by
  rw [peek, hl]
  rfl

theorem run_advance (ctx : Context) {l : Lexeme} (hl : c.ahead = some l) :
    ∃ d, advance ctx c = some (l, d) ∧ d.val = l.after ctx.marks := by
  unfold advance
  split
  · next l' hl' =>
    cases hl.symm.trans hl'
    exact ⟨_, rfl, rfl⟩
  · next hnone => cases hl.symm.trans hnone

theorem run_peek_pure {l : Lexeme} (hl : c.ahead = some l) (f : Lexeme → α) :
    (peek >>= fun l => pure (f l)) ctx c = some (f l, c.here) := by
  have hpeek : peek ctx c = some (l, c.here) := run_peek hl
  obtain ⟨d, hd, hval⟩ := run_bind (f := fun l => pure (f l)) hpeek rfl rfl
  rw [hd]
  exact congrArg (fun d => some (f l, d)) (Subtype.ext hval)

/-- A token is eaten if it is the one that is asked for. -/
theorem run_eatToken (ctx : Context) {l : Lexeme} (hl : c.ahead = some l) (t : Token) :
    ∃ d, eatToken t ctx c = some (decide (l.token = t), d) ∧
      d.val = if l.token = t then l.after ctx.marks else c := by
  have hat : atToken t ctx c = some (decide (l.token = t), c.here) := run_peek_pure hl _
  let eating (b : Bool) : Parser Bool := if b then (do let _ ← advance; return true) else return false
  by_cases ht : l.token = t
  · obtain ⟨d, hadvance, hd⟩ := run_advance ctx hl
    obtain ⟨d', heat, hd'⟩ := run_bind (f := fun _ => pure true) hadvance rfl rfl
    rw [decide_eq_true ht] at hat ⊢
    rw [if_pos ht]
    obtain ⟨e, heat, he⟩ := run_bind (f := eating) hat rfl heat
    exact ⟨e, heat, he.trans (hd'.trans hd)⟩
  · rw [decide_eq_false ht] at hat ⊢
    rw [if_neg ht]
    exact run_bind (f := eating) hat rfl rfl

/-- Where the token is the one that is asked for, it stands ahead. -/
theorem ahead_of_atToken {t : Token} {d : c.Onward} (h : atToken t ctx c = some (true, d)) :
    d.val = c ∧ ∃ l, c.ahead = some l ∧ l.token = t := by
  obtain ⟨l, e, _, hpeek, _⟩ := bind_run h
  have hl := (ensures_peek ctx c l e hpeek).2
  rw [atToken, run_peek_pure hl] at h
  obtain ⟨ht, rfl⟩ := Prod.mk.inj (Option.some.inj h)
  exact ⟨rfl, l, hl, of_decide_eq_true ht⟩

theorem eatToken_cases {t : Token} {b : Bool} {d : c.Onward} (h : eatToken t ctx c = some (b, d)) :
    ∃ l, c.ahead = some l ∧ ((l.token = t ∧ b = true ∧ d.val = l.after ctx.marks) ∨
      (l.token ≠ t ∧ b = false ∧ d.val = c)) := by
  obtain ⟨_, _, _, hat, _⟩ := bind_run h
  obtain ⟨l, e, _, hpeek, _⟩ := bind_run hat
  have hl := (ensures_peek ctx c l e hpeek).2
  obtain ⟨d', hrun, hd⟩ := run_eatToken ctx hl t
  cases h.symm.trans hrun
  refine ⟨l, hl, ?_⟩
  by_cases ht : l.token = t
  · exact .inl ⟨ht, decide_eq_true ht, hd.trans (if_pos ht)⟩
  · exact .inr ⟨ht, decide_eq_false ht, hd.trans (if_neg ht)⟩

/-- The token after the one ahead. -/
def Cursor.second (marks : Bool) (c : Cursor) : Option Lexeme :=
  c.ahead.bind fun l => (l.after marks).ahead

theorem second_eq_peek : ((advance >>= fun _ => peek) ctx c).map (·.1) = c.second ctx.marks := by
  cases hl : c.ahead with
  | none =>
    have hnone : advance ctx c = none := by
      cases hrun : advance ctx c with
      | none => rfl
      | some r => cases hl.symm.trans (ensures_advance ctx c r.1 r.2 hrun).1
    simp [bind, hnone, Cursor.second, hl]
  | some l =>
    obtain ⟨⟨_, hbefore⟩, hrun, rfl⟩ := run_advance ctx hl
    simp only [bind, hrun, Cursor.second, hl, Option.bind_some, peek]
    cases (l.after ctx.marks).ahead <;> rfl

theorem run_secondIs (test : Lexeme → Bool) :
    secondIs test ctx c = some (((c.second ctx.marks).map test).getD false, c.here) := by
  rw [← second_eq_peek]
  rfl

end Runs

end BarrelAlias.Script
