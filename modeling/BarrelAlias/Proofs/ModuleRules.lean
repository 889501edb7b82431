import BarrelAlias.Proofs.Alongside
import BarrelAlias.Proofs.Plain

/-!
Imports and exports read in two texts side by side. Each rule takes settled tokens only, and one of them
spells the specifier; where another quoted text stands in its place, the rule reads the same with the
other specifier.
-/

namespace BarrelAlias.Script

open Linkage (specifierOf?)

section Rules

variable {N : Nat} {ctx : Context} {c : Cursor}

theorem mirrors_name : Mirrors N ctx c name name := by
  apply mirrors_advance
  · intro l _ _
    split
    · exact mirrors_read (mirrors_require.bind fun _ _ _ => mirrors_pure)
    · exact mirrors_refuse
  · intro l l' htoken
    rw [htoken]
  · intro l _ hl
    split
    · next h => simp [h, Token.isSettled] at hl
    · rfl

theorem mirrors_exportName : Mirrors N ctx c exportName exportName := by
  apply mirrors_advance
  · intro l _ _
    split
    · exact mirrors_pure
    · exact mirrors_require.bind fun _ _ _ => mirrors_pure
    · exact mirrors_refuse
  · intro l l' htoken
    rw [htoken]
  · intro l _ hl
    split
    · next h => simp [h, Token.isSettled] at hl
    · next h => simp [h, Token.isSettled] at hl
    · rfl

theorem quotedText_eq : quotedText = (do
    match (← advance).token with
    | .quoted v _ => return v
    | _ => refuse) := by
  funext ctx c
  simp only [quotedText, specifier, bind]
  cases advance ctx c with
  | none => rfl
  | some r =>
    obtain ⟨l, d⟩ := r
    dsimp only
    cases l.token <;> rfl

theorem mirrors_quotedText : Mirrors N ctx c quotedText quotedText := by
  rw [quotedText_eq]
  apply mirrors_advance
  · intro l _ _
    split
    · exact mirrors_pure
    · exact mirrors_refuse
  · intro l l' htoken
    rw [htoken]
  · intro l _ hl
    split
    · next h => simp [h, Token.isSettled] at hl
    · rfl

theorem mirrors_importAttribute : Mirrors N ctx c importAttribute importAttribute := by
  apply mirrors_advance
  · intro l _ _
    split
    · exact mirrors_pure.bind fun k _ _ => (mirrors_expectSymbol rfl).bind fun _ _ _ =>
        mirrors_quotedText.bind fun _ _ _ => mirrors_pure
    · exact mirrors_pure.bind fun k _ _ => (mirrors_expectSymbol rfl).bind fun _ _ _ =>
        mirrors_quotedText.bind fun _ _ _ => mirrors_pure
    · exact mirrors_refuse
  · intro l l' htoken
    rw [htoken]
  · intro l _ hl
    split
    · next h => simp [h, Token.isSettled] at hl
    · next h => simp [h, Token.isSettled] at hl
    · rfl

theorem mirrors_importAttributes {fuel fuel' : Nat} (hfuel : N ≤ fuel') :
    Mirrors N ctx c (importAttributes fuel) (importAttributes fuel') :=
  (mirrors_expectSymbol rfl).bind fun _ _ _ =>
    (mirrors_commaList rfl (fun _ _ => mirrors_importAttribute) hfuel).bind fun _ _ _ => mirrors_require

theorem mirrors_optionalAttributes {fuel fuel' : Nat} (hfuel : N ≤ fuel') :
    Mirrors N ctx c (optionalAttributes fuel) (optionalAttributes fuel') := by
  refine (mirrors_eatWord "with").bind fun isWith _ _ => ?_
  split
  · exact mirrors_importAttributes hfuel
  · refine (mirrors_atWord "assert").bind fun isAssert d hassert => ?_
    refine mirrors_onNewLine.bind fun onNext e hline => ?_
    split
    · next hboth =>
      obtain ⟨rfl, -⟩ := Bool.and_eq_true_iff.mp hboth
      obtain ⟨hd, l, hl, htoken⟩ := ahead_of_atToken hassert
      have he : e.val = d.val := (stays_peek.bind fun _ => stays_pure) ctx _ _ e hline
      rw [← hd, ← he] at hl
      refine mirrors_advance (fun _ _ _ => mirrors_importAttributes hfuel) (fun _ _ _ => rfl) ?_
      intro l' hl' hnot
      cases hl.symm.trans hl'
      simp [htoken, Token.isSettled] at hnot
    · exact mirrors_pure

theorem mirrors_endStatement : Mirrors N ctx c endStatement endStatement := by
  refine (mirrors_eatSymbol rfl).bind fun isEnded _ _ => ?_
  split
  · exact mirrors_pure
  · refine mirrors_peek (fun _ => mirrors_require) fun l l' hlike => congrArg require ?_
    rw [hlike.1, decide_eq_decide.mpr (hlike.token_iff (t := .symbol braceClose) Bool.false_ne_true),
      decide_eq_decide.mpr (hlike.token_iff (t := .ending) Bool.false_ne_true)]

theorem mirrors_entryRest (first : ExportName) (isType : Bool) :
    Mirrors N ctx c (entryRest first isType) (entryRest first isType) := by
  refine (mirrors_eatWord "as").bind fun isRenamed _ _ => ?_
  split
  · exact mirrors_exportName.bind fun _ _ _ => mirrors_pure
  · exact mirrors_pure

theorem mirrors_atExportName : Mirrors N ctx c atExportName atExportName :=
  mirrors_atAnyWord.bind fun _ _ _ => mirrors_atQuoted.bind fun _ _ _ => mirrors_pure

theorem mirrors_typeAsEntry : Mirrors N ctx c typeAsEntry typeAsEntry := by
  refine (mirrors_eatWord "as").bind fun isRenamed _ _ => ?_
  split
  · refine mirrors_atExportName.bind fun isNamed _ _ => ?_
    split
    · exact mirrors_exportName.bind fun _ _ _ => mirrors_pure
    · exact mirrors_pure
  · refine mirrors_atExportName.bind fun isNamed _ _ => ?_
    split
    · exact mirrors_exportName.bind fun _ _ _ => mirrors_pure
    · exact mirrors_pure

theorem mirrors_entry : Mirrors N ctx c entry entry := by
  refine mirrors_read ((mirrors_atWord "type").bind fun isType _ _ => ?_)
  split
  · refine mirrors_exportName.bind fun first _ _ => (mirrors_eatWord "as").bind fun isRenamed _ _ => ?_
    split
    · exact mirrors_typeAsEntry
    · refine mirrors_atExportName.bind fun isNamed _ _ => ?_
      split
      · exact mirrors_exportName.bind fun _ _ _ => mirrors_entryRest _ true
      · exact mirrors_pure
  · exact mirrors_exportName.bind fun _ _ _ => mirrors_entryRest _ false

theorem mirrors_entryList {g g' : Grammar} (hrounds : N ≤ g'.rounds) (isType : Bool) :
    Mirrors N ctx c (entryList g isType) (entryList g' isType) :=
  (mirrors_expectSymbol rfl).bind fun _ _ _ =>
    (mirrors_commaList rfl (fun _ _ => mirrors_entry) hrounds).bind fun _ _ _ =>
      mirrors_require.bind fun _ _ _ => mirrors_pure

theorem mirrors_importClause (e : Entry) : Mirrors N ctx c (importClause e) (importClause e) :=
  mirrors_read (mirrors_require.bind fun _ _ _ => mirrors_pure)

theorem mirrors_mapM {α β : Type} {f : α → Parser β} (hf : ∀ a c, Mirrors N ctx c (f a) (f a))
    (as : List α) : Mirrors N ctx c (as.mapM f) (as.mapM f) := by
  suffices hloop : ∀ bs c, Mirrors N ctx c (List.mapM.loop f as bs) (List.mapM.loop f as bs) from
    hloop [] c
  induction as with
  | nil => exact fun bs c => mirrors_pure
  | cons a as ih => exact fun bs c => (hf a c).bind fun b _ _ => ih (b :: bs) _

theorem mirrors_namespaceImport : Mirrors N ctx c namespaceImport namespaceImport :=
  (mirrors_expectSymbol rfl).bind fun _ _ _ => (mirrors_expectWord "as").bind fun _ _ _ =>
    mirrors_name.bind fun _ _ _ => mirrors_pure

theorem mirrors_importBindings {g g' : Grammar} (hrounds : N ≤ g'.rounds) (isType : Bool) :
    Mirrors N ctx c (importBindings g isType) (importBindings g' isType) := by
  refine (mirrors_atSymbol "*").bind fun isAll _ _ => ?_
  split
  · exact mirrors_namespaceImport.bind fun _ _ _ => mirrors_pure
  · exact (mirrors_entryList hrounds isType).bind fun es _ _ =>
      mirrors_mapM (fun e _ => mirrors_importClause e) es

theorem mirrors_optionalName : Mirrors N ctx c optionalName optionalName := by
  refine mirrors_atName.bind fun isNamed _ _ => ?_
  split
  · exact mirrors_name.bind fun _ _ _ => mirrors_pure
  · exact mirrors_pure

theorem mirrors_secondIs_token {t : Token} (ht : ¬ t.isQuoted) :
    Mirrors N ctx c (secondIs fun l => l.token = t) (secondIs fun l => l.token = t) :=
  mirrors_secondIs fun _ _ hlike => decide_eq_decide.mpr (hlike.token_iff ht)

theorem mirrors_secondIs_mem {ts : List Token} (ht : ∀ t ∈ ts, ¬ t.isQuoted) :
    Mirrors N ctx c (secondIs fun l => l.token ∈ ts) (secondIs fun l => l.token ∈ ts) :=
  mirrors_secondIs fun _ _ hlike => decide_eq_decide.mpr (hlike.mem_iff ht)

theorem mirrors_marksTypes : Mirrors N ctx c marksTypes marksTypes := by
  refine mirrors_atName.bind fun named _ _ => (mirrors_atWord "from").bind fun isFrom _ _ => ?_
  refine (mirrors_secondIs_mem (by decide)).bind fun follows _ _ => ?_
  exact (mirrors_atAnySymbol _).bind fun _ _ _ => mirrors_pure

theorem mirrors_marksPhase (w : String) : Mirrors N ctx c (marksPhase w) (marksPhase w) := by
  unfold marksPhase
  split
  · exact mirrors_atSymbol "*"
  · split
    · refine mirrors_atName.bind fun named _ _ => (mirrors_atWord "from").bind fun isFrom _ _ => ?_
      exact (mirrors_secondIs_token (t := .word "from" false) Bool.false_ne_true).bind fun _ _ _ => mirrors_pure
    · exact mirrors_pure

theorem mirrors_importHead : Mirrors N ctx c importHead importHead := by
  refine mirrors_optionalName.bind fun n? _ _ => ?_
  split
  · exact mirrors_pure
  · refine mirrors_read (mirrors_marksTypes.bind fun isType _ _ => ?_)
    split
    · exact mirrors_optionalName.bind fun _ _ _ => mirrors_pure
    · refine (mirrors_marksPhase _).bind fun isPhase _ _ => ?_
      split
      · exact mirrors_optionalName.bind fun _ _ _ => mirrors_pure
      · exact mirrors_pure

end Rules

section Renames

variable {α β : Type} {N : Nat} {ctx : Context} {c : Cursor} {view : α → Option Specifier}
  {put : Specifier → α → α} {view' : β → Option Specifier} {put' : Specifier → β → β}
  {p p' : Parser α}

/-- What `p` reads holds the specifier that one of its tokens spells, and wherever another quoted text
stands in the place of that token `p'` reads the same with the other specifier. -/
def Renames (N : Nat) (ctx : Context) (c : Cursor) (view : α → Option Specifier)
    (put : Specifier → α → α) (p p' : Parser α) : Prop :=
  ∀ a d, p ctx c = some (a, d) → ∀ sp, view a = some sp → ∃ k m l whole,
    l.token = .quoted sp.value whole ∧ l.span = sp.span ∧
    Cursor.AbreastBut ctx.marks k m c l d.val c l d.val ∧
    (k + m + 1 < N → ∀ c' l' v whole d', l'.token = .quoted v whole →
      Cursor.AbreastBut ctx.marks k m c l d.val c' l' d' → Cursor.Alike ctx.marks 2 d.val d' →
      ∃ e, p' ctx c' = some (put ⟨v, l'.span⟩ a, e) ∧ e.val = d')

theorem renames_plain (h : Ensures p fun _ a _ => view a = none) : Renames N ctx c view put p p' := by
  intro a d hrun sp hsp
  have hnone : view a = none := h ctx c a d hrun
  rw [hnone] at hsp
  cases hsp

/-- The specifier comes from the second parser. -/
theorem Mirrors.renames {f f' : α → Parser β} (hp : Mirrors N ctx c p p')
    (hf : ∀ a d, p ctx c = some (a, d) → Renames N ctx d.val view' put' (f a) (f' a)) :
    Renames N ctx c view' put' (p >>= f) (p' >>= f') := by
  intro b e hrun sp hsp
  obtain ⟨a, d, e₁, ha, hb, he⟩ := bind_run hrun
  obtain ⟨k, htaken, hmirror⟩ := hp a d ha
  obtain ⟨n, m, l, whole, hl, hspan, htaken', hrename⟩ := hf a d ha b e₁ hb sp hsp
  rw [he] at htaken' hrename
  refine ⟨k + n, m, l, whole, hl, hspan, .after htaken htaken', ?_⟩
  intro hless c' l' v whole' e' hl' h halike
  obtain ⟨d', hfront, hback⟩ := h.split htaken
  have hquoted : l.token.isQuoted := by rw [hl]; rfl
  have hquoted' : l'.token.isQuoted := by rw [hl']; rfl
  obtain ⟨x, hx, hxval⟩ := hmirror (by omega) c' d' hfront (hback.alike hquoted hquoted' halike)
  obtain ⟨y, hy, hyval⟩ := hrename (by omega) d' l' v whole' e' hl' hback halike
  obtain ⟨z, hz, hzval⟩ := run_bind hx hxval hy
  exact ⟨z, hz, hzval.trans hyval⟩

theorem renames_read {f f' : Context → Parser β} (hf : Renames N ctx c view' put' (f ctx) (f' ctx)) :
    Renames N ctx c view' put' (read >>= f) (read >>= f') := by
  refine mirrors_context.renames fun a d hrun => ?_
  cases hrun
  exact hf

/-- A token that is not settled leads to nothing with a specifier. -/
theorem renames_eatToken {t : Token} {f f' : Bool → Parser β} (ht : ¬ t.isQuoted)
    (htrue : Ensures (f true) fun _ b _ => view' b = none)
    (hfalse : Renames N ctx c view' put' (f false) (f' false)) :
    Renames N ctx c view' put' (eatToken t >>= f) (eatToken t >>= f') := by
  intro b e hrun sp hsp
  obtain ⟨eaten, d, e₁, heat, hb, _⟩ := bind_run hrun
  obtain ⟨l, hl, ⟨_, rfl, _⟩ | ⟨hlt, rfl, hd⟩⟩ := eatToken_cases heat
  · have hnone : view' b = none := htrue ctx _ b e₁ hb
    rw [hnone] at hsp
    cases hsp
  · refine (mirrors_eatToken_other hl hlt ht).renames (fun eaten' d' heat' => ?_) b e hrun sp hsp
    cases heat.symm.trans heat'
    rw [hd]
    exact hfalse

/-- The token ahead is taken, whatever comes of it. -/
theorem renames_advance {l : Lexeme} {q q' : Parser β} (hl : c.ahead = some l)
    (hsettled : l.token.isSettled) (hq : ∀ c, Renames N ctx c view' put' q q') :
    Renames N ctx c view' put' (advance >>= fun _ => q) (advance >>= fun _ => q') := by
  have hassoc (q : Parser β) :
      (advance >>= fun _ => q) = (advance >>= fun _ => pure ()) >>= fun _ => q := by
    rw [parser_bind_assoc]
    exact congrArg (advance >>= ·) (funext fun _ => (parser_pure_bind () fun _ => q).symm)
  rw [hassoc q, hassoc q']
  refine Mirrors.renames (mirrors_advance (fun _ _ _ => mirrors_pure) (fun _ _ _ => rfl) ?_)
    fun _ _ _ => hq _
  intro l' hl' hnot
  cases hl.symm.trans hl'
  exact absurd hsettled hnot

/-- The specifier comes from the first parser, if there is one. -/
theorem Renames.bind {f f' : α → Parser β} (hp : Renames N ctx c view put p p')
    (hf : ∀ a, Ensures (f a) (fun _ b _ => view' b = none) ∨
      ∃ b, f a = pure b ∧ view' b = view a ∧ ∀ sp, f' (put sp a) = pure (put' sp b)) :
    Renames N ctx c view' put' (p >>= f) (p' >>= f') := by
  intro b e hrun sp hsp
  obtain ⟨a, d, e₁, ha, hb, he⟩ := bind_run hrun
  obtain hnone | ⟨b', hpure, hview, hput⟩ := hf a
  · have hnone : view' b = none := hnone ctx _ b e₁ hb
    rw [hnone] at hsp
    cases hsp
  · rw [hpure] at hb
    cases hb
    rw [hview] at hsp
    obtain ⟨k, m, l, whole, hl, hspan, htaken, hrename⟩ := hp a d ha sp hsp
    change d.val = e.val at he
    rw [he] at htaken hrename
    refine ⟨k, m, l, whole, hl, hspan, htaken, ?_⟩
    intro hless c' l' v whole' d' hl' h halike
    obtain ⟨x, hx, hxval⟩ := hrename hless c' l' v whole' d' hl' h halike
    obtain ⟨y, hy, hyval⟩ := run_bind (f := f') hx rfl (by rw [hput]; rfl)
    exact ⟨y, hy, hyval.trans hxval⟩

theorem Renames.map {F : α → β} (hp : Renames N ctx c view put p p') (hview : ∀ a, view' (F a) = view a)
    (hput : ∀ sp a, put' sp (F a) = F (put sp a)) :
    Renames N ctx c view' put' (p >>= fun a => pure (F a)) (p' >>= fun a => pure (F a)) :=
  hp.bind fun a => .inr ⟨F a, rfl, hview a, fun sp => congrArg pure (hput sp a).symm⟩

end Renames

/-- The item with this specifier, if it has one. -/
def Item.withSource (sp : Specifier) (i : Item) : Item := i.mapSource fun _ => sp

section Statements

variable {N : Nat} {ctx : Context} {c : Cursor} {g g' : Grammar}

theorem run_specifier (ctx : Context) {l : Lexeme} {v : String} {whole : Bool} (hl : c.ahead = some l)
    (htoken : l.token = .quoted v whole) :
    ∃ d, specifier ctx c = some (⟨v, l.span⟩, d) ∧ d.val = l.after ctx.marks := by
  obtain ⟨d, hadvance, hd⟩ := run_advance ctx hl
  let quotedOnly (l : Lexeme) : Parser Specifier :=
    match l.token with
    | .quoted v _ => pure ⟨v, l.span⟩
    | _ => refuse
  have hpure : quotedOnly l ctx (l.after ctx.marks) = some (⟨v, l.span⟩, Cursor.here _) := by
    simp only [quotedOnly, htoken]
    rfl
  obtain ⟨e, hrun, he⟩ := run_bind (f := quotedOnly) hadvance hd hpure
  exact ⟨e, hrun, he⟩

theorem specifier_cases {sp : Specifier} {d : c.Onward} (h : specifier ctx c = some (sp, d)) :
    ∃ l whole, c.ahead = some l ∧ l.token = .quoted sp.value whole ∧ l.span = sp.span ∧
      d.val = l.after ctx.marks := by
  obtain ⟨l, d₁, e₁, hadvance, hpure, he⟩ := bind_run h
  have hl := (ensures_advance ctx c l d₁ hadvance).1
  cases htoken : l.token with
  | quoted v whole =>
    obtain ⟨d₂, hrun, hd⟩ := run_specifier ctx hl htoken
    cases h.symm.trans hrun
    exact ⟨l, whole, hl, htoken, rfl, hd⟩
  | _ =>
    simp only [htoken] at hpure
    cases hpure

theorem renames_fromModule (hrounds : N ≤ g'.rounds) :
    Renames N ctx c some (fun sp _ => sp) (fromModule g) (fromModule g') := by
  have hassoc (g : Grammar) : fromModule g = specifier >>= fun s =>
      (optionalAttributes g.rounds >>= fun _ => endStatement) >>= fun _ => pure s := by
    simp only [parser_bind_assoc]
    rfl
  rw [hassoc g, hassoc g']
  intro sp d hrun sp' hsp'
  cases hsp'
  obtain ⟨s, d₁, e₁, hspecifier, hrest, he⟩ := bind_run hrun
  obtain ⟨l, whole, hl, htoken, hspan, hd₁⟩ := specifier_cases hspecifier
  obtain ⟨u, d₂, e₂, htail, hpure, he₂⟩ := bind_run hrest
  cases hpure
  have hmirrors : Mirrors N ctx d₁.val (optionalAttributes g.rounds >>= fun _ => endStatement)
      (optionalAttributes g'.rounds >>= fun _ => endStatement) :=
    (mirrors_optionalAttributes hrounds).bind fun _ _ _ => mirrors_endStatement
  obtain ⟨m, htaken, hmirror⟩ := hmirrors u d₂ htail
  change d₂.val = e₁.val at he₂
  rw [he₂, he, hd₁] at htaken hmirror
  refine ⟨0, m, l, whole, htoken, hspan, ⟨c, c, .refl c c, hl, hl, rfl, htaken⟩, ?_⟩
  rintro hless c' l' v whole' d' htoken' ⟨e, e', hfront, he, he', _, hback⟩ halike
  cases hfront
  obtain ⟨x, hx, hxval⟩ := hmirror (by omega) _ d' hback halike
  obtain ⟨y, hy, hyval⟩ := run_specifier ctx he' htoken'
  obtain ⟨z, hz, hzval⟩ := run_bind (f := fun _ => pure (⟨v, l'.span⟩ : Specifier)) hx rfl rfl
  obtain ⟨w, hw, hwval⟩ := run_bind (f := fun s =>
    (optionalAttributes g'.rounds >>= fun _ => endStatement) >>= fun _ => pure s) hy hyval hz
  exact ⟨w, hw, hwval.trans (hzval.trans hxval)⟩

/-- The item is read with another specifier, if it has one. -/
def RenamesItem (N : Nat) (ctx : Context) (c : Cursor) (p p' : Parser Item) : Prop :=
  Renames N ctx c specifierOf? Item.withSource p p'

theorem renames_importFrom (hrounds : N ≤ g'.rounds) (first : Option String) (isType : Bool) :
    RenamesItem N ctx c (importFrom g first isType) (importFrom g' first isType) := by
  have hfrom (clauses : List ImportClause) (c : Cursor) : RenamesItem N ctx c
      (expectWord "from" >>= fun _ => fromModule g >>= fun s => pure (.importFrom clauses s))
      (expectWord "from" >>= fun _ => fromModule g' >>= fun s => pure (.importFrom clauses s)) :=
    (mirrors_expectWord "from").renames fun _ _ _ =>
      (renames_fromModule hrounds).map (fun _ => rfl) fun _ _ => rfl
  unfold importFrom
  split
  · exact (mirrors_importBindings hrounds isType).renames fun clauses _ _ => hfrom clauses _
  · refine (mirrors_eatSymbol rfl).renames fun comma _ _ => ?_
    split
    · exact (mirrors_importBindings hrounds isType).renames fun clauses _ _ =>
        mirrors_pure.renames fun clauses _ _ => hfrom clauses _
    · exact mirrors_pure.renames fun clauses _ _ => hfrom clauses _

theorem renames_importRule (hrounds : N ≤ g'.rounds) :
    RenamesItem N ctx c (importRule g) (importRule g') := by
  refine (mirrors_expectWord "import").renames fun _ _ _ => mirrors_atQuoted.renames fun isBare _ _ => ?_
  split
  · exact (renames_fromModule hrounds).map (fun _ => rfl) fun _ _ => rfl
  · refine mirrors_importHead.renames fun head _ _ => renames_read ?_
    split
    · refine renames_eatToken Bool.false_ne_true ?_ (renames_importFrom hrounds _ _)
      exact ensures_skip fun _ => ensures_pure fun _ => rfl
    · exact renames_importFrom hrounds _ _

theorem renames_exportListRule (hrounds : N ≤ g'.rounds) (isType : Bool) :
    RenamesItem N ctx c (exportListRule g isType) (exportListRule g' isType) := by
  refine (mirrors_entryList hrounds isType).renames fun es _ _ =>
    (mirrors_eatWord "from").renames fun isFrom _ _ => ?_
  split
  · exact (renames_fromModule hrounds).map (fun _ => rfl) fun _ _ => rfl
  · exact renames_plain (ensures_skip fun _ => ensures_skip fun _ => ensures_pure fun _ => rfl)

theorem renames_exportAllRule (hrounds : N ≤ g'.rounds) :
    RenamesItem N ctx c (exportAllRule g) (exportAllRule g') := by
  have hfrom (n : Option String) (c : Cursor) : RenamesItem N ctx c
      (expectWord "from" >>= fun _ => fromModule g >>= fun s => pure (.exportAll n s))
      (expectWord "from" >>= fun _ => fromModule g' >>= fun s => pure (.exportAll n s)) :=
    (mirrors_expectWord "from").renames fun _ _ _ =>
      (renames_fromModule hrounds).map (fun _ => rfl) fun _ _ => rfl
  refine (mirrors_expectSymbol rfl).renames fun _ _ _ => (mirrors_eatWord "as").renames fun isNamed _ _ => ?_
  split
  · exact mirrors_exportName.renames fun n _ _ => mirrors_pure.renames fun n _ _ => hfrom n _
  · exact mirrors_pure.renames fun n _ _ => hfrom n _

theorem renames_typedExport (hrounds : N ≤ g'.rounds) :
    Renames N ctx c (·.bind specifierOf?) (fun sp => Option.map (Item.withSource sp)) (typedExport g)
      (typedExport g') := by
  refine renames_eatToken Bool.false_ne_true ?_ ?_
  · exact ensures_skip fun _ => ensures_skip fun _ => ensures_pure fun _ => rfl
  · refine (mirrors_atWord "as").renames fun isAs _ _ => ?_
    refine (mirrors_secondIs_token (t := .word "namespace" false) Bool.false_ne_true).renames
      fun isNamespace _ _ => ?_
    split
    · refine renames_plain ?_
      exact ensures_skip fun _ => ensures_skip fun _ => ensures_skip fun _ => ensures_skip fun _ =>
        ensures_pure fun _ => rfl
    · refine (mirrors_eatWord "import").renames fun isImport _ _ => ?_
      split
      · refine renames_plain (ensures_skip fun _ => ?_)
        exact ensures_skip fun _ => ensures_skip fun _ => ensures_skip fun _ => ensures_pure fun _ => rfl
      · refine (mirrors_atWord "type").renames fun isType d htype => ?_
        refine (mirrors_secondIs_mem (by decide)).renames fun opens e hsecond => ?_
        split
        · next hboth =>
          obtain ⟨rfl, -⟩ := Bool.and_eq_true_iff.mp hboth
          obtain ⟨hd, l, hl, htoken⟩ := ahead_of_atToken htype
          have he : e.val = d.val := stays_secondIs ctx _ _ e hsecond
          rw [← hd, ← he] at hl
          refine renames_advance hl (by rw [htoken]; rfl) fun c => ?_
          refine (mirrors_atSymbol "*").renames fun isAll _ _ => ?_
          split
          · exact (renames_exportAllRule hrounds).map (fun _ => rfl) fun _ _ => rfl
          · exact (renames_exportListRule hrounds true).map (fun _ => rfl) fun _ _ => rfl
        · exact renames_plain (ensures_pure fun _ => rfl)

theorem renames_exportRule (hrounds : N ≤ g'.rounds) :
    RenamesItem N ctx c (exportRule g) (exportRule g') := by
  refine (mirrors_expectWord "export").renames fun _ _ _ => ?_
  refine (mirrors_eatWord "default").renames fun isDefault _ _ => ?_
  split
  · exact renames_plain (plain_exportDefaultRule g)
  · refine (mirrors_atSymbol "*").renames fun isAll _ _ => ?_
    split
    · exact renames_exportAllRule hrounds
    · refine (mirrors_atSymbol braceOpen).renames fun isList _ _ => ?_
      split
      · exact renames_exportListRule hrounds false
      · refine renames_read ?_
        split
        · refine (renames_typedExport hrounds).bind fun typed => ?_
          cases typed with
          | some i => exact .inr ⟨i, rfl, rfl, fun _ => rfl⟩
          | none => exact .inl (plain_exportedDeclaration g)
        · refine mirrors_pure.renames fun typed d hrun => ?_
          cases hrun
          exact renames_plain (plain_exportedDeclaration g)

end Statements

section Statement

variable {N : Nat} {ctx : Context} {c : Cursor} {g g' : Grammar}

theorem renames_peek {β : Type} {view : β → Option Specifier} {put : Specifier → β → β}
    {f f' : Lexeme → Parser β} (hf : ∀ l, Renames N ctx c view put (f l) (f' l))
    (hsame : ∀ l l' : Lexeme, l.Like l' → f' l = f' l') :
    Renames N ctx c view put (peek >>= f) (peek >>= f') := by
  intro b e hrun sp hsp
  obtain ⟨s, d, e₁, hpeek, hb, he⟩ := bind_run hrun
  have hs := (ensures_peek ctx c s d hpeek).2
  cases hpeek.symm.trans (run_peek hs)
  obtain ⟨k, m, l, whole, hl, hspan, htaken, hrename⟩ := hf s b e₁ hb sp hsp
  rw [he] at htaken hrename
  refine ⟨k, m, l, whole, hl, hspan, htaken, fun hless c' l' v whole' e' hl' h halike => ?_⟩
  have hquoted : l.token.isQuoted := by rw [hl]; rfl
  have hquoted' : l'.token.isQuoted := by rw [hl']; rfl
  obtain ⟨s', hs', hlike, _⟩ := exists_ahead_of_alike hs (h.alike hquoted hquoted' halike)
  obtain ⟨x, hx, hxval⟩ := hrename hless c' l' v whole' e' hl' h halike
  rw [hsame s s' hlike] at hx
  obtain ⟨y, hy, hyval⟩ := run_bind (run_peek hs') rfl hx
  exact ⟨y, hy, hyval.trans hxval⟩

theorem mirrors_atImport : Mirrors N ctx c atImport atImport := by
  refine (mirrors_atWord "import").bind fun isImport _ _ => ?_
  split
  · apply mirrors_secondIs
    intro l l' hlike
    exact decide_eq_decide.mpr (not_congr (hlike.mem_iff (by decide)))
  · exact mirrors_pure

theorem isSome_controlRule (g g' : Grammar) (w : String) :
    (controlRule g w).isSome = (controlRule g' w).isSome := by
  unfold controlRule
  split <;> rfl

theorem renames_statementRule (hrounds : N ≤ g'.rounds) (isSingle : Bool) :
    RenamesItem N ctx c (statementRule g isSingle) (statementRule g' isSingle) := by
  have hexpression : RenamesItem N ctx c (expressionRule g) (expressionRule g') :=
    renames_plain (plain_expressionRule g)
  refine renames_peek (fun l => ?_) fun l l' hlike => ?_
  · split
    · exact renames_plain (ensures_skip fun _ => ensures_pure fun _ => rfl)
    · exact renames_plain (plain_decoratedRule g)
    · split
      · exact renames_plain (ensures_skip fun _ => ensures_pure fun _ => rfl)
      · exact hexpression
    · next w htoken =>
      cases hcontrol : controlRule g w with
      | some rule =>
        exact renames_plain (ensures_skip fun _ => ensures_skip fun _ => ensures_pure fun _ => rfl)
      | none =>
        have hcontrol' : controlRule g' w = none := by
          rw [← Option.not_isSome_iff_eq_none, ← isSome_controlRule g g', hcontrol]
          exact Bool.false_ne_true
        rw [hcontrol']
        dsimp only
        split
        · exact renames_exportRule hrounds
        · split
          · exact renames_plain (plain_letRule g isSingle)
          · refine mirrors_atImport.renames fun isImport _ _ => ?_
            split
            · exact renames_importRule hrounds
            · exact renames_plain (plain_declarationRule g isSingle)
    · exact hexpression
  · rcases hlike.2 with htoken | ⟨hquoted, hquoted'⟩
    · rw [htoken]
    · obtain ⟨v, whole, htoken⟩ := Token.exists_of_isQuoted hquoted
      obtain ⟨v', whole', htoken'⟩ := Token.exists_of_isQuoted hquoted'
      rw [htoken, htoken']

end Statement

end BarrelAlias.Script
