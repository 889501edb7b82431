import BarrelAlias.Linkage.Summary
import BarrelAlias.Proofs.Running

/-!
Statements that name no module: declarations, expressions, default exports, and all that begins with a
decorator, since what follows a decorator is a class. An export of a class is read by the rule for exports,
which names no module there because of the token it finds ahead.
-/

namespace BarrelAlias.Script

open Linkage (specifierOf?)

def Plain (p : Parser Item) : Prop := Ensures p fun _ i _ => specifierOf? i = none

section Rules

variable (g : Grammar)

theorem plain_exportDefaultRule : Plain (exportDefaultRule g) := by
  have hdeclared (n : Option String) : specifierOf? (defaultDeclared n) = none := by
    cases n <;> rfl
  unfold Plain exportDefaultRule
  repeat' first
    | exact ensures_pure fun _ => hdeclared _
    | exact ensures_pure fun _ => rfl
    | refine ensures_skip fun _ => ?_
    | split

theorem plain_exportedDeclaration : Plain (exportedDeclaration g) := by
  unfold Plain exportedDeclaration
  repeat' first
    | exact ensures_refuse
    | exact ensures_pure fun _ => rfl
    | refine ensures_skip fun _ => ?_
    | split

theorem plain_expressionRule : Plain (expressionRule g) := by
  unfold Plain expressionRule
  repeat' first
    | exact ensures_pure fun _ => rfl
    | refine ensures_skip fun _ => ?_
    | split

theorem plain_declarationRule (isSingle : Bool) : Plain (declarationRule g isSingle) := by
  unfold Plain declarationRule
  repeat' first
    | exact plain_expressionRule g
    | exact ensures_pure fun _ => rfl
    | refine ensures_skip fun _ => ?_
    | split

theorem plain_letRule (isSingle : Bool) : Plain (letRule g isSingle) := by
  unfold Plain letRule
  repeat' first
    | exact plain_expressionRule g
    | exact ensures_pure fun _ => rfl
    | refine ensures_skip fun _ => ?_
    | split

end Rules

section Decorated

variable {α β : Type} {ctx : Context} {c : Cursor} {view : β → Option Specifier} {t : Token} {l : Lexeme}

/-- Here the parser reads nothing that holds a specifier. -/
def PlainAt (ctx : Context) (c : Cursor) (view : β → Option Specifier) (p : Parser β) : Prop :=
  ∀ b d, p ctx c = some (b, d) → view b = none

theorem plainAt_of_plain {p : Parser Item} (h : Plain p) : PlainAt ctx c specifierOf? p := h ctx c

theorem plainAt_bind {p : Parser α} {f : α → Parser β}
    (hf : ∀ a d, p ctx c = some (a, d) → PlainAt ctx d.val view (f a)) :
    PlainAt ctx c view (p >>= f) := by
  intro b e hrun
  obtain ⟨a, d, e₁, ha, hb, _⟩ := bind_run hrun
  exact hf a d ha b e₁ hb

theorem plainAt_atToken {f : Bool → Parser β} (hl : c.ahead = some l) (hlt : l.token ≠ t)
    (hf : PlainAt ctx c view (f false)) : PlainAt ctx c view (atToken t >>= f) := by
  refine plainAt_bind fun b d hrun => ?_
  rw [atToken, run_peek_pure hl, decide_eq_false hlt] at hrun
  cases hrun
  exact hf

theorem plainAt_eatToken {f : Bool → Parser β} (hl : c.ahead = some l) (hlt : l.token ≠ t)
    (hf : PlainAt ctx c view (f false)) : PlainAt ctx c view (eatToken t >>= f) := by
  refine plainAt_bind fun b d hrun => ?_
  obtain ⟨l', hl', ⟨hlt', _⟩ | ⟨_, rfl, hd⟩⟩ := eatToken_cases hrun
  · cases hl.symm.trans hl'
    exact absurd hlt' hlt
  · rw [hd]
    exact hf

/-- The tokens that a class begins with, or its decorators. -/
def classStarts : List Token :=
  [.symbol "@", .word "declare" false, .word "abstract" false, .word "class" false]

theorem ahead_of_expectToken {d : c.Onward} {u : Unit} (h : expectToken t ctx c = some (u, d)) :
    ∃ l, c.ahead = some l ∧ l.token = t := by
  obtain ⟨b, e, _, heat, hrequire, _⟩ := bind_run h
  obtain ⟨l, hl, ⟨hlt, _⟩ | ⟨_, rfl, _⟩⟩ := eatToken_cases heat
  · exact ⟨l, hl, hlt⟩
  · cases hrequire

theorem ahead_of_atClass {d : c.Onward} (h : atClass ctx c = some (true, d)) :
    ∃ l, c.ahead = some l ∧ l.token ∈ classStarts := by
  obtain ⟨_, _, _, hread, h, _⟩ := bind_run h
  cases hread
  obtain ⟨r, d, _, hlook, hpure, _⟩ := bind_run h
  cases hlook
  obtain ⟨u, hclass⟩ := Option.isSome_iff_exists.mp (Prod.mk.inj (Option.some.inj hpure)).1
  obtain ⟨⟨u, e⟩, hclass, _⟩ := Option.map_eq_some_iff.mp hclass
  dsimp only at hclass
  split at hclass
  · obtain ⟨_, e₁, e₂, heat, hclass, _⟩ := bind_run hclass
    obtain ⟨l, hl, ⟨hlt, _⟩ | ⟨_, _, he₁⟩⟩ := eatToken_cases heat
    · exact ⟨l, hl, by rw [hlt]; decide⟩
    change e₁.val = c at he₁
    obtain ⟨_, e₃, e₄, heat, hclass, _⟩ := bind_run hclass
    obtain ⟨l, hl, ⟨hlt, _⟩ | ⟨_, _, he₃⟩⟩ := eatToken_cases heat
    · exact ⟨l, he₁ ▸ hl, by rw [hlt]; decide⟩
    obtain ⟨l, hl, hlt⟩ := ahead_of_expectToken hclass
    exact ⟨l, he₁ ▸ he₃ ▸ hl, by rw [hlt]; decide⟩
  · obtain ⟨l, hl, hlt⟩ := ahead_of_expectToken hclass
    exact ⟨l, hl, by rw [hlt]; decide⟩

theorem plainAt_typedExport (g : Grammar) (hl : c.ahead = some l) (hstart : l.token ∈ classStarts) :
    PlainAt ctx c (·.bind specifierOf?) (typedExport g) := by
  have hne {t : Token} (ht : t ∉ classStarts) : l.token ≠ t := by
    rintro rfl
    exact ht hstart
  refine plainAt_eatToken hl (hne (by decide)) (plainAt_atToken hl (hne (by decide)) ?_)
  refine plainAt_bind fun second d hrun => ?_
  rw [run_secondIs] at hrun
  cases hrun
  refine plainAt_eatToken hl (hne (by decide)) (plainAt_atToken hl (hne (by decide)) ?_)
  refine plainAt_bind fun second d hrun => ?_
  rintro b d hrun
  cases hrun
  rfl

/-- Where an export of a class is ahead, it is the default, or the class follows at once. -/
theorem atClassExport_cases {d : c.Onward} (h : atClassExport ctx c = some (true, d)) :
    ∃ u c₁ isDefault c₂, expectWord "export" ctx c = some (u, c₁) ∧
      eatWord "default" ctx c₁.val = some (isDefault, c₂) ∧
      (isDefault = false → ∃ l, c₂.val.ahead = some l ∧ l.token ∈ classStarts) := by
  obtain ⟨r, _, _, hlook, hpure, _⟩ := bind_run h
  cases hlook
  obtain ⟨u, hclass⟩ := Option.isSome_iff_exists.mp (Prod.mk.inj (Option.some.inj hpure)).1
  obtain ⟨⟨u, e⟩, hclass, _⟩ := Option.map_eq_some_iff.mp hclass
  obtain ⟨u, c₁, e₁, hexport, hclass, _⟩ := bind_run hclass
  obtain ⟨isDefault, c₂, e₂, hdefault, hclass, _⟩ := bind_run hclass
  refine ⟨u, c₁, isDefault, c₂, hexport, hdefault, ?_⟩
  rintro rfl
  obtain ⟨isAt, c₃, _, hat, hclass, _⟩ := bind_run hclass
  obtain ⟨isClass, c₄, _, hatClass, hrequire, _⟩ := bind_run hclass
  cases isAt with
  | true =>
    obtain ⟨_, l, hl, hlt⟩ := ahead_of_atToken hat
    exact ⟨l, hl, by rw [hlt]; decide⟩
  | false =>
    cases isClass with
    | true =>
      have hc₃ : c₃.val = c₂.val := stays_atToken ctx _ _ c₃ hat
      exact hc₃ ▸ ahead_of_atClass hatClass
    | false => cases hrequire

/-- An export of a class names no module. -/
theorem plainAt_exportRule (g : Grammar) {d : c.Onward} (h : atClassExport ctx c = some (true, d)) :
    PlainAt ctx c specifierOf? (exportRule g) := by
  obtain ⟨u, c₁, isDefault, c₂, hexport, hdefault, hstarts⟩ := atClassExport_cases h
  refine plainAt_bind fun _ c₁' hexport' => ?_
  cases hexport.symm.trans hexport'
  refine plainAt_bind fun _ c₂' hdefault' => ?_
  cases hdefault.symm.trans hdefault'
  cases isDefault with
  | true => exact plain_exportDefaultRule g ctx c₂.val
  | false =>
    obtain ⟨l, hl, hstart⟩ := hstarts rfl
    have hne {t : Token} (ht : t ∉ classStarts) : l.token ≠ t := by
      rintro rfl
      exact ht hstart
    refine plainAt_atToken hl (hne (by decide)) (plainAt_atToken hl (hne (by decide)) ?_)
    refine plainAt_bind fun ctx' d hread => ?_
    cases hread
    split
    · refine plainAt_bind fun typed d htyped => ?_
      have hview := plainAt_typedExport g hl hstart typed d htyped
      cases typed with
      | some i => exact plainAt_of_plain (ensures_pure fun _ => hview)
      | none => exact plainAt_of_plain (plain_exportedDeclaration g)
    · refine plainAt_bind fun typed d hpure => ?_
      cases hpure
      exact plainAt_of_plain (plain_exportedDeclaration g)

theorem plain_decoratedRule (g : Grammar) : Plain (decoratedRule g) := by
  refine ensures_skip fun _ => ?_
  intro ctx c i e hrun
  refine plainAt_bind (fun isExport d hat => ?_) i e hrun
  have hd : d.val = c := stays_atClassExport ctx c isExport d hat
  cases isExport with
  | true =>
    rw [hd]
    exact plainAt_exportRule g hat
  | false =>
    refine plainAt_of_plain (ensures_skip fun _ => ensures_skip fun _ => ensures_skip fun ds? => ?_)
    cases ds? with
    | some ds => exact ensures_pure fun _ => rfl
    | none => exact ensures_refuse

end Decorated

end BarrelAlias.Script
