import BarrelAlias.Proofs.Parts

/-!
Two runs side by side. The parts of two modules point to the same files in the same order, and each of
the runs has its own tree, its own loader and its own way to enter files. If entering one file comes to
the same on both sides, so does the whole run; what "the same" means for loaders and for answers is left
open here.
-/

namespace BarrelAlias.Linkage

open Loader

/-- Both runs have failed in the same way, or have found what `A` relates and ended in loaders that `P`
relates. -/
def Together {α β : Type} (P : Loader → Loader → Prop) (A : α → β → Prop) (r₁ : Except Failure α)
    (r₂ : Except Failure β) (l₁ l₂ : Loader) : Prop :=
  (∃ e, r₁ = .error e ∧ r₂ = .error e) ∨ ∃ a b, r₁ = .ok a ∧ r₂ = .ok b ∧ A a b ∧ P l₁ l₂

/-- Entering the file comes to the same on both sides. -/
def EntersTogether (P : Loader → Loader → Prop) (A : Found KeyMap → Found KeyMap → Prop)
    (enter₁ enter₂ : Enter) (g : Path) : Prop :=
  ∀ l₁ l₂ r₁ r₂ l₁' l₂', P l₁ l₂ → (enter₁ g).exec l₁ = (r₁, l₁') → (enter₂ g).exec l₂ = (r₂, l₂') →
    Together P (fun f₁ f₂ => ∀ km₁ km₂, Shows l₁'.decls f₁.value km₁ → Shows l₂'.decls f₂.value km₂ →
      A ⟨km₁, f₁.low⟩ ⟨km₂, f₂.low⟩) r₁ r₂ l₁' l₂'

section

variable {t₁ t₂ : FileTree} {S₁ S₂ : List (List Step)} {P : Loader → Loader → Prop}
  {A : Found KeyMap → Found KeyMap → Prop} {enter₁ enter₂ : Enter} {l₁ l₂ l₁' l₂' : Loader}

theorem Met.together
    (hquiet : ∀ l₁ l₂ m₁ m₂, P l₁ l₂ → l₁.Quiet m₁ → l₂.Quiet m₂ → m₁.Sound t₁ S₁ → m₂.Sound t₂ S₂ →
      P m₁ m₂)
    (hknown : A ⟨.empty, none⟩ ⟨.empty, none⟩) {target : Option Path}
    (he : ∀ g, target = some g → EntersTogether P A enter₁ enter₂ g) (hp : P l₁ l₂)
    {r₁ r₂ : Except Failure (Found KeyMap)} (h₁ : Met t₁ S₁ enter₁ l₁ target r₁ l₁')
    (h₂ : Met t₂ S₂ enter₂ l₂ target r₂ l₂') : Together P A r₁ r₂ l₁' l₂' := by
  cases h₁ with
  | known hq₁ hs₁ =>
    cases h₂ with
    | known hq₂ hs₂ => exact Or.inr ⟨_, _, rfl, rfl, hknown, hquiet _ _ _ _ hp hq₁ hq₂ hs₁ hs₂⟩
  | @entered g m₁ _ f₁ km₁ hq₁ hs₁ hx₁ _ _ hsh₁ =>
    cases h₂ with
    | @entered _ m₂ _ f₂ km₂ hq₂ hs₂ hx₂ _ _ hsh₂ =>
      rcases he g rfl m₁ m₂ _ _ _ _ (hquiet _ _ _ _ hp hq₁ hq₂ hs₁ hs₂) hx₁ hx₂ with
        ⟨e, hr, _⟩ | ⟨_, _, hr, hr', hA, hP⟩
      · cases hr
      · cases hr
        cases hr'
        exact Or.inr ⟨_, _, rfl, rfl, hA km₁ km₂ hsh₁ hsh₂, hP⟩
    | @failed _ m₂ _ e hq₂ hs₂ hx₂ _ _ =>
      rcases he g rfl m₁ m₂ _ _ _ _ (hquiet _ _ _ _ hp hq₁ hq₂ hs₁ hs₂) hx₁ hx₂ with
        ⟨_, hr, _⟩ | ⟨_, _, _, hr, _⟩
      · cases hr
      · cases hr
  | @failed g m₁ _ e hq₁ hs₁ hx₁ _ _ =>
    cases h₂ with
    | @entered _ m₂ _ f₂ km₂ hq₂ hs₂ hx₂ _ _ _ =>
      rcases he g rfl m₁ m₂ _ _ _ _ (hquiet _ _ _ _ hp hq₁ hq₂ hs₁ hs₂) hx₁ hx₂ with
        ⟨_, _, hr⟩ | ⟨_, _, hr, _⟩
      · cases hr
      · cases hr
    | @failed _ m₂ _ e' hq₂ hs₂ hx₂ _ _ =>
      rcases he g rfl m₁ m₂ _ _ _ _ (hquiet _ _ _ _ hp hq₁ hq₂ hs₁ hs₂) hx₁ hx₂ with
        ⟨_, hr, hr'⟩ | ⟨_, _, hr, _⟩
      · cases hr
        cases hr'
        exact Or.inl ⟨e, rfl, rfl⟩
      · cases hr

/-- Runs through parts that point to the same files go together if entering each of the files does. -/
theorem Ran.together
    (hquiet : ∀ l₁ l₂ m₁ m₂, P l₁ l₂ → l₁.Quiet m₁ → l₂.Quiet m₂ → m₁.Sound t₁ S₁ → m₂.Sound t₂ S₂ →
      P m₁ m₂)
    (hknown : A ⟨.empty, none⟩ ⟨.empty, none⟩) {ps qs : List Part}
    (hsame : List.Forall₂ (fun p q => p.target? = q.target?) ps qs)
    (he : ∀ p ∈ ps, ∀ g, p.target? = some g → EntersTogether P A enter₁ enter₂ g) (hp : P l₁ l₂)
    {r₁ r₂ : Except Failure (List (Found KeyMap))} (h₁ : Ran t₁ S₁ enter₁ l₁ ps r₁ l₁')
    (h₂ : Ran t₂ S₂ enter₂ l₂ qs r₂ l₂') : Together P (List.Forall₂ A) r₁ r₂ l₁' l₂' := by
  induction hsame generalizing l₁ l₂ r₁ r₂ with
  | nil =>
    cases r₁ with
    | error e => cases h₁
    | ok as =>
      cases r₂ with
      | error e => cases h₂
      | ok bs =>
        cases h₁ with
        | nil hq₁ hs₁ =>
          cases h₂ with
          | nil hq₂ hs₂ => exact Or.inr ⟨[], [], rfl, rfl, .nil, hquiet _ _ _ _ hp hq₁ hq₂ hs₁ hs₂⟩
  | @cons p q ps qs htarget _ ih =>
    have hhead := he p (List.mem_cons_self ..)
    have htail : ∀ q ∈ ps, ∀ g, q.target? = some g → EntersTogether P A enter₁ enter₂ g :=
      fun q hq => he q (List.mem_cons_of_mem p hq)
    rcases h₁.cons_cases with ⟨e₁, rfl, hm₁⟩ | ⟨a, m₁, r₁', hm₁, ht₁, rfl⟩
    · rcases h₂.cons_cases with ⟨e₂, rfl, hm₂⟩ | ⟨b, m₂, r₂', hm₂, ht₂, rfl⟩
      · rcases Met.together hquiet hknown hhead hp hm₁ (htarget ▸ hm₂) with
          ⟨e, hr₁, hr₂⟩ | ⟨_, _, hr, _⟩
        · cases hr₁
          cases hr₂
          exact Or.inl ⟨e₁, rfl, rfl⟩
        · cases hr
      · rcases Met.together hquiet hknown hhead hp hm₁ (htarget ▸ hm₂) with
          ⟨_, _, hr⟩ | ⟨_, _, hr, _⟩
        · cases hr
        · cases hr
    · rcases h₂.cons_cases with ⟨e₂, rfl, hm₂⟩ | ⟨b, m₂, r₂', hm₂, ht₂, rfl⟩
      · rcases Met.together hquiet hknown hhead hp hm₁ (htarget ▸ hm₂) with
          ⟨_, hr, _⟩ | ⟨_, _, _, hr, _⟩
        · cases hr
        · cases hr
      · rcases Met.together hquiet hknown hhead hp hm₁ (htarget ▸ hm₂) with
          ⟨_, hr, _⟩ | ⟨_, _, hr₁, hr₂, hab, hend⟩
        · cases hr
        · cases hr₁
          cases hr₂
          rcases ih htail hend ht₁ ht₂ with ⟨e, rfl, rfl⟩ | ⟨as, bs, rfl, rfl, halike, hend⟩
          · exact Or.inl ⟨e, rfl, rfl⟩
          · exact Or.inr ⟨a :: as, b :: bs, rfl, rfl, .cons hab halike, hend⟩

end

end BarrelAlias.Linkage
