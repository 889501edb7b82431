import BarrelAlias.Linkage.Exports

/-!
Running a `Load`. A run starts from a loader and ends with one, whether it fails or not. The lemmas
here take a run apart at its binds, so that later proofs speak of runs and not of the monad.
-/

namespace BarrelAlias.Linkage.Load

variable {α β : Type}

/-- The outcome of a load from a loader, and what is known afterwards. -/
def exec (x : Load α) (l : Loader) : Except Failure α × Loader := x.run.run l

@[simp] theorem exec_pure (a : α) (l : Loader) : exec (pure a) l = (.ok a, l) := rfl

@[simp] theorem exec_throw (e : Failure) (l : Loader) :
    exec (throw e : Load α) l = (.error e, l) := rfl

@[simp] theorem exec_get (l : Loader) : exec get l = (.ok l, l) := rfl

@[simp] theorem exec_set (l' l : Loader) : exec (set l') l = (.ok ⟨⟩, l') := rfl

@[simp] theorem exec_modify (f : Loader → Loader) (l : Loader) :
    exec (modify f) l = (.ok ⟨⟩, f l) := rfl

theorem exec_bind (x : Load α) (f : α → Load β) (l : Loader) :
    exec (x >>= f) l =
      match exec x l with
      | (.ok a, l₁) => exec (f a) l₁
      | (.error e, l₁) => (.error e, l₁) := by
  have hb : exec (x >>= f) l =
      ExceptT.bindCont f (exec x l).1 (exec x l).2 := rfl
  rw [hb]
  rcases exec x l with ⟨r, l₁⟩
  cases r with
  | ok a => rfl
  | error e => rfl

theorem exec_bind_ok {x : Load α} {f : α → Load β} {l l' : Loader} {b : β} :
    exec (x >>= f) l = (.ok b, l') ↔
      ∃ a l₁, exec x l = (.ok a, l₁) ∧ exec (f a) l₁ = (.ok b, l') := by
  rw [exec_bind]
  rcases exec x l with ⟨r, l₁⟩
  cases r with
  | ok a =>
    constructor
    · exact fun h => ⟨a, l₁, rfl, h⟩
    · rintro ⟨_, _, hx, h⟩
      cases hx
      exact h
  | error e => simp

/-- A load that succeeds leads on to what follows it. -/
theorem exec_bind_of_ok {x : Load α} {f : α → Load β} {l l₁ : Loader} {a : α}
    (h : exec x l = (.ok a, l₁)) : exec (x >>= f) l = exec (f a) l₁ := by
  rw [exec_bind, h]

end BarrelAlias.Linkage.Load
