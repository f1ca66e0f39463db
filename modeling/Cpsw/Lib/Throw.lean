import Mathlib.Tactic.Common

namespace Cpsw.Lib

/-- Computations that can throw; what they have done to the state stays done. -/
abbrev Throw (ε σ : Type) := ExceptT ε (StateM σ)

namespace Throw

variable {ε σ α β : Type}

def exec (x : Throw ε σ α) (s : σ) : Except ε α × σ := x.run.run s

@[simp] theorem exec_pure {a : α} {s : σ} : exec (pure a : Throw ε σ α) s = (.ok a, s) := rfl

@[simp] theorem exec_throw {e : ε} {s : σ} :
    exec (throw e : Throw ε σ α) s = (.error e, s) := rfl

@[simp] theorem exec_get {s : σ} : exec (get : Throw ε σ σ) s = (.ok s, s) := rfl

@[simp] theorem exec_modify {f : σ → σ} {s : σ} :
    exec (modify f : Throw ε σ PUnit) s = (.ok ⟨⟩, f s) := rfl

theorem exec_bind {x : Throw ε σ α} {f : α → Throw ε σ β} {s : σ} : exec (x >>= f) s =
    match exec x s with
    | (.ok a, s) => exec (f a) s
    | (.error e, s) => (.error e, s) := by
  simp only [exec, ExceptT.run_bind, StateT.run_bind]
  rcases x.run.run s with ⟨_ | _, s'⟩ <;> rfl

theorem exec_bind_ok {x : Throw ε σ α} {f : α → Throw ε σ β} {s s' : σ} {b : β} :
    exec (x >>= f) s = (.ok b, s') ↔
      ∃ a s₁, exec x s = (.ok a, s₁) ∧ exec (f a) s₁ = (.ok b, s') := by
  rw [exec_bind]
  rcases exec x s with ⟨_ | a, s₁⟩ <;> simp

theorem exec_bind_error {x : Throw ε σ α} {f : α → Throw ε σ β} {s s' : σ} {e : ε} :
    exec (x >>= f) s = (.error e, s') ↔ exec x s = (.error e, s') ∨
      ∃ a s₁, exec x s = (.ok a, s₁) ∧ exec (f a) s₁ = (.error e, s') := by
  rw [exec_bind]
  rcases exec x s with ⟨_ | a, s₁⟩ <;> simp

theorem exec_tryCatch {x : Throw ε σ α} {f : ε → Throw ε σ α} {s : σ} :
    exec (tryCatch x f) s =
      match exec x s with
      | (.ok a, s) => (.ok a, s)
      | (.error e, s) => exec (f e) s := by
  simp only [exec, ExceptT.run_tryCatch, StateT.run_bind]
  rcases x.run.run s with ⟨_ | _, s'⟩ <;> rfl

end Throw

end Cpsw.Lib
