import Mathlib.Logic.Relation

namespace Cpsw.Lib.Run

variable {σ ε α β : Type}

/-- What holds at the start and is kept by each step holds after any run. -/
theorem invariant {step : σ → σ → Prop} {I : σ → Prop} (keep : ∀ s t, I s → step s t → I t)
    {s t : σ} (h : Relation.ReflTransGen step s t) (hs : I s) : I t := by
  induction h with
  | refl => exact hs
  | tail _ hst ih => exact keep _ _ ih hst

/-- Every step of a run starts where the invariant holds. -/
theorem strengthen {step : σ → σ → Prop} {I : σ → Prop} (keep : ∀ s t, I s → step s t → I t)
    {s t : σ} (h : Relation.ReflTransGen step s t) (hs : I s) :
    Relation.ReflTransGen (fun a b ↦ step a b ∧ I a) s t := by
  induction h with
  | refl => exact .refl
  | tail hsu hut ih => exact ih.tail ⟨hut, invariant keep hsu hs⟩

theorem bind_ok {x : Except ε α} {f : α → Except ε β} {b : β} :
    (x >>= f) = .ok b ↔ ∃ a, x = .ok a ∧ f a = .ok b := by
  cases x with
  | error e => simp [bind, Except.bind]
  | ok a => simp [bind, Except.bind]

theorem toOption_eq_some {x : Except ε α} {a : α} : x.toOption = some a ↔ x = .ok a := by
  cases x with
  | error e => simp [Except.toOption]
  | ok b => simp [Except.toOption]

end Cpsw.Lib.Run
