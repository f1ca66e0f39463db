import Mathlib.Algebra.Order.Group.Int
import Mathlib.Tactic.Common

namespace Cpsw.Lib.Tally

variable {τ : Type}

/-- What the members of a list add up to, each with its weight. -/
def tally (w : τ → ℤ) : List τ → ℤ
  | [] => 0
  | t :: ts => w t + tally w ts

variable {w w' : τ → ℤ} {ts : List τ} {k : ℕ} {t : τ}

theorem tally_cons (w : τ → ℤ) (t : τ) (ts : List τ) : tally w (t :: ts) = w t + tally w ts := rfl

/-- One member is replaced. -/
theorem tally_set (w : τ → ℤ) (h : ts[k]? = some t) (t' : τ) :
    tally w (ts.set k t') = tally w ts - w t + w t' := by
  induction ts generalizing k with
  | nil => simp at h
  | cons x ts ih =>
    cases k with
    | zero =>
      obtain rfl : x = t := by simpa using h
      rw [List.set_cons_zero, tally_cons, tally_cons]
      omega
    | succ k =>
      rw [List.set_cons_succ, tally_cons, tally_cons, ih (by simpa using h)]
      omega

theorem tally_nonneg (hw : ∀ t ∈ ts, 0 ≤ w t) : 0 ≤ tally w ts := by
  induction ts with
  | nil => exact le_rfl
  | cons x ts ih =>
    have hx := hw x List.mem_cons_self
    have hts := ih fun t ht ↦ hw t (List.mem_cons_of_mem x ht)
    rw [tally_cons]
    omega

theorem tally_le (hw : ∀ t ∈ ts, w t ≤ w' t) : tally w ts ≤ tally w' ts := by
  induction ts with
  | nil => exact le_rfl
  | cons x ts ih =>
    have hx := hw x List.mem_cons_self
    have hts := ih fun t ht ↦ hw t (List.mem_cons_of_mem x ht)
    rw [tally_cons, tally_cons]
    omega

/-- Where each weight is at most the other, a difference at one member remains. -/
theorem tally_gap (hw : ∀ t ∈ ts, w t ≤ w' t) (ht : t ∈ ts) :
    tally w ts + (w' t - w t) ≤ tally w' ts := by
  induction ts with
  | nil => simp at ht
  | cons x ts ih =>
    have hx := hw x List.mem_cons_self
    have hts : ∀ t ∈ ts, w t ≤ w' t := fun t ht ↦ hw t (List.mem_cons_of_mem x ht)
    rw [tally_cons, tally_cons]
    rcases List.mem_cons.1 ht with rfl | ht
    · have := tally_le hts
      omega
    · have := ih hts ht
      omega

theorem tally_eq_zero (hw : ∀ t ∈ ts, w t = 0) : tally w ts = 0 := by
  induction ts with
  | nil => rfl
  | cons x ts ih =>
    rw [tally_cons, hw x List.mem_cons_self, ih fun t ht ↦ hw t (List.mem_cons_of_mem x ht)]
    rfl

end Cpsw.Lib.Tally
