import Mathlib.Data.Nat.ModEq

/-! Sequence numbers of finite width that stand for unbounded indexes. -/

namespace Cpsw.Lib.SeqNum

variable {M W i r : ℕ}

/-- How far, on the circle of `M` numbers, the index `i` lies ahead of `r`. -/
def ahead (M i r : ℕ) : ℕ := (i + (M - r % M)) % M

theorem ahead_of_le (h : r ≤ i) (hi : i < r + M) : ahead M i r = i - r := by
  have hM : r % M < M := Nat.mod_lt _ (by omega)
  have hr := Nat.div_add_mod r M
  have he : i + (M - r % M) = (i - r) + M * (r / M + 1) := by
    rw [Nat.mul_add, Nat.mul_one]
    omega
  unfold ahead
  rw [he, Nat.add_mul_mod_self_left, Nat.mod_eq_of_lt (by omega)]

theorem ahead_of_lt (h : i < r) (hr : r ≤ i + M) : ahead M i r = (M - (r - i)) % M := by
  have hM : r % M < M := Nat.mod_lt _ (by omega)
  have hd := Nat.div_add_mod r M
  unfold ahead
  rcases Nat.eq_zero_or_pos (r / M) with h0 | hpos
  · rw [h0, Nat.mul_zero, Nat.zero_add] at hd
    congr 1
    omega
  · have hmul : M * (r / M - 1) + M = M * (r / M) := by
      rw [← Nat.mul_add_one, Nat.sub_add_cancel hpos]
    have he : i + (M - r % M) = (M - (r - i)) + M * (r / M) := by omega
    rw [he, Nat.add_mul_mod_self_left]

/-- A window of no more than half the circle tells what is new from what is old. -/
theorem ahead_lt_iff (hW : 2 * W ≤ M) (hM : 0 < M) (hold : r ≤ i + W) (hnew : i < r + M) :
    ahead M i r < W ↔ r ≤ i ∧ i < r + W := by
  rcases Nat.lt_or_ge i r with hlt | hge
  · rw [ahead_of_lt hlt (by omega), Nat.mod_eq_of_lt (by omega)]
    omega
  · rw [ahead_of_le hge hnew]
    omega

end Cpsw.Lib.SeqNum
