import Mathlib.Data.Nat.Digits.Lemmas
import Mathlib.Tactic.IntervalCases

namespace Cpsw.Lib.Digits

/-- The number that bytes stand for, the lowest first. -/
def value (xs : List UInt8) : ℕ := Nat.ofDigits 256 (xs.map UInt8.toNat)

variable {x : UInt8} {xs ys : List UInt8} {n : ℕ}

@[simp] theorem value_nil : value [] = 0 := rfl

@[simp] theorem value_cons : value (x :: xs) = x.toNat + 256 * value xs := by
  rw [value, List.map_cons, Nat.ofDigits_cons]
  rfl

@[simp] theorem value_append : value (xs ++ ys) = value xs + 256 ^ xs.length * value ys := by
  rw [value, List.map_append, Nat.ofDigits_append, List.length_map]
  rfl

theorem value_lt (xs : List UInt8) : value xs < 256 ^ xs.length := by
  have h := Nat.ofDigits_lt_base_pow_length (b := 256) (l := xs.map UInt8.toNat) (by decide)
    fun d hd ↦ by
      obtain ⟨x, -, rfl⟩ := List.mem_map.1 hd
      exact x.toNat_lt
  rwa [List.length_map] at h

/-- As many bytes stand for a number in one way. -/
theorem value_inj (hl : xs.length = ys.length) (h : value xs = value ys) : xs = ys := by
  induction xs generalizing ys with
  | nil => exact (List.length_eq_zero_iff.1 hl.symm).symm
  | cons x xs ih =>
    cases ys with
    | nil => cases hl
    | cons y ys =>
      rw [value_cons, value_cons] at h
      have hx := x.toNat_lt
      have hy := y.toNat_lt
      rw [UInt8.toNat_inj.1 (by omega : x.toNat = y.toNat), ih (by simpa using hl) (by omega)]

theorem value_take (hn : n ≤ xs.length) : value (xs.take n) = value xs % 256 ^ n := by
  have hlen : (xs.take n).length = n := by simpa using hn
  conv_rhs => rw [← List.take_append_drop n xs, value_append, hlen]
  rw [Nat.add_mul_mod_self_left, Nat.mod_eq_of_lt]
  conv_rhs => rw [← hlen]
  exact value_lt _

theorem pow_eq (n : ℕ) : 256 ^ n = 2 ^ (8 * n) := by
  rw [pow_mul]
  norm_num

/-- The lowest `n` bytes of a number. -/
def bytes : ℕ → ℕ → List UInt8
  | 0, _ => []
  | n + 1, v => UInt8.ofNat v :: bytes n (v / 256)

@[simp] theorem bytes_length (n v : ℕ) : (bytes n v).length = n := by
  induction n generalizing v with
  | zero => rfl
  | succ n ih => simp [bytes, ih]

theorem value_bytes (n v : ℕ) : value (bytes n v) = v % 256 ^ n := by
  induction n generalizing v with
  | zero => simp [bytes, Nat.mod_one]
  | succ n ih =>
    rw [bytes, value_cons, ih, pow_succ', Nat.mod_mul, UInt8.toNat_ofNat']

theorem bytes_value (xs : List UInt8) : bytes xs.length (value xs) = xs := by
  apply value_inj (bytes_length _ _)
  rw [value_bytes, Nat.mod_eq_of_lt (value_lt xs)]

/-- The bits of a number are those of its bytes. -/
theorem testBit_value (xs : List UInt8) (k : ℕ) :
    (value xs).testBit k = (xs.getD (k / 8) 0).toNat.testBit (k % 8) := by
  induction xs generalizing k with
  | nil => simp
  | cons x xs ih =>
    have hsum : value (x :: xs) = 2 ^ 8 * value xs + x.toNat := by
      simp only [value_cons, Nat.add_comm, Nat.reducePow]
    rw [hsum, Nat.testBit_two_pow_mul_add _ x.toNat_lt]
    split_ifs with hk
    · have hdiv : k / 8 = 0 := by omega
      have hmod : k % 8 = k := by omega
      rw [hdiv, hmod, List.getD_cons_zero]
    · have hdiv : k / 8 = (k - 8) / 8 + 1 := by omega
      have hmod : k % 8 = (k - 8) % 8 := by omega
      rw [ih, hdiv, hmod, List.getD_cons_succ]

end Cpsw.Lib.Digits
