import Mathlib.Data.BitVec
import Mathlib.Logic.Function.Iterate

namespace Cpsw.Lib.Crc

variable {w m : ℕ} (poly : BitVec w)

/-- The bit `b` alone. -/
def unit (w : ℕ) (b : Bool) : BitVec w := if b then 1 else 0

/-- One place down; where a one falls out the polynomial is subtracted. -/
def shift (x : BitVec w) : BitVec w := (x >>> 1) ^^^ (if x.getLsbD 0 then poly else 0)

/-- The next bit of the message. -/
def feed (crc : BitVec w) (b : Bool) : BitVec w :=
  (crc >>> 1) ^^^ (if crc.getLsbD 0 ^^ b then poly else 0)

/-- A symbol of `m` bits, the low ones first. -/
def symbol (crc : BitVec w) (x : BitVec m) : BitVec w :=
  (List.range m).foldl (fun crc i ↦ feed poly crc (x.getLsbD i)) crc

/-- What a symbol that falls out all at once leaves. -/
def entry (x : BitVec m) : BitVec w := (shift poly)^[m] (x.setWidth w)

section Shift

variable {poly} {x y : BitVec w} {n : ℕ}

theorem shift_xor (x y : BitVec w) : shift poly (x ^^^ y) = shift poly x ^^^ shift poly y := by
  have hself : poly ^^^ poly = 0 := BitVec.xor_self
  unfold shift
  rw [BitVec.ushiftRight_xor_distrib, BitVec.getLsbD_xor]
  cases x.getLsbD 0 <;> cases y.getLsbD 0
  · simp
  · simp [BitVec.xor_assoc]
  · simp only [Bool.xor_false, if_true, Bool.false_eq_true, if_false]
    ac_rfl
  · have hsplit : x >>> 1 ^^^ poly ^^^ (y >>> 1 ^^^ poly) = x >>> 1 ^^^ y >>> 1 ^^^ (poly ^^^ poly) := by
      ac_rfl
    simp [hsplit]

theorem iterate_shift_xor (n : ℕ) (x y : BitVec w) :
    (shift poly)^[n] (x ^^^ y) = (shift poly)^[n] x ^^^ (shift poly)^[n] y := by
  induction n with
  | zero => rfl
  | succ n ih => rw [Function.iterate_succ_apply', ih, shift_xor, Function.iterate_succ_apply',
      Function.iterate_succ_apply']

/-- Where no one falls out, the shifts only shift. -/
theorem iterate_shift_high (h : ∀ i < n, x.getLsbD i = false) : (shift poly)^[n] x = x >>> n := by
  induction n with
  | zero => exact (BitVec.ushiftRight_zero x).symm
  | succ n ih =>
    have hlow : (x >>> n).getLsbD 0 = false := by
      rw [BitVec.getLsbD_ushiftRight]
      exact h n (Nat.lt_succ_self n)
    rw [Function.iterate_succ_apply', ih fun i hi ↦ h i (Nat.lt_succ_of_lt hi), shift, hlow,
      BitVec.shiftRight_add]
    exact BitVec.xor_zero

theorem getLsbD_unit (b : Bool) (i : ℕ) : (unit w b).getLsbD i = (decide (i = 0 ∧ 0 < w) && b) := by
  cases b with
  | false => simp [unit]
  | true => simp [unit, BitVec.getLsbD_one, Bool.and_comm]

theorem feed_eq_shift (hw : 0 < w) (crc : BitVec w) (b : Bool) :
    feed poly crc b = shift poly (crc ^^^ unit w b) := by
  have hdown : unit w b >>> 1 = 0 := by
    apply BitVec.eq_of_getLsbD_eq
    intro i _
    rw [BitVec.getLsbD_ushiftRight, getLsbD_unit, decide_eq_false (by omega), Bool.false_and]
    exact BitVec.getLsbD_zero.symm
  have hlow : (unit w b).getLsbD 0 = b := by
    rw [getLsbD_unit, decide_eq_true ⟨rfl, hw⟩, Bool.true_and]
  rw [feed, shift, BitVec.ushiftRight_xor_distrib, hdown, BitVec.getLsbD_xor, hlow]
  congr 1
  exact BitVec.xor_zero.symm

end Shift

section Symbol

variable {poly} {n : ℕ}

/-- A bit that comes after `n` others might as well have been there `n` places up before. -/
theorem iterate_shift_unit (hn : n < w) (b : Bool) :
    (shift poly)^[n] (unit w b <<< n) = unit w b := by
  rw [iterate_shift_high]
  · apply BitVec.eq_of_getLsbD_eq
    intro i hi
    rw [BitVec.getLsbD_ushiftRight, BitVec.getLsbD_shiftLeft, getLsbD_unit, getLsbD_unit]
    by_cases h0 : i = 0
    · subst h0
      simp [hn]
    · simp [h0]
  · intro i hi
    rw [BitVec.getLsbD_shiftLeft, decide_eq_true hi]
    simp

/-- The bits of a symbol may be added all at once. -/
theorem foldl_feed (crc : BitVec w) (x : BitVec m) (hn : n ≤ w) :
    (List.range n).foldl (fun crc i ↦ feed poly crc (x.getLsbD i)) crc =
      (shift poly)^[n] (crc ^^^ (x.setWidth n).setWidth w) := by
  induction n with
  | zero =>
    have hz : (x.setWidth 0).setWidth w = 0 := by
      apply BitVec.eq_of_getLsbD_eq
      intro i _
      simp
    rw [hz]
    exact BitVec.xor_zero.symm
  | succ n ih =>
    have hnext : (x.setWidth (n + 1)).setWidth w =
        (x.setWidth n).setWidth w ^^^ unit w (x.getLsbD n) <<< n := by
      apply BitVec.eq_of_getLsbD_eq
      intro i hi
      simp only [BitVec.getLsbD_xor, BitVec.getLsbD_setWidth, BitVec.getLsbD_shiftLeft, getLsbD_unit]
      rcases lt_trichotomy i n with h | rfl | h
      · simp [h, hi, Nat.lt_succ_of_lt h]
      · simp [hi, (Nat.zero_le i).trans_lt hi]
      · have h₁ : ¬i < n + 1 := by omega
        have h₂ : ¬i < n := by omega
        have h₃ : i - n ≠ 0 := by omega
        simp [h₁, h₂, h₃]
    rw [List.range_succ, List.foldl_append, ih (Nat.le_of_succ_le hn), List.foldl_cons,
      List.foldl_nil, feed_eq_shift (by omega), hnext, Function.iterate_succ_apply',
      ← BitVec.xor_assoc, iterate_shift_xor n _ (unit w _ <<< n), iterate_shift_unit hn]

/-- A table of the symbols replaces the shifts. -/
theorem symbol_eq_entry (hm : m ≤ w) (crc : BitVec w) (x : BitVec m) :
    symbol poly crc x = (crc >>> m) ^^^ entry poly (crc.setWidth m ^^^ x) := by
  have hsplit : crc ^^^ (x.setWidth m).setWidth w =
      ((crc >>> m) <<< m) ^^^ (crc.setWidth m ^^^ x).setWidth w := by
    apply BitVec.eq_of_getLsbD_eq
    intro i hi
    simp only [BitVec.getLsbD_xor, BitVec.getLsbD_setWidth, BitVec.getLsbD_shiftLeft,
      BitVec.getLsbD_ushiftRight]
    by_cases h : i < m
    · simp [h, hi]
    · have hadd : m + (i - m) = i := by omega
      have hx : x.getLsbD i = false := BitVec.getLsbD_of_ge x i (by omega)
      simp [h, hi, hadd, hx]
  have hhigh : (shift poly)^[m] ((crc >>> m) <<< m) = crc >>> m := by
    rw [iterate_shift_high]
    · apply BitVec.eq_of_getLsbD_eq
      intro i hi
      simp only [BitVec.getLsbD_ushiftRight, BitVec.getLsbD_shiftLeft]
      by_cases h : m + i < w
      · simp [h]
      · rw [decide_eq_false h, Bool.false_and, Bool.false_and]
        exact (BitVec.getLsbD_of_ge crc _ (by omega)).symm
    · intro i hi
      rw [BitVec.getLsbD_shiftLeft, decide_eq_true hi]
      simp
  rw [symbol, foldl_feed crc x hm, hsplit, iterate_shift_xor, hhigh, entry]

end Symbol

end Cpsw.Lib.Crc
