import Cpsw.Sval.Element

namespace Cpsw.Sval

open Cpsw.Lib.Digits

section WriteFunc8

variable {msk1 mskn : UInt8} {buf src : Bytes} {i n : ℕ}

/-- The byte of the buffer under the mask, the byte of the source elsewhere. -/
def mergeByte (msk b s : UInt8) : UInt8 := b &&& msk ||| s &&& ~~~msk

/-- What the `i`-th of `n` bytes keeps. -/
def keepMask (msk1 mskn : UInt8) (n i : ℕ) : UInt8 :=
  (if i = 0 then msk1 else 0) ||| (if i + 1 = n then mskn else 0)

@[simp] theorem mergeByte_zero (b s : UInt8) : mergeByte 0 b s = s := by
  simp [mergeByte]

theorem writeFunc8_single {b s : UInt8} :
    writeFunc8 msk1 mskn [b] [s] = [mergeByte (msk1 ||| mskn) b s] := by
  by_cases h1 : msk1 = 0
  · by_cases hn : mskn = 0
    · simp [writeFunc8, h1, hn]
    · simp [writeFunc8, h1, hn, mergeByte]
  · have hor : msk1 ||| mskn ≠ 0 := by
      intro h
      exact h1 (by simpa using (UInt8.or_eq_zero_iff.1 h).1)
    simp [writeFunc8, h1, hor, mergeByte]

theorem writeFunc8_cons {a b s t : UInt8} {mid put : Bytes} (hlen : mid.length = put.length) :
    writeFunc8 msk1 mskn (a :: (mid ++ [b])) (s :: (put ++ [t])) =
      mergeByte msk1 a s :: (put ++ [mergeByte mskn b t]) := by
  have hmid : (mid ++ [b])[put.length]? = some b := by simp [← hlen]
  by_cases h1 : msk1 = 0 <;> by_cases hn : mskn = 0 <;>
    simp [writeFunc8, h1, hn, mergeByte, hmid, Nat.add_comm 1]

theorem exists_ends (hn : 2 ≤ n) (hbuf : buf.length = n) :
    ∃ a mid b, buf = a :: (mid ++ [b]) ∧ mid.length = n - 2 := by
  obtain ⟨a, rest, rfl⟩ := List.exists_cons_of_length_pos (l := buf) (by omega)
  rw [List.length_cons] at hbuf
  have hne : rest ≠ [] := List.ne_nil_of_length_pos (by omega)
  refine ⟨a, rest.dropLast, rest.getLast hne, ?_, ?_⟩
  · rw [List.dropLast_append_getLast hne]
  · rw [List.length_dropLast]
    omega

theorem writeFunc8_spec (hn : 0 < n) (hbuf : buf.length = n) (hsrc : src.length = n) :
    (writeFunc8 msk1 mskn buf src).length = n ∧ ∀ i < n, (writeFunc8 msk1 mskn buf src).getD i 0 =
      mergeByte (keepMask msk1 mskn n i) (buf.getD i 0) (src.getD i 0) := by
  rcases Nat.lt_or_ge n 2 with hlt | hge
  · obtain rfl : n = 1 := by omega
    obtain ⟨b, rfl⟩ := List.length_eq_one_iff.1 hbuf
    obtain ⟨s, rfl⟩ := List.length_eq_one_iff.1 hsrc
    rw [writeFunc8_single]
    refine ⟨rfl, fun i hi ↦ ?_⟩
    obtain rfl : i = 0 := by omega
    simp [keepMask]
  · obtain ⟨a, mid, b, rfl, hmid⟩ := exists_ends hge hbuf
    obtain ⟨s, put, t, rfl, hput⟩ := exists_ends hge hsrc
    rw [writeFunc8_cons (hmid.trans hput.symm)]
    refine ⟨by simp; omega, fun i hi ↦ ?_⟩
    cases i with
    | zero =>
      have hlast : ¬0 + 1 = n := by omega
      simp [keepMask, hlast]
    | succ i =>
      rcases Nat.lt_or_ge i (n - 2) with hi' | hi'
      · have hlast : ¬i + 1 + 1 = n := by omega
        have hs : (put ++ [mergeByte mskn b t]).getD i 0 = (put ++ [t]).getD i 0 := by
          rw [List.getD_append _ _ _ _ (by omega), List.getD_append _ _ _ _ (by omega)]
        simp only [List.getD_cons_succ, keepMask, Nat.succ_ne_zero, if_false, hlast, UInt8.or_zero,
          mergeByte_zero, hs]
      · have hlast : i + 1 + 1 = n := by omega
        have hget : ∀ (xs : Bytes) (x : UInt8), xs.length = n - 2 → (xs ++ [x]).getD i 0 = x := by
          intro xs x hxs
          rw [List.getD_append_right _ _ _ _ (by omega), hxs, (by omega : i - (n - 2) = 0)]
          rfl
        simp only [List.getD_cons_succ, keepMask, Nat.succ_ne_zero, if_false, hlast, if_true,
          UInt8.zero_or, hget _ _ hmid, hget _ _ hput]

end WriteFunc8

section Bits

variable {target : ByteOrder} {e : CIntEntry} {buf src : Bytes} {msk b s : UInt8} {i j k : ℕ}

theorem testBit_mergeByte (hj : j < 8) : (mergeByte msk b s).toNat.testBit j =
    if msk.toNat.testBit j then b.toNat.testBit j else s.toNat.testBit j := by
  have hnot : (~~~msk).toNat.testBit j = !msk.toNat.testBit j := by
    have h := Nat.testBit_two_pow_sub_succ msk.toNat_lt j
    simp only [hj, decide_true, Bool.true_and] at h
    rw [← h, UInt8.toNat_not]
    congr 1
    have hlt := msk.toNat_lt
    simp only [UInt8.size]
    omega
  rw [mergeByte, UInt8.toNat_or, UInt8.toNat_and, UInt8.toNat_and, Nat.testBit_or, Nat.testBit_and,
    Nat.testBit_and, hnot]
  cases msk.toNat.testBit j <;> simp

/-- The bits in front of the field, and those behind it. -/
theorem testBit_msk : ∀ r < 8, ∀ j < 8,
    (UInt8.ofNat (2 ^ r - 1)).toNat.testBit j = decide (j < r) ∧
    (if ~~~UInt8.ofNat (2 ^ r - 1) = 0xff then (0x00 : UInt8)
      else ~~~UInt8.ofNat (2 ^ r - 1)).toNat.testBit j = decide (r ≠ 0 ∧ r ≤ j) := by
  decide +kernel

/-- What the lowest byte and the highest byte keep, by the way the target goes. -/
theorem getD_lowFirst_merged (htarget : target = .LE ∨ target = .BE)
    (hn : 0 < e.getSize) (hbuf : buf.length = e.getSize) (hsrc : src.length = e.getSize)
    (hi : i < e.getSize) :
    (lowFirst target (writeFunc8 (masks target e).1 (masks target e).2 buf src)).getD i 0 =
      mergeByte (keepMask (masks .LE e).1 (masks .LE e).2 e.getSize i)
        ((lowFirst target buf).getD i 0) ((lowFirst target src).getD i 0) := by
  rcases htarget with rfl | rfl
  · exact (writeFunc8_spec hn hbuf hsrc).2 i hi
  · obtain ⟨hlen, hget⟩ := @writeFunc8_spec (masks .BE e).1 (masks .BE e).2 _ _ _ hn hbuf hsrc
    have hrev : ∀ xs : Bytes, xs.length = e.getSize →
        (lowFirst .BE xs).getD i 0 = xs.getD (e.getSize - 1 - i) 0 := by
      intro xs hxs
      have hlt : i < xs.reverse.length := by simpa [hxs] using hi
      have hlt' : e.getSize - 1 - i < xs.length := by omega
      change xs.reverse.getD i 0 = _
      rw [List.getD_eq_getElem _ _ hlt, List.getD_eq_getElem _ _ hlt', List.getElem_reverse]
      simp only [hxs]
    have hkeep : keepMask (masks .BE e).1 (masks .BE e).2 e.getSize (e.getSize - 1 - i) =
        keepMask (masks .LE e).1 (masks .LE e).2 e.getSize i := by
      have h0 : e.getSize - 1 - i = 0 ↔ i + 1 = e.getSize := by omega
      have h1 : e.getSize - 1 - i + 1 = e.getSize ↔ i = 0 := by omega
      simp only [keepMask, h0, h1]
      rw [UInt8.or_comm]
      rfl
    rw [hrev _ hlen, hrev _ hbuf, hrev _ hsrc, hget _ (by omega), hkeep]

theorem testBit_keepMask (he : e.Checked) (hmode : e.mode ≠ .RO) (hk : k / 8 < e.getSize) :
    (keepMask (masks .LE e).1 (masks .LE e).2 e.getSize (k / 8)).toNat.testBit (k % 8) =
      !decide (e.lsBit ≤ k ∧ k < e.lsBit + e.sizeBits) := by
  have hls := he.lsBit
  have hle := he.bits_le
  have hlt := he.lt_bits hmode
  have hmod : k % 8 < 8 := Nat.mod_lt _ (by decide)
  have hlow := (testBit_msk e.lsBit (by omega) (k % 8) hmod).1
  have hhigh := (testBit_msk ((e.lsBit + e.sizeBits) % 8) (Nat.mod_lt _ (by decide)) (k % 8) hmod).2
  have hzero : (0 : UInt8).toNat.testBit (k % 8) = false := Nat.zero_testBit _
  have hone : (keepMask (masks .LE e).1 (masks .LE e).2 e.getSize (k / 8)).toNat.testBit (k % 8) =
      (decide (k / 8 = 0 ∧ k % 8 < e.lsBit) || decide (k / 8 + 1 = e.getSize ∧
        (e.lsBit + e.sizeBits) % 8 ≠ 0 ∧ (e.lsBit + e.sizeBits) % 8 ≤ k % 8)) := by
    rw [keepMask, UInt8.toNat_or, Nat.testBit_or]
    congr 1
    · by_cases h : k / 8 = 0
      · rw [if_pos h]
        exact hlow.trans (by simp [h])
      · rw [if_neg h, hzero]
        simp [h]
    · by_cases h : k / 8 + 1 = e.getSize
      · rw [if_pos h]
        exact hhigh.trans (by simp [h])
      · rw [if_neg h, hzero]
        simp [h]
  rw [hone, Bool.eq_iff_iff]
  simp only [Bool.or_eq_true, decide_eq_true_eq, Bool.not_eq_true', decide_eq_false_iff_not]
  omega

/-- The field takes the bits of the source, the others stay. -/
theorem testBit_merged (he : e.Checked) (hmode : e.mode ≠ .RO)
    (htarget : target = .LE ∨ target = .BE) (hbuf : buf.length = e.getSize)
    (hsrc : src.length = e.getSize) (k : ℕ) :
    (value (lowFirst target (writeFunc8 (masks target e).1 (masks target e).2 buf src))).testBit k =
      if e.lsBit ≤ k ∧ k < e.lsBit + e.sizeBits then (value (lowFirst target src)).testBit k
      else (value (lowFirst target buf)).testBit k := by
  have hle := he.bits_le
  have hpos := he.sizeBits
  have hn : 0 < e.getSize := by omega
  simp only [testBit_value]
  rcases Nat.lt_or_ge (k / 8) e.getSize with hk | hk
  · rw [getD_lowFirst_merged htarget hn hbuf hsrc hk, testBit_mergeByte (Nat.mod_lt _ (by decide)),
      testBit_keepMask he hmode hk]
    by_cases hin : e.lsBit ≤ k ∧ k < e.lsBit + e.sizeBits <;> simp [hin]
  · have hout : ¬(e.lsBit ≤ k ∧ k < e.lsBit + e.sizeBits) := by omega
    obtain ⟨hlen, -⟩ := @writeFunc8_spec (masks target e).1 (masks target e).2 _ _ _ hn hbuf hsrc
    rw [if_neg hout, List.getD_eq_default _ _ (by rwa [lowFirst_length, hlen]),
      List.getD_eq_default _ _ (by rwa [lowFirst_length, hbuf])]

end Bits

end Cpsw.Sval
