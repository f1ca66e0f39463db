import Cpsw.Depack.Header
import Mathlib.Data.Nat.Bitwise

namespace Cpsw.Depack

/-- The bit `i` of a buffer. -/
def bitAt (p : Bytes) (i : ℕ) : Bool := (p.getD (i / 8) 0).toBitVec.getLsbD (i % 8)

namespace CPackHeaderUtil

/-- `(1<<bit_size)-1`, as far as the 32-bit integers that it is computed with define it. -/
def mask (bitSize : ℕ) : Option ℕ := if bitSize < 31 then some (2 ^ bitSize - 1) else none

/-- `getNum`; `none` where the language does not say what it returns. -/
def getNum (off bitSize : ℕ) (p : Bytes) : Option ℕ :=
  if bitSize = 0 then some 0
  else
    let shift := off % 8
    let rval := (List.range ((shift + bitSize + 7) / 8)).foldr
      (fun i r ↦ (r * 256 + (p.getD (off / 8 + i) 0).toNat) % 2 ^ 32) 0
    (mask bitSize).map fun m ↦ (rval >>> shift) &&& m

/-- The fields of the headers are all narrow enough. -/
theorem getNum_eq {off bitSize : ℕ} (h : bitSize < 31) (p : Bytes) :
    getNum off bitSize p = some (Depack.getNum off bitSize p) := by
  unfold getNum Depack.getNum
  rw [mask, if_pos h]
  split
  · rfl
  · rw [Option.map_some, Nat.and_two_pow_sub_one_eq_mod, Nat.shiftRight_eq_div_pow]

end CPackHeaderUtil

section Write

variable {p : Bytes} {off bitSize val i j k l : ℕ}

theorem length_foldl_set (f : ℕ → UInt8 → UInt8) (b l : ℕ) (p : Bytes) :
    ((List.range l).foldl (fun p i ↦ p.set (b + i) (f i (p.getD (b + i) 0))) p).length =
      p.length := by
  induction l with
  | zero => rfl
  | succ l ih =>
    rw [List.range_succ, List.foldl_append, List.foldl_cons, List.foldl_nil, List.length_set, ih]

/-- Writing successive bytes that depend on what stood there. -/
theorem getD_foldl_set (f : ℕ → UInt8 → UInt8) (b l : ℕ) (p : Bytes) (k : ℕ) :
    ((List.range l).foldl (fun p i ↦ p.set (b + i) (f i (p.getD (b + i) 0))) p).getD k 0 =
      if b ≤ k ∧ k < b + l ∧ k < p.length then f (k - b) (p.getD k 0) else p.getD k 0 := by
  induction l generalizing k with
  | zero =>
    rw [if_neg (by omega)]
    rfl
  | succ l ih =>
    have hlen := length_foldl_set f b l p
    rw [List.range_succ, List.foldl_append, List.foldl_cons, List.foldl_nil]
    generalize (List.range l).foldl (fun p i ↦ p.set (b + i) (f i (p.getD (b + i) 0))) p = q
      at hlen ih ⊢
    have hold := ih (b + l)
    rw [if_neg (by omega)] at hold
    rw [hold, List.getD_eq_getElem?_getD, List.getElem?_set]
    by_cases hk : b + l = k
    · subst hk
      by_cases hlt : b + l < p.length
      · rw [if_pos rfl, if_pos (by omega), if_pos (by omega), Nat.add_sub_cancel_left]
        rfl
      · rw [if_pos rfl, if_neg (by omega), if_neg (by omega), List.getD_eq_default _ _ (by omega)]
        rfl
    · rw [if_neg hk, ← List.getD_eq_getElem?_getD, ih]
      by_cases hin : b ≤ k ∧ k < b + l ∧ k < p.length
      · rw [if_pos hin, if_pos (by omega)]
      · rw [if_neg hin, if_neg (by omega)]

/-- A byte with some bits exchanged. -/
theorem getLsbD_merge (v q m : UInt8) (j : ℕ) (hj : j < 8) :
    ((v &&& ~~~m) ||| (q &&& m)).toBitVec.getLsbD j =
      if m.toBitVec.getLsbD j then q.toBitVec.getLsbD j else v.toBitVec.getLsbD j := by
  simp only [UInt8.toBitVec_or, UInt8.toBitVec_and, UInt8.toBitVec_not, BitVec.getLsbD_or,
    BitVec.getLsbD_and, BitVec.getLsbD_not, hj, decide_true, Bool.true_and]
  cases m.toBitVec.getLsbD j <;> simp

theorem getLsbD_ofNat (n j : ℕ) (hj : j < 8) : (UInt8.ofNat n).toBitVec.getLsbD j = n.testBit j := by
  rw [UInt8.toBitVec_ofNat', BitVec.getLsbD_ofNat, decide_eq_true hj, Bool.true_and]

theorem getLsbD_mskn (shift bitSize j : ℕ) (hj : j < 8) : (mskn shift bitSize).toBitVec.getLsbD j =
    decide ((shift + bitSize) % 8 ≠ 0 ∧ (shift + bitSize) % 8 ≤ j) := by
  have hlt : (shift + bitSize) % 8 < 8 := Nat.mod_lt _ (by decide)
  unfold mskn
  generalize (shift + bitSize) % 8 = r at hlt ⊢
  have hall : ∀ r : Fin 8, ∀ j : Fin 8, (if ~~~(UInt8.ofNat (2 ^ r.val - 1)) = 0xff then (0 : UInt8)
      else ~~~(UInt8.ofNat (2 ^ r.val - 1))).toBitVec.getLsbD j =
        decide (r.val ≠ 0 ∧ r.val ≤ j.val) := by decide +kernel
  exact hall ⟨r, hlt⟩ ⟨j, hj⟩

/-- The bits that stay are those outside of the field. -/
theorem getLsbD_fieldMask (hb : 0 < bitSize) (hs : i < (off % 8 + bitSize + 7) / 8) (hj : j < 8) :
    (fieldMask (off % 8) bitSize ((off % 8 + bitSize + 7) / 8) i).toBitVec.getLsbD j =
      decide (8 * i + j < off % 8 ∨ off % 8 + bitSize ≤ 8 * i + j) := by
  have hm := getLsbD_mskn (off % 8) bitSize j hj
  have h1 : (UInt8.ofNat (2 ^ (off % 8) - 1)).toBitVec.getLsbD j = decide (j < off % 8) := by
    rw [getLsbD_ofNat _ _ hj, Nat.testBit_two_pow_sub_one]
  unfold fieldMask
  dsimp only
  split_ifs with hi hl hl
  · rw [UInt8.toBitVec_or, BitVec.getLsbD_or, hm, h1, ← Bool.decide_or]
    apply decide_eq_decide.2
    omega
  · rw [h1]
    apply decide_eq_decide.2
    omega
  · rw [hm]
    apply decide_eq_decide.2
    omega
  · rw [decide_eq_false (by omega)]
    exact BitVec.getLsbD_zero

/-- What `setNum` leaves in a buffer: the bits of the number in the field, the others as before. -/
theorem bitAt_setNum (hb : 0 < bitSize) (h64 : off % 8 + bitSize ≤ 64)
    (hfits : off / 8 + (off % 8 + bitSize + 7) / 8 ≤ p.length) (k : ℕ) :
    bitAt (setNum off bitSize val p) k =
      if off ≤ k ∧ k < off + bitSize then val.testBit (k - off) else bitAt p k := by
  have hj : k % 8 < 8 := Nat.mod_lt _ (by decide)
  unfold setNum
  rw [if_neg hb.ne']
  dsimp only
  rw [bitAt, getD_foldl_set fun i q ↦
    (UInt8.ofNat (val * 2 ^ (off % 8) % 2 ^ 64 / 256 ^ i) &&&
      ~~~(fieldMask (off % 8) bitSize ((off % 8 + bitSize + 7) / 8) i)) |||
      (q &&& fieldMask (off % 8) bitSize ((off % 8 + bitSize + 7) / 8) i)]
  by_cases hin : off / 8 ≤ k / 8 ∧ k / 8 < off / 8 + (off % 8 + bitSize + 7) / 8 ∧ k / 8 < p.length
  · rw [if_pos hin, getLsbD_merge _ _ _ _ hj, getLsbD_fieldMask hb (by omega) hj]
    by_cases hfield : off ≤ k ∧ k < off + bitSize
    · have hpow : (256 : ℕ) ^ (k / 8 - off / 8) = 2 ^ (8 * (k / 8 - off / 8)) := by
        rw [Nat.pow_mul]
      rw [if_neg (by rw [decide_eq_true_eq]; omega), if_pos hfield, getLsbD_ofNat _ _ hj, hpow,
        Nat.testBit_div_two_pow, Nat.testBit_mod_two_pow, Nat.testBit_mul_two_pow,
        decide_eq_true (by omega), Bool.true_and, decide_eq_true (by omega), Bool.true_and]
      congr 1
      omega
    · rw [if_pos (by rw [decide_eq_true_eq]; omega), if_neg hfield]
      rfl
  · rw [if_neg hin, if_neg (by omega)]
    rfl

end Write

section Read

variable {p : Bytes} {off bitSize val i j k l : ℕ}

/-- The bytes from `b + s` on, accumulated in 32 bits. -/
theorem testBit_accumulate (p : Bytes) (b s l k : ℕ) :
    ((List.range' s l).foldr
      (fun i r ↦ (r * 256 + (p.getD (b + i) 0).toNat) % 2 ^ 32) 0).testBit k =
      (decide (k < 32 ∧ k < 8 * l) && bitAt p (8 * (b + s) + k)) := by
  induction l generalizing s k with
  | zero =>
    rw [decide_eq_false (by omega), Bool.false_and]
    exact Nat.zero_testBit k
  | succ l ih =>
    have hbyte : (p.getD (b + s) 0).toNat < 2 ^ 8 := UInt8.toNat_lt _
    rw [List.range'_succ, List.foldr_cons, Nat.testBit_mod_two_pow, Nat.mul_comm,
      Nat.testBit_two_pow_mul_add _ hbyte]
    split
    case isTrue hk =>
      have hdiv : (8 * (b + s) + k) / 8 = b + s := by omega
      have hmod : (8 * (b + s) + k) % 8 = k := by omega
      rw [decide_eq_true (by omega : k < 32), decide_eq_true (by omega), Bool.true_and,
        Bool.true_and, bitAt, hdiv, hmod]
      exact BitVec.testBit_toNat _
    case isFalse hk =>
      have hpos : 8 * (b + (s + 1)) + (k - 8) = 8 * (b + s) + k := by omega
      rw [ih, hpos, ← Bool.and_assoc, ← Bool.decide_and]
      congr 1
      apply decide_eq_decide.2
      omega

/-- What `getNum` returns: the bits of the field that the 32 bits of the accumulator hold. -/
theorem CPackHeaderUtil.testBit_getNum {n : ℕ} (hb : 0 < bitSize)
    (hn : CPackHeaderUtil.getNum off bitSize p = some n) (k : ℕ) :
    n.testBit k = (decide (k < bitSize ∧ off % 8 + k < 32) && bitAt p (off + k)) := by
  unfold CPackHeaderUtil.getNum at hn
  rw [if_neg hb.ne'] at hn
  obtain ⟨m, hm, rfl⟩ := Option.map_eq_some_iff.1 hn
  rw [mask] at hm
  split at hm
  case isFalse => cases hm
  cases hm
  have hpos : 8 * (off / 8 + 0) + (off % 8 + k) = off + k := by omega
  rw [Nat.testBit_and, Nat.testBit_two_pow_sub_one, Nat.testBit_shiftRight, List.range_eq_range',
    testBit_accumulate, hpos]
  by_cases hk : k < bitSize ∧ off % 8 + k < 32
  · rw [decide_eq_true hk, decide_eq_true hk.1, decide_eq_true (by omega), Bool.and_true]
  · by_cases hlt : k < bitSize
    · rw [decide_eq_false hk, decide_eq_false (by omega), Bool.false_and, Bool.false_and]
    · rw [decide_eq_false hk, decide_eq_false hlt, Bool.and_false, Bool.false_and]

end Read

namespace CPackHeaderUtil

variable {p : Bytes} {off bitSize val : ℕ}

/-- The field is read back as it was written, and the other bits of the buffer stay. -/
def RoundTrips (off bitSize val : ℕ) (p : Bytes) : Prop :=
  getNum off bitSize (setNum off bitSize val p) = some (val % 2 ^ bitSize) ∧
  ∀ k, (k < off ∨ off + bitSize ≤ k) → bitAt (setNum off bitSize val p) k = bitAt p k

/-- Reading back gives the bits that fit in 32 bits together with those below the field. -/
theorem getNum_setNum (hb : 0 < bitSize) (h64 : off % 8 + bitSize ≤ 64)
    (hfits : off / 8 + (off % 8 + bitSize + 7) / 8 ≤ p.length) (h31 : bitSize < 31) :
    getNum off bitSize (setNum off bitSize val p) =
      some (val % 2 ^ bitSize % 2 ^ (32 - off % 8)) := by
  rw [getNum_eq h31]
  refine congrArg some (Nat.eq_of_testBit_eq fun k ↦ ?_)
  rw [testBit_getNum hb (getNum_eq h31 _), bitAt_setNum hb h64 hfits, Nat.testBit_mod_two_pow,
    Nat.testBit_mod_two_pow]
  by_cases hk : k < bitSize
  · rw [if_pos (by omega), decide_eq_true hk, Bool.true_and, Nat.add_sub_cancel_left]
    congr 1
    apply decide_eq_decide.2
    omega
  · rw [decide_eq_false (by omega), decide_eq_false hk, Bool.false_and, Bool.false_and,
      Bool.and_false]

/-- Which fields survive: what is written must fit in the 32 bits of the accumulator, and the mask in
those of an integer. -/
theorem roundTrips_iff (hb : 0 < bitSize) (h64 : off % 8 + bitSize ≤ 64)
    (hfits : off / 8 + (off % 8 + bitSize + 7) / 8 ≤ p.length) :
    RoundTrips off bitSize val p ↔ bitSize < 31 ∧ val % 2 ^ bitSize < 2 ^ (32 - off % 8) := by
  have hothers : ∀ k, (k < off ∨ off + bitSize ≤ k) →
      bitAt (setNum off bitSize val p) k = bitAt p k := by
    intro k hk
    rw [bitAt_setNum hb h64 hfits, if_neg (by omega)]
  rw [RoundTrips, and_iff_left hothers]
  by_cases h31 : bitSize < 31
  · rw [getNum_setNum hb h64 hfits h31, and_iff_right h31, Option.some.injEq]
    constructor
    · intro he
      rw [← he]
      exact Nat.mod_lt _ (Nat.two_pow_pos _)
    · exact Nat.mod_eq_of_lt
  · refine iff_of_false (fun he ↦ ?_) fun he ↦ h31 he.1
    unfold getNum at he
    rw [if_neg hb.ne', mask, if_neg h31] at he
    cases he

theorem roundTrips_sample : RoundTrips 4 12 0xabc [0, 0] ↔
    12 < 31 ∧ 0xabc % 2 ^ 12 < 2 ^ (32 - 4 % 8) :=
  roundTrips_iff (by decide) (by decide) (by decide)

/-- The last bit of a field that needs 33 bits from the start of its first byte. -/
theorem not_roundTrips : ∃ off bitSize val p, 0 < bitSize ∧ off % 8 + bitSize ≤ 64 ∧
    off / 8 + (off % 8 + bitSize + 7) / 8 ≤ List.length p ∧ ¬RoundTrips off bitSize val p := by
  refine ⟨4, 29, 2 ^ 28, [0, 0, 0, 0, 0], by decide, by decide, by decide, fun hr ↦ ?_⟩
  exact absurd hr.1 (by decide +kernel)

end CPackHeaderUtil

end Cpsw.Depack
