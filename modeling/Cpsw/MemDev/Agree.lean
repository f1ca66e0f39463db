import Cpsw.MemDev.Write
import Mathlib.Data.List.GetD

namespace Cpsw.MemDev

open Cpsw.Lib Cpsw.Sval

/-- What a write of `src` to the address `dst` should leave: the first and the last byte keep the
bits under their masks. -/
def reference (m : Mem) (dst : ℕ) (src : Bytes) (msk1 mskn : UInt8) : Mem := fun p ↦
  if dst ≤ p ∧ p < dst + src.length then
    mergeByte (keepMask msk1 mskn src.length (p - dst)) (m p) (src.getD (p - dst) 0)
  else m p

variable {msk1 mskn : UInt8} {src xs ys : Bytes} {m : Mem} {a dst i j k n p w : ℕ} {x : UInt8}

theorem getD_get (h : i < n) : (m.get a n).getD i 0 = m (a + i) := by
  have hi : i < (m.get a n).length := by simpa using h
  rw [List.getD_eq_getElem _ _ hi]
  simp [Mem.get]

theorem getD_set (h : i < xs.length) : (xs.set i x).getD j 0 = if i = j then x else xs.getD j 0 := by
  simp only [List.getD_eq_getElem?_getD, List.getElem?_set]
  split_ifs with hij
  · rfl
  · rfl

theorem getD_slice (h : i < k) : (slice xs p k).getD i 0 = xs.getD (p + i) 0 := by
  simp only [slice, List.getD_eq_getElem?_getD]
  rw [List.getElem?_take_of_lt h, List.getElem?_drop]

theorem getD_splice (h : p + ys.length ≤ xs.length) : (splice xs p ys).getD i 0 =
    if p ≤ i ∧ i < p + ys.length then ys.getD (i - p) 0 else xs.getD i 0 := by
  have hl : (xs.take p).length = p := by
    rw [List.length_take]
    omega
  unfold splice
  rcases Nat.lt_or_ge i p with hi | hi
  · rw [if_neg (by omega), List.append_assoc, List.getD_append _ _ _ _ (by omega)]
    simp only [List.getD_eq_getElem?_getD, List.getElem?_take_of_lt hi]
  · rcases Nat.lt_or_ge i (p + ys.length) with hi' | hi'
    · rw [if_pos ⟨hi, hi'⟩, List.append_assoc, List.getD_append_right _ _ _ _ (by omega), hl,
        List.getD_append _ _ _ _ (by omega)]
    · rw [if_neg (by omega), List.getD_append_right _ _ _ _ (by rw [List.length_append]; omega)]
      simp only [List.getD_eq_getElem?_getD, List.getElem?_drop, List.length_append, hl]
      congr 2
      omega

theorem put_apply : m.put a xs p =
    if a ≤ p ∧ p < a + xs.length then xs.getD (p - a) 0 else m p := by
  split_ifs with h
  · have hlt : p - a < xs.length := by omega
    unfold Mem.put
    rw [if_pos h.1, List.getD_eq_getElem _ _ hlt, List.getD_eq_getElem _ _ hlt]
  · exact Mem.put_of_not_mem (by omega)

theorem put_nil : m.put a [] = m := by
  funext p
  exact Mem.put_of_not_mem (Nat.lt_or_ge p a)

/-- Only the range counts. -/
theorem put_eq_reference (hl : xs.length = src.length) (h : ∀ i < src.length, xs.getD i 0 =
    mergeByte (keepMask msk1 mskn src.length i) (m (dst + i)) (src.getD i 0)) :
    m.put dst xs = reference m dst src msk1 mskn := by
  funext p
  rw [put_apply, hl]
  unfold reference
  split_ifs with hp
  · rw [h _ (by omega), Nat.add_sub_cancel' hp.1]
  · rfl

theorem write_func8_mem (hn : 0 < src.length) :
    (write_func8 msk1 mskn src dst m).1 = reference m dst src msk1 mskn := by
  obtain ⟨hl, hget⟩ := @writeFunc8_spec msk1 mskn (m.get dst src.length) src _ hn Mem.get_length rfl
  apply put_eq_reference hl
  intro i hi
  rw [hget i hi, getD_get hi]

/-- Every byte that is merged is missing from what is returned. -/
theorem write_func8_returns (hn : 0 < src.length) :
    (write_func8 msk1 mskn src dst m).2 = src.length ↔ msk1 = 0 ∧ mskn = 0 := by
  unfold write_func8
  dsimp only
  by_cases h1 : msk1 = 0
  · by_cases h2 : mskn = 0
    · simp [h1, h2]
    · by_cases hs : src.length = 1
      · simp [h1, h2, hs]
      · simp [h1, h2, hs]
        omega
  · have hor : msk1 ||| mskn ≠ 0 := fun h ↦ h1 (UInt8.or_eq_zero_iff.1 h).1
    by_cases hs : src.length = 1
    · simp [h1, hs, hor]
    · simp [h1, hs]
      omega

/-- The loop writes the words one after the other. -/
theorem copyWords_eq (hw : 0 < w) {wad0 wadN c : ℕ} (hc : wadN = wad0 + c * w)
    (hs : c * w ≤ src.length) (hk : c ≤ k) :
    copyWords w k wad0 wadN src m = m.put wad0 (src.take (c * w)) := by
  induction c generalizing wad0 src m k with
  | zero =>
    have hnot : ¬wad0 < wadN := by omega
    rw [Nat.zero_mul, List.take_zero, put_nil]
    cases k with
    | zero => rfl
    | succ k => exact if_neg hnot
  | succ c ih =>
    cases k with
    | zero => omega
    | succ k =>
      rw [Nat.succ_mul] at hc hs
      have hlt : wad0 < wadN := by omega
      unfold copyWords
      rw [if_pos hlt, ih (by omega) (by rw [List.length_drop]; omega) (Nat.le_of_succ_le_succ hk)]
      have hl : (src.take w).length = w := by
        rw [List.length_take]
        omega
      have hsum : (c + 1) * w = w + c * w := by
        rw [Nat.succ_mul, Nat.add_comm]
      rw [hsum, List.take_add, Mem.put_append, hl]

theorem reference_out (h : p < dst ∨ dst + src.length ≤ p) :
    reference m dst src msk1 mskn p = m p := if_neg (by omega)

theorem reference_single (h : src.length = 1) : reference m dst src msk1 mskn dst =
    mergeByte (msk1 ||| mskn) (m dst) (src.getD 0 0) := by
  unfold reference
  rw [if_pos (by omega), Nat.sub_self, h]
  rfl

theorem reference_first (h : 1 < src.length) : reference m dst src msk1 mskn dst =
    mergeByte msk1 (m dst) (src.getD 0 0) := by
  unfold reference keepMask
  rw [if_pos (by omega), Nat.sub_self, if_pos rfl, if_neg (by omega), UInt8.or_zero]

theorem reference_mid (h₁ : dst < p) (h₂ : p + 1 < dst + src.length) :
    reference m dst src msk1 mskn p = src.getD (p - dst) 0 := by
  unfold reference keepMask
  rw [if_pos (by omega), if_neg (by omega), if_neg (by omega), UInt8.or_zero, mergeByte_zero]

theorem reference_last (h : 1 < src.length) (hp : p + 1 = dst + src.length) :
    reference m dst src msk1 mskn p = mergeByte mskn (m p) (src.getD (p - dst) 0) := by
  unfold reference keepMask
  rw [if_pos (by omega), if_neg (by omega), if_pos (by omega), UInt8.zero_or]

/-- A word that holds the whole range. -/
theorem put_word {r : Mem} (hl : xs.length = w) (h : ∀ i < w, xs.getD i 0 = r (a + i))
    (hout : ∀ p, p < a ∨ a + w ≤ p → r p = m p) : m.put a xs = r := by
  funext p
  rw [put_apply, hl]
  split_ifs with hp
  · rw [h _ (by omega), Nat.add_sub_cancel' hp.1]
  · exact (hout p (by omega)).symm

/-- A word with its byte `i` merged. -/
theorem getD_merged {msk s : UInt8} (hi : i < w) (hj : j < w) :
    ((m.get a w).set i (mergeByte msk ((m.get a w).getD i 0) s)).getD j 0 =
      if i = j then mergeByte msk (m (a + i)) s else m (a + j) := by
  rw [getD_set (by simpa using hi), getD_get hi, getD_get hj]

/-- The range lies within one word. -/
theorem sameWord (hn : 1 < src.length) (hfit : i + src.length ≤ w) :
    m.put a (splice (((m.get a w).set i (mergeByte msk1 ((m.get a w).getD i 0) (src.getD 0 0))).set
        (i + src.length - 1) (mergeByte mskn
          (((m.get a w).set i (mergeByte msk1 ((m.get a w).getD i 0) (src.getD 0 0))).getD
            (i + src.length - 1) 0) (src.getD (i + src.length - 1 - i) 0)))
      (i + 1) (slice src 1 (src.length - 2))) = reference m (a + i) src msk1 mskn := by
  have hsl : (slice src 1 (src.length - 2)).length = src.length - 2 := slice_length (by omega)
  have hl : (m.get a w).length = w := Mem.get_length
  apply put_word (w := w)
  · rw [splice_length]
    · rw [List.length_set, List.length_set, hl]
    · rw [List.length_set, List.length_set, hl, hsl]
      omega
  · intro j hj
    have hlast := @getD_merged m a i (i + src.length - 1) w msk1 (src.getD 0 0) (by omega) (by omega)
    rw [if_neg (by omega)] at hlast
    have hroom : i + 1 + (slice src 1 (src.length - 2)).length ≤ ((((m.get a w).set i
        (mergeByte msk1 ((m.get a w).getD i 0) (src.getD 0 0))).set (i + src.length - 1)
          (mergeByte mskn (m (a + (i + src.length - 1))) (src.getD (i + src.length - 1 - i) 0)))).length := by
      rw [List.length_set, List.length_set, hl, hsl]
      omega
    rw [hlast, getD_splice hroom, hsl]
    by_cases h₁ : i + 1 ≤ j ∧ j < i + 1 + (src.length - 2)
    · rw [if_pos h₁, getD_slice (by omega), reference_mid (by omega) (by omega)]
      congr 1
      omega
    · rw [if_neg h₁, getD_set (by rw [List.length_set, hl]; omega)]
      by_cases h₂ : i + src.length - 1 = j
      · rw [if_pos h₂, reference_last hn (by omega), ← h₂, Nat.add_sub_add_left]
      · rw [if_neg h₂, getD_merged (by omega) hj]
        by_cases h₃ : i = j
        · rw [if_pos h₃, ← h₃, reference_first hn]
        · rw [if_neg h₃, reference_out (by omega)]
  · intro p hp
    exact reference_out (by omega)

/-- The first word of a range that goes beyond it. -/
theorem firstWord (hi : i < w) (hbeyond : w < i + src.length) (hj : j < w) :
    (splice ((m.get a w).set i (mergeByte msk1 ((m.get a w).getD i 0) (src.getD 0 0)))
      (i + 1) (slice src 1 (w - i - 1))).getD j 0 = reference m (a + i) src msk1 mskn (a + j) := by
  have hsl : (slice src 1 (w - i - 1)).length = w - i - 1 := slice_length (by omega)
  have hl : (m.get a w).length = w := Mem.get_length
  have hroom : i + 1 + (slice src 1 (w - i - 1)).length ≤
      ((m.get a w).set i (mergeByte msk1 ((m.get a w).getD i 0) (src.getD 0 0))).length := by
    rw [List.length_set, hl, hsl]
    omega
  rw [getD_splice hroom, hsl]
  by_cases h₁ : i + 1 ≤ j ∧ j < i + 1 + (w - i - 1)
  · rw [if_pos h₁, getD_slice (by omega), reference_mid (by omega) (by omega)]
    congr 1
    omega
  · rw [if_neg h₁, getD_merged hi hj]
    by_cases h₂ : i = j
    · rw [if_pos h₂, ← h₂, reference_first (by omega)]
    · rw [if_neg h₂, reference_out (by omega)]

/-- The last word of a range that starts before it. -/
theorem lastWord {b : ℕ} (hi : i < w) (hj : j < w) (hend : dst + src.length = b + i + 1) (hdst : dst < b) :
    (splice ((m.get b w).set i (mergeByte mskn ((m.get b w).getD i 0) (src.getD (src.length - 1) 0)))
      0 (slice src (src.length - 1 - i) i)).getD j 0 = reference m dst src msk1 mskn (b + j) := by
  have hsl : (slice src (src.length - 1 - i) i).length = i := slice_length (by omega)
  have hl : (m.get b w).length = w := Mem.get_length
  have hroom : 0 + (slice src (src.length - 1 - i) i).length ≤ ((m.get b w).set i
      (mergeByte mskn ((m.get b w).getD i 0) (src.getD (src.length - 1) 0))).length := by
    rw [List.length_set, hl, hsl]
    omega
  rw [getD_splice hroom, hsl]
  by_cases h₁ : 0 ≤ j ∧ j < 0 + i
  · rw [if_pos h₁, getD_slice (by omega), reference_mid (by omega) (by omega)]
    congr 1
    omega
  · rw [if_neg h₁, getD_merged hi hj]
    by_cases h₂ : i = j
    · rw [if_pos h₂, ← h₂, reference_last (by omega) hend.symm]
      congr 2
      omega
    · rw [if_neg h₂, reference_out (by omega)]

/-- The first word, the last word and those between them. -/
theorem words_eq {b off0 offN : ℕ} {first last mid : Bytes} (hfirst : first.length = w)
    (hlast : last.length = w) (hmid : mid.length = b - (a + w)) (hab : a + w ≤ b)
    (h₁ : ∀ i < w, first.getD i 0 = reference m (a + off0) src msk1 mskn (a + i))
    (h₂ : ∀ i < w, last.getD i 0 = reference m (a + off0) src msk1 mskn (b + i))
    (h₃ : ∀ i < b - (a + w), mid.getD i 0 = reference m (a + off0) src msk1 mskn (a + w + i))
    (hend : a + off0 + src.length = b + offN + 1) (hoff : offN < w) :
    ((m.put a first).put b last).put (a + w) mid = reference m (a + off0) src msk1 mskn := by
  funext p
  rw [put_apply, put_apply, put_apply, hfirst, hlast, hmid]
  by_cases hp₃ : a + w ≤ p ∧ p < a + w + (b - (a + w))
  · rw [if_pos hp₃, h₃ _ (by omega), Nat.add_sub_cancel' hp₃.1]
  · rw [if_neg hp₃]
    by_cases hp₂ : b ≤ p ∧ p < b + w
    · rw [if_pos hp₂, h₂ _ (by omega), Nat.add_sub_cancel' hp₂.1]
    · rw [if_neg hp₂]
      by_cases hp₁ : a ≤ p ∧ p < a + w
      · rw [if_pos hp₁, h₁ _ (by omega), Nat.add_sub_cancel' hp₁.1]
      · rw [if_neg hp₁, reference_out (by omega)]

theorem cpsw_write_aligned_eq (k : ℕ) (hn : 0 < src.length) :
    cpsw_write_aligned msk1 mskn src k dst m = (reference m dst src msk1 mskn, src.length) := by
  have hw : 0 < 2 ^ k := Nat.two_pow_pos k
  unfold cpsw_write_aligned
  dsimp only
  rw [if_neg hn.ne', Nat.and_two_pow_sub_one_eq_mod, Nat.and_two_pow_sub_one_eq_mod]
  generalize 2 ^ k = w at *
  -- the words that hold the first byte and the last one
  obtain ⟨q, off0, hdst, hoff0⟩ : ∃ q off0, dst = q * w + off0 ∧ off0 < w :=
    ⟨dst / w, dst % w, (Nat.div_add_mod' dst w).symm, Nat.mod_lt _ hw⟩
  obtain ⟨r, offN, hend, hoffN⟩ : ∃ r offN, dst + src.length - 1 = r * w + offN ∧ offN < w :=
    ⟨(dst + src.length - 1) / w, (dst + src.length - 1) % w, (Nat.div_add_mod' _ w).symm, Nat.mod_lt _ hw⟩
  have hmod0 : dst % w = off0 := by
    rw [hdst, Nat.mul_add_mod_self_right, Nat.mod_eq_of_lt hoff0]
  have hmodN : (dst + src.length - 1) % w = offN := by
    rw [hend, Nat.mul_add_mod_self_right, Nat.mod_eq_of_lt hoffN]
  have ha : dst - off0 = q * w := by omega
  have hb : dst + src.length - 1 - offN = r * w := by omega
  rw [hmod0, hmodN, ha, hb]
  by_cases hsame : q * w = r * w
  · rw [if_pos hsame]
    have hoff : offN = off0 + src.length - 1 := by omega
    by_cases h1 : src.length = 1
    · rw [if_pos h1, if_neg (by omega)]
      congr 1
      apply put_word
      · rw [List.length_set, Mem.get_length]
      · intro i hi
        rw [getD_merged hoff0 hi]
        by_cases h₂ : off0 = i
        · rw [if_pos h₂, ← h₂, ← hdst, reference_single h1]
        · rw [if_neg h₂, reference_out (by omega)]
      · intro p hp
        exact reference_out (by omega)
    · rw [if_neg h1, if_pos (by omega), hoff, sameWord (by omega) (by omega), hdst]
  · have hqr : q < r := by
      by_contra hn'
      have hle : r * w ≤ q * w := Nat.mul_le_mul_right w (Nat.le_of_not_lt hn')
      have hlt : r < q := Nat.lt_of_le_of_ne (Nat.le_of_not_lt hn') fun h ↦ hsame (by rw [h])
      have hle' : (r + 1) * w ≤ q * w := Nat.mul_le_mul_right w hlt
      rw [Nat.succ_mul] at hle'
      omega
    obtain ⟨c, rfl⟩ := Nat.exists_eq_add_of_le (Nat.succ_le_of_lt hqr)
    have hsum : (q.succ + c) * w = q * w + w + c * w := by
      rw [Nat.add_mul, Nat.succ_mul]
    rw [hsum] at hend hsame ⊢
    have hc : c ≤ c * w := Nat.le_mul_of_pos_right c hw
    rw [if_neg hsame, if_neg (by omega)]
    congr 1
    have hsl₁ : (slice src 1 (w - off0 - 1)).length = w - off0 - 1 := slice_length (by omega)
    have hsl₂ : (slice src (src.length - 1 - offN) offN).length = offN := slice_length (by omega)
    have hfirst : (splice ((m.get (q * w) w).set off0
        (mergeByte msk1 ((m.get (q * w) w).getD off0 0) (src.getD 0 0))) (off0 + 1)
          (slice src 1 (w - off0 - 1))).length = w := by
      rw [splice_length, List.length_set, Mem.get_length]
      rw [List.length_set, Mem.get_length, hsl₁]
      omega
    rw [Mem.get_put_of_disjoint (.inr (by omega)),
      copyWords_eq hw rfl (by rw [List.length_drop]; omega) (by omega), hdst]
    refine words_eq hfirst ?_ ?_ ?_ ?_ ?_ ?_ ?_ hoffN
    · rw [splice_length, List.length_set, Mem.get_length]
      rw [List.length_set, Mem.get_length, hsl₂]
      omega
    · rw [List.length_take, List.length_drop]
      omega
    · omega
    · intro i hi
      exact firstWord hoff0 (by omega) hi
    · intro i hi
      exact lastWord hoffN hi (by omega) (by omega)
    · intro i hi
      have hlt : i < c * w := by omega
      rw [reference_mid (by omega) (by omega)]
      simp only [List.getD_eq_getElem?_getD]
      rw [List.getElem?_take_of_lt hlt, List.getElem?_drop]
      congr 2
      omega
    · omega

/-- No system call fails. -/
structure Kernel.Healthy (K : Kernel) : Prop where
  ready : ∀ i, 0 < K.pselect i
  reads : ∀ i n, 0 < n → 0 < K.read i n ∧ K.read i n ≤ n
  writes : ∀ i n, 0 < n → 0 < K.write i n ∧ K.write i n ≤ n

namespace File

variable {K : Kernel} {f : File}

theorem readTimeout_ok (hK : K.Healthy) (hn : n ≤ k) (hin : f.pos + n ≤ f.size) :
    ∃ c, readTimeout K k n f =
      .ok (f.bytes.get f.pos n, { f with pos := f.pos + n, calls := c }) := by
  induction k generalizing n f with
  | zero =>
    obtain rfl : n = 0 := by omega
    exact ⟨f.calls, rfl⟩
  | succ k ih =>
    by_cases h0 : n = 0
    · subst h0
      exact ⟨f.calls, rfl⟩
    · have hready := hK.ready f.calls
      obtain ⟨hpos, hle⟩ := hK.reads (f.calls + 1) n (Nat.pos_of_ne_zero h0)
      have hmin : min (K.read (f.calls + 1) n) ((f.size - f.pos : ℕ) : ℤ) = K.read (f.calls + 1) n := by
        omega
      obtain ⟨c, hc⟩ := @ih (n - (K.read (f.calls + 1) n).toNat)
        { f with pos := f.pos + (K.read (f.calls + 1) n).toNat, calls := f.calls + 2 }
        (by omega) (by dsimp only; omega)
      refine ⟨c, ?_⟩
      unfold readTimeout
      rw [if_neg h0, if_neg hready.ne', if_neg (by omega)]
      dsimp only
      rw [hmin, if_neg (by omega), hc]
      dsimp only
      rw [← Mem.get_add, Nat.add_assoc, Nat.add_sub_cancel' (by omega)]

theorem writeTimeout_ok (hK : K.Healthy) (hk : src.length ≤ k) (hin : f.pos + src.length ≤ f.size) :
    ∃ c, writeTimeout K k src f =
      .ok { f with bytes := f.bytes.put f.pos src, pos := f.pos + src.length, calls := c } := by
  induction k generalizing src f with
  | zero =>
    obtain rfl : src = [] := List.eq_nil_of_length_eq_zero (by omega)
    refine ⟨f.calls, ?_⟩
    rw [put_nil]
    rfl
  | succ k ih =>
    by_cases h0 : src.length = 0
    · obtain rfl : src = [] := List.eq_nil_of_length_eq_zero h0
      refine ⟨f.calls, ?_⟩
      rw [put_nil]
      rfl
    · obtain ⟨hpos, hle⟩ := hK.writes f.calls src.length (Nat.pos_of_ne_zero h0)
      obtain ⟨j, hj⟩ : ∃ j : ℕ, K.write f.calls src.length = j := ⟨_, (Int.toNat_of_nonneg hpos.le).symm⟩
      rw [hj] at hpos hle
      have hl : (src.take j).length = j := by
        rw [List.length_take]
        omega
      have hsize : max f.size (f.pos + j) = f.size := Nat.max_eq_left (by omega)
      obtain ⟨c, hc⟩ := @ih (src.drop j) {
        bytes := f.bytes.put f.pos (src.take j)
        size := f.size
        pos := f.pos + j
        calls := f.calls + 1 } (by rw [List.length_drop]; omega)
          (by rw [List.length_drop]; dsimp only; omega)
      refine ⟨c, ?_⟩
      unfold writeTimeout
      rw [if_neg h0]
      dsimp only
      rw [hj, if_neg (by omega), Int.toNat_natCast, hsize, hc]
      dsimp only
      have hput : (f.bytes.put f.pos (src.take j)).put (f.pos + j) (src.drop j) = f.bytes.put f.pos src := by
        have := @Mem.put_append f.bytes f.pos (src.take j) (src.drop j)
        rw [List.take_append_drop, hl] at this
        exact this.symm
      rw [hput, List.length_drop, Nat.add_assoc, Nat.add_sub_cancel' (by omega)]

theorem merge_ok (hK : K.Healthy) {msk s : UInt8} (hin : msk ≠ 0 → f.pos < f.size) :
    ∃ c, f.merge K msk s = .ok { f with
      bytes := f.bytes.put f.pos (if msk ≠ 0 then [mergeByte msk (f.bytes f.pos) s] else [])
      pos := f.pos + (if msk ≠ 0 then 1 else 0), calls := c } := by
  unfold merge
  by_cases h0 : msk ≠ 0
  · obtain ⟨c, hc⟩ := @readTimeout_ok 1 1 K f hK le_rfl (hin h0)
    have hget : (f.bytes.get f.pos 1).getD 0 0 = f.bytes f.pos := getD_get Nat.one_pos
    obtain ⟨c', hc'⟩ := @writeTimeout_ok [mergeByte msk (f.bytes f.pos) s] 1 K
      { f with pos := f.pos, calls := c } hK le_rfl (hin h0)
    refine ⟨c', ?_⟩
    rw [if_pos h0, if_pos h0, if_pos h0, hc]
    change (lseekBack { f with pos := f.pos + 1, calls := c } >>= fun f' ↦
      writeTimeout K 1 [mergeByte msk ((f.bytes.get f.pos 1).getD 0 0) s] f') = _
    rw [hget]
    exact hc'
  · refine ⟨f.calls, ?_⟩
    rw [if_neg h0, if_neg h0, if_neg h0, put_nil]
    rfl

end File

namespace CFSAddressImpl

variable {K : Kernel} {ad : CFSAddressImpl} {cacheable : Cacheable} {off : ℕ} {f : File}

/-- Where in the file a write goes to: without seeking, to where the file is. -/
def base (ad : CFSAddressImpl) (off : ℕ) (f : File) : ℕ :=
  if ad.seekable then (ad.offset + off) % 2 ^ 64 else f.pos

/-- Bits can be merged where the area is cacheable and the file can be positioned. -/
def Merges (ad : CFSAddressImpl) (cacheable : Cacheable) : Prop :=
  Cacheable.WT_CACHEABLE.val ≤ cacheable.val ∧ ad.seekable = true

theorem checkMerge_ok (h : msk1 ≠ 0 ∨ mskn ≠ 0 → ad.Merges cacheable) :
    ad.checkMerge msk1 mskn cacheable = .ok () := by
  unfold checkMerge
  by_cases hm : msk1 ≠ 0 ∨ mskn ≠ 0
  · obtain ⟨h₁, h₂⟩ := h hm
    rw [if_pos hm, if_neg (Nat.not_lt_of_le h₁), h₂]
    rfl
  · rw [if_neg hm]

theorem checkMerge_error (hm : msk1 ≠ 0 ∨ mskn ≠ 0) (h : ¬ad.Merges cacheable) :
    ∃ e, ad.checkMerge msk1 mskn cacheable = .error e := by
  unfold checkMerge
  rw [if_pos hm]
  by_cases h₁ : cacheable.val < Cacheable.WT_CACHEABLE.val
  · rw [if_pos h₁]
    exact ⟨_, rfl⟩
  · rw [if_neg h₁]
    cases hs : ad.seekable with
    | true => exact absurd ⟨Nat.le_of_not_lt h₁, hs⟩ h
    | false => exact ⟨_, rfl⟩

theorem seek_ok (h : ad.base off f < 2 ^ 63) :
    ad.seek off f = .ok { f with pos := ad.base off f } := by
  unfold seek base at *
  cases hs : ad.seekable with
  | true =>
    rw [hs] at h
    simp only [if_true] at h ⊢
    exact if_neg (Nat.not_le_of_lt h)
  | false => rfl

/-- The pieces that go to the file are those of `write_func8`. -/
theorem pieces_eq (buf : Bytes) : writeFunc8 msk1 mskn buf src =
    let msk1' := if src.length = 1 then msk1 ||| mskn else msk1
    let mskn' := if src.length = 1 then 0 else mskn
    let done := if msk1' ≠ 0 then 1 else 0
    let m := if mskn' ≠ 0 then src.length - done - 1 else src.length - done
    (if msk1' ≠ 0 then [mergeByte msk1' (buf.getD 0 0) (src.getD 0 0)] else []) ++
      (src.drop done).take m ++
      (if mskn' ≠ 0 then [mergeByte mskn' (buf.getD (done + m) 0) (src.getD (done + m) 0)] else []) := by
  by_cases hs : src.length = 1
  · by_cases h1 : msk1 = 0
    · by_cases h2 : mskn = 0
      · simp [writeFunc8, h1, h2, hs]
      · simp [writeFunc8, h1, h2, hs, mergeByte]
    · have hor : msk1 ||| mskn ≠ 0 := fun h ↦ h1 (UInt8.or_eq_zero_iff.1 h).1
      simp [writeFunc8, h1, hs, hor, mergeByte]
  · by_cases h1 : msk1 = 0
    · by_cases h2 : mskn = 0
      · simp [writeFunc8, h1, h2, hs]
      · simp [writeFunc8, h1, h2, hs, mergeByte]
    · by_cases h2 : mskn = 0
      · simp [writeFunc8, h1, h2, hs, mergeByte]
      · simp [writeFunc8, h1, h2, hs, mergeByte]

theorem write_ok (hK : K.Healthy) (hn : 0 < src.length)
    (hm : msk1 ≠ 0 ∨ mskn ≠ 0 → ad.Merges cacheable)
    (hin : ad.base off f + src.length ≤ f.size) (hsize : f.size < 2 ^ 63) :
    ∃ c, ad.write msk1 mskn src off K cacheable f = .ok ({ f with
      bytes := reference f.bytes (ad.base off f) src msk1 mskn
      pos := ad.base off f + src.length, calls := c }, src.length) := by
  have hpieces := @pieces_eq msk1 mskn src (f.bytes.get (ad.base off f) src.length)
  obtain ⟨hl, hget⟩ := @writeFunc8_spec msk1 mskn (f.bytes.get (ad.base off f) src.length) src _ hn
    Mem.get_length rfl
  have hput : f.bytes.put (ad.base off f)
      (writeFunc8 msk1 mskn (f.bytes.get (ad.base off f) src.length) src) =
        reference f.bytes (ad.base off f) src msk1 mskn := by
    apply put_eq_reference hl
    intro i hi
    rw [hget i hi, getD_get hi]
  unfold write
  rw [checkMerge_ok hm]
  change ∃ c, (ad.seek off f >>= _) = _
  rw [seek_ok (by omega)]
  dsimp only at hpieces ⊢
  generalize hmsk1 : (if src.length = 1 then msk1 ||| mskn else msk1) = msk1' at *
  have hlast : (if src.length = 1 then 0 else mskn) ≠ 0 → 1 < src.length := by
    intro h
    by_contra hle
    rw [if_pos (by omega)] at h
    exact h rfl
  generalize (if src.length = 1 then 0 else mskn) = mskn' at *
  generalize hdone : (if msk1' ≠ 0 then 1 else 0) = done at *
  have hdone' : done ≤ 1 := by
    rw [← hdone]
    split_ifs <;> decide
  generalize hmm : (if mskn' ≠ 0 then src.length - done - 1 else src.length - done) = k at *
  generalize ad.base off f = b at *
  have hk : done + k + (if mskn' ≠ 0 then 1 else 0) = src.length := by
    rw [← hmm]
    split_ifs with h
    · have := hlast h
      omega
    · omega
  have hmid : ((src.drop done).take k).length = k := by
    rw [List.length_take, List.length_drop]
    split_ifs at hk <;> omega
  -- the first byte
  obtain ⟨c₁, h₁⟩ := @File.merge_ok K { f with pos := b } hK msk1' (src.getD 0 0)
    (fun _ ↦ by dsimp only; omega)
  rw [hdone] at h₁
  -- the bytes between
  generalize hA : (if msk1' ≠ 0 then [mergeByte msk1' (f.bytes b) (src.getD 0 0)] else []) = A at h₁
  have hAl : A.length = done := by
    rw [← hA, ← hdone]
    split_ifs <;> rfl
  obtain ⟨c₂, h₂⟩ := @File.writeTimeout_ok ((src.drop done).take k) k K
    { f with bytes := f.bytes.put b A, pos := b + done, calls := c₁ } hK hmid.le
    (by dsimp only; rw [hmid]; omega)
  rw [hmid] at h₂
  -- the last byte
  obtain ⟨c₃, h₃⟩ := @File.merge_ok K { f with
    bytes := (f.bytes.put b A).put (b + done) ((src.drop done).take k)
    pos := b + done + k, calls := c₂ } hK mskn' (src.getD (done + k) 0)
    (fun h ↦ by rw [if_pos h] at hk; dsimp only; omega)
  have hkeep : ((f.bytes.put b A).put (b + done) ((src.drop done).take k)) (b + done + k) =
      f.bytes (b + done + k) := by
    rw [Mem.put_of_not_mem (.inr (by rw [hmid])), Mem.put_of_not_mem (.inr (by omega))]
  have hC : (if mskn' ≠ 0 then [mergeByte mskn' ((f.bytes.get b src.length).getD (done + k) 0)
      (src.getD (done + k) 0)] else []) =
        if mskn' ≠ 0 then [mergeByte mskn' (f.bytes (b + done + k)) (src.getD (done + k) 0)] else [] := by
    split_ifs with h
    · rw [if_pos h] at hk
      rw [getD_get (by omega), Nat.add_assoc]
    · rfl
  refine ⟨c₃, ?_⟩
  change (File.merge K msk1' (src.getD 0 0) { f with pos := b } >>= fun f₁ ↦
    File.writeTimeout K k ((src.drop done).take k) f₁ >>= fun f₂ ↦
      File.merge K mskn' (src.getD (done + k) 0) f₂ >>= fun f₃ ↦ pure (f₃, src.length)) = _
  rw [h₁]
  change (File.writeTimeout K k ((src.drop done).take k)
    { f with bytes := f.bytes.put b A, pos := b + done, calls := c₁ } >>= fun f₂ ↦
      File.merge K mskn' (src.getD (done + k) 0) f₂ >>= fun f₃ ↦ pure (f₃, src.length)) = _
  rw [h₂]
  change (File.merge K mskn' (src.getD (done + k) 0)
    { f with
      bytes := (f.bytes.put b A).put (b + done) ((src.drop done).take k)
      pos := b + done + k, calls := c₂ } >>= fun f₃ ↦ pure (f₃, src.length)) = _
  have hpos : b + done + k + (if mskn' ≠ 0 then 1 else 0) = b + src.length := by omega
  dsimp only at h₃
  rw [hkeep, hpos] at h₃
  rw [h₃, ← hput, hpieces, getD_get hn, Nat.add_zero, hA, hC, Mem.put_append, Mem.put_append,
    List.length_append, hAl, hmid, ← Nat.add_assoc]
  rfl

end CFSAddressImpl

/-- A write within the device. -/
theorem CMemAddressImpl.write_ok (align : Align) {size bufp off : ℕ} (hn : 0 < src.length)
    (hin : off + src.length ≤ size) (hsize : size < 2 ^ 64) :
    ∃ r, CMemAddressImpl.write msk1 mskn src align size bufp off m =
        .ok (reference m (bufp + off) src msk1 mskn, r) ∧
      (r = src.length ↔ align ≠ .one ∨ msk1 = 0 ∧ mskn = 0) := by
  have hok : CMemAddressImpl.write msk1 mskn src align size bufp off m =
      .ok (align.write_func src msk1 mskn (bufp + off) m) := by
    refine if_neg ?_
    rw [Nat.mod_eq_of_lt (by omega)]
    omega
  rw [hok]
  have haligned := fun k ↦ @cpsw_write_aligned_eq msk1 mskn src m (bufp + off) k hn
  cases align with
  | one =>
    have hmem := @write_func8_mem msk1 mskn src m (bufp + off) hn
    refine ⟨(write_func8 msk1 mskn src (bufp + off) m).2, ?_, ?_⟩
    · rw [← hmem]
      rfl
    · rw [write_func8_returns hn]
      simp
  | two => exact ⟨_, congrArg Except.ok (haligned 1), by simp⟩
  | four => exact ⟨_, congrArg Except.ok (haligned 2), by simp⟩
  | eight => exact ⟨_, congrArg Except.ok (haligned 3), by simp⟩

section

variable (msk1 mskn src) (m : Mem) (dst : ℕ) (K : Kernel) (ad : CFSAddressImpl)
  (cacheable : Cacheable) (off : ℕ) (f : File)

/-- The back-ends write `src` as they should and return the number of its bytes. -/
structure Agree : Prop where
  func8 : write_func8 msk1 mskn src dst m = (reference m dst src msk1 mskn, src.length)
  aligned (k : ℕ) :
    cpsw_write_aligned msk1 mskn src k dst m = (reference m dst src msk1 mskn, src.length)
  file : ∃ f', ad.write msk1 mskn src off K cacheable f = .ok (f', src.length) ∧
    f'.bytes = reference f.bytes (ad.base off f) src msk1 mskn

/-- The back-ends write `src` as they should. -/
structure AgreeOnBytes : Prop where
  func8 : (write_func8 msk1 mskn src dst m).1 = reference m dst src msk1 mskn
  aligned (k : ℕ) :
    cpsw_write_aligned msk1 mskn src k dst m = (reference m dst src msk1 mskn, src.length)
  file : (msk1 ≠ 0 ∨ mskn ≠ 0 → ad.Merges cacheable) →
    ∃ f', ad.write msk1 mskn src off K cacheable f = .ok (f', src.length) ∧
      f'.bytes = reference f.bytes (ad.base off f) src msk1 mskn

end

variable {K : Kernel} {ad : CFSAddressImpl} {cacheable : Cacheable} {off : ℕ} {f : File}

/-- The bytes are always right, as long as bits are merged only where they can be; the number of
bytes is right if and only if there is nothing to merge. -/
theorem writes_agree_iff (m : Mem) (dst : ℕ) (cacheable : Cacheable) (hn : 0 < src.length) (hK : K.Healthy)
    (hin : ad.base off f + src.length ≤ f.size) (hsize : f.size < 2 ^ 63) :
    AgreeOnBytes msk1 mskn src m dst K ad cacheable off f ∧
      (Agree msk1 mskn src m dst K ad cacheable off f ↔ msk1 = 0 ∧ mskn = 0) := by
  have hbytes : AgreeOnBytes msk1 mskn src m dst K ad cacheable off f := by
    refine ⟨write_func8_mem hn, fun k ↦ cpsw_write_aligned_eq k hn, fun hm ↦ ?_⟩
    obtain ⟨c, hc⟩ := CFSAddressImpl.write_ok hK hn hm hin hsize
    exact ⟨_, hc, rfl⟩
  refine ⟨hbytes, fun h ↦ ?_, fun h ↦ ⟨?_, hbytes.aligned, hbytes.file ?_⟩⟩
  · exact (write_func8_returns hn).1 (congrArg Prod.snd h.func8)
  · exact Prod.ext hbytes.func8 ((write_func8_returns hn).2 h)
  · rintro (h1 | h2)
    · exact absurd h.1 h1
    · exact absurd h.2 h2

/-- Every system call does all that it is asked for. -/
def prompt : Kernel where
  pselect := fun _ ↦ 1
  read := fun _ n ↦ n
  write := fun _ n ↦ n

theorem healthy_prompt : prompt.Healthy where
  ready := fun _ ↦ Int.one_pos
  reads := fun _ _ h ↦ ⟨Int.natCast_pos.2 h, le_rfl⟩
  writes := fun _ _ h ↦ ⟨Int.natCast_pos.2 h, le_rfl⟩

/-- A file of 16 bytes. -/
def sampleFile : File := { bytes := fun _ ↦ 0xff, size := 16, pos := 0, calls := 0 }

theorem writes_agree_sample : Agree 0 0 [1, 2, 3] (fun _ ↦ 0xff) 5 prompt ⟨true, 4⟩
    .NOT_CACHEABLE 7 sampleFile :=
  (writes_agree_iff (fun _ ↦ 0xff) 5 .NOT_CACHEABLE (by decide) healthy_prompt (by decide)
    (by decide)).2.2 ⟨rfl, rfl⟩

/-- A byte of which one bit is kept: nothing is counted as written. -/
theorem not_writes_agree : (write_func8 1 0 [0] 5 fun _ ↦ 0xff).2 = 0 ∧
    ¬Agree 1 0 [0] (fun _ ↦ 0xff) 5 prompt ⟨true, 4⟩ .WT_CACHEABLE 7 sampleFile := by
  have h0 : (write_func8 1 0 [0] 5 fun _ ↦ 0xff).2 = 0 := by decide
  refine ⟨h0, fun h ↦ ?_⟩
  have := congrArg Prod.snd h.func8
  rw [h0] at this
  cases this

end Cpsw.MemDev
