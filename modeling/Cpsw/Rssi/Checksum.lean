import Cpsw.Rssi.Segment

namespace Cpsw.Rssi

open Rd

/-- The sum of the `n` words from offset `i` on. -/
def RxBuf.words (b : RxBuf) (n i : ℕ) : ℕ := ((List.range n).map fun j ↦ (ld16be (i + 2 * j)).val b).sum

theorem val_ld16be (off : ℕ) (b : RxBuf) :
    (ld16be off).val b = (b.load off).toNat * 256 + (b.load (off + 1)).toNat := rfl

theorem ld16be_lt (off : ℕ) (b : RxBuf) : (ld16be off).val b < 65536 := by
  have h₀ := (b.load off).toNat_lt
  have h₁ := (b.load (off + 1)).toNat_lt
  rw [val_ld16be]
  omega

theorem RxBuf.words_succ (b : RxBuf) (n i : ℕ) :
    b.words (n + 1) i = b.words n i + (ld16be (i + 2 * n)).val b := by
  unfold words
  rw [List.range_succ, List.map_append, List.sum_append]
  simp

theorem RxBuf.words_cons (b : RxBuf) (n i : ℕ) :
    b.words (n + 1) i = (ld16be i).val b + b.words n (i + 2) := by
  induction n with
  | zero => simp [words]
  | succ n ih =>
    have hoff : i + 2 * (n + 1) = i + 2 + 2 * n := by omega
    rw [words_succ, ih, words_succ, hoff, Nat.add_assoc]

theorem val_csSum (n i acc : ℕ) (b : RxBuf) : (csSum n i acc).val b = acc + b.words n i := by
  induction n generalizing i acc with
  | zero => rfl
  | succ n ih =>
    rw [csSum, val_bind, ih, RxBuf.words_cons, Nat.add_assoc]

theorem RxBuf.words_congr {b b' : RxBuf} {n i : ℕ} (h : ∀ j < i + 2 * n, b'.load j = b.load j) :
    b'.words n i = b.words n i := by
  unfold words
  refine congrArg List.sum (List.map_congr_left fun j hj ↦ ?_)
  have hj := List.mem_range.1 hj
  rw [val_ld16be, val_ld16be, h _ (by omega), h _ (by omega)]

theorem RxBuf.words_le (b : RxBuf) (n i : ℕ) : b.words n i ≤ n * 65535 := by
  induction n with
  | zero => exact Nat.le_refl 0
  | succ n ih =>
    have := ld16be_lt (i + 2 * n) b
    rw [words_succ]
    omega

/-- Folding the carries keeps a sum modulo `0xffff`, and whether there is one. -/
theorem csFold_spec {s : ℕ} (h : s ≤ 128 * 65535) :
    csFold 2 s ≤ 0xffff ∧ csFold 2 s % 0xffff = s % 0xffff ∧ (csFold 2 s = 0 ↔ s = 0) := by
  simp only [csFold]
  split_ifs <;> omega

theorem load_set {b : Bytes} {beyond : ℕ → UInt8} {i j : ℕ} {v : UInt8} (hi : i < b.length) :
    (RxBuf.mk (b.set i v) beyond).load j = if i = j then v else (RxBuf.mk b beyond).load j := by
  unfold RxBuf.load
  dsimp only
  simp only [List.length_set, List.get_eq_getElem, List.getElem_set]
  split_ifs <;> first | rfl | omega

theorem load_st16be {b : Bytes} {beyond : ℕ → UInt8} {off v j : ℕ} (hoff : off + 1 < b.length) :
    (RxBuf.mk (st16be b off v) beyond).load j =
      if j = off then UInt8.ofNat (v / 256) else if j = off + 1 then UInt8.ofNat v
      else (RxBuf.mk b beyond).load j := by
  unfold st16be
  rw [load_set (by rw [List.length_set]; omega), load_set (by omega)]
  split_ifs <;> first | rfl | omega

theorem val_ld16be_st16be {b : Bytes} {beyond : ℕ → UInt8} {off v : ℕ} (hoff : off + 1 < b.length)
    (hv : v < 65536) : (ld16be off).val ⟨st16be b off v, beyond⟩ = v := by
  rw [val_ld16be, load_st16be hoff, load_st16be hoff, if_pos rfl, if_neg (by omega), if_pos rfl]
  simp only [UInt8.toNat_ofNat']
  omega

theorem load_beyond {b : Bytes} {beyond beyond' : ℕ → UInt8} {j : ℕ} (hj : j < b.length) :
    (RxBuf.mk b beyond).load j = (RxBuf.mk b beyond').load j :=
  (RxBuf.load_eq ⟨b, beyond⟩ j hj).trans (RxBuf.load_eq ⟨b, beyond'⟩ j hj).symm

/-- The words of a header without its checksum, and that checksum. -/
theorem words_st16be {b : Bytes} {beyond beyond' : ℕ → UInt8} {v n : ℕ} (hn : 2 * n + 1 < b.length)
    (hv : v < 65536) : (RxBuf.mk (st16be b (2 * n) v) beyond).words (n + 1) 0 =
      (RxBuf.mk b beyond').words n 0 + v := by
  have hlast : (ld16be (2 * n)).val ⟨st16be b (2 * n) v, beyond⟩ = v := val_ld16be_st16be hn hv
  rw [RxBuf.words_succ, Nat.zero_add, hlast]
  refine congrArg (· + v) (RxBuf.words_congr fun j hj ↦ ?_)
  rw [load_st16be hn, if_neg (by omega), if_neg (by omega)]
  exact load_beyond (by omega)

theorem val_cs {b : RxBuf} {n : ℕ} (h : (b.load 1).toNat = 2 * n) :
    cs.val b = 0xffff - csFold 2 (b.words n 0) := by
  have hn : (2 * n + 1) / 2 = n := by omega
  unfold cs
  simp only [val_bind, val_ld, val_pure, val_csSum, h, hn, Nat.zero_add]

theorem load_one {b : Bytes} {beyond : ℕ → UInt8} (h : 2 ≤ b.length) :
    ((RxBuf.mk b beyond).load 1).toNat = getHSize b :=
  congrArg UInt8.toNat (RxBuf.load_eq ⟨b, beyond⟩ 1 h)

/-- A sum and the complement of what it folds to fold to all ones. -/
theorem csFold_complement {s : ℕ} (h : s ≤ 127 * 65535) : csFold 2 (s + (0xffff - csFold 2 s)) = 0xffff := by
  obtain ⟨hle, hmod, hzero⟩ := csFold_spec (s := s) (by omega)
  obtain ⟨hle', hmod', hzero'⟩ := csFold_spec (s := s + (0xffff - csFold 2 s)) (by omega)
  generalize csFold 2 (s + (0xffff - csFold 2 s)) = t' at *
  generalize csFold 2 s = t at *
  omega

/-- A header of even length with a checksum in it verifies. -/
theorem chkOk_writeChksum {b : Bytes} (hw : Whole b) (he : getHSize b % 2 = 0) (beyond : ℕ → UInt8) :
    (RssiHeader.read true).val ⟨writeChksum b, beyond⟩ = .ok true := by
  have hmin := hw.min
  have hfits := hw.fits
  have hlt : getHSize b < 256 := UInt8.toNat_lt _
  obtain ⟨n, hn⟩ : ∃ n, getHSize b = 2 * (n + 1) := ⟨getHSize b / 2 - 1, by omega⟩
  have hoff : getHSize b - 2 = 2 * n := by omega
  have h₀ := sameBut_st16be hw 0
  rw [hoff] at h₀
  have hl₀ := h₀.length
  have hcs : cs.val ⟨st16be b (2 * n) 0, fun _ ↦ 0⟩ =
      0xffff - csFold 2 ((RxBuf.mk (st16be b (2 * n) 0) beyond).words n 0) := by
    rw [val_cs (by rw [load_one (by omega), h₀.getHSize_eq, hn]), RxBuf.words_succ, Nat.zero_add,
      val_ld16be_st16be (by omega) (by omega), Nat.add_zero]
    refine congrArg (fun s ↦ 0xffff - csFold 2 s) (RxBuf.words_congr fun j hj ↦ ?_)
    exact load_beyond (by omega)
  have hS := RxBuf.words_le ⟨st16be b (2 * n) 0, beyond⟩ n 0
  have hsame := sameBut_writeChksum hw
  have hlen := hsame.length
  have hwords : (RxBuf.mk (writeChksum b) beyond).words (n + 1) 0 =
      (RxBuf.mk (st16be b (2 * n) 0) beyond).words n 0 + cs.val ⟨st16be b (2 * n) 0, fun _ ↦ 0⟩ := by
    unfold writeChksum
    dsimp only
    rw [hoff]
    exact words_st16be (by omega) (by rw [hcs]; omega)
  have hfold := csFold_complement (Nat.le_trans hS (Nat.mul_le_mul_right 65535 (by omega : n ≤ 127)))
  have hval : cs.val ⟨writeChksum b, beyond⟩ = 0 := by
    rw [val_cs (by rw [load_one (by omega), hsame.getHSize_eq, hn]), hwords, hcs, hfold]
  rw [RssiHeader.val_read (by change 8 ≤ (writeChksum b).length; omega), if_neg, hval]
  · rfl
  · change ¬(writeChksum b).length < getHSize (writeChksum b)
    rw [hsame.getHSize_eq]
    omega

end Cpsw.Rssi
