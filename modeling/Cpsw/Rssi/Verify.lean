import Cpsw.Rssi.Checksum

namespace Cpsw.Rssi

open Rd

/-- A header of an even size. -/
structure EvenHeader (b : Bytes) : Prop where
  whole : Whole b
  even : getHSize b % 2 = 0

/-- The constructor finds the checksum right. -/
def Verifies (b : RxBuf) : Prop := (RssiHeader.read true).val b = .ok true

/-- The header with the word `k` replaced. -/
def replaceWord (b : Bytes) (k w : ℕ) : Bytes := st16be b (2 * k) w

variable {b : Bytes} {beyond : ℕ → UInt8} {k w n : ℕ}

theorem EvenHeader.writeChksum (hb : EvenHeader b) : EvenHeader (writeChksum b) :=
  have hsame := sameBut_writeChksum hb.whole
  ⟨hsame.whole hb.whole, hsame.getHSize_eq.symm ▸ hb.even⟩

theorem replaceWord_length (b : Bytes) (k w : ℕ) : (replaceWord b k w).length = b.length := by
  rw [replaceWord, st16be, List.length_set, List.length_set]

theorem val_ld16be_other {j : ℕ} (hk : 2 * k + 1 < b.length) (hj : j ≠ k) :
    (ld16be (2 * j)).val ⟨replaceWord b k w, beyond⟩ = (ld16be (2 * j)).val ⟨b, beyond⟩ := by
  rw [val_ld16be, val_ld16be, replaceWord, load_st16be hk, load_st16be hk, if_neg (by omega),
    if_neg (by omega), if_neg (by omega), if_neg (by omega)]

/-- The sum with one word exchanged for another. -/
theorem words_replaceWord (beyond : ℕ → UInt8) (hk : k < n) (hlen : 2 * n ≤ b.length) (hw : w < 65536) :
    (RxBuf.mk (replaceWord b k w) beyond).words n 0 + (ld16be (2 * k)).val ⟨b, beyond⟩ =
      (RxBuf.mk b beyond).words n 0 + w := by
  have hlt : 2 * k + 1 < b.length := by omega
  induction n with
  | zero => cases hk
  | succ n ih =>
    rw [RxBuf.words_succ, RxBuf.words_succ, Nat.zero_add]
    rcases Nat.lt_succ_iff_lt_or_eq.1 hk with hkn | rfl
    · rw [val_ld16be_other hlt (by omega)]
      have hrest := ih hkn (by omega)
      omega
    · have hpre : (RxBuf.mk (replaceWord b k w) beyond).words k 0 =
          (RxBuf.mk b beyond).words k 0 := by
        apply RxBuf.words_congr
        intro j hj
        rw [replaceWord, load_st16be hlt, if_neg (by omega), if_neg (by omega)]
      rw [hpre, replaceWord, val_ld16be_st16be hlt hw]
      omega

/-- The checksum is right where the words add up to zero in the one's complement, without all being
zero. -/
theorem verifies_iff (hb : EvenHeader b) :
    Verifies ⟨b, beyond⟩ ↔ (RxBuf.mk b beyond).words (getHSize b / 2) 0 % 0xffff = 0 ∧
      (RxBuf.mk b beyond).words (getHSize b / 2) 0 ≠ 0 := by
  have hmin := hb.whole.min
  have hfits := hb.whole.fits
  have hlt : getHSize b < 256 := UInt8.toNat_lt _
  have heven := hb.even
  have hn : (RxBuf.load ⟨b, beyond⟩ 1).toNat = 2 * (getHSize b / 2) := by
    rw [load_one (by omega)]
    omega
  have hle := RxBuf.words_le ⟨b, beyond⟩ (getHSize b / 2) 0
  have hhalf : getHSize b / 2 ≤ 128 := by omega
  have hfold := csFold_spec (hle.trans (Nat.mul_le_mul_right 65535 hhalf))
  rw [Verifies, RssiHeader.val_read (by change 8 ≤ b.length; omega), if_neg, val_cs hn]
  · simp only [Bool.not_true, Bool.false_or, Except.ok.injEq, beq_iff_eq]
    generalize (RxBuf.mk b beyond).words (getHSize b / 2) 0 = s at hfold ⊢
    omega
  · change ¬b.length < getHSize b
    omega

/-- A word of a verified header is exchanged for one that is not the same in the one's complement. -/
theorem EvenHeader.not_verifies (hb : EvenHeader b) (hv : Verifies ⟨b, beyond⟩)
    (hk : k < getHSize b / 2) (hw : w < 65536) (hsize : getHSize (replaceWord b k w) = getHSize b)
    (hne : w ≠ (ld16be (2 * k)).val ⟨b, beyond⟩)
    (hzero : ¬(w = 0 ∧ (ld16be (2 * k)).val ⟨b, beyond⟩ = 0xffff))
    (hones : ¬(w = 0xffff ∧ (ld16be (2 * k)).val ⟨b, beyond⟩ = 0)) :
    ¬Verifies ⟨replaceWord b k w, beyond⟩ := by
  have hfits := hb.whole.fits
  have hlen := replaceWord_length b k w
  have hb' : EvenHeader (replaceWord b k w) :=
    ⟨⟨hsize.symm ▸ hb.whole.min, by omega⟩, hsize.symm ▸ hb.even⟩
  have hsum := words_replaceWord (b := b) beyond hk (by omega) hw
  have hold := ld16be_lt (2 * k) ⟨b, beyond⟩
  rw [verifies_iff hb] at hv
  rw [verifies_iff hb', hsize]
  omega

/-- A written checksum verifies, and from a verified header no word can be exchanged unnoticed. -/
theorem chksum_detects (hb : EvenHeader b) (beyond : ℕ → UInt8) :
    (EvenHeader (writeChksum b) ∧ Verifies ⟨writeChksum b, beyond⟩) ∧
    (Verifies ⟨b, beyond⟩ → ∀ k < getHSize b / 2, ∀ w < 65536,
      getHSize (replaceWord b k w) = getHSize b → w ≠ (ld16be (2 * k)).val ⟨b, beyond⟩ →
      ¬(w = 0 ∧ (ld16be (2 * k)).val ⟨b, beyond⟩ = 0xffff) →
      ¬(w = 0xffff ∧ (ld16be (2 * k)).val ⟨b, beyond⟩ = 0) →
      (RssiHeader.read true).val ⟨replaceWord b k w, beyond⟩ = .ok false) := by
  refine ⟨⟨hb.writeChksum, chkOk_writeChksum hb.whole hb.even beyond⟩, ?_⟩
  intro hv k hk w hw hsize hne hzero hones
  have hno := hb.not_verifies hv hk hw hsize hne hzero hones
  have hmin := hb.whole.min
  have hfits := hb.whole.fits
  have hlen := replaceWord_length b k w
  rw [Verifies] at hno
  rw [RssiHeader.val_read (by change 8 ≤ (replaceWord b k w).length; omega), if_neg] at hno ⊢
  · exact congrArg _ (Bool.eq_false_of_not_eq_true fun ht ↦ hno (congrArg _ ht))
  · change ¬(replaceWord b k w).length < getHSize (replaceWord b k w)
    omega
  · change ¬(replaceWord b k w).length < getHSize (replaceWord b k w)
    omega

/-- An ACK; its second word carries the sequence numbers. -/
theorem chksum_detects_sample :
    (EvenHeader (writeChksum [0x40, 8, 7, 9, 0, 0, 0, 0]) ∧
      Verifies ⟨writeChksum [0x40, 8, 7, 9, 0, 0, 0, 0], fun _ ↦ 0⟩) ∧
    (Verifies ⟨[0x40, 8, 7, 9, 0, 0, 0, 0], fun _ ↦ 0⟩ →
      ∀ k < getHSize [0x40, 8, 7, 9, 0, 0, 0, 0] / 2, ∀ w < 65536,
        getHSize (replaceWord [0x40, 8, 7, 9, 0, 0, 0, 0] k w) =
          getHSize [0x40, 8, 7, 9, 0, 0, 0, 0] →
        w ≠ (ld16be (2 * k)).val ⟨[0x40, 8, 7, 9, 0, 0, 0, 0], fun _ ↦ 0⟩ →
        ¬(w = 0 ∧ (ld16be (2 * k)).val ⟨[0x40, 8, 7, 9, 0, 0, 0, 0], fun _ ↦ 0⟩ = 0xffff) →
        ¬(w = 0xffff ∧ (ld16be (2 * k)).val ⟨[0x40, 8, 7, 9, 0, 0, 0, 0], fun _ ↦ 0⟩ = 0) →
        (RssiHeader.read true).val ⟨replaceWord [0x40, 8, 7, 9, 0, 0, 0, 0] k w, fun _ ↦ 0⟩ =
          .ok false) :=
  chksum_detects ⟨⟨by decide, by decide⟩, by decide⟩ fun _ ↦ 0

end Cpsw.Rssi
