import Cpsw.Rssi.Context

namespace Cpsw.Rssi

/-- What a retransmission leaves as it was. -/
def Segment.content (s : Segment) : Segment := { s with flags := s.flags ||| FLG_BSY, ackNo := 0 }

/-- What the receiver passes through its reassembly buffer. -/
def Segment.Storable (s : Segment) : Prop := s.hasPayload = true ∨ hasFlag s.flags FLG_NUL = true

/-- An outgoing buffer holds at least the header whose length it states. -/
structure Whole (b : Bytes) : Prop where
  min : 8 ≤ getHSize b
  fits : getHSize b ≤ b.length

theorem getD_set (b : Bytes) (i j : ℕ) (v : UInt8) :
    (b.set i v).getD j 0 = if i = j ∧ i < b.length then v else b.getD j 0 := by
  simp only [List.getD_eq_getElem?_getD, List.getElem?_set]
  by_cases hij : i = j
  · subst hij
    by_cases hi : i < b.length
    · simp [hi]
    · simp [hi]
  · simp [hij]

/-- Two buffers that differ in no more than the flags, the ACK number and the checksum. -/
structure SameBut (b b' : Bytes) : Prop where
  length : b'.length = b.length
  hSize : b'.getD 1 0 = b.getD 1 0
  seqNo : b'.getD 2 0 = b.getD 2 0
  payload : b'.drop (getHSize b) = b.drop (getHSize b)

theorem sameBut_set (b : Bytes) {i : ℕ} (v : UInt8) (h1 : i ≠ 1) (h2 : i ≠ 2)
    (hi : i < getHSize b) : SameBut b (b.set i v) where
  length := List.length_set
  hSize := by rw [getD_set, if_neg (by omega)]
  seqNo := by rw [getD_set, if_neg (by omega)]
  payload := List.drop_set_of_lt hi

theorem SameBut.trans {a b c : Bytes} (h : SameBut a b) (h' : SameBut b c) : SameBut a c where
  length := h'.length.trans h.length
  hSize := h'.hSize.trans h.hSize
  seqNo := h'.seqNo.trans h.seqNo
  payload := by
    have hs : getHSize b = getHSize a := congrArg UInt8.toNat h.hSize
    have hp := h'.payload
    rw [hs] at hp
    exact hp.trans h.payload

theorem SameBut.refl (b : Bytes) : SameBut b b := ⟨rfl, rfl, rfl, rfl⟩

theorem SameBut.getHSize_eq {b b' : Bytes} (h : SameBut b b') : getHSize b' = getHSize b :=
  congrArg UInt8.toNat h.hSize

theorem SameBut.whole {b b' : Bytes} (h : SameBut b b') (hw : Whole b) : Whole b' :=
  ⟨h.getHSize_eq ▸ hw.min, by rw [h.getHSize_eq, h.length]; exact hw.fits⟩

theorem sameBut_st16be {b : Bytes} (hw : Whole b) (v : ℕ) :
    SameBut b (st16be b (getHSize b - 2) v) := by
  have hm := hw.min
  have h₁ := sameBut_set b (UInt8.ofNat (v / 256)) (i := getHSize b - 2)
    (by omega) (by omega) (by omega)
  refine h₁.trans (sameBut_set _ _ (by omega) (by omega) ?_)
  rw [h₁.getHSize_eq]
  omega

theorem getD_st16be {b : Bytes} (hw : Whole b) (v j : ℕ) (hj : j < 6) :
    (st16be b (getHSize b - 2) v).getD j 0 = b.getD j 0 := by
  have hm := hw.min
  unfold st16be
  rw [getD_set, if_neg (by omega), getD_set, if_neg (by omega)]

theorem sameBut_writeChksum {b : Bytes} (hw : Whole b) : SameBut b (writeChksum b) := by
  have h₁ := sameBut_st16be hw 0
  have h₂ := sameBut_st16be (h₁.whole hw) (cs.val ⟨st16be b (getHSize b - 2) 0, fun _ ↦ 0⟩)
  rw [h₁.getHSize_eq] at h₂
  exact h₁.trans h₂

theorem getD_writeChksum {b : Bytes} (hw : Whole b) {j : ℕ} (hj : j < 6) :
    (writeChksum b).getD j 0 = b.getD j 0 := by
  have h₁ := sameBut_st16be hw 0
  have h₂ := getD_st16be (h₁.whole hw) (cs.val ⟨st16be b (getHSize b - 2) 0, fun _ ↦ 0⟩) j hj
  rw [h₁.getHSize_eq] at h₂
  exact h₂.trans (getD_st16be hw 0 j hj)

variable {k : Core} {busy : Bool} {b : Bytes}

theorem sameBut_stamp (hw : Whole b) : SameBut b (k.stamp busy b) := by
  have hm := hw.min
  unfold Core.stamp
  dsimp only
  have h₁ : SameBut b (if busy then setFlags b (getFlags b ||| FLG_BSY) else b) := by
    split_ifs
    · exact sameBut_set b _ (by omega) (by omega) (by omega)
    · exact .refl b
  generalize (if busy then setFlags b (getFlags b ||| FLG_BSY) else b) = b₁ at h₁ ⊢
  have h₂ : SameBut b (setAckNo b₁ k.rcv.lastSeqRecv) :=
    h₁.trans (sameBut_set b₁ _ (by omega) (by omega) (by rw [h₁.getHSize_eq]; omega))
  split_ifs
  · exact h₂.trans (sameBut_writeChksum (h₂.whole hw))
  · exact h₂

/-- The fields of a segment on its way out. -/
theorem ofBytes_stamp (hw : Whole b) : Segment.ofBytes (k.stamp busy b) =
    { Segment.ofBytes b with
      flags := if busy then getFlags b ||| FLG_BSY else getFlags b, ackNo := k.rcv.lastSeqRecv } := by
  have hm := hw.min
  have hf := hw.fits
  have hs := @sameBut_stamp k busy b hw
  have hflags : (k.stamp busy b).getD 0 0 = (if busy then getFlags b ||| FLG_BSY else getFlags b) ∧
      (k.stamp busy b).getD 3 0 = k.rcv.lastSeqRecv := by
    unfold Core.stamp
    dsimp only
    generalize hb : (if busy then setFlags b (getFlags b ||| FLG_BSY) else b) = b₁
    have h₁ : SameBut b b₁ ∧
        b₁.getD 0 0 = if busy then getFlags b ||| FLG_BSY else getFlags b := by
      rw [← hb]
      split_ifs
      · refine ⟨sameBut_set b _ (by omega) (by omega) (by omega), ?_⟩
        rw [setFlags, getD_set, if_pos ⟨rfl, by omega⟩]
      · exact ⟨.refl b, rfl⟩
    have h₂ : Whole (setAckNo b₁ k.rcv.lastSeqRecv) :=
      (sameBut_set b₁ _ (by omega) (by omega)
        (by rw [h₁.1.getHSize_eq]; omega)).whole (h₁.1.whole hw)
    have h₃ : (setAckNo b₁ k.rcv.lastSeqRecv).getD 0 0 = b₁.getD 0 0 ∧
        (setAckNo b₁ k.rcv.lastSeqRecv).getD 3 0 = k.rcv.lastSeqRecv := by
      unfold setAckNo
      have hl := h₁.1.length
      rw [getD_set, getD_set, if_neg (by omega), if_pos ⟨rfl, by omega⟩]
      exact ⟨rfl, rfl⟩
    split_ifs at h₁ ⊢ <;>
    first
      | (rw [getD_writeChksum h₂ (by omega), getD_writeChksum h₂ (by omega), h₃.1, h₃.2]
         exact ⟨h₁.2, rfl⟩)
      | (rw [h₃.1, h₃.2]
         exact ⟨h₁.2, rfl⟩)
  unfold Segment.ofBytes
  rw [hflags.1, hflags.2, hs.hSize, hs.seqNo]
  exact congrArg _ hs.payload

theorem content_stamp (hw : Whole b) :
    (Segment.ofBytes (k.stamp busy b)).content = (Segment.ofBytes b).content := by
  rw [ofBytes_stamp hw]
  unfold Segment.content
  simp only [Segment.mk.injEq, and_true]
  change _ = getFlags b ||| FLG_BSY
  split_ifs
  · rw [UInt8.or_assoc, UInt8.or_self]
  · rfl

end Cpsw.Rssi
