import Cpsw.Rssi.Checksum
import Cpsw.Rssi.SynData

namespace Cpsw.Rssi

open Cpsw.Lib.Run

/-- The parameters as `close` resets them, but for the segment size that the peer announces. -/
def Core.Fresh (k : Core) : Prop := ∃ n, k.prm = { closedParams k.cfg with peerSgsMX := n }

/-- What a peer announces in its SYNs. -/
def announced (cfg : Config) : RssiSynHeader where
  xflgs := ((XFL_ONE ||| XFL_CHK) &&& (0xf : UInt8)) ||| (RSSI_VERSION_1 <<< 4)
  ossMX := UInt8.ofNat cfg.maxUnackedSegs
  sgsMX := (maxSegSize cfg).toNat % 65536
  rexTO := cfg.defaults.rexTimeoutUS / UNIT_US
  cakTO := cfg.defaults.cumAckTimeoutUS / UNIT_US
  nulTO := (if cfg.isServer then cfg.defaults.nulTimeoutUS else cfg.defaults.nulTimeoutUS / 3 * 3) / UNIT_US
  rexMX := cfg.defaults.rexMax
  cakMX := cfg.defaults.cumAckMax
  units := 3

/-- The bytes of a SYN that tell the parameters. -/
def synBody (cfg : Config) : Bytes :=
  [(announced cfg).xflgs, (announced cfg).ossMX] ++ be16 (maxSegSize cfg).toNat ++
    be16 (announced cfg).rexTO ++ be16 (announced cfg).cakTO ++ be16 (announced cfg).nulTO ++
    [(announced cfg).rexMX, (announced cfg).cakMX, 0, (announced cfg).units]

structure Announces (cfg : Config) (b : Bytes) : Prop where
  length : b.length = 24
  hSize : b.getD 1 0 = 24
  body : ∀ i < 14, b.getD (4 + i) 0 = (synBody cfg).getD i 0

variable {cfg : Config} {k k' : Core} {b : Bytes} {y : RssiSynHeader}

theorem synHeader_eq (h : k.Fresh) (doAck : Bool) (n : SeqNo) (id : UInt32) :
    k.synHeader doAck n id = [if doAck then FLG_SYN ||| FLG_ACK else FLG_SYN, 24, n, 0] ++
      (synBody k.cfg ++ (be32 id.toNat ++ [0, 0])) := by
  obtain ⟨m, hp⟩ := h
  have hnul : k.getNulTimeout = if k.cfg.isServer then k.cfg.defaults.nulTimeoutUS
      else k.cfg.defaults.nulTimeoutUS / 3 * 3 := by
    unfold Core.getNulTimeout
    rw [hp]
    unfold closedParams setNulTimeout
    split_ifs <;> rfl
  have hrex : UInt8.ofNat (closedParams k.cfg).rexMX = k.cfg.defaults.rexMax := UInt8.ofNat_toNat
  have hcak : UInt8.ofNat (closedParams k.cfg).cakMX.toNat = k.cfg.defaults.cumAckMax :=
    UInt8.ofNat_toNat
  unfold Core.synHeader
  rw [hnul, hp]
  dsimp only
  unfold RssiSynHeader.set
  rw [hrex, hcak]
  rfl

theorem announces_synHeader (h : k.Fresh) (doAck : Bool) (n : SeqNo) (id : UInt32) :
    Announces k.cfg (k.synHeader doAck n id) := by
  refine ⟨rfl, rfl, fun i hi ↦ ?_⟩
  rw [synHeader_eq h, List.getD_append_right _ _ _ _ (Nat.le_add_right 4 i)]
  change List.getD _ (4 + i - 4) 0 = _
  rw [Nat.add_sub_cancel_left, List.getD_append _ _ _ _ hi]

/-- What `sendBuf` writes lies outside that part. -/
theorem getD_stamp {busy : Bool} (hw : Whole b) {j : ℕ} (hj : 4 ≤ j) (hj' : j + 2 < getHSize b) :
    (k.stamp busy b).getD j 0 = b.getD j 0 := by
  have hm := hw.min
  unfold Core.stamp
  dsimp only
  have h₁ : SameBut b (if busy then setFlags b (getFlags b ||| FLG_BSY) else b) ∧
      (if busy then setFlags b (getFlags b ||| FLG_BSY) else b).getD j 0 = b.getD j 0 := by
    split_ifs
    · refine ⟨sameBut_set b _ (by omega) (by omega) (by omega), ?_⟩
      rw [setFlags, getD_set, if_neg (by omega)]
    · exact ⟨.refl b, rfl⟩
  generalize (if busy then setFlags b (getFlags b ||| FLG_BSY) else b) = b₁ at h₁ ⊢
  obtain ⟨h₁, hj₁⟩ := h₁
  have h₂ : SameBut b (setAckNo b₁ k.rcv.lastSeqRecv) :=
    h₁.trans (sameBut_set b₁ _ (by omega) (by omega) (by rw [h₁.getHSize_eq]; omega))
  have hj₂ : (setAckNo b₁ k.rcv.lastSeqRecv).getD j 0 = b.getD j 0 := by
    rw [setAckNo, getD_set, if_neg (by omega), hj₁]
  split_ifs
  · unfold writeChksum st16be
    dsimp only
    rw [h₂.getHSize_eq, getD_set, if_neg (by omega), getD_set, if_neg (by omega), getD_set,
      if_neg (by omega), getD_set, if_neg (by omega), hj₂]
  · exact hj₂

theorem Announces.whole (h : Announces cfg b) : Whole b ∧ getHSize b = 24 := by
  have hs : getHSize b = 24 := congrArg UInt8.toNat h.hSize
  exact ⟨⟨by omega, by rw [hs, h.length]⟩, hs⟩

theorem Announces.stamp {busy : Bool} (h : Announces cfg b) : Announces cfg (k.stamp busy b) := by
  obtain ⟨hw, hs⟩ := h.whole
  have hsame := @sameBut_stamp k busy b hw
  refine ⟨hsame.length.trans h.length, hsame.hSize.trans h.hSize, fun i hi ↦ ?_⟩
  rw [getD_stamp hw (by omega) (by omega)]
  exact h.body i hi

theorem read_fields {bc : RxBuf} (h : RssiSynHeader.read.val bc = .ok y) :
    y = RssiSynHeader.fields.val bc := by
  rw [RssiSynHeader.read, Rd.val_bind] at h
  split at h
  · cases h
  · simp only [Rd.val_bind] at h
    split_ifs at h
    · cases h
    · rw [Rd.val_bind] at h
      split_ifs at h
      · cases h
      · exact (Except.ok.inj h).symm

/-- A big-endian pair of bytes. -/
def be16Val (hi lo : UInt8) : ℕ := hi.toNat * 256 + lo.toNat

theorem be16Val_ofNat (v : ℕ) : be16Val (UInt8.ofNat (v / 256)) (UInt8.ofNat v) = v % 65536 := by
  unfold be16Val
  simp only [UInt8.toNat_ofNat']
  omega

theorem announced_lt (cfg : Config) : (announced cfg).rexTO < 65536 ∧ (announced cfg).cakTO < 65536 ∧
    (announced cfg).nulTO < 65536 := by
  have h := cfg.valid
  unfold CRssiConfigParams.assertValid at h
  split_ifs at h with _ hrex hcak hnul
  refine ⟨Nat.lt_of_not_ge hrex, Nat.lt_of_not_ge hcak, ?_⟩
  unfold announced UNIT_US at *
  dsimp only
  split_ifs <;> omega

theorem Announces.read (h : Announces cfg b) (beyond : ℕ → UInt8) :
    RssiSynHeader.read.val ⟨b, beyond⟩ = .ok (announced cfg) := by
  have hlen := h.length
  have hbody : ∀ i < 14, (RxBuf.mk b beyond).load (4 + i) = (synBody cfg).getD i 0 := by
    intro i hi
    rw [RxBuf.load_eq _ _ (by change 4 + i < b.length; omega)]
    exact h.body i hi
  obtain ⟨y, hy⟩ := (RssiSynHeader.val_read (b := ⟨b, beyond⟩) (by change 2 ≤ b.length; omega)).2 ⟨by
    change (b.getD 1 0).toNat ≤ b.length
    rw [h.hSize, hlen]
    decide, .inl hlen, by
    change b.getD 4 0 >>> 4 = _
    rw [h.body 0 (by omega)]
    change (((XFL_ONE ||| XFL_CHK) &&& (0xf : UInt8)) ||| (RSSI_VERSION_1 <<< 4)) >>> 4 = RSSI_VERSION_1
    decide⟩
  rw [hy, read_fields hy]
  change Except.ok (RssiSynHeader.mk ((RxBuf.mk b beyond).load (4 + 0)) ((RxBuf.mk b beyond).load (4 + 1))
    (be16Val ((RxBuf.mk b beyond).load (4 + 2)) ((RxBuf.mk b beyond).load (4 + 3)))
    (be16Val ((RxBuf.mk b beyond).load (4 + 4)) ((RxBuf.mk b beyond).load (4 + 5)))
    (be16Val ((RxBuf.mk b beyond).load (4 + 6)) ((RxBuf.mk b beyond).load (4 + 7)))
    (be16Val ((RxBuf.mk b beyond).load (4 + 8)) ((RxBuf.mk b beyond).load (4 + 9)))
    ((RxBuf.mk b beyond).load (4 + 10)) ((RxBuf.mk b beyond).load (4 + 11))
    ((RxBuf.mk b beyond).load (4 + 13))) = _
  rw [hbody 0 (by omega), hbody 1 (by omega), hbody 2 (by omega), hbody 3 (by omega), hbody 4 (by omega),
    hbody 5 (by omega), hbody 6 (by omega), hbody 7 (by omega), hbody 8 (by omega), hbody 9 (by omega),
    hbody 10 (by omega), hbody 11 (by omega), hbody 13 (by omega)]
  change Except.ok (RssiSynHeader.mk _ _ (be16Val (UInt8.ofNat (_ / 256)) (UInt8.ofNat _))
    (be16Val (UInt8.ofNat (_ / 256)) (UInt8.ofNat _)) (be16Val (UInt8.ofNat (_ / 256)) (UInt8.ofNat _))
    (be16Val (UInt8.ofNat (_ / 256)) (UInt8.ofNat _)) _ _ _) = _
  obtain ⟨hrex, hcak, hnul⟩ := announced_lt cfg
  rw [be16Val_ofNat, be16Val_ofNat, be16Val_ofNat, be16Val_ofNat, Nat.mod_eq_of_lt hrex,
    Nat.mod_eq_of_lt hcak, Nat.mod_eq_of_lt hnul]
  rfl

end Cpsw.Rssi
