import Cpsw.Depack.Receive
import Cpsw.Lib.Circular
import Cpsw.Lib.Run
import Mathlib

namespace Cpsw.Depack

open Cpsw.Lib.Circular Cpsw.Lib.Run

theorem Config.frameWinSize_pos (c : Config) : 0 < c.frameWinSize := Nat.two_pow_pos _

theorem Config.frameWinSize_le (c : Config) : c.frameWinSize ≤ 1024 :=
  Nat.pow_le_pow_right (by decide) c.frame_le

theorem Config.frameWinSize_dvd (c : Config) : c.frameWinSize ∣ 4096 :=
  Nat.pow_dvd_pow 2 (c.frame_le.trans (by decide : 10 ≤ 12))

theorem signExtend_of_lt {x : ℕ} (h : x < 4096) :
    CAxisFrameHeader.signExtendFrameNo x = if x < 2048 then (x : ℤ) else x - 4096 := by
  have hbit : x.testBit 11 = decide (2048 ≤ x) := by
    rw [Nat.testBit_eq_decide_div_mod_eq]
    exact decide_eq_decide.2 (by omega)
  have hor : x ||| (2 ^ 32 - 2 ^ 12) = 4294963200 + x := by
    have := Nat.two_pow_add_eq_or_of_lt (i := 12) h (2 ^ 20 - 1)
    rw [Nat.or_comm]
    exact this.symm
  unfold CAxisFrameHeader.signExtendFrameNo
  simp only [FRAME_NO_BIT_SIZE, hor]
  change (if (if x.testBit 11 = true then 4294963200 + x else x) < 2 ^ 31 then _ else _) = _
  rw [hbit]
  simp only [decide_eq_true_eq]
  split_ifs <;> omega

theorem signExtend_of_neg {d : ℕ} (h : 0 < d) (hd : d < 4096) :
    CAxisFrameHeader.signExtendFrameNo (2 ^ 32 - d) = -(d : ℤ) := by
  have hor : (2 ^ 32 - d) ||| (2 ^ 32 - 2 ^ 12) = 2 ^ 32 - d := by
    have h₁ := Nat.two_pow_add_eq_or_of_lt (i := 12) (b := 4096 - d) (by omega) (2 ^ 20 - 1)
    have h₂ : 2 ^ 32 - d = 2 ^ 12 * (2 ^ 20 - 1) + (4096 - d) := by omega
    rw [h₂, h₁, Nat.or_right_comm]
    change 2 ^ 12 * (2 ^ 20 - 1) ||| (2 ^ 12 * (2 ^ 20 - 1)) ||| _ = _
    rw [Nat.or_self]
  unfold CAxisFrameHeader.signExtendFrameNo
  simp only [FRAME_NO_BIT_SIZE, hor, ite_self]
  rw [if_neg (by omega)]
  omega

namespace CProtoModDepack

variable {s s' : CProtoModDepack}

/-- How far the frame number `f` is ahead of the oldest frame, modulo 2^12. -/
def ahead (f : ℕ) (s : CProtoModDepack) : ℕ := (f + (4096 - s.oldestFrame)) % 4096

theorem relOff_eq {f : ℕ} (ho : s.oldestFrame < 4096) : s.relOff f = s.ahead f := by
  unfold relOff ahead CAxisFrameHeader.moduloFrameSz
  change (f + (4294967296 - s.oldestFrame)) % 4096 = _
  omega

/-- Where the number of the oldest frame is the larger one, no sign is extended. -/
theorem needsSync_eq {f : ℕ} (ho : s.oldestFrame < 4096) (hf : f < 4096) :
    s.needsSync f = decide (s.cfg.frameWinSize <
      if s.oldestFrame ≤ f ∧ s.ahead f < 2048 then s.ahead f else 4096 - s.ahead f) := by
  unfold needsSync ahead
  rcases Nat.lt_or_ge f s.oldestFrame with hlt | hge
  · have hx : (f + (2 ^ 32 - s.oldestFrame)) % 2 ^ 32 = 2 ^ 32 - (s.oldestFrame - f) := by omega
    have hk : (f + (4096 - s.oldestFrame)) % 4096 = 4096 - (s.oldestFrame - f) := by omega
    rw [hx, signExtend_of_neg (by omega) (by omega), hk, if_neg (by omega)]
    exact decide_eq_decide.2 (by omega)
  · have hx : (f + (2 ^ 32 - s.oldestFrame)) % 2 ^ 32 = f - s.oldestFrame := by omega
    have hk : (f + (4096 - s.oldestFrame)) % 4096 = f - s.oldestFrame := by omega
    rw [hx, signExtend_of_lt (by omega), hk]
    refine decide_eq_decide.2 ?_
    split_ifs <;> omega

/-- The verdict on a frame number, by its distance from the oldest frame only. -/
def verdict (W k : ℕ) : FrameTest :=
  if k < W then .pass
  else if k = W then .evict
  else .drop (W < min k (4096 - k))

/-- The window test is modulo 2^12: what is less than a window ahead passes, what is up to a window
behind is dropped and changes nothing, and the verdict depends on the distance only. -/
structure WindowLaw (s : CProtoModDepack) (f : ℕ) : Prop where
  ahead : s.ahead f < s.cfg.frameWinSize → s.frameTest f = .pass
  behind : 4096 - s.cfg.frameWinSize ≤ s.ahead f → s.frameTest f = .drop false ∧
    ∀ hdr bc, hdr.frameNo = f → s.testedFrag hdr bc = .ok s
  modulo : ∀ (t : CProtoModDepack) (g : ℕ), t.cfg = s.cfg → t.oldestFrame = 0 → g = s.ahead f → t.frameTest g = s.frameTest f

theorem frameTest_of_le {f : ℕ} (ho : s.oldestFrame < 4096) (hf : f < 4096)
    (h : s.oldestFrame ≤ f) : s.frameTest f = verdict s.cfg.frameWinSize (s.ahead f) := by
  have hW := s.cfg.frameWinSize_le
  have hk : s.ahead f = f - s.oldestFrame := by
    unfold CProtoModDepack.ahead
    omega
  unfold frameTest verdict
  rw [if_neg (by omega), relOff_eq ho, needsSync_eq ho hf]
  rcases Nat.lt_trichotomy (s.ahead f) s.cfg.frameWinSize with hlt | heq | hgt
  · rw [if_neg (show ¬s.ahead f ≥ s.cfg.frameWinSize by omega), if_pos hlt]
  · rw [if_pos (show s.ahead f ≥ s.cfg.frameWinSize by omega), if_pos heq,
      if_neg (show ¬s.ahead f < s.cfg.frameWinSize by omega), if_pos heq]
  · rw [if_pos (show s.ahead f ≥ s.cfg.frameWinSize by omega),
      if_neg (show ¬s.ahead f = s.cfg.frameWinSize by omega),
      if_neg (show ¬s.ahead f < s.cfg.frameWinSize by omega),
      if_neg (show ¬s.ahead f = s.cfg.frameWinSize by omega)]
    congr 1
    refine decide_eq_decide.2 ?_
    split_ifs <;> omega

/-- Where the numbers have wrapped, everything is dropped, and all but the last window resyncs. -/
theorem frameTest_of_lt {f : ℕ} (ho : s.oldestFrame < 4096) (hf : f < 4096)
    (h : f < s.oldestFrame) :
    s.frameTest f = .drop (decide (s.cfg.frameWinSize < 4096 - s.ahead f)) := by
  unfold frameTest
  rw [if_pos h, needsSync_eq ho hf, if_neg (by omega)]

theorem testedFrag_drop {hdr : CAxisFrameHeader} {bc : BufChain}
    (h : s.frameTest hdr.frameNo = .drop false) (hn : s.needsSync hdr.frameNo = false) :
    s.testedFrag hdr bc = .ok s := by
  unfold testedFrag frameSync
  rw [h, hn]
  rfl

theorem ahead_lt (f : ℕ) (s : CProtoModDepack) : s.ahead f < 4096 := Nat.mod_lt _ (by decide)

theorem needsSync_of_drop {f : ℕ} {b : Bool} (h : s.frameTest f = .drop b) : s.needsSync f = b := by
  unfold frameTest at h
  split_ifs at h <;> exact FrameTest.drop.inj h

/-- The law holds of the frame numbers that have not wrapped past the oldest frame, and of those
that lie more than a window ahead. -/
theorem windowLaw_iff {f : ℕ} (ho : s.oldestFrame < 4096) (hf : f < 4096) :
    WindowLaw s f ↔ s.oldestFrame ≤ f ∨ s.cfg.frameWinSize < s.ahead f := by
  have hW := s.cfg.frameWinSize_le
  have hk := ahead_lt f s
  have base : ∀ (t : CProtoModDepack) (g : ℕ), t.cfg = s.cfg → t.oldestFrame = 0 → g = s.ahead f →
      t.frameTest g = verdict s.cfg.frameWinSize (s.ahead f) := by
    intro t g hc h0 hg
    have hag : t.ahead g = g := by
      unfold CProtoModDepack.ahead
      rw [h0]
      omega
    rw [frameTest_of_le (by omega) (by omega) (by omega), hag, hc, hg]
  constructor
  · intro h
    by_contra hn
    obtain ⟨hlt, hle⟩ := not_or.1 hn
    have ht := frameTest_of_lt ho hf (by omega)
    have hm := h.modulo { s with oldestFrame := 0 } (s.ahead f) rfl rfl rfl
    rw [base { s with oldestFrame := 0 } (s.ahead f) rfl rfl rfl, ht] at hm
    unfold verdict at hm
    split_ifs at hm
    omega
  · intro h
    have ht : s.frameTest f = verdict s.cfg.frameWinSize (s.ahead f) := by
      rcases Nat.lt_or_ge f s.oldestFrame with hlt | hge
      · rw [frameTest_of_lt ho hf hlt]
        unfold verdict
        rw [if_neg (by omega), if_neg (by omega)]
        congr 1
        refine decide_eq_decide.2 ?_
        have hk' : s.ahead f = 4096 - (s.oldestFrame - f) := by
          unfold CProtoModDepack.ahead
          omega
        omega
      · exact frameTest_of_le ho hf hge
    refine ⟨fun hlt ↦ ?_, fun hge ↦ ?_, fun t g hc h0 hg ↦ (base t g hc h0 hg).trans ht.symm⟩
    · rw [ht]
      exact if_pos hlt
    · have hd : s.frameTest f = .drop false := by
        rw [ht]
        unfold verdict
        rw [if_neg (by omega), if_neg (by omega)]
        congr 1
        exact decide_eq_false (by omega)
      refine ⟨hd, fun hdr bc hh ↦ ?_⟩
      subst hh
      exact testedFrag_drop hd (needsSync_of_drop hd)

theorem one_le_maxLd : 1 ≤ 10 := by decide

/-- The window sizes of a stack with RSSI, by default. -/
def rssiConfig : Config where
  ldFrameWinSize := 1
  ldFragWinSize := 1
  frame_le := one_le_maxLd
  frag_le := one_le_maxLd

/-- A datagram in a buffer of its own. -/
def datagram (p : Bytes) : Input := .datagram [{ data := p, beg := 0, fin := p.length }]

theorem windowLaw_iff_newest : ∃ s : CProtoModDepack, s.oldestFrame < 4096 ∧
    (WindowLaw s 4095 ↔ s.oldestFrame ≤ 4095 ∨ s.cfg.frameWinSize < s.ahead 4095) :=
  ⟨{ new rssiConfig with oldestFrame := 4095 }, by decide, windowLaw_iff (by decide) (by decide)⟩

/-- After frame 4095, the next frame has the number 0, and is dropped as an old one. -/
theorem not_windowLaw_wrap : ∃ s, (new rssiConfig).receive
    (datagram [0xf0, 0xff, 0, 0, 0, 0, 0, 2, 42, 0]) = .ok s ∧ s.oldestFrame = 4095 ∧
      s.ahead 0 < s.cfg.frameWinSize ∧ s.frameTest 0 ≠ .pass ∧ ¬WindowLaw s 0 := by
  have hrun : ((new rssiConfig).receive (datagram [0xf0, 0xff, 0, 0, 0, 0, 0, 2, 42, 0])).toOption.map
      (fun s ↦ (s.oldestFrame, s.ahead 0, s.cfg.frameWinSize, s.frameTest 0)) =
        some (4095, 1, 2, .drop true) := by decide +kernel
  obtain ⟨s, hs, hf⟩ := Option.map_eq_some_iff.1 hrun
  simp only [Prod.mk.injEq] at hf
  obtain ⟨h₁, h₂, h₃, h₄⟩ := hf
  refine ⟨s, toOption_eq_some.1 hs, h₁, by omega, by rw [h₄]; exact nofun, fun hl ↦ ?_⟩
  have := hl.ahead (by omega)
  rw [h₄] at this
  contradiction

end CProtoModDepack

end Cpsw.Depack
