import Cpsw.Lib.Run
import Cpsw.Rssi.States

namespace Cpsw.Rssi

open Cpsw.Lib.Run

/-- The states whose `hasBufToSend` and `drainReassembleBuffer` do something. -/
def STATE.isOpen : STATE → Bool
  | .OPEN | .OPEN_OUTWIN_FULL => true
  | _ => false

namespace CRssi

variable {c c' : CRssi} {now : ℕ} {clk : Clock}

theorem wait_ok (h : c.wait = .ok c') : c' = c := by
  unfold wait at h
  split_ifs at h
  exact (Except.ok.inj h).symm

/-- The handler runs on the state that has waited. -/
theorem wait_bind_ok {f : CRssi → Except CPSWError CRssi} (h : c.wait >>= f = .ok c') :
    f c = .ok c' := by
  obtain ⟨c₁, h₁, h⟩ := bind_ok.1 h
  rwa [wait_ok h₁] at h

/-- A datagram is handled alike in all states; two of them look at the ring afterwards. -/
theorem handleRxEvent_ok {bc : RxBuf} (h : c.handleRxEvent bc clk = .ok c') : c.state ≠ .CLOSED ∧
    ∃ c₁, c.rxBase c.state bc clk = .ok c₁ ∧ (c' = c₁ ∨
      c.state = .SERV_WAIT_SYN_ACK ∧ c₁.snd.unAckedSegs.getSize = 0 ∧
        c' = (c₁.resetReopenDelay.changeState .PREP_OPEN).armTimer .NUL (clk.now + c₁.prm.nulTO) ∨
      c.state = .OPEN_OUTWIN_FULL ∧ c₁.snd.unAckedSegs.getSize < c₁.snd.peerOssMX ∧
        c' = { c₁ with usrIEH := true }.changeState .OPEN) := by
  unfold handleRxEvent at h
  split at h
  · cases h
  · rename_i hs
    obtain ⟨c₁, h₁, h⟩ := bind_ok.1 h
    rw [hs]
    refine ⟨nofun, c₁, h₁, ?_⟩
    split_ifs at h with hzero
    · exact .inr (.inl ⟨rfl, hzero, (Except.ok.inj h).symm⟩)
    · exact .inl (Except.ok.inj h).symm
  · rename_i hs
    obtain ⟨c₁, h₁, h⟩ := bind_ok.1 h
    rw [hs]
    refine ⟨nofun, c₁, h₁, ?_⟩
    split_ifs at h with hroom
    · exact .inr (.inr ⟨rfl, hroom, (Except.ok.inj h).symm⟩)
    · exact .inl (Except.ok.inj h).symm
  · rename_i hcl _ _
    exact ⟨hcl, c', h, .inl rfl⟩

theorem handleUsrInputEvent_eq (clk : Clock) (c : CRssi) : c.handleUsrInputEvent clk =
    if c.state.isOpen then do
      let p ← usrInputLoop clk.now (c.snd.peerOssMX - c.snd.unAckedSegs.getSize) c
      pure (if p.1 then p.2.enterWindowFull else p.2)
    else .error .usrInputUnexpected := by
  unfold handleUsrInputEvent
  cases c.state <;> rfl

theorem handleUsrOutputEvent_eq (c : CRssi) : c.handleUsrOutputEvent =
    if c.state.isOpen then do
      let c ← { c with usrOEH := false }.drainReassembleBuffer c.state
      if c.usrOEH then pure c else c.sendACK
    else .error .usrOutputUnexpected := by
  unfold handleUsrOutputEvent
  cases c.state <;> rfl

theorem processRexTimeout_eq (now : ℕ) (c : CRssi) : c.processRexTimeout now =
    if c.state = .CLOSED then .error .rexUnexpected else c.processRetransmissionTimeout now := by
  unfold processRexTimeout
  cases c.state <;> rfl

theorem processAckTimeout_eq (now : ℕ) (c : CRssi) : c.processAckTimeout now =
    if c.state.isOpen then c.sendDatOrAck c.state now else .error .ackUnexpected := by
  unfold processAckTimeout
  cases c.state <;> rfl

theorem processNulTimeout_eq (now : ℕ) (c : CRssi) : c.processNulTimeout now =
    if c.state.isOpen then
      if c.cfg.isServer then do
        let c ← c.sendRST
        pure (c.changeState .CLOSED)
      else do
        let p ← c.sendNUL now
        pure (if p.1 then p.2 else p.2.enterWindowFull)
    else .error .nulUnexpected := by
  unfold processNulTimeout
  cases c.state <;> rfl

/-- What a handler that returns has done, and the states it returns in. -/
theorem handleUsrInputEvent_ok (h : c.handleUsrInputEvent clk = .ok c') : c.state.isOpen = true ∧
    ∃ n full c₁, usrInputLoop clk.now n c = .ok (full, c₁) ∧
      c' = if full then c₁.enterWindowFull else c₁ := by
  rw [handleUsrInputEvent_eq] at h
  split_ifs at h with ho
  obtain ⟨⟨full, c₁⟩, h₁, h⟩ := bind_ok.1 h
  exact ⟨ho, _, full, c₁, h₁, (Except.ok.inj h).symm⟩

theorem handleUsrOutputEvent_ok (h : c.handleUsrOutputEvent = .ok c') : c.state.isOpen = true ∧
    ∃ c₁, { c with usrOEH := false }.drainReassembleBuffer c.state = .ok c₁ ∧
      (c' = c₁ ∨ c₁.sendACK = .ok c') := by
  rw [handleUsrOutputEvent_eq] at h
  split_ifs at h with ho
  obtain ⟨c₁, h₁, h⟩ := bind_ok.1 h
  refine ⟨ho, c₁, h₁, ?_⟩
  split_ifs at h
  · exact .inl (Except.ok.inj h).symm
  · exact .inr h

theorem processRexTimeout_ok (h : c.processRexTimeout now = .ok c') :
    c.state ≠ .CLOSED ∧ c.processRetransmissionTimeout now = .ok c' := by
  rw [processRexTimeout_eq] at h
  split_ifs at h with hcl
  exact ⟨hcl, h⟩

theorem processAckTimeout_ok (h : c.processAckTimeout now = .ok c') :
    c.state.isOpen = true ∧ c.sendDatOrAck c.state now = .ok c' := by
  rw [processAckTimeout_eq] at h
  split_ifs at h with ho
  exact ⟨ho, h⟩

theorem processNulTimeout_ok (h : c.processNulTimeout now = .ok c') : c.state.isOpen = true ∧
    ((∃ c₁, c.sendRST = .ok c₁ ∧ c' = c₁.changeState .CLOSED) ∨
      c.cfg.isServer = false ∧ ∃ sent c₁, c.sendNUL now = .ok (sent, c₁) ∧
        c' = if sent then c₁ else c₁.enterWindowFull) := by
  rw [processNulTimeout_eq] at h
  split_ifs at h with ho hsrv
  · obtain ⟨c₁, h₁, h⟩ := bind_ok.1 h
    exact ⟨ho, .inl ⟨c₁, h₁, (Except.ok.inj h).symm⟩⟩
  · obtain ⟨⟨sent, c₁⟩, h₁, h⟩ := bind_ok.1 h
    have hcfg := Bool.eq_false_of_not_eq_true hsrv
    exact ⟨ho, .inr ⟨hcfg, sent, c₁, h₁, (Except.ok.inj h).symm⟩⟩

end CRssi

end Cpsw.Rssi
