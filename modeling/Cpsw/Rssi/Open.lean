import Cpsw.Rssi.Sends

namespace Cpsw.Rssi

open Cpsw.Lib.Run

variable {O : Bytes → Prop} {c c' c₁ : CRssi} {now : ℕ} {s : STATE} {seg : Segment}

/-- An ACK and nothing else. -/
def Segment.bareAck (s : Segment) : Bool := s.isPureAck && !s.hasPayload

/-- What a connection past its SYNs does first with a segment that it accepts. -/
inductive Admits (c : CRssi) (seg : Segment) : CRssi → Prop
  | syn : hasFlag seg.flags FLG_SYN = true → Admits c seg c.forceACK
  | ack : hasFlag seg.flags FLG_SYN = false → seg.bareAck = true →
      Admits c seg { c with numCak := c.numCak - 1 }
  | nul : seg.bareAck = false → hasFlag seg.flags FLG_NUL = true → c.cfg.isServer = true →
      seg.hasPayload = false → Admits c seg c.forceACK
  | rst : seg.bareAck = false → hasFlag seg.flags FLG_NUL = false → hasFlag seg.flags FLG_RST = true →
      Admits c seg ({ c with rst := true }.changeState .CLOSED)
  | dat : seg.bareAck = false → hasFlag seg.flags FLG_NUL = false → hasFlag seg.flags FLG_RST = false →
      seg.hasPayload = true → Admits c seg c

theorem Rx.flags_syn {b : Bytes} {y : RssiSynHeader} (h : Parses b (.syn seg y)) :
    hasFlag seg.flags FLG_SYN = true := by
  cases h
  assumption

theorem Rx.flags_oth {b : Bytes} (h : Parses b (.oth seg)) : hasFlag seg.flags FLG_SYN = false := by
  cases h
  assumption

theorem STATE.early_of_isOpen (h : s.isOpen = true) : s.early = false := by
  cases s <;> first | rfl | contradiction

namespace CRssi

theorem handleSYN_late {y : RssiSynHeader} {clk : Clock} {b : Bool} (hs : s.early = false)
    (h : c.handleSYN s seg y clk = .ok (b, c')) : b = true ∧ c' = c.forceACK := by
  cases s <;> first
    | contradiction
    | (obtain ⟨rfl, rfl⟩ := Prod.mk.inj (Except.ok.inj h)
       exact ⟨rfl, rfl⟩)

theorem handleOTH_late {b : Bool} (hs : s.early = false) (hsyn : hasFlag seg.flags FLG_SYN = false)
    (h : c.handleOTH s seg = .ok (b, c')) :
    if b then Admits c seg c' else c' = c ∧ ∀ c₁, ¬Admits c seg c₁ := by
  have key : (if seg.bareAck then pure (true, { c with numCak := c.numCak - 1 })
      else if hasFlag seg.flags FLG_NUL then
        if c.cfg.isServer && !seg.hasPayload then pure (true, c.forceACK) else pure (false, c)
      else if hasFlag seg.flags FLG_RST then pure (true, { c with rst := true }.changeState .CLOSED)
      else if seg.hasPayload then pure (true, c)
      else pure (false, c) : Except CPSWError (Bool × CRssi)) = .ok (b, c') := by
    cases s <;> first | contradiction | exact h
  split_ifs at key with h₁ h₂ h₃ h₄ h₅ <;> obtain ⟨rfl, rfl⟩ := Prod.mk.inj (Except.ok.inj key)
  · exact .ack hsyn h₁
  · rw [Bool.and_eq_true, Bool.not_eq_true'] at h₃
    exact .nul (Bool.eq_false_of_not_eq_true h₁) h₂ h₃.1 h₃.2
  · refine ⟨rfl, fun c₁ hadm ↦ ?_⟩
    cases hadm <;> simp_all
  · exact .rst (Bool.eq_false_of_not_eq_true h₁) (Bool.eq_false_of_not_eq_true h₂) h₄
  · exact .dat (Bool.eq_false_of_not_eq_true h₁) (Bool.eq_false_of_not_eq_true h₂)
      (Bool.eq_false_of_not_eq_true h₄) h₅
  · refine ⟨rfl, fun c₁ hadm ↦ ?_⟩
    cases hadm <;> simp_all

/-- A datagram is dropped, or the segment in it is accepted; a SYN is only answered. -/
theorem rxBase_admits {bc : RxBuf} {clk : Clock} (hs : s.early = false)
    (h : c.rxBase s bc clk = .ok c') :
    (c' = c ∧ ∀ seg, ((rxParse c.prm.verifyChecksum).val bc).segment? = some seg →
      ∀ c₁, ¬Admits c seg c₁) ∨
    ∃ seg c₁, ((rxParse c.prm.verifyChecksum).val bc).segment? = some seg ∧
      Admits c seg c₁ ∧ (hasFlag seg.flags FLG_SYN = true → c₁ = c.forceACK) ∧
      c₁.rxAccepted s seg clk.now = .ok c' := by
  have hparse := rxParse_parses c.prm.verifyChecksum bc
  unfold rxBase at h
  generalize (rxParse c.prm.verifyChecksum).val bc = rx at h hparse ⊢
  obtain ⟨⟨o, c₁⟩, hd, ha⟩ := bind_ok.1 h
  cases rx with
  | tooShort | badHeader | badChecksum | badSyn =>
    obtain ⟨rfl, rfl⟩ := Prod.mk.inj (Except.ok.inj hd)
    exact .inl ⟨(Except.ok.inj ha).symm, nofun⟩
  | syn seg y =>
    obtain ⟨⟨b, c₂⟩, hsyn, hd⟩ := bind_ok.1 hd
    obtain ⟨rfl, rfl⟩ := handleSYN_late hs hsyn
    obtain ⟨rfl, rfl⟩ := Prod.mk.inj (Except.ok.inj hd)
    exact .inr ⟨seg, _, rfl, .syn (Rx.flags_syn hparse), fun _ ↦ rfl, ha⟩
  | oth seg =>
    obtain ⟨⟨b, c₂⟩, hoth, hd⟩ := bind_ok.1 hd
    have hadm := handleOTH_late hs (Rx.flags_oth hparse) hoth
    obtain ⟨rfl, rfl⟩ := Prod.mk.inj (Except.ok.inj hd)
    cases b with
    | false =>
      obtain ⟨rfl, hno⟩ := hadm
      refine .inl ⟨(Except.ok.inj ha).symm, fun seg' hseg ↦ ?_⟩
      obtain rfl := Option.some.inj hseg
      exact hno
    | true =>
      refine .inr ⟨seg, c₂, rfl, hadm, fun hsyn ↦ ?_, ha⟩
      rw [Rx.flags_oth hparse] at hsyn
      cases hsyn

/-- A datagram is dropped, or the segment in it is accepted. -/
theorem rxBase_late {bc : RxBuf} {clk : Clock} (hs : s.early = false)
    (h : c.rxBase s bc clk = .ok c') :
    (c' = c ∧ ∀ seg, ((rxParse c.prm.verifyChecksum).val bc).segment? = some seg →
      ∀ c₁, ¬Admits c seg c₁) ∨
    ∃ seg c₁, ((rxParse c.prm.verifyChecksum).val bc).segment? = some seg ∧
      Admits c seg c₁ ∧ c₁.rxAccepted s seg clk.now = .ok c' := by
  rcases rxBase_admits hs h with hdrop | ⟨seg, c₁, hseg, hadm, -, ha⟩
  · exact .inl hdrop
  · exact .inr ⟨seg, c₁, hseg, hadm, ha⟩

/-- What an acknowledgement leaves in the ring. -/
theorem processAckNumber_holds {q : List Bytes} (hq : c.snd.unAckedSegs.Holds q) (flags : UInt8)
    (a : SeqNo) : ∃ n, (c.processAckNumber flags a).snd.unAckedSegs.Holds (q.drop n) := by
  rw [toCore_processAckNumber]
  split_ifs
  · obtain ⟨hout, hin⟩ := hq.ack a
    change ∃ n, (c.snd.unAckedSegs.ack a).2.Holds (q.drop n)
    rcases Nat.lt_or_ge q.length (c.snd.unAckedSegs.cumAck a) with hlt | hge
    · rw [hout hlt]
      exact ⟨0, hq⟩
    · exact ⟨_, (hin hge).2.1⟩
  · exact ⟨0, hq⟩

theorem rxStore_eq (h : c.rxStore s seg = .ok c') :
    ∃ r q e, c' = { c with rcv := r, outQ := q, usrOEH := e } := by
  unfold rxStore at h
  split_ifs at h
  · obtain ⟨ro, -, h⟩ := bind_ok.1 h
    rcases drainReassembleBuffer_ok h with ⟨-, rfl⟩ | ⟨-, q, e, r, -, rfl⟩
    · exact ⟨_, _, _, rfl⟩
    · exact ⟨_, _, _, rfl⟩
  · obtain rfl := Except.ok.inj h
    exact ⟨_, _, _, rfl⟩

/-- What the flag BSY of a segment does before anything is sent. -/
def noteBusy (seg : Segment) (c : CRssi) : CRssi :=
  if hasFlag seg.flags FLG_BSY && !c.peerBSY
    then { c with peerBSY := hasFlag seg.flags FLG_BSY }.cancelTimer .REX
    else { c with peerBSY := hasFlag seg.flags FLG_BSY }

@[simp] theorem toCore_noteBusy : (c.noteBusy seg).toCore = c.toCore := by
  unfold noteBusy
  split_ifs <;> rfl

theorem rxBusy_eq : c.rxBusy s seg now =
    if c.peerBSY && !hasFlag seg.flags FLG_BSY && c.snd.unAckedSegs.getSize > 0
      then (c.noteBusy seg).processRetransmissionTimeout now
      else (c.noteBusy seg).rxReply s now := by
  have hring : (c.noteBusy seg).snd.unAckedSegs = c.snd.unAckedSegs := by rw [toCore_noteBusy]
  rw [← hring]
  rfl

/-- With room in its window again, a connection leaves `OPEN_OUTWIN_FULL`. -/
theorem handleRxEvent_open {bc : RxBuf} {clk : Clock} (ho : c.state.isOpen = true)
    (h : c.handleRxEvent bc clk = .ok c') : ∃ c₁, c.rxBase c.state bc clk = .ok c₁ ∧
      c' = if c.state = .OPEN_OUTWIN_FULL ∧ c₁.snd.unAckedSegs.getSize < c₁.snd.peerOssMX
        then { c₁ with usrIEH := true }.changeState .OPEN else c₁ := by
  unfold handleRxEvent at h
  split at h
  · cases h
  · rename_i hs
    rw [hs] at ho
    contradiction
  · rename_i hs
    obtain ⟨c₁, h₁, h⟩ := bind_ok.1 h
    refine ⟨c₁, by rw [hs]; exact h₁, ?_⟩
    simp only [hs, true_and]
    exact (Except.ok.inj h).symm
  · rename_i hs
    exact ⟨c', h, by rw [if_neg (fun hc ↦ hs hc.1)]⟩

end CRssi

end Cpsw.Rssi
