import Cpsw.Rssi.Final

namespace Cpsw.Rssi

open Cpsw.Lib.Run

variable {c c' c₁ : CRssi} {now : ℕ} {s : STATE} {seg : Segment} {ev : Event} {q : List Bytes}

/-- The states of the handshake. -/
def STATE.shakes : STATE → Bool
  | .LISTEN | .CLNT_WAIT_SYN_ACK | .SERV_WAIT_SYN_ACK => true
  | _ => false

/-- The events of the user are off during a handshake, and a timer bounds every wait but the one
for a client. -/
structure Wired (c : CRssi) : Prop where
  input : c.state.shakes = true → c.usrIEH = false
  output : c.state.shakes = true → c.usrOEH = false
  listen : c.state = .LISTEN → c.timers = [] ∧ c.peerBSY = false ∧ c.cfg.isServer = true
  nul : c.state ≠ .CLOSED → c.state ≠ .LISTEN → c.timers.isArmed .NUL

theorem wired_closed (h : c.state = .CLOSED) : Wired c where
  input hs := by rw [h] at hs; cases hs
  output hs := by rw [h] at hs; cases hs
  listen hs := by rw [h] at hs; cases hs
  nul hs := absurd h hs

/-- Past the handshake only the timer matters. -/
theorem wired_late (h : c.state.shakes = false) (hn : c.timers.isArmed .NUL) : Wired c where
  input hs := by rw [h] at hs; cases hs
  output hs := by rw [h] at hs; cases hs
  listen hs := by rw [hs] at h; cases h
  nul _ _ := hn

theorem Wired.of_eq (h : Wired c) (hst : c'.state = c.state) (hi : c'.usrIEH = c.usrIEH)
    (ho : c'.usrOEH = c.usrOEH) (hcfg : c'.cfg = c.cfg) (hb : c'.peerBSY = c.peerBSY)
    (ht : c'.timers = c.timers) : Wired c' where
  input := by
    rw [hst, hi]
    exact h.input
  output := by
    rw [hst, ho]
    exact h.output
  listen := by
    rw [hst, ht, hb, hcfg]
    exact h.listen
  nul := by
    rw [hst, ht]
    exact h.nul

namespace CRssi

/-- What an accepted segment leaves alone, or does not turn off. -/
structure Keeps (s : STATE) (c c' : CRssi) : Prop where
  cfg : c'.cfg = c.cfg
  usrIEH : c'.usrIEH = c.usrIEH
  usrOEH : s.isOpen = false → c'.usrOEH = c.usrOEH
  nul : c.timers.isArmed .NUL → c'.timers.isArmed .NUL

theorem Keeps.trans {c'' : CRssi} (h : Keeps s c c') (h' : Keeps s c' c'') : Keeps s c c'' :=
  ⟨h'.cfg.trans h.cfg, h'.usrIEH.trans h.usrIEH, fun hs ↦ (h'.usrOEH hs).trans (h.usrOEH hs),
    fun hn ↦ h'.nul (h.nul hn)⟩

theorem keeps_of_emits {O : Bytes → Prop} (h : Emits O c c') : Keeps s c c' :=
  ⟨h.cfg, h.usrIEH, fun _ ↦ h.usrOEH, h.nul⟩

theorem armTimer_keeps {t : RssiTimer} {exp : ℕ} : Keeps s c (c.armTimer t exp) :=
  ⟨rfl, rfl, fun _ ↦ rfl, fun h ↦ RssiTimerList.isArmed_armAbs.2 (.inr h)⟩

theorem cancelTimer_keeps {t : RssiTimer} (ht : t ≠ .NUL) : Keeps s c (c.cancelTimer t) :=
  ⟨rfl, rfl, fun _ ↦ rfl, fun h ↦ RssiTimerList.isArmed_cancel.2 ⟨ht.symm, h⟩⟩

theorem processAckNumber_keeps : Keeps s c (c.processAckNumber seg.flags seg.ackNo) := by
  have hrest : Keeps s c { c with
      toCore := c.toCore.acknowledge seg.ackNo
      numRex := if (c.snd.unAckedSegs.ack seg.ackNo).1 > 0 then 0 else c.numRex } :=
    ⟨rfl, rfl, fun _ ↦ rfl, id⟩
  unfold processAckNumber
  dsimp only
  by_cases hack : hasFlag seg.flags FLG_ACK = true
  · rw [if_pos hack]
    by_cases hzero : (c.toCore.acknowledge seg.ackNo).snd.unAckedSegs.getSize = 0
    · rw [if_pos hzero]
      have hcancel := hrest.trans (cancelTimer_keeps (t := .REX) nofun)
      exact ⟨hcancel.cfg, hcancel.usrIEH, hcancel.usrOEH, hcancel.nul⟩
    · rw [if_neg hzero]
      exact hrest
  · rw [if_neg hack]
    exact ⟨rfl, rfl, fun _ ↦ rfl, id⟩

theorem rxStore_keeps (h : c.rxStore s seg = .ok c') : Keeps s c c' := by
  unfold rxStore at h
  split_ifs at h
  · obtain ⟨ro, -, h⟩ := bind_ok.1 h
    rcases drainReassembleBuffer_ok h with ⟨-, rfl⟩ | ⟨ho, q, e, r, -, rfl⟩
    · exact ⟨rfl, rfl, fun _ ↦ rfl, id⟩
    · refine ⟨rfl, rfl, fun hs ↦ ?_, id⟩
      rw [ho] at hs
      cases hs
  · obtain rfl := Except.ok.inj h
    exact ⟨rfl, rfl, fun _ ↦ rfl, id⟩

theorem noteBusy_keeps : Keeps s c (c.noteBusy seg) := by
  unfold noteBusy
  split_ifs
  · exact ⟨rfl, rfl, fun _ ↦ rfl, fun h ↦ RssiTimerList.isArmed_cancel.2 ⟨nofun, h⟩⟩
  · exact ⟨rfl, rfl, fun _ ↦ rfl, id⟩

theorem rxReply_keeps (h : c.rxReply s now = .ok c') :
    Keeps s c c' ∧ (c.cfg.isServer = true → c'.timers.isArmed .NUL) := by
  obtain ⟨c₁, h₁, h⟩ := bind_ok.1 h
  obtain rfl := Except.ok.inj h
  have hack : Keeps s c c₁ := by
    unfold rxAck at h₁
    split_ifs at h₁
    · have hs := sendDatOrAck_sends (O := fun _ ↦ True) (fun _ _ ↦ trivial) h₁
      exact ⟨hs.cfg, hs.usrIEH, fun _ ↦ hs.usrOEH, hs.nul⟩
    · obtain rfl := Except.ok.inj h₁
      have harm := @armTimer_keeps c s .ACK (now + c.prm.cakTO)
      exact ⟨harm.cfg, harm.usrIEH, harm.usrOEH, harm.nul⟩
    · obtain rfl := Except.ok.inj h₁
      exact ⟨rfl, rfl, fun _ ↦ rfl, id⟩
  rw [hack.cfg]
  split_ifs with hsrv
  · exact ⟨hack.trans armTimer_keeps, fun _ ↦ RssiTimerList.isArmed_armAbs.2 (.inl rfl)⟩
  · exact ⟨hack, fun hs ↦ absurd hs hsrv⟩

theorem processRetransmissionTimeout_keeps (hq : c.snd.unAckedSegs.Holds q)
    (h : c.processRetransmissionTimeout now = .ok c') : Keeps s c c' := by
  obtain ⟨c₁, hs, hend⟩ := processRetransmissionTimeout_sends (O := fun _ ↦ True) hq
    (fun _ _ ↦ trivial) (fun _ ↦ trivial) h
  have hk : Keeps s c c₁ := keeps_of_emits hs.toEmits
  split_ifs at hend
  · rw [hend]
    exact ⟨hk.cfg, hk.usrIEH, hk.usrOEH, hk.nul⟩
  · rw [hend.1]
    exact hk

/-- A server that is not waiting for a busy peer arms the timer anew. -/
theorem rxAccepted_keeps (hq : c.snd.unAckedSegs.Holds q) (h : c.rxAccepted s seg now = .ok c') :
    Keeps s c c' ∧ (c.cfg.isServer = true → c.peerBSY = false → c'.timers.isArmed .NUL) := by
  obtain ⟨n, hn⟩ := processAckNumber_holds hq seg.flags seg.ackNo
  obtain ⟨hbsy, -⟩ := @processAckNumber_rest c seg
  obtain ⟨c₁, h₁, h⟩ := bind_ok.1 h
  obtain ⟨hsnd₁, -, -, -, hbsy₁, -⟩ := rxStore_rest h₁
  rw [← hsnd₁] at hn
  have hstore := processAckNumber_keeps.trans (rxStore_keeps h₁)
  have hk : Keeps s c (c₁.noteBusy seg) := hstore.trans noteBusy_keeps
  rw [rxBusy_eq] at h
  split_ifs at h with hre
  · have hrex : Keeps s (c₁.noteBusy seg) c' :=
      processRetransmissionTimeout_keeps (by rw [toCore_noteBusy]; exact hn) h
    refine ⟨hk.trans hrex, fun _ hno ↦ ?_⟩
    rw [hbsy₁, hbsy, hno] at hre
    cases hre
  · obtain ⟨hrep, hnul⟩ := rxReply_keeps h
    exact ⟨hk.trans hrep, fun hsrv _ ↦ hnul (hk.cfg ▸ hsrv)⟩

/-- What the dispatch leaves for an accepted segment. -/
structure Taken (s : STATE) (c : CRssi) : Prop where
  input : c.state.shakes = true → c.usrIEH = false
  output : c.state.shakes = true → s.isOpen = false ∧ c.usrOEH = false
  listen : c.state ≠ .LISTEN
  nul : c.state ≠ .CLOSED → c.timers.isArmed .NUL ∨ c.cfg.isServer = true ∧ c.peerBSY = false

theorem Taken.rxAccepted (ht : Taken s c) (hq : c.snd.unAckedSegs.Holds q)
    (h : c.rxAccepted s seg now = .ok c') : Wired c' := by
  have hst := (rxAccepted_settles hq h).state
  obtain ⟨hk, hnul⟩ := rxAccepted_keeps hq h
  by_cases hcl : c'.state = .CLOSED
  · exact wired_closed hcl
  · have hsame : c'.state = c.state := by
      rw [hst]
      split_ifs with hg
      · rw [hst, if_pos hg] at hcl
        exact absurd rfl hcl
      · rfl
    rw [hsame] at hcl
    constructor
    · rw [hsame, hk.usrIEH]
      exact ht.input
    · rw [hsame]
      intro hs
      obtain ⟨ho, hoff⟩ := ht.output hs
      exact (hk.usrOEH ho).trans hoff
    · rw [hsame]
      exact fun hl ↦ absurd hl ht.listen
    · intro _ _
      rcases ht.nul hcl with hn | ⟨hsrv, hb⟩
      · exact hk.nul hn
      · exact hnul hsrv hb

theorem taken_closed (h : c.state = .CLOSED) : Taken s c where
  input hs := by rw [h] at hs; cases hs
  output hs := by rw [h] at hs; cases hs
  listen hl := by rw [h] at hl; cases hl
  nul hs := absurd h hs

theorem taken_of_wired (h : Wired c) (hst : c.state = s) (hl : s ≠ .LISTEN) : Taken s c where
  input := h.input
  output hs := by
    refine ⟨?_, h.output hs⟩
    rw [hst] at hs
    cases s <;> first
      | rfl
      | cases hs
  listen := hst.trans_ne hl
  nul hcl := .inl (h.nul hcl (hst.trans_ne hl))

/-- What is taken stays so where only the segment's own numbers change. -/
theorem Taken.of_eq (h : Taken s c) (hst : c'.state = c.state) (hi : c'.usrIEH = c.usrIEH)
    (ho : c'.usrOEH = c.usrOEH) (hcfg : c'.cfg = c.cfg) (hb : c'.peerBSY = c.peerBSY)
    (ht : c'.timers = c.timers) : Taken s c' where
  input := by
    rw [hst, hi]
    exact h.input
  output := by
    rw [hst, ho]
    exact h.output
  listen := by
    rw [hst]
    exact h.listen
  nul := by
    rw [hst, ht, hb, hcfg]
    exact h.nul

theorem handleSYN_taken {y : RssiSynHeader} {clk : Clock} {b : Bool} (hw : Wired c)
    (hst : c.state = s) (h : c.handleSYN s seg y clk = .ok (b, c')) :
    Taken s c' ∧ (b = false → c'.state = .CLOSED) := by
  unfold handleSYN at h
  split at h
  · obtain ⟨c₁, h₁, h⟩ := bind_ok.1 h
    obtain ⟨k, hk, rfl⟩ := extractConnectionParams_ok h₁
    obtain ⟨ring, prm, -, -, rfl⟩ := params_ok hk
    obtain ⟨c₂, h₂, h⟩ := bind_ok.1 h
    obtain ⟨rfl, rfl⟩ := Prod.mk.inj (Except.ok.inj h)
    unfold sendSYN at h₂
    have hs := (sendBufAndKeepForRetransmission_sends (O := fun _ ↦ True) trivial h₂).toEmits
    obtain ⟨-, hb, hsrv⟩ := hw.listen hst
    refine ⟨⟨fun _ ↦ ?_, fun _ ↦ ⟨rfl, ?_⟩, nofun, fun _ ↦ .inr ⟨?_, ?_⟩⟩, nofun⟩
    · exact hs.usrIEH.trans (hw.input (by rw [hst]; rfl))
    · exact hs.usrOEH.trans (hw.output (by rw [hst]; rfl))
    · have hcfg : c₂.cfg = c.cfg := hs.cfg
      exact hcfg ▸ hsrv
    · exact hs.peerBSY.trans hb
  · obtain ⟨c₁, h₁, h⟩ := bind_ok.1 h
    obtain ⟨k, hk, rfl⟩ := extractConnectionParams_ok h₁
    obtain ⟨ring, prm, -, -, rfl⟩ := params_ok hk
    have hnul := hw.nul (hst.trans_ne nofun) (hst.trans_ne nofun)
    split_ifs at h
    · obtain ⟨c₂, h₂, h⟩ := bind_ok.1 h
      obtain ⟨rfl, rfl⟩ := Prod.mk.inj (Except.ok.inj h)
      exact ⟨taken_closed rfl, fun _ ↦ rfl⟩
    · obtain ⟨rfl, rfl⟩ := Prod.mk.inj (Except.ok.inj h)
      refine ⟨?_, nofun⟩
      split_ifs
      · exact ⟨nofun, nofun, nofun, fun _ ↦ .inl hnul⟩
      · exact (taken_of_wired hw hst nofun).of_eq rfl rfl rfl rfl rfl rfl
  · rename_i hl _
    obtain ⟨rfl, rfl⟩ := Prod.mk.inj (Except.ok.inj h)
    exact ⟨(taken_of_wired hw hst hl).of_eq rfl rfl rfl rfl rfl rfl, nofun⟩

theorem handleOTH_taken {b : Bool} (hw : Wired c) (hst : c.state = s)
    (h : c.handleOTH s seg = .ok (b, c')) : (b = true → Taken s c') ∧ (b = false → c' = c) := by
  cases hs : s.early with
  | true =>
    rcases handleOTH_early hs h with ⟨rfl, rfl⟩ | ⟨rfl, c₁, -, rfl⟩
    · exact ⟨nofun, fun _ ↦ rfl⟩
    · exact ⟨fun _ ↦ taken_closed rfl, nofun⟩
  | false =>
    have ht : Taken s c := taken_of_wired hw hst (by rintro rfl; cases hs)
    unfold handleOTH at h
    split at h
    · cases hs
    · cases hs
    · split_ifs at h <;> obtain ⟨rfl, rfl⟩ := Prod.mk.inj (Except.ok.inj h)
      · exact ⟨fun _ ↦ ht.of_eq rfl rfl rfl rfl rfl rfl, nofun⟩
      · exact ⟨fun _ ↦ ht.of_eq rfl rfl rfl rfl rfl rfl, nofun⟩
      · exact ⟨nofun, fun _ ↦ rfl⟩
      · exact ⟨fun _ ↦ taken_closed rfl, nofun⟩
      · exact ⟨fun _ ↦ ht, nofun⟩
      · exact ⟨nofun, fun _ ↦ rfl⟩

theorem rxBase_wired {bc : RxBuf} {clk : Clock} (hw : Wired c) (hwin : Window c.toCore q)
    (hst : c.state = s) (hs : s ≠ .CLOSED) (h : c.rxBase s bc clk = .ok c') : Wired c' := by
  obtain ⟨⟨o, c₁⟩, hd, ha⟩ := bind_ok.1 h
  obtain ⟨q₁, hw₁⟩ := Acts.window (rxDispatch_acts
    (d := ((rxParse c.prm.verifyChecksum).val bc).segment?) hst hs hd).1 hwin
  generalize (rxParse c.prm.verifyChecksum).val bc = rx at hd
  cases rx with
  | tooShort | badHeader | badChecksum | badSyn =>
    obtain ⟨rfl, rfl⟩ := Prod.mk.inj (Except.ok.inj hd)
    obtain rfl := Except.ok.inj ha
    exact hw
  | syn seg y =>
    obtain ⟨⟨b, c₂⟩, hsyn, hd⟩ := bind_ok.1 hd
    obtain ⟨rfl, rfl⟩ := Prod.mk.inj (Except.ok.inj hd)
    obtain ⟨ht, hno⟩ := handleSYN_taken hw hst hsyn
    cases b with
    | false =>
      obtain rfl := Except.ok.inj ha
      exact wired_closed (hno rfl)
    | true => exact ht.rxAccepted hw₁.holds ha
  | oth seg =>
    obtain ⟨⟨b, c₂⟩, hoth, hd⟩ := bind_ok.1 hd
    obtain ⟨rfl, rfl⟩ := Prod.mk.inj (Except.ok.inj hd)
    obtain ⟨ht, hno⟩ := handleOTH_taken hw hst hoth
    cases b with
    | false =>
      obtain rfl := Except.ok.inj ha
      rw [hno rfl]
      exact hw
    | true => exact (ht rfl).rxAccepted hw₁.holds ha

/-- Past the SYNs the timer is never turned off, not even where the connection is closed. -/
theorem rxBase_late_nul {bc : RxBuf} {clk : Clock} (hs : s.early = false)
    (hq : c.snd.unAckedSegs.Holds q) (hn : c.timers.isArmed .NUL) (h : c.rxBase s bc clk = .ok c') :
    c'.timers.isArmed .NUL := by
  rcases rxBase_late hs h with ⟨rfl, -⟩ | ⟨seg, c₁, -, hadm, ha⟩
  · exact hn
  · have hsame : c₁.snd = c.snd ∧ c₁.timers = c.timers := by
      cases hadm <;> exact ⟨rfl, rfl⟩
    rw [← hsame.1] at hq
    exact (rxAccepted_keeps hq ha).1.nul (hsame.2 ▸ hn)

theorem handleRxEvent_wired {bc : RxBuf} {clk : Clock} (hw : Wired c) (hwin : Window c.toCore q)
    (h : c.handleRxEvent bc clk = .ok c') : Wired c' := by
  obtain ⟨hcl, c₁, h₁, hend⟩ := handleRxEvent_ok h
  rcases hend with rfl | ⟨-, -, rfl⟩ | ⟨hst, -, rfl⟩
  · exact rxBase_wired hw hwin rfl hcl h₁
  · exact wired_late rfl (RssiTimerList.isArmed_armAbs.2 (.inl rfl))
  · have hn := hw.nul (hst.trans_ne nofun) (hst.trans_ne nofun)
    have hn₁ := rxBase_late_nul (by rw [hst]; rfl) hwin.holds hn h₁
    exact wired_late rfl hn₁

theorem nul_of_isOpen (hw : Wired c) (ho : c.state.isOpen = true) : c.timers.isArmed .NUL := by
  refine hw.nul ?_ ?_ <;> intro hs <;> rw [hs] at ho <;> cases ho

theorem shakes_of_isOpen (ho : s.isOpen = true) : s.shakes = false := by
  cases s <;> first
    | rfl
    | cases ho

theorem wired_emits {O : Bytes → Prop} (hw : Wired c) (ho : c.state.isOpen = true)
    (h : Emits O c c') : Wired c' :=
  wired_late (h.state ▸ shakes_of_isOpen ho) (h.nul (nul_of_isOpen hw ho))

theorem handleUsrInputEvent_wired {clk : Clock} (hw : Wired c)
    (h : c.handleUsrInputEvent clk = .ok c') : Wired c' := by
  obtain ⟨ho, n, full, c₁, h₁, rfl⟩ := handleUsrInputEvent_ok h
  have hs := (usrInputLoop_sends (O := fun _ ↦ True) (fun _ _ ↦ trivial) h₁).toEmits
  have hn := hs.nul (nul_of_isOpen hw ho)
  split_ifs
  · exact wired_late rfl hn
  · exact wired_emits hw ho hs

theorem handleUsrOutputEvent_wired (hw : Wired c) (h : c.handleUsrOutputEvent = .ok c') :
    Wired c' := by
  obtain ⟨ho, c₁, h₁, h⟩ := handleUsrOutputEvent_ok h
  have hc₁ : c₁.state = c.state ∧ c₁.timers = c.timers := by
    rcases drainReassembleBuffer_ok h₁ with ⟨-, rfl⟩ | ⟨-, q, e, r, -, rfl⟩ <;> exact ⟨rfl, rfl⟩
  have hw₁ : Wired c₁ :=
    wired_late (hc₁.1 ▸ shakes_of_isOpen ho) (hc₁.2 ▸ nul_of_isOpen hw ho)
  rcases h with rfl | h
  · exact hw₁
  · exact wired_emits hw₁ (hc₁.1 ▸ ho) (sendACK_sends (O := fun _ ↦ True) (fun _ ↦ trivial) h).toEmits

/-- A client that is idle for too long sends a NUL or an ACK, and arms the timer again. -/
theorem sendNUL_nul {b : Bool} (hcfg : c.cfg.isServer = false) (h : c.sendNUL now = .ok (b, c')) :
    c'.timers.isArmed .NUL := by
  unfold sendNUL at h
  split_ifs at h
  · obtain ⟨c₁, h₁, h⟩ := bind_ok.1 h
    obtain ⟨-, rfl⟩ := Prod.mk.inj (Except.ok.inj h)
    exact (sendACK_sends (O := fun _ ↦ True) (fun _ ↦ trivial) h₁).nul
      (RssiTimerList.isArmed_armAbs.2 (.inl rfl))
  · obtain ⟨c₁, h₁, h⟩ := bind_ok.1 h
    obtain ⟨-, rfl⟩ := Prod.mk.inj (Except.ok.inj h)
    obtain ⟨-, ring, -, rfl⟩ := sendBufAndKeepForRetransmission_ok h₁
    exact armRexAndNulTimer_nul hcfg

theorem processNulTimeout_wired (h : c.processNulTimeout now = .ok c') : Wired c' := by
  obtain ⟨ho, ⟨c₁, -, rfl⟩ | ⟨hcfg, sent, c₁, h₁, rfl⟩⟩ := processNulTimeout_ok h
  · exact wired_closed rfl
  · have hs := sendNUL_sends (O := fun _ ↦ True) (fun _ ↦ trivial) (fun _ ↦ trivial) h₁
    have hn := sendNUL_nul hcfg h₁
    split_ifs
    · exact wired_late (hs.state ▸ shakes_of_isOpen ho) hn
    · exact wired_late rfl hn

theorem processRetransmissionTimeout_wired (hw : Wired c) (hl : c.state ≠ .LISTEN)
    (hq : c.snd.unAckedSegs.Holds q) (h : c.processRetransmissionTimeout now = .ok c') : Wired c' := by
  obtain ⟨c₁, hs, hend⟩ := processRetransmissionTimeout_sends (O := fun _ ↦ True) hq
    (fun _ _ ↦ trivial) (fun _ ↦ trivial) h
  split_ifs at hend
  · rw [hend]
    exact wired_closed rfl
  · rw [hend.1]
    constructor
    · rw [hs.state, hs.usrIEH]
      exact hw.input
    · rw [hs.state, hs.usrOEH]
      exact hw.output
    · rw [hs.state]
      exact fun h ↦ absurd h hl
    · rw [hs.state]
      exact fun hcl hl ↦ hs.nul (hw.nul hcl hl)

theorem wired_cancelTimer {t : RssiTimer} (hw : Wired c) (ht : t ≠ .NUL) : Wired (c.cancelTimer t) where
  input := hw.input
  output := hw.output
  listen hl := by
    obtain ⟨htim, hrest⟩ := hw.listen hl
    refine ⟨?_, hrest⟩
    change c.timers.filter _ = []
    rw [htim]
    rfl
  nul hcl hl := RssiTimerList.isArmed_cancel.2 ⟨ht.symm, hw.nul hcl hl⟩

theorem processTimer_wired {t : RssiTimer} (hw : Wired c) (hl : c.state ≠ .LISTEN)
    (hq : c.snd.unAckedSegs.Holds q) (h : (c.cancelTimer t).processTimer now t = .ok c') :
    Wired c' := by
  cases t with
  | REX =>
    obtain ⟨-, h⟩ := processRexTimeout_ok h
    exact processRetransmissionTimeout_wired (wired_cancelTimer (t := .REX) hw nofun) hl hq h
  | ACK =>
    obtain ⟨ho, h⟩ := processAckTimeout_ok h
    exact wired_emits (wired_cancelTimer (t := .ACK) hw nofun) ho
      (sendDatOrAck_sends (O := fun _ ↦ True) (fun _ _ ↦ trivial) h).toEmits
  | NUL => exact processNulTimeout_wired h

theorem increaseReopenDelay_rest : c.increaseReopenDelay.usrIEH = c.usrIEH ∧
    c.increaseReopenDelay.usrOEH = c.usrOEH ∧ c.increaseReopenDelay.cfg = c.cfg := by
  unfold increaseReopenDelay
  split_ifs <;> exact ⟨rfl, rfl, rfl⟩

/-- The SYN of a client arms its timer. -/
theorem sendSYN_nul {doAck : Bool} {clk : Clock} (hcfg : c.cfg.isServer = false)
    (h : c.sendSYN doAck clk = .ok c') : c'.timers.isArmed .NUL := by
  obtain ⟨seqNo, ring, -, rfl⟩ := sendSYN_ok h
  exact armRexAndNulTimer_nul hcfg

theorem advance_wired {clk : Clock} (hw : Wired c) (h : c.advance clk = .ok c') : Wired c' := by
  unfold advance at h
  split at h
  · dsimp only at h
    split_ifs at h with hsrv
    · obtain rfl := Except.ok.inj h
      refine ⟨fun _ ↦ rfl, fun _ ↦ rfl, fun _ ↦ ⟨?_, rfl, hsrv⟩, fun _ hl ↦ absurd rfl hl⟩
      refine RssiTimerList.eq_nil_iff.2 fun t ha ↦ ?_
      obtain ⟨h₁, ha⟩ := RssiTimerList.isArmed_cancel.1 ha
      obtain ⟨h₂, ha⟩ := RssiTimerList.isArmed_cancel.1 ha
      obtain ⟨h₃, -⟩ := RssiTimerList.isArmed_cancel.1 ha
      cases t <;> contradiction
    · obtain ⟨c₁, h₁, h⟩ := bind_ok.1 h
      obtain rfl := Except.ok.inj h
      obtain ⟨hi, ho, hcfg⟩ := @increaseReopenDelay_rest c.close.openQueues
      have hn := sendSYN_nul (by rw [hcfg]; exact Bool.eq_false_of_not_eq_true hsrv) h₁
      unfold sendSYN at h₁
      have hs := (sendBufAndKeepForRetransmission_sends (O := fun _ ↦ True) trivial h₁).toEmits
      exact ⟨fun _ ↦ hs.usrIEH.trans hi, fun _ ↦ hs.usrOEH.trans ho, nofun, fun _ _ ↦ hn⟩
  · rename_i hst
    obtain rfl := Except.ok.inj h
    have hn := hw.nul (hst.trans_ne nofun) (hst.trans_ne nofun)
    exact wired_late rfl hn
  · obtain rfl := Except.ok.inj h
    exact hw

theorem handle_wired (hw : Wired c) (hwin : Window c.toCore q) (hen : ev.enabled c = true)
    (h : c.handle ev = .ok c') : Wired c' := by
  have hw₀ : Wired c.clearChanges := hw.of_eq rfl rfl rfl rfl rfl rfl
  cases ev with
  | advance clk => exact advance_wired hw₀ h
  | rx bc clk =>
    replace h := wait_bind_ok h
    exact handleRxEvent_wired hw₀ hwin h
  | usrInput clk =>
    replace h := wait_bind_ok h
    exact handleUsrInputEvent_wired hw₀ h
  | usrOutput =>
    replace h := wait_bind_ok h
    exact handleUsrOutputEvent_wired hw₀ h
  | expiry clk =>
    replace h := wait_bind_ok h
    split at h
    · obtain rfl := Except.ok.inj h
      exact hw₀
    · refine processTimer_wired hw₀ (fun hl ↦ ?_) hwin.holds h
      have hnil : c.timers = [] := (hw₀.listen hl).1
      unfold Event.enabled at hen
      rw [hnil, RssiTimerList.getFirstToExpire] at hen
      simp at hen
  | push b =>
    obtain rfl := Except.ok.inj h
    exact hw.of_eq rfl rfl rfl rfl rfl rfl
  | pop =>
    obtain rfl := Except.ok.inj h
    exact hw.of_eq rfl rfl rfl rfl rfl rfl

end CRssi

theorem Reachable.wired (h : Reachable c) : Wired c := by
  obtain ⟨cfg, j, hr⟩ := h
  induction hr with
  | refl => exact wired_closed rfl
  | tail hr hs ih =>
    obtain ⟨q, hw⟩ := Reachable.window ⟨cfg, j, hr⟩
    obtain ⟨ev, hen, hh⟩ := hs
    exact CRssi.handle_wired ih hw hen hh

end Cpsw.Rssi
