import Cpsw.Rssi.Final

namespace Cpsw.Rssi

open Cpsw.Lib.Run

variable {c c' c₁ : CRssi} {now : ℕ} {s : STATE} {seg : Segment} {ev : Event} {q : List Bytes}

namespace CRssi

/-- What waits to be acknowledged will be sent again, or the connection is over. -/
def PendingOrClosed (c : CRssi) : Prop := c.state = .CLOSED ∨ c.Pending

/-- The limit of retransmissions is exceeded in the very datagram that makes room in the window. -/
def Abandons (ev : Event) (c : CRssi) : Prop :=
  ∃ seg, c.segment? ev = some seg ∧ c.state = .OPEN_OUTWIN_FULL ∧
    seg.admitted c.cfg.isServer = true ∧ c.givesUp seg = true ∧ c.left seg < c.snd.peerOssMX

theorem Pending.of_eq (h : c.Pending)
    (hsize : c'.snd.unAckedSegs.getSize = c.snd.unAckedSegs.getSize) (hb : c'.peerBSY = c.peerBSY)
    (ht : c'.timers = c.timers) : c'.Pending := by
  unfold Pending
  rw [hsize, hb, ht]
  exact h

theorem Pending.cancelTimer {t : RssiTimer} (h : c.Pending) (ht : t ≠ .REX) :
    (c.cancelTimer t).Pending :=
  fun hpos hb ↦ RssiTimerList.isArmed_cancel.2 ⟨ht.symm, h hpos hb⟩

theorem Pending.armTimer {t : RssiTimer} {exp : ℕ} (h : c.Pending) : (c.armTimer t exp).Pending :=
  fun hpos hb ↦ RssiTimerList.isArmed_armAbs.2 (.inr (h hpos hb))

theorem pending_of_empty (h : c.snd.unAckedSegs.getSize = 0) : c.Pending :=
  fun hpos ↦ absurd h hpos.ne'

/-- Whatever is kept for retransmission arms the timer. -/
theorem sendBufAndKeepForRetransmission_pending {b : Bytes}
    (h : c.sendBufAndKeepForRetransmission b now = .ok c') : c'.Pending := by
  obtain ⟨-, ring, -, rfl⟩ := sendBufAndKeepForRetransmission_ok h
  intro _ hb
  refine armRexAndNulTimer_rex ?_
  have hsends := @armRexAndNulTimer_sends (fun _ ↦ True) { c with
    toCore := c.toCore.send c.outQ.isFull b ring, numCak := 0, timers := c.timers.cancel .ACK } now
  exact hsends.peerBSY.symm.trans hb

theorem Pending.processAckNumber (h : c.Pending) (hq : c.snd.unAckedSegs.Holds q) :
    (c.processAckNumber seg.flags seg.ackNo).Pending := by
  obtain ⟨n, hn⟩ := processAckNumber_holds hq seg.flags seg.ackNo
  obtain ⟨hbsy, -⟩ := @processAckNumber_rest c seg
  intro hpos hb
  rw [hbsy] at hb
  have ht : (c.processAckNumber seg.flags seg.ackNo).timers = c.timers := by
    have hne := hpos.ne'
    unfold CRssi.processAckNumber at hne ⊢
    dsimp only at hne ⊢
    by_cases hack : hasFlag seg.flags FLG_ACK = true
    · rw [if_pos hack] at hne ⊢
      by_cases hzero : (c.toCore.acknowledge seg.ackNo).snd.unAckedSegs.getSize = 0
      · rw [if_pos hzero] at hne
        exact absurd hzero hne
      · rw [if_neg hzero]
    · rw [if_neg hack]
  rw [hn.getSize_eq, List.length_drop] at hpos
  rw [ht]
  exact h (by rw [hq.getSize_eq]; omega) hb

/-- The flag BSY stops the timer, and its end starts it again. -/
theorem Pending.noteBusy (h : c.Pending)
    (hre : ¬(c.peerBSY && !hasFlag seg.flags FLG_BSY && c.snd.unAckedSegs.getSize > 0) = true) :
    (c.noteBusy seg).Pending := by
  unfold Pending CRssi.noteBusy
  split_ifs with hb
  · intro _ hno
    rw [Bool.and_eq_true] at hb
    exact absurd (hb.1.symm.trans hno) nofun
  · intro hpos hno
    change hasFlag seg.flags FLG_BSY = false at hno
    refine h hpos (Bool.eq_false_of_not_eq_true fun hbsy ↦ hre ?_)
    rw [hbsy, hno]
    exact decide_eq_true hpos

theorem Pending.rxReply (hp : c.Pending) (h : c.rxReply s now = .ok c') : c'.Pending := by
  obtain ⟨c₁, h₁, h⟩ := bind_ok.1 h
  obtain rfl := Except.ok.inj h
  have hack : c₁.Pending := by
    unfold rxAck at h₁
    have hnum : ({ c with numCak := c.numCak + 1 } : CRssi).Pending := hp
    split_ifs at h₁
    · exact (sendDatOrAck_sends (O := fun _ ↦ True) (fun _ _ ↦ trivial) h₁).pending hnum
    · obtain rfl := Except.ok.inj h₁
      exact hnum.armTimer
    · obtain rfl := Except.ok.inj h₁
      exact hnum
  split_ifs
  · exact hack.armTimer
  · exact hack

theorem Pending.rxAccepted (hp : c.Pending) (hq : c.snd.unAckedSegs.Holds q)
    (h : c.rxAccepted s seg now = .ok c') (hg : c.givesUp seg = false) : c'.Pending := by
  obtain ⟨n, hn⟩ := processAckNumber_holds hq seg.flags seg.ackNo
  have hack := @Pending.processAckNumber c seg q hp hq
  have hleft := @processAckNumber_left c seg
  have hrex := @processAckNumber_numRex c seg
  obtain ⟨hbsy, -, -, -, -, hprm, -⟩ := @processAckNumber_rest c seg
  obtain ⟨c₁, h₁, h⟩ := bind_ok.1 h
  have htim : c₁.timers = (c.processAckNumber seg.flags seg.ackNo).timers := by
    obtain ⟨r, oq, e, rfl⟩ := rxStore_eq h₁
    rfl
  obtain ⟨hsnd₁, hprm₁, -, -, hbsy₁, hrex₁, -, -⟩ := rxStore_rest h₁
  have hp₁ : c₁.Pending := hack.of_eq (by rw [hsnd₁]) hbsy₁ htim
  rw [← hsnd₁] at hn
  rw [rxBusy_eq] at h
  by_cases hre : (c₁.peerBSY && !hasFlag seg.flags FLG_BSY && c₁.snd.unAckedSegs.getSize > 0) = true
  · rw [if_pos hre] at h
    obtain ⟨c₂, -, hend⟩ := processRetransmissionTimeout_sends (O := fun _ ↦ True)
      (by rw [toCore_noteBusy]; exact hn) (fun _ _ ↦ trivial) (fun _ ↦ trivial) h
    have hmax : ¬(c₁.noteBusy seg).numRex + 1 > (c₁.noteBusy seg).prm.rexMX := by
      rw [hbsy₁, hbsy, hsnd₁, hleft] at hre
      have hpos : 0 < c.left seg := left_pos_of_resends hre
      unfold givesUp at hg
      rw [show c.resends seg = true from hre, Bool.true_and] at hg
      rw [(@noteBusy_rest c₁ seg).1, toCore_noteBusy, hrex₁, hrex hpos, hprm₁, hprm]
      exact of_decide_eq_false hg
    rw [if_neg hmax] at hend
    exact hend.2
  · rw [if_neg hre] at h
    exact (hp₁.noteBusy hre).rxReply h

theorem Pending.extractConnectionParams {y : RssiSynHeader} {a : Bool} (hp : c.Pending)
    (hq : c.snd.unAckedSegs.Holds q) (h : c.extractConnectionParams y a = .ok c') : c'.Pending := by
  obtain ⟨k, hk, rfl⟩ := extractConnectionParams_ok h
  obtain ⟨ring, prm, hring, -, rfl⟩ := params_ok hk
  have hlt := y.ossMX.toNat_lt
  obtain ⟨ring', hfit, hq', -⟩ := hq.fit y.ossMX.toNat (by omega)
  obtain rfl := Except.ok.inj (hring.symm.trans hfit)
  exact hp.of_eq (hq'.getSize_eq.trans hq.getSize_eq.symm) rfl rfl

theorem sendSYN_pending {doAck : Bool} {clk : Clock} (h : c.sendSYN doAck clk = .ok c') :
    c'.Pending := by
  unfold sendSYN at h
  exact sendBufAndKeepForRetransmission_pending h

theorem handleSYN_pending {y : RssiSynHeader} {clk : Clock} {b : Bool} (hp : c.PendingOrClosed)
    (hst : c.state = s) (hs : s ≠ .CLOSED) (hq : c.snd.unAckedSegs.Holds q)
    (h : c.handleSYN s seg y clk = .ok (b, c')) : c'.PendingOrClosed := by
  have hpend : c.Pending := hp.resolve_left (hst.trans_ne hs)
  unfold handleSYN at h
  split at h
  · obtain ⟨c₁, h₁, h⟩ := bind_ok.1 h
    obtain ⟨c₂, h₂, h⟩ := bind_ok.1 h
    obtain ⟨rfl, rfl⟩ := Prod.mk.inj (Except.ok.inj h)
    have hp₂ := sendSYN_pending h₂
    exact .inr hp₂
  · obtain ⟨c₁, h₁, h⟩ := bind_ok.1 h
    have hp₁ := hpend.extractConnectionParams hq h₁
    split_ifs at h
    · obtain ⟨c₂, h₂, h⟩ := bind_ok.1 h
      obtain ⟨rfl, rfl⟩ := Prod.mk.inj (Except.ok.inj h)
      exact .inl rfl
    · obtain ⟨rfl, rfl⟩ := Prod.mk.inj (Except.ok.inj h)
      refine .inr ?_
      split_ifs <;> exact hp₁
  · obtain ⟨rfl, rfl⟩ := Prod.mk.inj (Except.ok.inj h)
    exact .inr hpend

theorem handleOTH_pending {b : Bool} (hp : c.PendingOrClosed) (h : c.handleOTH s seg = .ok (b, c')) :
    c'.PendingOrClosed := by
  cases hs : s.early with
  | true =>
    rcases handleOTH_early hs h with ⟨-, rfl⟩ | ⟨-, c₁, -, rfl⟩
    · exact hp
    · exact .inl rfl
  | false =>
    unfold handleOTH at h
    split at h
    · cases hs
    · cases hs
    · split_ifs at h <;> obtain ⟨rfl, rfl⟩ := Prod.mk.inj (Except.ok.inj h)
      all_goals first
        | exact hp
        | exact .inl rfl

/-- An accepted segment leaves a timer, or the end of the connection. -/
theorem PendingOrClosed.rxAccepted (hp : c.PendingOrClosed) (hq : c.snd.unAckedSegs.Holds q)
    (h : c.rxAccepted s seg now = .ok c') : c'.PendingOrClosed := by
  have hst := (rxAccepted_settles hq h).state
  cases hg : c.givesUp seg with
  | true =>
    rw [hg, if_pos rfl] at hst
    exact .inl hst
  | false =>
    rw [hg, if_neg Bool.false_ne_true] at hst
    rcases hp with hcl | hp
    · exact .inl (hst.trans hcl)
    · exact .inr (hp.rxAccepted hq h hg)

theorem PendingOrClosed.rxBase {bc : RxBuf} {clk : Clock} (hp : c.PendingOrClosed)
    (hw : Window c.toCore q) (hst : c.state = s) (hs : s ≠ .CLOSED) (h : c.rxBase s bc clk = .ok c') :
    c'.PendingOrClosed := by
  obtain ⟨⟨o, c₁⟩, hd, ha⟩ := bind_ok.1 h
  obtain ⟨q₁, hw₁⟩ := Acts.window (rxDispatch_acts
    (d := ((rxParse c.prm.verifyChecksum).val bc).segment?) hst hs hd).1 hw
  have hp₁ : c₁.PendingOrClosed := by
    generalize (rxParse c.prm.verifyChecksum).val bc = rx at hd
    cases rx with
    | tooShort | badHeader | badChecksum | badSyn =>
      obtain ⟨rfl, rfl⟩ := Prod.mk.inj (Except.ok.inj hd)
      exact hp
    | syn seg y =>
      obtain ⟨⟨b, c₂⟩, hsyn, hd⟩ := bind_ok.1 hd
      obtain ⟨rfl, rfl⟩ := Prod.mk.inj (Except.ok.inj hd)
      exact handleSYN_pending hp hst hs hw.holds hsyn
    | oth seg =>
      obtain ⟨⟨b, c₂⟩, hoth, hd⟩ := bind_ok.1 hd
      obtain ⟨rfl, rfl⟩ := Prod.mk.inj (Except.ok.inj hd)
      exact handleOTH_pending hp hoth
  cases o with
  | none =>
    obtain rfl := Except.ok.inj ha
    exact hp₁
  | some seg => exact hp₁.rxAccepted hw₁.holds ha

/-- With the connection not given up, the timer is there before the state changes to `OPEN`. -/
theorem rxBase_full_pending {bc : RxBuf} {clk : Clock} (hp : c.Pending)
    (hq : c.snd.unAckedSegs.Holds q) (hs : s.early = false) (h : c.rxBase s bc clk = .ok c')
    (hg : ∀ seg, ((rxParse c.prm.verifyChecksum).val bc).segment? = some seg →
      seg.admitted c.cfg.isServer = true → c.givesUp seg = false) : c'.Pending := by
  rcases rxBase_late hs h with ⟨rfl, -⟩ | ⟨seg, c₁, hseg, hadm, ha⟩
  · exact hp
  · have hgives := hg seg hseg (Admits.iff.1 ⟨c₁, hadm⟩)
    have hsame : c₁.snd = c.snd ∧ c₁.Pending ∧ c₁.givesUp seg = c.givesUp seg := by
      cases hadm <;> exact ⟨rfl, hp, rfl⟩
    rw [← hsame.1] at hq
    exact hsame.2.1.rxAccepted hq ha (hsame.2.2.trans hgives)

theorem PendingOrClosed.handleRxEvent {bc : RxBuf} {clk : Clock} (hp : c.PendingOrClosed)
    (hw : Window c.toCore q) (hc : c.changes = []) (ha : ¬c.Abandons (.rx bc clk)) (h : c.handleRxEvent bc clk = .ok c') :
    c'.PendingOrClosed := by
  unfold CRssi.handleRxEvent at h
  split at h
  · cases h
  · rename_i hst
    obtain ⟨c₁, h₁, h⟩ := bind_ok.1 h
    obtain rfl := Except.ok.inj h
    have hone := hp.rxBase hw hst nofun h₁
    split_ifs with hzero
    · exact .inr (pending_of_empty hzero)
    · exact hone
  · rename_i hst
    obtain ⟨c₁, h₁, h⟩ := bind_ok.1 h
    obtain rfl := Except.ok.inj h
    have hone := hp.rxBase hw hst nofun h₁
    split_ifs with hroom
    · have hkeep : ∀ seg, ((rxParse c.prm.verifyChecksum).val bc).segment? = some seg →
          seg.admitted c.cfg.isServer = true → c.givesUp seg = false := by
        intro seg hseg hadm
        refine Bool.eq_false_of_not_eq_true fun hg ↦ ?_
        rcases rxBase_late_closes hw.holds rfl hc h₁ with ⟨-, hnever⟩ | ⟨seg', hseg', -, -, hwin, hsize⟩
        · exact hnever seg hseg (.inr ⟨hadm, hg⟩)
        · obtain rfl := Option.some.inj (hseg.symm.trans hseg')
          rw [sendsAlong_of_resends (resends_of_givesUp hg), Bool.and_false] at hsize
          rw [hsize, hwin] at hroom
          exact ha ⟨seg, hseg, hst, hadm, hg, hroom⟩
      have hpend : c.Pending := hp.resolve_left (hst.trans_ne nofun)
      have hp₁ := rxBase_full_pending hpend hw.holds rfl h₁ hkeep
      exact .inr hp₁
    · exact hone
  · rename_i hcl _ _
    exact hp.rxBase hw rfl hcl h

theorem PendingOrClosed.of_open (h : c.PendingOrClosed) (ho : c.state.isOpen = true) : c.Pending := by
  refine h.resolve_left fun hcl ↦ ?_
  rw [hcl] at ho
  cases ho

theorem handleUsrInputEvent_pending {clk : Clock} (hp : c.PendingOrClosed)
    (h : c.handleUsrInputEvent clk = .ok c') : c'.Pending := by
  obtain ⟨ho, n, full, c₁, h₁, rfl⟩ := handleUsrInputEvent_ok h
  have hp₁ := (usrInputLoop_sends (O := fun _ ↦ True) (fun _ _ ↦ trivial) h₁).pending (hp.of_open ho)
  split_ifs <;> exact hp₁

theorem handleUsrOutputEvent_pending (hp : c.PendingOrClosed) (h : c.handleUsrOutputEvent = .ok c') :
    c'.Pending := by
  obtain ⟨ho, c₁, h₁, h⟩ := handleUsrOutputEvent_ok h
  have hpend := hp.of_open ho
  have hp₁ : c₁.Pending := by
    rcases drainReassembleBuffer_ok h₁ with ⟨-, rfl⟩ | ⟨-, q, e, r, -, rfl⟩ <;> exact hpend
  rcases h with rfl | h
  · exact hp₁
  · exact (sendACK_sends (O := fun _ ↦ True) (fun _ ↦ trivial) h).pending hp₁

theorem processNulTimeout_pending (hp : c.PendingOrClosed) (h : c.processNulTimeout now = .ok c') :
    c'.PendingOrClosed := by
  obtain ⟨ho, ⟨c₁, -, rfl⟩ | ⟨-, sent, c₁, h₁, rfl⟩⟩ := processNulTimeout_ok h
  · exact .inl rfl
  · have hs := sendNUL_sends (O := fun _ ↦ True) (fun _ ↦ trivial) (fun _ ↦ trivial) h₁
    have hp₁ := hs.pending (hp.of_open ho)
    split_ifs
    · exact .inr hp₁
    · exact .inr hp₁

theorem processRetransmissionTimeout_pending (hq : c.snd.unAckedSegs.Holds q)
    (h : c.processRetransmissionTimeout now = .ok c') : c'.PendingOrClosed := by
  obtain ⟨c₁, -, hend⟩ := processRetransmissionTimeout_sends (O := fun _ ↦ True) hq
    (fun _ _ ↦ trivial) (fun _ ↦ trivial) h
  split_ifs at hend
  · rw [hend]
    exact .inl rfl
  · exact .inr hend.2

/-- The timer that has expired is off when its handler begins. -/
theorem processTimer_pending {t : RssiTimer} (hp : c.PendingOrClosed) (hq : c.snd.unAckedSegs.Holds q)
    (h : (c.cancelTimer t).processTimer now t = .ok c') : c'.PendingOrClosed := by
  have hcancel : t ≠ .REX → (c.cancelTimer t).PendingOrClosed :=
    fun ht ↦ hp.imp id fun hp ↦ hp.cancelTimer ht
  cases t with
  | REX =>
    obtain ⟨-, h⟩ := processRexTimeout_ok h
    exact @processRetransmissionTimeout_pending (c.cancelTimer .REX) _ _ _ hq h
  | ACK =>
    obtain ⟨ho, h⟩ := processAckTimeout_ok h
    have hpend := (hcancel nofun).of_open ho
    exact .inr ((sendDatOrAck_sends (O := fun _ ↦ True) (fun _ _ ↦ trivial) h).pending hpend)
  | NUL => exact processNulTimeout_pending (hcancel nofun) h

theorem advance_pending {clk : Clock} (hp : c.PendingOrClosed) (hw : Window c.toCore q)
    (h : c.advance clk = .ok c') : c'.PendingOrClosed := by
  unfold advance at h
  split at h
  · rename_i hst
    dsimp only at h
    split_ifs at h
    · obtain rfl := Except.ok.inj h
      have hempty : (c.toCore.close).snd.unAckedSegs.getSize = 0 := (hw.close hst).holds.getSize_eq
      exact .inr (pending_of_empty hempty)
    · obtain ⟨c₁, h₁, h⟩ := bind_ok.1 h
      obtain rfl := Except.ok.inj h
      have hp₁ := sendSYN_pending h₁
      exact .inr hp₁
  · rename_i hst
    obtain rfl := Except.ok.inj h
    have hpend := hp.resolve_left (hst.trans_ne nofun)
    exact .inr hpend
  · obtain rfl := Except.ok.inj h
    exact hp

/-- Every event keeps the timer, but for the one that abandons what waits for it. -/
theorem handle_pending (hp : c.PendingOrClosed) (hw : Window c.toCore q) (ha : ¬c.Abandons ev)
    (h : c.handle ev = .ok c') : c'.PendingOrClosed := by
  have hp₀ : c.clearChanges.PendingOrClosed := hp
  cases ev with
  | advance clk => exact advance_pending hp₀ hw h
  | rx bc clk =>
    replace h := wait_bind_ok h
    exact hp₀.handleRxEvent hw rfl ha h
  | usrInput clk =>
    replace h := wait_bind_ok h
    exact .inr (handleUsrInputEvent_pending hp₀ h)
  | usrOutput =>
    replace h := wait_bind_ok h
    exact .inr (handleUsrOutputEvent_pending hp₀ h)
  | expiry clk =>
    replace h := wait_bind_ok h
    split at h
    · obtain rfl := Except.ok.inj h
      exact hp₀
    · exact processTimer_pending hp₀ hw.holds h
  | push b =>
    obtain rfl := Except.ok.inj h
    exact hp
  | pop =>
    obtain rfl := Except.ok.inj h
    exact hp

end CRssi

/-- A step that does not abandon what waits to be acknowledged. -/
def KeepingStep (c c' : CRssi) : Prop :=
  ∃ ev : Event, ev.enabled c = true ∧ ¬c.Abandons ev ∧ c.handle ev = .ok c'

theorem KeepingStep.step (h : KeepingStep c c') : Step c c' := by
  obtain ⟨ev, hen, -, hh⟩ := h
  exact ⟨ev, hen, hh⟩

/-- As long as no datagram exceeds the limit of retransmissions and makes room in a full window at
once, whatever waits to be acknowledged will be sent again. -/
theorem rex_pending {cfg : Config} {j : Junk}
    (h : Relation.ReflTransGen KeepingStep (CRssi.new cfg j) c) (hs : c.state ≠ .CLOSED) :
    c.Pending := by
  have hinv : c.PendingOrClosed := by
    induction h with
    | refl => exact .inl rfl
    | @tail c₁ c₂ hrun hstep ih =>
      obtain ⟨q, hw⟩ := Reachable.window ⟨cfg, j,
        Relation.ReflTransGen.mono (fun _ _ ↦ KeepingStep.step) _ _ hrun⟩
      obtain ⟨ev, -, ha, hh⟩ := hstep
      by_cases hcl : c₁.state = .CLOSED
      · exact CRssi.handle_pending (.inl hcl) hw ha hh
      · exact CRssi.handle_pending (ih hcl) hw ha hh
  exact hinv.resolve_left hs

theorem rex_pending_after_syn :
    ∃ c, Reachable c ∧ c.state = .CLNT_WAIT_SYN_ACK ∧ c.snd.unAckedSegs.getSize = 1 ∧ c.Pending := by
  have hrun : ((CRssi.new (smallConfig false) zeroJunk).handle (.advance ⟨0, 7⟩)).toOption.map
      (fun c ↦ (c.state, c.snd.unAckedSegs.getSize)) = some (.CLNT_WAIT_SYN_ACK, 1) := by rfl
  obtain ⟨c, hc, hf⟩ := Option.map_eq_some_iff.1 hrun
  obtain ⟨hst, hsize⟩ := Prod.mk.inj hf
  have hstep : KeepingStep (CRssi.new (smallConfig false) zeroJunk) c := by
    refine ⟨.advance ⟨0, 7⟩, rfl, ?_, toOption_eq_some.1 hc⟩
    rintro ⟨seg, hseg, -⟩
    cases hseg
  exact ⟨c, ⟨_, _, .single hstep.step⟩, hst, hsize,
    rex_pending (.single hstep) (hst.trans_ne nofun)⟩

/-- A server that never retransmits. -/
def onceConfig : Config where
  isServer := true
  defaults := { ldMaxUnackedSegs := 1, rexMax := 0 }
  getRxMTU := none
  valid := rfl

/-- While the window is full the peer is busy, and no longer so when it acknowledges one segment. -/
def busyRun : List Event :=
  fullRun ++ [.rx (datagram [65, 8, 8, 248, 0, 0, 0, 0]) ⟨5, 7⟩,
    .rx (datagram [64, 8, 8, 249, 0, 0, 0, 0]) ⟨6, 7⟩]

theorem not_rex_pending : ¬∀ c, Reachable c → c.state ≠ .CLOSED → c.Pending := by
  intro h
  have hrun : ((CRssi.new onceConfig zeroJunk).runs busyRun).map (fun c ↦
      (c.state, c.peerBSY, c.snd.unAckedSegs.getSize, c.timers)) =
      some (.OPEN, false, 1, [(.NUL, 3000005)]) := by rfl
  obtain ⟨c, hc, hf⟩ := reachable_of_runs hrun
  simp only [Prod.mk.injEq] at hf
  obtain ⟨hst, hb, hsize, ht⟩ := hf
  obtain ⟨exp, harmed⟩ := h c hc (hst.trans_ne nofun) (by rw [hsize]; exact Nat.one_pos) hb
  rw [ht, List.mem_singleton] at harmed
  cases harmed

end Cpsw.Rssi
