import Cpsw.Rssi.Wired

namespace Cpsw.Rssi

open Cpsw.Lib.Run

/-- The exceptions of the default handlers, and of a wait without an end. -/
def CPSWError.panics : CPSWError → Bool
  | .noTimerActive | .rxUnexpected | .usrInputUnexpected | .usrOutputUnexpected | .rexUnexpected
  | .ackUnexpected | .nulUnexpected => true
  | _ => false

/-- If there is an exception, then none of those. -/
def Calm {α : Type} (x : Except CPSWError α) : Prop := ∀ e, x = .error e → e.panics = false

section Calm

variable {α β : Type} {x : Except CPSWError α} {f : α → Except CPSWError β}

@[simp] theorem calm_ok {a : α} : Calm (.ok a : Except CPSWError α) := nofun

@[simp] theorem calm_pure {a : α} : Calm (pure a : Except CPSWError α) := nofun

theorem calm_error {e : CPSWError} (h : e.panics = false) : Calm (.error e : Except CPSWError α) := by
  intro e' he
  obtain rfl := Except.error.inj he
  exact h

theorem Calm.bind (hx : Calm x) (hf : ∀ a, x = .ok a → Calm (f a)) : Calm (x >>= f) := by
  cases x with
  | ok a => exact hf a rfl
  | error e => exact calm_error (hx e rfl)

end Calm

namespace RingBuf

variable {α : Type} {r : RingBuf α}

theorem calm_push (b : Option α) : Calm (r.push b) := by
  unfold RingBuf.push
  split_ifs
  · exact calm_error rfl
  · exact calm_ok

theorem calm_pushList (bs : List (Option α)) : Calm (pushList bs r) := by
  induction bs generalizing r with
  | nil => exact calm_ok
  | cons b bs ih => exact (calm_push b).bind fun _ _ ↦ ih

theorem calm_fit (n : ℕ) : Calm (r.fit n) := by
  unfold RingBuf.fit
  split_ifs
  · exact calm_pushList _
  · exact calm_ok

end RingBuf

variable {c c' c₁ : CRssi} {now : ℕ} {s : STATE} {seg : Segment} {ev : Event} {q : List Bytes}

namespace CRssi

theorem calm_sendBuf (b : Bytes) : Calm (c.sendBuf b) := by
  unfold sendBuf
  split_ifs
  · exact calm_error rfl
  · exact calm_ok

theorem calm_keep (b : Bytes) : Calm (c.sendBufAndKeepForRetransmission b now) :=
  (calm_sendBuf b).bind fun _ _ ↦ (RingBuf.calm_push _).bind fun _ _ ↦ calm_pure

theorem calm_sendDAT (u : UsrBuf) : Calm (c.sendDAT u now) := by
  unfold sendDAT
  split_ifs
  · exact calm_error rfl
  · exact calm_keep _

theorem calm_sendACK : Calm c.sendACK := by
  rw [sendACK_eq]
  exact calm_ok

theorem calm_sendRST : Calm c.sendRST := by
  rw [sendRST_eq]
  exact calm_ok

theorem calm_sendNUL : Calm (c.sendNUL now) := by
  unfold sendNUL
  split_ifs
  · exact calm_sendACK.bind fun _ _ ↦ calm_pure
  · exact (calm_keep _).bind fun _ _ ↦ calm_pure

theorem calm_sendDatOrAck : Calm (c.sendDatOrAck s now) := by
  unfold sendDatOrAck
  split
  · exact calm_sendDAT _
  · exact calm_sendACK

theorem calm_drainLoop (n : ℕ) : Calm (drainLoop n c) := by
  induction n generalizing c with
  | zero => exact calm_ok
  | succ n ih =>
    unfold drainLoop
    split
    · exact calm_ok
    · split_ifs
      · exact ih
      · exact calm_ok
      · split
        · exact calm_error rfl
        · exact ih

theorem calm_drainReassembleBuffer : Calm (c.drainReassembleBuffer s) := by
  unfold drainReassembleBuffer
  split
  · exact (calm_drainLoop _).bind fun _ _ ↦ calm_pure
  · exact (calm_drainLoop _).bind fun _ _ ↦ calm_pure
  · exact calm_pure

theorem calm_rexLoop (n i : ℕ) : Calm (rexLoop n i c) := by
  induction n generalizing c i with
  | zero => exact calm_ok
  | succ n ih =>
    unfold rexLoop
    split
    · exact calm_ok
    · exact (calm_sendBuf _).bind fun _ _ ↦ ih _

theorem calm_processRetransmissionTimeout : Calm (c.processRetransmissionTimeout now) := by
  unfold processRetransmissionTimeout
  dsimp only
  split_ifs
  · exact calm_sendRST.bind fun _ _ ↦ calm_pure
  · split
    · exact calm_pure
    · exact (calm_rexLoop _ _).bind fun _ _ ↦ calm_pure

theorem calm_extractConnectionParams (y : RssiSynHeader) (a : Bool) :
    Calm (c.extractConnectionParams y a) := by
  refine Calm.bind ?_ fun _ _ ↦ calm_pure
  refine Calm.bind ((RingBuf.calm_fit _).bind fun _ _ ↦ calm_pure) fun k _ ↦ ?_
  split_ifs
  · unfold Core.negotiate
    split_ifs
    · exact calm_error rfl
    · exact calm_ok
  · exact calm_pure

theorem calm_handleSYN (y : RssiSynHeader) (clk : Clock) : Calm (c.handleSYN s seg y clk) := by
  unfold handleSYN
  split
  · exact (calm_extractConnectionParams _ _).bind fun _ _ ↦ (calm_keep _).bind fun _ _ ↦ calm_pure
  · refine (calm_extractConnectionParams _ _).bind fun _ _ ↦ ?_
    split_ifs
    · exact calm_sendRST.bind fun _ _ ↦ calm_pure
    · exact calm_pure
  · exact calm_pure

theorem calm_handleOTH : Calm (c.handleOTH s seg) := by
  have hearly : Calm (do
      if hasFlag seg.flags FLG_RST && c.rcv.unOrderedSegs.canAccept seg.seqNo && !seg.hasPayload then
        let c ← c.sendRST
        pure (true, c.changeState .CLOSED)
      else pure (false, c) : Except CPSWError (Bool × CRssi)) := by
    split_ifs
    · exact calm_sendRST.bind fun _ _ ↦ calm_pure
    · exact calm_pure
  unfold handleOTH
  split
  · exact hearly
  · exact hearly
  · split_ifs <;> exact calm_pure

theorem calm_rxStore : Calm (c.rxStore s seg) := by
  unfold rxStore
  split_ifs
  · refine Calm.bind ?_ fun _ _ ↦ calm_drainReassembleBuffer
    unfold ReassembleBuf.store
    split_ifs
    · exact calm_ok
    · exact calm_error rfl
  · exact calm_pure

theorem calm_rxReply : Calm (c.rxReply s now) := by
  refine Calm.bind ?_ fun _ _ ↦ calm_pure
  unfold rxAck
  split_ifs
  · exact calm_sendDatOrAck
  · exact calm_pure
  · exact calm_pure

theorem calm_rxAccepted : Calm (c.rxAccepted s seg now) := by
  refine calm_rxStore.bind fun c₁ _ ↦ ?_
  rw [rxBusy_eq]
  split_ifs
  · exact calm_processRetransmissionTimeout
  · exact calm_rxReply

theorem calm_rxBase {bc : RxBuf} {clk : Clock} : Calm (c.rxBase s bc clk) := by
  refine Calm.bind ?_ fun p _ ↦ ?_
  · generalize (rxParse c.prm.verifyChecksum).val bc = rx
    cases rx with
    | tooShort | badHeader | badChecksum | badSyn => exact calm_pure
    | syn seg y => exact (calm_handleSYN y clk).bind fun _ _ ↦ calm_pure
    | oth seg => exact calm_handleOTH.bind fun _ _ ↦ calm_pure
  · obtain ⟨o, c₁⟩ := p
    cases o with
    | none => exact calm_pure
    | some seg => exact calm_rxAccepted

theorem calm_handleRxEvent {bc : RxBuf} {clk : Clock} (hcl : c.state ≠ .CLOSED) :
    Calm (c.handleRxEvent bc clk) := by
  unfold handleRxEvent
  split
  · exact absurd ‹_› hcl
  · exact calm_rxBase.bind fun _ _ ↦ calm_pure
  · exact calm_rxBase.bind fun _ _ ↦ calm_pure
  · exact calm_rxBase

theorem calm_usrInputLoop (n : ℕ) : Calm (usrInputLoop now n c) := by
  induction n generalizing c with
  | zero => exact calm_ok
  | succ n ih =>
    unfold usrInputLoop
    split_ifs
    · split
      · exact calm_ok
      · exact (calm_sendDAT _).bind fun _ _ ↦ ih
    · exact calm_ok

theorem calm_handleUsrInputEvent {clk : Clock} (ho : c.state.isOpen = true) :
    Calm (c.handleUsrInputEvent clk) := by
  rw [handleUsrInputEvent_eq, if_pos ho]
  exact (calm_usrInputLoop _).bind fun _ _ ↦ calm_pure

theorem calm_handleUsrOutputEvent (ho : c.state.isOpen = true) : Calm c.handleUsrOutputEvent := by
  rw [handleUsrOutputEvent_eq, if_pos ho]
  refine calm_drainReassembleBuffer.bind fun _ _ ↦ ?_
  split_ifs
  · exact calm_pure
  · exact calm_sendACK

/-- A timer has a handler in the open states, and `REX` in every state but `CLOSED`. -/
theorem calm_processTimer {t : RssiTimer} (hcl : c.state ≠ .CLOSED)
    (ho : t = .REX ∨ c.state.isOpen = true) : Calm (c.processTimer now t) := by
  cases t with
  | REX =>
    change Calm (c.processRexTimeout now)
    rw [processRexTimeout_eq, if_neg hcl]
    exact calm_processRetransmissionTimeout
  | ACK =>
    change Calm (c.processAckTimeout now)
    rw [processAckTimeout_eq, if_pos (ho.resolve_left nofun)]
    exact calm_sendDatOrAck
  | NUL =>
    change Calm (c.processNulTimeout now)
    rw [processNulTimeout_eq, if_pos (ho.resolve_left nofun)]
    split_ifs
    · exact calm_sendRST.bind fun _ _ ↦ calm_pure
    · exact calm_sendNUL.bind fun _ _ ↦ calm_pure

theorem calm_advance {clk : Clock} : Calm (c.advance clk) := by
  unfold advance
  split
  · dsimp only
    split_ifs
    · exact calm_pure
    · exact (calm_keep _).bind fun _ _ ↦ calm_pure
  · exact calm_pure
  · exact calm_pure

/-- A timer other than `REX` is the first to expire before the handshake is over. -/
def ExpiresEarly (ev : Event) (c : CRssi) : Prop :=
  ∃ clk t exp, ev = .expiry clk ∧ c.timers.getFirstToExpire = some (t, exp) ∧ t ≠ .REX ∧
    (c.state = .CLNT_WAIT_SYN_ACK ∨ c.state = .SERV_WAIT_SYN_ACK)

/-- Where a wait ends, a timer is armed. -/
theorem wait_eq (hw : Wired c) (hs : c.state.waits = true) : c.wait = .ok c := by
  unfold wait
  refine if_neg ?_
  rintro ⟨hnil, hl⟩
  have hn := hw.nul (by rintro hcl; rw [hcl] at hs; cases hs) hl
  rw [hnil] at hn
  exact RssiTimerList.not_isArmed_nil hn

/-- Outside of the handshake the thread waits in the open states only. -/
theorem isOpen_of_waits (hs : s.waits = true) (hk : s.shakes = false) : s.isOpen = true := by
  revert hs hk
  cases s <;> decide

/-- An expiry, once the wait is over. -/
theorem handle_expiry {t : RssiTimer} {exp : ℕ} {clk : Clock}
    (hwait : c.clearChanges.wait = .ok c.clearChanges)
    (hf : c.timers.getFirstToExpire = some (t, exp)) :
    c.handle (.expiry clk) = (c.clearChanges.cancelTimer t).processTimer clk.now t := by
  have hf' : c.clearChanges.timers.getFirstToExpire = some (t, exp) := hf
  simp only [handle, dispatch, hwait, bind, Except.bind, hf']

theorem handle_calm (hw : Wired c) (hen : ev.enabled c = true) (he : ¬c.ExpiresEarly ev) :
    Calm (c.handle ev) := by
  have hw₀ : Wired c.clearChanges := hw.of_eq rfl rfl rfl rfl rfl rfl
  have hwait : c.state.waits = true → c.clearChanges.wait = .ok c.clearChanges := wait_eq hw₀
  have hcl : c.state.waits = true → c.state ≠ .CLOSED := by
    intro hs hcl
    rw [hcl] at hs
    cases hs
  cases ev with
  | advance clk => exact calm_advance
  | push b => exact calm_pure
  | pop => exact calm_pure
  | rx bc clk =>
    change Calm (c.clearChanges.wait >>= fun c ↦ c.handleRxEvent bc clk)
    rw [hwait hen]
    exact calm_handleRxEvent (hcl hen)
  | usrInput clk =>
    unfold Event.enabled at hen
    simp only [Bool.and_eq_true] at hen
    obtain ⟨⟨hs, hon⟩, -⟩ := hen
    have hk : c.state.shakes = false := Bool.eq_false_of_not_eq_true fun hk ↦ by
      rw [hw.input hk] at hon
      cases hon
    change Calm (c.clearChanges.wait >>= fun c ↦ c.handleUsrInputEvent clk)
    rw [hwait hs]
    exact calm_handleUsrInputEvent (isOpen_of_waits hs hk)
  | usrOutput =>
    unfold Event.enabled at hen
    simp only [Bool.and_eq_true] at hen
    obtain ⟨⟨hs, hon⟩, -⟩ := hen
    have hk : c.state.shakes = false := Bool.eq_false_of_not_eq_true fun hk ↦ by
      rw [hw.output hk] at hon
      cases hon
    change Calm (c.clearChanges.wait >>= fun c ↦ c.handleUsrOutputEvent)
    rw [hwait hs]
    exact calm_handleUsrOutputEvent (isOpen_of_waits hs hk)
  | expiry clk =>
    unfold Event.enabled at hen
    rw [Bool.and_eq_true, Option.any_eq_true] at hen
    obtain ⟨hs, ⟨t, exp⟩, hf, -⟩ := hen
    rw [handle_expiry (hwait hs) hf]
    refine calm_processTimer (hcl hs) ?_
    by_cases hk : c.state.shakes = true
    · refine .inl ?_
      by_contra ht
      have hl : c.state ≠ .LISTEN := by
        intro hl
        rw [(hw.listen hl).1] at hf
        cases hf
      refine he ⟨clk, t, exp, rfl, hf, ht, ?_⟩
      revert hk hl
      cases c.state <;> decide
    · exact .inr (isOpen_of_waits hs (Bool.eq_false_of_not_eq_true hk))

/-- And that is no timer which the states of the handshake know. -/
theorem handle_panics (hw : Wired c) (he : c.ExpiresEarly ev) :
    ∃ e, c.handle ev = .error e ∧ e.panics = true := by
  obtain ⟨clk, t, exp, rfl, hf, ht, hs⟩ := he
  have hwait : c.clearChanges.wait = .ok c.clearChanges :=
    wait_eq (hw.of_eq rfl rfl rfl rfl rfl rfl) (by
      change c.state.waits = true
      rcases hs with hs | hs <;> rw [hs] <;> rfl)
  have ho : c.state.isOpen = false := by
    rcases hs with hs | hs <;> rw [hs] <;> rfl
  rw [handle_expiry hwait hf]
  cases t with
  | REX => exact absurd rfl ht
  | ACK =>
    refine ⟨.ackUnexpected, ?_, rfl⟩
    change processAckTimeout clk.now (c.clearChanges.cancelTimer .ACK) = _
    rw [processAckTimeout_eq]
    exact if_neg (Bool.not_eq_true _ ▸ ho)
  | NUL =>
    refine ⟨.nulUnexpected, ?_, rfl⟩
    change processNulTimeout clk.now (c.clearChanges.cancelTimer .NUL) = _
    rw [processNulTimeout_eq]
    exact if_neg (Bool.not_eq_true _ ▸ ho)

end CRssi

/-- A client that retransmits later than it sends NULs. -/
def slowConfig : Config where
  isServer := false
  defaults := { ldMaxUnackedSegs := 1, rexTimeoutUS := 2000 * UNIT_US }
  getRxMTU := none
  valid := rfl

/-- Its SYN is not answered. -/
theorem unanswered : ∃ c, Reachable c ∧ (Event.expiry ⟨1000000, 7⟩).enabled c = true ∧
    c.state = .CLNT_WAIT_SYN_ACK ∧ c.timers = [(.NUL, 1000000), (.REX, 2000000)] := by
  have hrun : ((CRssi.new slowConfig zeroJunk).runs [.advance ⟨0, 7⟩]).map (fun c ↦
      ((Event.expiry ⟨1000000, 7⟩).enabled c, c.state, c.timers)) =
      some (true, .CLNT_WAIT_SYN_ACK, [(.NUL, 1000000), (.REX, 2000000)]) := by rfl
  obtain ⟨c, hc, hf⟩ := reachable_of_runs hrun
  simp only [Prod.mk.injEq] at hf
  exact ⟨c, hc, hf.1, hf.2⟩

end Cpsw.Rssi
