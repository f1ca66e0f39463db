import Cpsw.Rssi.Open

namespace Cpsw.Rssi

open Cpsw.Lib.Run

/-- Where an event has changed the state to `CLOSED`, that is the state it ends in. -/
def CRssi.StaysClosed (c : CRssi) : Prop := .CLOSED ∈ c.changes → c.state = .CLOSED

namespace Segment

/-- An RST that a connection past its SYNs accepts. -/
def resets (s : Segment) : Bool :=
  !hasFlag s.flags FLG_SYN && !s.bareAck && !hasFlag s.flags FLG_NUL && hasFlag s.flags FLG_RST

/-- All segments that such a connection accepts. -/
def admitted (isServer : Bool) (s : Segment) : Bool :=
  hasFlag s.flags FLG_SYN || s.bareAck ||
    if hasFlag s.flags FLG_NUL then isServer && !s.hasPayload
    else hasFlag s.flags FLG_RST || s.hasPayload

end Segment

namespace CRssi

/-- How many segments wait to be acknowledged once `seg` has been looked at. -/
def left (seg : Segment) (c : CRssi) : ℕ :=
  if hasFlag seg.flags FLG_ACK then (c.snd.unAckedSegs.ack seg.ackNo).2.getSize
  else c.snd.unAckedSegs.getSize

/-- How often they have been sent again. -/
def rexCount (seg : Segment) (c : CRssi) : ℕ :=
  if hasFlag seg.flags FLG_ACK ∧ 0 < (c.snd.unAckedSegs.ack seg.ackNo).1 then 0 else c.numRex

/-- The peer is no longer busy, and segments wait to be acknowledged. -/
def resends (seg : Segment) (c : CRssi) : Bool :=
  c.peerBSY && !hasFlag seg.flags FLG_BSY && decide (0 < c.left seg)

/-- They have been sent again as often as they may be. -/
def givesUp (seg : Segment) (c : CRssi) : Bool :=
  c.resends seg && decide (c.prm.rexMX < c.rexCount seg + 1)

/-- The answer to `seg` takes a buffer of the user along. -/
def sendsAlong (seg : Segment) (c : CRssi) : Bool :=
  !c.resends seg && decide (c.prm.cakMX < c.numCak + 1) &&
    decide (c.left seg < c.snd.peerOssMX) && !c.inpQ.q.isEmpty

/-- How many segments wait to be acknowledged after the answer. -/
def leftAfter (seg : Segment) (c : CRssi) : ℕ := c.left seg + (c.sendsAlong seg).toNat

/-- `seg` ends a connection past its SYNs. -/
def Closes (seg : Segment) (c : CRssi) : Prop :=
  seg.resets = true ∨ seg.admitted c.cfg.isServer = true ∧ c.givesUp seg = true

/-- The handler of a derived state acts on a connection that the one of its base has closed. -/
def Reopens (ev : Event) (c : CRssi) : Prop :=
  ∃ seg, c.segment? ev = some seg ∧
    (c.state = .SERV_WAIT_SYN_ACK ∧ seg.resets = true ∧ c.left seg = 0 ∨
      c.state = .OPEN_OUTWIN_FULL ∧ c.Closes seg ∧ c.leftAfter seg < c.snd.peerOssMX)

end CRssi

/-- The window stays as it is. -/
def SameWindow (c c' : CRssi) : Prop :=
  c'.snd.unAckedSegs.getSize = c.snd.unAckedSegs.getSize ∧ c'.snd.peerOssMX = c.snd.peerOssMX

variable {c c' c₁ : CRssi} {now : ℕ} {s : STATE} {seg : Segment} {ev : Event} {q : List Bytes}

/-- What holds of a segment that is accepted. -/
theorem Admits.iff : (∃ c₁, Admits c seg c₁) ↔ seg.admitted c.cfg.isServer = true := by
  unfold Segment.admitted
  constructor
  · rintro ⟨c₁, h⟩
    cases h <;> simp_all
  · intro h
    by_cases hsyn : hasFlag seg.flags FLG_SYN = true
    · exact ⟨_, .syn hsyn⟩
    · rw [Bool.not_eq_true] at hsyn
      cases hack : seg.bareAck with
      | true => exact ⟨_, .ack hsyn hack⟩
      | false =>
        rw [hsyn, hack, Bool.false_or, Bool.false_or] at h
        split_ifs at h with hnul
        · rw [Bool.and_eq_true, Bool.not_eq_true'] at h
          exact ⟨_, .nul hack hnul h.1 h.2⟩
        · rw [Bool.not_eq_true] at hnul
          cases hrst : hasFlag seg.flags FLG_RST with
          | true => exact ⟨_, .rst hack hnul hrst⟩
          | false =>
            rw [hrst, Bool.false_or] at h
            exact ⟨_, .dat hack hnul hrst h⟩

theorem Segment.admitted_of_resets {isServer : Bool} (h : seg.resets = true) :
    seg.admitted isServer = true := by
  unfold Segment.resets at h
  unfold Segment.admitted
  simp only [Bool.and_eq_true, Bool.not_eq_true'] at h
  obtain ⟨⟨⟨-, -⟩, hnul⟩, hrst⟩ := h
  rw [hnul, hrst, if_neg Bool.false_ne_true, Bool.true_or, Bool.or_true]

theorem CRssi.admitted_of_closes (h : c.Closes seg) : seg.admitted c.cfg.isServer = true :=
  h.elim Segment.admitted_of_resets And.left

namespace RingBuf

variable {α : Type} {r r' : RingBuf α} {p : List α}

theorem Holds.push_size {x : Option α} (h : r.Holds p) (hp : r.push x = .ok r') :
    r'.getSize = r.getSize + 1 := by
  obtain ⟨k, hk, hcapa⟩ := h.wf.capa
  have hpow : 2 ^ k ≤ 2 ^ 8 := Nat.pow_le_pow_right (by decide) hk
  have hrp := h.wf.rp
  have hwp := h.wp
  have hfits := h.fits
  unfold RingBuf.push at hp
  split_ifs at hp
  obtain rfl := Except.ok.inj hp
  rw [h.getSize_eq]
  unfold RingBuf.getSize
  dsimp only
  omega

end RingBuf

namespace CRssi

theorem processAckNumber_left :
    (c.processAckNumber seg.flags seg.ackNo).snd.unAckedSegs.getSize = c.left seg := by
  rw [toCore_processAckNumber]
  unfold left
  split_ifs <;> rfl

theorem processAckNumber_numRex (hpos : 0 < c.left seg) :
    (c.processAckNumber seg.flags seg.ackNo).numRex = c.rexCount seg := by
  unfold left at hpos
  unfold processAckNumber rexCount
  by_cases hack : hasFlag seg.flags FLG_ACK = true
  · have hsize : (c.toCore.acknowledge seg.ackNo).snd.unAckedSegs.getSize ≠ 0 := by
      rw [if_pos hack] at hpos
      exact hpos.ne'
    rw [if_pos hack]
    dsimp only
    rw [if_neg hsize]
    simp [hack]
  · rw [if_neg hack, if_neg fun h ↦ hack h.1]

theorem resends_of_givesUp (h : c.givesUp seg = true) : c.resends seg = true := by
  unfold givesUp at h
  rw [Bool.and_eq_true] at h
  exact h.1

theorem left_pos_of_resends (h : c.resends seg = true) : 0 < c.left seg := by
  unfold resends at h
  rw [Bool.and_eq_true] at h
  exact of_decide_eq_true h.2

theorem sendsAlong_of_resends (h : c.resends seg = true) : c.sendsAlong seg = false := by
  unfold sendsAlong
  rw [h]
  rfl

/-- What an acknowledgement leaves alone. -/
theorem processAckNumber_rest :
    (c.processAckNumber seg.flags seg.ackNo).peerBSY = c.peerBSY ∧
      (c.processAckNumber seg.flags seg.ackNo).numCak = c.numCak ∧
      (c.processAckNumber seg.flags seg.ackNo).inpQ = c.inpQ ∧
      (c.processAckNumber seg.flags seg.ackNo).changes = c.changes ∧
      (c.processAckNumber seg.flags seg.ackNo).state = c.state ∧
      (c.processAckNumber seg.flags seg.ackNo).prm = c.prm ∧
      (c.processAckNumber seg.flags seg.ackNo).snd.peerOssMX = c.snd.peerOssMX := by
  unfold processAckNumber
  dsimp only
  split_ifs <;> exact ⟨rfl, rfl, rfl, rfl, rfl, rfl, rfl⟩

theorem sendBufAndKeepForRetransmission_size {b : Bytes} (hq : c.snd.unAckedSegs.Holds q)
    (h : c.sendBufAndKeepForRetransmission b now = .ok c') :
    c'.snd.unAckedSegs.getSize = c.snd.unAckedSegs.getSize + 1 ∧
      c'.snd.peerOssMX = c.snd.peerOssMX := by
  obtain ⟨-, ring, hring, rfl⟩ := sendBufAndKeepForRetransmission_ok h
  rw [toCore_armRexAndNulTimer]
  exact ⟨hq.push_size hring, rfl⟩

theorem sendDAT_size {u : UsrBuf} (hq : c.snd.unAckedSegs.Holds q) (h : c.sendDAT u now = .ok c') :
    c'.snd.unAckedSegs.getSize = c.snd.unAckedSegs.getSize + 1 ∧
      c'.snd.peerOssMX = c.snd.peerOssMX := by
  unfold sendDAT at h
  split_ifs at h
  exact @sendBufAndKeepForRetransmission_size c.bumpSeqSent _ _ _ _ hq h

/-- There is a buffer to be sent where the state allows it, the window has room, and the user has
queued one. -/
theorem hasBufToSend_isSome : (c.hasBufToSend s).1.isSome =
    (s.isOpen && decide (c.snd.unAckedSegs.getSize < c.snd.peerOssMX) && !c.inpQ.q.isEmpty) := by
  have hpop : c.popUsr.1.isSome = !c.inpQ.q.isEmpty := by
    unfold popUsr BufQueue.tryPop
    cases c.inpQ.q <;> rfl
  have hopen : (if c.snd.unAckedSegs.getSize < c.snd.peerOssMX then c.popUsr else (none, c)).1.isSome =
      (decide (c.snd.unAckedSegs.getSize < c.snd.peerOssMX) && !c.inpQ.q.isEmpty) := by
    split_ifs with hlt
    · rw [hpop, decide_eq_true hlt, Bool.true_and]
    · rw [decide_eq_false hlt, Bool.false_and]
      rfl
  cases s <;> first
    | rfl
    | exact hopen

theorem sendDatOrAck_size (hq : c.snd.unAckedSegs.Holds q) (h : c.sendDatOrAck s now = .ok c') :
    c'.snd.unAckedSegs.getSize = c.snd.unAckedSegs.getSize + (s.isOpen &&
        decide (c.snd.unAckedSegs.getSize < c.snd.peerOssMX) && !c.inpQ.q.isEmpty).toNat ∧
      c'.snd.peerOssMX = c.snd.peerOssMX := by
  have hsome := @hasBufToSend_isSome c s
  unfold sendDatOrAck at h
  split at h
  · rename_i u c₁ hu
    obtain ⟨-, -, hp⟩ := hasBufToSend_some hu
    obtain ⟨_, -, hc₁⟩ := popUsr_some hp
    have hwin : c₁.snd.unAckedSegs = c.snd.unAckedSegs ∧ c₁.snd.peerOssMX = c.snd.peerOssMX := by
      rw [hc₁]
      exact ⟨rfl, rfl⟩
    rw [hu] at hsome
    rw [← hsome, ← hwin.1, ← hwin.2]
    rw [← hwin.1] at hq
    exact sendDAT_size hq h
  · rename_i c₁ hu
    obtain rfl := hasBufToSend_none hu
    rw [hu] at hsome
    rw [← hsome]
    rw [sendACK_eq] at h
    obtain rfl := Except.ok.inj h
    exact ⟨rfl, rfl⟩

theorem rxReply_size (hq : c.snd.unAckedSegs.Holds q) (h : c.rxReply s now = .ok c') :
    c'.snd.unAckedSegs.getSize = c.snd.unAckedSegs.getSize + (decide (c.prm.cakMX < c.numCak + 1) &&
        (s.isOpen && decide (c.snd.unAckedSegs.getSize < c.snd.peerOssMX) && !c.inpQ.q.isEmpty)).toNat ∧
      c'.snd.peerOssMX = c.snd.peerOssMX := by
  obtain ⟨c₁, h₁, h⟩ := bind_ok.1 h
  obtain rfl := Except.ok.inj h
  have hsnd : (if c₁.cfg.isServer then c₁.armTimer .NUL (now + c₁.prm.nulTO) else c₁).snd = c₁.snd := by
    split_ifs <;> rfl
  rw [hsnd]
  unfold rxAck at h₁
  split_ifs at h₁ with hmax
  · rw [decide_eq_true (show c.prm.cakMX < c.numCak + 1 from hmax), Bool.true_and]
    exact @sendDatOrAck_size { c with numCak := c.numCak + 1 } _ _ _ _ hq h₁
  all_goals
    obtain rfl := Except.ok.inj h₁
    rw [decide_eq_false (show ¬c.prm.cakMX < c.numCak + 1 from hmax), Bool.false_and]
    exact ⟨rfl, rfl⟩

theorem rexLoop_sameWindow {n i : ℕ} (h : rexLoop n i c = .ok c') : SameWindow c c' := by
  induction n generalizing c i with
  | zero =>
    obtain rfl := Except.ok.inj h
    exact ⟨rfl, rfl⟩
  | succ n ih =>
    unfold rexLoop at h
    split at h
    · obtain rfl := Except.ok.inj h
      exact ⟨rfl, rfl⟩
    · obtain ⟨⟨b', c₁⟩, hs, h⟩ := bind_ok.1 h
      obtain ⟨-, rfl, rfl⟩ := sendBuf_ok hs
      dsimp only at h
      have hloop := ih h
      exact hloop

theorem processRetransmissionTimeout_sameWindow (h : c.processRetransmissionTimeout now = .ok c') :
    SameWindow c c' := by
  unfold processRetransmissionTimeout at h
  dsimp only at h
  split_ifs at h
  · obtain ⟨c₁, h₁, h⟩ := bind_ok.1 h
    rw [sendRST_eq] at h₁
    obtain rfl := Except.ok.inj h₁
    obtain rfl := Except.ok.inj h
    exact ⟨rfl, rfl⟩
  · split at h
    · obtain rfl := Except.ok.inj h
      exact ⟨rfl, rfl⟩
    · obtain ⟨c₁, h₁, h⟩ := bind_ok.1 h
      obtain rfl := Except.ok.inj h
      have hloop := rexLoop_sameWindow h₁
      unfold SameWindow
      rw [toCore_armRexAndNulTimer]
      exact hloop

theorem processRetransmissionTimeout_changes (hq : c.snd.unAckedSegs.Holds q)
    (h : c.processRetransmissionTimeout now = .ok c') :
    if c.prm.rexMX < c.numRex + 1 then c'.changes = c.changes ++ [.CLOSED] ∧ c'.state = .CLOSED
    else c'.changes = c.changes ∧ c'.state = c.state := by
  obtain ⟨c₁, hs, hc⟩ := processRetransmissionTimeout_sends (O := fun _ ↦ True) hq (fun _ _ ↦ trivial)
    (fun _ ↦ trivial) h
  split_ifs at hc ⊢
  · rw [hc]
    exact ⟨congrArg (· ++ [STATE.CLOSED]) hs.changes, rfl⟩
  · rw [hc.1]
    exact ⟨hs.changes, hs.state⟩

/-- What an accepted segment does to the window and to the state. -/
structure Settles (s : STATE) (seg : Segment) (c c' : CRssi) : Prop where
  size : c'.snd.unAckedSegs.getSize = c.left seg + (s.isOpen && c.sendsAlong seg).toNat
  window : c'.snd.peerOssMX = c.snd.peerOssMX
  changes : c'.changes = if c.givesUp seg then c.changes ++ [.CLOSED] else c.changes
  state : c'.state = if c.givesUp seg then .CLOSED else c.state

theorem rxReply_changes (h : c.rxReply s now = .ok c') :
    c'.changes = c.changes ∧ c'.state = c.state := by
  obtain ⟨c₁, h₁, h⟩ := bind_ok.1 h
  obtain rfl := Except.ok.inj h
  have hack : c₁.changes = c.changes ∧ c₁.state = c.state := by
    unfold rxAck at h₁
    split_ifs at h₁
    · have hs := sendDatOrAck_sends (O := fun _ ↦ True) (fun _ _ ↦ trivial) h₁
      exact ⟨hs.changes, hs.state⟩
    all_goals
      obtain rfl := Except.ok.inj h₁
      exact ⟨rfl, rfl⟩
  split_ifs <;> exact hack

theorem noteBusy_rest : (c.noteBusy seg).numRex = c.numRex ∧ (c.noteBusy seg).numCak = c.numCak ∧
    (c.noteBusy seg).inpQ = c.inpQ ∧ (c.noteBusy seg).changes = c.changes := by
  unfold noteBusy
  split_ifs <;> exact ⟨rfl, rfl, rfl, rfl⟩

theorem rxBusy_settles (hq : c.snd.unAckedSegs.Holds q) (h : c.rxBusy s seg now = .ok c') :
    if c.peerBSY && !hasFlag seg.flags FLG_BSY && c.snd.unAckedSegs.getSize > 0 then
      SameWindow c c' ∧ if c.prm.rexMX < c.numRex + 1
        then c'.changes = c.changes ++ [.CLOSED] ∧ c'.state = .CLOSED
        else c'.changes = c.changes ∧ c'.state = c.state
    else
      c'.snd.unAckedSegs.getSize = c.snd.unAckedSegs.getSize + (decide (c.prm.cakMX < c.numCak + 1) &&
        (s.isOpen && decide (c.snd.unAckedSegs.getSize < c.snd.peerOssMX) && !c.inpQ.q.isEmpty)).toNat ∧
      c'.snd.peerOssMX = c.snd.peerOssMX ∧ c'.changes = c.changes ∧ c'.state = c.state := by
  obtain ⟨hrex, hcak, hinp, hch⟩ := @noteBusy_rest c seg
  have hcore := @toCore_noteBusy c seg
  have hst : (c.noteBusy seg).state = c.state := by rw [hcore]
  have hprm : (c.noteBusy seg).prm = c.prm := by rw [hcore]
  have hsnd : (c.noteBusy seg).snd = c.snd := by rw [hcore]
  rw [rxBusy_eq] at h
  rw [← hsnd] at hq
  split_ifs at h ⊢ with hre hmax
  · have hwin := processRetransmissionTimeout_sameWindow h
    have hchg := processRetransmissionTimeout_changes hq h
    rw [hprm, hrex, if_pos hmax, hch] at hchg
    unfold SameWindow at hwin ⊢
    rw [hsnd] at hwin
    exact ⟨hwin, hchg⟩
  · have hwin := processRetransmissionTimeout_sameWindow h
    have hchg := processRetransmissionTimeout_changes hq h
    rw [hprm, hrex, if_neg hmax, hch, hst] at hchg
    unfold SameWindow at hwin ⊢
    rw [hsnd] at hwin
    exact ⟨hwin, hchg⟩
  · have hsize := rxReply_size hq h
    have hchg := rxReply_changes h
    rw [hprm, hcak, hsnd, hinp] at hsize
    rw [hch, hst] at hchg
    exact ⟨hsize.1, hsize.2, hchg⟩

/-- What storing a segment leaves alone. -/
theorem rxStore_rest (h : c.rxStore s seg = .ok c') : c'.snd = c.snd ∧ c'.prm = c.prm ∧
    c'.state = c.state ∧ c'.changes = c.changes ∧ c'.peerBSY = c.peerBSY ∧ c'.numRex = c.numRex ∧
    c'.numCak = c.numCak ∧ c'.inpQ = c.inpQ := by
  obtain ⟨r, oq, e, rfl⟩ := rxStore_eq h
  exact ⟨rfl, rfl, rfl, rfl, rfl, rfl, rfl, rfl⟩

theorem rxAccepted_settles (hq : c.snd.unAckedSegs.Holds q) (h : c.rxAccepted s seg now = .ok c') :
    Settles s seg c c' := by
  obtain ⟨n, hn⟩ := processAckNumber_holds hq seg.flags seg.ackNo
  have hleft := @processAckNumber_left c seg
  have hrex := @processAckNumber_numRex c seg
  obtain ⟨hbsy, hcak, hinp, hch, hst, hprm, hoss⟩ := @processAckNumber_rest c seg
  obtain ⟨c₁, h₁, h⟩ := bind_ok.1 h
  obtain ⟨hsnd₁, hprm₁, hst₁, hch₁, hbsy₁, hrex₁, hcak₁, hinp₁⟩ := rxStore_rest h₁
  rw [← hsnd₁] at hn
  have hsettles := rxBusy_settles hn h
  rw [hbsy₁, hbsy, hsnd₁, hleft, hprm₁, hprm, hrex₁, hcak₁, hcak, hinp₁, hinp, hch₁, hch, hst₁, hst,
    hoss] at hsettles
  change if c.resends seg = true then _ else _ at hsettles
  cases hre : c.resends seg with
  | true =>
    have hpos := left_pos_of_resends hre
    have hgives : c.givesUp seg = decide (c.prm.rexMX < c.rexCount seg + 1) := by
      unfold givesUp
      rw [hre, Bool.true_and]
    rw [if_pos hre, hrex hpos] at hsettles
    obtain ⟨hwin, hchg⟩ := hsettles
    unfold SameWindow at hwin
    rw [hsnd₁, hleft, hoss] at hwin
    have hend : c'.changes = (if c.givesUp seg then c.changes ++ [.CLOSED] else c.changes) ∧
        c'.state = if c.givesUp seg then .CLOSED else c.state := by
      rw [hgives]
      by_cases hmax : c.prm.rexMX < c.rexCount seg + 1
      · rw [if_pos hmax] at hchg
        rw [decide_eq_true hmax]
        exact hchg
      · rw [if_neg hmax] at hchg
        rw [decide_eq_false hmax]
        exact hchg
    refine ⟨?_, hwin.2, hend.1, hend.2⟩
    rw [sendsAlong_of_resends hre, Bool.and_false]
    exact hwin.1
  | false =>
    have hgives : c.givesUp seg = false := by
      unfold givesUp
      rw [hre]
      rfl
    rw [if_neg (by rw [hre]; exact Bool.false_ne_true)] at hsettles
    obtain ⟨hsize, hwin, hchg, hst'⟩ := hsettles
    refine ⟨?_, hwin, ?_, ?_⟩
    · rw [hsize]
      unfold sendsAlong
      rw [hre, Bool.not_false, Bool.true_and]
      congr 2
      cases s.isOpen <;> simp [Bool.and_assoc]
    · rw [hgives]
      exact hchg
    · rw [hgives]
      exact hst'

theorem Settles.staysClosed (h : Settles s seg c c') (hc : c.StaysClosed) : c'.StaysClosed := by
  unfold StaysClosed
  rw [h.changes, h.state]
  split_ifs
  · exact fun _ ↦ rfl
  · exact hc

theorem staysClosed_of_nil (h : c.changes = []) : c.StaysClosed := by
  intro hmem
  rw [h] at hmem
  cases hmem

theorem staysClosed_of_ne (h : c.changes = []) (hs : s ≠ .CLOSED) : (c.changeState s).StaysClosed := by
  intro hmem
  change STATE.CLOSED ∈ c.changes ++ [s] at hmem
  rw [h, List.nil_append, List.mem_singleton] at hmem
  exact absurd hmem.symm hs

theorem handleSYN_staysClosed {y : RssiSynHeader} {clk : Clock} {b : Bool} (hc : c.changes = [])
    (h : c.handleSYN s seg y clk = .ok (b, c')) : c'.StaysClosed := by
  unfold handleSYN at h
  split at h
  · obtain ⟨c₁, h₁, h⟩ := bind_ok.1 h
    obtain ⟨k, -, rfl⟩ := extractConnectionParams_ok h₁
    obtain ⟨c₂, h₂, h⟩ := bind_ok.1 h
    obtain ⟨rfl, rfl⟩ := Prod.mk.inj (Except.ok.inj h)
    unfold sendSYN at h₂
    have hch := (sendBufAndKeepForRetransmission_sends (O := fun _ ↦ True) trivial h₂).changes
    exact staysClosed_of_ne (hch.trans hc) nofun
  · obtain ⟨c₁, h₁, h⟩ := bind_ok.1 h
    obtain ⟨k, -, rfl⟩ := extractConnectionParams_ok h₁
    split_ifs at h
    · obtain ⟨c₂, h₂, h⟩ := bind_ok.1 h
      obtain ⟨rfl, rfl⟩ := Prod.mk.inj (Except.ok.inj h)
      exact fun _ ↦ rfl
    · obtain ⟨rfl, rfl⟩ := Prod.mk.inj (Except.ok.inj h)
      split_ifs
      · exact staysClosed_of_ne hc nofun
      · exact staysClosed_of_nil hc
  · obtain ⟨rfl, rfl⟩ := Prod.mk.inj (Except.ok.inj h)
    exact staysClosed_of_nil hc

theorem handleOTH_staysClosed {b : Bool} (hc : c.changes = [])
    (h : c.handleOTH s seg = .ok (b, c')) : c'.StaysClosed := by
  cases hs : s.early with
  | true =>
    rcases handleOTH_early hs h with ⟨-, rfl⟩ | ⟨-, c₁, -, rfl⟩
    · exact staysClosed_of_nil hc
    · exact fun _ ↦ rfl
  | false =>
    unfold handleOTH at h
    split at h
    · cases hs
    · cases hs
    · split_ifs at h <;> obtain ⟨rfl, rfl⟩ := Prod.mk.inj (Except.ok.inj h)
      all_goals first
        | exact staysClosed_of_nil hc
        | exact fun _ ↦ rfl

/-- Whatever the shared part of a handler does after it has closed the connection leaves it closed. -/
theorem rxBase_staysClosed {bc : RxBuf} {clk : Clock} (hw : Window c.toCore q) (hst : c.state = s)
    (hs : s ≠ .CLOSED) (hc : c.changes = []) (h : c.rxBase s bc clk = .ok c') : c'.StaysClosed := by
  obtain ⟨⟨o, c₁⟩, hd, ha⟩ := bind_ok.1 h
  obtain ⟨q₁, hw₁⟩ := Acts.window (rxDispatch_acts
    (d := ((rxParse c.prm.verifyChecksum).val bc).segment?) hst hs hd).1 hw
  have hc₁ : c₁.StaysClosed := by
    generalize (rxParse c.prm.verifyChecksum).val bc = rx at hd
    cases rx with
    | tooShort | badHeader | badChecksum | badSyn =>
      obtain ⟨rfl, rfl⟩ := Prod.mk.inj (Except.ok.inj hd)
      exact staysClosed_of_nil hc
    | syn seg y =>
      obtain ⟨⟨b, c₂⟩, hsyn, hd⟩ := bind_ok.1 hd
      obtain ⟨rfl, rfl⟩ := Prod.mk.inj (Except.ok.inj hd)
      exact handleSYN_staysClosed hc hsyn
    | oth seg =>
      obtain ⟨⟨b, c₂⟩, hoth, hd⟩ := bind_ok.1 hd
      obtain ⟨rfl, rfl⟩ := Prod.mk.inj (Except.ok.inj hd)
      exact handleOTH_staysClosed hc hoth
  cases o with
  | none =>
    obtain rfl := Except.ok.inj ha
    exact hc₁
  | some seg => exact (rxAccepted_settles hw₁.holds ha).staysClosed hc₁

/-- The shared part of a handler closes the connection only upon a segment that ends it. -/
theorem rxBase_late_closes {bc : RxBuf} {clk : Clock} (hq : c.snd.unAckedSegs.Holds q)
    (hs : s.early = false) (hc : c.changes = []) (h : c.rxBase s bc clk = .ok c') :
    (.CLOSED ∉ c'.changes ∧
      ∀ seg, ((rxParse c.prm.verifyChecksum).val bc).segment? = some seg → ¬c.Closes seg) ∨
    ∃ seg, ((rxParse c.prm.verifyChecksum).val bc).segment? = some seg ∧ c.Closes seg ∧
      .CLOSED ∈ c'.changes ∧ c'.snd.peerOssMX = c.snd.peerOssMX ∧
      c'.snd.unAckedSegs.getSize = c.left seg + (s.isOpen && c.sendsAlong seg).toNat := by
  rcases rxBase_admits hs h with ⟨rfl, hno⟩ | ⟨seg, c₁, hseg, hadm, hsyn, ha⟩
  · refine .inl ⟨?_, fun seg hseg hcl ↦ ?_⟩
    · rw [hc]
      exact List.not_mem_nil
    · obtain ⟨c₁, hadm⟩ := Admits.iff.2 (admitted_of_closes hcl)
      exact hno seg hseg c₁ hadm
  · have hsame : c₁.snd = c.snd ∧ c₁.left seg = c.left seg ∧ c₁.resends seg = c.resends seg ∧
        c₁.givesUp seg = c.givesUp seg := by
      cases hadm <;> exact ⟨rfl, rfl, rfl, rfl⟩
    obtain ⟨hsnd, hleft, hresends, hgives⟩ := hsame
    rw [← hsnd] at hq
    have hset := rxAccepted_settles hq ha
    have hwin := hset.window
    have hsize := hset.size
    rw [hsnd] at hwin
    rw [hleft] at hsize
    have hother : c₁.changes = [] → seg.resets = false → (.CLOSED ∉ c'.changes ∧
        ∀ seg, ((rxParse c.prm.verifyChecksum).val bc).segment? = some seg → ¬c.Closes seg) ∨
        ∃ seg, ((rxParse c.prm.verifyChecksum).val bc).segment? = some seg ∧ c.Closes seg ∧
          .CLOSED ∈ c'.changes ∧ c'.snd.peerOssMX = c.snd.peerOssMX ∧
          c'.snd.unAckedSegs.getSize = c.left seg + (s.isOpen && c.sendsAlong seg).toNat := by
      intro hnil hres
      have hchg := hset.changes
      rw [hgives, hnil, List.nil_append] at hchg
      cases hg : c.givesUp seg with
      | false =>
        rw [hg, if_neg Bool.false_ne_true] at hchg
        refine .inl ⟨by rw [hchg]; exact List.not_mem_nil, fun seg' hseg' hcl ↦ ?_⟩
        rw [hseg] at hseg'
        obtain rfl := Option.some.inj hseg'
        rcases hcl with hcl | ⟨-, hcl⟩
        · rw [hres] at hcl
          cases hcl
        · rw [hg] at hcl
          cases hcl
      | true =>
        rw [hg, if_pos rfl] at hchg
        have hre := resends_of_givesUp hg
        refine .inr ⟨seg, hseg, .inr ⟨Admits.iff.1 ⟨c₁, hadm⟩, hg⟩, ?_, hwin, ?_⟩
        · rw [hchg]
          exact List.mem_singleton_self _
        · rw [hsize, sendsAlong_of_resends hre, sendsAlong_of_resends (hresends.trans hre)]
    cases hadm with
    | syn hflag => exact hother hc (by unfold Segment.resets; rw [hflag]; rfl)
    | ack _ hack => exact hother hc (by unfold Segment.resets; rw [hack, Bool.not_true, Bool.and_false]; rfl)
    | nul _ hnul => exact hother hc (by unfold Segment.resets; rw [hnul, Bool.not_true, Bool.and_false]; rfl)
    | dat _ _ hrst => exact hother hc (by unfold Segment.resets; rw [hrst, Bool.and_false])
    | rst hack hnul hrst =>
      have hnosyn : hasFlag seg.flags FLG_SYN = false := by
        refine Bool.eq_false_of_not_eq_true fun hflag ↦ ?_
        have hch : c.changes ++ [.CLOSED] = c.changes := congrArg CRssi.changes (hsyn hflag)
        rw [List.append_right_eq_self] at hch
        cases hch
      refine .inr ⟨seg, hseg, .inl ?_, ?_, hwin, hsize⟩
      · unfold Segment.resets
        rw [hnosyn, hack, hnul, hrst]
        rfl
      · rw [hset.changes]
        have hmem : STATE.CLOSED ∈ ({ c with rst := true }.changeState .CLOSED).changes :=
          List.mem_append_right _ (List.mem_singleton_self _)
        split_ifs
        · exact List.mem_append_left _ hmem
        · exact hmem

/-- A handler that only adds another state reopens a connection that is closed. -/
theorem staysClosed_changeState (hs : s ≠ .CLOSED) :
    (c.changeState s).StaysClosed ↔ .CLOSED ∉ c.changes := by
  have hch : (c.changeState s).changes = c.changes ++ [s] := rfl
  unfold StaysClosed
  rw [hch, List.mem_append, List.mem_singleton]
  constructor
  · exact fun h hmem ↦ hs (h (.inl hmem))
  · rintro hno (hmem | hmem)
    · exact absurd hmem hno
    · exact absurd hmem.symm hs

theorem handleRxEvent_final {bc : RxBuf} {clk : Clock} (hw : Window c.toCore q)
    (hc : c.changes = []) (h : c.handleRxEvent bc clk = .ok c') :
    c'.StaysClosed ↔ ¬c.Reopens (.rx bc clk) := by
  have hbase : ∀ {s c₁}, c.state = s → s ≠ .CLOSED → c.rxBase s bc clk = .ok c₁ → c₁.StaysClosed :=
    fun hst hs h ↦ rxBase_staysClosed hw hst hs hc h
  unfold handleRxEvent at h
  split at h
  · cases h
  · rename_i hst
    obtain ⟨c₁, h₁, h⟩ := bind_ok.1 h
    obtain rfl := Except.ok.inj h
    have hone := hbase hst nofun h₁
    have hprep : ((c₁.resetReopenDelay.changeState .PREP_OPEN).armTimer .NUL
        (clk.now + c₁.prm.nulTO)).StaysClosed ↔ .CLOSED ∉ c₁.changes :=
      @staysClosed_changeState c₁.resetReopenDelay .PREP_OPEN nofun
    rcases rxBase_late_closes hw.holds rfl hc h₁ with ⟨hno, hnever⟩ | ⟨seg, hseg, hcl, hmem, -, hsize⟩
    · refine iff_of_true ?_ ?_
      · split_ifs
        · exact hprep.2 hno
        · exact hone
      · rintro ⟨seg, hseg, ⟨-, hres, -⟩ | ⟨hst', -⟩⟩
        · exact hnever seg hseg (.inl hres)
        · rw [hst] at hst'
          cases hst'
    · have hleft : c₁.snd.unAckedSegs.getSize = c.left seg := hsize
      split_ifs with hzero
      · refine iff_of_false (fun hfin ↦ hprep.1 hfin hmem) (not_not_intro ⟨seg, hseg, .inl ⟨hst, ?_, ?_⟩⟩)
        · rcases hcl with hres | ⟨-, hgives⟩
          · exact hres
          · have hpos := left_pos_of_resends (resends_of_givesUp hgives)
            omega
        · omega
      · refine iff_of_true hone ?_
        rintro ⟨seg', hseg', ⟨-, -, hnone⟩ | ⟨hst', -⟩⟩
        · obtain rfl := Option.some.inj (hseg.symm.trans hseg')
          omega
        · rw [hst] at hst'
          cases hst'
  · rename_i hst
    obtain ⟨c₁, h₁, h⟩ := bind_ok.1 h
    obtain rfl := Except.ok.inj h
    have hone := hbase hst nofun h₁
    have hopen : ({ c₁ with usrIEH := true }.changeState .OPEN).StaysClosed ↔ .CLOSED ∉ c₁.changes :=
      @staysClosed_changeState { c₁ with usrIEH := true } .OPEN nofun
    rcases rxBase_late_closes hw.holds rfl hc h₁ with ⟨hno, hnever⟩ | ⟨seg, hseg, hcl, hmem, hwin, hsize⟩
    · refine iff_of_true ?_ ?_
      · split_ifs
        · exact hopen.2 hno
        · exact hone
      · rintro ⟨seg, hseg, ⟨hst', -⟩ | ⟨-, hcl, -⟩⟩
        · rw [hst] at hst'
          cases hst'
        · exact hnever seg hseg hcl
    · have hafter : c₁.snd.unAckedSegs.getSize = c.leftAfter seg := hsize
      rw [hafter, hwin]
      split_ifs with hroom
      · exact iff_of_false (fun hfin ↦ hopen.1 hfin hmem)
          (not_not_intro ⟨seg, hseg, .inr ⟨hst, hcl, hroom⟩⟩)
      · refine iff_of_true hone ?_
        rintro ⟨seg', hseg', ⟨hst', -⟩ | ⟨-, -, hroom'⟩⟩
        · rw [hst] at hst'
          cases hst'
        · obtain rfl := Option.some.inj (hseg.symm.trans hseg')
          exact hroom hroom'
  · rename_i hcl hserv hfull
    refine iff_of_true (hbase rfl hcl h) ?_
    rintro ⟨seg, -, ⟨hst, -⟩ | ⟨hst, -⟩⟩
    · exact hserv hst
    · exact hfull hst

theorem processRetransmissionTimeout_staysClosed (hq : c.snd.unAckedSegs.Holds q)
    (hc : c.changes = []) (h : c.processRetransmissionTimeout now = .ok c') : c'.StaysClosed := by
  have hchg := processRetransmissionTimeout_changes hq h
  split_ifs at hchg
  · exact fun _ ↦ hchg.2
  · exact staysClosed_of_nil (hchg.1.trans hc)

theorem processNulTimeout_staysClosed (hc : c.changes = []) (h : c.processNulTimeout now = .ok c') :
    c'.StaysClosed := by
  obtain ⟨-, ⟨c₁, -, rfl⟩ | ⟨-, sent, c₁, h₁, rfl⟩⟩ := processNulTimeout_ok h
  · exact fun _ ↦ rfl
  · have hs := sendNUL_sends (O := fun _ ↦ True) (fun _ ↦ trivial) (fun _ ↦ trivial) h₁
    split_ifs
    · exact staysClosed_of_nil (hs.changes.trans hc)
    · exact @staysClosed_of_ne { c₁ with usrIEH := false } _ (hs.changes.trans hc) nofun

theorem processTimer_staysClosed {t : RssiTimer} (hq : c.snd.unAckedSegs.Holds q)
    (hc : c.changes = []) (h : c.processTimer now t = .ok c') : c'.StaysClosed := by
  cases t with
  | REX =>
    obtain ⟨-, h⟩ := processRexTimeout_ok h
    exact processRetransmissionTimeout_staysClosed hq hc h
  | ACK =>
    obtain ⟨-, h⟩ := processAckTimeout_ok h
    have hs := sendDatOrAck_sends (O := fun _ ↦ True) (fun _ _ ↦ trivial) h
    exact staysClosed_of_nil (hs.changes.trans hc)
  | NUL => exact processNulTimeout_staysClosed hc h

end CRssi

/-- A datagram has come, or a timer has expired. -/
def Event.isInput : Event → Bool
  | .rx _ _ | .expiry _ => true
  | _ => false

/-- A connection that is closed while a datagram or a timer is handled stays closed, unless the
handler of `SERV_WAIT_SYN_ACK` or `OPEN_OUTWIN_FULL` reopens it. -/
theorem close_final_iff (hr : Reachable c) (hev : ev.isInput = true) (h : c.handle ev = .ok c') :
    c'.StaysClosed ↔ ¬c.Reopens ev := by
  obtain ⟨q, hw⟩ := hr.window
  cases ev with
  | rx bc clk =>
    replace h := CRssi.wait_bind_ok h
    exact CRssi.handleRxEvent_final (c := c.clearChanges) hw rfl h
  | expiry clk =>
    replace h := CRssi.wait_bind_ok h
    refine iff_of_true ?_ ?_
    · split at h
      · obtain rfl := Except.ok.inj h
        exact CRssi.staysClosed_of_nil rfl
      · exact @CRssi.processTimer_staysClosed (CRssi.cancelTimer _ c.clearChanges) _ _ _ _ hw.holds rfl h
    · rintro ⟨seg, hseg, -⟩
      cases hseg
  | advance | usrInput | usrOutput | push | pop => cases hev

/-- The user of a server fills the window of two segments. -/
def fullRun : List Event :=
  serverOpens ++ [.push ⟨8, [1]⟩, .push ⟨8, [2]⟩, .usrInput ⟨4, 7⟩]

/-- An RST that acknowledges the first of them. -/
def resetEvent : Event := .rx (datagram [80, 8, 8, 249, 0, 0, 0, 0]) ⟨5, 7⟩

theorem reopened : ∃ c c', Reachable c ∧ resetEvent.enabled c = true ∧ c.handle resetEvent = .ok c' ∧
    c'.changes = [.CLOSED, .OPEN] ∧ c'.state = .OPEN := by
  have hrun : ((CRssi.new (smallConfig true) zeroJunk).runs fullRun).map (fun c ↦
      (resetEvent.enabled c, (c.handle resetEvent).toOption.map fun c' ↦ (c'.changes, c'.state))) =
      some (true, some ([.CLOSED, .OPEN], .OPEN)) := by rfl
  obtain ⟨c, hc, hf⟩ := reachable_of_runs hrun
  obtain ⟨hen, hh⟩ := Prod.mk.inj hf
  obtain ⟨c', hc', hf⟩ := Option.map_eq_some_iff.1 hh
  obtain ⟨hch, hst⟩ := Prod.mk.inj hf
  exact ⟨c, c', hc, hen, toOption_eq_some.1 hc', hch, hst⟩

theorem close_final_iff_reset : ∃ c c', Reachable c ∧ c.handle resetEvent = .ok c' ∧
    (c'.StaysClosed ↔ ¬c.Reopens resetEvent) := by
  obtain ⟨c, c', hc, -, hh, -⟩ := reopened
  exact ⟨c, c', hc, hh, close_final_iff hc rfl hh⟩

theorem not_close_final : ¬∀ c ev c', Reachable c → ev.isInput = true → ev.enabled c = true →
    c.handle ev = .ok c' → c'.StaysClosed := by
  intro h
  obtain ⟨c, c', hc, hen, hh, hch, hst⟩ := reopened
  have hclosed := h c _ c' hc rfl hen hh (by rw [hch]; exact List.mem_cons_self)
  rw [hst] at hclosed
  cases hclosed

end Cpsw.Rssi
