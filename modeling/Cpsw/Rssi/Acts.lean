import Cpsw.Rssi.Handlers
import Cpsw.Rssi.Segment

namespace Cpsw.Rssi

open Cpsw.Lib.Run

def STATE.early : STATE → Bool
  | .LISTEN | .CLNT_WAIT_SYN_ACK => true
  | _ => false

/-- The states between the SYN of a peer and the end of the connection. -/
def STATE.begun : STATE → Bool
  | .CLOSED | .LISTEN => false
  | _ => true

/-- In-order segments leave the reassembly buffer, and the last one becomes the number to ACK. -/
inductive Drains : Receiver → Receiver → Prop
  | done (r : Receiver) : Drains r { r with lastSeqRecv := r.unOrderedSegs.getLastInOrder }
  | take {r r' : Receiver} {s : Segment} :
      r.unOrderedSegs.peek = some s → Drains (r.take s) r' → Drains r r'

namespace Core

def pop (p : Bytes) (k : Core) : Core :=
  { k with snd := { k.snd with popped := k.snd.popped ++ [p] } }

/-- A segment with a number of its own goes out, and waits to be acknowledged. -/
def send (busy : Bool) (b : Bytes) (ring : RingBuf Bytes) (k : Core) : Core :=
  ((k.record b).emit (k.stamp busy b)).keep ring

def reset (k : Core) : Core := { k.bumpSeqSent with rst := true }

/-- The connection has begun, or an RST is ending it. -/
def Live (k : Core) : Prop := k.rst = true ∨ k.state.begun = true

/-- The handshake lies behind. -/
def Active (k : Core) : Prop := k.state.early = false ∧ k.Live

theorem active_of_state {k : Core} (h₁ : k.state ≠ .CLOSED) (h₂ : k.state ≠ .LISTEN)
    (h₃ : k.state ≠ .CLNT_WAIT_SYN_ACK) : k.Active := by
  unfold Active Live
  cases hs : k.state <;> first | contradiction | exact ⟨rfl, .inr rfl⟩

theorem live_of_isOpen {k : Core} (h : k.state.isOpen = true) : k.Live := by
  cases hs : k.state <;> rw [hs] at h <;> first | contradiction | exact .inr (by rw [hs]; rfl)

theorem active_of_isOpen {k : Core} (h : k.state.isOpen = true) : k.Active := by
  refine active_of_state ?_ ?_ ?_ <;> intro hs <;> rw [hs] at h <;> contradiction

end Core

/-- The connection is closed for good and the next one begins. -/
inductive Opens : Core → Core → Prop
  | listen {k : Core} : k.state = .CLOSED → k.cfg.isServer = true →
      Opens k { k.close with state := .LISTEN }
  | connect {k : Core} (busy : Bool) (seqNo : SeqNo) (b : Bytes) (conID : UInt32)
      (ring : RingBuf Bytes) : k.state = .CLOSED → k.cfg.isServer = false →
      b = k.close.synHeader false seqNo conID →
      (k.close.seedSeqSent seqNo).snd.unAckedSegs.push
        (some ((k.close.seedSeqSent seqNo).stamp busy b)) = .ok ring →
      Opens k { (k.close.seedSeqSent seqNo).send busy b ring with state := .CLNT_WAIT_SYN_ACK }

theorem Opens.closed {k k' : Core} (h : Opens k k') : k.state = .CLOSED := by
  cases h <;> assumption

/-- What can happen to the core of a peer while it handles the segment `d`, if any. -/
inductive Act (d : Option Segment) : Core → Core → Prop
  | state {k : Core} (s : STATE) : k.Live → s.early = false → s.begun = true ∨ k.rst = true →
      Act d k { k with state := s }
  | rst {k : Core} : Act d k { k with rst := true }
  | acked {k : Core} (seg : Segment) : d = some seg → hasFlag seg.flags FLG_ACK = true →
      Act d k (k.acknowledge seg.ackNo)
  | sendACK {k : Core} (busy : Bool) : k.Live →
      Act d k (k.emit (k.stamp busy (RssiHeader.set FLG_ACK (k.snd.lastSeqSent + 1))))
  | sendRST {k : Core} (busy : Bool) :
      Act d k (k.reset.emit (k.reset.stamp busy
        (RssiHeader.set (FLG_ACK ||| FLG_RST) k.reset.snd.lastSeqSent)))
  | sendDAT {k : Core} (busy : Bool) (p : Bytes) (ring : RingBuf Bytes) :
      k.Active → k.snd.unAckedSegs.getSize < k.snd.peerOssMX →
      p.length ≤ k.prm.peerSgsMX →
      k.snd.unAckedSegs.push (some (k.stamp busy
        (RssiHeader.set FLG_ACK (k.snd.lastSeqSent + 1) ++ p))) = .ok ring →
      Act d k ((k.pop p).bumpSeqSent.send busy
        (RssiHeader.set FLG_ACK (k.snd.lastSeqSent + 1) ++ p) ring)
  | sendNUL {k : Core} (busy : Bool) (ring : RingBuf Bytes) :
      k.Active → k.snd.unAckedSegs.getSize < k.snd.peerOssMX →
      k.snd.unAckedSegs.push (some (k.stamp busy
        (RssiHeader.set (FLG_ACK ||| FLG_NUL) (k.snd.lastSeqSent + 1)))) = .ok ring →
      Act d k (k.bumpSeqSent.send busy
        (RssiHeader.set (FLG_ACK ||| FLG_NUL) (k.snd.lastSeqSent + 1)) ring)
  | resend {k : Core} (busy : Bool) (i : ℕ) (b : Bytes) : i < k.snd.unAckedSegs.getSize →
      k.snd.unAckedSegs.deref (k.snd.unAckedSegs.iter i) = some b →
      Act d k ((k.emit (k.stamp busy b)).restamp i (k.stamp busy b))
  | store {k : Core} (seg : Segment) (ro : ReassembleBuf Segment) : d = some seg →
      k.Active → seg.Storable →
      k.rcv.unOrderedSegs.canAccept seg.seqNo = true →
      k.rcv.unOrderedSegs.store seg.seqNo seg = .ok ro →
      Act d k { k with rcv := { k.rcv with unOrderedSegs := ro } }
  | drain {k : Core} (r : Receiver) : k.Active → Drains k.rcv r →
      Act d k { k with rcv := r }
  | params {k k' : Core} (h : RssiSynHeader) (a : Bool) : k.state.early = true →
      (a = true → k.state = .CLNT_WAIT_SYN_ACK) →
      k.extractConnectionParams h a = .ok k' → Act d k k'
  | acceptSyn {k : Core} (seqNo : SeqNo) : k.state.early = true → Act d k (k.acceptSyn seqNo)
  | sendSynAck {k : Core} (busy : Bool) (seqNo : SeqNo) (b : Bytes) (conID : UInt32)
      (ring : RingBuf Bytes) : k.state = .LISTEN → b = k.synHeader true seqNo conID →
      (k.seedSeqSent seqNo).snd.unAckedSegs.push
        (some ((k.seedSeqSent seqNo).stamp busy b)) = .ok ring →
      Act d k { (k.seedSeqSent seqNo).send busy b ring with state := .SERV_WAIT_SYN_ACK }

abbrev Acts (d : Option Segment) : Core → Core → Prop := Relation.ReflTransGen (Act d)

theorem length_set (flags : UInt8) (s : SeqNo) : (RssiHeader.set flags s).length = 8 := rfl

theorem getHSize_set (flags : UInt8) (s : SeqNo) (p : Bytes) :
    getHSize (RssiHeader.set flags s ++ p) = 8 := rfl

theorem extractWindow_ok {k k' : Core} {y : RssiSynHeader} (h : k.extractWindow y = .ok k') :
    ∃ ring, k.snd.unAckedSegs.fit y.ossMX.toNat = .ok ring ∧
      k' = { k with
        snd := { k.snd with unAckedSegs := ring, peerOssMX := y.ossMX.toNat }
        prm := { k.prm with peerSgsMX := y.sgsMX } } := by
  obtain ⟨ring, hr, h⟩ := bind_ok.1 h
  exact ⟨ring, hr, (Except.ok.inj h).symm⟩

/-- Negotiation changes nothing but the window, the ring and the parameters. -/
theorem params_ok {k k' : Core} {y : RssiSynHeader} {a : Bool}
    (h : k.extractConnectionParams y a = .ok k') :
    ∃ ring prm, k.snd.unAckedSegs.fit y.ossMX.toNat = .ok ring ∧
      prm.peerSgsMX = y.sgsMX ∧
      k' = { k with
        snd := { k.snd with unAckedSegs := ring, peerOssMX := y.ossMX.toNat }, prm := prm } := by
  obtain ⟨k₁, h₁, h⟩ := bind_ok.1 h
  obtain ⟨ring, hr, rfl⟩ := extractWindow_ok h₁
  split_ifs at h
  · unfold Core.negotiate at h
    split_ifs at h
    obtain rfl := Except.ok.inj h
    exact ⟨ring, _, hr, rfl, rfl⟩
  · obtain rfl := Except.ok.inj h
    exact ⟨ring, _, hr, rfl, rfl⟩

theorem params_state {k k' : Core} {y : RssiSynHeader} {a : Bool}
    (h : k.extractConnectionParams y a = .ok k') : k'.state = k.state := by
  obtain ⟨ring, prm, -, -, rfl⟩ := params_ok h
  rfl

theorem Act.live {d : Option Segment} {k k' : Core} (hl : k.Live) (h : Act d k k') : k'.Live := by
  cases h with
  | state s _ _ hs => exact hs.symm
  | rst => exact .inl rfl
  | sendRST => exact .inl rfl
  | params y a _ _ hp =>
    obtain ⟨ring, prm, -, -, rfl⟩ := params_ok hp
    exact hl
  | sendSynAck => exact .inr rfl
  | acked | sendACK | sendDAT | sendNUL | resend | store | drain | acceptSyn => exact hl

theorem Acts.live {d : Option Segment} {k k' : Core} (h : Acts d k k') (hl : k.Live) : k'.Live :=
  @invariant Core (Act d) Core.Live (fun _ _ hk ha ↦ ha.live hk) _ _ h hl

namespace CRssi

variable {c c' : CRssi} {d : Option Segment}

/-- `sendBuf`, where the size check passes. -/
def sent (b : Bytes) (c : CRssi) : CRssi :=
  { c with toCore := c.toCore.emit (c.toCore.stamp c.outQ.isFull b), numCak := 0,
           timers := c.timers.cancel .ACK }

theorem sendBuf_ok {b b' : Bytes} (h : c.sendBuf b = .ok (b', c')) :
    b.length ≤ c.prm.peerSgsMX + getHSize b ∧ b' = c.toCore.stamp c.outQ.isFull b ∧
      c' = c.sent b := by
  unfold sendBuf at h
  split_ifs at h with hlen
  obtain ⟨rfl, rfl⟩ := Prod.mk.inj (Except.ok.inj h)
  exact ⟨by omega, rfl, rfl⟩

theorem sendBuf_header (flags : UInt8) (s : SeqNo) :
    c.sendBuf (RssiHeader.set flags s) =
      .ok (c.toCore.stamp c.outQ.isFull (RssiHeader.set flags s), c.sent (RssiHeader.set flags s)) := by
  unfold sendBuf
  rw [if_neg]
  · rfl
  · have hs : getHSize (RssiHeader.set flags s) = 8 := rfl
    rw [length_set, hs]
    omega

theorem sendACK_eq : c.sendACK = .ok (c.sent (RssiHeader.set FLG_ACK (c.snd.lastSeqSent + 1))) := by
  unfold sendACK
  rw [sendBuf_header]
  rfl

def resetting (c : CRssi) : CRssi := { c with toCore := c.toCore.reset }

theorem sendRST_eq : c.sendRST = .ok (c.resetting.sent
    (RssiHeader.set (FLG_ACK ||| FLG_RST) c.resetting.snd.lastSeqSent)) := by
  unfold sendRST
  simp only [sendBuf_header]
  rfl

@[simp] theorem toCore_armTimer (t : RssiTimer) (e : ℕ) : (c.armTimer t e).toCore = c.toCore := rfl

@[simp] theorem toCore_armRexAndNulTimer (now : ℕ) :
    (c.armRexAndNulTimer now).toCore = c.toCore := by
  unfold armRexAndNulTimer
  dsimp only
  split_ifs <;> rfl

theorem sendBufAndKeepForRetransmission_ok {b : Bytes} {now : ℕ}
    (h : c.sendBufAndKeepForRetransmission b now = .ok c') :
    b.length ≤ c.prm.peerSgsMX + getHSize b ∧
      ∃ ring, c.snd.unAckedSegs.push (some (c.toCore.stamp c.outQ.isFull b)) = .ok ring ∧
        c' = armRexAndNulTimer now
          { c with toCore := c.toCore.send c.outQ.isFull b ring, numCak := 0,
                   timers := c.timers.cancel .ACK } := by
  unfold sendBufAndKeepForRetransmission at h
  obtain ⟨⟨b', c₁⟩, hb, h⟩ := bind_ok.1 h
  obtain ⟨hlen, rfl, rfl⟩ := sendBuf_ok hb
  obtain ⟨ring, hr, h⟩ := bind_ok.1 h
  exact ⟨hlen, ring, hr, (Except.ok.inj h).symm⟩

theorem sendACK_acts (h : c.sendACK = .ok c') (hl : c.Live) : Act d c.toCore c'.toCore := by
  rw [sendACK_eq] at h
  obtain rfl := Except.ok.inj h
  exact .sendACK _ hl

theorem sendRST_acts (h : c.sendRST = .ok c') : Act d c.toCore c'.toCore := by
  rw [sendRST_eq] at h
  obtain rfl := Except.ok.inj h
  exact .sendRST _

theorem sendRST_rst (h : c.sendRST = .ok c') : c'.rst = true := by
  rw [sendRST_eq] at h
  obtain rfl := Except.ok.inj h
  rfl

/-- The RST and the change to `CLOSED` that always follows it. -/
theorem sendRST_close_acts (h : c.sendRST = .ok c') :
    Acts d c.toCore (c'.changeState .CLOSED).toCore :=
  .tail (.single (sendRST_acts h))
    (.state .CLOSED (.inl (sendRST_rst h)) rfl (.inr (sendRST_rst h)))

theorem toCore_processAckNumber (flags : UInt8) (ackNo : SeqNo) :
    (c.processAckNumber flags ackNo).toCore =
      if hasFlag flags FLG_ACK then c.toCore.acknowledge ackNo else c.toCore := by
  unfold processAckNumber
  dsimp only
  split_ifs <;> rfl

theorem processAckNumber_acts (seg : Segment) :
    Acts (some seg) c.toCore (c.processAckNumber seg.flags seg.ackNo).toCore := by
  rw [toCore_processAckNumber]
  split_ifs with hf
  · exact .single (.acked seg rfl hf)
  · exact .refl

theorem rexLoop_acts {n i : ℕ} (h : rexLoop n i c = .ok c') (hn : i + n = c.snd.unAckedSegs.getSize) :
    Acts d c.toCore c'.toCore := by
  induction n generalizing c i with
  | zero =>
    obtain rfl := Except.ok.inj h
    exact .refl
  | succ n ih =>
    unfold rexLoop at h
    cases hb : c.snd.unAckedSegs.deref (c.snd.unAckedSegs.iter i) with
    | none =>
      rw [hb] at h
      obtain rfl := Except.ok.inj h
      exact .refl
    | some b =>
      rw [hb] at h
      obtain ⟨⟨b', c₁⟩, hs, h⟩ := bind_ok.1 h
      obtain ⟨-, rfl, rfl⟩ := sendBuf_ok hs
      refine .head (.resend c.outQ.isFull i b (by omega) hb) (ih h ?_)
      change i + 1 + n = c.snd.unAckedSegs.getSize
      omega

theorem processRetransmissionTimeout_acts {now : ℕ}
    (h : c.processRetransmissionTimeout now = .ok c') : Acts d c.toCore c'.toCore := by
  unfold processRetransmissionTimeout at h
  dsimp only at h
  split_ifs at h
  · obtain ⟨c₁, h₁, h⟩ := bind_ok.1 h
    obtain rfl := Except.ok.inj h
    exact @sendRST_close_acts { c with numRex := c.numRex + 1 } _ _ h₁
  · split at h
    · obtain rfl := Except.ok.inj h
      exact .refl
    · obtain ⟨c₁, h₁, h⟩ := bind_ok.1 h
      obtain rfl := Except.ok.inj h
      rw [toCore_armRexAndNulTimer]
      exact @rexLoop_acts { c with numRex := c.numRex + 1 } _ _ _ _ h₁ (Nat.zero_add _)

theorem popUsr_none {c' : CRssi} (h : c.popUsr = (none, c')) : c' = c := by
  unfold popUsr at h
  split at h
  · exact (Prod.mk.inj h).2.symm
  · cases h

theorem popUsr_some {b : UsrBuf} (h : c.popUsr = (some b, c')) :
    ∃ q, c.inpQ.tryPop = (some b, q) ∧
      c' = { c with toCore := c.toCore.pop b.payload, inpQ := q } := by
  unfold popUsr at h
  split at h
  · cases h
  · rename_i b' q hq
    obtain ⟨hb, rfl⟩ := Prod.mk.inj h
    obtain rfl := Option.some.inj hb
    exact ⟨q, hq, rfl⟩

theorem sendDAT_ok {b : UsrBuf} {now : ℕ} (h : c.sendDAT b now = .ok c') :
    8 ≤ b.headroom ∧ b.payload.length ≤ c.prm.peerSgsMX ∧
      ∃ ring, c.snd.unAckedSegs.push (some (c.toCore.stamp c.outQ.isFull
          (RssiHeader.set FLG_ACK (c.snd.lastSeqSent + 1) ++ b.payload))) = .ok ring ∧
        c' = armRexAndNulTimer now { c with
          toCore := c.toCore.bumpSeqSent.send c.outQ.isFull
            (RssiHeader.set FLG_ACK (c.snd.lastSeqSent + 1) ++ b.payload) ring
          numCak := 0, timers := c.timers.cancel .ACK } := by
  unfold sendDAT at h
  split_ifs at h with hr
  obtain ⟨hlen, ring, hp, rfl⟩ := sendBufAndKeepForRetransmission_ok h
  rw [List.length_append, length_set, getHSize_set] at hlen
  change 8 + b.payload.length ≤ c.prm.peerSgsMX + 8 at hlen
  exact ⟨by omega, by omega, ring, hp, rfl⟩

/-- A buffer that the user queued is taken and sent at once. -/
theorem sendUsr_acts {b : UsrBuf} {now : ℕ} {c₁ : CRssi} (he : c.Active)
    (hw : c.snd.unAckedSegs.getSize < c.snd.peerOssMX) (hp : c.popUsr = (some b, c₁))
    (h : c₁.sendDAT b now = .ok c') : Act d c.toCore c'.toCore := by
  obtain ⟨q, -, rfl⟩ := popUsr_some hp
  obtain ⟨-, hlen, ring, hr, rfl⟩ := sendDAT_ok h
  rw [toCore_armRexAndNulTimer]
  exact .sendDAT _ b.payload ring he hw hlen hr

theorem hasBufToSend_none {s : STATE} (h : c.hasBufToSend s = (none, c')) : c' = c := by
  unfold hasBufToSend at h
  split at h
  · split_ifs at h
    · exact popUsr_none h
    · exact (Prod.mk.inj h).2.symm
  · split_ifs at h
    · exact popUsr_none h
    · exact (Prod.mk.inj h).2.symm
  · exact (Prod.mk.inj h).2.symm

theorem hasBufToSend_some {s : STATE} {b : UsrBuf} (h : c.hasBufToSend s = (some b, c')) :
    s.isOpen = true ∧ c.snd.unAckedSegs.getSize < c.snd.peerOssMX ∧
      c.popUsr = (some b, c') := by
  unfold hasBufToSend at h
  split at h
  · split_ifs at h with hw
    · exact ⟨rfl, hw, h⟩
    · cases h
  · split_ifs at h with hw
    · exact ⟨rfl, hw, h⟩
    · cases h
  · cases h

theorem sendDatOrAck_acts {s : STATE} {now : ℕ} (h : c.sendDatOrAck s now = .ok c')
    (hl : c.Live) (he : s.isOpen = true → c.Active) : Act d c.toCore c'.toCore := by
  unfold sendDatOrAck at h
  split at h
  · rename_i b c₁ hb
    obtain ⟨ho, hw, hp⟩ := hasBufToSend_some hb
    exact sendUsr_acts (he ho) hw hp h
  · rename_i c₁ hb
    obtain rfl := hasBufToSend_none hb
    exact sendACK_acts h hl

theorem drainLoop_drains {n : ℕ} (h : drainLoop n c = .ok c') :
    ∃ q e, c' = { c with rcv := c'.rcv, outQ := q, usrOEH := e } ∧
      Drains c.rcv { c'.rcv with lastSeqRecv := c'.rcv.unOrderedSegs.getLastInOrder } := by
  induction n generalizing c with
  | zero =>
    obtain rfl := Except.ok.inj h
    exact ⟨_, _, rfl, .done _⟩
  | succ n ih =>
    unfold drainLoop at h
    split at h
    · obtain rfl := Except.ok.inj h
      exact ⟨_, _, rfl, .done _⟩
    · rename_i s hs
      split_ifs at h
      · obtain ⟨q, e, hc, hd⟩ := ih h
        exact ⟨q, e, hc, .take hs hd⟩
      · obtain rfl := Except.ok.inj h
        exact ⟨_, _, rfl, .done _⟩
      · split at h
        · cases h
        · obtain ⟨q, e, hc, hd⟩ := ih h
          exact ⟨q, e, hc, .take hs hd⟩

theorem drainReassembleBuffer_ok {s : STATE} (h : c.drainReassembleBuffer s = .ok c') :
    (s.isOpen = false ∧ c' = c) ∨ (s.isOpen = true ∧ ∃ q e r, Drains c.rcv r ∧
      c' = { c with rcv := r, outQ := q, usrOEH := e }) := by
  have key : ∀ c', (do
      let c ← drainLoop c.rcv.unOrderedSegs.capa c
      pure { c with rcv := { c.rcv with lastSeqRecv := c.rcv.unOrderedSegs.getLastInOrder } } :
        Except CPSWError CRssi) = .ok c' →
      ∃ q e r, Drains c.rcv r ∧ c' = { c with rcv := r, outQ := q, usrOEH := e } := by
    intro c' h
    obtain ⟨c₁, h₁, h⟩ := bind_ok.1 h
    obtain ⟨q, e, hc, hd⟩ := drainLoop_drains h₁
    obtain rfl := Except.ok.inj h
    refine ⟨q, e, _, hd, ?_⟩
    rw [hc]
  unfold drainReassembleBuffer at h
  split at h
  · exact .inr ⟨rfl, key c' h⟩
  · exact .inr ⟨rfl, key c' h⟩
  · obtain rfl := Except.ok.inj h
    refine .inl ⟨?_, rfl⟩
    cases s <;> first | rfl | contradiction

/-- A handler of a state other than the current one runs only where that is harmless: the
current state is past the handshake, or the handler neither delivers nor stores. -/
def Runs (s : STATE) (seg : Segment) (c : CRssi) : Prop :=
  c.Active ∨
    c.Live ∧ s.isOpen = false ∧ c.rcv.unOrderedSegs.canAccept seg.seqNo = false

theorem Runs.live {s : STATE} {seg : Segment} (h : c.Runs s seg) : c.Live :=
  h.elim (·.2) (·.1)

theorem rxStore_acts {s : STATE} {seg : Segment} (h : c.rxStore s seg = .ok c')
    (hr : c.Runs s seg) : Acts (some seg) c.toCore c'.toCore ∧ c'.state = c.state ∧ c'.rst = c.rst := by
  unfold rxStore at h
  split_ifs at h with hcond
  · rw [Bool.and_eq_true, Bool.or_eq_true] at hcond
    rcases hr with he | ⟨-, -, hn⟩
    · obtain ⟨ro, hro, h⟩ := bind_ok.1 h
      have hs : Act (some seg) c.toCore { c.toCore with rcv := { c.rcv with unOrderedSegs := ro } } :=
        .store seg ro rfl he hcond.1 hcond.2 hro
      rcases drainReassembleBuffer_ok h with ⟨-, rfl⟩ | ⟨-, q, e, r, hd, rfl⟩
      · exact ⟨.single hs, rfl, rfl⟩
      · exact ⟨.tail (.single hs) (.drain r he hd), rfl, rfl⟩
    · rw [hn] at hcond
      exact absurd hcond.2 Bool.false_ne_true
  · obtain rfl := Except.ok.inj h
    exact ⟨.refl, rfl, rfl⟩

theorem rxAck_acts {s : STATE} {now : ℕ} (h : c.rxAck s now = .ok c')
    (hl : c.Live) (he : s.isOpen = true → c.Active) : Acts d c.toCore c'.toCore := by
  unfold rxAck at h
  split_ifs at h
  · exact .single (sendDatOrAck_acts h hl he)
  · obtain rfl := Except.ok.inj h
    exact .refl
  · obtain rfl := Except.ok.inj h
    exact .refl

theorem rxReply_acts {s : STATE} {now : ℕ} (h : c.rxReply s now = .ok c')
    (hl : c.Live) (he : s.isOpen = true → c.Active) : Acts d c.toCore c'.toCore := by
  unfold rxReply at h
  obtain ⟨c₁, h₁, h⟩ := bind_ok.1 h
  obtain rfl := Except.ok.inj h
  have hc : Acts d c.toCore c₁.toCore := @rxAck_acts { c with numCak := c.numCak + 1 } _ _ _ _ h₁ hl he
  split_ifs <;> exact hc

theorem rxBusy_acts {s : STATE} {seg : Segment} {now : ℕ} (h : c.rxBusy s seg now = .ok c')
    (hl : c.Live) (he : s.isOpen = true → c.Active) : Acts d c.toCore c'.toCore := by
  unfold rxBusy at h
  dsimp only at h
  have hcore : ∀ b : Bool, (if b = true then { c with peerBSY := hasFlag seg.flags FLG_BSY }.cancelTimer .REX
      else { c with peerBSY := hasFlag seg.flags FLG_BSY }).toCore = c.toCore := by
    intro b
    cases b <;> rfl
  rw [← hcore (hasFlag seg.flags FLG_BSY && !c.peerBSY)] at hl he ⊢
  split_ifs at h hl he ⊢ <;> first
    | exact processRetransmissionTimeout_acts h
    | exact rxReply_acts h hl he

theorem rxAccepted_acts {s : STATE} {seg : Segment} {now : ℕ}
    (h : c.rxAccepted s seg now = .ok c') (hr : c.Runs s seg) :
    Acts (some seg) c.toCore c'.toCore := by
  unfold rxAccepted at h
  obtain ⟨c₁, h₁, h⟩ := bind_ok.1 h
  have hr' : (c.processAckNumber seg.flags seg.ackNo).Runs s seg := by
    unfold Runs
    rw [toCore_processAckNumber]
    split_ifs
    · exact hr
    · exact hr
  obtain ⟨hs, hst, hrst⟩ := rxStore_acts h₁ hr'
  have hact : (c.processAckNumber seg.flags seg.ackNo).Active → c₁.Active := by
    unfold Core.Active Core.Live
    rw [hst, hrst]
    exact id
  refine ((processAckNumber_acts seg).trans hs).trans
    (rxBusy_acts h (hs.live hr'.live) fun ho ↦ ?_)
  rcases hr' with he | ⟨-, hn, -⟩
  · exact hact he
  · rw [hn] at ho
    exact absurd ho Bool.false_ne_true

theorem sendSYN_ok {doAck : Bool} {clk : Clock} (h : c.sendSYN doAck clk = .ok c') :
    ∃ seqNo ring, (c.toCore.seedSeqSent seqNo).snd.unAckedSegs.push
        (some ((c.toCore.seedSeqSent seqNo).stamp c.outQ.isFull
          (c.toCore.synHeader doAck seqNo c.conID))) = .ok ring ∧
      c' = armRexAndNulTimer clk.now { c with
        toCore := (c.toCore.seedSeqSent seqNo).send c.outQ.isFull
          (c.toCore.synHeader doAck seqNo c.conID) ring
        numCak := 0, timers := c.timers.cancel .ACK } := by
  unfold sendSYN at h
  obtain ⟨-, ring, hr, rfl⟩ := sendBufAndKeepForRetransmission_ok h
  exact ⟨_, ring, hr, rfl⟩

theorem extractConnectionParams_ok {y : RssiSynHeader} {a : Bool}
    (h : c.extractConnectionParams y a = .ok c') :
    ∃ k, c.toCore.extractConnectionParams y a = .ok k ∧ c' = { c with toCore := k } := by
  obtain ⟨k, hk, h⟩ := bind_ok.1 h
  exact ⟨k, hk, (Except.ok.inj h).symm⟩

/-- The number of a SYN lies just before the window that it opens. -/
theorem canAccept_acceptSyn (seqNo : SeqNo) (k : Core) :
    (k.acceptSyn seqNo).rcv.unOrderedSegs.canAccept seqNo = false := by
  have h : (k.acceptSyn seqNo).rcv.unOrderedSegs.off seqNo = 255 := by
    change (seqNo - (seqNo + 1)).toNat = 255
    rw [show seqNo - (seqNo + 1) = 255 by grind]
    rfl
  have hl := UInt8.toNat_lt (k.acceptSyn seqNo).rcv.unOrderedSegs.lim
  unfold ReassembleBuf.canAccept
  rw [h, decide_eq_false_iff_not]
  omega

theorem active_changeState {s : STATE} (he : s.early = false) (h : s.begun = true ∨ c.rst = true) :
    (c.changeState s).Active := ⟨he, h.symm⟩

theorem handleSYN_acts {s : STATE} {seg : Segment} {y : RssiSynHeader} {clk : Clock} {b : Bool}
    (hs : c.state = s) (hc : s ≠ .CLOSED) (h : c.handleSYN s seg y clk = .ok (b, c')) :
    Acts d c.toCore c'.toCore ∧ (b = true → c'.Runs s seg) := by
  unfold handleSYN at h
  split at h
  · obtain ⟨c₁, h₁, h⟩ := bind_ok.1 h
    obtain ⟨c₂, h₂, h⟩ := bind_ok.1 h
    obtain ⟨k, hk, rfl⟩ := extractConnectionParams_ok h₁
    obtain ⟨seqNo, ring, hr, rfl⟩ := sendSYN_ok h₂
    obtain ⟨rfl, rfl⟩ := Prod.mk.inj (Except.ok.inj h)
    have hl : k.state = .LISTEN := (params_state hk).trans hs
    refine ⟨?_, fun _ ↦ .inl (active_changeState rfl (.inl rfl))⟩
    have ha : Acts d c.toCore (k.acceptSyn seg.seqNo) :=
      .tail (.single (.params y false (by rw [hs]; rfl) nofun hk)) (.acceptSyn _ (by rw [hl]; rfl))
    refine ha.tail ?_
    change Act d _ { (armRexAndNulTimer clk.now _).toCore with state := STATE.SERV_WAIT_SYN_ACK }
    rw [toCore_armRexAndNulTimer]
    exact .sendSynAck _ seqNo _ _ ring hl rfl hr
  · obtain ⟨c₁, h₁, h⟩ := bind_ok.1 h
    obtain ⟨k, hk, rfl⟩ := extractConnectionParams_ok h₁
    have hl : k.state = .CLNT_WAIT_SYN_ACK := (params_state hk).trans hs
    have hp : Act d c.toCore k := .params y true (by rw [hs]; rfl) (fun _ ↦ hs) hk
    split_ifs at h
    · obtain ⟨c₂, h₂, h⟩ := bind_ok.1 h
      obtain ⟨rfl, rfl⟩ := Prod.mk.inj (Except.ok.inj h)
      exact ⟨.head hp (sendRST_close_acts h₂), fun hb ↦ absurd hb Bool.false_ne_true⟩
    · obtain ⟨rfl, rfl⟩ := Prod.mk.inj (Except.ok.inj h)
      have ha : Acts d c.toCore (k.acceptSyn seg.seqNo) :=
        .tail (.single hp) (.acceptSyn _ (by rw [hl]; rfl))
      have hlive : (k.acceptSyn seg.seqNo).Live := .inr (by
        change k.state.begun = true
        rw [hl]
        rfl)
      split_ifs
      · exact ⟨ha.tail (.state .PREP_OPEN hlive rfl (.inl rfl)),
          fun _ ↦ .inl (active_changeState rfl (.inl rfl))⟩
      · exact ⟨ha, fun _ ↦ .inr ⟨hlive, rfl, canAccept_acceptSyn _ _⟩⟩
  · rename_i hnl hnc
    obtain ⟨rfl, rfl⟩ := Prod.mk.inj (Except.ok.inj h)
    subst hs
    exact ⟨.refl, fun _ ↦ .inl (Core.active_of_state (k := c.toCore) hc hnl hnc)⟩

/-- Only an RST is accepted before the handshake; it is answered by another one. -/
theorem handleOTH_early {s : STATE} {seg : Segment} {b : Bool} (hs : s.early = true)
    (h : c.handleOTH s seg = .ok (b, c')) :
    (b = false ∧ c' = c) ∨
      b = true ∧ ∃ c₁, c.sendRST = .ok c₁ ∧ c' = c₁.changeState .CLOSED := by
  unfold handleOTH at h
  have key : (do
      if hasFlag seg.flags FLG_RST && c.rcv.unOrderedSegs.canAccept seg.seqNo && !seg.hasPayload then
        let c ← c.sendRST
        pure (true, c.changeState .CLOSED)
      else pure (false, c) : Except CPSWError (Bool × CRssi)) = .ok (b, c') →
      (b = false ∧ c' = c) ∨
        b = true ∧ ∃ c₁, c.sendRST = .ok c₁ ∧ c' = c₁.changeState .CLOSED := by
    intro h
    split_ifs at h
    · obtain ⟨c₁, h₁, h⟩ := bind_ok.1 h
      obtain ⟨rfl, rfl⟩ := Prod.mk.inj (Except.ok.inj h)
      exact .inr ⟨rfl, c₁, h₁, rfl⟩
    · obtain ⟨rfl, rfl⟩ := Prod.mk.inj (Except.ok.inj h)
      exact .inl ⟨rfl, rfl⟩
  cases s <;> first | exact key h | contradiction

theorem handleOTH_acts {s : STATE} {seg : Segment} {b : Bool} (hs : c.state = s)
    (hc : s ≠ .CLOSED) (h : c.handleOTH s seg = .ok (b, c')) :
    Acts d c.toCore c'.toCore ∧ (b = true → c'.Runs s seg) := by
  by_cases he : s.early = true
  · rcases handleOTH_early he h with ⟨rfl, rfl⟩ | ⟨rfl, c₁, h₁, rfl⟩
    · exact ⟨.refl, fun hb ↦ absurd hb Bool.false_ne_true⟩
    · exact ⟨sendRST_close_acts h₁,
        fun _ ↦ .inl (active_changeState rfl (.inr (sendRST_rst h₁)))⟩
  · have hact : c.Active := by
      refine Core.active_of_state ?_ ?_ ?_ <;> rw [hs]
      · exact hc
      · rintro rfl
        exact he rfl
      · rintro rfl
        exact he rfl
    unfold handleOTH at h
    split at h
    · exact absurd rfl he
    · exact absurd rfl he
    · split_ifs at h <;> obtain ⟨rfl, rfl⟩ := Prod.mk.inj (Except.ok.inj h)
      · exact ⟨.refl, fun _ ↦ .inl hact⟩
      · exact ⟨.refl, fun _ ↦ .inl hact⟩
      · exact ⟨.refl, fun _ ↦ .inl hact⟩
      · exact ⟨.tail (.single .rst) (.state .CLOSED (.inl rfl) rfl (.inr rfl)),
          fun _ ↦ .inl (active_changeState rfl (.inr rfl))⟩
      · exact ⟨.refl, fun _ ↦ .inl hact⟩
      · exact ⟨.refl, fun _ ↦ .inl hact⟩

end CRssi

/-- The segment that a datagram is taken for. -/
def Rx.segment? : Rx → Option Segment
  | .syn s _ | .oth s => some s
  | _ => none

namespace CRssi

variable {c c' : CRssi} {d : Option Segment}

theorem rxDispatch_acts {s : STATE} {clk : Clock} {rx : Rx} {o : Option Segment}
    (hs : c.state = s) (hc : s ≠ .CLOSED) (h : c.rxDispatch s clk rx = .ok (o, c')) :
    Acts d c.toCore c'.toCore ∧ ∀ seg, o = some seg → rx.segment? = some seg ∧ c'.Runs s seg := by
  have drop : ∀ {o c'}, (pure (none, c) : Except CPSWError (Option Segment × CRssi)) = .ok (o, c') →
      Acts d c.toCore c'.toCore ∧ ∀ seg, o = some seg → rx.segment? = some seg ∧ c'.Runs s seg := by
    intro o c' h
    obtain ⟨rfl, rfl⟩ := Prod.mk.inj (Except.ok.inj h)
    exact ⟨.refl, fun _ hn ↦ by cases hn⟩
  cases rx with
  | tooShort => exact drop h
  | badHeader => exact drop h
  | badChecksum => exact drop h
  | badSyn => exact drop h
  | syn seg y =>
    obtain ⟨⟨b, c₁⟩, h₁, h⟩ := bind_ok.1 h
    obtain ⟨rfl, rfl⟩ := Prod.mk.inj (Except.ok.inj h)
    obtain ⟨ha, hr⟩ := handleSYN_acts hs hc h₁
    refine ⟨ha, fun seg' hseg ↦ ?_⟩
    split_ifs at hseg with hb
    exact ⟨hseg, Option.some.inj hseg ▸ hr hb⟩
  | oth seg =>
    obtain ⟨⟨b, c₁⟩, h₁, h⟩ := bind_ok.1 h
    obtain ⟨rfl, rfl⟩ := Prod.mk.inj (Except.ok.inj h)
    obtain ⟨ha, hr⟩ := handleOTH_acts hs hc h₁
    refine ⟨ha, fun seg' hseg ↦ ?_⟩
    split_ifs at hseg with hb
    exact ⟨hseg, Option.some.inj hseg ▸ hr hb⟩

theorem rxBase_acts {s : STATE} {bc : RxBuf} {clk : Clock} (hs : c.state = s)
    (hc : s ≠ .CLOSED) (h : c.rxBase s bc clk = .ok c') :
    Acts ((rxParse c.prm.verifyChecksum).val bc).segment? c.toCore c'.toCore := by
  unfold rxBase at h
  obtain ⟨⟨o, c₁⟩, h₁, h⟩ := bind_ok.1 h
  obtain ⟨ha, hr⟩ := @rxDispatch_acts c c₁
    ((rxParse c.prm.verifyChecksum).val bc).segment? s clk _ o hs hc h₁
  cases o with
  | none =>
    obtain rfl := Except.ok.inj h
    exact ha
  | some seg =>
    obtain ⟨hd, hrun⟩ := hr seg rfl
    rw [hd] at ha ⊢
    exact ha.trans (rxAccepted_acts h hrun)

theorem handleRxEvent_acts {bc : RxBuf} {clk : Clock} (h : c.handleRxEvent bc clk = .ok c') :
    Acts ((rxParse c.prm.verifyChecksum).val bc).segment? c.toCore c'.toCore := by
  obtain ⟨hcl, c₁, h₁, hend⟩ := handleRxEvent_ok h
  have ha := rxBase_acts rfl hcl h₁
  rcases hend with rfl | ⟨hs, -, rfl⟩ | ⟨hs, -, rfl⟩
  · exact ha
  · exact ha.tail (.state .PREP_OPEN (ha.live (.inr (by rw [hs]; rfl))) rfl (.inl rfl))
  · exact ha.tail (.state .OPEN (ha.live (.inr (by rw [hs]; rfl))) rfl (.inl rfl))

theorem usrInputLoop_acts {now n : ℕ} {b : Bool} (h : usrInputLoop now n c = .ok (b, c'))
    (he : c.Active) : Acts d c.toCore c'.toCore := by
  induction n generalizing c with
  | zero =>
    obtain ⟨-, rfl⟩ := Prod.mk.inj (Except.ok.inj h)
    exact .refl
  | succ n ih =>
    unfold usrInputLoop at h
    split_ifs at h with hw
    · split at h
      · rename_i c₁ hp
        obtain ⟨-, rfl⟩ := Prod.mk.inj (Except.ok.inj h)
        obtain rfl := popUsr_none hp
        exact .refl
      · rename_i u c₁ hp
        obtain ⟨c₂, h₂, h⟩ := bind_ok.1 h
        have hact : c₂.Active := by
          obtain ⟨q, -, rfl⟩ := popUsr_some hp
          obtain ⟨-, -, ring, -, rfl⟩ := sendDAT_ok h₂
          rw [toCore_armRexAndNulTimer]
          exact he
        exact .head (sendUsr_acts he hw hp h₂) (ih h hact)
    · obtain ⟨-, rfl⟩ := Prod.mk.inj (Except.ok.inj h)
      exact .refl

theorem handleUsrInputEvent_acts {clk : Clock} (h : c.handleUsrInputEvent clk = .ok c') :
    Acts d c.toCore c'.toCore := by
  obtain ⟨ho, n, full, c₁, h₁, rfl⟩ := handleUsrInputEvent_ok h
  have ha := @usrInputLoop_acts _ _ d _ _ _ h₁ (Core.active_of_isOpen ho)
  split_ifs
  · exact ha.tail (.state .OPEN_OUTWIN_FULL (ha.live (Core.live_of_isOpen ho)) rfl (.inl rfl))
  · exact ha

theorem handleUsrOutputEvent_acts (h : c.handleUsrOutputEvent = .ok c') :
    Acts d c.toCore c'.toCore := by
  obtain ⟨ho, c₁, h₁, h⟩ := handleUsrOutputEvent_ok h
  have ha : Acts d c.toCore c₁.toCore := by
    rcases drainReassembleBuffer_ok h₁ with ⟨-, rfl⟩ | ⟨-, q, e, r, hd, rfl⟩
    · exact .refl
    · exact .single (.drain r (Core.active_of_isOpen ho) hd)
  rcases h with rfl | h
  · exact ha
  · exact ha.tail (sendACK_acts h (ha.live (Core.live_of_isOpen ho)))

theorem sendNUL_acts {now : ℕ} {b : Bool} (h : c.sendNUL now = .ok (b, c'))
    (he : c.Active) : Act d c.toCore c'.toCore := by
  unfold sendNUL at h
  split_ifs at h with hw
  · obtain ⟨c₁, h₁, h⟩ := bind_ok.1 h
    obtain ⟨-, rfl⟩ := Prod.mk.inj (Except.ok.inj h)
    exact @sendACK_acts (c.armTimer .NUL (now + c.prm.nulTO)) _ _ h₁ he.2
  · obtain ⟨c₁, h₁, h⟩ := bind_ok.1 h
    obtain ⟨-, rfl⟩ := Prod.mk.inj (Except.ok.inj h)
    obtain ⟨-, ring, hr, rfl⟩ := sendBufAndKeepForRetransmission_ok h₁
    rw [toCore_armRexAndNulTimer]
    exact .sendNUL _ ring he (Nat.lt_of_not_le hw) hr

theorem processNulTimeout_acts {now : ℕ} (h : c.processNulTimeout now = .ok c') :
    Acts d c.toCore c'.toCore := by
  obtain ⟨ho, ⟨c₁, h₁, rfl⟩ | ⟨-, sent, c₁, h₁, rfl⟩⟩ := processNulTimeout_ok h
  · exact sendRST_close_acts h₁
  · have ha : Acts d c.toCore c₁.toCore := .single (sendNUL_acts h₁ (Core.active_of_isOpen ho))
    split_ifs
    · exact ha
    · exact ha.tail (.state .OPEN_OUTWIN_FULL (ha.live (Core.live_of_isOpen ho)) rfl (.inl rfl))

theorem processTimer_acts {now : ℕ} {t : RssiTimer} (h : c.processTimer now t = .ok c') :
    Acts d c.toCore c'.toCore := by
  cases t with
  | REX =>
    obtain ⟨-, h⟩ := processRexTimeout_ok h
    exact processRetransmissionTimeout_acts h
  | ACK =>
    obtain ⟨ho, h⟩ := processAckTimeout_ok h
    exact .single (sendDatOrAck_acts h (Core.live_of_isOpen ho) fun _ ↦ Core.active_of_isOpen ho)
  | NUL => exact processNulTimeout_acts h

theorem advance_acts {clk : Clock} (h : c.advance clk = .ok c') :
    Opens c.toCore c'.toCore ∨ Acts d c.toCore c'.toCore := by
  unfold advance at h
  split at h
  · rename_i hs
    dsimp only at h
    refine .inl ?_
    split_ifs at h with hsrv
    · obtain rfl := Except.ok.inj h
      exact .listen hs hsrv
    · obtain ⟨c₁, h₁, h⟩ := bind_ok.1 h
      obtain rfl := Except.ok.inj h
      obtain ⟨seqNo, ring, hr, rfl⟩ := sendSYN_ok h₁
      have hd : c.close.openQueues.increaseReopenDelay.toCore = c.toCore.close := by
        unfold increaseReopenDelay
        split_ifs <;> rfl
      change Opens c.toCore { (armRexAndNulTimer clk.now _).toCore with
        state := STATE.CLNT_WAIT_SYN_ACK }
      rw [toCore_armRexAndNulTimer]
      simp only [hd] at hr ⊢
      exact .connect _ seqNo _ _ ring hs (Bool.eq_false_of_not_eq_true hsrv) rfl hr
  · rename_i hs
    obtain rfl := Except.ok.inj h
    exact .inr (.single (.state .OPEN (.inr (by rw [hs]; rfl)) rfl (.inl rfl)))
  · obtain rfl := Except.ok.inj h
    exact .inr .refl

/-- The segment, if any, that an event brings. -/
def segment? (c : CRssi) : Event → Option Segment
  | .rx bc _ => ((rxParse c.prm.verifyChecksum).val bc).segment?
  | _ => none

/-- Every event that is handled without an exception is a sequence of acts. -/
theorem handle_acts {ev : Event} (h : c.handle ev = .ok c') :
    Opens c.toCore c'.toCore ∨ Acts (c.segment? ev) c.toCore c'.toCore := by
  unfold handle dispatch at h
  cases ev with
  | advance clk => exact @advance_acts c.clearChanges _ _ _ h
  | rx bc clk =>
    replace h := wait_bind_ok h
    exact .inr (@handleRxEvent_acts c.clearChanges _ _ _ h)
  | usrInput clk =>
    replace h := wait_bind_ok h
    exact .inr (@handleUsrInputEvent_acts c.clearChanges _ _ _ h)
  | usrOutput =>
    replace h := wait_bind_ok h
    exact .inr (@handleUsrOutputEvent_acts c.clearChanges _ _ h)
  | expiry clk =>
    replace h := wait_bind_ok h
    split at h
    · obtain rfl := Except.ok.inj h
      exact .inr .refl
    · exact .inr (@processTimer_acts (cancelTimer _ c.clearChanges) _ _ _ _ h)
  | push b =>
    obtain rfl := Except.ok.inj h
    exact .inr .refl
  | pop =>
    obtain rfl := Except.ok.inj h
    exact .inr .refl

end CRssi

/-- What holds of a new peer and is kept by each act, and by the end of a connection, holds of every peer that can be reached. -/
theorem Reachable.core_invariant {I : Core → Prop} (init : ∀ cfg j, I (CRssi.new cfg j).toCore)
    (opens : ∀ k k', I k → Opens k k' → I k') (keep : ∀ d k k', I k → Act d k k' → I k') {c : CRssi} (h : Reachable c) : I c.toCore := by
  obtain ⟨cfg, j, hr⟩ := h
  refine @invariant CRssi Step (fun c ↦ I c.toCore) (fun c c' hc hs ↦ ?_) _ _ hr (init cfg j)
  obtain ⟨ev, -, hh⟩ := hs
  rcases CRssi.handle_acts hh with ho | ha
  · exact opens _ _ hc ho
  · exact invariant (keep _) ha hc

end Cpsw.Rssi
