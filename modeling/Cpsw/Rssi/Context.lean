import Cpsw.Rssi.Proto
import Cpsw.Rssi.Timer

namespace Cpsw.Rssi

structure BufQueue (α : Type) where
  n : ℕ
  isUp : Bool
  q : List α

namespace BufQueue

variable {α : Type}

def create (n : ℕ) : BufQueue α := { n, isUp := true, q := [] }

/-- A queue that is shut down has no free slots. -/
def isFull (b : BufQueue α) : Bool := !b.isUp || b.n ≤ b.q.length

def tryPop (b : BufQueue α) : Option α × BufQueue α :=
  match b.q with
  | [] => (none, b)
  | x :: q => (some x, { b with q := q })

def tryPush (x : α) (b : BufQueue α) : Option (BufQueue α) :=
  if b.isFull then none else some { b with q := b.q ++ [x] }

def shutdown (b : BufQueue α) : BufQueue α := { b with isUp := false, q := [] }

def startup (b : BufQueue α) : BufQueue α := { b with isUp := true }

end BufQueue

inductive ConfigurationError
  | ldMaxUnackedSegs
  | retransmissionTimeoutUS
  | cumulativeAckTimeoutUS
  | nullTimeoutUS
  | maxSegmentSize
  deriving DecidableEq, Repr

def ConfigurationError.text : ConfigurationError → String
  | .ldMaxUnackedSegs => "RSSI parameter 'ldMaxUnackedSegs' out too big"
  | .retransmissionTimeoutUS => "RSSI parameter 'retransmissionTimeoutUS' out too big"
  | .cumulativeAckTimeoutUS => "RSSI parameter 'cumulativeAckTimeoutUS' out too big"
  | .nullTimeoutUS => "RSSI parameter 'nullTimeoutUS' out too big"
  | .maxSegmentSize => "RSSI parameter 'maxSegmentSize' out too big"

def UNIT_US : ℕ := 1000
def UNIT_US_EXP : ℕ := 3
def MAX_SEGMENT_SIZE : ℕ := 1500 - 20 - 8 - 8

structure CRssiConfigParams where
  ldMaxUnackedSegs : UInt8 := 4
  outQueueDepth : ℕ := 0
  inpQueueDepth : ℕ := 0
  rexTimeoutUS : ℕ := 100 * UNIT_US
  cumAckTimeoutUS : ℕ := 50 * UNIT_US
  nulTimeoutUS : ℕ := 3000 * UNIT_US
  rexMax : UInt8 := 15
  cumAckMax : UInt8 := 5
  forcedSegsMax : ℕ := 0

def CRssiConfigParams.assertValid (p : CRssiConfigParams) :
    Except ConfigurationError CRssiConfigParams :=
  if p.ldMaxUnackedSegs.toNat ≥ 8 then .error .ldMaxUnackedSegs
  else if p.rexTimeoutUS / UNIT_US ≥ 65536 then .error .retransmissionTimeoutUS
  else if p.cumAckTimeoutUS / UNIT_US ≥ 65536 then .error .cumulativeAckTimeoutUS
  else if p.nulTimeoutUS / UNIT_US ≥ 65536 then .error .nullTimeoutUS
  else if p.forcedSegsMax ≥ 65536 then .error .maxSegmentSize
  else .ok p

/-- What the constructor is given; `defaults` has passed `assertValid`. -/
structure Config where
  isServer : Bool
  defaults : CRssiConfigParams
  getRxMTU : Option ℤ
  valid : defaults.assertValid = .ok defaults

def Config.ld (cfg : Config) : ℕ := cfg.defaults.ldMaxUnackedSegs.toNat

def Config.maxUnackedSegs (cfg : Config) : ℕ := 2 ^ cfg.ld

theorem Config.ld_lt (cfg : Config) : cfg.ld < 8 := by
  have h := cfg.valid
  unfold CRssiConfigParams.assertValid at h
  split_ifs at h with hld
  exact Nat.lt_of_not_ge hld

inductive STATE
  | CLOSED
  | LISTEN
  | CLNT_WAIT_SYN_ACK
  | SERV_WAIT_SYN_ACK
  | PREP_OPEN
  | OPEN
  | OPEN_OUTWIN_FULL
  deriving DecidableEq, Repr

def CONN_STATE_OPEN : ℤ := 10
def CONN_STATE_CLOSED : ℤ := -1

def STATE.getConnectionState : STATE → ℤ
  | .CLOSED => CONN_STATE_CLOSED
  | .OPEN | .OPEN_OUTWIN_FULL => CONN_STATE_OPEN
  | _ => 0

/-- Parameters that the peers negotiate or announce to each other; time in microseconds. -/
structure Params where
  units : ℕ
  unitExp : ℕ
  rexTO : ℕ
  cakTO : ℕ
  nulTO : ℕ
  rexMX : ℕ
  cakMX : ℤ
  verifyChecksum : Bool
  addChecksum : Bool
  peerSgsMX : ℕ

/-- The sending side. History, for specifications only: the segments `sent` since the
connection was closed, how many of them were `acked`, the payloads `popped` from `inpQ`. -/
structure Sender where
  lastSeqSent : SeqNo
  unAckedSegs : RingBuf Bytes
  peerOssMX : ℕ
  sent : List Bytes
  acked : ℕ
  popped : List Bytes

/-- The receiving side. History, for specifications only: the number `irs` of the SYN that was
accepted, the segments `consumed` after it, the payloads `given` to `outQ`. -/
structure Receiver where
  lastSeqRecv : SeqNo
  unOrderedSegs : ReassembleBuf Segment
  irs : Option SeqNo
  consumed : List Segment
  given : List Bytes

/-- The oldest entry of the reassembly buffer is taken out: a NUL is dropped, a payload given. -/
def Receiver.take (s : Segment) (r : Receiver) : Receiver :=
  { r with
    unOrderedSegs := r.unOrderedSegs.pop.2
    consumed := r.consumed ++ [s]
    given := if hasFlag s.flags FLG_NUL then r.given else r.given ++ [s.payload] }

/-- A datagram as it leaves, with the number of segments sent up to it, and the receiving side. -/
structure Emission where
  bytes : Bytes
  nSent : ℕ
  rcv : Receiver

/-- A buffer that the user pushes: its payload, and the room in front of it. -/
structure UsrBuf where
  headroom : ℕ
  payload : Bytes

/-- The part of a peer that the segments it exchanges depend on. -/
structure Core where
  cfg : Config
  state : STATE
  prm : Params
  snd : Sender
  rcv : Receiver
  /-- Everything passed to `tryPushUpstream` since the connection was closed. -/
  out : List Emission
  /-- An RST has been sent or accepted since the connection was closed. -/
  rst : Bool

structure CRssi extends Core where
  numRex : ℕ
  peerBSY : Bool
  numCak : ℤ
  outQ : BufQueue Bytes
  inpQ : BufQueue UsrBuf
  usrIEH : Bool
  usrOEH : Bool
  timers : RssiTimerList
  conID : UInt32
  closedReopenDelay : ℕ
  connState : ℤ
  /-- The states the current event has changed to. -/
  changes : List STATE

/-- The members that no constructor or `close` initialises. -/
structure Junk where
  lastSeqSent : SeqNo
  lastSeqRecv : SeqNo
  oldestUnAcked : SeqNo
  oldestUnOrdered : SeqNo
  time : UInt32

/-- What an event handler reads off the clocks. -/
structure Clock where
  now : ℕ
  time : UInt32

def setNulTimeout (cfg : Config) (us : ℕ) : ℕ := if cfg.isServer then us else us / 3

/-- `resetNegotiableParams`, and the peer's settings as `close` resets them. -/
def closedParams (cfg : Config) : Params where
  units := UNIT_US
  unitExp := UNIT_US_EXP
  rexTO := cfg.defaults.rexTimeoutUS
  cakTO := cfg.defaults.cumAckTimeoutUS
  nulTO := setNulTimeout cfg cfg.defaults.nulTimeoutUS
  rexMX := cfg.defaults.rexMax.toNat
  cakMX := cfg.defaults.cumAckMax.toNat
  verifyChecksum := false
  addChecksum := true
  peerSgsMX := MAX_SEGMENT_SIZE

def maxSegSize (cfg : Config) : ℤ :=
  let m : ℤ :=
    if cfg.defaults.forcedSegsMax ≠ 0 then cfg.defaults.forcedSegsMax
    else match cfg.getRxMTU with
      | some mtu => mtu - 8
      | none => MAX_SEGMENT_SIZE
  if m ≤ 0 then MAX_SEGMENT_SIZE else m

namespace Core

def getNulTimeout (c : Core) : ℕ := if c.cfg.isServer then c.prm.nulTO else c.prm.nulTO * 3

/-- What `sendBuf` writes into the header of a buffer. -/
def stamp (busy : Bool) (b : Bytes) (c : Core) : Bytes :=
  let b := if busy then setFlags b (getFlags b ||| FLG_BSY) else b
  let b := setAckNo b c.rcv.lastSeqRecv
  if c.prm.addChecksum then writeChksum b else b

def emit (b : Bytes) (c : Core) : Core :=
  { c with out := c.out ++ [{ bytes := b, nSent := c.snd.sent.length, rcv := c.rcv }] }

def bumpSeqSent (c : Core) : Core :=
  { c with snd := { c.snd with lastSeqSent := c.snd.lastSeqSent + 1 } }

def record (b : Bytes) (c : Core) : Core :=
  { c with snd := { c.snd with sent := c.snd.sent ++ [b] } }

def keep (ring : RingBuf Bytes) (c : Core) : Core :=
  { c with snd := { c.snd with unAckedSegs := ring } }

def acknowledge (ackNo : SeqNo) (c : Core) : Core :=
  { c with snd := { c.snd with
    unAckedSegs := (c.snd.unAckedSegs.ack ackNo).2
    acked := c.snd.acked + (c.snd.unAckedSegs.ack ackNo).1.toNat } }

/-- A retransmitted segment is the very buffer that the ring holds. -/
def restamp (i : ℕ) (b : Bytes) (c : Core) : Core :=
  { c with snd := { c.snd with
    unAckedSegs := c.snd.unAckedSegs.update (c.snd.unAckedSegs.iter i) b } }

/-- The SYN that `sendSYN` builds for the number `seqNo`. -/
def synHeader (doAck : Bool) (seqNo : SeqNo) (conID : UInt32) (c : Core) : Bytes :=
  RssiSynHeader.set (if doAck then FLG_SYN ||| FLG_ACK else FLG_SYN) seqNo
    (if c.prm.addChecksum then XFL_ONE ||| XFL_CHK else XFL_ONE)
    c.cfg.maxUnackedSegs (maxSegSize c.cfg).toNat
    (c.prm.rexTO / c.prm.units) (c.prm.cakTO / c.prm.units) (c.getNulTimeout / c.prm.units)
    c.prm.rexMX c.prm.cakMX.toNat c.prm.unitExp conID.toNat

def seedSeqSent (seqNo : SeqNo) (c : Core) : Core :=
  { c with snd := { c.snd with
    lastSeqSent := seqNo, unAckedSegs := c.snd.unAckedSegs.seed seqNo } }

def acceptSyn (seqNo : SeqNo) (c : Core) : Core :=
  { c with rcv := { c.rcv with
    lastSeqRecv := seqNo
    unOrderedSegs := c.rcv.unOrderedSegs.seed (seqNo + 1)
    irs := some seqNo, consumed := [], given := [] } }

/-- `peerOssMX_`, `peerSgsMX_`, and a ring that can hold as many segments. -/
def extractWindow (h : RssiSynHeader) (c : Core) : Except CPSWError Core := do
  let ring ← c.snd.unAckedSegs.fit h.ossMX.toNat
  pure { c with
    snd := { c.snd with unAckedSegs := ring, peerOssMX := h.ossMX.toNat }
    prm := { c.prm with peerSgsMX := h.sgsMX } }

/-- The peer's parameters; products of a 16-bit field and the unit wrap at 32 bit. -/
def negotiate (h : RssiSynHeader) (c : Core) : Except CPSWError Core :=
  if h.units.toNat > 6 then .error .timeUnits
  else
    let u := 10 ^ (6 - h.units.toNat)
    .ok { c with prm := { c.prm with
      verifyChecksum := hasFlag h.xflgs XFL_CHK
      addChecksum := hasFlag h.xflgs XFL_CHK
      units := u
      rexTO := h.rexTO * u % 2 ^ 32
      cakTO := h.cakTO * u % 2 ^ 32
      nulTO := setNulTimeout c.cfg (h.nulTO * u % 2 ^ 32)
      rexMX := h.rexMX.toNat
      cakMX := h.cakMX.toNat } }

def extractConnectionParams (h : RssiSynHeader) (acceptNegotiated : Bool) (c : Core) :
    Except CPSWError Core := do
  let acceptNegotiated := !c.cfg.isServer || acceptNegotiated
  let c ← c.extractWindow h
  if acceptNegotiated then c.negotiate h else pure c

def close (c : Core) : Core :=
  { c with
    prm := closedParams c.cfg
    snd := { c.snd with
      unAckedSegs := c.snd.unAckedSegs.purge, peerOssMX := c.cfg.maxUnackedSegs
      sent := [], acked := 0, popped := [] }
    rcv := { c.rcv with
      unOrderedSegs := c.rcv.unOrderedSegs.purge
      irs := none, consumed := [], given := [] }
    out := []
    rst := false }

end Core

namespace CRssi

def mkQ {α : Type} (desiredDepth ld : ℕ) : BufQueue α :=
  .create (if desiredDepth = 0 then 2 ^ ld + 4 else desiredDepth)

def new (cfg : Config) (j : Junk) : CRssi where
  cfg := cfg
  state := .CLOSED
  prm := closedParams cfg
  snd := {
    lastSeqSent := j.lastSeqSent
    unAckedSegs := .new cfg.ld j.oldestUnAcked
    peerOssMX := cfg.maxUnackedSegs
    sent := [], acked := 0, popped := [] }
  rcv := {
    lastSeqRecv := j.lastSeqRecv
    unOrderedSegs := .new cfg.ld j.oldestUnOrdered
    irs := none, consumed := [], given := [] }
  numRex := 0
  peerBSY := false
  numCak := 0
  outQ := mkQ cfg.defaults.outQueueDepth cfg.ld
  inpQ := mkQ cfg.defaults.inpQueueDepth cfg.ld
  usrIEH := true
  usrOEH := true
  timers := []
  conID := j.time
  closedReopenDelay := 0
  connState := CONN_STATE_CLOSED
  out := []
  rst := false
  changes := []

def changeState (s : STATE) (c : CRssi) : CRssi :=
  let new := s.getConnectionState
  { c with
    state := s
    connState := if new ≠ 0 ∧ new ≠ c.state.getConnectionState then new else c.connState
    changes := c.changes ++ [s] }

def armTimer (t : RssiTimer) (exp : ℕ) (c : CRssi) : CRssi :=
  { c with timers := c.timers.armAbs t exp }

def cancelTimer (t : RssiTimer) (c : CRssi) : CRssi := { c with timers := c.timers.cancel t }

def processAckNumber (flags : UInt8) (ackNo : SeqNo) (c : CRssi) : CRssi :=
  if hasFlag flags FLG_ACK then
    let acked := c.snd.unAckedSegs.ack ackNo
    let c := { c with
      toCore := c.toCore.acknowledge ackNo
      numRex := if acked.1 > 0 then 0 else c.numRex }
    if c.snd.unAckedSegs.getSize = 0 then { c.cancelTimer .REX with numRex := 0 } else c
  else c

def close (c : CRssi) : CRssi :=
  { c with
    toCore := c.toCore.close
    outQ := c.outQ.shutdown
    inpQ := c.inpQ.shutdown
    usrIEH := false
    usrOEH := false
    timers := ((c.timers.cancel .ACK).cancel .NUL).cancel .REX
    numRex := 0
    numCak := 0
    peerBSY := false
    conID := c.conID + 1 }

def openQueues (c : CRssi) : CRssi := { c with outQ := c.outQ.startup, inpQ := c.inpQ.startup }

/-- The result is the segment as it went out, which is also what a ring keeps of it. -/
def sendBuf (b : Bytes) (c : CRssi) : Except CPSWError (Bytes × CRssi) :=
  if b.length > c.prm.peerSgsMX + getHSize b then .error .segmentTooLarge
  else
    let b := c.toCore.stamp c.outQ.isFull b
    .ok (b, { c with
      toCore := c.toCore.emit b, numCak := 0, timers := c.timers.cancel .ACK })

def armRexAndNulTimer (now : ℕ) (c : CRssi) : CRssi :=
  let c := if c.peerBSY then c else c.armTimer .REX (now + c.prm.rexTO)
  if c.cfg.isServer then c else c.armTimer .NUL (now + c.prm.nulTO)

def sendBufAndKeepForRetransmission (b : Bytes) (now : ℕ) (c : CRssi) :
    Except CPSWError CRssi := do
  let (b, c) ← { c with toCore := c.toCore.record b }.sendBuf b
  let ring ← c.snd.unAckedSegs.push (some b)
  pure ({ c with toCore := c.toCore.keep ring }.armRexAndNulTimer now)

def bumpSeqSent (c : CRssi) : CRssi := { c with toCore := c.toCore.bumpSeqSent }

def sendDAT (bc : UsrBuf) (now : ℕ) (c : CRssi) : Except CPSWError CRssi :=
  if bc.headroom < 8 then .error .payloadOutOfRange
  else
    let c := c.bumpSeqSent
    c.sendBufAndKeepForRetransmission (RssiHeader.set FLG_ACK c.snd.lastSeqSent ++ bc.payload) now

def sendACK (c : CRssi) : Except CPSWError CRssi := do
  let (_, c) ← c.sendBuf (RssiHeader.set FLG_ACK (c.snd.lastSeqSent + 1))
  pure c

def sendRST (c : CRssi) : Except CPSWError CRssi := do
  let c := { c.bumpSeqSent with rst := true }
  let (_, c) ← c.sendBuf (RssiHeader.set (FLG_ACK ||| FLG_RST) c.snd.lastSeqSent)
  pure c

/-- The result is `false` where the window was full and only an ACK went out. -/
def sendNUL (now : ℕ) (c : CRssi) : Except CPSWError (Bool × CRssi) := do
  if c.snd.unAckedSegs.getSize ≥ c.snd.peerOssMX then
    let c ← (c.armTimer .NUL (now + c.prm.nulTO)).sendACK
    pure (false, c)
  else
    let c := c.bumpSeqSent
    let c ← c.sendBufAndKeepForRetransmission
      (RssiHeader.set (FLG_ACK ||| FLG_NUL) c.snd.lastSeqSent) now
    pure (true, c)

def sendSYN (doAck : Bool) (clk : Clock) (c : CRssi) : Except CPSWError CRssi :=
  let t := UInt8.ofNat clk.time.toNat
  let seqNo := if c.cfg.isServer then t ^^^ 0xff else t
  { c with toCore := c.toCore.seedSeqSent seqNo }.sendBufAndKeepForRetransmission
    (c.toCore.synHeader doAck seqNo c.conID) clk.now

def forceACK (c : CRssi) : CRssi := { c with numCak := c.prm.cakMX }

def acceptSyn (seqNo : SeqNo) (c : CRssi) : CRssi :=
  { c with toCore := c.toCore.acceptSyn seqNo }

def extractConnectionParams (h : RssiSynHeader) (acceptNegotiated : Bool) (c : CRssi) :
    Except CPSWError CRssi := do
  let core ← c.toCore.extractConnectionParams h acceptNegotiated
  pure { c with toCore := core }

end CRssi

end Cpsw.Rssi
