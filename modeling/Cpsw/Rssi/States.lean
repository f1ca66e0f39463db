import Cpsw.Rssi.Context

namespace Cpsw.Rssi

namespace CRssi

def popUsr (c : CRssi) : Option UsrBuf × CRssi :=
  match c.inpQ.tryPop with
  | (none, _) => (none, c)
  | (some b, q) =>
    (some b, { c with inpQ := q, snd := { c.snd with popped := c.snd.popped ++ [b.payload] } })

/-- The virtual `hasBufToSend` of the state `s`. -/
def hasBufToSend (s : STATE) (c : CRssi) : Option UsrBuf × CRssi :=
  match s with
  | .OPEN | .OPEN_OUTWIN_FULL =>
    if c.snd.unAckedSegs.getSize < c.snd.peerOssMX then c.popUsr else (none, c)
  | _ => (none, c)

/-- `while ( (bc = unOrderedSegs_.peek()) )`; each round empties one of the slots. -/
def drainLoop : ℕ → CRssi → Except CPSWError CRssi
  | 0, c => .ok c
  | n + 1, c =>
    match c.rcv.unOrderedSegs.peek with
    | none => .ok c
    | some s =>
      if hasFlag s.flags FLG_NUL then drainLoop n { c with rcv := c.rcv.take s }
      else if c.outQ.isFull then .ok { c with usrOEH := true }
      else
        match c.outQ.tryPush s.payload with
        | none => .error .outputQueueFull
        | some q => drainLoop n { c with outQ := q, rcv := c.rcv.take s }

def drainReassembleBuffer (s : STATE) (c : CRssi) : Except CPSWError CRssi :=
  match s with
  | .OPEN | .OPEN_OUTWIN_FULL => do
    let c ← drainLoop c.rcv.unOrderedSegs.capa c
    pure { c with rcv := { c.rcv with lastSeqRecv := c.rcv.unOrderedSegs.getLastInOrder } }
  | _ => pure c

/-- The loop over the ring, from its entry `i` on, with at most `n` entries to go. -/
def rexLoop : ℕ → ℕ → CRssi → Except CPSWError CRssi
  | 0, _, c => .ok c
  | n + 1, i, c =>
    match c.snd.unAckedSegs.deref (c.snd.unAckedSegs.iter i) with
    | none => .ok c
    | some b => do
      let (b, c) ← c.sendBuf b
      rexLoop n (i + 1) { c with toCore := c.toCore.restamp i b }

def processRetransmissionTimeout (now : ℕ) (c : CRssi) : Except CPSWError CRssi := do
  let c := { c with numRex := c.numRex + 1 }
  if c.numRex > c.prm.rexMX then
    let c ← c.sendRST
    pure (c.changeState .CLOSED)
  else
    match c.snd.unAckedSegs.deref (c.snd.unAckedSegs.iter 0) with
    | none => pure c
    | some _ =>
      let c ← rexLoop c.snd.unAckedSegs.getSize 0 c
      pure (c.armRexAndNulTimer now)

/-- The virtual `handleSYN` of the state `s`; the result says whether to go on. -/
def handleSYN (s : STATE) (seg : Segment) (h : RssiSynHeader) (clk : Clock) (c : CRssi) :
    Except CPSWError (Bool × CRssi) :=
  match s with
  | .LISTEN => do
    let c ← c.extractConnectionParams h false
    let c ← (c.acceptSyn seg.seqNo).sendSYN true clk
    pure (true, { c with numCak := c.numCak - 1 }.changeState .SERV_WAIT_SYN_ACK)
  | .CLNT_WAIT_SYN_ACK => do
    let c ← c.extractConnectionParams h true
    if !hasFlag seg.flags FLG_ACK then
      let c ← c.sendRST
      pure (false, c.changeState .CLOSED)
    else
      let c := (c.acceptSyn seg.seqNo).forceACK
      pure (true, if seg.ackNo = c.snd.lastSeqSent then c.changeState .PREP_OPEN else c)
  | _ => pure (true, c.forceACK)

/-- The virtual `handleOTH` of the state `s`; the result says whether to go on. -/
def handleOTH (s : STATE) (seg : Segment) (c : CRssi) : Except CPSWError (Bool × CRssi) :=
  match s with
  | .LISTEN | .CLNT_WAIT_SYN_ACK => do
    if hasFlag seg.flags FLG_RST && c.rcv.unOrderedSegs.canAccept seg.seqNo && !seg.hasPayload then
      let c ← c.sendRST
      pure (true, c.changeState .CLOSED)
    else pure (false, c)
  | _ =>
    if seg.isPureAck && !seg.hasPayload then pure (true, { c with numCak := c.numCak - 1 })
    else if hasFlag seg.flags FLG_NUL then
      if c.cfg.isServer && !seg.hasPayload then pure (true, c.forceACK) else pure (false, c)
    else if hasFlag seg.flags FLG_RST then
      pure (true, { c with rst := true }.changeState .CLOSED)
    else if seg.hasPayload then pure (true, c)
    else pure (false, c)

/-- Payload and NUL segments go through the reassembly buffer. -/
def rxStore (s : STATE) (seg : Segment) (c : CRssi) : Except CPSWError CRssi :=
  if (seg.hasPayload || hasFlag seg.flags FLG_NUL) && c.rcv.unOrderedSegs.canAccept seg.seqNo then do
    let ro ← c.rcv.unOrderedSegs.store seg.seqNo seg
    { c with rcv := { c.rcv with unOrderedSegs := ro } }.drainReassembleBuffer s
  else pure c

/-- Sends a buffer if there is one and the window has room, else an ACK. -/
def sendDatOrAck (s : STATE) (now : ℕ) (c : CRssi) : Except CPSWError CRssi :=
  match c.hasBufToSend s with
  | (some b, c) => c.sendDAT b now
  | (none, c) => c.sendACK

/-- Whether to acknowledge the segment at once, or to let the ACK timer decide. -/
def rxAck (s : STATE) (now : ℕ) (c : CRssi) : Except CPSWError CRssi :=
  if c.numCak > c.prm.cakMX then c.sendDatOrAck s now
  else if c.numCak = 1 then pure (c.armTimer .ACK (now + c.prm.cakTO))
  else pure c

def rxReply (s : STATE) (now : ℕ) (c : CRssi) : Except CPSWError CRssi := do
  let c ← { c with numCak := c.numCak + 1 }.rxAck s now
  pure (if c.cfg.isServer then c.armTimer .NUL (now + c.prm.nulTO) else c)

def rxBusy (s : STATE) (seg : Segment) (now : ℕ) (c : CRssi) : Except CPSWError CRssi :=
  let peerWasBSY := c.peerBSY
  let peerNowBSY := hasFlag seg.flags FLG_BSY
  let c := { c with peerBSY := peerNowBSY }
  let c := if peerNowBSY && !peerWasBSY then c.cancelTimer .REX else c
  if peerWasBSY && !peerNowBSY && c.snd.unAckedSegs.getSize > 0 then
    c.processRetransmissionTimeout now
  else c.rxReply s now

/-- What `handleRxEvent` does with a segment that `handleSYN` or `handleOTH` let through. -/
def rxAccepted (s : STATE) (seg : Segment) (now : ℕ) (c : CRssi) : Except CPSWError CRssi := do
  let c ← (c.processAckNumber seg.flags seg.ackNo).rxStore s seg
  c.rxBusy s seg now

def rxDispatch (s : STATE) (clk : Clock) (c : CRssi) : Rx → Except CPSWError (Option Segment × CRssi)
  | .tooShort | .badHeader | .badChecksum | .badSyn => pure (none, c)
  | .syn seg h => do
    let (accepted, c) ← c.handleSYN s seg h clk
    pure (if accepted then some seg else none, c)
  | .oth seg => do
    let (accepted, c) ← c.handleOTH s seg
    pure (if accepted then some seg else none, c)

/-- `NOTCLOSED::handleRxEvent`, called on the state `s`. -/
def rxBase (s : STATE) (bc : RxBuf) (clk : Clock) (c : CRssi) : Except CPSWError CRssi := do
  match ← c.rxDispatch s clk ((rxParse c.prm.verifyChecksum).val bc) with
  | (none, c) => pure c
  | (some seg, c) => c.rxAccepted s seg clk.now

def resetReopenDelay (c : CRssi) : CRssi := { c with closedReopenDelay := 2 }

def increaseReopenDelay (c : CRssi) : CRssi :=
  if c.closedReopenDelay < 10 then { c with closedReopenDelay := c.closedReopenDelay + 2 } else c

def handleRxEvent (bc : RxBuf) (clk : Clock) (c : CRssi) : Except CPSWError CRssi :=
  match c.state with
  | .CLOSED => .error .rxUnexpected
  | .SERV_WAIT_SYN_ACK => do
    let c ← c.rxBase .SERV_WAIT_SYN_ACK bc clk
    pure (if c.snd.unAckedSegs.getSize = 0
      then (c.resetReopenDelay.changeState .PREP_OPEN).armTimer .NUL (clk.now + c.prm.nulTO)
      else c)
  | .OPEN_OUTWIN_FULL => do
    let c ← c.rxBase .OPEN_OUTWIN_FULL bc clk
    pure (if c.snd.unAckedSegs.getSize < c.snd.peerOssMX
      then { c with usrIEH := true }.changeState .OPEN
      else c)
  | s => c.rxBase s bc clk

/-- `true` where the window is full, `false` where the queue has run empty. -/
def usrInputLoop (now : ℕ) : ℕ → CRssi → Except CPSWError (Bool × CRssi)
  | 0, c => .ok (true, c)
  | n + 1, c =>
    if c.snd.unAckedSegs.getSize < c.snd.peerOssMX then
      match c.popUsr with
      | (none, c) => .ok (false, c)
      | (some b, c) => do
        let c ← c.sendDAT b now
        usrInputLoop now n c
    else .ok (true, c)

def enterWindowFull (c : CRssi) : CRssi := { c with usrIEH := false }.changeState .OPEN_OUTWIN_FULL

def handleUsrInputEvent (clk : Clock) (c : CRssi) : Except CPSWError CRssi :=
  match c.state with
  | .OPEN | .OPEN_OUTWIN_FULL => do
    let (full, c) ← usrInputLoop clk.now (c.snd.peerOssMX - c.snd.unAckedSegs.getSize) c
    pure (if full then c.enterWindowFull else c)
  | _ => .error .usrInputUnexpected

def handleUsrOutputEvent (c : CRssi) : Except CPSWError CRssi :=
  match c.state with
  | .OPEN | .OPEN_OUTWIN_FULL => do
    let c ← { c with usrOEH := false }.drainReassembleBuffer c.state
    if c.usrOEH then pure c else c.sendACK
  | _ => .error .usrOutputUnexpected

def processRexTimeout (now : ℕ) (c : CRssi) : Except CPSWError CRssi :=
  match c.state with
  | .CLOSED => .error .rexUnexpected
  | _ => c.processRetransmissionTimeout now

def processAckTimeout (now : ℕ) (c : CRssi) : Except CPSWError CRssi :=
  match c.state with
  | .OPEN | .OPEN_OUTWIN_FULL => c.sendDatOrAck c.state now
  | _ => .error .ackUnexpected

def processNulTimeout (now : ℕ) (c : CRssi) : Except CPSWError CRssi :=
  match c.state with
  | .OPEN | .OPEN_OUTWIN_FULL =>
    if c.cfg.isServer then do
      let c ← c.sendRST
      pure (c.changeState .CLOSED)
    else do
      let (sent, c) ← c.sendNUL now
      pure (if sent then c else c.enterWindowFull)
  | _ => .error .nulUnexpected

def processTimer (now : ℕ) (c : CRssi) : RssiTimer → Except CPSWError CRssi
  | .REX => c.processRexTimeout now
  | .ACK => c.processAckTimeout now
  | .NUL => c.processNulTimeout now

/-- `advance` of the states that do not wait for an event. -/
def advance (clk : Clock) (c : CRssi) : Except CPSWError CRssi :=
  match c.state with
  | .CLOSED =>
    let c := c.close.openQueues
    if c.cfg.isServer then pure (c.changeState .LISTEN)
    else do
      let c ← c.increaseReopenDelay.sendSYN false clk
      pure (c.changeState .CLNT_WAIT_SYN_ACK)
  | .PREP_OPEN => pure ({ c with usrIEH := true }.changeState .OPEN)
  | _ => pure c

end CRssi

def STATE.waits : STATE → Bool
  | .CLOSED | .PREP_OPEN => false
  | _ => true

/-- What the thread can be woken by, and what the user does to the two queues. -/
inductive Event
  | advance (clk : Clock)
  | rx (bc : RxBuf) (clk : Clock)
  | usrInput (clk : Clock)
  | usrOutput
  | expiry (clk : Clock)
  | push (b : UsrBuf)
  | pop

/-- Which events the thread and the users can bring about in a state. -/
def Event.enabled (c : CRssi) : Event → Bool
  | .advance _ => !c.state.waits
  | .rx _ _ => c.state.waits
  | .usrInput _ => c.state.waits && c.usrIEH && !c.inpQ.q.isEmpty
  | .usrOutput => c.state.waits && c.usrOEH && !c.outQ.isFull
  | .expiry clk => c.state.waits && (c.timers.getFirstToExpire.any (·.2 ≤ clk.now))
  | .push _ => !c.inpQ.isFull
  | .pop => !c.outQ.q.isEmpty

namespace CRssi

/-- Waiting for an event, with the check that some timer bounds the wait; `LISTEN` has none. -/
def wait (c : CRssi) : Except CPSWError CRssi :=
  if c.timers = [] ∧ c.state ≠ .LISTEN then .error .noTimerActive else .ok c

def dispatch (c : CRssi) : Event → Except CPSWError CRssi
  | .advance clk => c.advance clk
  | .rx bc clk => do (← c.wait).handleRxEvent bc clk
  | .usrInput clk => do (← c.wait).handleUsrInputEvent clk
  | .usrOutput => do (← c.wait).handleUsrOutputEvent
  | .expiry clk => do
    let c ← c.wait
    match c.timers.getFirstToExpire with
    | none => pure c
    | some (t, _) => (c.cancelTimer t).processTimer clk.now t
  | .push b => pure { c with inpQ := (c.inpQ.tryPush b).getD c.inpQ }
  | .pop => pure { c with outQ := c.outQ.tryPop.2 }

def clearChanges (c : CRssi) : CRssi := { c with changes := [] }

def handle (ev : Event) (c : CRssi) : Except CPSWError CRssi := c.clearChanges.dispatch ev

end CRssi

/-- One step of a peer that raises no exception. -/
def Step (c c' : CRssi) : Prop := ∃ ev : Event, ev.enabled c = true ∧ c.handle ev = .ok c'

def Reachable (c : CRssi) : Prop :=
  ∃ cfg j, Relation.ReflTransGen Step (CRssi.new cfg j) c

theorem Reachable.step {c c' : CRssi} (h : Reachable c) (hs : Step c c') : Reachable c' := by
  obtain ⟨cfg, j, hr⟩ := h
  exact ⟨cfg, j, hr.tail hs⟩

/-- The state after a list of events, each of them enabled in its turn. -/
def CRssi.runs : List Event → CRssi → Option CRssi
  | [], c => some c
  | ev :: evs, c =>
    if ev.enabled c then
      match c.handle ev with
      | .ok c' => runs evs c'
      | .error _ => none
    else none

theorem CRssi.steps_of_runs {evs : List Event} {c c' : CRssi} (h : c.runs evs = some c') :
    Relation.ReflTransGen Step c c' := by
  induction evs generalizing c with
  | nil =>
    obtain rfl := Option.some.inj h
    exact .refl
  | cons ev evs ih =>
    unfold runs at h
    split_ifs at h with he
    split at h
    · rename_i c₁ h₁
      exact .head ⟨ev, he, h₁⟩ (ih h)
    · cases h

/-- A list of events that can be replayed leads to a state that can be reached. -/
theorem reachable_of_runs {α : Type} {cfg : Config} {j : Junk} {evs : List Event} {f : CRssi → α}
    {a : α} (h : ((CRssi.new cfg j).runs evs).map f = some a) : ∃ c, Reachable c ∧ f c = a := by
  obtain ⟨c, hc, hf⟩ := Option.map_eq_some_iff.1 h
  exact ⟨c, ⟨cfg, j, CRssi.steps_of_runs hc⟩, hf⟩

/-- The default parameters, but for a window of two segments. -/
def smallConfig (isServer : Bool) : Config where
  isServer := isServer
  defaults := { ldMaxUnackedSegs := 1 }
  getRxMTU := none
  valid := rfl

def zeroJunk : Junk where
  lastSeqSent := 0
  lastSeqRecv := 0
  oldestUnAcked := 0
  oldestUnOrdered := 0
  time := 0

def datagram (b : Bytes) : RxBuf := ⟨b, fun _ ↦ 0⟩

/-- The SYN of a client with the default parameters, a window of two segments and the number 7. -/
def clientSyn : RxBuf := datagram
  [128, 24, 7, 0, 28, 2, 5, 184, 0, 100, 0, 50, 11, 184, 15, 5, 0, 3, 0, 0, 0, 0, 0, 0]

/-- A server is opened by `clientSyn` and the ACK of its own SYN, which has the number 248. -/
def serverOpens : List Event :=
  [.advance ⟨0, 7⟩, .rx clientSyn ⟨1, 7⟩, .rx (datagram [64, 8, 8, 248, 0, 0, 0, 0]) ⟨2, 7⟩,
    .advance ⟨3, 7⟩]

end Cpsw.Rssi
