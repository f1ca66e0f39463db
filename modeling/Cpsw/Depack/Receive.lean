import Cpsw.Depack.Header

namespace Cpsw.Depack

def NO_FRAME : ℕ := 2 ^ 24
def NO_FRAG : ℕ := 2 ^ 32 - 2

/-- What ends the thread: only `IntrError` is caught. -/
inductive DepackError
  | buf (e : BufError)
  | frameIDWindow
  | emptyChain
  deriving DecidableEq, Repr

def DepackError.text : DepackError → String
  | .buf e => e.text
  | .frameIDWindow => "Frame ID window inconsistency!"
  | .emptyChain => ""

def liftBuf {α : Type} : Except BufError α → Except DepackError α
  | .ok a => .ok a
  | .error e => .error (.buf e)

structure CFrame where
  prod : Option BufChain
  nFrags : ℕ
  frameID : ℕ
  oldestFrag : ℕ
  lastFrag : ℕ
  fragWin : List (Option BufChain)
  isComplete : Bool
  running : Bool

namespace CFrame

def new (winSize : ℕ) : CFrame where
  prod := none
  nFrags := 0
  frameID := NO_FRAME
  oldestFrag := 0
  lastFrag := NO_FRAG
  fragWin := List.replicate winSize none
  isComplete := false
  running := false

def release (f : CFrame) : CFrame where
  prod := none
  nFrags := 0
  frameID := NO_FRAME
  oldestFrag := 0
  lastFrag := NO_FRAG
  fragWin := f.fragWin.map fun _ ↦ none
  isComplete := false
  running := false

/-- The loop of `updateChain`; each round empties one of the slots. -/
def chainLoop : ℕ → CFrame → CFrame
  | 0, f => f
  | n + 1, f =>
    let idx := f.oldestFrag &&& (f.fragWin.length - 1)
    match f.fragWin.getD idx none with
    | none => f
    | some bc => chainLoop n { f with
        prod := some (f.prod.getD [] ++ bc)
        nFrags := f.nFrags + 1
        fragWin := f.fragWin.set idx none
        oldestFrag := f.oldestFrag + 1 }

def updateChain (f : CFrame) : CFrame :=
  let f := chainLoop f.fragWin.length f
  if f.nFrags = f.lastFrag + 1 ∨ FRAG_MAX = f.nFrags then { f with isComplete := true } else f

end CFrame

/-- The window sizes that the stack builder lets through. -/
structure Config where
  ldFrameWinSize : ℕ
  ldFragWinSize : ℕ
  frame_le : ldFrameWinSize ≤ 10
  frag_le : ldFragWinSize ≤ 10

def Config.frameWinSize (c : Config) : ℕ := 2 ^ c.ldFrameWinSize
def Config.fragWinSize (c : Config) : ℕ := 2 ^ c.ldFragWinSize

structure CProtoModDepack where
  cfg : Config
  oldestFrame : ℕ
  frameWin : List CFrame
  /-- What has been passed to `pushDown`. -/
  pushed : List BufChain

/-- What the frame number of a fragment says, in view of the oldest frame. -/
inductive FrameTest
  | pass
  /-- The oldest frame has to make room. -/
  | evict
  /-- The fragment is dropped, as an old or a new one; `resync` moves the window after it. -/
  | drop (resync : Bool)
  deriving DecidableEq, Repr

namespace CProtoModDepack

def new (cfg : Config) : CProtoModDepack where
  cfg := cfg
  oldestFrame := NO_FRAME
  frameWin := List.replicate cfg.frameWinSize (CFrame.new cfg.fragWinSize)
  pushed := []

def toFrameIdx (frameNo : ℕ) (s : CProtoModDepack) : ℕ := frameNo &&& (s.cfg.frameWinSize - 1)

def toFragIdx (fragNo : ℕ) (s : CProtoModDepack) : ℕ := fragNo &&& (s.cfg.fragWinSize - 1)

def frameAt (idx : ℕ) (s : CProtoModDepack) : CFrame :=
  s.frameWin.getD idx (CFrame.new s.cfg.fragWinSize)

def setFrame (idx : ℕ) (f : CFrame) (s : CProtoModDepack) : CProtoModDepack :=
  { s with frameWin := s.frameWin.set idx f }

def oldest (s : CProtoModDepack) : CFrame := s.frameAt (s.toFrameIdx s.oldestFrame)

/-- The slot of the oldest frame is cleared; the frame is passed on if it is complete. -/
def dropOldest (s : CProtoModDepack) : CProtoModDepack :=
  { s.setFrame (s.toFrameIdx s.oldestFrame) s.oldest.release with
    pushed := if s.oldest.isComplete then s.pushed ++ [s.oldest.prod.getD []] else s.pushed
    oldestFrame := CAxisFrameHeader.moduloFrameSz (s.oldestFrame + 1) }

def releaseOldestFrame (onlyComplete : Bool) (s : CProtoModDepack) : Bool × CProtoModDepack :=
  if s.oldestFrame = NO_FRAME then (false, s)
  else if (onlyComplete && !s.oldest.isComplete) || !s.oldest.running then (false, s)
  else (true, s.dropOldest)

/-- `while ( releaseOldestFrame( onlyComplete ) );` -/
def releaseLoop (onlyComplete : Bool) : ℕ → CProtoModDepack → CProtoModDepack
  | 0, s => s
  | n + 1, s =>
    match s.releaseOldestFrame onlyComplete with
    | (false, s) => s
    | (true, s) => releaseLoop onlyComplete n s

/-- Each round stops the timer of one of the frames. -/
def releaseFrames (onlyComplete : Bool) (s : CProtoModDepack) : CProtoModDepack :=
  releaseLoop onlyComplete s.cfg.frameWinSize s

/-- The condition of `frameSync`; the difference of the numbers wraps at 32 bit. -/
def needsSync (frameNo : ℕ) (s : CProtoModDepack) : Bool :=
  (CAxisFrameHeader.signExtendFrameNo
    ((frameNo + (2 ^ 32 - s.oldestFrame)) % 2 ^ 32)).natAbs > s.cfg.frameWinSize

def frameSync (frameNo : ℕ) (s : CProtoModDepack) : CProtoModDepack :=
  if s.needsSync frameNo then
    { s.releaseFrames false with
      oldestFrame := CAxisFrameHeader.moduloFrameSz (frameNo + 1) }
  else s

/-- How far `frameNo` lies ahead of the oldest frame. -/
def relOff (frameNo : ℕ) (s : CProtoModDepack) : ℕ :=
  CAxisFrameHeader.moduloFrameSz (frameNo + (2 ^ 32 - s.oldestFrame))

/-- The test of the frame number once there is an oldest frame. -/
def frameTest (frameNo : ℕ) (s : CProtoModDepack) : FrameTest :=
  if frameNo < s.oldestFrame then .drop (s.needsSync frameNo)
  else if s.relOff frameNo ≥ s.cfg.frameWinSize then
    if s.relOff frameNo = s.cfg.frameWinSize then .evict else .drop (s.needsSync frameNo)
  else .pass

/-- `for ( idx = toFrameIdx( oldestFrame_ ); idx != frameIdx; ... ) startTimeout( ... )` -/
def startLoop (frameIdx : ℕ) : ℕ → ℕ → CProtoModDepack → CProtoModDepack
  | 0, _, s => s
  | n + 1, idx, s =>
    if idx = frameIdx then s
    else startLoop frameIdx n (s.toFrameIdx (idx + 1))
      (s.setFrame idx { s.frameAt idx with running := true })

/-- The first fragment of a frame: it gets its slot, and every older frame a timeout. -/
def openFrame (frameNo frameIdx : ℕ) (s : CProtoModDepack) : CProtoModDepack :=
  let s := s.setFrame frameIdx { s.frameAt frameIdx with prod := some [], frameID := frameNo }
  let s := startLoop frameIdx s.cfg.frameWinSize (s.toFrameIdx s.oldestFrame) s
  s.setFrame frameIdx { s.frameAt frameIdx with running := true }

/-- Header and tail are skipped, but for the header of the first and the tail of the last. -/
def trim (fragNo lastFrag : ℕ) (bc : BufChain) : Except BufError BufChain := do
  let bc ← match bc with
    | [] => pure []
    | bh :: rest =>
      if fragNo ≠ 0 then
        let bh ← bh.setPayload HEADER_SIZE
        pure (bh :: rest)
      else pure (bh :: rest)
  if fragNo ≠ lastFrag then
    match bc.getLast? with
    | none => pure bc
    | some bt =>
      let bt ← bt.setSize ((bt.getSize : ℤ) - axis.TAIL_SIZE)
      pure (bc.dropLast ++ [bt])
  else pure bc

/-- The byte before the end of the chain. -/
def tailEOF (bc : BufChain) : Bool :=
  match bc.getLast? with
  | none => false
  | some bt => parseTailEOF axis (bt.data.drop (bt.fin - axis.TAIL_SIZE))

/-- `lastFrag_` after the fragment `fragNo`. -/
def markLast (eof : Bool) (fragNo lastFrag : ℕ) : ℕ :=
  if (eof || fragNo == FRAG_MAX) && lastFrag == NO_FRAG then fragNo else lastFrag

/-- A new fragment goes to its slot, and what is now in sequence to the chain of the frame. -/
def storeFrag (fragNo frameIdx : ℕ) (bc : BufChain) (s : CProtoModDepack) :
    Except DepackError CProtoModDepack := do
  let frame := s.frameAt frameIdx
  let lastFrag := markLast (tailEOF bc) fragNo frame.lastFrag
  let bc ← liftBuf (trim fragNo lastFrag bc)
  pure (s.setFrame frameIdx { frame with
    fragWin := frame.fragWin.set (s.toFragIdx fragNo) (some bc), lastFrag := lastFrag }.updateChain)

/-- What happens to a fragment whose frame number has passed the test. -/
def acceptFrag (hdr : CAxisFrameHeader) (bc : BufChain) (s : CProtoModDepack) :
    Except DepackError CProtoModDepack :=
  let frameIdx := s.toFrameIdx hdr.frameNo
  let frame := s.frameAt frameIdx
  if hdr.fragNo < frame.oldestFrag then .ok s
  else if hdr.fragNo ≥ frame.oldestFrag + s.cfg.fragWinSize then .ok s
  else if frame.frameID = NO_FRAME then
    (s.openFrame hdr.frameNo frameIdx).storeFrag hdr.fragNo frameIdx bc
  else if frame.frameID ≠ hdr.frameNo then .error .frameIDWindow
  else if (frame.fragWin.getD (s.toFragIdx hdr.fragNo) none).isSome then .ok s
  else if frame.lastFrag ≠ NO_FRAG ∧ hdr.fragNo > frame.lastFrag then .ok s
  else s.storeFrag hdr.fragNo frameIdx bc

def testedFrag (hdr : CAxisFrameHeader) (bc : BufChain) (s : CProtoModDepack) :
    Except DepackError CProtoModDepack :=
  match s.frameTest hdr.frameNo with
  | .drop _ => .ok (s.frameSync hdr.frameNo)
  | .evict => acceptFrag hdr bc (s.releaseOldestFrame false).2
  | .pass => acceptFrag hdr bc s

/-- The first fragment of a frame makes this frame the oldest one, where there is none yet. -/
def adopt (hdr : CAxisFrameHeader) (s : CProtoModDepack) : CProtoModDepack :=
  if s.oldestFrame = NO_FRAME ∧ hdr.fragNo = 0 then { s with oldestFrame := hdr.frameNo } else s

def processBuffer (bc : BufChain) (s : CProtoModDepack) : Except DepackError CProtoModDepack :=
  match bc with
  | [] => .error .emptyChain
  | bh :: _ =>
    match CAxisFrameHeader.parse bh.getPayload bh.getSize with
    | none => .ok s
    | some hdr => testedFrag hdr bc (s.adopt hdr)

/-- What `threadBody` gets from its input queue. -/
inductive Input
  | datagram (bc : BufChain)
  | timeout

def receive (i : Input) (s : CProtoModDepack) : Except DepackError CProtoModDepack :=
  match i with
  | .datagram bc => do
    let s ← s.processBuffer bc
    pure (s.releaseFrames true)
  | .timeout => .ok ((s.releaseOldestFrame false).2.releaseFrames true)

end CProtoModDepack

end Cpsw.Depack
