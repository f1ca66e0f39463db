import Cpsw.Depack.Chain
import Cpsw.Depack.Receive

namespace Cpsw.Depack

/-- What ends the transmission of a chain. -/
inductive SendError
  | buf (e : BufError)
  | invalidHeader
  | unableToFragment
  | emptyChain
  deriving DecidableEq, Repr

def SendError.text : SendError → String
  | .buf e => e.text
  | .invalidHeader => ""
  | .unableToFragment => "Depacketizer: Unable to fragment"
  | .emptyChain => ""

def SAFE_MTU : ℕ := 1024

/-- The size is passed as a 32-bit integer; `mtu` is what the upstream door says. -/
def fitsInMTU (mtu sizeBytes : ℕ) : Bool :=
  sizeBytes % 2 ^ 32 ≤ SAFE_MTU || sizeBytes % 2 ^ 32 ≤ mtu

/-- The upper bits of a 32-bit counter. -/
def newFrameID (frameNo : ℕ) : ℕ × ℕ := (frameNo % 2 ^ FRAME_NO_BIT_SIZE, (frameNo + 1) % 2 ^ FRAME_NO_BIT_SIZE)

namespace CProtoModDepack

variable (mtu : ℕ) (storage : Bytes)

/-- The tail goes behind the last buffer, or to a buffer of its own. -/
def appendTailByte (isEof : Bool) (bc : Chain) : Except SendError Chain :=
  let mark := fun (b : Buf) ↦
    b.write (b.getSize - axis.TAIL_SIZE) (insertTailEOF axis isEof (iniTail axis))
  match bc.bufs.getLast? with
  | none => .error .emptyChain
  | some b =>
    if fitsInMTU mtu (b.getSize + axis.TAIL_SIZE) then
      match b.setSize (b.getSize + axis.TAIL_SIZE) with
      | .error e => .error (.buf e)
      | .ok b => .ok (bc.setTail (mark b))
    else
      match (Buf.getBuf storage).setSize axis.TAIL_SIZE with
      | .error e => .error (.buf e)
      | .ok b => .ok (bc.addAtTail (mark b))

/-- The buffers that still fit move to the fragment. -/
def moveLoop : ℕ → ℕ → Chain → Chain → ℕ × Chain × Chain
  | 0, sz, bc, res => (sz, bc, res)
  | n + 1, sz, bc, res =>
    match bc.bufs with
    | [] => (sz, bc, res)
    | b :: _ =>
      if fitsInMTU mtu (sz + b.getSize) then
        moveLoop n (sz + b.getSize) bc.unlinkHead (res.addAtTail b)
      else (sz, bc, res)

/-- The header with which the next fragment leaves. -/
def sendHeader (frameNo : ℕ) (hdr : CAxisFrameHeader) : CAxisFrameHeader :=
  if hdr.fragNo = 0 then
    { toPackHeader := PackHeader.setSOF axis true hdr.toPackHeader, frameNo := (newFrameID frameNo).1 }
  else hdr

def nextFrameNo (frameNo : ℕ) (hdr : CAxisFrameHeader) : ℕ :=
  if hdr.fragNo = 0 then (newFrameID frameNo).2 else frameNo

/-- `hdr1`: the header of the fragment after the one with `hdr`. -/
def followHeader (hdr : CAxisFrameHeader) : CAxisFrameHeader :=
  { hdr with
    toPackHeader := PackHeader.setSOF axis false
      (PackHeader.setFragNo axis (hdr.fragNo + 1) hdr.toPackHeader) }

/-- The header of the next fragment goes before the rest, to a new buffer where there is no room. -/
def addHeader (hdr : CAxisFrameHeader) (bc : Chain) : Chain :=
  match bc.bufs with
  | [] => bc
  | b :: _ =>
    match b.adjPayload (-HEADER_SIZE) with
    | some b => bc.setHead (b.write 0 hdr.insert)
    | none => bc.addAtHead ((Buf.getBuf storage).write 0 hdr.insert)

/-- The fragment, and what is left of the chain. -/
def processOutput (frameNo : ℕ) (bc : Chain) : Except SendError (Chain × Option Chain × ℕ) :=
  match bc.bufs with
  | [] => .error .emptyChain
  | b :: _ =>
    match CAxisFrameHeader.parse b.getPayload b.getSize with
    | none => .error .invalidHeader
    | some hdr =>
      let bc := bc.setHead (b.write 0 (sendHeader frameNo hdr).insert)
      if fitsInMTU mtu bc.getSize then
        match appendTailByte mtu storage true bc with
        | .error e => .error e
        | .ok res => .ok (res, none, nextFrameNo frameNo hdr)
      else
        match moveLoop mtu bc.bufs.length 0 bc Chain.create with
        | (sz, bc, res) =>
          if sz = 0 then .error .unableToFragment
          else
            let bc := addHeader storage (followHeader (sendHeader frameNo hdr)) bc
            match appendTailByte mtu storage false res with
            | .error e => .error e
            | .ok res => .ok (res, some bc, nextFrameNo frameNo hdr)

/-- `while ( bc && bc->getSize() > 0 ) push( processOutput( &bc ) )` -/
def pushLoop : ℕ → ℕ → Option Chain → Except SendError (List Chain × ℕ)
  | 0, frameNo, _ => .ok ([], frameNo)
  | _, frameNo, none => .ok ([], frameNo)
  | n + 1, frameNo, some bc =>
    if bc.getSize = 0 then .ok ([], frameNo)
    else do
      let (res, bc, frameNo) ← processOutput mtu storage frameNo bc
      let (rest, frameNo) ← pushLoop n frameNo bc
      pure (res :: rest, frameNo)

/-- All the fragments of a chain; each takes one of its buffers, at least. -/
def pushAll (frameNo : ℕ) (bc : Chain) : Except SendError (List Chain × ℕ) :=
  pushLoop mtu storage (bc.bufs.length + 1) frameNo (some bc)

end CProtoModDepack

end Cpsw.Depack
