import Cpsw.Lib.Throw
import Cpsw.TDest.Receive

namespace Cpsw.ByteMux

open Depack Lib TDest

/-- Some bytes of a buffer are read, from `getPayload() + off` on. -/
structure Access where
  buf : Buf
  off : ℕ
  len : ℕ
  deriving DecidableEq, Repr

/-- What ends the thread of a multiplexer. -/
inductive MuxError
  | port (e : PortError)
  | internalError
  deriving DecidableEq, Repr

/-- What the thread does, with a record of what it reads. -/
abbrev MuxM := Throw MuxError (List Access)

def note (b : Buf) (off len : ℕ) : MuxM PUnit := modify (· ++ [⟨b, off, len⟩])

/-- `memcpy(…, getPayload() + off, len)` -/
def load (b : Buf) (off len : ℕ) : MuxM Bytes := do
  note b off len
  let p := (b.getPayload.drop off).take len
  if p.length < len then throw (.port .outOfStorage) else return p

def parseVersion (b : Buf) : MuxM ℕ := do
  let p ← load b 0 1
  return getNum VERSION_BIT_OFFSET VERSION_BIT_SIZE p

variable (L : Layout)

def parseHeaderSize (b : Buf) : MuxM ℕ := do
  let v ← parseVersion b
  if v ≠ L.VERSION then throw (.port .invalidHeader) else return HEADER_SIZE

def parseTailSize (b : Buf) : MuxM ℕ := do
  let v ← parseVersion b
  if v ≠ L.VERSION then throw (.port .invalidHeader) else return L.TAIL_SIZE

def parseTDest (b : Buf) : MuxM UInt8 := do
  let v ← parseVersion b
  if v ≠ L.VERSION ∨ b.getSize < HEADER_SIZE then throw (.port .invalidHeader)
  else do
    let p ← load b (L.TDEST_BIT_OFFSET / 8) 1
    return p.headD 0

/-- `extractDest` of `CProtoModTDestMux` and of `CProtoModTDestMux2`. -/
def extractTDest (bc : BufChain) : MuxM (Option UInt8) :=
  match bc with
  | [] => throw (.port .nullBuf)
  | b :: _ => do
    let dest ← parseTDest L b
    return some dest

/-- A port has an output queue: the builder sees to it. -/
structure CTDestPort where
  stripHeader : Bool
  /-- What has been passed downstream. -/
  pushed : List BufChain
  deriving DecidableEq, Repr

/-- `CTDestPort::pushDownstream` -/
def CTDestPort.pushDownstream (bc : BufChain) (s : CTDestPort) : MuxM CTDestPort :=
  if s.stripHeader then
    match bc with
    | [] => throw (.port .nullBuf)
    | b :: rest => do
      let hsize ← parseHeaderSize axis b
      let tsize ← parseTailSize axis b
      let bc := (b.adjPayload hsize).getD b :: rest
      match bc.getLast? with
      | none => throw (.port .nullBuf)
      | some t =>
        match t.setSize ((t.getSize : ℤ) - tsize) with
        | .error e => throw (.port (.buf e))
        | .ok t => return { s with pushed := s.pushed ++ [bc.dropLast ++ [t]] }
  else return { s with pushed := s.pushed ++ [bc] }

/-- What the constructor of `CDepack2Header` reads. -/
def notedParse (b : Buf) : MuxM (Option CDepack2Header) := do
  if 1 ≤ b.getSize then note b 0 1
  let hdr := CDepack2Header.parse b.getPayload b.getSize
  if hdr.isSome then note b 0 HEADER_SIZE
  return hdr

/-- `CTDestPort2.readTail`, with what it reads. -/
def notedTail (bc : BufChain) : MuxM (Option Bytes) :=
  match bc.reverse with
  | [] => throw (.port .nullBuf)
  | t :: prev => do
    let tailsz := t.getSize
    let tailcpy := min TAIL_SIZE tailsz
    let prevcpy := TAIL_SIZE - tailcpy
    let high ← load t (tailsz - tailcpy) tailcpy
    if prevcpy > 0 then
      match prev with
      | [] => throw (.port .nullBuf)
      | p :: _ =>
        if p.getSize < prevcpy then return none
        else do
          let low ← load t (p.getSize - prevcpy) prevcpy
          return some (low ++ high)
    else return some high

/-- `CTDestPort2.pushDownstream`, with what it reads. -/
def pushDownstream2 (bc : BufChain) (s : CTDestPort2) : MuxM CTDestPort2 :=
  match bc with
  | [] => throw (.port .nullBuf)
  | b :: _ => do
    match ← notedParse b with
    | none => return s
    | some hdr =>
      if HEADER_SIZE + TAIL_SIZE > total bc then return s
      else do
        let sof := CDepack2Header.isFirst b.getPayload
        match ← notedTail bc with
        | none => return s
        | some tail =>
          let eof := parseTailEOF depack2 tail
          match CDepack2Header.parseNumLanes tail with
          | none => return s
          | some numLanes =>
            match s.strip sof eof numLanes bc with
            | .error e => throw (.port e)
            | .ok none => return s
            | .ok (some bc) => return s.accept sof eof hdr.fragNo bc

inductive SRPProtoVersion
  | SRP_UDP_NONE
  | SRP_UDP_V1
  | SRP_UDP_V2
  | SRP_UDP_V3
  deriving DecidableEq, Repr

/-- `VC_OFF_V1`, `VC_OFF_V2` and `VC_OFF_V3` -/
def SRPProtoVersion.vcOff : SRPProtoVersion → Option ℕ
  | SRP_UDP_NONE => none
  | SRP_UDP_V1 => some 4
  | SRP_UDP_V2 => some 3
  | SRP_UDP_V3 => some 7

/-- `extract(&vc, off, 1)` -/
def extractByte : ℕ → BufChain → MuxM UInt8
  | _, [] => return 0
  | off, b :: rest =>
    if b.getSize ≤ off then extractByte (off - b.getSize) rest
    else do
      let p ← load b off 1
      return p.headD 0

/-- `CProtoModSRPMux::extractDest` -/
def extractVC (v : SRPProtoVersion) (bc : BufChain) : MuxM (Option UInt8) :=
  match v.vcOff with
  | none => throw .internalError
  | some off =>
    if total bc ≤ off then return none
    else do
      let vc ← extractByte off bc
      return some vc

structure CSRPPort where
  pushed : List BufChain
  deriving DecidableEq, Repr

def CSRPPort.pushDownstream (bc : BufChain) (s : CSRPPort) : MuxM CSRPPort :=
  return { s with pushed := s.pushed ++ [bc] }

/-- The multiplexers that are a `CProtoModByteMux`. -/
inductive Kind
  | tdest
  | tdest2
  | srp (v : SRPProtoVersion)
  deriving DecidableEq, Repr

namespace Kind

def Port : Kind → Type
  | tdest => CTDestPort
  | tdest2 => CTDestPort2
  | srp _ => CSRPPort

/-- `none` stands for a number less than `DEST_MIN`. -/
def extractDest : Kind → BufChain → MuxM (Option UInt8)
  | tdest => extractTDest axis
  | tdest2 => extractTDest depack2
  | srp v => extractVC v

def pushDownstream : (k : Kind) → BufChain → k.Port → MuxM k.Port
  | tdest => CTDestPort.pushDownstream
  | tdest2 => pushDownstream2
  | srp _ => CSRPPort.pushDownstream

/-- `downstream_` -/
abbrev Downstream (k : Kind) := UInt8 → Option k.Port

def pushDown (k : Kind) (ds : k.Downstream) (bc : BufChain) : MuxM k.Downstream := do
  match ← k.extractDest bc with
  | none => return ds
  | some dest =>
    match ds dest with
    | none => return ds
    | some prt => do
      let prt ← k.pushDownstream bc prt
      return Function.update ds dest (some prt)

end Kind

end Cpsw.ByteMux
