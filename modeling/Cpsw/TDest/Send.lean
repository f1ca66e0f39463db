import Cpsw.Depack.Chain
import Cpsw.TDest.Header

namespace Cpsw.TDest

open Cpsw.Depack

/-- What `sendFrag` throws, or the use of a buffer that is not there. -/
inductive SendError
  | buf (e : BufError)
  | invalidHeader
  | noSpaceForHeader
  | unableToFragment
  | nullBuf
  deriving DecidableEq, Repr

def SendError.text : SendError → String
  | .buf e => e.text
  | .invalidHeader => ""
  | .noSpaceForHeader => "Insufficient space for header"
  | .unableToFragment => "Unable to fragment individual buffers (bufs > MTU)"
  | .nullBuf => ""

structure Work where
  /-- The chain that is being fragmented. -/
  bc : Option Chain
  /-- The index of the next fragment, a 32-bit number. -/
  fragNo : ℕ
  tdest : UInt8
  stripHeader : Bool
  crc : UInt32
  deriving DecidableEq, Repr

def Work.new (tdest : UInt8) (stripHeader : Bool) : Work where
  bc := none
  fragNo := 0
  tdest := tdest
  stripHeader := stripHeader
  crc := 0

def Work.reset (bc : Chain) (w : Work) : Work := { w with bc := some bc, fragNo := 0, crc := 0xffffffff }

/-- `CProtoModTDestMux2::getMTU`, in a signed integer; one more tail is reserved for padding. -/
def getMTU (upstream : ℕ) : ℕ :=
  if upstream < 2 ^ 31 then upstream - (HEADER_SIZE + 2 * TAIL_SIZE) else 0

/-- The buffers that still fit move to the fragment; the loop does not look for the end. -/
def splitLoop (mtu : ℕ) (frag : Chain) (size : ℤ) : BufChain → Option (Chain × Chain)
  | [] => none
  | b :: bufs =>
    if frag.getSize + b.getSize ≤ mtu then splitLoop mtu (frag.addAtTail b) (size - b.getSize) bufs
    else some (frag, { bufs := b :: bufs, size := size })

/-- The chain of the fragment, and what is left; the last fragment takes the chain over. -/
def takeFrag (mtu : ℕ) (c : Chain) : Except SendError (Chain × Option Chain) :=
  if c.getSize ≤ mtu then .ok (c, none)
  else
    match splitLoop mtu Chain.create c.size c.bufs with
    | none => .error .nullBuf
    | some (frag, rest) =>
      if frag.bufs = [] then .error .unableToFragment else .ok (frag, some rest)

def writeHeader (hdr : CDepack2Header) (h : Buf) : Except SendError Buf :=
  if h.getSize < HEADER_SIZE then .error .noSpaceForHeader else .ok (h.write 0 hdr.insert)

/-- The header goes before the payload; a user's own header only lends some of its fields. -/
def addHeader (w : Work) (h : Buf) : Except SendError Buf :=
  let hdr := CDepack2Header.new w.fragNo w.tdest
  if !w.stripHeader && (w.fragNo + 1) % 2 ^ 32 == 1 then
    match CDepack2Header.parse h.getPayload h.getSize with
    | none => .error .invalidHeader
    | some theirs => writeHeader { hdr with tUsr1 := theirs.tUsr1, tId := theirs.tId } h
  else writeHeader hdr ((h.adjPayload (-HEADER_SIZE)).getD h)

/-- Room for padding and tail, behind the last buffer or in a new one; and the tail. -/
def makeTail (storage : Bytes) (stripHeader eof : Bool) (bc : Chain) :
    Except SendError (Chain × Bytes) :=
  match bc.bufs.getLast? with
  | none => .error .nullBuf
  | some t =>
    if !stripHeader && eof then
      let tail := (t.data.drop (t.fin - TAIL_SIZE)).take TAIL_SIZE
      if !CDepack2Header.tailIsAligned bc.getSize then .error .invalidHeader
      else
        match CDepack2Header.parseNumLanes tail with
        | none => .error .invalidHeader
        | some numLanes => .ok (bc, CDepack2Header.mkTail numLanes (CDepack2Header.parseTUsr2 tail) eof)
    else
      let algn := CDepack2Header.getTailPadding bc.getSize
      let tailSz := algn + TAIL_SIZE
      let numLanes := if bc.getSize + tailSz ≤ HEADER_SIZE + TAIL_SIZE then 0 else ALIGNMENT - algn
      let tail := CDepack2Header.mkTail numLanes 0 eof
      if t.getAvail ≥ tailSz then
        match t.setSize (t.getSize + tailSz) with
        | .error e => .error (.buf e)
        | .ok t => .ok (bc.setTail t, tail)
      else
        match (Buf.getBuf storage).setSize tailSz with
        | .error e => .error (.buf e)
        | .ok t => .ok (bc.addAtTail t, tail)

/-- The last eight bytes of a chain. -/
def putTail (tail : Bytes) (bc : Chain) : Chain :=
  match bc.bufs.getLast? with
  | none => bc
  | some t => bc.setTail (t.writeEnd tail)

/-- The CRC over the next `n` bytes. -/
def crcLoop (crc : UInt32) (n : ℕ) : BufChain → UInt32
  | [] => crc
  | b :: bufs =>
    let l := min b.getSize n
    crcLoop (crc32 crc (b.getPayload.take l)) (n - l) bufs

/-- `w.crc_` after a fragment; the CRC itself is left out. -/
def fragCrc (crcMode : ℕ) (crc : UInt32) (bc : Chain) : UInt32 :=
  match bc.bufs with
  | [] => crc
  | h :: bufs =>
    if crcMode = NONE then 0
    else if crcMode = DATA then
      crcLoop crc (bc.getSize - (HEADER_SIZE + TAIL_SIZE)) ({ h with beg := h.beg + HEADER_SIZE } :: bufs)
    else crcLoop crc (bc.getSize - 4) (h :: bufs)

/-- The fragment that is pushed upstream, and whether it was the last one. -/
def sendFrag (mtu : ℕ) (storage : Bytes) (w : Work) : Except SendError (Chain × Bool × Work) :=
  match w.bc with
  | none => .error .nullBuf
  | some c =>
    match takeFrag mtu c with
    | .error e => .error e
    | .ok (bc, rest) =>
      match bc.bufs with
      | [] => .error .nullBuf
      | h :: _ =>
        match addHeader w h with
        | .error e => .error e
        | .ok h =>
          match makeTail storage w.stripHeader rest.isNone (bc.setHead h) with
          | .error e => .error e
          | .ok (bc, tail) =>
            let crc := fragCrc (CDepack2Header.new w.fragNo w.tdest).crcMode w.crc (putTail tail bc)
            .ok (putTail (CDepack2Header.insertCrc (~~~crc) tail) bc, rest.isNone,
              { w with bc := rest, fragNo := (w.fragNo + 1) % 2 ^ 32, crc := crc })

/-- The slots with the queues of their ports, and what has been pushed upstream. -/
structure Muxer where
  work : List Work
  inputQueue : List (List Chain)
  sent : List Chain
  deriving DecidableEq, Repr

namespace Muxer

/-- One fragment of the slot `current`. -/
def send (mtu current : ℕ) (storage : Bytes) (w : Work) (m : Muxer) : Except SendError Muxer :=
  match sendFrag mtu storage w with
  | .error e => .error e
  | .ok (bc, _, w) => .ok { m with work := m.work.set current w, sent := m.sent ++ [bc] }

/-- One round of `process`, for the slot `current`. -/
def turn (mtu current : ℕ) (storage : Bytes) (m : Muxer) : Except SendError Muxer :=
  match m.work[current]? with
  | none => .ok m
  | some w =>
    match w.bc with
    | some _ => m.send mtu current storage w
    | none =>
      match m.inputQueue[current]? with
      | some (bc :: rest) =>
        { m with inputQueue := m.inputQueue.set current rest }.send mtu current storage (w.reset bc)
      | _ => .ok m

end Muxer

end Cpsw.TDest
