import Cpsw.Lib.ByteMem
import Cpsw.Srp.Header

namespace Cpsw.Srp

open ByteMux Depack Lib

inductive ReadError
  | noDst
  | truncated
  | terminated (status : SRPWord)
  | badStatus (status : SRPWord)
  | tid (e : SrpError)
  | timeOut
  deriving DecidableEq, Repr

def ReadError.text : ReadError → String
  | .noDst => "CSRPReadTransaction has no destination address"
  | .truncated => "Received message (read response) truncated"
  | .terminated _ => "SRP Read terminated with bad status"
  | .badStatus _ => "reading SRP"
  | .tid e => e.text
  | .timeOut => "No response -- timeout"

/-- `swpw`, on the bytes of a word -/
def swpw (host : ByteOrder) (buf : Bytes) : Bytes := host.store (swp32 (host.load buf))

/-- What a `CSRPReadTransaction` knows of its response. -/
structure CSRPReadTransaction where
  /-- 0 stands for NULL -/
  dst_ : ℕ
  sbytes_ : ℕ
  headBytes_ : ℕ
  /-- the words around the payload -/
  expected_ : ℕ
  /-- the words in front of it, but for one in version 1 -/
  hdrWords_ : ℕ
  tailBytes_ : ℕ
  xbuf_ : List SRPWord
  tid_ : SRPWord
  deriving DecidableEq, Repr

namespace CSRPReadTransaction

/-- `CSRPReadTransaction::reset` -/
def reset (a : Address) (tid : SRPWord) (dst : ℕ) (off : UInt64) (sbytes : ℕ) :
    CSRPReadTransaction where
  dst_ := dst
  sbytes_ := sbytes
  headBytes_ := a.headBytes off
  expected_ := (if a.protoVersion = .SRP_UDP_V1 then 1 else 0) +
    if a.protoVersion = .SRP_UDP_V3 then 6 else 3
  hdrWords_ := if a.protoVersion = .SRP_UDP_V3 then 5 else 2
  tailBytes_ :=
    let totbytes := a.headBytes off + sbytes
    if totbytes % 4 ≠ 0 then 4 - totbytes % 4 else 0
  xbuf_ := a.readHeader tid off sbytes
  tid_ := tid

def getTotbytes (t : CSRPReadTransaction) : ℕ := t.headBytes_ + t.sbytes_

def getNWords (t : CSRPReadTransaction) : ℕ := (t.getTotbytes + 3) / 4

/-- The bytes of the first word that are in the destination. -/
def hoff (t : CSRPReadTransaction) : ℕ := if t.headBytes_ ≠ 0 then 4 - t.headBytes_ else 0

/-- The first word is switched where the header holds a part of it. -/
def swapHead (t : CSRPReadTransaction) (host : ByteOrder) (rHdrBuf rTailBuf : Bytes) (m : Mem) :
    Mem :=
  if t.headBytes_ ≠ 0 then
    let tmp := (rHdrBuf.drop 8).take t.headBytes_
    -- a single word may cover header, destination and tail
    let tmp := tmp ++ if t.hoff > t.sbytes_ then m.get t.dst_ t.sbytes_ ++ rTailBuf
      else m.get t.dst_ t.hoff
    m.put t.dst_ (((swpw host tmp).drop t.headBytes_).take t.hoff)
  else m

/-- The words that are in the destination as a whole. -/
def nWhole (t : CSRPReadTransaction) : ℕ := (t.sbytes_ - t.hoff) / 4

def swapWhole (t : CSRPReadTransaction) (host : ByteOrder) (m : Mem) : Mem :=
  (List.range t.nWhole).foldl (fun m j ↦ m.modify (t.dst_ + t.hoff + 4 * j) 4 (swpw host)) m

def swapTail (t : CSRPReadTransaction) (host : ByteOrder) (rTailBuf : Bytes) (m : Mem) : Mem :=
  if t.tailBytes_ ≠ 0 ∧ t.hoff ≤ t.sbytes_ then
    let p := t.dst_ + t.hoff + 4 * t.nWhole
    let tmp := m.get p (4 - t.tailBytes_) ++ rTailBuf
    m.put p ((swpw host tmp).take (4 - t.tailBytes_))
  else m

/-- The payload is switched back to little endian. -/
def swapPayload (t : CSRPReadTransaction) (host : ByteOrder) (rHdrBuf rTailBuf : Bytes) (m : Mem) :
    Mem :=
  t.swapTail host rTailBuf (t.swapWhole host (t.swapHead host rHdrBuf rTailBuf m))

/-- `CSRPReadTransaction::complete`: what it throws, and the memory. -/
def complete (t : CSRPReadTransaction) (a : Address) (rchn : BufChain) (m : Mem) :
    Except ReadError Unit × Mem :=
  let got := total rchn
  if t.dst_ = 0 ∧ t.sbytes_ ≠ 0 then (.error .noDst, m)
  else
    let bufoff := if a.protoVersion = .SRP_UDP_V1 then 4 else 0
    let rHdrBuf := extract bufoff (t.hdrWords_ * 4 + t.headBytes_) rchn
    let bufoff := bufoff + (t.hdrWords_ * 4 + t.headBytes_)
    let m := m.put t.dst_ (extract bufoff t.sbytes_ rchn)
    let bufoff := bufoff + t.sbytes_
    let rTailBuf := extract bufoff t.tailBytes_ rchn
    let bufoff := bufoff + t.tailBytes_
    let srpStatus := extract bufoff 4 rchn
    let status (p : Bytes) := hdrSwap a.protoVersion a.host (a.host.load p)
    if got ≠ 4 * (t.getNWords + t.expected_) then
      if got < 4 * t.expected_ then (.error .truncated, m)
      else (.error (.terminated (status (extract (got - 4) 4 rchn))), m)
    else
      let m := if a.protoVersion = .SRP_UDP_V1 then t.swapPayload a.host rHdrBuf rTailBuf m else m
      if status srpStatus ≠ 0 then (.error (.badStatus (status srpStatus)), m) else (.ok (), m)

end CSRPReadTransaction

/-- What a caller of `read` finds: the last transaction identifier and the memory. -/
structure Client where
  tid_ : UInt32
  mem : Mem

/-- What `pop` returns for a request, one call after the other, and nothing when it times out. -/
abbrev Peer := List SRPWord → List (Option BufChain)

/-- The loops of `readBlk_unlocked`, with as many attempts left; `raw` is what `extractTid` finds on the
stack. -/
def readAttempts (a : Address) (raw : SRPWord) (t : CSRPReadTransaction) (m : Mem) :
    ℕ → List (Option BufChain) → Except ReadError Unit × Mem
  | _, [] => (.error .timeOut, m)
  | 0, none :: _ => (.error .timeOut, m)
  | attempts + 1, none :: pops => readAttempts a raw t m attempts pops
  | attempts, some rchn :: pops =>
    match extractTid a.protoVersion a.host raw rchn with
    | .error e => (.error (.tid e), m)
    | .ok tidBits =>
      if tidMatch tidBits t.tid_ then t.complete a rchn m else readAttempts a raw t m attempts pops

/-- `CSRPAddressImpl::readBlk_unlocked` -/
def readBlk_unlocked (a : Address) (raw : SRPWord) (peer : Peer) (s : Client) (dst : ℕ)
    (off : UInt64) (sbytes : ℕ) : Except ReadError ℕ × Client :=
  if sbytes = 0 then (.ok 0, s)
  else
    let tid := s.tid_ + tidLsb
    let t := CSRPReadTransaction.reset a (toTid tid) dst off sbytes
    let r := readAttempts a raw t s.mem a.retryCnt (peer t.xbuf_)
    (r.1.map fun _ ↦ sbytes, { tid_ := tid, mem := r.2 })

/-- The loop of `read`, when it goes round no more often than `rounds` says. -/
def readLoop (a : Address) (raw : SRPWord) (peer : Peer) (maxWordsRx : ℕ) :
    ℕ → Client → ℕ → UInt64 → ℕ → ℕ → ℕ → ℕ → Option (Except ReadError ℕ × Client)
  | rounds, s, dst, off, sbytes, nWords, headbytes, rval =>
    if nWords > maxWordsRx then
      match rounds with
      | 0 => none
      | rounds + 1 =>
        let nbytes := maxWordsRx * 4 - headbytes
        match readBlk_unlocked a raw peer s dst off nbytes with
        | (.error e, s) => some (.error e, s)
        | (.ok n, s) => readLoop a raw peer maxWordsRx rounds s (dst + nbytes) (off + .ofNat nbytes)
          (sbytes - nbytes) (nWords - maxWordsRx) 0 (rval + n)
    else
      let r := readBlk_unlocked a raw peer s dst off sbytes
      some (r.1.map (rval + ·), r.2)

/-- `CSRPAddressImpl::read` -/
def read (a : Address) (raw : SRPWord) (peer : Peer) (maxWordsRx : ℕ) (s : Client) (dst : ℕ)
    (off : UInt64) (nbytes : ℕ) : Option (Except ReadError ℕ × Client) :=
  if nbytes = 0 then some (.ok 0, s)
  else
    let headbytes := a.headBytes off
    let nWords := (headbytes + nbytes + 3) / 4
    readLoop a raw peer maxWordsRx nWords s dst off nbytes nWords headbytes 0

end Cpsw.Srp
